/-!
# Walks through a graph

A depth-first walk visits every node of a graph and follows every edge once. An edge that leads back
to a node on the way to where the walk is closes a loop. The walk is a step function on a state with
an explicit stack; every step makes the work that is left smaller, so the walk ends.
-/

namespace CallContract

/-- An edge to a node, with what is known about it. -/
structure Edge (α : Type) where
  target : Nat
  label : α
  deriving DecidableEq, Repr

/-- The edges that leave node 0, node 1, and so on. -/
abbrev Graph (α : Type) := List (List (Edge α))

def Graph.edges {α : Type} (g : Graph α) (node : Nat) : List (Edge α) := g.getD node []

/-- What a walk knows about a node. -/
inductive Mark where
  | unvisited
  | active
  | done
  deriving DecidableEq, Repr

/-- A node on the way, and the edges that are still to be followed from it. -/
structure Frame (α : Type) where
  node : Nat
  ahead : List (Edge α)
  deriving DecidableEq, Repr

/-- An edge back to a node on the way. The nodes lead from its target along the way to where it was
followed, and end with the target. -/
structure Loop (α : Type) where
  edge : Edge α
  nodes : List Nat
  deriving DecidableEq, Repr

/-- The state of a walk: marks of the nodes, the way to where the walk is (innermost first), and the
loops found so far. -/
structure Walk (α : Type) where
  marks : List Mark
  stack : List (Frame α)
  loops : List (Loop α)
  deriving DecidableEq, Repr

namespace Walk

variable {α : Type}

/-- The walk before its first step. -/
def start (g : Graph α) : Walk α := ⟨g.map fun _ => .unvisited, [], []⟩

def enter (g : Graph α) (w : Walk α) (node : Nat) : Walk α :=
  { w with marks := w.marks.set node .active, stack := ⟨node, g.edges node⟩ :: w.stack }

/-- The loop that an edge to a node on the way closes. -/
def close (w : Walk α) (e : Edge α) : Loop α :=
  let back := (w.stack.map (·.node)).takeWhile (· ≠ e.target)
  ⟨e, e.target :: back.reverse ++ [e.target]⟩

def follow (g : Graph α) (w : Walk α) (e : Edge α) : Walk α :=
  match w.marks[e.target]? with
  | some .unvisited => w.enter g e.target
  -- The target is on the way, so the way from it to here and the edge back make a loop.
  | some .active => { w with loops := w.loops ++ [w.close e] }
  | _ => w

/-- One step: follows the next edge, or leaves a node without further edges, or, off any way, goes
to the first node that was not visited; nothing if there is none. -/
def step (g : Graph α) (w : Walk α) : Option (Walk α) :=
  match w.stack with
  | [] => (w.marks.findIdx? (· = .unvisited)).map (w.enter g)
  | ⟨node, []⟩ :: below => some { w with marks := w.marks.set node .done, stack := below }
  | ⟨node, e :: ahead⟩ :: below => some (follow g { w with stack := ⟨node, ahead⟩ :: below } e)

/-! ## The work that is left -/

/-- The work of the nodes that were not visited. -/
def unseen : Graph α → List Mark → Nat
  | _, [] => 0
  -- A step for each edge, one to go to the node and one to leave it.
  | g, m :: ms => (if m = .unvisited then g.head?.elim 0 List.length + 2 else 0) + unseen g.tail ms

/-- The work of the nodes on the way. -/
def pending : List (Frame α) → Nat
  | [] => 0
  | f :: below => f.ahead.length + 1 + pending below

/-- All work that is left. -/
def work (g : Graph α) (w : Walk α) : Nat := unseen g w.marks + pending w.stack

theorem unseen_set_le (g : Graph α) (ms : List Mark) (i : Nat) {m : Mark} (hm : m ≠ .unvisited) :
    unseen g (ms.set i m) ≤ unseen g ms := by
  induction ms generalizing g i with
  | nil => simp
  | cons x ms ih =>
    cases i with
    | zero => simp [unseen, hm]
    | succ i =>
      simp only [List.set_cons_succ, unseen]
      exact Nat.add_le_add_left (ih g.tail i) _

theorem unseen_set_active {g : Graph α} {ms : List Mark} {i : Nat} (h : ms[i]? = some .unvisited) :
    unseen g (ms.set i .active) + ((g.edges i).length + 2) = unseen g ms := by
  induction ms generalizing g i with
  | nil => simp at h
  | cons x ms ih =>
    cases i with
    | zero =>
      simp only [List.getElem?_cons_zero, Option.some.injEq] at h
      subst h
      cases g <;> simp [unseen, Graph.edges] <;> omega
    | succ i =>
      simp only [List.getElem?_cons_succ] at h
      have hi : unseen g.tail (ms.set i .active) + ((Graph.edges g.tail i).length + 2) =
          unseen g.tail ms := ih h
      have he : Graph.edges g.tail i = g.edges (i + 1) := by
        cases g <;> simp [Graph.edges]
      simp only [List.set_cons_succ, unseen]
      rw [← hi, he]
      omega

/-- Going to a node that was not visited leaves less work. -/
theorem work_enter_lt {g : Graph α} {w : Walk α} {node : Nat}
    (h : w.marks[node]? = some .unvisited) : work g (w.enter g node) < work g w := by
  have hu := unseen_set_active (g := g) h
  simp only [work, enter, pending]
  omega

theorem work_follow_le (g : Graph α) (w : Walk α) (e : Edge α) :
    work g (w.follow g e) ≤ work g w := by
  unfold follow
  split
  · exact Nat.le_of_lt (work_enter_lt (by assumption))
  · exact Nat.le_refl _
  · exact Nat.le_refl _

/-- Every step leaves less work. -/
theorem work_step_lt {g : Graph α} {w next : Walk α} (h : w.step g = some next) :
    work g next < work g w := by
  obtain ⟨marks, stack, loops⟩ := w
  unfold step at h
  split at h
  · simp only [Option.map_eq_some_iff] at h
    obtain ⟨i, hi, rfl⟩ := h
    apply work_enter_lt
    obtain ⟨hlt, hm, -⟩ := List.findIdx?_eq_some_iff_getElem.1 hi
    simpa [List.getElem?_eq_getElem hlt] using hm
  · rename_i node below hs
    simp only [Option.some.injEq] at h
    subst h
    simp only at hs
    subst hs
    have := unseen_set_le g marks node (by decide : Mark.done ≠ .unvisited)
    simp only [work, pending, List.length_nil]
    omega
  · rename_i node e ahead below hs
    simp only [Option.some.injEq] at h
    subst h
    simp only at hs
    subst hs
    refine Nat.lt_of_le_of_lt (work_follow_le g _ e) ?_
    simp only [work, pending, List.length_cons]
    omega

/-- Goes on until there is no step left. -/
def run (g : Graph α) (w : Walk α) : Walk α :=
  match h : w.step g with
  | none => w
  | some next =>
    have := work_step_lt h
    run g next
termination_by work g w

end Walk

/-- The loops that a walk through the whole graph finds, in the order of finding. -/
def Graph.loops {α : Type} (g : Graph α) : List (Loop α) := (Walk.run g (Walk.start g)).loops

end CallContract
