import CallContract.Proofs.Trails
import Mathlib.Data.List.Nodup

/-!
# The invariant of a walk

What holds of a walk after any number of steps, together with its history: the edges that were
followed, those of them that closed a loop, and the nodes that were left.  The stack is a way
through the graph, every node that was left is ordered before the nodes it leads to by an edge that
closed no loop, and no edge is followed twice.  A step keeps the invariant (`Invariant.step`), so it
holds at the end (`Invariant.run`), when every node has been left and what was followed are the
edges that the states of the run follow next.
-/

namespace CallContract

variable {α : Type} {g : Graph α}

/-- The number of edges that were followed from the node of a frame. -/
def Frame.passed (g : Graph α) (f : Frame α) : Nat := (g.edges f.node).length - f.ahead.length

/-- The edge in the place closes the loop: the nodes of the loop are those of a trail from the
target of the edge to the node it leaves, and the target again. -/
def Graph.Closes (g : Graph α) (p : EdgePlace) (l : Loop α) : Prop :=
  g.edge? p = some l.edge ∧
    ∃ ps, g.Trail l.edge.target ps p.node ∧ l.nodes = ps.map (·.node) ++ [p.node, l.edge.target]

namespace Walk

/-- What a walk did so far. Of the nodes that were left the last one comes first. -/
structure History where
  followed : List EdgePlace
  closing : List EdgePlace
  left : List Nat

/-- The nodes on the way, innermost first. -/
def nodes (w : Walk α) : List Nat := w.stack.map (·.node)

/-- The frames are a way: the last edge followed from a frame leads to the node of the frame above
it, or from the first frame to where the walk is about to go, and the other edges followed from it
closed a loop or lead to a node that was left. -/
def Way (g : Graph α) (h : History) : Option Nat → List (Frame α) → Prop
  | _, [] => True
  | toward, f :: below =>
    (∀ v ∈ toward, ∃ k e, f.passed g = k + 1 ∧ g.edge? ⟨f.node, k⟩ = some e ∧ e.target = v) ∧
      (∀ k e, k < f.passed g → g.edge? ⟨f.node, k⟩ = some e →
        ⟨f.node, k⟩ ∈ h.closing ∨ e.target ∈ h.left ∨ toward.isSome ∧ f.passed g = k + 1) ∧
      Way g h (some f.node) below

/-- The edge that the next step follows. -/
def follows? (g : Graph α) (w : Walk α) : Option EdgePlace :=
  match w.stack with
  | ⟨node, e :: ahead⟩ :: _ => some ⟨node, Frame.passed g ⟨node, e :: ahead⟩⟩
  | _ => none

/-- The states of a walk from here on, until there is no step left. -/
def states (g : Graph α) (w : Walk α) : List (Walk α) :=
  match h : w.step g with
  | none => [w]
  | some next =>
    have := work_step_lt h
    w :: states g next
termination_by work g w

/-- What holds of a walk and its history. A walk that has followed an edge and has not yet looked at
its target is about to go there; between steps it is not about to go anywhere. -/
structure Invariant (g : Graph α) (w : Walk α) (h : History) (toward : Option Nat) : Prop where
  marks_length : w.marks.length = g.length
  active_iff : ∀ u, w.marks[u]? = some .active ↔ u ∈ w.nodes
  done_iff : ∀ u, w.marks[u]? = some .done ↔ u ∈ h.left
  nodes_nodup : w.nodes.Nodup
  left_nodup : h.left.Nodup
  suffix : ∀ f ∈ w.stack, f.ahead <:+ g.edges f.node
  way : Way g h toward w.stack
  ordered : g.Ordered h.closing h.left
  followed_iff : ∀ p, p ∈ h.followed ↔
    (p.node ∈ h.left ∧ p.index < (g.edges p.node).length) ∨
      ∃ f ∈ w.stack, f.node = p.node ∧ p.index < f.passed g
  followed_nodup : h.followed.Nodup
  closing_sublist : h.closing.Sublist h.followed
  loops : List.Forall₂ g.Closes h.closing w.loops

/-! ## 1. Frames -/

theorem edge?_passed {node : Nat} {e : Edge α} {ahead : List (Edge α)}
    (h : (e :: ahead) <:+ g.edges node) :
    g.edge? ⟨node, Frame.passed g ⟨node, e :: ahead⟩⟩ = some e := by
  rcases h with ⟨before, hb⟩
  simp [Graph.edge?, Frame.passed, ← hb]

theorem passed_cons {node : Nat} {e : Edge α} {ahead : List (Edge α)}
    (h : (e :: ahead) <:+ g.edges node) :
    Frame.passed g ⟨node, ahead⟩ = Frame.passed g ⟨node, e :: ahead⟩ + 1 := by
  have hle := h.length_le
  simp only [List.length_cons] at hle
  simp only [Frame.passed, List.length_cons]
  omega

@[simp] theorem passed_edges (node : Nat) : Frame.passed g ⟨node, g.edges node⟩ = 0 := by
  simp [Frame.passed]

@[simp] theorem passed_nil (node : Nat) :
    Frame.passed g ⟨node, []⟩ = (g.edges node).length := by
  simp [Frame.passed]

/-! ## 2. The way -/

theorem Way.mono {h h' : History} {toward : Option Nat} {stack : List (Frame α)}
    (hw : Way g h toward stack) (hclosing : h.closing ⊆ h'.closing) (hleft : h.left ⊆ h'.left) :
    Way g h' toward stack := by
  induction stack generalizing toward with
  | nil => trivial
  | cons f below ih =>
    rcases hw with ⟨hlast, hpassed, hbelow⟩
    refine ⟨hlast, fun k e hk he => ?_, ih hbelow⟩
    rcases hpassed k e hk he with hc | hl | hlast
    · exact .inl (hclosing hc)
    · exact .inr (.inl (hleft hl))
    · exact .inr (.inr hlast)

/-- A way that leads to a node need not go there if that node was left, or if the last edge closed a
loop. -/
theorem Way.settle {h : History} {v : Nat} {stack : List (Frame α)}
    (hw : Way g h (some v) stack)
    (hv : v ∈ h.left ∨ ∀ f ∈ stack.head?, ∀ k, f.passed g = k + 1 → ⟨f.node, k⟩ ∈ h.closing) :
    Way g h none stack := by
  cases stack with
  | nil => trivial
  | cons f below =>
    rcases hw with ⟨hlast, hpassed, hbelow⟩
    refine ⟨by simp, fun k e hk he => ?_, hbelow⟩
    rcases hpassed k e hk he with hc | hl | ⟨-, hk'⟩
    · exact .inl hc
    · exact .inr (.inl hl)
    · rcases hv with hv | hv
      · rcases hlast v rfl with ⟨k', e', hk'', he', rfl⟩
        obtain rfl : k = k' := by omega
        obtain rfl : e = e' := Option.some.inj (he.symm.trans he')
        exact .inr (.inl hv)
      · exact .inl (hv f rfl k hk')

/-- From every node on the way the frames above it are a trail to where the walk is. -/
theorem Way.exists_trail {h : History} {toward : Option Nat} {f : Frame α}
    {below : List (Frame α)} (hw : Way g h toward (f :: below)) {v : Nat}
    (hv : v ∈ (f :: below).map (·.node)) :
    ∃ ps, g.Trail v ps f.node ∧ ps.map (·.node) ++ [f.node] =
      v :: (((f :: below).map (·.node)).takeWhile (· ≠ v)).reverse := by
  -- From the top frame down: each frame below puts one more edge behind the trail to it.
  induction below generalizing f toward with
  | nil =>
    have hvf : v = f.node := by simpa using hv
    subst hvf
    exact ⟨[], .nil _, by simp⟩
  | cons f' below ih =>
    by_cases hvf : f.node = v
    · subst hvf
      exact ⟨[], .nil _, by simp⟩
    · have hv' : v ∈ (f' :: below).map (·.node) := by
        simpa [Ne.symm hvf] using hv
      rcases hw with ⟨-, -, hbelow⟩
      rcases ih hbelow hv' with ⟨ps, htrail, hnodes⟩
      rcases hbelow.1 f.node rfl with ⟨k, e, -, he, htarget⟩
      refine ⟨ps ++ [⟨f'.node, k⟩], htarget ▸ htrail.append (.single he), ?_⟩
      have htake : ((f :: f' :: below).map (·.node)).takeWhile (· ≠ v) =
          f.node :: ((f' :: below).map (·.node)).takeWhile (· ≠ v) := by
        rw [List.map_cons, List.takeWhile_cons_of_pos (by simpa using hvf)]
      rw [htake, List.reverse_cons, ← List.cons_append, ← hnodes, List.map_append]
      rfl

/-! ## 3. Single moves -/

theorem Invariant.start (g : Graph α) : Invariant g (start g) ⟨[], [], []⟩ none where
  marks_length := by simp [Walk.start]
  active_iff u := by simp [Walk.start, nodes, List.getElem?_replicate]
  done_iff u := by simp [Walk.start, List.getElem?_replicate]
  nodes_nodup := List.nodup_nil
  left_nodup := List.nodup_nil
  suffix := by simp [Walk.start]
  way := trivial
  ordered := trivial
  followed_iff := by simp [Walk.start]
  followed_nodup := List.nodup_nil
  closing_sublist := List.Sublist.refl _
  loops := .nil

/-- Going to a node that was not visited, after an edge that leads there or off any way. -/
theorem Invariant.enter {w : Walk α} {h : History} {v : Nat} (hi : Invariant g w h (some v))
    (hv : w.marks[v]? = some .unvisited) : Invariant g (w.enter g v) h none := by
  rcases List.getElem?_eq_some_iff.1 hv with ⟨hlt, hget⟩
  have hnot : v ∉ w.nodes := by
    rw [← hi.active_iff, hv]
    simp
  have hnodes : (w.enter g v).nodes = v :: w.nodes := rfl
  constructor
  case marks_length => simp [Walk.enter, hi.marks_length]
  case active_iff =>
    intro u
    rw [hnodes, List.mem_cons, ← hi.active_iff]
    by_cases huv : u = v
    · simp [Walk.enter, huv, hlt]
    · simp [Walk.enter, huv, List.getElem?_set_ne (Ne.symm huv)]
  case done_iff =>
    intro u
    rw [← hi.done_iff]
    by_cases huv : u = v
    · simp [Walk.enter, huv, hlt, hget]
    · simp [Walk.enter, List.getElem?_set_ne (Ne.symm huv)]
  case nodes_nodup =>
    rw [hnodes]
    exact List.nodup_cons.2 ⟨hnot, hi.nodes_nodup⟩
  case left_nodup => exact hi.left_nodup
  case suffix =>
    intro f hf
    rcases List.mem_cons.1 hf with rfl | hf
    · exact List.suffix_refl _
    · exact hi.suffix f hf
  case way => exact ⟨by simp, by simp, hi.way⟩
  case ordered => exact hi.ordered
  case followed_iff =>
    intro p
    simp [Walk.enter, hi.followed_iff]
  case followed_nodup => exact hi.followed_nodup
  case closing_sublist => exact hi.closing_sublist
  case loops => exact hi.loops

/-- Leaving a node without further edges. -/
theorem Invariant.leave {marks : List Mark} {node : Nat} {below : List (Frame α)}
    {loops : List (Loop α)} {h : History}
    (hi : Invariant g ⟨marks, ⟨node, []⟩ :: below, loops⟩ h none) :
    Invariant g ⟨marks.set node .done, below, loops⟩ { h with left := node :: h.left } none := by
  have hactive : marks[node]? = some .active := (hi.active_iff node).2 (by simp [nodes])
  rcases List.getElem?_eq_some_iff.1 hactive with ⟨hlt, -⟩
  have hnot : node ∉ h.left := by
    rw [← hi.done_iff, hactive]
    simp
  rcases List.nodup_cons.1 hi.nodes_nodup with ⟨hnode, hnd⟩
  rcases hi.way with ⟨-, hpassed, hbelow⟩
  constructor
  case marks_length => simpa using hi.marks_length
  case active_iff =>
    intro u
    by_cases huv : u = node
    · subst huv
      simpa [nodes, hlt] using hnode
    · rw [List.getElem?_set_ne (Ne.symm huv)]
      simpa [nodes, huv] using hi.active_iff u
  case done_iff =>
    intro u
    by_cases huv : u = node
    · simp [huv, hlt]
    · rw [List.getElem?_set_ne (Ne.symm huv)]
      simpa [huv] using hi.done_iff u
  case nodes_nodup => exact hnd
  case left_nodup => exact List.nodup_cons.2 ⟨hnot, hi.left_nodup⟩
  case suffix => exact fun f hf => hi.suffix f (List.mem_cons_of_mem _ hf)
  case way =>
    have hmono : Way g { h with left := node :: h.left } (some node) below :=
      hbelow.mono (List.Subset.refl _) (List.subset_cons_self _ _)
    exact hmono.settle (.inl List.mem_cons_self)
  case ordered =>
    -- All edges of the node were followed, and none of them leads to where the walk is going.
    refine ⟨fun k e he => ?_, hi.ordered⟩
    have hk : k < Frame.passed g ⟨node, []⟩ := by
      simpa using Graph.lt_length_edges_of_edge? he
    simpa using hpassed k e hk he
  case followed_iff =>
    intro p
    rw [hi.followed_iff]
    simp only [List.mem_cons, exists_eq_or_imp, passed_nil]
    constructor
    -- The places of the frame become those of a node that was left.
    · rintro (⟨hp, hk⟩ | ⟨hp, hk⟩ | hf)
      · exact .inl ⟨.inr hp, hk⟩
      · exact .inl ⟨.inl hp.symm, hp ▸ hk⟩
      · exact .inr hf
    · rintro (⟨hp | hp, hk⟩ | hf)
      · exact .inr (.inl ⟨hp.symm, hp ▸ hk⟩)
      · exact .inl ⟨hp, hk⟩
      · exact .inr (.inr hf)
  case followed_nodup => exact hi.followed_nodup
  case closing_sublist => exact hi.closing_sublist
  case loops => exact hi.loops

/-- Following the next edge, before its target is looked at. -/
theorem Invariant.advance {marks : List Mark} {node : Nat} {e : Edge α} {ahead : List (Edge α)}
    {below : List (Frame α)} {loops : List (Loop α)} {h : History}
    (hi : Invariant g ⟨marks, ⟨node, e :: ahead⟩ :: below, loops⟩ h none) :
    Invariant g ⟨marks, ⟨node, ahead⟩ :: below, loops⟩
      { h with followed := h.followed ++ [⟨node, Frame.passed g ⟨node, e :: ahead⟩⟩] }
      (some e.target) := by
  have hsuffix : (e :: ahead) <:+ g.edges node := hi.suffix _ List.mem_cons_self
  have hpassed := passed_cons hsuffix
  have hedge := edge?_passed hsuffix
  have hactive : marks[node]? = some .active := (hi.active_iff node).2 (by simp [nodes])
  have hnot : node ∉ h.left := by
    rw [← hi.done_iff, hactive]
    simp
  rcases List.nodup_cons.1 hi.nodes_nodup with ⟨hnode, -⟩
  rcases hi.way with ⟨-, hbefore, hbelow⟩
  constructor
  case marks_length => exact hi.marks_length
  case active_iff => exact hi.active_iff
  case done_iff => exact hi.done_iff
  case nodes_nodup => exact hi.nodes_nodup
  case left_nodup => exact hi.left_nodup
  case suffix =>
    intro f hf
    rcases List.mem_cons.1 hf with rfl | hf
    · exact (List.suffix_cons _ _).trans hsuffix
    · exact hi.suffix f (List.mem_cons_of_mem _ hf)
  case way =>
    refine ⟨?_, fun k e' hk he' => ?_, hbelow.mono (List.Subset.refl _) (List.Subset.refl _)⟩
    · rintro v ⟨⟩
      exact ⟨_, e, hpassed, hedge, rfl⟩
    · by_cases hlast : k < Frame.passed g ⟨node, e :: ahead⟩
      · rcases hbefore k e' hlast he' with hc | hl | ⟨hnone, -⟩
        · exact .inl hc
        · exact .inr (.inl hl)
        · simp at hnone
      · exact .inr (.inr ⟨rfl, by omega⟩)
  case ordered => exact hi.ordered
  case followed_iff =>
    intro p
    have hplace : p = ⟨node, Frame.passed g ⟨node, e :: ahead⟩⟩ ↔
        node = p.node ∧ p.index = Frame.passed g ⟨node, e :: ahead⟩ := by
      rw [EdgePlace.ext_iff, eq_comm (a := p.node)]
    rw [List.mem_append, hi.followed_iff, List.mem_singleton, hplace]
    simp only [List.mem_cons, exists_eq_or_imp, hpassed, Nat.lt_succ_iff_lt_or_eq, and_or_left]
    rw [or_assoc, or_assoc, or_assoc, or_comm (b := node = p.node ∧ p.index = _)]
  case followed_nodup =>
    -- The node was not left, and no other frame is at it.
    have hnew : (⟨node, Frame.passed g ⟨node, e :: ahead⟩⟩ : EdgePlace) ∉ h.followed := by
      rw [hi.followed_iff]
      rintro (⟨hl, -⟩ | ⟨f, hf, hfn, hlt⟩)
      · exact hnot hl
      · rcases List.mem_cons.1 hf with rfl | hf
        · exact Nat.lt_irrefl _ hlt
        · exact hnode (List.mem_map.2 ⟨f, hf, hfn⟩)
    simpa using List.Nodup.concat hnew hi.followed_nodup
  case closing_sublist => exact hi.closing_sublist.trans (List.sublist_append_left _ _)
  case loops => exact hi.loops

/-- The edge just followed closes a loop. -/
theorem Invariant.close {marks : List Mark} {node k : Nat} {e : Edge α} {ahead : List (Edge α)}
    {below : List (Frame α)} {loops : List (Loop α)} {h : History}
    (hi : Invariant g ⟨marks, ⟨node, ahead⟩ :: below, loops⟩ h (some e.target))
    (hk : Frame.passed g ⟨node, ahead⟩ = k + 1) (he : g.edge? ⟨node, k⟩ = some e)
    (hsub : List.Sublist (h.closing ++ [⟨node, k⟩]) h.followed)
    (hactive : marks[e.target]? = some .active) :
    Invariant g
      ⟨marks, ⟨node, ahead⟩ :: below,
        loops ++ [Walk.close ⟨marks, ⟨node, ahead⟩ :: below, loops⟩ e]⟩
      { h with closing := h.closing ++ [⟨node, k⟩] } none := by
  -- An active target is a node on the way, so the frames from there on are the trail of the loop.
  have hmem : e.target ∈ ((⟨node, ahead⟩ : Frame α) :: below).map (·.node) :=
    (hi.active_iff _).1 hactive
  rcases hi.way.exists_trail hmem with ⟨ps, htrail, hnodes⟩
  have hcloses : g.Closes ⟨node, k⟩ (Walk.close ⟨marks, ⟨node, ahead⟩ :: below, loops⟩ e) := by
    refine ⟨he, ps, htrail, ?_⟩
    have hsplit : ps.map (·.node) ++ [node, e.target] =
        ps.map (·.node) ++ [node] ++ [e.target] := by simp
    rw [Walk.close, hsplit, hnodes]
  constructor
  case marks_length => exact hi.marks_length
  case active_iff => exact hi.active_iff
  case done_iff => exact hi.done_iff
  case nodes_nodup => exact hi.nodes_nodup
  case left_nodup => exact hi.left_nodup
  case suffix => exact hi.suffix
  case way =>
    have hmono : Way g { h with closing := h.closing ++ [⟨node, k⟩] } (some e.target)
        (⟨node, ahead⟩ :: below) :=
      hi.way.mono (List.subset_append_left _ _) (List.Subset.refl _)
    refine hmono.settle (.inr ?_)
    rintro f ⟨⟩ k' hk'
    obtain rfl : k = k' := by omega
    simp
  case ordered => exact hi.ordered.mono (List.subset_append_left _ _)
  case followed_iff => exact hi.followed_iff
  case followed_nodup => exact hi.followed_nodup
  case closing_sublist => exact hsub
  case loops => exact List.rel_append hi.loops (.cons hcloses .nil)

theorem Invariant.pass {w : Walk α} {h : History} {v : Nat} (hi : Invariant g w h (some v))
    (hdone : w.marks[v]? = some .done) : Invariant g w h none :=
  { hi with way := hi.way.settle (.inl ((hi.done_iff v).1 hdone)) }

theorem Invariant.off {w : Walk α} {h : History} (hi : Invariant g w h none) (hw : w.stack = [])
    (v : Nat) : Invariant g w h (some v) :=
  { hi with way := by rw [hw]; trivial }

/-! ## 4. Steps and runs -/

/-- Without a step left the walk is off any way. -/
theorem stack_eq_nil {w : Walk α} (h : w.step g = none) : w.stack = [] := by
  rcases w with ⟨marks, stack, loops⟩
  match stack with
  | [] => rfl
  | ⟨_, []⟩ :: _ => simp [Walk.step] at h
  | ⟨_, _ :: _⟩ :: _ => simp [Walk.step] at h

theorem follows?_of_step {w : Walk α} (h : w.step g = none) : w.follows? g = none := by
  simp [follows?, stack_eq_nil h]

theorem states_of_none {w : Walk α} (h : w.step g = none) : states g w = [w] := by
  rw [states]
  split
  · rfl
  · simp_all

theorem states_of_some {w next : Walk α} (h : w.step g = some next) :
    states g w = w :: states g next := by
  rw [states]
  split <;> simp_all

/-- A step keeps the invariant, and the edge it follows is added to the history. -/
theorem Invariant.step (hg : g.Bounded) {w next : Walk α} {h : History}
    (hi : Invariant g w h none) (hs : w.step g = some next) :
    ∃ h', h'.followed = h.followed ++ (w.follows? g).toList ∧ Invariant g next h' none := by
  rcases w with ⟨marks, stack, loops⟩
  match stack with
  | [] =>
    simp only [Walk.step, Option.map_eq_some_iff] at hs
    rcases hs with ⟨v, hv, rfl⟩
    rcases List.findIdx?_eq_some_iff_getElem.1 hv with ⟨hlt, hm, -⟩
    have hv' : marks[v]? = some .unvisited := by
      simpa [List.getElem?_eq_getElem hlt] using hm
    exact ⟨h, by simp [follows?], (hi.off rfl v).enter hv'⟩
  | ⟨node, []⟩ :: below =>
    simp only [Walk.step, Option.some.injEq] at hs
    exact ⟨{ h with left := node :: h.left }, by simp [follows?], hs ▸ hi.leave⟩
  | ⟨node, e :: ahead⟩ :: below =>
    simp only [Walk.step, Option.some.injEq] at hs
    subst hs
    have hsuffix : (e :: ahead) <:+ g.edges node := hi.suffix _ List.mem_cons_self
    have hedge := edge?_passed hsuffix
    have ha := hi.advance
    have hlt : e.target < marks.length := by
      rw [show marks.length = g.length from hi.marks_length]
      exact hg node e (Graph.mem_edges_of_edge? hedge)
    -- What becomes of the edge hangs on the mark of its target.
    cases hm : marks[e.target] with
    | unvisited =>
      have hm' : marks[e.target]? = some .unvisited := by rw [List.getElem?_eq_getElem hlt, hm]
      simp only [follow, hm']
      refine ⟨_, ?_, ha.enter hm'⟩
      rfl
    | active =>
      have hm' : marks[e.target]? = some .active := by rw [List.getElem?_eq_getElem hlt, hm]
      simp only [follow, hm']
      have hsub := hi.closing_sublist.append
        (List.Sublist.refl [⟨node, Frame.passed g ⟨node, e :: ahead⟩⟩])
      refine ⟨_, ?_, ha.close (passed_cons hsuffix) hedge hsub hm'⟩
      rfl
    | done =>
      have hm' : marks[e.target]? = some .done := by rw [List.getElem?_eq_getElem hlt, hm]
      simp only [follow, hm']
      refine ⟨_, ?_, ha.pass hm'⟩
      rfl

/-- The edges that the states of a run follow next are added to the history, in order. -/
theorem Invariant.run (hg : g.Bounded) {w : Walk α} {h : History} (hi : Invariant g w h none) :
    ∃ h', h'.followed = h.followed ++ (states g w).filterMap (follows? g) ∧
      Invariant g (run g w) h' none := by
  fun_induction Walk.run g w generalizing h with
  | case1 w hs =>
    refine ⟨h, ?_, hi⟩
    rw [states_of_none hs]
    simp [follows?_of_step hs]
  | case2 w next hs _ ih =>
    rcases hi.step hg hs with ⟨h', hf, hi'⟩
    rcases ih hi' with ⟨h'', hf', hi''⟩
    refine ⟨h'', ?_, hi''⟩
    rw [hf', hf, states_of_some hs, List.append_assoc]
    cases hw : w.follows? g <;> simp [hw]

theorem step_run (g : Graph α) (w : Walk α) : (run g w).step g = none := by
  fun_induction Walk.run g w with
  | case1 w hs => exact hs
  | case2 w next hs _ ih => exact ih

/-- A walk without a step left has left every node. -/
theorem Invariant.mem_left {w : Walk α} {h : History} {toward : Option Nat}
    (hi : Invariant g w h toward) (hs : w.step g = none) {u : Nat} (hu : u < g.length) :
    u ∈ h.left := by
  have hstack := stack_eq_nil hs
  rcases w with ⟨marks, stack, loops⟩
  subst hstack
  have hlt : u < marks.length := by
    rw [show marks.length = g.length from hi.marks_length]
    exact hu
  simp only [Walk.step, Option.map_eq_none_iff, List.findIdx?_eq_none_iff] at hs
  cases hm : marks[u] with
  | unvisited =>
    have hne := hs _ (List.getElem_mem hlt)
    simp [hm] at hne
  | active =>
    have hactive := (hi.active_iff u).1 (by rw [List.getElem?_eq_getElem hlt, hm])
    simp [nodes] at hactive
  | done => exact (hi.done_iff u).1 (by rw [List.getElem?_eq_getElem hlt, hm])

end Walk
end CallContract
