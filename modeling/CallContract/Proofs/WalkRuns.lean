import CallContract.Proofs.HoldingCycles
import Mathlib.Data.List.Chain
import Mathlib.Data.List.Perm.Subperm

/-!
# Runs of walks

A walk through a whole graph, state by state.  Each state that it comes to is orderly
(`Reached.orderly`): the nodes on the way are those that are marked active, each of them once, each
frame was entered over the edge followed last from the frame below it, and an edge back to an active
node finds this node on the way.  The states come to an end after a number of steps that the size of
the graph bounds, every edge is followed in exactly one of them, and at the end every node is done.
-/

namespace CallContract

variable {α : Type} {g : Graph α}

namespace Graph

/-! ## 1. The edges of a graph -/

/-- The number of edges. -/
def size (g : Graph α) : Nat := g.flatten.length

/-- The places of all edges. -/
def places (g : Graph α) : List EdgePlace :=
  (List.range g.length).flatMap fun u => (List.range (g.edges u).length).map (⟨u, ·⟩)

theorem isSome_edge?_iff {p : EdgePlace} :
    (g.edge? p).isSome ↔ p.index < (g.edges p.node).length := by
  simp [edge?]

theorem mem_places_iff {p : EdgePlace} : p ∈ g.places ↔ (g.edge? p).isSome := by
  rcases p with ⟨u, k⟩
  simp only [places, List.mem_flatMap, List.mem_range, List.mem_map, EdgePlace.mk.injEq]
  constructor
  · rintro ⟨u, -, k, hk, rfl, rfl⟩
    exact isSome_edge?_iff.2 hk
  · intro h
    rcases Option.isSome_iff_exists.1 h with ⟨e, he⟩
    exact ⟨u, lt_length_of_edge? he, k, isSome_edge?_iff.1 h, rfl, rfl⟩

theorem length_places (g : Graph α) : g.places.length = g.size := by
  -- Node by node, both lists have the number of edges that leave it.
  have hmap : (List.range g.length).map (fun u => (g.edges u).length) = g.map List.length := by
    apply List.ext_getElem
    · simp
    · intro u hu hu'
      have hlt : u < g.length := by simpa using hu'
      simp [edges, hlt]
  simp only [places, List.length_flatMap, List.length_map, List.length_range]
  rw [hmap, size, List.length_flatten]

/-- Different edges are not more than there are edges. -/
theorem length_le_size {ps : List EdgePlace} (hnd : ps.Nodup)
    (hps : ∀ p ∈ ps, (g.edge? p).isSome) : ps.length ≤ g.size := by
  have hsub : ps ⊆ g.places := fun p hp => mem_places_iff.2 (hps p hp)
  rw [← g.length_places]
  exact (List.subperm_of_subset hnd hsub).length_le

end Graph

/-- The edge followed last from the frame leads to the node. -/
def Frame.LastTo (g : Graph α) (f : Frame α) (v : Nat) : Prop :=
  ∃ k e, f.passed g = k + 1 ∧ g.edge? ⟨f.node, k⟩ = some e ∧ e.target = v

namespace Walk

variable {w : Walk α} {h : History} {toward : Option Nat}

/-! ## 2. Orderly states -/

/-- What holds of the states of a walk.  The way is listed with the innermost node first, so a place
on it is counted from the far end, and the loop that an edge closes goes on from there. -/
structure Orderly (g : Graph α) (w : Walk α) : Prop where
  marks_length : w.marks.length = g.length
  nodes_nodup : w.nodes.Nodup
  active_iff : ∀ u, w.marks[u]? = some .active ↔ u ∈ w.nodes
  ahead_eq : ∀ f ∈ w.stack, f.ahead = (g.edges f.node).drop (f.passed g)
  linked : w.stack.IsChain fun above below => below.LastTo g above.node
  next : ∀ node e ahead below, w.stack = ⟨node, e :: ahead⟩ :: below →
    ∃ k, w.follows? g = some ⟨node, k⟩ ∧ g.edge? ⟨node, k⟩ = some e
  back : ∀ node e ahead below, w.stack = ⟨node, e :: ahead⟩ :: below →
    w.marks[e.target]? = some .active →
    ∃ first, w.nodes.reverse.idxOf? e.target = some first ∧
      w.step g = some ⟨w.marks, ⟨node, ahead⟩ :: below,
        w.loops ++ [⟨e, w.nodes.reverse.drop first ++ [e.target]⟩]⟩
  loops_length_le : w.loops.length ≤ g.size

theorem Way.isChain {stack : List (Frame α)} (hw : Way g h toward stack) :
    stack.IsChain fun above below => below.LastTo g above.node := by
  induction stack generalizing toward with
  | nil => exact .nil
  | cons above rest ih =>
    cases rest with
    | nil => exact .singleton _
    | cons below rest =>
      rcases hw with ⟨-, -, hbelow⟩
      exact .cons_cons (hbelow.1 above.node rfl) (ih hbelow)

/-- On a way without repetitions the way back from its end to a node is what is left of the reversed
way from the place of the node on. -/
theorem cons_reverse_takeWhile {ns : List Nat} {v : Nat} (hnd : ns.Nodup) (hv : v ∈ ns) :
    ∃ first, ns.reverse.idxOf? v = some first ∧
      v :: (ns.takeWhile (· ≠ v)).reverse = ns.reverse.drop first := by
  -- The node stands on the way once, so it parts the way into what lies within and without.
  rcases List.append_of_mem hv with ⟨inner, outer, rfl⟩
  have hinner : v ∉ inner := fun hm => (List.nodup_append.1 hnd).2.2 v hm v List.mem_cons_self rfl
  have houter : v ∉ outer := (List.nodup_cons.1 (List.nodup_append.1 hnd).2.1).1
  have hreverse : (inner ++ v :: outer).reverse = outer.reverse ++ v :: inner.reverse := by simp
  have htake : (inner ++ v :: outer).takeWhile (· ≠ v) = inner := by
    rw [List.takeWhile_append_of_pos (by simpa using fun u hu => ne_of_mem_of_not_mem hu hinner)]
    simp
  refine ⟨outer.length, ?_, ?_⟩
  · have hnone : outer.reverse.idxOf? v = none := List.idxOf?_eq_none_iff.2 (by simpa using houter)
    unfold List.idxOf? at hnone ⊢
    rw [hreverse, List.findIdx?_append, hnone]
    simp [List.findIdx?_cons]
  · rw [hreverse, htake, List.drop_left' (by simp)]

/-- The place that is followed next is that of the first edge ahead. -/
theorem Invariant.next {node : Nat} {e : Edge α} {ahead : List (Edge α)} {below : List (Frame α)}
    (hi : Invariant g w h toward) (hstack : w.stack = ⟨node, e :: ahead⟩ :: below) :
    ∃ k, w.follows? g = some ⟨node, k⟩ ∧ g.edge? ⟨node, k⟩ = some e := by
  have hsuffix : (e :: ahead) <:+ g.edges node := hi.suffix ⟨node, e :: ahead⟩ (by simp [hstack])
  refine ⟨Frame.passed g ⟨node, e :: ahead⟩, ?_, edge?_passed hsuffix⟩
  simp only [follows?, hstack]

/-- An edge back to a node on the way finds the node there. -/
theorem Invariant.back {node : Nat} {e : Edge α} {ahead : List (Edge α)} {below : List (Frame α)}
    (hi : Invariant g w h none) (hstack : w.stack = ⟨node, e :: ahead⟩ :: below)
    (hactive : w.marks[e.target]? = some .active) :
    ∃ first, w.nodes.reverse.idxOf? e.target = some first ∧
      w.step g = some ⟨w.marks, ⟨node, ahead⟩ :: below,
        w.loops ++ [⟨e, w.nodes.reverse.drop first ++ [e.target]⟩]⟩ := by
  -- What is active stands on the way, so looking for it cannot fail.
  have hv : e.target ∈ w.nodes := (hi.active_iff e.target).1 hactive
  rcases cons_reverse_takeWhile hi.nodes_nodup hv with ⟨first, hfirst, hdrop⟩
  refine ⟨first, hfirst, ?_⟩
  rw [← hdrop]
  simp [Walk.step, hstack, follow, hactive, Walk.close, nodes]

/-- What was followed are edges of the graph. -/
theorem Invariant.isSome_of_mem_followed (hi : Invariant g w h toward) :
    ∀ p ∈ h.followed, (g.edge? p).isSome := by
  intro p hp
  rw [Graph.isSome_edge?_iff]
  rcases (hi.followed_iff p).1 hp with ⟨-, hlt⟩ | ⟨f, -, hf, hlt⟩
  · exact hlt
  · rw [Frame.passed, hf] at hlt
    omega

/-- Without a step left every edge was followed. -/
theorem Invariant.mem_followed_iff (hi : Invariant g w h toward) (hs : w.step g = none)
    {p : EdgePlace} : p ∈ h.followed ↔ (g.edge? p).isSome := by
  constructor
  · exact hi.isSome_of_mem_followed p
  · intro hp
    rcases Option.isSome_iff_exists.1 hp with ⟨e, he⟩
    have hleft : p.node ∈ h.left := hi.mem_left hs (Graph.lt_length_of_edge? he)
    exact (hi.followed_iff p).2 (.inl ⟨hleft, Graph.isSome_edge?_iff.1 hp⟩)

theorem Invariant.loops_length_le (hi : Invariant g w h toward) : w.loops.length ≤ g.size :=
  calc
    w.loops.length = h.closing.length := hi.loops.length_eq.symm
    _ ≤ h.followed.length := hi.closing_sublist.length_le
    _ ≤ g.size := Graph.length_le_size hi.followed_nodup hi.isSome_of_mem_followed

theorem Invariant.orderly (hi : Invariant g w h none) : w.Orderly g where
  marks_length := hi.marks_length
  nodes_nodup := hi.nodes_nodup
  active_iff := hi.active_iff
  ahead_eq f hf := List.suffix_iff_eq_drop.1 (hi.suffix f hf)
  linked := hi.way.isChain
  next _ _ _ _ hstack := hi.next hstack
  back _ _ _ _ hstack hactive := hi.back hstack hactive
  loops_length_le := hi.loops_length_le

/-! ## 3. Reached states -/

/-- The walk through the whole graph comes to the state. -/
def Reached (g : Graph α) (w : Walk α) : Prop :=
  Relation.ReflTransGen (fun w next => w.step g = some next) (start g) w

/-- A step keeps the invariant, so every state that is reached has a history. -/
theorem Reached.exists_invariant (hg : g.Bounded) (hw : Reached g w) :
    ∃ h, Invariant g w h none := by
  induction hw with
  | refl => exact ⟨_, Invariant.start g⟩
  | tail _ hs ih =>
    rcases ih with ⟨h, hi⟩
    rcases hi.step hg hs with ⟨h', -, hi'⟩
    exact ⟨h', hi'⟩

theorem Reached.orderly (hg : g.Bounded) (hw : Reached g w) : w.Orderly g := by
  rcases hw.exists_invariant hg with ⟨h, hi⟩
  exact hi.orderly

/-! ## 4. Whole walks -/

/-- A walk through the whole graph, state by state: it leaves every node and follows every edge
once. -/
structure Whole (g : Graph α) (ws : List (Walk α)) : Prop where
  mem_iff : ∀ w, w ∈ ws ↔ Reached g w
  starts : ws.head? = some (start g)
  steps : ws.IsChain fun w next => w.step g = some next
  ends : ∃ w, ws.getLast? = some w ∧ w.step g = none ∧ w.stack = [] ∧
    w.marks = List.replicate g.length .done ∧ w.loops = g.loops
  length_le : ws.length ≤ g.size + 2 * g.length + 1
  once : ∀ p, (ws.filterMap (follows? g)).count p = if (g.edge? p).isSome then 1 else 0

theorem mem_states_iff {v : Walk α} : v ∈ states g w ↔
    Relation.ReflTransGen (fun w next => w.step g = some next) w v := by
  fun_induction Walk.run g w with
  | case1 w hs =>
    rw [states_of_none hs, List.mem_singleton]
    constructor
    · rintro rfl
      exact .refl
    · intro hv
      rcases hv.cases_head with rfl | ⟨next, hnext, -⟩
      · rfl
      · simp [hs] at hnext
  | case2 w next hs _ ih =>
    rw [states_of_some hs, List.mem_cons, ih]
    constructor
    · rintro (rfl | hv)
      · exact .refl
      · exact .head hs hv
    -- There is one next state only, so whatever comes later is reached from there.
    · intro hv
      rcases hv.cases_head with rfl | ⟨next', hnext, hv⟩
      · exact .inl rfl
      · obtain rfl : next = next' := Option.some.inj (hs.symm.trans hnext)
        exact .inr hv

theorem head?_states (g : Graph α) (w : Walk α) : (states g w).head? = some w := by
  cases hs : w.step g with
  | none => rw [states_of_none hs]; rfl
  | some next => rw [states_of_some hs]; rfl

theorem isChain_states (g : Graph α) (w : Walk α) :
    (states g w).IsChain fun w next => w.step g = some next := by
  fun_induction Walk.run g w with
  | case1 w hs =>
    rw [states_of_none hs]
    exact .singleton _
  | case2 w next hs _ ih =>
    rw [states_of_some hs, List.isChain_cons]
    refine ⟨fun next' hnext' => ?_, ih⟩
    rw [head?_states, Option.mem_some_iff] at hnext'
    rw [← hnext', hs]

theorem getLast?_states (g : Graph α) (w : Walk α) :
    (states g w).getLast? = some (run g w) := by
  fun_induction Walk.run g w with
  | case1 w hs => rw [states_of_none hs]; rfl
  | case2 w next hs _ ih => rw [states_of_some hs, List.getLast?_cons, ih]; rfl

/-- There are not more steps than there is work. -/
theorem length_states_le (g : Graph α) (w : Walk α) : (states g w).length ≤ work g w + 1 := by
  fun_induction Walk.run g w with
  | case1 w hs => simp [states_of_none hs]
  | case2 w next hs _ ih =>
    have hlt := work_step_lt hs
    rw [states_of_some hs, List.length_cons]
    omega

/-- All work is a step for each edge, one to go to each node and one to leave it. -/
theorem work_start (g : Graph α) : work g (start g) = g.size + 2 * g.length := by
  have hunseen : unseen g (g.map fun _ => .unvisited) = g.size + 2 * g.length := by
    induction g with
    | nil => rfl
    | cons es g ih =>
      simp only [List.map_cons, unseen, reduceIte, List.head?_cons, Option.elim_some,
        List.tail_cons, ih, Graph.size, List.flatten_cons, List.length_append, List.length_cons]
      omega
  simpa [work, start, pending] using hunseen

theorem whole_states (hg : g.Bounded) : Whole g (states g (start g)) := by
  rcases (Invariant.start g).run hg with ⟨h, hfollowed, hi⟩
  have hstop := step_run g (start g)
  have hstack := stack_eq_nil hstop
  constructor
  case mem_iff => exact fun w => mem_states_iff
  case starts => exact head?_states g (start g)
  case steps => exact isChain_states g (start g)
  case ends =>
    refine ⟨run g (start g), getLast?_states g (start g), hstop, hstack, ?_, rfl⟩
    -- Every node of the graph was left, and beyond the graph there are no marks.
    apply List.ext_getElem?
    intro u
    by_cases hu : u < g.length
    · rw [(hi.done_iff u).2 (hi.mem_left hstop hu), List.getElem?_replicate_of_lt hu]
    · have hle := Nat.le_of_not_lt hu
      rw [List.getElem?_eq_none (hi.marks_length ▸ hle),
        List.getElem?_eq_none (by simpa using hle)]
  case length_le =>
    rw [← work_start g]
    exact length_states_le g (start g)
  case once =>
    -- What the states follow next is the history of the run: no repetitions, and all edges.
    intro p
    rw [List.nil_append] at hfollowed
    rw [← hfollowed, hi.followed_nodup.count, if_congr (hi.mem_followed_iff hstop) rfl rfl]

/-- There are not more loops than edges. -/
theorem length_loops_le (hg : g.Bounded) : g.loops.length ≤ g.size := by
  rcases (Invariant.start g).run hg with ⟨h, -, hi⟩
  exact hi.loops_length_le

end Walk

namespace Document

/-! ## 5. Walks through the records of a document -/

/-- **The walk for records that hold themselves keeps to its way and ends.**  The scope of a
document finds only records of the document.  In every such scope all edges lead to records, every
state that the walk comes to is orderly, and the walk is whole: it ends with every record done after
each edge was followed once.  There are not more findings than edges. -/
theorem walk_orderly_and_whole (d : Document) :
    d.Covers d.scope ∧
    (∀ s, d.Covers s → (d.holdingIn s).Bounded ∧
      (∀ w, Walk.Reached (d.holdingIn s) w → w.Orderly (d.holdingIn s)) ∧
      Walk.Whole (d.holdingIn s) (Walk.states (d.holdingIn s) (Walk.start (d.holdingIn s))) ∧
      (d.holdingIn s).loops.length ≤ (d.holdingIn s).size) ∧
    d.holding = d.holdingIn d.scope ∧ d.cycleFindings.length ≤ d.holding.size := by
  refine ⟨d.covers_scope, fun s hs => ?_, rfl, ?_⟩
  · have hg := bounded_holdingIn hs
    exact ⟨hg, fun _ hw => hw.orderly hg, Walk.whole_states hg, Walk.length_loops_le hg⟩
  · rw [cycleFindings, List.length_map]
    exact Walk.length_loops_le d.bounded_holding

/-- A rope with two loops of its own, and knots in it that are made of it. -/
def knots : Document where
  enumerations := []
  records := [
    ⟨"Rope", [("loop", .named "Rope"), ("ends", .union [.named "Knot", .named "Rope"])]⟩,
    ⟨"Knot", [("made", .object [("of", .named "Rope")]), ("next", .array (.named "Knot"))]⟩]
  methods := []

/-- Both loops of the rope at itself are found, and so is the longer one through a knot. -/
theorem walk_orderly_and_whole_knots :
    knots.Covers knots.scope ∧
    (∀ w, Walk.Reached knots.holding w → w.Orderly knots.holding) ∧
    Walk.Whole knots.holding (Walk.states knots.holding (Walk.start knots.holding)) ∧
    knots.holding.loops.map (·.nodes) = [[0, 0], [0, 1, 0], [0, 0]] ∧
    knots.holding.size = 4 ∧
    (Walk.states knots.holding (Walk.start knots.holding)).length = 8 := by
  rcases walk_orderly_and_whole knots with ⟨hcovers, hwalk, -, -⟩
  rcases hwalk knots.scope hcovers with ⟨-, horderly, hwhole, -⟩
  exact ⟨hcovers, horderly, hwhole, by decide +kernel, by decide +kernel, by decide +kernel⟩

end Document
end CallContract
