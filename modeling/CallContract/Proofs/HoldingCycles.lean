import CallContract.Document.Holding
import CallContract.Proofs.DeclaredNames
import CallContract.Proofs.Loops
import CallContract.Proofs.TypeParts

/-!
# Records that hold themselves

The graph of a document has an edge for every name of a record that a record holds by value
(`mem_edges_holding`).  The findings about records that hold themselves are the loops of that graph:
each tells of an edge of its own and of a chain of records that comes back over this edge, and no
chain of records comes back without such an edge.
-/

namespace CallContract

namespace Ty

theorem mem_heldList {s : Scope} {ts : List (Ty String)} {h : Routed Nat} :
    h ∈ heldList s ts ↔ ∃ t ∈ ts, h ∈ t.held s := by
  induction ts with
  | nil => simp [heldList]
  | cons t rest ih => simp [heldList, ih]

theorem mem_heldFields {s : Scope} {fs : Fields String} {h : Routed Nat} :
    h ∈ heldFields s fs ↔ ∃ k t, (k, t) ∈ fs ∧ ∃ h' ∈ t.held s, h = h'.below (.field k) := by
  induction fs with
  | nil => simp [heldFields]
  | cons e rest ih =>
    rcases e with ⟨k, t⟩
    simp only [heldFields, List.mem_append, List.mem_map, ih, List.mem_cons, Prod.mk.injEq]
    constructor
    · rintro (⟨h', hh, rfl⟩ | ⟨k', t', ht, hh⟩)
      · exact ⟨k, t, .inl ⟨rfl, rfl⟩, h', hh, rfl⟩
      · exact ⟨k', t', .inr ht, hh⟩
    · rintro ⟨k', t', ⟨rfl, rfl⟩ | ht, h', hh, rfl⟩
      · exact .inl ⟨h', hh, rfl⟩
      · exact .inr ⟨k', t', ht, h', hh, rfl⟩

/-- The records that a type holds are those that the names it holds by value lead to. -/
theorem mem_held_iff {s : Scope} {t : Ty String} {h : Routed Nat} :
    h ∈ t.held s ↔ ∃ n, t.ByValue h.route n ∧ s.find? n = some (.record h.what) := by
  induction t generalizing h with
  | scalar _ =>
    simp only [held, List.not_mem_nil, false_iff]
    rintro ⟨n, ⟨⟩, -⟩
  | named m =>
    rcases h with ⟨route, i⟩
    constructor
    · intro hh
      simp only [held] at hh
      split at hh
      · rename_i j hj
        rcases Routed.mk.inj (List.mem_singleton.1 hh) with ⟨rfl, rfl⟩
        exact ⟨m, .named m, hj⟩
      · simp at hh
    · rintro ⟨n, ⟨⟩, hn⟩
      simp only [held, hn, List.mem_singleton]
  -- Nullable types and arrays hold nothing: `ByValue` has no constructor for them either.
  | nullable t _ =>
    simp only [held, List.not_mem_nil, false_iff]
    rintro ⟨n, ⟨⟩, -⟩
  | array t _ =>
    simp only [held, List.not_mem_nil, false_iff]
    rintro ⟨n, ⟨⟩, -⟩
  | union ts ih =>
    rw [held, mem_heldList]
    constructor
    · rintro ⟨t, ht, hh⟩
      rcases (ih t ht).1 hh with ⟨n, hn, hs⟩
      exact ⟨n, .union ht hn, hs⟩
    · rintro ⟨n, ⟨⟩ | ⟨ht, hn⟩, hs⟩
      exact ⟨_, ht, (ih _ ht).2 ⟨n, hn, hs⟩⟩
  | object fs ih =>
    rw [held, mem_heldFields]
    constructor
    · rintro ⟨k, t, ht, h', hh, rfl⟩
      rcases (ih k t ht).1 hh with ⟨n, hn, hs⟩
      exact ⟨n, .object ht hn, hs⟩
    · rcases h with ⟨route, i⟩
      rintro ⟨n, ⟨⟩ | ⟨⟩ | ⟨ht, hn⟩, hs⟩
      exact ⟨_, _, ht, ⟨_, i⟩, (ih _ _ ht).2 ⟨n, hn, hs⟩, rfl⟩

end Ty

namespace Document

variable {d : Document}

/-- The graph of records that hold records, as far as a scope finds them. -/
def holdingIn (d : Document) (s : Scope) : Graph Location := d.records.map (Record.edges s)

theorem mem_edges_holdingIn {s : Scope} {u : Nat} {e : Edge Location} :
    e ∈ (d.holdingIn s).edges u ↔ ∃ r route n, d.records[u]? = some r ∧
      (Ty.object r.fields).ByValue route n ∧ s.find? n = some (.record e.target) ∧
      e.label = ⟨.declaration .record r.name, route⟩ := by
  rcases e with ⟨target, label⟩
  cases hu : d.records[u]? with
  | none => simp [holdingIn, Graph.edges, hu]
  | some r =>
    have hedges : (d.holdingIn s).edges u = r.edges s := by simp [holdingIn, Graph.edges, hu]
    have hheld (h : Routed Nat) : h ∈ Ty.heldFields s r.fields ↔
        ∃ n, (Ty.object r.fields).ByValue h.route n ∧ s.find? n = some (.record h.what) :=
      Ty.mem_held_iff (t := .object r.fields)
    simp only [hedges, Record.edges, List.mem_map, hheld, Edge.mk.injEq, Option.some.injEq]
    constructor
    · rintro ⟨⟨route, i⟩, ⟨n, hn, hs⟩, rfl, rfl⟩
      exact ⟨r, route, n, rfl, hn, hs, rfl⟩
    · rintro ⟨r', route, n, rfl, hn, hs, rfl⟩
      exact ⟨⟨route, target⟩, ⟨n, hn, hs⟩, rfl, rfl⟩

theorem mem_edges_holding {u : Nat} {e : Edge Location} :
    e ∈ d.holding.edges u ↔ ∃ r route n, d.records[u]? = some r ∧
      (Ty.object r.fields).ByValue route n ∧ d.scope.find? n = some (.record e.target) ∧
      e.label = ⟨.declaration .record r.name, route⟩ :=
  mem_edges_holdingIn

/-- Every record that the scope finds is one of the document. -/
def Covers (d : Document) (s : Scope) : Prop :=
  ∀ n i, s.find? n = some (.record i) → i < d.records.length

theorem bounded_holdingIn {s : Scope} (hs : d.Covers s) : (d.holdingIn s).Bounded := by
  intro u e he
  rcases mem_edges_holdingIn.1 he with ⟨r, route, n, -, -, hn, -⟩
  simpa [holdingIn] using hs n e.target hn

theorem covers_scope (d : Document) : d.Covers d.scope := by
  intro n i h
  -- What a name leads to is declared, so its index is that of a record.
  have hname := declaredName?_of_find? h
  simp only [declaredName?, Option.map_eq_some_iff, List.getElem?_eq_some_iff] at hname
  rcases hname with ⟨r, ⟨hlt, -⟩, -⟩
  exact hlt

theorem bounded_holding (d : Document) : d.holding.Bounded :=
  bounded_holdingIn d.covers_scope

/-- The finding tells of the edge in the place: it lies where the edge is, and its chain names the
records of a trail from the target of the edge to the record that the edge leaves, and the target
again. -/
def Reports (d : Document) (p : EdgePlace) (f : Finding) : Prop :=
  ∃ e ps chain, d.holding.edge? p = some e ∧ f = ⟨e.label, .unrepresentableCycle chain⟩ ∧
    d.holding.Trail e.target ps p.node ∧
    (ps.map (·.node) ++ [p.node, e.target]).map (fun i => d.declaredName? (.record i)) =
      chain.map some

theorem declaredName?_record {i : Nat} (hi : i < d.holding.length) :
    d.declaredName? (.record i) = some (d.recordName i) := by
  have hi' : i < d.records.length := by simpa [holding] using hi
  simp [declaredName?, recordName, hi']

theorem reports_loopFinding {p : EdgePlace} {l : Loop Location} (h : d.holding.Closes p l) :
    d.Reports p (d.loopFinding l) := by
  rcases h with ⟨he, ps, htrail, hnodes⟩
  refine ⟨l.edge, ps, l.nodes.map d.recordName, he, rfl, htrail, ?_⟩
  rw [← hnodes, List.map_map]
  -- Every node of the chain is one of the graph, where the name of a record is declared.
  apply List.map_congr_left
  intro i hi
  rw [hnodes, List.mem_append, List.mem_map] at hi
  apply declaredName?_record
  rcases hi with ⟨q, hq, rfl⟩ | hi
  · exact htrail.forall_lt_length q hq
  · rcases List.mem_pair.1 hi with rfl | rfl
    · exact Graph.lt_length_of_edge? he
    · exact d.bounded_holding _ _ (Graph.mem_edges_of_edge? he)

theorem cycleFindings_eq_nil_iff (d : Document) :
    d.cycleFindings = [] ↔ d.holding.Acyclic := by
  rw [cycleFindings, List.map_eq_nil_iff]
  exact Graph.loops_eq_nil_iff d.bounded_holding

/-- **Cycle detection is sound and misses no cycle.** The edges are the names that records hold by
value.  Each finding tells of an edge of its own, every trail that comes back uses such an edge, and
without these edges nothing comes back; there are no findings exactly if nothing comes back. -/
theorem cycleFindings_sound_and_complete (d : Document) :
    (∀ u e, e ∈ d.holding.edges u ↔ ∃ r route n, d.records[u]? = some r ∧
      (Ty.object r.fields).ByValue route n ∧ d.scope.find? n = some (.record e.target) ∧
      e.label = ⟨.declaration .record r.name, route⟩) ∧
    (∃ reported : List EdgePlace, reported.Nodup ∧
      List.Forall₂ d.Reports reported d.cycleFindings ∧
      (∀ u ps, d.holding.Trail u ps u → ps ≠ [] → ∃ p ∈ ps, p ∈ reported) ∧
      (d.holding.without reported).Acyclic) ∧
    (d.cycleFindings = [] ↔ d.holding.Acyclic) := by
  rcases Graph.exists_closing d.bounded_holding with ⟨closing, hnd, hcloses, hback⟩
  have hreports : List.Forall₂ d.Reports closing d.cycleFindings := by
    rw [cycleFindings, List.forall₂_map_right_iff]
    exact hcloses.imp fun _ _ h => reports_loopFinding h
  refine ⟨fun u e => mem_edges_holding, ?_, d.cycleFindings_eq_nil_iff⟩
  exact ⟨closing, hnd, hreports, hback, Graph.acyclic_without hback⟩

end Document
end CallContract
