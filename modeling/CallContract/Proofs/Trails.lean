import CallContract.Walk
import Mathlib.Data.List.Basic
import Mathlib.Logic.Relation

/-!
# Trails — edges by place, and ways through a graph

Two edges of one node may have the same target and the same label, so an edge is told by its place:
the node that it leaves and its position among the edges of that node.  A trail is a list of places
whose edges can be followed one after the other.  A graph is acyclic if no trail comes back to where
it started; an order of the nodes in which every edge outside a set of places goes forward shows
that each trail that does come back uses one of these places (`Ordered.exists_mem_of_trail`).
-/

namespace CallContract

/-- The place of an edge: the node it leaves and its position among the edges of that node. -/
@[ext]
structure EdgePlace where
  node : Nat
  index : Nat
  deriving DecidableEq, Repr

namespace Graph

variable {α : Type} {g : Graph α}

/-- The edge in a place. -/
def edge? (g : Graph α) (p : EdgePlace) : Option (Edge α) := (g.edges p.node)[p.index]?

/-- The edges in these places can be followed from the first node to the last one. -/
inductive Trail (g : Graph α) : Nat → List EdgePlace → Nat → Prop
  | nil (u : Nat) : Trail g u [] u
  | cons {p : EdgePlace} {e : Edge α} {ps : List EdgePlace} {v : Nat} :
      g.edge? p = some e → Trail g e.target ps v → Trail g p.node (p :: ps) v

/-- An edge leads from the one node to the other. -/
def Leads (g : Graph α) (u v : Nat) : Prop := ∃ e ∈ g.edges u, e.target = v

/-- No way along edges comes back to the node it started from. -/
def Acyclic (g : Graph α) : Prop := ∀ u, ¬ Relation.TransGen g.Leads u u

/-- Every edge leads to a node of the graph. -/
def Bounded (g : Graph α) : Prop := ∀ u, ∀ e ∈ g.edges u, e.target < g.length

/-- The graph without the edges in some places. -/
def without (g : Graph α) (gone : List EdgePlace) : Graph α :=
  g.mapIdx fun u es => (es.zipIdx.filter fun (_, k) => ⟨u, k⟩ ∉ gone).map (·.1)

/-! ## 1. Edges and their places -/

theorem mem_edges_of_edge? {p : EdgePlace} {e : Edge α} (h : g.edge? p = some e) :
    e ∈ g.edges p.node := List.mem_of_getElem? h

theorem lt_length_of_edge? {p : EdgePlace} {e : Edge α} (h : g.edge? p = some e) :
    p.node < g.length := by
  by_contra hn
  simp [edge?, edges, List.getElem?_eq_none (Nat.le_of_not_lt hn)] at h

theorem lt_length_edges_of_edge? {p : EdgePlace} {e : Edge α} (h : g.edge? p = some e) :
    p.index < (g.edges p.node).length := by
  rcases List.getElem?_eq_some_iff.1 h with ⟨hlt, -⟩
  exact hlt

/-! ## 2. Trails -/

theorem Trail.append {u v w : Nat} {ps qs : List EdgePlace} (h : g.Trail u ps v)
    (h' : g.Trail v qs w) : g.Trail u (ps ++ qs) w := by
  induction h with
  | nil => exact h'
  | cons he _ ih => exact .cons he (ih h')

theorem Trail.single {p : EdgePlace} {e : Edge α} (h : g.edge? p = some e) :
    g.Trail p.node [p] e.target := .cons h (.nil _)

theorem Trail.lt_length {u v : Nat} {ps : List EdgePlace} (h : g.Trail u ps v) (hne : ps ≠ []) :
    u < g.length := by
  cases h with
  | nil => exact absurd rfl hne
  | cons he _ => exact lt_length_of_edge? he

theorem Trail.forall_lt_length {u v : Nat} {ps : List EdgePlace} (h : g.Trail u ps v) :
    ∀ p ∈ ps, p.node < g.length := by
  induction h with
  | nil => simp
  | cons he _ ih => simpa using ⟨lt_length_of_edge? he, ih⟩

theorem Trail.reflTransGen {u v : Nat} {ps : List EdgePlace} (h : g.Trail u ps v) :
    Relation.ReflTransGen g.Leads u v := by
  induction h with
  | nil => exact .refl
  | cons he _ ih => exact .head ⟨_, mem_edges_of_edge? he, rfl⟩ ih

theorem Trail.transGen {u v : Nat} {ps : List EdgePlace} (h : g.Trail u ps v) (hne : ps ≠ []) :
    Relation.TransGen g.Leads u v := by
  cases h with
  | nil => exact absurd rfl hne
  | cons he htail => exact .head' ⟨_, mem_edges_of_edge? he, rfl⟩ htail.reflTransGen

/-- An acyclic graph has no trail with an edge that comes back to where it started. -/
theorem Acyclic.eq_nil_of_trail (hg : g.Acyclic) {u : Nat} {ps : List EdgePlace}
    (h : g.Trail u ps u) : ps = [] := by
  by_contra hne
  exact hg u (h.transGen hne)

/-! ## 3. Leaving out edges -/

theorem mem_edges_without {gone : List EdgePlace} {u : Nat} {e : Edge α} :
    e ∈ (g.without gone).edges u ↔ ∃ k, g.edge? ⟨u, k⟩ = some e ∧ ⟨u, k⟩ ∉ gone := by
  by_cases hu : u < g.length
  -- The filter pairs each edge with its position, which is the index of its place.
  · have hes : (g.without gone).edges u =
        ((g.edges u).zipIdx.filter fun (_, k) => ⟨u, k⟩ ∉ gone).map (·.1) := by
      simp [without, edges, List.getElem?_eq_getElem hu]
    rw [hes]
    simp [edge?, List.mem_zipIdx_iff_getElem?]
  · have hno : g.edges u = [] := by
      simp [edges, List.getElem?_eq_none (Nat.le_of_not_lt hu)]
    have hno' : (g.without gone).edges u = [] := by
      simp [without, edges, List.getElem?_eq_none (Nat.le_of_not_lt hu)]
    simp [hno', edge?, hno]

/-- A way through the remaining edges is a trail that avoids the places left out. -/
theorem exists_trail_of_transGen_without {gone : List EdgePlace} {u v : Nat}
    (h : Relation.TransGen (g.without gone).Leads u v) :
    ∃ ps, ps ≠ [] ∧ g.Trail u ps v ∧ ∀ p ∈ ps, p ∉ gone := by
  -- The way grows at its end, and so does the trail.
  induction h with
  | single hstep =>
    rcases hstep with ⟨e, he, rfl⟩
    rcases mem_edges_without.1 he with ⟨k, hk, hgone⟩
    exact ⟨[⟨u, k⟩], by simp, .single hk, by simpa using hgone⟩
  | @tail v w _ hstep ih =>
    rcases ih with ⟨ps, -, htrail, havoid⟩
    rcases hstep with ⟨e, he, rfl⟩
    rcases mem_edges_without.1 he with ⟨k, hk, hgone⟩
    refine ⟨ps ++ [⟨v, k⟩], by simp, htrail.append (.single hk), ?_⟩
    intro p hp
    rcases List.mem_append.1 hp with hp | hp
    · exact havoid p hp
    · rw [List.mem_singleton.1 hp]
      exact hgone

/-- If every trail that comes back uses one of the places, nothing comes back without them. -/
theorem acyclic_without {gone : List EdgePlace}
    (h : ∀ u ps, g.Trail u ps u → ps ≠ [] → ∃ p ∈ ps, p ∈ gone) : (g.without gone).Acyclic := by
  intro u hu
  rcases exists_trail_of_transGen_without hu with ⟨ps, hne, htrail, havoid⟩
  rcases h u ps htrail hne with ⟨p, hp, hgone⟩
  exact havoid p hp hgone

theorem without_nil (g : Graph α) : g.without [] = g := by
  have hkeep (es : List (Edge α)) (u : Nat) :
      (es.zipIdx.filter fun (_, k) => ⟨u, k⟩ ∉ ([] : List EdgePlace)).map (·.1) = es := by
    simp
  simp only [without, hkeep]
  exact List.ext_getElem? fun i => by simp

/-! ## 4. Orders of the nodes -/

/-- An edge that leaves a node of the list is in one of the places, or it leads to a later node. -/
def Ordered (g : Graph α) (except : List EdgePlace) : List Nat → Prop
  | [] => True
  | u :: rest =>
    (∀ k e, g.edge? ⟨u, k⟩ = some e → ⟨u, k⟩ ∈ except ∨ e.target ∈ rest) ∧ Ordered g except rest

variable {except : List EdgePlace} {order : List Nat}

theorem Ordered.mono {except' : List EdgePlace} (h : g.Ordered except order)
    (hsub : except ⊆ except') : g.Ordered except' order := by
  induction order with
  | nil => trivial
  | cons u rest ih =>
    rcases h with ⟨hu, hrest⟩
    refine ⟨fun k e he => ?_, ih hrest⟩
    exact (hu k e he).imp_left fun hk => hsub hk

/-- An edge outside the places goes forward. -/
theorem Ordered.idxOf_lt (h : g.Ordered except order) (hnd : order.Nodup) {p : EdgePlace}
    {e : Edge α} (he : g.edge? p = some e) (hp : p ∉ except) (hmem : p.node ∈ order) :
    e.target ∈ order ∧ order.idxOf p.node < order.idxOf e.target := by
  induction order with
  | nil => simp at hmem
  | cons u rest ih =>
    rcases h with ⟨hu, hrest⟩
    rcases List.nodup_cons.1 hnd with ⟨hnot, hnd⟩
    rcases List.mem_cons.1 hmem with hpu | hin
    -- The edge leaves the first node: its target is one of the later ones.
    · subst hpu
      have ht : e.target ∈ rest := (hu p.index e he).resolve_left hp
      have hne : p.node ≠ e.target := fun heq => hnot (heq ▸ ht)
      refine ⟨List.mem_cons_of_mem _ ht, ?_⟩
      rw [List.idxOf_cons_self, List.idxOf_cons_ne _ hne]
      omega
    -- Neither end is the first node, so both indices move by one.
    · rcases ih hrest hnd hin with ⟨ht, hlt⟩
      have hne : u ≠ p.node := fun heq => hnot (heq ▸ hin)
      have hne' : u ≠ e.target := fun heq => hnot (heq ▸ ht)
      refine ⟨List.mem_cons_of_mem _ ht, ?_⟩
      rw [List.idxOf_cons_ne _ hne, List.idxOf_cons_ne _ hne']
      omega

/-- A trail that avoids the places goes forward by at least its length. -/
theorem Ordered.idxOf_add_length_le (h : g.Ordered except order) (hnd : order.Nodup) {u v : Nat}
    {ps : List EdgePlace} (htrail : g.Trail u ps v) (havoid : ∀ p ∈ ps, p ∉ except)
    (hu : u ∈ order) : order.idxOf u + ps.length ≤ order.idxOf v := by
  induction htrail with
  | nil => simp
  | @cons p e ps v he _ ih =>
    rcases h.idxOf_lt hnd he (havoid p List.mem_cons_self) hu with ⟨ht, hlt⟩
    have hle := ih (fun q hq => havoid q (List.mem_cons_of_mem _ hq)) ht
    rw [List.length_cons]
    omega

/-- If all nodes are ordered, a trail with an edge that comes back uses one of the places. -/
theorem Ordered.exists_mem_of_trail (h : g.Ordered except order) (hnd : order.Nodup)
    (hall : ∀ u, u < g.length → u ∈ order) {u : Nat} {ps : List EdgePlace}
    (htrail : g.Trail u ps u) (hne : ps ≠ []) : ∃ p ∈ ps, p ∈ except := by
  by_contra hno
  simp only [not_exists, not_and] at hno
  have hle := h.idxOf_add_length_le hnd htrail hno (hall u (htrail.lt_length hne))
  have hpos : 0 < ps.length := List.length_pos_iff.2 hne
  -- The index of `u` would be less than itself.
  omega

end Graph
end CallContract
