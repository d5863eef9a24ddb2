import CallContract.Json.Reading
import CallContract.Proofs.NamedLists
import Mathlib.Data.List.Forall2

/-!
# Parts of JSON values

Induction over JSON values, in which the items of an array and the members of an object come with
their hypotheses.  Where no name is repeated nothing is merged, and a value nests as deeply as its
parts do and once more.  A value is a reading of itself: nothing gets lost on the way, and no fault
comes in.
-/

namespace CallContract.Json

/-- Induction over a value and all the values in it. -/
@[induction_eliminator]
theorem induction {P : Json → Prop} (null : P .null) (boolean : ∀ b, P (.boolean b))
    (number : ∀ n, P (.number n)) (string : ∀ s, P (.string s))
    (array : ∀ items, (∀ v ∈ items, P v) → P (.array items))
    (object : ∀ members, (∀ k v, (k, v) ∈ members → P v) → P (.object members)) (v : Json) :
    P v := by
  refine @Json.rec P (fun items => ∀ v ∈ items, P v) (fun ms => ∀ k v, (k, v) ∈ ms → P v)
    (fun m => P m.2) null boolean number string array object ?_ ?_ ?_ ?_ ?_ v
  · simp
  · intro v vs hv hvs w hw
    rcases List.mem_cons.1 hw with rfl | hw
    · exact hv
    · exact hvs w hw
  · simp
  · intro m ms hm hms k v hmem
    rcases List.mem_cons.1 hmem with rfl | hmem
    · exact hm
    · exact hms k v hmem
  · exact fun _ _ hv => hv

/-- The first value is an item or the value of a member of the second one. -/
inductive Inside (w : Json) : Json → Prop
  | item {items : List Json} : w ∈ items → Inside w (.array items)
  | member {k : String} {members : Named Json} : (k, w) ∈ members → Inside w (.object members)

/-- Induction over a value, with the hypothesis for all that is directly inside. -/
theorem inside_induction {P : Json → Prop} (step : ∀ v, (∀ w : Json, w.Inside v → P w) → P v)
    (v : Json) : P v := by
  induction v with
  | null | boolean _ | number _ | string _ =>
    apply step
    intro w hw
    cases hw
  | array items ih =>
    apply step
    intro w hw
    cases hw with
    | item hw => exact ih w hw
  | object members ih =>
    apply step
    intro w hw
    cases hw with
    | member hw => exact ih _ w hw

/-! ## 1. Values without repeated names -/

theorem distinctItems_iff {items : List Json} : DistinctItems items ↔ ∀ v ∈ items, v.Distinct := by
  induction items with
  | nil => simp [DistinctItems]
  | cons v rest ih => rw [DistinctItems, ih, List.forall_mem_cons]

theorem distinctMembers_iff {members : Named Json} :
    DistinctMembers members ↔ ∀ m ∈ members, m.2.Distinct := by
  induction members with
  | nil => simp [DistinctMembers]
  | cons m rest ih => rw [DistinctMembers, ih, List.forall_mem_cons]

theorem distinct_array_iff {items : List Json} :
    (Json.array items).Distinct ↔ ∀ v ∈ items, v.Distinct := by
  rw [Distinct, distinctItems_iff]

theorem distinct_object_iff {members : Named Json} :
    (Json.object members).Distinct ↔ members.Distinct ∧ ∀ m ∈ members, m.2.Distinct := by
  rw [Distinct, distinctMembers_iff]

theorem Distinct.inside {v w : Json} (h : v.Distinct) (hw : w.Inside v) : w.Distinct := by
  cases hw with
  | item hw => exact distinct_array_iff.1 h w hw
  | member hw => exact (distinct_object_iff.1 h).2 _ hw

theorem mergeItems_eq (items : List Json) : mergeItems items = items.map merge := by
  induction items with
  | nil => rfl
  | cons v rest ih => rw [mergeItems, ih, List.map_cons]

theorem mergeMembers_eq (members : Named Json) :
    mergeMembers members = members.mapValues merge := by
  induction members with
  | nil => rfl
  | cons m rest ih =>
    rw [mergeMembers, ih]
    rfl

/-- Where no name is repeated there is nothing to merge. -/
theorem merge_of_distinct {v : Json} (h : v.Distinct) : v.merge = v := by
  induction v with
  | null | boolean _ | number _ | string _ => rfl
  | array items ih =>
    rw [distinct_array_iff] at h
    have hitems : items.map merge = items := by
      conv_rhs => rw [← List.map_id items]
      exact List.map_congr_left fun v hv => ih v hv (h v hv)
    rw [merge, mergeItems_eq, hitems]
  | object members ih =>
    rw [distinct_object_iff] at h
    have hmembers : Named.mapValues merge members = members := by
      conv_rhs => rw [← List.map_id members]
      exact List.map_congr_left fun m hm => Prod.ext rfl (ih m.1 m.2 hm (h.2 m hm))
    rw [merge, mergeMembers_eq, hmembers, Named.merge_of_distinct h.1]

/-! ## 2. Nesting -/

theorem depthItems_le_iff {items : List Json} {n : Nat} :
    depthItems items ≤ n ↔ ∀ v ∈ items, v.depth ≤ n := by
  induction items with
  | nil => simp [depthItems]
  | cons v rest ih => rw [depthItems, Nat.max_le, ih, List.forall_mem_cons]

theorem depthMembers_le_iff {members : Named Json} {n : Nat} :
    depthMembers members ≤ n ↔ ∀ k v, (k, v) ∈ members → v.depth ≤ n := by
  induction members with
  | nil => simp [depthMembers]
  | cons m rest ih =>
    obtain ⟨name, w⟩ := m
    rw [depthMembers, Nat.max_le, ih]
    simp only [List.mem_cons, Prod.mk.injEq]
    constructor
    · intro ⟨hw, hrest⟩ k v hmem
      rcases hmem with ⟨rfl, rfl⟩ | hmem
      · exact hw
      · exact hrest k v hmem
    · intro h
      exact ⟨h name w (.inl ⟨rfl, rfl⟩), fun k v hmem => h k v (.inr hmem)⟩

theorem depth_le_depthItems {v : Json} {items : List Json} (h : v ∈ items) :
    v.depth ≤ depthItems items :=
  depthItems_le_iff.1 (Nat.le_refl _) v h

theorem depth_le_depthMembers {k : String} {v : Json} {members : Named Json}
    (h : (k, v) ∈ members) : v.depth ≤ depthMembers members :=
  depthMembers_le_iff.1 (Nat.le_refl _) k v h

/-! ## 3. Values as readings of themselves -/

namespace Reading

theorem ofMembers_eq (members : Named Json) :
    ofMembers members = members.map fun (k, v) => (k, (), ofJson v) := by
  induction members with
  | nil => rfl
  | cons m rest ih => rw [ofMembers, ih, List.map_cons]

theorem valueItems_ofItems {items : List Json} (h : ∀ v ∈ items, (ofJson v).value = .ok v) :
    valueItems (ofItems items) = .ok items := by
  induction items with
  | nil => rfl
  | cons v rest ih =>
    rw [List.forall_mem_cons] at h
    rw [ofItems, valueItems, h.1, ih h.2]
    rfl

theorem valueMembers_ofMembers {members : Named Json}
    (h : ∀ k v, (k, v) ∈ members → (ofJson v).value = .ok v) :
    valueMembers (ofMembers members) = .ok members := by
  induction members with
  | nil => rfl
  | cons m rest ih =>
    have hv := h m.1 m.2 List.mem_cons_self
    rw [ofMembers, valueMembers, hv, ih fun k v hm => h k v (List.mem_cons_of_mem m hm)]
    rfl

theorem value_ofJson (v : Json) : (ofJson v).value = .ok v := by
  induction v with
  | null => rfl
  | boolean b => rfl
  | number n => rfl
  | string s => rfl
  | array items ih =>
    rw [ofJson, value, valueItems_ofItems ih]
    rfl
  | object members ih =>
    rw [ofJson, value, valueMembers_ofMembers ih]
    rfl

end Reading
end CallContract.Json
