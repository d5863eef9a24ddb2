import CallContract.Proofs.JsonParts
import CallContract.Proofs.RelatedLists
import CallContract.Proofs.WellFormed
import CallContract.Ty.Reader

/-!
# Normal types

The types that a reader makes are flat: null and unions are never directly inside each other, the
alternatives of a union are distinct, and names are names.  A type that has no repeated names of
fields either is normal.  Normal types are exactly those that come back when their canonical form
is read (`ofJson_toJson`, `normal_of_ofJson`): arrays stand for array types, nullable types and
unions, and how many items they have and whether one of them is null tells which.
-/

namespace CallContract

namespace Ty

/-- The type is neither a union nor nullable. -/
def IsSingle : Ty String → Prop
  | .union _ | .nullable _ => False
  | .scalar _ | .named _ | .array _ | .object _ => True

/-- The outermost layer of the type is as a reader makes it. -/
def FlatHere : Ty String → Prop
  | .scalar _ | .array _ => True
  | .named n => Text.isBlankText n = false ∧ n ∉ reservedNames
  | .nullable t => ∀ u, t ≠ .nullable u
  | .union ts => 2 ≤ ts.length ∧ ts.Nodup ∧ ∀ t ∈ ts, t.IsSingle
  | .object fs => fs ≠ []

/-- All layers of the type are as a reader makes them. -/
def Flat (t : Ty String) : Prop := t.Everywhere FlatHere

/-- If the type is an object, its fields have distinct names. -/
def DistinctHere : Ty String → Prop
  | .object fs => Named.Distinct fs
  | .scalar _ | .named _ | .nullable _ | .array _ | .union _ => True

/-- The type is flat, and no object in it repeats the name of a field. -/
structure Normal (t : Ty String) : Prop where
  flat : t.Flat
  distinct : t.Everywhere DistinctHere

theorem Normal.part {u t : Ty String} (h : t.Normal) (hu : u.Part t) : u.Normal :=
  ⟨h.flat.part hu, h.distinct.part hu⟩

theorem everywhere_distinctHere_iff {t : Ty String} : t.Everywhere DistinctHere ↔
    ∀ inner : Fields String, (Ty.object inner).Part t → inner.Distinct := by
  constructor
  · exact fun h inner hin => h _ hin
  · intro h u hu
    cases u with
    | object inner => exact h inner hu
    | scalar _ | named _ | nullable _ | array _ | union _ => trivial

/-! ## 1. Alternatives -/

theorem toTy_eq_ok_iff {a : Alternatives} {t : Ty String} :
    a.toTy = .ok t ↔ a.types.Nodup ∧
      ((a.nullable = true ∧ ∃ u, a.types = [u] ∧ t = .nullable u) ∨
        (2 ≤ a.types.length ∧
          t = if a.nullable then .nullable (.union a.types) else .union a.types)) := by
  rcases a with ⟨nullable, types⟩
  have hfresh : firstRepeat? [] types = none ↔ types.Nodup := by
    rw [firstRepeat?_eq_none_iff, fresh_of_nothing]
  rw [← hfresh, Alternatives.toTy]
  cases firstRepeat? [] types with
  | some u => simp
  | none =>
    match types with
    | [] => simp
    | [u] =>
      cases nullable with
      | false => simp
      | true => simpa using eq_comm
    | u :: w :: rest => simpa using eq_comm

theorem alternatives_of_ne_nullable {t : Ty String} (h : ∀ w, t ≠ .nullable w) :
    t.alternatives = ⟨false, t.members⟩ := by
  cases t with
  | nullable w => exact absurd rfl (h w)
  | scalar _ | named _ | array _ | union _ | object _ => rfl

theorem single_of_mem_members {t u : Ty String} (ht : t.FlatHere) (hne : ∀ w, t ≠ .nullable w)
    (hu : u ∈ t.members) : u.IsSingle ∧ u.Part t := by
  cases t with
  | nullable w => exact absurd rfl (hne w)
  | union ts => exact ⟨ht.2.2 u hu, .union hu .self⟩
  | scalar _ | named _ | array _ | object _ =>
    rcases List.mem_singleton.1 hu with rfl
    exact ⟨trivial, .self⟩

/-- What a flat type offers to a union are parts of it, neither unions nor nullable. -/
theorem single_of_mem_alternatives {t u : Ty String} (ht : t.Flat)
    (hu : u ∈ t.alternatives.types) : u.IsSingle ∧ u.Part t := by
  by_cases hne : ∀ w, t ≠ .nullable w
  · rw [alternatives_of_ne_nullable hne] at hu
    exact single_of_mem_members ht.here hne hu
  · simp only [not_forall, not_not] at hne
    rcases hne with ⟨w, rfl⟩
    have hw := single_of_mem_members (ht.part (.nullable .self)).here ht.here hu
    exact ⟨hw.1, .nullable hw.2⟩

/-! ## 2. Reading names, items and fields -/

theorem mem_reservedNames_iff {n : String} :
    n ∈ reservedNames ↔ n = nullName ∨ (Scalar.ofName? n).isSome := by
  rw [← isReserved_iff, isReserved, Bool.or_eq_true, decide_eq_true_eq]

theorem ofName_of_notMem {n : String} (hblank : Text.isBlankText n = false)
    (hfree : n ∉ reservedNames) : ofName n = .ok (.named n) := by
  rw [mem_reservedNames_iff, not_or, Option.not_isSome_iff_eq_none] at hfree
  rw [ofName, if_neg hfree.1, hblank, if_neg Bool.false_ne_true, hfree.2]

theorem ofName_name (s : Scalar) : ofName s.name = .ok (.scalar s) := by
  cases s <;> decide

theorem flat_of_ofName {n : String} {t : Ty String} (h : ofName n = .ok t) :
    (∃ s, t = .scalar s) ∨
      t = .named n ∧ Text.isBlankText n = false ∧ n ∉ reservedNames := by
  rw [ofName] at h
  by_cases hnull : n = nullName
  · rw [if_pos hnull] at h
    cases h
  by_cases hblank : Text.isBlankText n = true
  · rw [if_neg hnull, if_pos hblank] at h
    cases h
  rw [if_neg hnull, if_neg hblank] at h
  cases hs : Scalar.ofName? n with
  | some s =>
    rw [hs] at h
    exact .inl ⟨s, (Checked.ok.inj h).symm⟩
  | none =>
    rw [hs] at h
    refine .inr ⟨(Checked.ok.inj h).symm, Bool.eq_false_iff.2 hblank, ?_⟩
    rw [mem_reservedNames_iff, hs, not_or]
    exact ⟨hnull, Bool.false_ne_true⟩

theorem ofItems_eq_bind {items : List Json} (h : 2 ≤ items.length) :
    ofItems items = (ofAlternatives items).bind Alternatives.toTy := by
  match items, h with
  | v :: w :: rest, _ => rfl

/-- The alternatives among items come from the items that are not null. -/
theorem exists_of_mem_ofAlternatives {items : List Json} {a : Alternatives}
    (h : ofAlternatives items = .ok a) {u : Ty String} (hu : u ∈ a.types) :
    ∃ v ∈ items, ∃ t, ofJson v = .ok t ∧ u ∈ t.alternatives.types := by
  induction items generalizing a with
  | nil =>
    rw [ofAlternatives, Checked.ok.injEq] at h
    subst h
    exact absurd hu List.not_mem_nil
  | cons v rest ih =>
    rw [ofAlternatives, Checked.both_eq_ok_iff] at h
    rcases h with ⟨b, c, hb, hc, rfl⟩
    rcases List.mem_append.1 hu with hu | hu
    · rw [offer] at hb
      split at hb
      · cases hb
        exact absurd hu List.not_mem_nil
      · rcases Checked.map_eq_ok_iff.1 hb with ⟨t, ht, rfl⟩
        exact ⟨v, List.mem_cons_self, t, ht, hu⟩
    · rcases ih hc hu with ⟨w, hw, t, ht, hmem⟩
      exact ⟨w, List.mem_cons_of_mem v hw, t, ht, hmem⟩

theorem ofAlternatives_of_forall {ts : List (Ty String)}
    (h : ∀ t ∈ ts, t.IsSingle ∧ t.toJson ≠ .string nullName ∧ ofJson t.toJson = .ok t) :
    ofAlternatives (ts.map toJson) = .ok ⟨false, ts⟩ := by
  induction ts with
  | nil => rfl
  | cons t rest ih =>
    rw [List.forall_mem_cons] at h
    rcases h with ⟨⟨hsingle, hne, hread⟩, hrest⟩
    have halt : t.alternatives = ⟨false, [t]⟩ := by
      cases t with
      | union _ | nullable _ => exact hsingle.elim
      | scalar _ | named _ | array _ | object _ => rfl
    rw [List.map_cons, ofAlternatives, ih hrest, offer, if_neg hne, hread, Checked.map, halt]
    rfl

theorem ofFields_eq_ok_iff {members : Named Json} {fs : Fields String} :
    ofFields members = .ok fs ↔
      List.Forall₂ (fun m f => m.1 = f.1 ∧ ofJson m.2 = .ok f.2) members fs := by
  induction members generalizing fs with
  | nil =>
    rw [ofFields, Checked.ok.injEq, List.forall₂_nil_left_iff]
    exact eq_comm
  | cons m rest ih =>
    simp only [ofFields, Checked.both_eq_ok_iff, Checked.mapFaults_eq_ok_iff, ih,
      List.forall₂_cons_left_iff]
    constructor
    · rintro ⟨t, gs, ht, hgs, heq⟩
      exact ⟨(m.1, t), gs, ⟨rfl, ht⟩, hgs, heq.symm⟩
    · rintro ⟨f, gs, ⟨hk, ht⟩, hgs, heq⟩
      exact ⟨f.2, gs, ht, hgs, by rw [heq, hk]⟩

theorem names_of_ofFields {members : Named Json} {fs : Fields String}
    (h : ofFields members = .ok fs) : fs.names = members.names :=
  (map_eq_of_forall₂ (ofFields_eq_ok_iff.1 h) fun _ _ hm => hm.1).symm

/-! ## 3. What is read is normal -/

/-- A property of all layers of the alternatives is one of all layers of their type, if the layers
put around them have it. -/
theorem everywhere_of_toTy {P : Ty String → Prop} {a : Alternatives} {t : Ty String}
    (h : a.toTy = .ok t) (halternatives : ∀ u ∈ a.types, u.Everywhere P)
    (hunion : 2 ≤ a.types.length → a.types.Nodup → P (.union a.types))
    (hnullable : ∀ u, u ∈ a.types ∨ u = .union a.types → P (.nullable u)) : t.Everywhere P := by
  rcases toTy_eq_ok_iff.1 h with ⟨hnodup, ⟨-, u, hu, rfl⟩ | ⟨hlen, rfl⟩⟩
  · have hmem : u ∈ a.types := hu ▸ List.mem_singleton_self u
    exact everywhere_nullable.2 ⟨hnullable u (.inl hmem), halternatives u hmem⟩
  · have hall : (Ty.union a.types).Everywhere P :=
      everywhere_union.2 ⟨hunion hlen hnodup, halternatives⟩
    split
    · exact everywhere_nullable.2 ⟨hnullable _ (.inr rfl), hall⟩
    · exact hall

/-- What the induction says of one value: a flat type comes out, and without repeated names in the
value nothing in the type repeats a name. -/
def ReadsNormal (v : Json) : Prop :=
  ∀ t, ofJson v = .ok t → t.Flat ∧ (v.Distinct → t.Everywhere DistinctHere)

theorem readsNormal_of_ofAlternatives {items : List Json} (ih : ∀ v ∈ items, ReadsNormal v)
    {a : Alternatives} (ha : ofAlternatives items = .ok a) {t : Ty String} (ht : a.toTy = .ok t) :
    t.Flat ∧ ((∀ v ∈ items, v.Distinct) → t.Everywhere DistinctHere) := by
  -- Each alternative is part of a type that was read from an item.
  have hparts : ∀ u ∈ a.types, u.IsSingle ∧ u.Flat ∧
      ((∀ v ∈ items, v.Distinct) → u.Everywhere DistinctHere) := by
    intro u hu
    rcases exists_of_mem_ofAlternatives ha hu with ⟨v, hv, w, hw, hmem⟩
    have hflat := ih v hv w hw
    have hsingle := single_of_mem_alternatives hflat.1 hmem
    exact ⟨hsingle.1, hflat.1.part hsingle.2, fun hd => (hflat.2 (hd v hv)).part hsingle.2⟩
  constructor
  · refine everywhere_of_toTy ht (fun u hu => (hparts u hu).2.1) ?_ ?_
    · exact fun hlen hnodup => ⟨hlen, hnodup, fun u hu => (hparts u hu).1⟩
    · intro u hu w hw
      rcases hu with hu | rfl
      · have hsingle := (hparts u hu).1
        rw [hw] at hsingle
        exact hsingle
      · cases hw
  · intro hd
    exact everywhere_of_toTy ht (fun u hu => (hparts u hu).2.2 hd) (fun _ _ => trivial)
      (fun _ _ => trivial)

theorem readsNormal_of_ofFields {members : Named Json}
    (ih : ∀ k v, (k, v) ∈ members → ReadsNormal v) {fs : Fields String}
    (h : ofFields members = .ok fs) :
    (∀ k t, (k, t) ∈ fs → t.Flat) ∧
      ((∀ m ∈ members, m.2.Distinct) → ∀ k t, (k, t) ∈ fs → t.Everywhere DistinctHere) := by
  have hread : ∀ k t, (k, t) ∈ fs → ∃ v, (k, v) ∈ members ∧ ofJson v = .ok t := by
    intro k t hmem
    rcases exists_mem_of_forall₂ (ofFields_eq_ok_iff.1 h) hmem with ⟨⟨_, v⟩, hm, rfl, ht⟩
    exact ⟨v, hm, ht⟩
  constructor
  · intro k t hmem
    rcases hread k t hmem with ⟨v, hv, ht⟩
    exact (ih k v hv t ht).1
  · intro hd k t hmem
    rcases hread k t hmem with ⟨v, hv, ht⟩
    exact (ih k v hv t ht).2 (hd (k, v) hv)

theorem readsNormal (v : Json) : ReadsNormal v := by
  induction v with
  | null | boolean _ | number _ => exact fun t h => nomatch h
  | string name =>
    intro t h
    rcases flat_of_ofName h with ⟨s, rfl⟩ | ⟨rfl, hname⟩
    · exact ⟨everywhere_scalar.2 trivial, fun _ => everywhere_scalar.2 trivial⟩
    · exact ⟨everywhere_named.2 hname, fun _ => everywhere_named.2 trivial⟩
  | array items ih =>
    intro t h
    rw [Json.distinct_array_iff]
    match items, ih, h with
    | [], _, h => cases h
    | [v], ih, h =>
      rcases Checked.map_eq_ok_iff.1 h with ⟨u, hu, rfl⟩
      have hread := ih v List.mem_cons_self u (Checked.mapFaults_eq_ok_iff.1 hu)
      exact ⟨everywhere_array.2 ⟨trivial, hread.1⟩, fun hd =>
        everywhere_array.2 ⟨trivial, hread.2 (hd v List.mem_cons_self)⟩⟩
    | v :: w :: rest, ih, h =>
      rw [ofJson, ofItems_eq_bind (by simp)] at h
      rcases Checked.bind_eq_ok_iff.1 h with ⟨a, ha, ht⟩
      exact readsNormal_of_ofAlternatives ih ha ht
  | object members ih =>
    intro t h
    rw [Json.distinct_object_iff]
    match members, ih, h with
    | [], _, h => cases h
    | m :: ms, ih, h =>
      rcases Checked.map_eq_ok_iff.1 h with ⟨fs, hfs, rfl⟩
      have hread := readsNormal_of_ofFields ih hfs
      have hnames := names_of_ofFields hfs
      constructor
      · refine everywhere_object.2 ⟨?_, hread.1⟩
        rintro rfl
        cases hnames
      · rintro ⟨hd, hmembers⟩
        refine everywhere_object.2 ⟨?_, hread.2 hmembers⟩
        show (Named.names fs).Nodup
        rw [hnames]
        exact hd

theorem flat_of_ofJson {v : Json} {t : Ty String} (h : ofJson v = .ok t) : t.Flat :=
  (readsNormal v t h).1

theorem normal_of_ofJson {v : Json} {t : Ty String} (hv : v.Distinct) (h : ofJson v = .ok t) :
    t.Normal :=
  ⟨flat_of_ofJson h, (readsNormal v t h).2 hv⟩

/-! ## 4. Normal types are read back -/

theorem toJson_ne_null {t : Ty String} (h : t.FlatHere) : t.toJson ≠ .string nullName := by
  cases t with
  | scalar s => cases s <;> decide
  | named n =>
    intro hn
    exact h.2 (mem_reservedNames_iff.2 (.inl (Json.string.inj hn)))
  | nullable _ | array _ | union _ | object _ => exact nofun

theorem ofFields_mapValues {fs : Fields String}
    (h : ∀ k t, (k, t) ∈ fs → ofJson t.toJson = .ok t) :
    ofFields (fs.mapValues toJson) = .ok fs := by
  rw [ofFields_eq_ok_iff, Named.mapValues, List.forall₂_map_left_iff, List.forall₂_same]
  exact fun f hf => ⟨rfl, h f.1 f.2 hf⟩

theorem ofItems_nullable {t : Ty String} (h : t.Normal) (hne : ∀ w, t ≠ .nullable w)
    (hread : ofJson t.toJson = .ok t) :
    ofItems [t.toJson, .string nullName] = .ok (.nullable t) := by
  have hoffer : ofAlternatives [t.toJson, .string nullName] = .ok ⟨true, t.members⟩ := by
    rw [ofAlternatives, offer, if_neg (toJson_ne_null h.flat.here), hread, Checked.map,
      alternatives_of_ne_nullable hne]
    simp [ofAlternatives, offer, Checked.both, Alternatives.append, Alternatives.null,
      Alternatives.none]
  rw [ofItems_eq_bind (by simp), hoffer]
  show Alternatives.toTy _ = _
  rw [toTy_eq_ok_iff]
  -- Null goes around the whole union, and around a single type alone.
  cases t with
  | nullable w => exact absurd rfl (hne w)
  | union ts => exact ⟨h.flat.here.2.1, .inr ⟨h.flat.here.1, rfl⟩⟩
  | scalar _ | named _ | array _ | object _ =>
    exact ⟨List.nodup_singleton _, .inl ⟨rfl, _, rfl, rfl⟩⟩

/-- The canonical form of a normal type is read as the type. -/
theorem ofJson_toJson {t : Ty String} (h : t.Normal) : ofJson t.toJson = .ok t := by
  induction t with
  | scalar s => exact ofName_name s
  | named n => exact ofName_of_notMem h.flat.here.1 h.flat.here.2
  | nullable t ih =>
    have ht := h.part (.nullable .self)
    rw [toJson, ofJson]
    exact ofItems_nullable ht h.flat.here (ih ht)
  | array t ih =>
    rw [toJson, ofJson, ofItems, ih (h.part (.array .self))]
    rfl
  | union ts ih =>
    have hitems : ofAlternatives (ts.map toJson) = .ok ⟨false, ts⟩ := by
      apply ofAlternatives_of_forall
      intro t ht
      have hpart := h.part (.union ht .self)
      exact ⟨h.flat.here.2.2 t ht, toJson_ne_null hpart.flat.here, ih t ht hpart⟩
    have hlen : 2 ≤ (ts.map toJson).length := by
      rw [List.length_map]
      exact h.flat.here.1
    rw [toJson, toJsonList_eq, ofJson, ofItems_eq_bind hlen, hitems]
    exact toTy_eq_ok_iff.2 ⟨h.flat.here.2.1, .inr ⟨h.flat.here.1, rfl⟩⟩
  | object fs ih =>
    have hdistinct : Named.Distinct (Named.mapValues toJson fs) := by
      rw [Named.Distinct, Named.names_mapValues]
      exact h.distinct.here
    have hread : ofFields (Named.mapValues toJson fs) = .ok fs :=
      ofFields_mapValues fun k t hmem => ih k t hmem (h.part (.object hmem .self))
    rw [toJson, toJsonFields_eq, Named.merge_of_distinct hdistinct]
    cases fs with
    | nil => exact absurd rfl h.flat.here
    | cons f rest =>
      show (ofFields _).map object = _
      rw [hread]
      rfl

theorem distinct_toJson (t : Ty String) : t.toJson.Distinct := by
  induction t with
  | scalar _ | named _ => trivial
  | nullable t ih =>
    rw [toJson, Json.distinct_array_iff, List.forall_mem_cons, List.forall_mem_singleton]
    exact ⟨ih, trivial⟩
  | array t ih =>
    rw [toJson, Json.distinct_array_iff, List.forall_mem_singleton]
    exact ih
  | union ts ih =>
    rw [toJson, Json.distinct_array_iff, toJsonList_eq, List.forall_mem_map]
    exact ih
  | object fs ih =>
    rw [toJson, Json.distinct_object_iff, toJsonFields_eq]
    refine ⟨Named.distinct_merge _, fun m hm => ?_⟩
    rcases List.mem_map.1 (Named.mem_of_mem_merge hm) with ⟨f, hf, rfl⟩
    exact ih f.1 f.2 hf

end Ty
end CallContract
