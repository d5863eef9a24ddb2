import CallContract.Proofs.Resolution
import CallContract.Proofs.Shapes
import CallContract.Proofs.TextAndValue

/-!
# Repeated names

Nothing is merged while a document is read, and validation refuses every repetition.  So a value
repeats a name, in whatever object, exactly if the document that was read from it does: a text that
became a contract has no repeated name anywhere.
-/

namespace CallContract

namespace Ty

/-! ## 1. Types -/

/-- A property that unions and nullable types always have holds all through a type if it does so in
what the type offers. -/
theorem everywhere_of_alternatives {P : Ty String → Prop} {t : Ty String}
    (hunion : ∀ ts, P (.union ts)) (hnullable : ∀ u, P (.nullable u))
    (h : ∀ u ∈ t.alternatives.types, u.Everywhere P) : t.Everywhere P := by
  have hmembers {w : Ty String} (hw : ∀ u ∈ w.members, u.Everywhere P) : w.Everywhere P := by
    cases w with
    | union ts => exact everywhere_union.2 ⟨hunion ts, hw⟩
    | scalar _ | named _ | nullable _ | array _ | object _ => exact hw _ (List.mem_singleton_self _)
  by_cases hne : ∀ w, t ≠ .nullable w
  · rw [alternatives_of_ne_nullable hne] at h
    exact hmembers h
  · simp only [not_forall, not_not] at hne
    obtain ⟨w, rfl⟩ := hne
    exact everywhere_nullable.2 ⟨hnullable w, hmembers h⟩

/-- The alternatives of a type are parts of it. -/
theorem part_of_toTy {a : Alternatives} {t u : Ty String} (h : a.toTy = .ok t) (hu : u ∈ a.types) :
    u.Part t := by
  obtain ⟨-, ⟨-, w, hw, rfl⟩ | ⟨-, rfl⟩⟩ := toTy_eq_ok_iff.1 h
  · rw [hw, List.mem_singleton] at hu
    subst hu
    exact .nullable .self
  · split
    · exact .nullable (.union hu .self)
    · exact .union hu .self

/-- What an item offers is among the alternatives. -/
theorem offers_of_ofAlternatives {items : List Json} {a : Alternatives}
    (h : ofAlternatives items = .ok a) {v : Json} (hv : v ∈ items) :
    v = .string nullName ∨ ∃ t, ofJson v = .ok t ∧ ∀ u ∈ t.alternatives.types, u ∈ a.types := by
  induction items generalizing a with
  | nil => exact absurd hv List.not_mem_nil
  | cons w rest ih =>
    rw [ofAlternatives, Checked.both_eq_ok_iff] at h
    obtain ⟨b, c, hb, hc, rfl⟩ := h
    obtain rfl | hv := List.mem_cons.1 hv
    · rw [offer] at hb
      split at hb
      · rename_i hnull
        exact .inl hnull
      · obtain ⟨t, ht, rfl⟩ := Checked.map_eq_ok_iff.1 hb
        exact .inr ⟨t, ht, fun u hu => List.mem_append_left _ hu⟩
    · obtain hnull | ⟨t, ht, hmem⟩ := ih hc hv
      · exact .inl hnull
      · exact .inr ⟨t, ht, fun u hu => List.mem_append_right _ (hmem u hu)⟩

theorem distinct_of_ofFields {members : Named Json}
    (ih : ∀ k v, (k, v) ∈ members → ∀ t, ofJson v = .ok t → t.Everywhere DistinctHere → v.Distinct)
    {fs : Fields String} (h : ofFields members = .ok fs)
    (hfs : (Ty.object fs).Everywhere DistinctHere) : (Json.object members).Distinct := by
  obtain ⟨hnames, htypes⟩ := everywhere_object.1 hfs
  rw [Json.distinct_object_iff, Named.Distinct, ← names_of_ofFields h]
  refine ⟨hnames, fun m hm => ?_⟩
  obtain ⟨f, hf, -, hread⟩ := exists_mem_of_forall₂ (ofFields_eq_ok_iff.1 h).flip hm
  exact ih m.1 m.2 hm f.2 hread (htypes f.1 f.2 hf)

/-- An array is read as an array type if it has one item, and else through the alternatives. -/
theorem cases_of_ofJson_array {items : List Json} {t : Ty String}
    (h : ofJson (.array items) = .ok t) :
    (∃ v u, items = [v] ∧ ofJson v = .ok u ∧ t = .array u) ∨
      ∃ a, ofAlternatives items = .ok a ∧ a.toTy = .ok t := by
  cases items with
  | nil => cases h
  | cons v rest =>
    cases rest with
    | nil =>
      obtain ⟨u, hu, rfl⟩ := Checked.map_eq_ok_iff.1 h
      exact .inl ⟨v, u, rfl, Checked.mapFaults_eq_ok_iff.1 hu, rfl⟩
    | cons w rest =>
      rw [ofJson, ofItems_eq_bind (by simp)] at h
      exact .inr (Checked.bind_eq_ok_iff.1 h)

theorem exists_fields_of_ofJson {members : Named Json} {t : Ty String}
    (h : ofJson (.object members) = .ok t) : ∃ fs, ofFields members = .ok fs ∧ t = .object fs := by
  cases members with
  | nil => cases h
  | cons m rest =>
    obtain ⟨fs, hfs, rfl⟩ := Checked.map_eq_ok_iff.1 h
    exact ⟨fs, hfs, rfl⟩

/-- No repetition in a value is lost in its type. -/
theorem distinct_of_ofJson (v : Json) :
    ∀ t, ofJson v = .ok t → t.Everywhere DistinctHere → v.Distinct := by
  induction v with
  | null | boolean _ | number _ | string _ => exact fun _ _ _ => trivial
  | array items ih =>
    intro t h ht
    rw [Json.distinct_array_iff]
    intro x hx
    obtain ⟨v, u, rfl, hu, rfl⟩ | ⟨a, ha, hty⟩ := cases_of_ofJson_array h
    · obtain rfl := List.mem_singleton.1 hx
      exact ih x hx u hu (everywhere_array.1 ht).2
    · obtain rfl | ⟨u, hu, hoffers⟩ := offers_of_ofAlternatives ha hx
      · trivial
      · refine ih x hx u hu (everywhere_of_alternatives (fun _ => trivial) (fun _ => trivial) ?_)
        exact fun y hy => ht.part (part_of_toTy hty (hoffers y hy))
  | object members ih =>
    intro t h ht
    obtain ⟨fs, hfs, rfl⟩ := exists_fields_of_ofJson h
    exact distinct_of_ofFields ih hfs ht

/-- Fields repeat a name, at whatever depth, exactly if the object repeats one that they were read
from. -/
theorem distinct_iff_of_ofFields {members : Named Json} {fs : Fields String}
    (h : ofFields members = .ok fs) :
    (Json.object members).Distinct ↔ (Ty.object fs).Everywhere DistinctHere := by
  refine ⟨fun hd => ?_, distinct_of_ofFields (fun _ v _ => distinct_of_ofJson v) h⟩
  rw [Json.distinct_object_iff, Named.Distinct, ← names_of_ofFields h] at hd
  have hread := readsNormal_of_ofFields (fun _ v _ => readsNormal v) h
  exact everywhere_object.2 ⟨hd.1, hread.2 hd.2⟩

end Ty

/-! ## 2. Documents -/

namespace Outline

theorem distinct_mapValues_iff {α : Type} {f : α → Json} {xs : Named α} :
    (Json.object (xs.mapValues f)).Distinct ↔ xs.Distinct ∧ ∀ x ∈ xs, (f x.2).Distinct := by
  rw [Json.distinct_object_iff, Named.Distinct, Named.names_mapValues, Named.mapValues,
    List.forall_mem_map]
  rfl

theorem distinct_membersJson_iff {members : Named String} :
    (membersJson members).Distinct ↔ members.Distinct := by
  rw [membersJson, distinct_mapValues_iff]
  exact and_iff_left fun _ _ => trivial

theorem distinct_sidesJson_iff {sides : Named Json × Named Json} : (sidesJson sides).Distinct ↔
    (Json.object sides.1).Distinct ∧ (Json.object sides.2).Distinct := by
  rw [sidesJson, Json.distinct_object_iff, List.forall_mem_cons, List.forall_mem_singleton]
  exact and_iff_right (by decide : [Direction.request.key, Direction.response.key].Nodup)

end Outline

namespace Document

variable {d : Document} {o : Outline}

/-- No name is repeated in the fields, however deep. -/
def AllDistinct (fs : Fields String) : Prop := (Ty.object fs).Everywhere Ty.DistinctHere

theorem canonical_iff_of_flat (hflat : ∀ fs ∈ d.fieldLists, ∀ k t, (k, t) ∈ fs → t.Flat) :
    d.Canonical ↔
      ((d.enumerations.map (·.name)).Nodup ∧ ∀ e ∈ d.enumerations, e.members.Distinct) ∧
      ((d.records.map (·.name)).Nodup ∧ ∀ r ∈ d.records, AllDistinct r.fields) ∧
      (d.methods.map (·.name)).Nodup ∧
        ∀ m ∈ d.methods, AllDistinct m.request ∧ AllDistinct m.response := by
  constructor
  · intro h
    have hfields : ∀ fs ∈ d.fieldLists, AllDistinct fs := fun fs hfs => Ty.everywhere_object.2
      ⟨h.distinct_fields fs hfs, fun k t hmem => (h.normal_types fs hfs k t hmem).distinct⟩
    rw [fieldLists, forall_mem_fieldsOfAll] at hfields
    exact ⟨⟨h.distinct_enumerations, h.distinct_members⟩, ⟨h.distinct_records, hfields.1⟩,
      h.distinct_methods, hfields.2⟩
  · rintro ⟨⟨henumerations, hmembers⟩, ⟨hrecords, hrecordFields⟩, hmethods, hmethodFields⟩
    have hfields : ∀ fs ∈ d.fieldLists, AllDistinct fs := by
      rw [fieldLists, forall_mem_fieldsOfAll]
      exact ⟨hrecordFields, hmethodFields⟩
    exact {
      normal_types := fun fs hfs k t hmem =>
        ⟨hflat fs hfs k t hmem, (Ty.everywhere_object.1 (hfields fs hfs)).2 k t hmem⟩
      distinct_enumerations := henumerations
      distinct_records := hrecords
      distinct_methods := hmethods
      distinct_members := hmembers
      distinct_fields := fun fs hfs => (hfields fs hfs).here }

/-- The outline of a document repeats a name exactly if the document does. -/
theorem distinct_iff_of_ofOutline (h : ofOutline o = .ok d) :
    o.toJson.Distinct ↔ d.Canonical := by
  rw [canonical_iff_of_flat (flat_of_ofOutline h), Outline.distinct_toJson_iff,
    Outline.forall_kind_iff]
  obtain ⟨henumerations, hrecords, hmethods⟩ := ofOutline_eq_ok_iff.1 h
  refine and_congr ?_ (and_congr ?_ ?_)
  · rw [← henumerations, List.map_map, List.forall_mem_map]
    exact Outline.distinct_mapValues_iff.trans
      (and_congr_right' (forall₂_congr fun _ _ => Outline.distinct_membersJson_iff))
  · rw [← map_eq_of_forall₂ hrecords fun _ _ h => h.1]
    refine Outline.distinct_mapValues_iff.trans (and_congr_right' ?_)
    exact forall_mem_iff_of_forall₂ hrecords fun _ _ h => Ty.distinct_iff_of_ofFields h.2
  · rw [← map_eq_of_forall₂ hmethods fun _ _ h => h.1]
    refine Outline.distinct_mapValues_iff.trans (and_congr_right' ?_)
    apply forall_mem_iff_of_forall₂ hmethods
    rintro _ _ ⟨_, hrequest, hresponse⟩
    rw [Outline.distinct_sidesJson_iff, Ty.distinct_iff_of_ofFields hrequest,
      Ty.distinct_iff_of_ofFields hresponse]
    rfl

/-- A value repeats a name exactly if the document does that was read from it. -/
theorem distinct_iff_of_ofJson {v : Json} (h : ofJson v = .ok d) : v.Distinct ↔ d.Canonical := by
  rw [ofJson] at h
  split at h
  · rename_i o ho
    rw [Outline.distinct_iff_of_ofReading ho]
    exact distinct_iff_of_ofOutline (accept_eq_ok_iff.1 h)
  · cases h

/-! ## 3. Normal form -/

theorem ofJson_toJson_of_canonical (hd : d.Canonical) : ofJson d.toJson = .ok d :=
  ofJson_toJson_eq_ok_iff.2 (ofOutline_of_canonical hd)

/-- **What is read is in normal form**: all types are flat, and where the value repeats no name they
are normal, so that they and their documents are read back from their canonical forms. -/
theorem reading_normalises :
    (∀ v t, Ty.ofJson v = .ok t →
      t.Flat ∧ (v.Distinct → t.Normal ∧ Ty.ofJson t.toJson = .ok t)) ∧
    (∀ text d, ofText text = .ok d → ∀ fs ∈ d.fieldLists, ∀ k t, (k, t) ∈ fs → t.Flat) ∧
    ∀ v d, ofJson v = .ok d →
      (∀ fs ∈ d.fieldLists, ∀ k t, (k, t) ∈ fs →
        t.Flat ∧ (v.Distinct → t.Normal ∧ Ty.ofJson t.toJson = .ok t)) ∧
      (v.Distinct → ofJson d.toJson = .ok d) := by
  refine ⟨?_, ?_, ?_⟩
  · intro v t h
    refine ⟨Ty.flat_of_ofJson h, fun hv => ?_⟩
    have hnormal := Ty.normal_of_ofJson hv h
    exact ⟨hnormal, Ty.ofJson_toJson hnormal⟩
  · intro text d h
    obtain ⟨o, ho⟩ := exists_ofOutline_of_ofText h
    exact flat_of_ofOutline ho
  · intro v d h
    obtain ⟨o, ho⟩ := exists_ofOutline_of_ofJson h
    constructor
    · intro fs hfs k t hmem
      refine ⟨flat_of_ofOutline ho fs hfs k t hmem, fun hv => ?_⟩
      have hnormal := ((distinct_iff_of_ofJson h).1 hv).normal_types fs hfs k t hmem
      exact ⟨hnormal, Ty.ofJson_toJson hnormal⟩
    · exact fun hv => ofJson_toJson_of_canonical ((distinct_iff_of_ofJson h).1 hv)

theorem chainValue_numberless : chainValue.Numberless := by
  simp [chainValue, Json.numberless_array_iff, Json.numberless_object_iff, Json.Numberless.string]

theorem chainValue_distinct : chainValue.Distinct := by
  simp [chainValue, Json.Distinct, Json.DistinctMembers, Json.DistinctItems, Named.Distinct]

theorem ofText_chainValue : ofText chainValue.text = .ok chain :=
  (ofText_text_eq_ok_iff chainValue_numberless).2 ⟨by decide +kernel, by decide +kernel⟩

theorem reading_normalises_chain :
    (Ty.nullable (.union [.named "A", .scalar .float, .named "B"])).Normal ∧
    (∀ fs ∈ chain.fieldLists, ∀ k t, (k, t) ∈ fs → t.Flat) ∧ ofJson chain.toJson = .ok chain := by
  obtain ⟨htypes, htexts, hvalues⟩ := reading_normalises
  refine ⟨?_, htexts chainValue.text chain ofText_chainValue, ?_⟩
  · have hread : Ty.ofJson (.array [.string "A", .array [.string "null",
        .array [.string "float", .string "B"]]]) =
        .ok (.nullable (.union [.named "A", .scalar .float, .named "B"])) := by decide +kernel
    refine ((htypes _ _ hread).2 ?_).1
    simp [Json.Distinct, Json.DistinctItems]
  · exact (hvalues chainValue chain (by decide +kernel)).2 chainValue_distinct

end Document

/-! ## 4. Contracts -/

namespace Contract

theorem ofText_eq_ok_iff {text : String} {s : Strictness} {c : Contract} :
    ofText text s = .ok c ↔ ∃ d, Document.ofText text = .ok d ∧ d.validate s = .ok c := by
  unfold ofText ofDocument
  cases Document.ofText text with
  | error e => simp
  | ok d =>
    cases hvalid : d.validate s <;> simp [hvalid]

/-- **Nothing is repeated in the text of a contract**, so it is also what the value stands for in
which repeated names are merged. -/
theorem text_distinct {text : String} {s : Strictness} {c : Contract} (h : ofText text s = .ok c) :
    ∃ v, Json.read text.toList = .ok v ∧ v.Distinct ∧
      Document.ofJson v.merge = .ok c.document := by
  obtain ⟨d, hread, hvalid⟩ := ofText_eq_ok_iff.1 h
  obtain ⟨v, hv, hd⟩ := Document.exists_read_of_ofText hread
  have hflat : ∃ o, Document.ofOutline o = .ok d := Document.exists_ofOutline_of_ofJson hd
  obtain ⟨o, ho⟩ := hflat
  -- Validation has looked at every name, and none of them got lost on the way to it.
  have hdistinct : v.Distinct := (Document.distinct_iff_of_ofJson hd).2
    (Document.canonical_of_wellFormed (Document.wellFormed_of_validate hvalid)
      (Document.flat_of_ofOutline ho))
  refine ⟨v, hv, hdistinct, ?_⟩
  rw [Json.merge_of_distinct hdistinct, (resolved_of_validate hvalid).1]
  exact hd

theorem exists_of_isOk {text : String} {s : Strictness} {d : Document}
    (hread : Document.ofText text = .ok d) (hok : (d.validate s).isOk = true) :
    ∃ c, ofText text s = .ok c ∧ c.document = d := by
  cases hvalid : d.validate s with
  | error r =>
    rw [hvalid] at hok
    cases hok
  | ok c => exact ⟨c, ofText_eq_ok_iff.2 ⟨d, hread, hvalid⟩, (resolved_of_validate hvalid).1⟩

theorem text_distinct_chain : ∃ c, ofText Document.chainValue.text .strict = .ok c ∧
    ∃ v, Json.read Document.chainValue.text.toList = .ok v ∧ v.Distinct ∧
      Document.ofJson v.merge = .ok c.document := by
  obtain ⟨c, hload, -⟩ := exists_of_isOk (s := .strict) Document.ofText_chainValue
    (by decide +kernel)
  exact ⟨c, hload, text_distinct hload⟩

end Contract
end CallContract
