import CallContract.Proofs.Repetitions

/-!
# Contracts written out and read again

The canonical form of a contract is read as the contract itself, also as a text, unless it is nested
too deeply for a text.  It may be, although the text was not that the contract came from: a union
that may be null is written as a pair of the union and null, wherever null stood in the source.  All
other types are written no deeper than they were read.
-/

namespace CallContract

namespace Ty

/-! ## 1. Depth of types -/

/-- The outermost layer of the type is not written more deeply than it may have been read. -/
def SlimHere : Ty String → Prop
  | .nullable (.union _) => False
  | .nullable _ | .scalar _ | .named _ | .array _ | .union _ | .object _ => True

theorem members_of_single {t : Ty String} (h : t.IsSingle) : t.members = [t] := by
  cases t with
  | union _ => exact h.elim
  | scalar _ | named _ | nullable _ | array _ | object _ => rfl

/-- Types that are neither unions nor nullable are offered as they were put together. -/
theorem alternatives_of_toTy {a : Alternatives} {t : Ty String} (h : a.toTy = .ok t)
    (hsingle : ∀ u ∈ a.types, u.IsSingle) : t.alternatives = a := by
  obtain ⟨nullable, types⟩ := a
  obtain ⟨-, ⟨hnull, u, hu, rfl⟩ | ⟨-, rfl⟩⟩ := toTy_eq_ok_iff.1 h
  · simp only at hnull hu
    subst hnull hu
    rw [alternatives, members_of_single (hsingle u (List.mem_singleton_self u))]
  · cases nullable <;> rfl

theorem depth_toJson_union_le {ts : List (Ty String)} {n : Nat} :
    (Ty.union ts).toJson.depth ≤ n + 1 ↔ ∀ t ∈ ts, t.toJson.depth ≤ n := by
  rw [toJson, Json.depth, Nat.add_le_add_iff_right, Json.depthItems_le_iff, toJsonList_eq,
    List.forall_mem_map]

theorem depth_toJson_object_le {fs : Fields String} {n : Nat}
    (h : ∀ k t, (k, t) ∈ fs → t.toJson.depth ≤ n) : (Ty.object fs).toJson.depth ≤ n + 1 := by
  rw [toJson, Json.depth, Nat.add_le_add_iff_right, Json.depthMembers_le_iff, toJsonFields_eq]
  intro k v hv
  obtain ⟨f, hf, heq⟩ := List.mem_map.1 (Named.mem_of_mem_merge hv)
  cases heq
  exact h f.1 f.2 hf

theorem depth_toJson_nullable (t : Ty String) :
    (Ty.nullable t).toJson.depth = t.toJson.depth + 1 := by
  rw [toJson, Json.depth]
  show max t.toJson.depth (max 0 0) + 1 = _
  omega

theorem depth_toJson_array (t : Ty String) :
    (Ty.array t).toJson.depth = t.toJson.depth + 1 := by
  rw [toJson, Json.depth]
  show max t.toJson.depth 0 + 1 = _
  omega

/-- What the induction says of one value: neither the type that comes out nor what it offers is
written more deeply, if what it offers is slim. -/
def ReadsSlim (v : Json) : Prop :=
  ∀ t, ofJson v = .ok t → (∀ u ∈ t.alternatives.types, u.Everywhere SlimHere) →
    (∀ u ∈ t.alternatives.types, u.toJson.depth ≤ v.depth) ∧
      (t.SlimHere → t.toJson.depth ≤ v.depth)

theorem ReadsSlim.depth_le {v : Json} (h : ReadsSlim v) {t : Ty String} (ht : ofJson v = .ok t)
    (hslim : t.Everywhere SlimHere) : t.toJson.depth ≤ v.depth := by
  refine (h t ht fun u hu => ?_).2 hslim.here
  exact hslim.part (single_of_mem_alternatives (flat_of_ofJson ht) hu).2

/-- A type that is not made of alternatives only offers itself. -/
theorem slim_of_single {n : Nat} {t : Ty String} (hsingle : t.IsSingle)
    (hdepth : t.Everywhere SlimHere → t.toJson.depth ≤ n)
    (hslim : ∀ u ∈ t.alternatives.types, u.Everywhere SlimHere) :
    (∀ u ∈ t.alternatives.types, u.toJson.depth ≤ n) ∧ (t.SlimHere → t.toJson.depth ≤ n) := by
  have hnull : ∀ w, t ≠ .nullable w := by
    rintro w rfl
    exact hsingle
  rw [alternatives_of_ne_nullable hnull, members_of_single hsingle, List.forall_mem_singleton]
    at hslim ⊢
  exact ⟨hdepth hslim, fun _ => hdepth hslim⟩

/-- What is made of alternatives is no deeper than the array of the items. -/
theorem slim_of_ofAlternatives {items : List Json} (ih : ∀ x ∈ items, ReadsSlim x)
    {a : Alternatives} (ha : ofAlternatives items = .ok a) {t : Ty String} (hty : a.toTy = .ok t)
    (hslim : ∀ u ∈ t.alternatives.types, u.Everywhere SlimHere) :
    (∀ u ∈ t.alternatives.types, u.toJson.depth ≤ (Json.array items).depth) ∧
      (t.SlimHere → t.toJson.depth ≤ (Json.array items).depth) := by
  have hsingle : ∀ u ∈ a.types, u.IsSingle := by
    intro u hu
    obtain ⟨x, -, y, hy, hmem⟩ := exists_of_mem_ofAlternatives ha hu
    exact (single_of_mem_alternatives (flat_of_ofJson hy) hmem).1
  rw [alternatives_of_toTy hty hsingle] at hslim ⊢
  -- An alternative is no deeper than the item that offers it, which lies in the array.
  have hdepth : ∀ u ∈ a.types, u.toJson.depth ≤ Json.depthItems items := by
    intro u hu
    obtain ⟨x, hx, y, hy, hmem⟩ := exists_of_mem_ofAlternatives ha hu
    have hoffers : ∀ z ∈ y.alternatives.types, z ∈ a.types := by
      obtain rfl | ⟨y', hy', hoffers⟩ := offers_of_ofAlternatives ha hx
      · cases hy
      · rw [hy] at hy'
        cases hy'
        exact hoffers
    have hle := (ih x hx y hy fun z hz => hslim z (hoffers z hz)).1 u hmem
    exact Nat.le_trans hle (Json.depth_le_depthItems hx)
  rw [Json.depth]
  refine ⟨fun u hu => Nat.le_succ_of_le (hdepth u hu), fun ht => ?_⟩
  obtain ⟨-, ⟨-, u, hu, rfl⟩ | ⟨-, rfl⟩⟩ := toTy_eq_ok_iff.1 hty
  · rw [depth_toJson_nullable, Nat.add_le_add_iff_right]
    exact hdepth u (hu ▸ List.mem_singleton_self u)
  · cases hnull : a.nullable with
    | true =>
      rw [hnull] at ht
      exact ht.elim
    | false => exact depth_toJson_union_le.2 hdepth

theorem depth_le_of_ofFields {members : Named Json}
    (ih : ∀ k v, (k, v) ∈ members → ReadsSlim v) {fs : Fields String}
    (h : ofFields members = .ok fs) (hslim : (Ty.object fs).Everywhere SlimHere) :
    (Ty.object fs).toJson.depth ≤ (Json.object members).depth := by
  refine depth_toJson_object_le fun k t hmem => ?_
  obtain ⟨⟨_, v⟩, hv, rfl, hread⟩ := exists_mem_of_forall₂ (ofFields_eq_ok_iff.1 h) hmem
  have hle := (ih _ v hv).depth_le hread ((everywhere_object.1 hslim).2 _ t hmem)
  exact Nat.le_trans hle (Json.depth_le_depthMembers hv)

theorem readsSlim (v : Json) : ReadsSlim v := by
  induction v with
  | null | boolean _ | number _ =>
    intro t h
    cases h
  | string name =>
    intro t h
    obtain ⟨s, rfl⟩ | ⟨rfl, -⟩ := flat_of_ofName h
    · exact slim_of_single trivial fun _ => Nat.le_refl 0
    · exact slim_of_single trivial fun _ => Nat.le_refl 0
  | array items ih =>
    intro t h
    obtain ⟨v, u, rfl, hu, rfl⟩ | ⟨a, ha, hty⟩ := cases_of_ofJson_array h
    · refine slim_of_single trivial fun hslim => ?_
      have hle := (ih v List.mem_cons_self).depth_le hu (everywhere_array.1 hslim).2
      rw [depth_toJson_array, Json.depth, Nat.add_le_add_iff_right]
      exact Nat.le_trans hle (Nat.le_max_left _ _)
    · exact slim_of_ofAlternatives ih ha hty
  | object members ih =>
    intro t h
    obtain ⟨fs, hfs, rfl⟩ := exists_fields_of_ofJson h
    exact slim_of_single trivial (depth_le_of_ofFields ih hfs)

theorem everywhere_slimHere_iff {t : Ty String} :
    t.Everywhere SlimHere ↔ ∀ ts, ¬ (Ty.nullable (.union ts)).Part t := by
  refine ⟨fun h ts hts => h _ hts, fun h u hu => ?_⟩
  cases u with
  | nullable w =>
    cases w with
    | union ts => exact h ts hu
    | scalar _ | named _ | nullable _ | array _ | object _ => trivial
  | scalar _ | named _ | array _ | union _ | object _ => trivial

theorem numberless_toJson (t : Ty String) : t.toJson.Numberless := by
  induction t with
  | scalar s => exact .string _
  | named n => exact .string n
  | nullable t ih =>
    rw [toJson, Json.numberless_array_iff, List.forall_mem_cons, List.forall_mem_singleton]
    exact ⟨ih, .string nullName⟩
  | array t ih =>
    rw [toJson, Json.numberless_array_iff, List.forall_mem_singleton]
    exact ih
  | union ts ih =>
    rw [toJson, Json.numberless_array_iff, toJsonList_eq, List.forall_mem_map]
    exact ih
  | object fs ih =>
    rw [toJson, Json.numberless_object_iff, toJsonFields_eq]
    intro m hm
    obtain ⟨f, hf, rfl⟩ := List.mem_map.1 (Named.mem_of_mem_merge hm)
    exact ih f.1 f.2 hf

end Ty

namespace Document

variable {d : Document} {o : Outline}

/-! ## 2. Canonical forms as texts -/

theorem numberless_merge {members : Named Json} (h : ∀ m ∈ members, m.2.Numberless) :
    (Json.object members.merge).Numberless :=
  Json.numberless_object_iff.2 fun m hm => h m (Named.mem_of_mem_merge hm)

/-- There are no numbers in a canonical form. -/
theorem numberless_toJson (d : Document) : d.toJson.Numberless := by
  have hfields (fs : Fields String) : fs.toJson.Numberless := Ty.numberless_toJson (.object fs)
  rw [toJson, Json.numberless_object_iff, List.forall_mem_cons, List.forall_mem_cons,
    List.forall_mem_singleton]
  refine ⟨numberless_merge ?_, numberless_merge ?_, numberless_merge ?_⟩
  · rw [List.forall_mem_map]
    intro e _
    rw [Enumeration.toJson]
    apply numberless_merge
    rw [Named.mapValues, List.forall_mem_map]
    exact fun m _ => .string m.2
  · rw [List.forall_mem_map]
    exact fun r _ => hfields r.fields
  · rw [List.forall_mem_map]
    intro m _
    rw [Method.toJson, Json.numberless_object_iff, List.forall_mem_cons, List.forall_mem_singleton]
    exact ⟨hfields m.request, hfields m.response⟩

theorem depth_merge_le_of_forall₂ {xs ys : Named Json}
    (h : List.Forall₂ (fun x y => y.2.depth ≤ x.2.depth) xs ys) :
    (Json.object ys.merge).depth ≤ (Json.object xs).depth := by
  rw [Json.depth, Json.depth, Nat.add_le_add_iff_right, Json.depthMembers_le_iff]
  intro k v hv
  obtain ⟨x, hx, hle⟩ := exists_mem_of_forall₂ h (Named.mem_of_mem_merge hv)
  exact Nat.le_trans hle (Json.depth_le_depthMembers hx)

/-- Without nullable unions the canonical form of a document is no deeper than its outline. -/
theorem depth_toJson_le_of_ofOutline (h : ofOutline o = .ok d)
    (hslim : ∀ fs ∈ d.fieldLists, (Ty.object fs).Everywhere Ty.SlimHere) :
    d.toJson.depth ≤ o.toJson.depth := by
  obtain ⟨henumerations, hrecords, hmethods⟩ := ofOutline_eq_ok_iff.1 h
  have hfields {members : Named Json} {fs : Fields String} (hread : Ty.ofFields members = .ok fs)
      (hfs : (Ty.object fs).Everywhere Ty.SlimHere) :
      fs.toJson.depth ≤ (Json.object members).depth :=
    Ty.depth_le_of_ofFields (fun _ v _ => Ty.readsSlim v) hread hfs
  rw [fieldLists, forall_mem_fieldsOfAll] at hslim
  -- The sections are compared one by one, and in them the declarations.
  have henumerationSection : (Json.object (Named.merge
      (d.enumerations.map fun e => (e.name, e.toJson)))).depth ≤
        (Json.object (o.enumerations.mapValues Outline.membersJson)).depth := by
    rw [← henumerations, List.map_map]
    apply depth_merge_le_of_forall₂
    rw [Named.mapValues, List.forall₂_map_left_iff, List.forall₂_map_right_iff, List.forall₂_same]
    exact fun e _ => depth_merge_le_of_forall₂ (List.forall₂_same.2 fun _ _ => Nat.le_refl _)
  have hrecordSection : (Json.object (Named.merge
      (d.records.map fun r => (r.name, r.fields.toJson)))).depth ≤
        (Json.object (o.records.mapValues .object)).depth := by
    apply depth_merge_le_of_forall₂
    rw [Named.mapValues, List.forall₂_map_left_iff, List.forall₂_map_right_iff]
    apply ((List.forall₂_and_left _ _).2 ⟨hslim.1, hrecords.flip⟩).flip.imp
    rintro e r ⟨hr, _, hread⟩
    exact hfields hread hr
  have hmethodSection : (Json.object (Named.merge
      (d.methods.map fun m => (m.name, m.toJson)))).depth ≤
        (Json.object (o.methods.mapValues Outline.sidesJson)).depth := by
    apply depth_merge_le_of_forall₂
    rw [Named.mapValues, List.forall₂_map_left_iff, List.forall₂_map_right_iff]
    apply ((List.forall₂_and_left _ _).2 ⟨hslim.2, hmethods.flip⟩).flip.imp
    rintro e m ⟨hm, _, hrequest, hresponse⟩
    exact Nat.succ_le_succ (max_le_max (hfields hrequest hm.1)
      (max_le_max (hfields hresponse hm.2) (Nat.le_refl 0)))
  exact Nat.succ_le_succ (max_le_max henumerationSection
    (max_le_max hrecordSection (max_le_max hmethodSection (Nat.le_refl 0))))

/-- A document that was read from a text has a canonical form that fits into a text, unless it has
nullable unions. -/
theorem depth_toJson_le_nestingLimit {text : String} (h : ofText text = .ok d)
    (hslim : ∀ fs ∈ d.fieldLists, (Ty.object fs).Everywhere Ty.SlimHere) :
    d.toJson.depth ≤ Json.nestingLimit := by
  obtain ⟨v, hread, hv⟩ := exists_read_of_ofText h
  have hlimit := Json.depth_le_of_read hread
  rw [ofJson] at hv
  split at hv
  · rename_i o ho
    have houtline := Outline.depth_toJson_le ho
    have hdocument := depth_toJson_le_of_ofOutline (accept_eq_ok_iff.1 hv) hslim
    rw [Json.nestingLimit] at hlimit ⊢
    omega
  · cases hv

end Document

/-! ## 3. Contracts -/

namespace Contract

/-- The canonical form of the document of a contract is read as that document. -/
theorem ofJson_toJson_of_ofText {text : String} {s : Strictness} {c : Contract}
    (h : ofText text s = .ok c) :
    Document.ofJson c.document.toJson = .ok c.document ∧ c.document.validate s = .ok c := by
  obtain ⟨d, hread, hvalid⟩ := ofText_eq_ok_iff.1 h
  obtain ⟨o, ho⟩ := Document.exists_ofOutline_of_ofText hread
  rw [(resolved_of_validate hvalid).1]
  exact ⟨Document.ofJson_toJson_of_canonical (Document.canonical_of_wellFormed
    (Document.wellFormed_of_validate hvalid) (Document.flat_of_ofOutline ho)), hvalid⟩

theorem ofText_toJson_eq_ok_iff {text : String} {s : Strictness} {c c' : Contract}
    (h : ofText text s = .ok c) : ofText c.document.toJson.text s = .ok c' ↔
      c.document.toJson.depth ≤ Json.nestingLimit ∧ c' = c := by
  obtain ⟨hread, hvalid⟩ := ofJson_toJson_of_ofText h
  simp only [ofText_eq_ok_iff,
    Document.ofText_text_eq_ok_iff (Document.numberless_toJson c.document), hread]
  constructor
  · rintro ⟨d, ⟨hdepth, heq⟩, hvalid'⟩
    cases heq
    rw [hvalid] at hvalid'
    exact ⟨hdepth, (Except.ok.inj hvalid').symm⟩
  · rintro ⟨hdepth, heq⟩
    exact ⟨c.document, ⟨hdepth, rfl⟩, heq ▸ hvalid⟩

/-- **A contract that is written out is read as the same contract**, exactly if its canonical form
is not nested too deeply for a text; only nullable unions can make it so. -/
theorem reload {text : String} {s : Strictness} {c : Contract} (h : ofText text s = .ok c) :
    (ofText c.document.toJson.text s = .ok c ↔ c.document.toJson.depth ≤ Json.nestingLimit) ∧
    (∀ c', ofText c.document.toJson.text s = .ok c' → c' = c) ∧
    ((∀ fs ∈ c.document.fieldLists, ∀ ts, ¬ (Ty.nullable (.union ts)).Part (.object fs)) →
      c.document.toJson.depth ≤ Json.nestingLimit) := by
  refine ⟨?_, fun c' hc' => ((ofText_toJson_eq_ok_iff h).1 hc').2, fun hslim => ?_⟩
  · rw [ofText_toJson_eq_ok_iff h]
    exact and_iff_left rfl
  · obtain ⟨d, hread, hvalid⟩ := ofText_eq_ok_iff.1 h
    rw [(resolved_of_validate hvalid).1] at hslim ⊢
    exact Document.depth_toJson_le_nestingLimit hread fun fs hfs =>
      Ty.everywhere_slimHere_iff.2 (hslim fs hfs)

theorem reload_chain : ∃ c, ofText Document.chainValue.text .strict = .ok c ∧
    ofText c.document.toJson.text .strict = .ok c := by
  obtain ⟨c, hload, hdocument⟩ :=
    exists_of_isOk (s := .strict) Document.ofText_chainValue (by decide +kernel)
  refine ⟨c, hload, (reload hload).1.2 ?_⟩
  rw [hdocument]
  decide +kernel

/-- Two types or null, in arrays of arrays and so on, as a source may have it. -/
def deepSource : Nat → Json
  | 0 => .array [.string "int", .string "float", .string "null"]
  | n + 1 => .array [deepSource n]

/-- The type that is read from `deepSource`: null goes around the union. -/
def deepType : Nat → Ty String
  | 0 => .nullable (.union [.scalar .integer, .scalar .float])
  | n + 1 => .array (deepType n)

/-- A value with as many arrays and objects around one another as a text can have. -/
def deepest : Json := .object [("objects", .object [("A", .object [("x", deepSource 123)])])]

/-- The document of `deepest`, in which the pair of the union and null makes one array more. -/
def deepestDocument : Document := ⟨[], [⟨"A", [("x", deepType 123)]⟩], []⟩

theorem numberless_deepSource (n : Nat) : (deepSource n).Numberless := by
  induction n with
  | zero => simp [deepSource, Json.numberless_array_iff, Json.Numberless.string]
  | succ n ih =>
    rw [deepSource, Json.numberless_array_iff, List.forall_mem_singleton]
    exact ih

theorem ofText_deepest : Document.ofText deepest.text = .ok deepestDocument := by
  have hnumberless : deepest.Numberless := by
    simp [deepest, Json.numberless_object_iff, numberless_deepSource]
  exact (Document.ofText_text_eq_ok_iff hnumberless).2 ⟨by decide +kernel, by decide +kernel⟩

/-- The text of `deepest` makes a contract that is not read again. -/
theorem not_reload_deepest : ∃ c, ofText deepest.text .standard = .ok c ∧
    ∀ c', ofText c.document.toJson.text .standard ≠ .ok c' := by
  obtain ⟨c, hload, hdocument⟩ :=
    exists_of_isOk (s := .standard) ofText_deepest (by decide +kernel)
  refine ⟨c, hload, fun c' hc' => ?_⟩
  have hdepth := ((ofText_toJson_eq_ok_iff hload).1 hc').1
  rw [hdocument] at hdepth
  exact absurd hdepth (by decide +kernel)

end Contract
end CallContract
