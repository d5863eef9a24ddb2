import CallContract.Proofs.UnusedDefinitions
import CallContract.Proofs.WrittenSchemas

/-!
# Declarations that are not used

A declaration may be taken out of a document if its name stands in no type outside of it.  The other
declarations move up, so places change, but no name does.  The document is as well formed and as
well styled as before, and what its contract exports lacks one definition, to which nothing led.
-/

namespace CallContract

theorem exists_split_of_getElem? {α : Type} {xs : List α} {i : Nat} {x : α} (h : xs[i]? = some x) :
    ∃ earlier later, xs = earlier ++ x :: later ∧ xs.eraseIdx i = earlier ++ later := by
  obtain ⟨hi, rfl⟩ := List.getElem?_eq_some_iff.1 h
  refine ⟨xs.take i, xs.drop (i + 1), ?_, List.eraseIdx_eq_take_drop_succ xs i⟩
  rw [← List.drop_eq_getElem_cons hi, List.take_append_drop]

namespace Document

variable {d : Document} {id : DeclId} {n : String}

/-- The document without the declaration in a place. -/
def without (d : Document) : DeclId → Document
  | .enumeration i => { d with enumerations := d.enumerations.eraseIdx i }
  | .record i => { d with records := d.records.eraseIdx i }

/-- The fields of the declaration in a place; an enumeration has none. -/
def fieldsAt (d : Document) : DeclId → Fields String
  | .enumeration _ => []
  | .record i => d.records[i]?.elim [] (·.fields)

/-- No type outside of the declaration in the place names it. -/
def Unused (d : Document) (id : DeclId) (n : String) : Prop :=
  ∀ fs ∈ (d.without id).fieldLists, n ∉ Ty.referencesFields fs

theorem Unused.not_part (h : d.Unused id n) {fs : Fields String}
    (hfs : fs ∈ (d.without id).fieldLists) : ¬ (Ty.named n).Part (.object fs) := fun hpart =>
  h fs hfs ((Ty.mem_references_iff (t := .object fs)).2 hpart)

/-! ## 1. What is left -/

@[simp] theorem methods_without (d : Document) (id : DeclId) :
    (d.without id).methods = d.methods := by
  cases id <;> rfl

theorem mem_of_mem_without {e : Enumeration} (h : e ∈ (d.without id).enumerations) :
    e ∈ d.enumerations := by
  cases id with
  | enumeration i => exact List.mem_of_mem_eraseIdx h
  | record i => exact h

theorem fieldLists_without {fs : Fields String} (h : fs ∈ (d.without id).fieldLists) :
    fs ∈ d.fieldLists := by
  cases id with
  | enumeration i => exact h
  | record i =>
    have hsub : ((d.without (.record i)).records.map (·.fields)).Sublist (d.records.map (·.fields)) :=
      (List.eraseIdx_sublist d.records i).map _
    exact (hsub.append_right _).subset h

/-- Taking a declaration out takes its definition out of the definitions, and nothing else. -/
theorem exists_split_definitions (h : d.declaredName? id = some n) (closed : Bool) :
    ∃ (earlier later : Named Definition) (entry : Definition),
      d.definitions closed = earlier ++ (n, entry) :: later ∧
      (d.without id).definitions closed = earlier ++ later ∧
      (d.WellFormed → ¬ (Ty.union []).Part (.object (d.fieldsAt id)) →
        entry.toJson.Faultless) := by
  cases id with
  | enumeration i =>
    obtain ⟨e, he, rfl⟩ := Option.map_eq_some_iff.1 h
    obtain ⟨earlier, later, hall, hleft⟩ := exists_split_of_getElem? he
    refine ⟨earlier.map fun e => (e.name, e.definition), later.map (fun e => (e.name, e.definition)) ++
      d.records.map fun r => (r.name, r.definition closed), e.definition, ?_, ?_,
      fun _ _ => Definition.faultless_strings e.values⟩
    · rw [definitions, hall, List.map_append, List.append_assoc]
      rfl
    · rw [definitions, without, hleft, List.map_append, List.append_assoc]
  | record i =>
    obtain ⟨r, hr, rfl⟩ := Option.map_eq_some_iff.1 h
    obtain ⟨earlier, later, hall, hleft⟩ := exists_split_of_getElem? hr
    refine ⟨d.enumerations.map (fun e => (e.name, e.definition)) ++
      earlier.map fun r => (r.name, r.definition closed), later.map fun r =>
      (r.name, r.definition closed), r.definition closed, ?_, ?_, fun hd hunion => ?_⟩
    · rw [definitions, hall, List.map_append, List.append_assoc]
      rfl
    · rw [definitions, without, hleft, List.map_append, List.append_assoc]
    · rw [fieldsAt, hr] at hunion
      have hfields : r.fields ∈ d.fieldLists :=
        mem_fieldsOfAll_of_record (List.mem_of_getElem? hr) _
      exact Ty.faultless_schema hunion (hd.distinct_fields r.fields hfields)

theorem names_definitions (d : Document) (closed : Bool) :
    (d.definitions closed).names = d.typeNames := by
  rw [definitions, Named.names_append, Named.names_map, Named.names_map, typeNames]

theorem exists_split_typeNames (h : d.declaredName? id = some n) :
    ∃ earlier later, d.typeNames = earlier ++ n :: later ∧
      (d.without id).typeNames = earlier ++ later := by
  obtain ⟨earlier, later, entry, hall, hleft, -⟩ := exists_split_definitions h false
  refine ⟨earlier.names, later.names, ?_, ?_⟩
  · rw [← names_definitions d false, hall, Named.names_append, Named.names_cons]
  · rw [← names_definitions _ false, hleft, Named.names_append]

theorem typeNames_without_sublist (h : d.declaredName? id = some n) :
    (d.without id).typeNames.Sublist d.typeNames := by
  obtain ⟨earlier, later, hall, hleft⟩ := exists_split_typeNames h
  rw [hall, hleft]
  exact (List.sublist_cons_self n later).append_left earlier

theorem mem_typeNames_without (h : d.declaredName? id = some n) {m : String} (hm : m ∈ d.typeNames)
    (hne : m ≠ n) : m ∈ (d.without id).typeNames := by
  obtain ⟨earlier, later, hall, hleft⟩ := exists_split_typeNames h
  rw [hall, List.mem_append, List.mem_cons] at hm
  rw [hleft, List.mem_append]
  exact hm.imp_right fun hm => hm.resolve_left hne

/-! ## 2. Records that hold records -/

/-- The place that a record had before the declaration in a place was taken out. -/
def formerPlace : DeclId → Nat → Nat
  | .enumeration _, i => i
  | .record k, i => if i < k then i else i + 1

theorem records_without (d : Document) (id : DeclId) (i : Nat) :
    (d.without id).records[i]? = d.records[formerPlace id i]? := by
  cases id with
  | enumeration k => rfl
  | record k =>
    show (d.records.eraseIdx k)[i]? = _
    rw [List.getElem?_eraseIdx, formerPlace]
    split <;> rfl

theorem holds_of_without {i j : Nat} (h : (d.without id).Holds i j) :
    d.Holds (formerPlace id i) (formerPlace id j) := by
  obtain ⟨r, r', route, hr, hr', hroute⟩ := h
  rw [records_without] at hr hr'
  exact ⟨r, r', route, hr, hr', hroute⟩

/-! ## 3. The document without the declaration -/

theorem WellFormed.without (hd : d.WellFormed) (h : d.declaredName? id = some n)
    (hunused : d.Unused id n) : (d.without id).WellFormed where
  distinct_types := hd.distinct_types.sublist (typeNames_without_sublist h)
  free_types m hm := hd.free_types m ((typeNames_without_sublist h).subset hm)
  distinct_methods := by
    rw [methods_without]
    exact hd.distinct_methods
  distinct_members e he := hd.distinct_members e (mem_of_mem_without he)
  nonempty_values e he := hd.nonempty_values e (mem_of_mem_without he)
  distinct_fields fs hfs := hd.distinct_fields fs (fieldLists_without hfs)
  declared fs hfs m hm := by
    have hne : m ≠ n := by
      rintro rfl
      exact hunused.not_part hfs hm
    exact mem_typeNames_without h (hd.declared fs (fieldLists_without hfs) m hm) hne
  -- Records that hold each other in a ring did so in their former places.
  acyclic i hi := hd.acyclic _ (hi.lift (formerPlace id) fun _ _ => holds_of_without)

theorem WellStyled.without (hd : d.WellStyled) (h : d.declaredName? id = some n) :
    (d.without id).WellStyled where
  camel_types m hm := hd.camel_types m ((typeNames_without_sublist h).subset hm)
  snake_methods := by
    rw [methods_without]
    exact hd.snake_methods
  distinct_values e he := hd.distinct_values e (mem_of_mem_without he)
  apart m hm hin := by
    rw [methods_without] at hm
    exact hd.apart m hm ((typeNames_without_sublist h).subset hin)
  free_fields fs hfs := hd.free_fields fs (fieldLists_without hfs)
  has_methods := by
    rw [methods_without]
    exact hd.has_methods

/-! ## 4. Exported schemas -/

/-- Every method is exported without the definition of the declaration, to which nothing led. -/
theorem exportMethod_without (hd : d.WellFormed) (h : d.declaredName? id = some n)
    (hunused : d.Unused id n) {m : Method String} (hm : m ∈ d.methods) (direction : Direction)
    (closed : Bool) : ∃ entry : Definition,
      (d.exportMethod m direction closed).Without n entry
        ((d.without id).exportMethod m direction closed) ∧
      (∀ g ∈ ((d.without id).exportMethod m direction closed).toJson.references,
        Schema.LeadsPast n g) ∧
      (¬ (Ty.union []).Part (.object (d.fieldsAt id)) → entry.toJson.Faultless) := by
  obtain ⟨earlier, later, entry, hall, hleft, hentry⟩ := exists_split_definitions h closed
  refine ⟨entry, ⟨⟨earlier, later, hall, hleft, ?_⟩, rfl, rfl⟩, fun g hg => ?_, hentry hd⟩
  -- The name was declared once, so no other definition has it.
  · have hnames : d.typeNames = earlier.names ++ n :: later.names := by
      rw [← names_definitions d closed, hall, Named.names_append, Named.names_cons]
    have hdistinct := hd.distinct_types
    rw [hnames, List.nodup_middle, List.nodup_cons] at hdistinct
    rw [Named.names_append]
    exact hdistinct.1
  · obtain ⟨fs, hfs, k, hk, rfl⟩ :=
      exists_of_mem_references ((methods_without d id).symm ▸ hm) hg
    refine ⟨k, ?_, rfl⟩
    rintro rfl
    exact hunused.not_part hfs hk

end Document

/-- Schemas that find the same in a payload accept the same payloads. -/
theorem Contract.checkPayload_congr {c c' : Contract} {method : String} {direction : Direction}
    {closed : Bool} {payload : Json} {x x' : RootSchema}
    (hx : c.export? method direction closed = some x)
    (hx' : c'.export? method direction closed = some x')
    (hfault : x.toJson.fault? = x'.toJson.fault?)
    (hviolations : x.toJson.rootViolations payload = x'.toJson.rootViolations payload) :
    c.checkPayload method direction closed payload =
      c'.checkPayload method direction closed payload := by
  unfold checkPayload schema
  rw [hx, hx']
  dsimp only
  rw [hfault, hviolations]

namespace Document

/-- **An unused declaration can be taken out.**  The document without it is valid at the same level,
and every method is exported as before, but without the definition of the declaration.  If no union
in the declaration is without alternatives, every payload has the same outcome too. -/
theorem unused_declaration_removable {d : Document} {s : Strictness} {c : Contract}
    (h : d.validate s = .ok c) {id : DeclId} {n : String} (hn : d.declaredName? id = some n)
    (hunused : d.Unused id n) :
    ∃ c', (d.without id).validate s = .ok c' ∧
      ∀ method direction closed,
        (method ∉ d.methods.map (·.name) ∧ c.export? method direction closed = none ∧
            c'.export? method direction closed = none ∨
          ∃ x x', c.export? method direction closed = some x ∧
            c'.export? method direction closed = some x' ∧
            x.toJson.WithoutDefinition n x'.toJson) ∧
        (¬ (Ty.union []).Part (.object (d.fieldsAt id)) → ∀ payload,
          c.checkPayload method direction closed payload =
            c'.checkPayload method direction closed payload) := by
  obtain ⟨hd, hstyle⟩ := exists_validate_iff.1 ⟨c, h⟩
  obtain ⟨c', h'⟩ := exists_validate_iff.2
    ⟨hd.without hn hunused, fun hs => (hstyle hs).without hn⟩
  refine ⟨c', h', fun method direction closed => ?_⟩
  obtain ⟨hdoc, hc⟩ := Contract.resolved_of_validate h
  obtain ⟨hdoc', hc'⟩ := Contract.resolved_of_validate h'
  -- Both contracts export what stands in their documents, and these have the same methods.
  have hexport := hc.export?_eq method direction closed
  have hexport' := hc'.export?_eq method direction closed
  rw [hdoc, export?] at hexport
  rw [hdoc', export?, methods_without] at hexport'
  cases hfind : d.methods.find? (·.name = method) with
  | none =>
    rw [hfind, Option.map_none] at hexport hexport'
    have hnot : method ∉ d.methods.map (·.name) := by
      rw [List.mem_map]
      rintro ⟨m, hm, hname⟩
      exact List.find?_eq_none.1 hfind m hm (decide_eq_true hname)
    refine ⟨.inl ⟨hnot, hexport, hexport'⟩, fun _ payload => ?_⟩
    unfold Contract.checkPayload Contract.schema
    rw [hexport, hexport']
  | some m =>
    rw [hfind, Option.map_some] at hexport hexport'
    obtain ⟨entry, hwithout, hreferences, hentry⟩ := exportMethod_without hd hn
      hunused (List.mem_of_find?_eq_some hfind) direction closed
    refine ⟨.inr ⟨_, _, hexport, hexport', hwithout.toJson⟩, fun hunion payload => ?_⟩
    have hfault : (d.exportMethod m direction closed).toJson.fault? =
        ((d.without id).exportMethod m direction closed).toJson.fault? := by
      rw [hc.fault?_of_export? hexport, hc'.fault?_of_export? hexport',
        hwithout.findSome?_eq (hentry hunion)]
    exact Contract.checkPayload_congr hexport hexport' hfault
      (hwithout.rootViolations_eq hreferences payload)

/-- A garage with boxes in boxes, of which no method knows. -/
def attic : Document :=
  { garage with records := ⟨"Box", [("inside", .array (.named "Box"))]⟩ :: garage.records }

theorem unused_declaration_removable_attic :
    ∃ c, attic.validate .strict = .ok c ∧ attic.declaredName? (.record 0) = some "Box" ∧
      attic.Unused (.record 0) "Box" ∧ ¬ (Ty.union []).Part (.object (attic.fieldsAt (.record 0))) ∧
      ∃ c', garage.validate .strict = .ok c' ∧
        (∃ x x', c.export? "find_car" .response true = some x ∧
          c'.export? "find_car" .response true = some x' ∧
          x.toJson.WithoutDefinition "Box" x'.toJson) ∧
        ∀ payload, c.checkPayload "find_car" .response true payload =
          c'.checkPayload "find_car" .response true payload := by
  have hvalid : (attic.validate .strict).toOption.isSome = true := by decide +kernel
  have hname : attic.declaredName? (.record 0) = some "Box" := rfl
  have hunused : attic.Unused (.record 0) "Box" := by
    unfold Unused
    decide +kernel
  have hunion : ¬ (Ty.union []).Part (.object (attic.fieldsAt (.record 0))) := by
    intro hpart
    cases hpart with
    | object hmem hpart =>
      obtain ⟨-, rfl⟩ := Prod.mk.inj (List.mem_singleton.1 hmem)
      cases hpart with
      | array hpart => cases hpart
  cases hc : attic.validate .strict with
  | error r =>
    rw [hc] at hvalid
    cases hvalid
  | ok c =>
    obtain ⟨c', hc', hsame⟩ := unused_declaration_removable hc hname hunused
    obtain ⟨hexport, hpayload⟩ := hsame "find_car" .response true
    have hdeclared : "find_car" ∈ attic.methods.map (·.name) := by decide
    exact ⟨c, rfl, hname, hunused, hunion, c', hc',
      hexport.resolve_left fun hnone => hnone.1 hdeclared, hpayload hunion⟩

/-- A record that is not used, with a union of nothing. -/
def hollow : Document := ⟨[], [⟨"Hollow", [("x", .union [])]⟩], [⟨"send", [], []⟩]⟩

/-- The contract of `hollow`. -/
def hollowContract : Contract where
  document := hollow
  scope := ⟨[("Hollow", .record 0)]⟩
  records := [⟨"Hollow", [("x", .union [])]⟩]
  methods := [⟨"send", [], []⟩]
  warnings := []

/-- The contract of `hollow` without its record. -/
def bareContract : Contract where
  document := ⟨[], [], [⟨"send", [], []⟩]⟩
  scope := ⟨[]⟩
  records := []
  methods := [⟨"send", [], []⟩]
  warnings := []

/-- The empty payload is accepted once the record is taken out, but not before: as long as it is
there, the schema is not valid. -/
theorem hollow_changes_payloads :
    hollow.validate .strict = .ok hollowContract ∧
    hollow.declaredName? (.record 0) = some "Hollow" ∧ hollow.Unused (.record 0) "Hollow" ∧
    (hollow.without (.record 0)).validate .strict = .ok bareContract ∧
    hollowContract.checkPayload "send" .request false (.object []) =
      .error (.invalidSchema .emptyChoice) ∧
    bareContract.checkPayload "send" .request false (.object []) = .ok () := by
  refine ⟨by decide +kernel, rfl, ?_, by decide +kernel, rfl, ?_⟩
  · unfold Unused
    decide +kernel
  · have hexport : bareContract.export? "send" .request false =
        some ⟨"send.request", [], [], false, []⟩ := rfl
    have hfault : (⟨"send.request", [], [], false, []⟩ : RootSchema).toJson.fault? = none := rfl
    have hviolations :
        (⟨"send.request", [], [], false, []⟩ : RootSchema).toJson.rootViolations (.object []) =
          [] := by
      rw [RootSchema.rootViolations_toJson, RootSchema.body, Schema.violations_object]
      show Json.propertyViolations [] [] [] ++ [] = []
      rw [Json.propertyViolations]
      rfl
    unfold Contract.checkPayload Contract.schema
    rw [hexport]
    dsimp only
    rw [hfault]
    dsimp only
    rw [hviolations]

end Document
end CallContract
