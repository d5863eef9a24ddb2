import CallContract.Proofs.StrictnessLevels

/-!
# Codes of findings

Each group of findings has codes of its own kind: names of declarations, members of enumerations,
fields and their types, and records that hold themselves.  What picks the findings of one code out
of all of them therefore has to be looked for in the groups that have this code only.
-/

namespace CallContract

variable {f : Finding}

/-- Nothing is picked out of findings if none of them has the code that is looked for. -/
theorem filterMap_eq_nil_of_codes {α : Type} {g : Finding → Option α} {fs : List Finding}
    {codes : List String} {wanted : String} (hfs : ∀ f ∈ fs, f.defect.code ∈ codes)
    (hg : ∀ f : Finding, f.defect.code ≠ wanted → g f = none) (hwanted : wanted ∉ codes) :
    fs.filterMap g = [] := by
  rw [List.filterMap_eq_nil_iff]
  intro f hf
  apply hg
  intro hcode
  exact hwanted (hcode ▸ hfs f hf)

/-- The codes of advice. -/
def adviceCodes : List String := ["W001", "W002", "W003", "W004", "W005"]

theorem code_of_isAdvisory (h : f.isAdvisory = true) : f.defect.code ∈ adviceCodes := by
  obtain ⟨location, defect⟩ := f
  cases defect with
  | malformedType _ | duplicateDeclaration _ _ | duplicateKey _ | unresolvedReference _
  | unrepresentableCycle _ | emptyEnumValue | reservedName _ => cases h
  | namingConvention _ _ | duplicateEnumValue _ _ | nameCollision _ | shadowsScalar _
  | noMethods => simp [Defect.code, adviceCodes]

/-- Errors of one code are told of at every level, in the order of the findings. -/
theorem filterMap_report_of_code {α : Type} {g : Finding → Option α} {wanted : String}
    (hg : ∀ f : Finding, f.defect.code ≠ wanted → g f = none) (hwanted : wanted ∉ adviceCodes)
    (d : Document) (s : Strictness) :
    (report (d.validate s)).findings.filterMap g = d.findings.filterMap g := by
  apply Document.filterMap_report
  intro f hf
  apply hg
  intro hcode
  exact hwanted (hcode ▸ code_of_isAdvisory hf)

/-! ## 1. Members of enumerations -/

/-- A name that is there already, no string, and a string that is there already. -/
def memberCodes : List String := ["E003", "E006", "W002"]

theorem code_memberFindings {seen : List String} {first members : Named String} :
    ∀ x ∈ Enumeration.memberFindings seen first members, x.what.code ∈ memberCodes := by
  induction members generalizing seen first with
  | nil =>
    intro x hx
    cases hx
  | cons m rest ih =>
    have hkey : (Defect.duplicateKey m.1).code ∈ memberCodes := by simp [Defect.code, memberCodes]
    have hempty : Defect.emptyEnumValue.code ∈ memberCodes := by decide
    have hvalue (holder : String) : (Defect.duplicateEnumValue m.2 holder).code ∈ memberCodes := by
      simp [Defect.code, memberCodes]
    rw [Enumeration.memberFindings]
    split
    · exact List.forall_mem_cons.2 ⟨hkey, ih⟩
    · split
      · exact List.forall_mem_cons.2 ⟨hempty, ih⟩
      · split
        · exact List.forall_mem_cons.2 ⟨hvalue _, ih⟩
        · exact ih

theorem code_enumerationFindings (d : Document) :
    ∀ f ∈ d.enumerations.flatMap Enumeration.findings, f.defect.code ∈ memberCodes := by
  rw [List.forall_mem_flatMap]
  intro e _
  rw [Enumeration.findings, List.forall_mem_map]
  exact code_memberFindings

/-! ## 2. Fields and their types -/

/-- A name that is there already, a name that is not declared, and a name that is not free. -/
def fieldCodes : List String := ["E003", "E004", "W004"]

theorem code_fieldNameDefects {seen : List String} {n : String} :
    ∀ x ∈ fieldNameDefects seen n, x.what.code ∈ fieldCodes := by
  unfold fieldNameDefects
  split <;> split <;> simp [Defect.code, fieldCodes]

theorem code_fieldDefects {sc : Scope} {seen : List String} {fs : Fields String}
    (h : ∀ k t, (k, t) ∈ fs → ∀ x ∈ t.defects sc, x.what.code ∈ fieldCodes) :
    ∀ x ∈ Ty.fieldDefects sc seen fs, x.what.code ∈ fieldCodes := by
  induction fs generalizing seen with
  | nil =>
    intro x hx
    cases hx
  | cons field rest ih =>
    obtain ⟨k, t⟩ := field
    have hrest (k' t') (ht : (k', t') ∈ rest) := h k' t' (List.mem_cons_of_mem _ ht)
    rw [Ty.fieldDefects, List.forall_mem_append, List.forall_mem_map, List.forall_mem_append]
    exact ⟨⟨code_fieldNameDefects, h k t List.mem_cons_self⟩, ih hrest⟩

theorem Ty.code_defects {sc : Scope} (t : Ty String) :
    ∀ x ∈ t.defects sc, x.what.code ∈ fieldCodes := by
  induction t with
  | scalar s =>
    intro x hx
    cases hx
  | named n =>
    rw [defects]
    split <;> simp [Defect.code, fieldCodes]
  | nullable t ih => exact ih
  | array t ih =>
    rw [defects, List.forall_mem_map]
    exact ih
  | union ts ih =>
    rw [defects]
    induction ts with
    | nil =>
      intro x hx
      cases hx
    | cons t rest ihrest =>
      rw [listDefects, List.forall_mem_append]
      exact ⟨ih t List.mem_cons_self, ihrest fun u hu => ih u (List.mem_cons_of_mem t hu)⟩
  | object fs ih => exact code_fieldDefects ih

theorem Fields.code_findings {sc : Scope} {site : Site} {route : Route} (fs : Fields String) :
    ∀ f ∈ fs.findings sc site route, f.defect.code ∈ fieldCodes := by
  rw [findings, List.forall_mem_map]
  exact Ty.code_defects (.object fs)

theorem code_recordFindings (d : Document) :
    ∀ f ∈ d.records.flatMap (Record.findings d.scope), f.defect.code ∈ fieldCodes := by
  rw [List.forall_mem_flatMap]
  intro r _
  exact Fields.code_findings r.fields

theorem code_methodFindings (d : Document) :
    ∀ f ∈ d.methods.flatMap (Method.findings d.scope), f.defect.code ∈ fieldCodes := by
  rw [List.forall_mem_flatMap]
  intro m _
  rw [Method.findings, List.forall_mem_append]
  exact ⟨Fields.code_findings m.request, Fields.code_findings m.response⟩

/-! ## 3. Names of declarations -/

namespace Document

/-- A name that is there already, a name that is not free, and a name that is not written as
advised. -/
def typeNameCodes : List String := ["E002", "E007", "W001"]

theorem code_declareAll {sc : Scope} {decls : Named DeclId} :
    ∀ f ∈ (declareAll sc decls).2, f.defect.code ∈ typeNameCodes := by
  induction decls generalizing sc with
  | nil =>
    intro f hf
    cases hf
  | cons entry rest ih =>
    obtain ⟨name, id⟩ := entry
    have hname : ∀ f ∈ declaredNameFindings id.kind name, f.defect.code ∈ typeNameCodes := by
      unfold declaredNameFindings
      split
      · simp [Finding.ofDeclaration, Defect.code, typeNameCodes]
      · split <;> simp [Finding.ofDeclaration, Defect.code, typeNameCodes]
    rw [declareAll]
    cases sc.declare name id with
    | error existing =>
      have htaken : (Defect.duplicateDeclaration name existing.kind).code ∈ typeNameCodes := by
        simp [Defect.code, typeNameCodes]
      exact List.forall_mem_cons.2 ⟨htaken, ih⟩
    | ok sc' => exact List.forall_mem_append.2 ⟨hname, ih⟩

theorem code_scopeFindings (d : Document) : ∀ f ∈ d.scopeFindings, f.defect.code ∈ typeNameCodes :=
  code_declareAll

/-- A name that is there already, a name that is not written as advised, a name that a type has,
and no methods. -/
def methodNameCodes : List String := ["E002", "W001", "W003", "W005"]

/-- The findings about methods as a whole lie at the section or at a method. -/
def AboutMethods (f : Finding) : Prop :=
  f.defect.code ∈ methodNameCodes ∧
    (f.location.site = .section .method ∨ ∃ name, f.location.site = .declaration .method name)

theorem aboutMethods_methodNamesFindings {sc : Scope} {seen names : List String} :
    ∀ f ∈ methodNamesFindings sc seen names, AboutMethods f := by
  induction names generalizing seen with
  | nil =>
    intro f hf
    cases hf
  | cons name rest ih =>
    have habout (x : Defect) (hx : x.code ∈ methodNameCodes) :
        AboutMethods (.ofDeclaration .method name x) := ⟨hx, .inr ⟨name, rfl⟩⟩
    have htaken := habout (.duplicateDeclaration name .method)
      (by simp [Defect.code, methodNameCodes])
    have hshared := habout (.nameCollision name) (by simp [Defect.code, methodNameCodes])
    have hsnake := habout (.namingConvention name .snakeCase)
      (by simp [Defect.code, methodNameCodes])
    have hname : ∀ f ∈ methodNameFindings sc name, AboutMethods f := by
      unfold methodNameFindings
      split <;> split <;> simp [hshared, hsnake]
    rw [methodNamesFindings]
    split
    · exact List.forall_mem_cons.2 ⟨htaken, ih⟩
    · exact List.forall_mem_append.2 ⟨hname, ih⟩

theorem aboutMethods_methodsFindings (d : Document) : ∀ f ∈ d.methodsFindings, AboutMethods f := by
  rw [methodsFindings, List.forall_mem_append]
  refine ⟨?_, aboutMethods_methodNamesFindings⟩
  split
  · rw [List.forall_mem_singleton]
    exact ⟨by decide, .inl rfl⟩
  · intro f hf
    cases hf

/-! ## 4. Records that hold themselves -/

theorem code_cycleFindings (d : Document) : ∀ f ∈ d.cycleFindings, f.defect.code ∈ ["E005"] := by
  rw [cycleFindings, List.forall_mem_map]
  intro l _
  exact List.mem_singleton_self _

end Document
end CallContract
