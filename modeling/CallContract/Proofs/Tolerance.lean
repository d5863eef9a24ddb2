import CallContract.Proofs.WellFormed
import CallContract.Validation
import Mathlib.Tactic.Tauto

/-!
# When findings are tolerated

A level of strictness tolerates a defect if the defect is no error there: it is advice, and the
level is not strict.  For every group of findings it is said when all of them are tolerated.  Lists
that are read name by name, with the names before each in hand, are free of errors only if their
names are distinct; the conditions below say so for the rest of a list and any names before it.
-/

namespace CallContract

/-- The defect is no error at the level. -/
def Strictness.Tolerates (s : Strictness) (x : Defect) : Prop :=
  x.isAdvisory = true ∧ s ≠ .strict

variable {s : Strictness} {sc : Scope}

theorem Strictness.severity?_eq_error_iff {f : Finding} :
    s.severity? f = some .error ↔ ¬ s.Tolerates f.defect := by
  unfold severity? Tolerates Finding.isAdvisory
  cases hf : f.defect.isAdvisory <;> cases s <;> simp

theorem Strictness.errors_eq_nil_iff {fs : List Finding} :
    s.errors fs = [] ↔ ∀ f ∈ fs, s.Tolerates f.defect := by
  rw [errors, List.filter_eq_nil_iff]
  refine forall₂_congr fun f _ => ?_
  rw [decide_eq_true_eq, severity?_eq_error_iff, not_not]

theorem Strictness.tolerates_advice {x : Defect} (h : x.isAdvisory = true) :
    s.Tolerates x ↔ s ≠ .strict := by
  rw [Tolerates, h, eq_self_iff_true, true_and]

theorem Strictness.not_tolerates {x : Defect} (h : x.isAdvisory = false) : ¬ s.Tolerates x := by
  rw [Tolerates, h]
  exact fun hx => Bool.false_ne_true hx.1

/-! ## 1. Members of enumerations -/

theorem tolerates_memberFindings_iff {seen : List String} {first members : Named String} :
    (∀ x ∈ Enumeration.memberFindings seen first members, s.Tolerates x.what) ↔
      Fresh seen members.names ∧ (∀ m ∈ members, m.2 ≠ "") ∧
        (s = .strict → Fresh first.names (members.map (·.2))) := by
  induction members generalizing seen first with
  | nil => simp [Enumeration.memberFindings]
  | cons m rest ih =>
    rcases m with ⟨name, value⟩
    rw [Named.names_cons, List.map_cons, fresh_cons, fresh_cons, List.forall_mem_cons,
      Enumeration.memberFindings]
    by_cases hseen : name ∈ seen
    · have hno : ¬ s.Tolerates (.duplicateKey name) := Strictness.not_tolerates rfl
      simp [hseen, hno]
    by_cases hempty : value = ""
    · have hno : ¬ s.Tolerates .emptyEnumValue := Strictness.not_tolerates rfl
      simp [hseen, hempty, hno]
    rw [if_neg hseen, if_neg hempty]
    -- A string that is told of again is not remembered twice, which no later string can notice.
    cases hfirst : first.lookup value with
    | some holder =>
      have hin : value ∈ first.names := Named.lookup_isSome_iff.1 (by rw [hfirst]; rfl)
      have hadv : s.Tolerates (.duplicateEnumValue value holder) ↔ s ≠ .strict :=
        Strictness.tolerates_advice rfl
      rw [List.forall_mem_cons, ih, hadv]
      by_cases hs : s = .strict
      · simp [hs, hin]
      · simp [hs, hseen, hempty]
    | none =>
      have hout : value ∉ first.names := Named.lookup_eq_none_iff.1 hfirst
      simp [ih, hseen, hempty, hout]

theorem tolerates_enumeration_iff {e : Enumeration} :
    (∀ f ∈ e.findings, s.Tolerates f.defect) ↔
      e.members.Distinct ∧ (∀ m ∈ e.members, m.2 ≠ "") ∧
        (s = .strict → (e.members.map (·.2)).Nodup) := by
  rw [Enumeration.findings, List.forall_mem_map]
  show (∀ x ∈ Enumeration.memberFindings [] [] e.members, s.Tolerates x.what) ↔ _
  rw [tolerates_memberFindings_iff, Named.names_nil, fresh_of_nothing, fresh_of_nothing]
  rfl

/-! ## 2. Fields and their types -/

/-- The outermost layer of a type is in order: a name is declared, and the fields of an object have
distinct names, which a strict level wants to be free. -/
def Ty.Sound (s : Strictness) (sc : Scope) : Ty String → Prop
  | .named n => sc.contains n = true
  | .object fs => Named.Distinct fs ∧ (s = .strict → ∀ n ∈ Named.names fs, n ∉ reservedNames)
  | .scalar _ | .nullable _ | .array _ | .union _ => True

theorem tolerates_fieldNameDefects_iff {seen : List String} {n : String} :
    (∀ x ∈ fieldNameDefects seen n, s.Tolerates x.what) ↔
      n ∉ seen ∧ (s = .strict → n ∉ reservedNames) := by
  have hno : ¬ s.Tolerates (.duplicateKey n) := Strictness.not_tolerates rfl
  have hadv : s.Tolerates (.shadowsScalar n) ↔ s ≠ .strict := Strictness.tolerates_advice rfl
  rw [fieldNameDefects, List.forall_mem_append]
  simp only [isReserved_iff]
  by_cases hseen : n ∈ seen
  · simp [hseen, hno]
  by_cases hres : n ∈ reservedNames
  · simp [hseen, hres, hadv]
  · simp [hseen, hres]

theorem tolerates_listDefects_iff {ts : List (Ty String)} :
    (∀ x ∈ Ty.listDefects sc ts, s.Tolerates x.what) ↔
      ∀ t ∈ ts, ∀ x ∈ t.defects sc, s.Tolerates x.what := by
  induction ts with
  | nil => simp [Ty.listDefects]
  | cons t rest ih => rw [Ty.listDefects, List.forall_mem_append, ih, List.forall_mem_cons]

theorem tolerates_fieldDefects_iff {seen : List String} {fs : Fields String} :
    (∀ x ∈ Ty.fieldDefects sc seen fs, s.Tolerates x.what) ↔
      Fresh seen fs.names ∧ (s = .strict → ∀ n ∈ fs.names, n ∉ reservedNames) ∧
        ∀ e ∈ fs, ∀ x ∈ e.2.defects sc, s.Tolerates x.what := by
  induction fs generalizing seen with
  | nil => simp [Ty.fieldDefects]
  | cons e rest ih =>
    rcases e with ⟨name, t⟩
    rw [Ty.fieldDefects, List.forall_mem_append, List.forall_mem_map, ih, Named.names_cons,
      fresh_cons, List.forall_mem_cons, List.forall_mem_cons]
    simp only [Routed.below, List.forall_mem_append, tolerates_fieldNameDefects_iff]
    tauto

theorem tolerates_defects_iff {t : Ty String} :
    (∀ x ∈ t.defects sc, s.Tolerates x.what) ↔ t.Everywhere (Ty.Sound s sc) := by
  induction t with
  | scalar _ => simp [Ty.defects, Ty.Sound]
  | named n =>
    by_cases hn : sc.contains n = true <;>
      simp [Ty.defects, Ty.Sound, hn, Strictness.Tolerates, Defect.isAdvisory]
  | nullable t ih => simp [Ty.defects, Ty.Sound, ih]
  | array t ih => simp [Ty.defects, Ty.Sound, Routed.below, ih]
  | union ts ih =>
    rw [Ty.defects, tolerates_listDefects_iff, Ty.everywhere_union]
    simp only [Ty.Sound, true_and]
    exact forall₂_congr ih
  | object fs ih =>
    rw [Ty.defects, tolerates_fieldDefects_iff, Ty.everywhere_object, fresh_of_nothing, Ty.Sound,
      Named.Distinct, and_assoc]
    refine and_congr_right fun _ => and_congr_right fun _ => ?_
    rw [Prod.forall]
    exact forall₃_congr ih

theorem tolerates_fields_iff {site : Site} {route : Route} {fs : Fields String} :
    (∀ f ∈ fs.findings sc site route, s.Tolerates f.defect) ↔
      (Ty.object fs).Everywhere (Ty.Sound s sc) := by
  rw [Fields.findings, List.forall_mem_map]
  exact tolerates_defects_iff (t := .object fs)

theorem tolerates_method_iff {m : Method String} :
    (∀ f ∈ m.findings sc, s.Tolerates f.defect) ↔
      (Ty.object m.request).Everywhere (Ty.Sound s sc) ∧
        (Ty.object m.response).Everywhere (Ty.Sound s sc) := by
  rw [Method.findings, List.forall_mem_append, tolerates_fields_iff, tolerates_fields_iff]
  rfl

/-! ## 3. Names of declarations -/

namespace Document

theorem tolerates_declaredName_iff {kind : Kind} {n : String} :
    (∀ f ∈ declaredNameFindings kind n, s.Tolerates f.defect) ↔
      n ∉ reservedNames ∧ (s = .strict → InCamelCase n) := by
  rw [← isReserved_iff, ← isCamelCase_iff, declaredNameFindings]
  have hno : ¬ s.Tolerates (.reservedName n) := Strictness.not_tolerates rfl
  have hadv : s.Tolerates (.namingConvention n .camelCase) ↔ s ≠ .strict :=
    Strictness.tolerates_advice rfl
  by_cases hres : isReserved n = true
  · simp [hres, Finding.ofDeclaration, hno]
  by_cases hcamel : isCamelCase n = true
  · simp [hres, hcamel]
  · simp [hres, hcamel, Finding.ofDeclaration, hadv]

theorem tolerates_declareAll_iff {decls : Named DeclId} :
    (∀ f ∈ (declareAll sc decls).2, s.Tolerates f.defect) ↔
      Fresh sc.entries.names decls.names ∧ (∀ n ∈ decls.names, n ∉ reservedNames) ∧
        (s = .strict → ∀ n ∈ decls.names, InCamelCase n) := by
  induction decls generalizing sc with
  | nil => simp [declareAll]
  | cons entry rest ih =>
    rcases entry with ⟨name, id⟩
    rw [Named.names_cons, fresh_cons, List.forall_mem_cons, List.forall_mem_cons]
    cases hfind : sc.find? name with
    | some existing =>
      have hin : name ∈ sc.entries.names := by
        rw [← Named.lookup_isSome_iff, ← Scope.find?, hfind]
        rfl
      have hno : ¬ s.Tolerates (.duplicateDeclaration name existing.kind) :=
        Strictness.not_tolerates rfl
      simp [declareAll, Scope.declare, hfind, hin, Finding.ofDeclaration, hno]
    | none =>
      have hout : name ∉ sc.entries.names := Named.lookup_eq_none_iff.1 hfind
      -- The rest is declared in a scope with the name at its end, where it counts as seen.
      have hfresh : Fresh (Named.names (sc.entries ++ [(name, id)])) (Named.names rest) ↔
          Fresh (name :: sc.entries.names) (Named.names rest) :=
        Fresh.congr fun n => by simp [or_comm]
      simp only [declareAll, Scope.declare, hfind, List.forall_mem_append, ih, hfresh,
        tolerates_declaredName_iff]
      tauto

theorem tolerates_scope_iff {d : Document} :
    (∀ f ∈ d.scopeFindings, s.Tolerates f.defect) ↔
      d.typeNames.Nodup ∧ (∀ n ∈ d.typeNames, n ∉ reservedNames) ∧
        (s = .strict → ∀ n ∈ d.typeNames, InCamelCase n) := by
  rw [scopeFindings, tolerates_declareAll_iff, names_declarations]
  show Fresh [] _ ∧ _ ↔ _
  rw [fresh_of_nothing]

theorem tolerates_methodName_iff {n : String} :
    (∀ f ∈ methodNameFindings sc n, s.Tolerates f.defect) ↔
      (s = .strict → sc.contains n = false ∧ InSnakeCase n) := by
  rw [← isSnakeCase_iff, methodNameFindings, List.forall_mem_append]
  have htaken : s.Tolerates (.nameCollision n) ↔ s ≠ .strict := Strictness.tolerates_advice rfl
  have hsnake : s.Tolerates (.namingConvention n .snakeCase) ↔ s ≠ .strict :=
    Strictness.tolerates_advice rfl
  by_cases hin : sc.contains n = true <;> by_cases hn : isSnakeCase n = true <;>
    simp [hin, hn, htaken, hsnake, Finding.ofDeclaration]

theorem tolerates_methodNames_iff {seen names : List String} :
    (∀ f ∈ methodNamesFindings sc seen names, s.Tolerates f.defect) ↔
      Fresh seen names ∧ (s = .strict → ∀ n ∈ names, sc.contains n = false ∧ InSnakeCase n) := by
  induction names generalizing seen with
  | nil => simp [methodNamesFindings]
  | cons name rest ih =>
    rw [methodNamesFindings, fresh_cons, List.forall_mem_cons]
    by_cases hseen : name ∈ seen
    · have hno : ¬ s.Tolerates (.duplicateDeclaration name .method) :=
        Strictness.not_tolerates rfl
      simp [hseen, Finding.ofDeclaration, hno]
    · rw [if_neg hseen, List.forall_mem_append, tolerates_methodName_iff, ih]
      constructor
      · rintro ⟨hname, hfresh, hrest⟩
        exact ⟨⟨hseen, hfresh⟩, fun hs => ⟨hname hs, hrest hs⟩⟩
      · rintro ⟨⟨_, hfresh⟩, hall⟩
        exact ⟨fun hs => (hall hs).1, hfresh, fun hs => (hall hs).2⟩

theorem tolerates_methods_iff {d : Document} :
    (∀ f ∈ d.methodsFindings, s.Tolerates f.defect) ↔
      (d.methods.map (·.name)).Nodup ∧ (s = .strict → d.methods ≠ [] ∧
        ∀ m ∈ d.methods, m.name ∉ d.typeNames ∧ InSnakeCase m.name) := by
  have hadv : s.Tolerates .noMethods ↔ s ≠ .strict := Strictness.tolerates_advice rfl
  have hcontains (n : String) : d.scope.contains n = false ↔ n ∉ d.typeNames := by
    rw [← Bool.not_eq_true, contains_scope_iff]
  rw [methodsFindings, List.forall_mem_append, tolerates_methodNames_iff, fresh_of_nothing,
    List.forall_mem_map]
  simp only [hcontains]
  by_cases hnone : d.methods = []
  · simp [hnone, hadv]
  · simp [hnone]

end Document
end CallContract
