import CallContract.Proofs.Renaming
import CallContract.Proofs.Tolerance

/-!
# Acceptance

A document becomes a contract exactly if it is well formed; a strict validation wants it to be well
styled too.  None of the findings is an error then (`errors_eq_nil_iff`), and if every name in a
type is declared, every type can be resolved, so a document without errors is always a contract.
-/

namespace CallContract

variable {s : Strictness} {sc : Scope} {d : Document}

/-! ## 1. Findings about types -/

theorem everywhere_sound_iff {t : Ty String} :
    t.Everywhere (Ty.Sound s sc) ↔
      (∀ inner : Fields String, (Ty.object inner).Part t → inner.Distinct) ∧
      (∀ n : String, (Ty.named n).Part t → sc.contains n = true) ∧
      (s = .strict → ∀ inner : Fields String, (Ty.object inner).Part t →
        ∀ n ∈ inner.names, n ∉ reservedNames) := by
  constructor
  · intro h
    refine ⟨fun inner hin => (h _ hin).1, fun n hn => h _ hn, fun hs inner hin => ?_⟩
    exact (h _ hin).2 hs
  · rintro ⟨hdistinct, hdeclared, hfree⟩ u hu
    cases u with
    | named n => exact hdeclared n hu
    | object inner => exact ⟨hdistinct inner hu, fun hs => hfree hs inner hu⟩
    | scalar _ | nullable _ | array _ | union _ => trivial

namespace Document

theorem tolerates_fieldLists_iff :
    ((∀ f ∈ d.records.flatMap (Record.findings d.scope), s.Tolerates f.defect) ∧
        ∀ f ∈ d.methods.flatMap (Method.findings d.scope), s.Tolerates f.defect) ↔
      ∀ fs ∈ d.fieldLists, (Ty.object fs).Everywhere (Ty.Sound s d.scope) := by
  rw [List.forall_mem_flatMap, List.forall_mem_flatMap, fieldLists, forall_mem_fieldsOfAll]
  refine and_congr (forall₂_congr fun r _ => ?_) (forall₂_congr fun m _ => ?_)
  · exact tolerates_fields_iff
  · exact tolerates_method_iff

/-! ## 2. Findings about records that hold themselves -/

/-- Where names are distinct, edges lead from records to the records that they hold. -/
theorem leads_iff_holds (hd : d.typeNames.Nodup) {i j : Nat} :
    d.holding.Leads i j ↔ d.Holds i j := by
  constructor
  · rintro ⟨e, he, hj⟩
    rcases mem_edges_holding.1 he with ⟨r, route, n, hr, hn, hfind, -⟩
    have hname := (find?_scope_eq_some_iff hd).1 hfind
    rcases Option.map_eq_some_iff.1 hname with ⟨r', hr', rfl⟩
    exact ⟨r, r', route, hr, hj ▸ hr', hn⟩
  · rintro ⟨r, r', route, hr, hr', hn⟩
    refine ⟨⟨j, ⟨.declaration .record r.name, route⟩⟩, ?_, rfl⟩
    have hname : d.declaredName? (.record j) = some r'.name := by
      rw [declaredName?, hr']
      rfl
    exact mem_edges_holding.2 ⟨r, route, r'.name, hr, hn,
      (find?_scope_eq_some_iff hd).2 hname, rfl⟩

theorem tolerates_cycles_iff (hd : d.typeNames.Nodup) :
    (∀ f ∈ d.cycleFindings, s.Tolerates f.defect) ↔ ∀ i, ¬ Relation.TransGen d.Holds i i := by
  have hleads : d.holding.Leads = d.Holds := by
    funext i j
    exact propext (leads_iff_holds hd)
  -- A loop is an error at every level, so none may be found.
  have hnone : (∀ f ∈ d.cycleFindings, s.Tolerates f.defect) ↔ d.cycleFindings = [] := by
    rw [List.eq_nil_iff_forall_not_mem]
    refine forall_congr' fun f => imp_congr_right fun hf => iff_false_intro ?_
    rw [cycleFindings, List.mem_map] at hf
    rcases hf with ⟨l, -, rfl⟩
    exact Strictness.not_tolerates rfl
  rw [hnone, cycleFindings_eq_nil_iff, Graph.Acyclic, hleads]

/-! ## 3. All findings -/

/-- There are no errors exactly if the document is well formed, and well styled if that counts. -/
theorem errors_eq_nil_iff :
    s.errors d.findings = [] ↔ d.WellFormed ∧ (s = .strict → d.WellStyled) := by
  rw [Strictness.errors_eq_nil_iff]
  simp only [findings, List.forall_mem_append, tolerates_scope_iff, tolerates_methods_iff]
  constructor
  · rintro ⟨⟨⟨⟨⟨⟨htypes, hfree, hcamel⟩, henums⟩, hrecords⟩, hmethods, hnames⟩, hsides⟩, hcycles⟩
    have henum (e) (he : e ∈ d.enumerations) :=
      tolerates_enumeration_iff.1 (List.forall_mem_flatMap.1 henums e he)
    have hfields (fs) (h : fs ∈ d.fieldLists) :=
      everywhere_sound_iff.1 (tolerates_fieldLists_iff.1 ⟨hrecords, hsides⟩ fs h)
    refine ⟨?_, fun hs => ?_⟩
    · exact {
        distinct_types := htypes
        free_types := hfree
        distinct_methods := hmethods
        distinct_members := fun e he => (henum e he).1
        nonempty_values := fun e he => (henum e he).2.1
        distinct_fields := fun fs h => (hfields fs h).1
        declared := fun fs h n hn => contains_scope_iff.1 ((hfields fs h).2.1 n hn)
        acyclic := (tolerates_cycles_iff htypes).1 hcycles }
    · exact {
        camel_types := hcamel hs
        snake_methods := fun m hm => ((hnames hs).2 m hm).2
        distinct_values := fun e he => (henum e he).2.2 hs
        apart := fun m hm => ((hnames hs).2 m hm).1
        free_fields := fun fs h => (hfields fs h).2.2 hs
        has_methods := (hnames hs).1 }
  · rintro ⟨hd, hstyle⟩
    have henums : ∀ f ∈ d.enumerations.flatMap Enumeration.findings, s.Tolerates f.defect := by
      rw [List.forall_mem_flatMap]
      intro e he
      exact tolerates_enumeration_iff.2 ⟨hd.distinct_members e he, hd.nonempty_values e he,
        fun hs => (hstyle hs).distinct_values e he⟩
    have hfields := tolerates_fieldLists_iff.2 fun fs h => everywhere_sound_iff.2
      ⟨hd.distinct_fields fs h, fun n hn => contains_scope_iff.2 (hd.declared fs h n hn),
        fun hs => (hstyle hs).free_fields fs h⟩
    have hnames (hs : s = .strict) : d.methods ≠ [] ∧
        ∀ m ∈ d.methods, m.name ∉ d.typeNames ∧ InSnakeCase m.name :=
      ⟨(hstyle hs).has_methods,
        fun m hm => ⟨(hstyle hs).apart m hm, (hstyle hs).snake_methods m hm⟩⟩
    exact ⟨⟨⟨⟨⟨⟨hd.distinct_types, hd.free_types, fun hs => (hstyle hs).camel_types⟩, henums⟩,
      hfields.1⟩, hd.distinct_methods, hnames⟩, hfields.2⟩,
      (tolerates_cycles_iff hd.distinct_types).2 hd.acyclic⟩

/-! ## 4. Resolution -/

theorem isSome_renameFields?_scope_iff {fs : Fields String} :
    (Ty.renameFields? d.scope.find? fs).isSome ↔
      ∀ n : String, (Ty.named n).Part (.object fs) → n ∈ d.typeNames := by
  rw [Ty.isSome_renameFields?_iff]
  refine forall_congr' fun n => imp_congr (Ty.mem_references_iff (t := .object fs)) ?_
  exact contains_scope_iff

theorem isSome_resolve_iff :
    (d.records.mapM (Record.resolve? d.scope)).isSome ∧
        (d.methods.mapM (Method.resolve? d.scope)).isSome ↔
      ∀ fs ∈ d.fieldLists, ∀ n : String, (Ty.named n).Part (.object fs) → n ∈ d.typeNames := by
  rw [isSome_mapM_iff, isSome_mapM_iff, fieldLists, forall_mem_fieldsOfAll]
  refine and_congr (forall₂_congr fun r _ => ?_) (forall₂_congr fun m _ => ?_)
  · rw [Record.resolve?_eq, Record.isSome_rename?_iff, isSome_renameFields?_scope_iff]
  · rw [Method.resolve?_eq, Method.isSome_rename?_iff, isSome_renameFields?_scope_iff,
      isSome_renameFields?_scope_iff]

/-! ## 5. Contracts -/

theorem validate_eq_ok_iff {c : Contract} :
    d.validate s = .ok c ↔ s.errors d.findings = [] ∧ ∃ records methods,
      d.records.mapM (Record.resolve? d.scope) = some records ∧
      d.methods.mapM (Method.resolve? d.scope) = some methods ∧
      c = .assemble d d.scope records methods (s.warnings d.findings) := by
  rw [validate]
  split
  · rename_i records methods hrecords hmethods
    rw [hrecords, hmethods]
    simp only [List.isEmpty_iff]
    by_cases herrors : s.errors d.findings = []
    · simp [herrors, eq_comm]
    · simp [herrors]
  · rename_i hnone
    constructor
    · intro h
      cases h
    · rintro ⟨_, records, methods, hrecords, hmethods, _⟩
      exact absurd hmethods (hnone records methods hrecords)

theorem warnings_of_validate {c : Contract} (h : d.validate s = .ok c) :
    c.warnings = s.warnings d.findings := by
  rcases validate_eq_ok_iff.1 h with ⟨-, _, _, -, -, rfl⟩
  rfl

theorem wellFormed_of_validate {c : Contract} (h : d.validate s = .ok c) : d.WellFormed :=
  (errors_eq_nil_iff.1 (validate_eq_ok_iff.1 h).1).1

theorem exists_validate_iff :
    (∃ c, d.validate s = .ok c) ↔ d.WellFormed ∧ (s = .strict → d.WellStyled) := by
  rw [← errors_eq_nil_iff]
  constructor
  · rintro ⟨c, h⟩
    exact (validate_eq_ok_iff.1 h).1
  · intro herrors
    -- Types that cannot be resolved would have been told of.
    have hd := (errors_eq_nil_iff.1 herrors).1
    have hsome := isSome_resolve_iff.2 hd.declared
    rcases Option.isSome_iff_exists.1 hsome.1 with ⟨records, hrecords⟩
    rcases Option.isSome_iff_exists.1 hsome.2 with ⟨methods, hmethods⟩
    exact ⟨_, validate_eq_ok_iff.2 ⟨herrors, records, methods, hrecords, hmethods, rfl⟩⟩

/-- **Validation accepts exactly the well-formed documents**, and a strict one exactly those that
are well styled too. -/
theorem validate_accepts_wellFormed (d : Document) :
    ((∃ c, d.validate .lenient = .ok c) ↔ d.WellFormed) ∧
    ((∃ c, d.validate .standard = .ok c) ↔ d.WellFormed) ∧
    ((∃ c, d.validate .strict = .ok c) ↔ d.WellFormed ∧ d.WellStyled) := by
  refine ⟨?_, ?_, ?_⟩
  · rw [exists_validate_iff]
    exact and_iff_left nofun
  · rw [exists_validate_iff]
    exact and_iff_left nofun
  · rw [exists_validate_iff]
    exact and_congr_right fun _ => forall_prop_of_true rfl

end Document
end CallContract
