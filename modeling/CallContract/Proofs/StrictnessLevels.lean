import CallContract.Proofs.Acceptance

/-!
# Levels of strictness

Whatever the level, the findings about a document are the same; a level only sorts them.  So a
validation tells of the same findings whether it succeeds or not (`report_validate`), and the
reports of the three levels are read off each other: the lenient one leaves the warnings of the
standard one out, and the strict one has them among its errors, each in its place.
-/

namespace CallContract

/-! ## 1. Sorted findings -/

namespace Strictness

variable {fs : List Finding}

theorem errors_of_ne_strict {s : Strictness} (hs : s ≠ .strict) :
    s.errors fs = fs.filter fun f => !f.isAdvisory := by
  apply List.filter_congr
  intro f _
  unfold severity?
  cases f.isAdvisory <;> cases s <;> first | rfl | exact absurd rfl hs

theorem errors_strict : strict.errors fs = fs := by
  unfold errors
  rw [List.filter_eq_self]
  intro f _
  unfold severity?
  cases f.isAdvisory <;> rfl

theorem warnings_standard : standard.warnings fs = fs.filter (·.isAdvisory) := by
  apply List.filter_congr
  intro f _
  unfold severity?
  cases f.isAdvisory <;> rfl

theorem warnings_of_ne_standard {s : Strictness} (hs : s ≠ .standard) : s.warnings fs = [] := by
  unfold warnings
  rw [List.filter_eq_nil_iff]
  intro f _
  unfold severity?
  cases f.isAdvisory <;> cases s <;> first | decide | exact absurd rfl hs

end Strictness

/-! ## 2. Reports -/

/-- The findings that a validation counts as errors and those that it counts as warnings, whether
there is a contract or not. -/
def report : Except Rejection Contract → Rejection
  | .ok c => ⟨[], c.warnings⟩
  | .error r => r

namespace Document

variable {d : Document} {s : Strictness}

theorem rejection_of_validate {r : Rejection} (h : d.validate s = .error r) :
    r = ⟨s.errors d.findings, s.warnings d.findings⟩ := by
  unfold validate at h
  split at h
  · dsimp only at h
    split at h
    · cases h
    · exact (Except.error.inj h).symm
  · exact (Except.error.inj h).symm

theorem report_validate (d : Document) (s : Strictness) :
    report (d.validate s) = ⟨s.errors d.findings, s.warnings d.findings⟩ := by
  cases h : d.validate s with
  | ok c =>
    rw [report, warnings_of_validate h, (validate_eq_ok_iff.1 h).1]
  | error r => exact rejection_of_validate h

/-- Of whatever is an error at every level, every validation tells, in the order of the findings. -/
theorem filterMap_report {α : Type} {g : Finding → Option α}
    (hg : ∀ f, f.isAdvisory = true → g f = none) (d : Document) (s : Strictness) :
    (report (d.validate s)).findings.filterMap g = d.findings.filterMap g := by
  -- What `g` picks is no advice, so it is among the errors and not among the warnings.
  have herrors : (s.errors d.findings).filterMap g = d.findings.filterMap g := by
    rw [Strictness.errors, List.filterMap_filter]
    apply List.filterMap_congr
    intro f _
    unfold Strictness.severity?
    cases hf : f.isAdvisory with
    | false => rfl
    | true =>
      rw [hg f hf]
      exact ite_self _
  have hwarnings : (s.warnings d.findings).filterMap g = [] := by
    rw [Strictness.warnings, List.filterMap_eq_nil_iff]
    intro f hf
    apply hg
    have hseverity := of_decide_eq_true (List.mem_filter.1 hf).2
    unfold Strictness.severity? at hseverity
    cases hadvice : f.isAdvisory with
    | true => rfl
    | false =>
      rw [hadvice] at hseverity
      cases hseverity
  rw [report_validate, Rejection.findings, List.filterMap_append, herrors, hwarnings,
    List.append_nil]

/-- There is a contract exactly if no errors are told of. -/
theorem exists_validate_iff_errors :
    (∃ c, d.validate s = .ok c) ↔ s.errors d.findings = [] := by
  rw [exists_validate_iff, errors_eq_nil_iff]

/-- Contracts of one document differ in their warnings only. -/
theorem same_contract {s' : Strictness} {c c' : Contract} (h : d.validate s = .ok c)
    (h' : d.validate s' = .ok c') : c.document = c'.document ∧ c.scope = c'.scope ∧
      c.records = c'.records ∧ c.methods = c'.methods := by
  obtain ⟨-, records, methods, hrecords, hmethods, rfl⟩ := validate_eq_ok_iff.1 h
  obtain ⟨-, records', methods', hrecords', hmethods', rfl⟩ := validate_eq_ok_iff.1 h'
  obtain rfl : records = records' := Option.some.inj (hrecords.symm.trans hrecords')
  obtain rfl : methods = methods' := Option.some.inj (hmethods.symm.trans hmethods')
  exact ⟨rfl, rfl, rfl, rfl⟩

/-- **The levels of strictness are views of one list of findings.**  A lenient validation succeeds
exactly if a standard one does, and a strict one exactly if the standard one has no warnings either;
then the contracts are the same up to their warnings.  The lenient report is the standard one
without its warnings.  The strict report has no warnings, and among its errors the advice is the
standard list of warnings and the rest the standard list of errors. -/
theorem strictness_levels (d : Document) :
    ((∃ c, d.validate .lenient = .ok c) ↔ ∃ c, d.validate .standard = .ok c) ∧
    ((∃ c, d.validate .strict = .ok c) ↔ ∃ c, d.validate .standard = .ok c ∧ c.warnings = []) ∧
    (∀ s s' c c', d.validate s = .ok c → d.validate s' = .ok c' →
      c.document = c'.document ∧ c.scope = c'.scope ∧ c.records = c'.records ∧
        c.methods = c'.methods) ∧
    report (d.validate .lenient) = ⟨(report (d.validate .standard)).errors, []⟩ ∧
    (report (d.validate .strict)).warnings = [] ∧
    (report (d.validate .strict)).errors.filter (fun f => !f.isAdvisory) =
      (report (d.validate .standard)).errors ∧
    (report (d.validate .strict)).errors.filter (fun f => f.isAdvisory) =
      (report (d.validate .standard)).warnings := by
  have hlenient : Strictness.lenient.errors d.findings = Strictness.standard.errors d.findings := by
    rw [Strictness.errors_of_ne_strict (by decide), Strictness.errors_of_ne_strict (by decide)]
  -- Every finding is advice or not, so nothing is told of exactly if both kinds are empty.
  have hboth : Strictness.strict.errors d.findings = [] ↔
      Strictness.standard.errors d.findings = [] ∧ Strictness.standard.warnings d.findings = [] := by
    rw [Strictness.errors_strict, Strictness.errors_of_ne_strict (by decide),
      Strictness.warnings_standard, List.filter_eq_nil_iff, List.filter_eq_nil_iff,
      List.eq_nil_iff_forall_not_mem, ← forall₂_and]
    refine forall_congr' fun f => ?_
    cases f.isAdvisory <;> simp
  refine ⟨?_, ?_, fun _ _ _ _ h h' => same_contract h h', ?_, ?_, ?_, ?_⟩
  · rw [exists_validate_iff_errors, exists_validate_iff_errors, hlenient]
  · rw [exists_validate_iff_errors, hboth, ← exists_validate_iff_errors, ← exists_and_right]
    refine exists_congr fun c => and_congr_right fun h => ?_
    rw [warnings_of_validate h]
  · rw [report_validate, report_validate, hlenient, Strictness.warnings_of_ne_standard (by decide)]
  · rw [report_validate, Strictness.warnings_of_ne_standard (by decide)]
  · rw [report_validate, report_validate, Strictness.errors_strict,
      Strictness.errors_of_ne_strict (by decide)]
  · rw [report_validate, report_validate, Strictness.errors_strict, Strictness.warnings_standard]

end Document
end CallContract
