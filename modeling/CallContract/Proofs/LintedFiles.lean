import CallContract.Files.Lint
import CallContract.Proofs.Repetitions
import CallContract.Proofs.StrictnessLevels

/-!
# Linting a file and loading it

The report on a file is made from what loading it gives.  Its status is that of its diagnostics, and
it tells of a failure only if there is one among them.  There is: a document that was read is only
refused for errors, at every level, and everything else that goes wrong is told as an error.
-/

namespace CallContract

/-! ## 1. Diagnostics -/

namespace Diagnostic

/-- The diagnostic tells of the finding in a file, with the severity. -/
structure Tells (severity : Severity) (file : Path) (f : Finding) (d : Diagnostic) : Prop where
  severity : d.severity = severity
  code : d.code = f.defect.code
  file : d.file = file
  place : d.place = f.location.text
  message : d.message = f.defect.message

theorem forall₂_tells (severity : Severity) (file : Path) (fs : List Finding) :
    List.Forall₂ (Tells severity file) fs (fs.map (ofFinding severity file)) := by
  rw [List.forall₂_map_right_iff, List.forall₂_same]
  exact fun _ _ => ⟨rfl, rfl, rfl, rfl, rfl⟩

end Diagnostic

/-- Was something read that does not have the shape of a document? -/
def FileError.isMisshapen : FileError → Bool
  | .unread (.misshapen _ _ _) => true
  | .unread (.notJson _ _) | .unread (.malformed _ _) => false
  | .notFound _ | .unreadable _ _ => false

/-- A file that gives no malformed types gives one diagnostic. -/
theorem Diagnostic.exists_ofFileError (file : Path) {e : FileError}
    (h : ∀ f fs, e ≠ .unread (.malformed f fs)) : ∃ d, ofFileError file e = [d] ∧
      d.severity = .error ∧ d.code = (if e.isMisshapen then "P002" else "P001") ∧
      d.file = file := by
  cases e with
  | notFound _ | unreadable _ _ => exact ⟨_, rfl, rfl, rfl, rfl⟩
  | unread e =>
    cases e with
    | notJson _ _ | misshapen _ _ _ => exact ⟨_, rfl, rfl, rfl, rfl⟩
    | malformed f fs => exact absurd rfl (h f fs)

/-! ## 2. Errors -/

namespace Document

/-- A document is only refused for errors. -/
theorem errors_ne_nil_of_validate {d : Document} {s : Strictness} {r : Rejection}
    (h : d.validate s = .error r) : r.errors ≠ [] := by
  intro hnone
  rw [rejection_of_validate h] at hnone
  obtain ⟨c, hc⟩ := exists_validate_iff_errors.2 hnone
  rw [h] at hc
  cases hc

end Document

namespace Contract

theorem errors_ne_nil_of_ofDocument {ε : Type} {document : Except ε Document} {s : Strictness}
    {r : Rejection} (h : ofDocument document s = .error (.rejected r)) : r.errors ≠ [] := by
  cases document with
  | error e => cases h
  | ok d =>
    rw [ofDocument] at h
    split at h
    · rename_i r' hvalid
      cases h
      exact Document.errors_ne_nil_of_validate hvalid
    · cases h

end Contract

/-! ## 3. Statuses -/

namespace FileStatus

variable {ds : List Diagnostic}

theorem ofDiagnostics_eq_error_iff :
    ofDiagnostics ds = .error ↔ ∃ d ∈ ds, d.severity = .error := by
  unfold ofDiagnostics
  by_cases h : ds.any (·.severity = .error)
  · rw [if_pos h]
    simpa using h
  · rw [if_neg h]
    refine iff_of_false ?_ (by simpa using h)
    split <;> decide

theorem ofDiagnostics_of_warnings (h : ∀ d ∈ ds, d.severity = .warning) :
    ofDiagnostics ds = if ds = [] then .ok else .warning := by
  have hnone : ¬ ds.any (·.severity = .error) := by
    rw [List.any_eq_true]
    intro ⟨d, hd, herror⟩
    rw [h d hd] at herror
    revert herror
    decide
  rw [ofDiagnostics, if_neg hnone]
  simp only [List.isEmpty_iff]

end FileStatus

namespace FileReport

variable {files : FileSystem} {file base : Path} {s : Strictness}

theorem status_of_ok {c : Contract} (h : Contract.load files file s = .ok c) :
    (lint files file base s).status = if c.warnings = [] then .ok else .warning := by
  show FileStatus.ofDiagnostics (Diagnostic.ofLoad file (Contract.load files file s)) = _
  have hwarnings : ∀ d ∈ c.warnings.map (Diagnostic.ofFinding .warning file),
      d.severity = .warning := by
    rw [List.forall_mem_map]
    exact fun _ _ => rfl
  rw [h, Diagnostic.ofLoad, FileStatus.ofDiagnostics_of_warnings hwarnings]
  simp only [List.map_eq_nil_iff]

theorem status_of_error {e : LoadError FileError} (h : Contract.load files file s = .error e) :
    (lint files file base s).status = .error := by
  show FileStatus.ofDiagnostics (Diagnostic.ofLoad file (Contract.load files file s)) = _
  rw [h, FileStatus.ofDiagnostics_eq_error_iff]
  cases e with
  | rejected r =>
    -- The first error is told first.
    obtain ⟨f, fs, hr⟩ := List.exists_cons_of_ne_nil (Contract.errors_ne_nil_of_ofDocument h)
    refine ⟨Diagnostic.ofFinding .error file f, ?_, rfl⟩
    rw [Diagnostic.ofLoad, hr]
    exact List.mem_cons_self
  | unread e =>
    by_cases hmalformed : ∀ f fs, e ≠ .unread (.malformed f fs)
    · obtain ⟨d, hd, herror, -⟩ := Diagnostic.exists_ofFileError file hmalformed
      rw [Diagnostic.ofLoad, hd]
      exact ⟨d, List.mem_singleton_self d, herror⟩
    · simp only [not_forall, not_not] at hmalformed
      obtain ⟨f, fs, rfl⟩ := hmalformed
      exact ⟨Diagnostic.ofFinding .error file f, List.mem_cons_self, rfl⟩

/-- **Linting agrees with loading.**  The status of a file is an error exactly if it cannot be
loaded, and otherwise tells whether there are warnings.  The diagnostics are the warnings of a
contract, the errors and then the warnings of a document that was refused, or all malformed types;
any other failure is one error, with a code of its own for a wrong shape. -/
theorem lint_agrees_with_load (files : FileSystem) (file base : Path) (s : Strictness) :
    ((lint files file base s).status = .error ↔ ∃ e, Contract.load files file s = .error e) ∧
    ((lint files file base s).status = .warning ↔
      ∃ c, Contract.load files file s = .ok c ∧ c.warnings ≠ []) ∧
    ((lint files file base s).status = .ok ↔
      ∃ c, Contract.load files file s = .ok c ∧ c.warnings = []) ∧
    (∀ c, Contract.load files file s = .ok c →
      List.Forall₂ (Diagnostic.Tells .warning file) c.warnings
        (lint files file base s).diagnostics) ∧
    (∀ r, Contract.load files file s = .error (.rejected r) → ∃ errors warnings,
      (lint files file base s).diagnostics = errors ++ warnings ∧
      List.Forall₂ (Diagnostic.Tells .error file) r.errors errors ∧
      List.Forall₂ (Diagnostic.Tells .warning file) r.warnings warnings) ∧
    (∀ f fs, Contract.load files file s = .error (.unread (.unread (.malformed f fs))) →
      List.Forall₂ (Diagnostic.Tells .error file) (f :: fs)
        (lint files file base s).diagnostics) ∧
    ∀ e, Contract.load files file s = .error (.unread e) →
      (∀ f fs, e ≠ .unread (.malformed f fs)) →
      ∃ d, (lint files file base s).diagnostics = [d] ∧ d.severity = .error ∧
        d.code = (if e.isMisshapen then "P002" else "P001") ∧ d.file = file := by
  have hdiagnostics : (lint files file base s).diagnostics =
      Diagnostic.ofLoad file (Contract.load files file s) := rfl
  rw [hdiagnostics]
  cases hload : Contract.load files file s with
  | error e =>
    rw [status_of_error hload]
    refine ⟨by simp, by simp, by simp, nofun, ?_, ?_, ?_⟩
    · rintro r ⟨⟩
      exact ⟨_, _, rfl, Diagnostic.forall₂_tells _ _ _, Diagnostic.forall₂_tells _ _ _⟩
    · rintro f fs ⟨⟩
      exact Diagnostic.forall₂_tells .error file (f :: fs)
    · rintro e ⟨⟩ hmalformed
      exact Diagnostic.exists_ofFileError file hmalformed
  | ok c =>
    rw [status_of_ok hload]
    refine ⟨?_, ?_, ?_, ?_, nofun, nofun, nofun⟩
    · by_cases h : c.warnings = [] <;> simp [h]
    · by_cases h : c.warnings = [] <;> simp [h]
    · by_cases h : c.warnings = [] <;> simp [h]
    · rintro c ⟨⟩
      exact Diagnostic.forall₂_tells _ _ _

/-- A record with a field that leads nowhere. -/
def dangling : Json :=
  .object [("objects", .object [("Car", .object [("owner", .string "Person")])])]

/-- A record with a field that has no type. -/
def typeless : Json := .object [("objects", .object [("Car", .object [("owner", .null)])])]

/-- Four texts, a file that is no text, and one that cannot be read. -/
def drawer : FileSystem := ⟨.directory [
  ("chain.json", .file (utf8 Document.chainValue.text.toList)),
  ("dangling.json", .file (utf8 dangling.text.toList)),
  ("typeless.json", .file (utf8 typeless.text.toList)),
  ("flagged.json", .file (utf8 Document.flagged.text.toList)),
  ("noise.json", .file [255]),
  ("secret.json", .guarded "Permission denied (os error 13)")], []⟩

theorem load_of_find? (text : String) (h : files.find? file = some (.file (utf8 text.toList))) :
    Contract.load files file s =
      Contract.ofDocument ((Document.ofText text).mapError .unread) s := by
  rw [Contract.load, Document.load, h]
  simp only [FileTree.text?, ofUtf8?_utf8, String.ofList_toList]

theorem dangling_numberless : dangling.Numberless := by
  simp [dangling, Json.numberless_object_iff, Json.Numberless.string]

theorem typeless_numberless : typeless.Numberless := by
  simp [typeless, Json.numberless_object_iff, Json.Numberless.null]

theorem sameOutcome_text {v : Json} (hv : v.Numberless) (hdepth : v.depth ≤ Json.nestingLimit) :
    Document.SameOutcome (Document.ofText v.text) (Document.ofJson v) :=
  Document.sameOutcome_of_read ((Json.read_text_eq_ok_iff hv).2 ⟨hdepth, rfl⟩)

theorem load_chain : ∃ c, Contract.load drawer ⟨"chain.json"⟩ .strict = .ok c ∧ c.warnings = [] := by
  rw [load_of_find? Document.chainValue.text rfl, Document.ofText_chainValue]
  show ∃ c, Contract.ofDocument (Except.ok Document.chain) .strict = .ok c ∧ _
  cases hvalid : Document.chain.validate .strict with
  | error r =>
    have hok : (Document.chain.validate .strict).isOk = true := by decide +kernel
    rw [hvalid] at hok
    cases hok
  | ok c =>
    refine ⟨c, by simp [Contract.ofDocument, hvalid], ?_⟩
    rw [Document.warnings_of_validate hvalid]
    exact Strictness.warnings_of_ne_standard (by decide)

theorem load_dangling : Contract.load drawer ⟨"dangling.json"⟩ .standard = .error (.rejected
    ⟨[⟨⟨.declaration .record "Car", [.field "owner"]⟩, .unresolvedReference "Person"⟩],
      [⟨⟨.section .method, []⟩, .noMethods⟩]⟩) := by
  have htext : Document.ofText dangling.text = .ok ⟨[], [⟨"Car", [("owner", .named "Person")]⟩], []⟩ :=
    (Document.ofText_text_eq_ok_iff dangling_numberless).2
      ⟨by decide +kernel, by decide +kernel⟩
  rw [load_of_find? dangling.text rfl, htext]
  decide +kernel

theorem load_typeless : Contract.load drawer ⟨"typeless.json"⟩ .standard =
    .error (.unread (.unread (.malformed
      ⟨⟨.declaration .record "Car", [.field "owner"]⟩, .malformedType (.notAType .null)⟩ []))) := by
  have hvalue : Document.ofJson typeless = .error (.malformed
      ⟨⟨.declaration .record "Car", [.field "owner"]⟩, .malformedType (.notAType .null)⟩ []) := by
    decide +kernel
  have hsame := sameOutcome_text typeless_numberless (by decide +kernel)
  rw [hvalue] at hsame
  rw [load_of_find? typeless.text rfl]
  generalize Document.ofText typeless.text = outcome at hsame
  cases hsame with
  | malformed _ _ => rfl

theorem load_flagged : ∃ position, Contract.load drawer ⟨"flagged.json"⟩ .standard =
    .error (.unread (.unread (.misshapen ["enums", "Color", "RED"]
      (.wrongKind (.boolean true) .string) (some position)))) := by
  have hvalue : Document.ofJson Document.flagged = .error (.misshapen ["enums", "Color", "RED"]
      (.wrongKind (.boolean true) .string) none) := by decide +kernel
  have hsame := sameOutcome_text Document.flagged_numberless (by decide +kernel)
  rw [hvalue] at hsame
  rw [load_of_find? Document.flagged.text rfl]
  generalize Document.ofText Document.flagged.text = outcome at hsame
  cases hsame with
  | misshapen _ _ position => exact ⟨position, rfl⟩

theorem lint_agrees_with_load_drawer :
    (lint drawer ⟨"chain.json"⟩ ⟨"."⟩ .strict).status = .ok ∧
    (lint drawer ⟨"dangling.json"⟩ ⟨"."⟩ .standard).status = .error ∧
    (lint drawer ⟨"dangling.json"⟩ ⟨"."⟩ .standard).diagnostics.map (·.code) = ["E004", "W005"] ∧
    (lint drawer ⟨"typeless.json"⟩ ⟨"."⟩ .standard).diagnostics.map (·.code) = ["E001"] ∧
    (lint drawer ⟨"flagged.json"⟩ ⟨"."⟩ .standard).diagnostics.map (·.code) = ["P002"] ∧
    (lint drawer ⟨"noise.json"⟩ ⟨"."⟩ .standard).diagnostics.map (·.code) = ["P001"] ∧
    (lint drawer ⟨"secret.json"⟩ ⟨"."⟩ .standard).diagnostics.map (·.code) = ["P001"] := by
  obtain ⟨-, -, hok, -⟩ := lint_agrees_with_load drawer ⟨"chain.json"⟩ ⟨"."⟩ .strict
  obtain ⟨herror, -, -, -, hrejected, -⟩ :=
    lint_agrees_with_load drawer ⟨"dangling.json"⟩ ⟨"."⟩ .standard
  obtain ⟨-, -, -, -, -, hmalformed, -⟩ :=
    lint_agrees_with_load drawer ⟨"typeless.json"⟩ ⟨"."⟩ .standard
  obtain ⟨-, -, -, -, -, -, hmisshapen⟩ :=
    lint_agrees_with_load drawer ⟨"flagged.json"⟩ ⟨"."⟩ .standard
  obtain ⟨-, -, -, -, -, -, hnoise⟩ :=
    lint_agrees_with_load drawer ⟨"noise.json"⟩ ⟨"."⟩ .standard
  obtain ⟨-, -, -, -, -, -, hsecret⟩ :=
    lint_agrees_with_load drawer ⟨"secret.json"⟩ ⟨"."⟩ .standard
  have hcode {severity : Severity} {file : Path} {fs : List Finding} {ds : List Diagnostic}
      (h : List.Forall₂ (Diagnostic.Tells severity file) fs ds) :
      ds.map (·.code) = fs.map (·.defect.code) :=
    (map_eq_of_forall₂ h fun _ _ htells => htells.code.symm).symm
  refine ⟨hok.2 load_chain, herror.2 ⟨_, load_dangling⟩, ?_, ?_, ?_, ?_, ?_⟩
  · obtain ⟨errors, warnings, hall, herrors, hwarnings⟩ := hrejected _ load_dangling
    rw [hall, List.map_append, hcode herrors, hcode hwarnings]
    rfl
  · exact hcode (hmalformed _ _ load_typeless)
  · obtain ⟨position, hload⟩ := load_flagged
    obtain ⟨d, hall, -, hd, -⟩ := hmisshapen _ hload nofun
    rw [hall, List.map_singleton, hd]
    rfl
  · have hload : Contract.load drawer ⟨"noise.json"⟩ .standard =
        .error (.unread (.unreadable ⟨"noise.json"⟩ "stream did not contain valid UTF-8")) := by
      decide +kernel
    obtain ⟨d, hall, -, hd, -⟩ := hnoise _ hload nofun
    rw [hall, List.map_singleton, hd]
    rfl
  · have hload : Contract.load drawer ⟨"secret.json"⟩ .standard =
        .error (.unread (.unreadable ⟨"secret.json"⟩ "Permission denied (os error 13)")) := by
      decide +kernel
    obtain ⟨d, hall, -, hd, -⟩ := hsecret _ hload nofun
    rw [hall, List.map_singleton, hd]
    rfl

end FileReport
end CallContract
