import CallContract.Files.Load

/-!
# Linting

A report on the documents under a path: for each file its diagnostics and its status, and the counts
over all of them. Files are reported in the order of their paths, whatever the order of the entries
of directories.
-/

namespace CallContract

structure Diagnostic where
  severity : Severity
  code : String
  file : Path
  /-- The dotted path of the finding in the document. -/
  place : String
  message : String
  deriving DecidableEq, Repr

inductive FileStatus where
  | ok
  | error
  | warning
  deriving DecidableEq, Repr

def FileStatus.word : FileStatus → String
  | .ok => "ok"
  | .error => "error"
  | .warning => "warning"

/-- All there is to say about a file. -/
structure FileReport where
  file : Path
  status : FileStatus
  diagnostics : List Diagnostic
  deriving DecidableEq, Repr

/-- The reports on all files under a path, and their counts. -/
structure LintReport where
  path : Path
  checked : Nat
  passed : Nat
  failed : Nat
  errors : Nat
  warnings : Nat
  files : List FileReport
  deriving DecidableEq, Repr

namespace Diagnostic

def ofFinding (severity : Severity) (file : Path) (f : Finding) : Diagnostic :=
  ⟨severity, f.defect.code, file, f.location.text, f.defect.message⟩

def unreadableCode : String := "P001"

def misshapenCode : String := "P002"

def ofDocumentError (file : Path) : DocumentError → List Diagnostic
  | .malformed first others => (first :: others).map (ofFinding .error file)
  | .misshapen path m position =>
    [⟨.error, misshapenCode, file, DocumentError.pathText path, DocumentError.detail m position⟩]
  | .notJson problem position =>
    [⟨.error, unreadableCode, file, "",
      "syntax error: " ++ DocumentError.notJsonText problem position⟩]

def ofFileError (file : Path) : FileError → List Diagnostic
  | .unread e => ofDocumentError file e
  | e => [⟨.error, unreadableCode, file, "", e.message⟩]

def ofLoad (file : Path) : Except (LoadError FileError) Contract → List Diagnostic
  | .ok c => c.warnings.map (ofFinding .warning file)
  | .error (.rejected r) =>
    r.errors.map (ofFinding .error file) ++ r.warnings.map (ofFinding .warning file)
  | .error (.unread e) => ofFileError file e

end Diagnostic

def FileStatus.ofDiagnostics (ds : List Diagnostic) : FileStatus :=
  if ds.any (·.severity = .error) then .error else if ds.isEmpty then .ok else .warning

/-- Lints one file. It is named from `base` on where that is possible. -/
def FileReport.lint (files : FileSystem) (file base : Path) (s : Strictness) : FileReport :=
  let ds := Diagnostic.ofLoad file (Contract.load files file s)
  ⟨(file.relativeTo? base).getD file, .ofDiagnostics ds, ds⟩

/-- The documents under a path, in order: the file itself, or all in the directory. -/
def FileSystem.lintable (files : FileSystem) (path : Path) : List Path :=
  match files.find? path with
  | some t => if t.isDirectory then (t.documents path).mergeSort Path.le else t.documents path
  | none => []

namespace LintReport

def ofFiles (path : Path) (files : List FileReport) : LintReport :=
  let failed := files.countP (·.status = .error)
  let count (s : Severity) := (files.flatMap (·.diagnostics)).countP (·.severity = s)
  ⟨path, files.length, files.length - failed, failed, count .error, count .warning, files⟩

def lint (files : FileSystem) (path : Path) (s : Strictness) : LintReport :=
  ofFiles path ((files.lintable path).map fun file => FileReport.lint files file path s)

def isOk (r : LintReport) : Bool := r.errors = 0

end LintReport
end CallContract
