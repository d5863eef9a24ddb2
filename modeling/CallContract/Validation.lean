import CallContract.Contract
import CallContract.Document.FieldTypes
import CallContract.Document.Holding
import CallContract.Document.Members
import CallContract.Document.Names
import CallContract.Document.Reader

/-!
# Validation

All findings about a document are collected in one list. The level of strictness decides which of
them are errors and which are warnings; without errors the document becomes a contract.
-/

namespace CallContract

/-- What becomes of advice. -/
inductive Strictness where
  | lenient
  | standard
  | strict
  deriving DecidableEq, Repr, Inhabited

namespace Strictness

def ofName? (s : String) : Option Strictness :=
  if s = "lenient" then some .lenient
  else if s = "standard" then some .standard
  else if s = "strict" then some .strict
  else none

/-- What a finding counts at a level, if it counts at all. -/
def severity? (s : Strictness) (f : Finding) : Option Severity :=
  if f.isAdvisory then
    match s with
    | .lenient => none
    | .standard => some .warning
    | .strict => some .error
  else some .error

def errors (s : Strictness) (findings : List Finding) : List Finding :=
  findings.filter fun f => s.severity? f = some .error

def warnings (s : Strictness) (findings : List Finding) : List Finding :=
  findings.filter fun f => s.severity? f = some .warning

end Strictness

/-- The findings that keep a document from being a contract, and the warnings beside them. -/
structure Rejection where
  errors : List Finding
  warnings : List Finding
  deriving DecidableEq, Repr

namespace Rejection

def findings (r : Rejection) : List Finding := r.errors ++ r.warnings

def message (r : Rejection) : String :=
  "validation failed with " ++ toString r.errors.length ++ " error(s)"

end Rejection

namespace Document

/-- Everything there is to say about a document: its names, its enumerations, its records, its
methods, and records that hold themselves. -/
def findings (d : Document) : List Finding :=
  d.scopeFindings ++ d.enumerations.flatMap Enumeration.findings ++
    d.records.flatMap (Record.findings d.scope) ++ d.methodsFindings ++
    d.methods.flatMap (Method.findings d.scope) ++ d.cycleFindings

/-- The contract of a document that has no errors at the given level. -/
def validate (d : Document) (s : Strictness) : Except Rejection Contract :=
  let errors := s.errors d.findings
  let warnings := s.warnings d.findings
  match d.records.mapM (Record.resolve? d.scope), d.methods.mapM (Method.resolve? d.scope) with
  | some records, some methods =>
    if errors.isEmpty then .ok (.assemble d d.scope records methods warnings)
    else .error ⟨errors, warnings⟩
  | _, _ => .error ⟨errors, warnings⟩

end Document

/-- Why there is no contract: the document could not be read, or it has errors. -/
inductive LoadError (ε : Type) where
  | unread (error : ε)
  | rejected (rejection : Rejection)
  deriving DecidableEq, Repr

namespace Contract

/-- Validates a document that may not have been read. -/
def ofDocument {ε : Type} (document : Except ε Document) (s : Strictness) :
    Except (LoadError ε) Contract :=
  match document with
  | .error e => .error (.unread e)
  | .ok d =>
    match d.validate s with
    | .error r => .error (.rejected r)
    | .ok c => .ok c

def ofText (text : String) (s : Strictness) : Except (LoadError DocumentError) Contract :=
  ofDocument (Document.ofText text) s

end Contract
end CallContract
