import CallContract.Finding
import CallContract.Scope

/-!
# Contracts

A contract is a validated document: every name in a type has been replaced by the place of its
declaration, and no two declarations share a name.
-/

namespace CallContract

/-- A document with its scope and its resolved records and methods, and the advice about it. -/
structure Contract where
  document : Document
  scope : Scope
  records : List (Record DeclId)
  methods : List (Method DeclId)
  warnings : List Finding
  deriving DecidableEq, Repr

/-- An enumeration or a record. -/
inductive Declaration where
  | enumeration (e : Enumeration)
  | record (r : Record DeclId)
  deriving DecidableEq, Repr

namespace Contract

/-- Puts a contract together. Methods are kept under their names, so that of methods with one name
the last one is kept, in the place of the first. -/
def assemble (document : Document) (scope : Scope) (records : List (Record DeclId))
    (methods : List (Method DeclId)) (warnings : List Finding) : Contract :=
  ⟨document, scope, records, (Named.merge (methods.map fun m => (m.name, m))).map (·.2), warnings⟩

def enumeration? (c : Contract) (i : Nat) : Option Enumeration := c.document.enumerations[i]?

def record? (c : Contract) (i : Nat) : Option (Record DeclId) := c.records[i]?

def nameOf (c : Contract) : DeclId → String
  | .enumeration i => (c.enumeration? i).elim "" (·.name)
  | .record i => (c.record? i).elim "" (·.name)

def find? (c : Contract) (name : String) : Option Declaration :=
  match c.scope.find? name with
  | some (.enumeration i) => (c.enumeration? i).map .enumeration
  | some (.record i) => (c.record? i).map .record
  | none => none

def findEnumeration? (c : Contract) (name : String) : Option Enumeration :=
  match c.find? name with
  | some (.enumeration e) => some e
  | _ => none

def findRecord? (c : Contract) (name : String) : Option (Record DeclId) :=
  match c.find? name with
  | some (.record r) => some r
  | _ => none

def method? (c : Contract) (name : String) : Option (Method DeclId) :=
  c.methods.find? (·.name = name)

/-- The type of a field as it was written, in the record in a place. -/
def writtenFieldType? (c : Contract) (i : Nat) (field : String) : Option (Ty String) :=
  c.document.records[i]?.bind (·.fields.lookup field)

/-- The type of a record's field as it was written. -/
def writtenType? (c : Contract) (record field : String) : Option (Ty String) :=
  match c.scope.find? record with
  | some (.record i) => c.writtenFieldType? i field
  | _ => none

end Contract
end CallContract
