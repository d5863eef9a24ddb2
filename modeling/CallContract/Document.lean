import CallContract.Ty

/-!
# Documents

A document declares enumerations, records and methods. It is kept as it was written: names may be
repeated or lead nowhere until the document is validated.
-/

namespace CallContract

inductive Kind where
  | enumeration
  | record
  | method
  deriving DecidableEq, Repr

def Kind.word : Kind → String
  | .enumeration => "enum"
  | .record => "object"
  | .method => "method"

/-- The section of a document that holds the declarations of a kind. -/
def Kind.section : Kind → String
  | .enumeration => "enums"
  | .record => "objects"
  | .method => "methods"

/-- A named choice of strings; each member gives a name to a string. -/
structure Enumeration where
  name : String
  members : Named String
  deriving DecidableEq, Repr, Inhabited

/-- A named object type. -/
structure Record (ν : Type) where
  name : String
  fields : Fields ν
  deriving DecidableEq, Repr, Inhabited

inductive Direction where
  | request
  | response
  deriving DecidableEq, Repr

def Direction.key : Direction → String
  | .request => "request"
  | .response => "response"

def Direction.ofKey? (s : String) : Option Direction :=
  if s = "request" then some .request else if s = "response" then some .response else none

/-- What is sent and what comes back. -/
structure Method (ν : Type) where
  name : String
  request : Fields ν
  response : Fields ν
  deriving DecidableEq, Repr, Inhabited

def Method.fields {ν : Type} (m : Method ν) : Direction → Fields ν
  | .request => m.request
  | .response => m.response

/-- The strings of an enumeration in order, each once. -/
def Enumeration.values (e : Enumeration) : List String := (e.members.map (·.2)).eraseDups

/-- Declarations in order of writing. -/
structure Document where
  enumerations : List Enumeration
  records : List (Record String)
  methods : List (Method String)
  deriving DecidableEq, Repr, Inhabited

/-! ## Canonical form -/

/-- The members of an enumeration as an object of strings. -/
def Enumeration.toJson (e : Enumeration) : Json :=
  .object (Named.merge (e.members.mapValues .string))

def Method.toJson (m : Method String) : Json :=
  .object [(Direction.request.key, m.request.toJson), (Direction.response.key, m.response.toJson)]

namespace Document

def empty : Document := ⟨[], [], []⟩

/-- The canonical JSON form. Of declarations with one name the last one is kept, in the place of the
first. -/
def toJson (d : Document) : Json :=
  .object [
    (Kind.enumeration.section,
      .object (Named.merge (d.enumerations.map fun e => (e.name, e.toJson)))),
    (Kind.record.section, .object (Named.merge (d.records.map fun r => (r.name, r.fields.toJson)))),
    (Kind.method.section, .object (Named.merge (d.methods.map fun m => (m.name, m.toJson))))]

end Document
end CallContract
