import CallContract.Json.Printer
import CallContract.Schema
import CallContract.Schema.Fragment

/-!
# Keywords

A schema in its JSON form is an object whose members are keywords with arguments. Here is which
arguments the keywords take, where schemas stand in a schema, and what keeps a value from being a
schema that others can be checked against. Members under other names say nothing about values. Of
the dialect this is the part that exported schemas are written in: schemas are objects, and there
are no rules for additional properties but whether they are admitted.
-/

namespace CallContract

/-- The keywords that say something about values or hold schemas. -/
inductive Keyword where
  | type
  | format
  | enum
  | reference
  | anyOf
  | items
  | properties
  | required
  | additionalProperties
  | definitions
  deriving DecidableEq, Repr

/-- Why values cannot be checked against a schema. -/
inductive SchemaFault where
  | notObject (value : Json)
  /-- A choice has to offer something. -/
  | emptyChoice
  | badArgument (keyword : Keyword) (argument : Json)
  /-- The fragment of a reference leads to no definition. -/
  | unresolved (fragment : String)
  deriving DecidableEq, Repr

namespace Keyword

def name : Keyword → String
  | .type => "type"
  | .format => "format"
  | .enum => "enum"
  | .reference => "$ref"
  | .anyOf => "anyOf"
  | .items => "items"
  | .properties => "properties"
  | .required => "required"
  | .additionalProperties => "additionalProperties"
  | .definitions => Fragment.definitionsKey

/-- The keyword of a name. -/
def ofName? (s : String) : Option Keyword :=
  if s = "type" then some .type
  else if s = "format" then some .format
  else if s = "enum" then some .enum
  else if s = "$ref" then some .reference
  else if s = "anyOf" then some .anyOf
  else if s = "items" then some .items
  else if s = "properties" then some .properties
  else if s = "required" then some .required
  else if s = "additionalProperties" then some .additionalProperties
  else if s = Fragment.definitionsKey then some .definitions
  else none

theorem ofName?_name (k : Keyword) : ofName? k.name = some k := by
  cases k <;> decide

/-- Is the value an argument of the keyword? Schemas in it are judged by themselves. -/
def takes : Keyword → Json → Bool
  | .type, .string s => (BasicType.ofName? s).isSome
  | .format, .string _ => true
  | .enum, .array _ => true
  -- No name may be required twice.
  | .required, .array vs => vs.all (·.kind = .string) && vs.Nodup
  | .reference, .string _ => true
  | .anyOf, .array vs => !vs.isEmpty
  | .items, _ => true
  | .properties, .object _ | .definitions, .object _ => true
  | .additionalProperties, .boolean _ => true
  | _, _ => false

/-- What is wrong with an argument. -/
def fault? (k : Keyword) (argument : Json) : Option SchemaFault :=
  if k.takes argument then none
  else if k = .anyOf ∧ argument = .array [] then some .emptyChoice
  else some (.badArgument k argument)

end Keyword

def SchemaFault.message : SchemaFault → String
  | .notObject v => v.text ++ " is not of type \"object\""
  | .emptyChoice => "[] has less than 1 item"
  | .badArgument k v => v.text ++ " is no argument of '" ++ k.name ++ "'"
  | .unresolved fragment => "Pointer '" ++ fragment ++ "' does not exist"

namespace Json

def string? : Json → Option String
  | .string s => some s
  | _ => none

/-- The schemas under names that a keyword has among the members of a schema. -/
def table (members : Named Json) (k : Keyword) : Named Json :=
  match members.lookup k.name with
  | some (.object entries) => entries
  | _ => []

/-- The definitions that a schema keeps. -/
def definitions : Json → Named Json
  | .object members => table members .definitions
  | _ => []

mutual

/-- The schema and all schemas in it, outer ones first. -/
def schemas : Json → List Json
  | .object members => .object members :: memberSchemas members
  | v => [v]

def memberSchemas : Named Json → List Json
  | [] => []
  | (name, v) :: rest =>
    (match Keyword.ofName? name with
      | some .properties | some .definitions => v.tableSchemas
      | some .items => v.schemas
      | some .anyOf => v.choiceSchemas
      | _ => []) ++ memberSchemas rest

/-- The schemas under names. -/
def tableSchemas : Json → List Json
  | .object members => valueSchemas members
  | _ => []

def valueSchemas : Named Json → List Json
  | [] => []
  | (_, v) :: rest => v.schemas ++ valueSchemas rest

/-- The schemas of a choice. -/
def choiceSchemas : Json → List Json
  | .array items => itemSchemas items
  | _ => []

def itemSchemas : List Json → List Json
  | [] => []
  | v :: rest => v.schemas ++ itemSchemas rest

end

/-- The fragment of the reference that a schema itself is. -/
def reference? : Json → Option String
  | .object members => (members.lookup Keyword.reference.name).bind string?
  | _ => none

/-- The fragments of all references in a schema, in order. -/
def references (schema : Json) : List String := schema.schemas.filterMap reference?

/-- What is wrong with a member of a schema. -/
def memberFault? (member : String × Json) : Option SchemaFault :=
  (Keyword.ofName? member.1).bind fun k => k.fault? member.2

/-- What is wrong with a schema itself, apart from the schemas in it. -/
def ownFault? : Json → Option SchemaFault
  | .object members => members.findSome? memberFault?
  | v => some (.notObject v)

/-- The first reference that leads to none of the definitions that the schema keeps. -/
def unresolved? (schema : Json) : Option String :=
  schema.references.find? fun g => (Fragment.find? schema.definitions g).isNone

/-- Why values cannot be checked against a schema. References are followed last. -/
def fault? (schema : Json) : Option SchemaFault :=
  (schema.schemas.findSome? ownFault?).or (schema.unresolved?.map .unresolved)

end Json
end CallContract
