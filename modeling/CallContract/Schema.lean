import CallContract.Json

/-!
# JSON Schemas

The part of JSON Schema that contracts need, with the JSON form of each schema. A definition is what
a reference may lead to: a choice of strings or an object, never another reference.
-/

namespace CallContract

inductive BasicType where
  | null
  | boolean
  | integer
  | number
  | string
  | array
  | object
  deriving DecidableEq, Repr

namespace BasicType

def name : BasicType → String
  | .null => "null"
  | .boolean => "boolean"
  | .integer => "integer"
  | .number => "number"
  | .string => "string"
  | .array => "array"
  | .object => "object"

/-- The type of a name. -/
def ofName? (s : String) : Option BasicType :=
  if s = "null" then some .null
  else if s = "boolean" then some .boolean
  else if s = "integer" then some .integer
  else if s = "number" then some .number
  else if s = "string" then some .string
  else if s = "array" then some .array
  else if s = "object" then some .object
  else none

theorem ofName?_name (t : BasicType) : ofName? t.name = some t := by
  cases t <;> decide

/-- Is the value of this type? A number without a fractional part is an integer. -/
def accepts : BasicType → Json → Bool
  | .null, .null => true
  | .boolean, .boolean _ => true
  | .integer, .number n => n.isWhole
  | .number, .number _ => true
  | .string, .string _ => true
  | .array, .array _ => true
  | .object, .object _ => true
  | _, _ => false

end BasicType

inductive Format where
  | uuid
  | date
  | dateTime
  deriving DecidableEq, Repr

namespace Format

def name : Format → String
  | .uuid => "uuid"
  | .date => "date"
  | .dateTime => "date-time"

/-- The format of a name, if it is one of these. -/
def ofName? (s : String) : Option Format :=
  if s = "uuid" then some .uuid
  else if s = "date" then some .date
  else if s = "date-time" then some .dateTime
  else none

theorem ofName?_name (f : Format) : ofName? f.name = some f := by
  cases f <;> decide

end Format

/-- A schema. A `closed` object admits no names but those of its properties. -/
inductive Schema where
  | basic (type : BasicType)
  | formatted (format : Format)
  | reference (fragment : String)
  | anyOf (alternatives : List Schema)
  | array (items : Schema)
  | object (properties : List (String × Schema)) (required : List String) (closed : Bool)
  deriving Repr, Inhabited

/-- What a name may be defined as. -/
inductive Definition where
  | strings (values : List String)
  | object (properties : Named Schema) (required : List String) (closed : Bool)
  deriving Repr, Inhabited

namespace Schema

def typeMember (t : BasicType) : String × Json := ("type", .string t.name)

/-- The members of an object schema, given the forms of its properties. -/
def objectMembers (properties : Named Json) (required : List String) (closed : Bool) : Named Json :=
  [typeMember .object, ("properties", .object properties),
    ("required", .array (required.map .string))] ++
    if closed then [("additionalProperties", .boolean false)] else []

mutual

def toJson : Schema → Json
  | .basic t => .object [typeMember t]
  | .formatted f => .object [typeMember .string, ("format", .string f.name)]
  | .reference fragment => .object [("$ref", .string fragment)]
  | .anyOf ss => .object [("anyOf", .array (toJsonList ss))]
  | .array s => .object [typeMember .array, ("items", s.toJson)]
  | .object ps required closed => .object (objectMembers (toJsonProperties ps) required closed)

def toJsonList : List Schema → List Json
  | [] => []
  | s :: rest => s.toJson :: toJsonList rest

def toJsonProperties : Named Schema → Named Json
  | [] => []
  | (name, s) :: rest => (name, s.toJson) :: toJsonProperties rest

end

end Schema

def Definition.toJson : Definition → Json
  | .strings values =>
    .object [Schema.typeMember .string, ("enum", .array (values.map .string))]
  | .object ps required closed =>
    .object (Schema.objectMembers (Schema.toJsonProperties ps) required closed)

/-- A whole schema: an object with a title, and the definitions that references lead to. -/
structure RootSchema where
  title : String
  properties : Named Schema
  required : List String
  closed : Bool
  definitions : Named Definition
  deriving Repr, Inhabited

namespace RootSchema

/-- The dialect that schemas are written in. -/
def dialect : String := "https://json-schema.org/draft/2020-12/schema"

def toJson (d : RootSchema) : Json :=
  .object <|
    [("$schema", .string dialect), ("title", .string d.title)] ++
      Schema.objectMembers (Schema.toJsonProperties d.properties) d.required d.closed ++
        [("$defs", .object (d.definitions.mapValues Definition.toJson))]

end RootSchema
end CallContract
