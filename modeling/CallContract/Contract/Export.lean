import CallContract.Contract
import CallContract.Schema
import CallContract.Schema.Fragment

/-!
# Exporting contracts

One direction of a method as a schema. Every field is required; a nullable one has to be there and
may be null. Enumerations and records become definitions under their names, and a type that names
one becomes a reference. Properties and definitions are kept under their names, so that of those
with one name the last one is kept, in the place of the first.
-/

namespace CallContract

def Scalar.schema : Scalar → Schema
  | .integer => .basic .integer
  | .float => .basic .number
  | .boolean => .basic .boolean
  | .string => .basic .string
  | .uuid => .formatted .uuid
  | .date => .formatted .date
  | .datetime => .formatted .dateTime

def Enumeration.definition (e : Enumeration) : Definition := .strings e.values

namespace Contract

mutual

def schemaOf (c : Contract) (closed : Bool) : Ty DeclId → Schema
  | .scalar s => s.schema
  | .named id => .reference (Fragment.ofName (c.nameOf id))
  | .nullable t => .anyOf [c.schemaOf closed t, .basic .null]
  | .array t => .array (c.schemaOf closed t)
  | .union ts => .anyOf (c.schemasOf closed ts)
  | .object fs => .object (Named.merge (c.propertiesOf closed fs)) (Named.names fs) closed

def schemasOf (c : Contract) (closed : Bool) : List (Ty DeclId) → List Schema
  | [] => []
  | t :: rest => c.schemaOf closed t :: c.schemasOf closed rest

/-- The schemas of fields, repeated names included. -/
def propertiesOf (c : Contract) (closed : Bool) : Fields DeclId → Named Schema
  | [] => []
  | (name, t) :: rest => (name, c.schemaOf closed t) :: c.propertiesOf closed rest

end

def recordDefinition (c : Contract) (closed : Bool) (r : Record DeclId) : Definition :=
  .object (c.propertiesOf closed r.fields).merge r.fields.names closed

/-- The definitions of all enumerations and then all records. -/
def definitions (c : Contract) (closed : Bool) : Named Definition :=
  Named.merge (c.document.enumerations.map (fun e => (e.name, e.definition)) ++
    c.records.map fun r => (r.name, c.recordDefinition closed r))

/-- One direction of a method as a schema. -/
def exportMethod (c : Contract) (m : Method DeclId) (direction : Direction) (closed : Bool) :
    RootSchema where
  title := m.name ++ "." ++ direction.key
  properties := (c.propertiesOf closed (m.fields direction)).merge
  required := (m.fields direction).names
  closed := closed
  definitions := c.definitions closed

/-- One direction of the method of a name as a schema. -/
def export? (c : Contract) (method : String) (direction : Direction) (closed : Bool) :
    Option RootSchema :=
  (c.method? method).map fun m => c.exportMethod m direction closed

end Contract
end CallContract
