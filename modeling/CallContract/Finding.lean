import CallContract.Document
import CallContract.Ty.Malformation

/-!
# Findings

A finding is a defect and the place in the document where it is. Some defects are errors at every
level of strictness; the others are advice, which a lenient validation leaves out and a strict one
counts as errors.
-/

namespace CallContract

/-- What a location starts from. -/
inductive Site where
  /-- A type that is read on its own. -/
  | expression
  /-- A whole section of a document. -/
  | section (kind : Kind)
  /-- A declaration. -/
  | declaration (kind : Kind) (name : String)
  deriving DecidableEq, Repr

def Site.text : Site → String
  | .expression => "$"
  | .section kind => kind.section
  | .declaration kind name => kind.section ++ "." ++ name

/-- A place in a document: the site and the way down from it. -/
structure Location where
  site : Site
  route : Route
  deriving DecidableEq, Repr

def Location.text (l : Location) : String := l.site.text ++ l.route.text

/-- How names of declarations are to be written. -/
inductive Convention where
  | camelCase
  | snakeCase
  deriving DecidableEq, Repr

def Convention.text : Convention → String
  | .camelCase => "CamelCase"
  | .snakeCase => "lowercase snake_case"

inductive Defect where
  | malformedType (malformation : Malformation)
  | duplicateDeclaration (name : String) (existing : Kind)
  | duplicateKey (key : String)
  | unresolvedReference (name : String)
  | unrepresentableCycle (chain : List String)
  | emptyEnumValue
  | reservedName (name : String)
  | namingConvention (name : String) (expected : Convention)
  | duplicateEnumValue (value : String) (first : String)
  | nameCollision (name : String)
  | shadowsScalar (name : String)
  | noMethods
  deriving DecidableEq, Repr

inductive Severity where
  | error
  | warning
  deriving DecidableEq, Repr

def Severity.word : Severity → String
  | .error => "error"
  | .warning => "warning"

namespace Defect

/-- Is the defect advice only? -/
def isAdvisory : Defect → Bool
  | .malformedType _ | .duplicateDeclaration _ _ | .duplicateKey _ | .unresolvedReference _
  | .unrepresentableCycle _ | .emptyEnumValue | .reservedName _ => false
  | .namingConvention _ _ | .duplicateEnumValue _ _ | .nameCollision _ | .shadowsScalar _
  | .noMethods => true

/-- The code of a defect, `E` for errors and `W` for advice. -/
def code : Defect → String
  | .malformedType _ => "E001"
  | .duplicateDeclaration _ _ => "E002"
  | .duplicateKey _ => "E003"
  | .unresolvedReference _ => "E004"
  | .unrepresentableCycle _ => "E005"
  | .emptyEnumValue => "E006"
  | .reservedName _ => "E007"
  | .namingConvention _ _ => "W001"
  | .duplicateEnumValue _ _ => "W002"
  | .nameCollision _ => "W003"
  | .shadowsScalar _ => "W004"
  | .noMethods => "W005"

def named (name : String) : String := "'" ++ name ++ "'"

def message : Defect → String
  | .malformedType m => "malformed type: " ++ m.message
  | .duplicateDeclaration name existing =>
    named name ++ " is already declared as " ++ existing.word
  | .duplicateKey key => "duplicate key " ++ named key
  | .unresolvedReference name => named name ++ " is not a primitive, enum or object"
  | .unrepresentableCycle chain => "unrepresentable cycle " ++ " -> ".intercalate chain
  | .emptyEnumValue => "enum value must be a non-empty string"
  | .reservedName name => named name ++ " is a primitive type name and cannot be declared"
  | .namingConvention name expected => named name ++ " should be " ++ expected.text
  | .duplicateEnumValue value first =>
    "value \"" ++ value ++ "\" is already used by member " ++ named first
  | .nameCollision name => "method " ++ named name ++ " shares its name with an enum or object"
  | .shadowsScalar name => "field " ++ named name ++ " shadows a primitive type name"
  | .noMethods => "document declares no methods"

end Defect

/-- A defect and where it is. -/
structure Finding where
  location : Location
  defect : Defect
  deriving DecidableEq, Repr

namespace Finding

def isAdvisory (f : Finding) : Bool := f.defect.isAdvisory

/-- What the finding counts by itself, before any strictness. -/
def severity (f : Finding) : Severity := if f.isAdvisory then .warning else .error

def text (f : Finding) : String := f.location.text ++ ": " ++ f.defect.message

/-- The finding for a misfit in a type that lies at the end of a route from a site. -/
def ofMisfit (site : Site) (route : Route) (m : Misfit) : Finding :=
  ⟨⟨site, route ++ m.route⟩, .malformedType m.what⟩

/-- The finding for a defect that lies at the end of a route from a site. -/
def ofDefect (site : Site) (d : Routed Defect) : Finding := ⟨⟨site, d.route⟩, d.what⟩

end Finding
end CallContract
