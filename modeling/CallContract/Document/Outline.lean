import CallContract.Document
import CallContract.Json.Printer
import CallContract.Json.Reading
import CallContract.Text.Quoted

/-!
# Outlines

The outline of a document has the shape of a document but leaves the types uninterpreted. It is made
from a reading, from left to right: whatever comes first, a fault in the text or a wrong shape, is
what is told. A section may be absent or null; a method needs both directions.
-/

namespace CallContract

/-- A document whose types are still JSON values. -/
structure Outline where
  enumerations : Named (Named String)
  records : Named (Named Json)
  methods : Named (Named Json × Named Json)
  deriving DecidableEq, Repr

namespace Outline

/-- What was found where something else has to be. -/
inductive Found where
  | null
  | boolean (value : Bool)
  | number (value : Number)
  | string (value : String)
  | array
  | object
  deriving DecidableEq, Repr

def Found.text : Found → String
  | .null => "null"
  | .boolean b => "boolean `" ++ toString b ++ "`"
  | .number (.integer n) => "integer `" ++ toString n ++ "`"
  | .number (.double x) => "floating point `" ++ x.text ++ "`"
  | .string s => "string " ++ Text.quoted s
  | .array => "sequence"
  | .object => "map"

/-- What has to be in a place. -/
inductive Wanted where
  | object
  | string
  deriving DecidableEq, Repr

def Wanted.text : Wanted → String
  | .object => "an object"
  | .string => "a string"

/-- Ways in which a value does not have the shape of a document. -/
inductive Misshape where
  | wrongKind (found : Found) (wanted : Wanted)
  | unknownField (name : String) (known : List String)
  | missingField (name : String)
  | repeatedField (name : String)
  deriving DecidableEq, Repr

def ticked (name : String) : String := "`" ++ name ++ "`"

def Misshape.message : Misshape → String
  | .wrongKind found wanted => "invalid type: " ++ found.text ++ ", expected " ++ wanted.text
  | .unknownField name known =>
    "unknown field " ++ ticked name ++ ", expected " ++
      match known with
      | [a, b] => ticked a ++ " or " ++ ticked b
      | _ => "one of " ++ ", ".intercalate (known.map ticked)
  | .missingField name => "missing field " ++ ticked name
  | .repeatedField name => "duplicate field " ++ ticked name

/-- Why there is no outline: the reading is broken, or a value on the path has a wrong shape. -/
inductive Failure (μ φ : Type) where
  | broken (fault : φ)
  | misshapen (path : List String) (misshape : Misshape) (mark : μ)

variable {μ φ α : Type}

/-- The result of looking for a shape. -/
abbrev Result (μ φ α : Type) := Except (Failure μ φ) α

/-- A fault in the text as a failure. -/
def orBroken : Except φ α → Result μ φ α
  | .ok a => .ok a
  | .error f => .error (.broken f)

/-- Refuses a reading that is not what has to be in its place. -/
def refuse (path : List String) (wanted : Wanted) : Json.Reading μ φ → Result μ φ α
  | .null stop => .error (.misshapen path (.wrongKind .null wanted) stop)
  | .boolean b stop => .error (.misshapen path (.wrongKind (.boolean b) wanted) stop)
  | .number n stop => .error (.misshapen path (.wrongKind (.number n) wanted) stop)
  | .string s stop => .error (.misshapen path (.wrongKind (.string s) wanted) stop)
  | .array start _ _ => .error (.misshapen path (.wrongKind .array wanted) start)
  | .object start _ _ => .error (.misshapen path (.wrongKind .object wanted) start)
  | .broken f => .error (.broken f)

/-- Reads the members of an object one after the other. -/
def eachMember (decode : List String → Json.Reading μ φ → Result μ φ α) (path : List String) :
    List (String × μ × Json.Reading μ φ) → Result μ φ (Named α)
  | [] => .ok []
  | (name, _, r) :: rest => do
    let x ← decode (path ++ [name]) r
    let xs ← eachMember decode path rest
    return (name, x) :: xs

/-- Reads an object whose members may have any names, repeated ones included. -/
def entries (decode : List String → Json.Reading μ φ → Result μ φ α) (path : List String) :
    Json.Reading μ φ → Result μ φ (Named α)
  | .object _ members ending => do
    let xs ← eachMember decode path members
    let _ ← orBroken ending.check
    return xs
  | r => refuse path .object r

/-- Reads the members of an object that may have the known names only, each at most once. Names are
looked at before values. -/
def knownMembers (known : List String)
    (decode : String → List String → Json.Reading μ φ → Result μ φ α)
    (path : List String) (seen : List String) :
    List (String × μ × Json.Reading μ φ) → Result μ φ (Named α)
  | [] => .ok []
  | (name, mark, r) :: rest =>
    if name ∉ known then .error (.misshapen (path ++ [name]) (.unknownField name known) mark)
    else if name ∈ seen then .error (.misshapen path (.repeatedField name) mark)
    else do
      let x ← decode name (path ++ [name]) r
      let xs ← knownMembers known decode path (name :: seen) rest
      return (name, x) :: xs

def string (path : List String) : Json.Reading μ φ → Result μ φ String
  | .string s _ => .ok s
  | r => refuse path .string r

/-- Reads a value in the place of a type, whatever it is. -/
def any (_ : List String) (r : Json.Reading μ φ) : Result μ φ Json := orBroken r.value

/-- The member of the given name, which has to be there. -/
def required (path : List String) (name : String) (stop : μ) (members : Named α) : Result μ φ α :=
  match members.lookup name with
  | some x => .ok x
  | none => .error (.misshapen path (.missingField name) stop)

def method (path : List String) : Json.Reading μ φ → Result μ φ (Named Json × Named Json)
  | .object _ members ending => do
    let sides ← knownMembers [Direction.request.key, Direction.response.key]
      (fun _ => entries any) path [] members
    let stop ← orBroken ending.check
    let request ← required path Direction.request.key stop sides
    let response ← required path Direction.response.key stop sides
    return (request, response)
  | r => refuse path .object r

def empty : Outline := ⟨[], [], []⟩

def append (a b : Outline) : Outline :=
  ⟨a.enumerations ++ b.enumerations, a.records ++ b.records, a.methods ++ b.methods⟩

def sections : List String :=
  [Kind.enumeration.section, Kind.record.section, Kind.method.section]

/-- Reads one section, as an outline without the other sections. -/
def oneSection (name : String) (path : List String) : Json.Reading μ φ → Result μ φ Outline
  | .null _ => .ok empty
  | r =>
    if name = Kind.enumeration.section then do
      return { empty with enumerations := ← entries (entries string) path r }
    else if name = Kind.record.section then do
      return { empty with records := ← entries (entries any) path r }
    else do
      return { empty with methods := ← entries method path r }

def ofReading : Json.Reading μ φ → Result μ φ Outline
  | .object _ members ending => do
    let parts ← knownMembers sections oneSection [] [] members
    let _ ← orBroken ending.check
    return parts.foldl (fun o part => o.append part.2) empty
  | r => refuse [] .object r

end Outline
end CallContract
