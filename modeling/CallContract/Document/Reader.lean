import CallContract.Document.Outline
import CallContract.Finding
import CallContract.Json.Reader
import CallContract.Ty.Reader

/-!
# Reading documents

A document is read from text or from a value. Both ways lead through a reading and an outline to the
types, all of which are read even if some are malformed.
-/

namespace CallContract

inductive DocumentError where
  /-- The text is not JSON; the wording includes the position. -/
  | notJson (problem : Json.Problem) (position : Position)
  /-- The value on the path has a wrong shape; a text has a position for it. -/
  | misshapen (path : List String) (misshape : Outline.Misshape) (position : Option Position)
  /-- Some types are malformed. -/
  | malformed (first : Finding) (others : List Finding)
  deriving DecidableEq, Repr

namespace Document

/-- Reads the types of fields that lie at the end of a route from a site. -/
def fieldsOf (site : Site) (route : Route) (members : Named Json) :
    Checked Finding (Fields String) :=
  (Ty.ofFields members).mapFaults (Finding.ofMisfit site route)

def recordOf (name : String) (members : Named Json) : Checked Finding (Record String) :=
  (fieldsOf (.declaration .record name) [] members).map (⟨name, ·⟩)

def methodOf (name : String) (sides : Named Json × Named Json) : Checked Finding (Method String) :=
  let fields (d : Direction) := fieldsOf (.declaration .method name) [.field d.key]
  (fields .request sides.1).both (⟨name, ·, ·⟩) (fields .response sides.2)

def ofOutline (o : Outline) : Checked Finding Document :=
  (Checked.each (o.records.map fun (name, members) => recordOf name members)).both
    (fun records methods =>
      ⟨o.enumerations.map fun (name, members) => ⟨name, members⟩, records, methods⟩)
    (Checked.each (o.methods.map fun (name, sides) => methodOf name sides))

/-- A document with sound types, or its malformed types. -/
def accept : Checked Finding Document → Except DocumentError Document
  | .ok d => .ok d
  | .failed f fs => .error (.malformed f fs)

def ofJson (v : Json) : Except DocumentError Document :=
  match Outline.ofReading (.ofJson v) with
  | .ok o => accept (ofOutline o)
  | .error (.misshapen path m _) => .error (.misshapen path m none)

/-- Reads a document from text. The shape comes first, then the end of the text, then the types. -/
def ofText (text : String) : Except DocumentError Document :=
  let cs := text.toList
  let fault (f : Json.Fault) : DocumentError := .notJson f.problem (f.place.position cs)
  let t := Json.readValue Json.nestingLimit cs
  match Outline.ofReading t.result with
  | .error (.broken f) => .error (fault f)
  | .error (.misshapen path m place) => .error (.misshapen path m (some (place.position cs)))
  | .ok o =>
    match Json.checkEnd t.rest with
    | .error f => .error (fault f)
    | .ok () => accept (ofOutline o)

end Document

namespace DocumentError

/-- The dotted path of a value; the document itself is a dot. -/
def pathText (path : List String) : String :=
  if path.isEmpty then "." else ".".intercalate path

/-- The wording of a wrong shape, without its path. -/
def detail (m : Outline.Misshape) (position : Option Position) : String :=
  m.message ++ position.elim "" (" at " ++ ·.text)

/-- The wording of a text that is not JSON, without the introduction. -/
def notJsonText (problem : Json.Problem) (position : Position) : String :=
  problem.message ++ " at " ++ position.text

def findings : DocumentError → List Finding
  | .malformed first others => first :: others
  | .notJson _ _ | .misshapen _ _ _ => []

def message : DocumentError → String
  | .notJson problem position => "invalid JSON: " ++ notJsonText problem position
  | .misshapen path m position =>
    "invalid document at " ++ pathText path ++ ": " ++ detail m position
  | .malformed _ others =>
    "malformed schema with " ++ toString (others.length + 1) ++ " error(s)"

end DocumentError
end CallContract
