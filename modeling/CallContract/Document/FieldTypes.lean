import CallContract.Finding
import CallContract.Scope

/-!
# Types of fields

What is wrong with fields and their types in a scope, and the types with every name resolved. A
field may not have the name of an earlier one, and a name in a type has to be declared.
-/

namespace CallContract

/-- What is wrong with the name of a field, given the names before it. -/
def fieldNameDefects (seen : List String) (name : String) : List (Routed Defect) :=
  (if name ∈ seen then [⟨[], .duplicateKey name⟩] else []) ++
    if isReserved name then [⟨[], .shadowsScalar name⟩] else []

namespace Ty

mutual

def defects (s : Scope) : Ty String → List (Routed Defect)
  | .scalar _ => []
  | .named n => if s.contains n then [] else [⟨[], .unresolvedReference n⟩]
  | .nullable t => t.defects s
  | .array t => (t.defects s).map (.below .element)
  | .union ts => listDefects s ts
  | .object fs => fieldDefects s [] fs

def listDefects (s : Scope) : List (Ty String) → List (Routed Defect)
  | [] => []
  | t :: rest => t.defects s ++ listDefects s rest

/-- What is wrong with fields, given the names before them. -/
def fieldDefects (s : Scope) (seen : List String) : Fields String → List (Routed Defect)
  | [] => []
  | (name, t) :: rest =>
    (fieldNameDefects seen name ++ t.defects s).map (.below (.field name)) ++
      fieldDefects s (name :: seen) rest

end

/-- The type with its declarations in place of their names. -/
def resolve? (s : Scope) (t : Ty String) : Option (Ty DeclId) := t.rename? s.find?

end Ty

/-- What is wrong with the fields at the end of a route from a site. -/
def Fields.findings (s : Scope) (site : Site) (route : Route) (fields : Fields String) :
    List Finding :=
  (Ty.fieldDefects s [] fields).map fun d => .ofDefect site ⟨route ++ d.route, d.what⟩

def Fields.resolve? (s : Scope) (fields : Fields String) : Option (Fields DeclId) :=
  Ty.renameFields? s.find? fields

def Record.findings (s : Scope) (r : Record String) : List Finding :=
  Fields.findings s (.declaration .record r.name) [] r.fields

def Record.resolve? (s : Scope) (r : Record String) : Option (Record DeclId) :=
  (Fields.resolve? s r.fields).map (⟨r.name, ·⟩)

def Method.findings (s : Scope) (m : Method String) : List Finding :=
  let side (d : Direction) :=
    Fields.findings s (.declaration .method m.name) [.field d.key] (m.fields d)
  side .request ++ side .response

def Method.resolve? (s : Scope) (m : Method String) : Option (Method DeclId) := do
  let request ← Fields.resolve? s m.request
  let response ← Fields.resolve? s m.response
  return ⟨m.name, request, response⟩

end CallContract
