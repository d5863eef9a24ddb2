import CallContract.Finding
import CallContract.Scope

/-!
# Names of declarations

The scope of a document lists its enumerations and then its records. A name that is declared again
is an error and keeps its first declaration. Methods have names of their own.
-/

namespace CallContract

/-- Is the name an upper-case ASCII letter followed by ASCII letters and digits? -/
def isCamelCase (name : String) : Bool :=
  match name.toList with
  | [] => false
  | c :: rest => c.isUpper && rest.all Char.isAlphanum

/-- Is the name a lower-case ASCII letter followed by such letters, digits and underscores? -/
def isSnakeCase (name : String) : Bool :=
  match name.toList with
  | [] => false
  | c :: rest => c.isLower && rest.all fun d => d.isLower || d.isDigit || d = '_'

/-- The finding for a defect of a declaration itself. -/
def Finding.ofDeclaration (kind : Kind) (name : String) (defect : Defect) : Finding :=
  ⟨⟨.declaration kind name, []⟩, defect⟩

namespace Document

/-- The enumerations and then the records, each with its place. -/
def declarations (d : Document) : Named DeclId :=
  d.enumerations.mapIdx (fun i e => (e.name, .enumeration i)) ++
    d.records.mapIdx (fun i r => (r.name, .record i))

/-- What is wrong with the name of an enumeration or a record that is declared first. -/
def declaredNameFindings (kind : Kind) (name : String) : List Finding :=
  if isReserved name then [.ofDeclaration kind name (.reservedName name)]
  else if !isCamelCase name then
    [.ofDeclaration kind name (.namingConvention name .camelCase)]
  else []

/-- Declares names one after the other; also tells what is wrong with them. -/
def declareAll (s : Scope) : Named DeclId → Scope × List Finding
  | [] => (s, [])
  | (name, id) :: rest =>
    match s.declare name id with
    | .error existing =>
      let (s, findings) := declareAll s rest
      (s, .ofDeclaration id.kind name (.duplicateDeclaration name existing.kind) :: findings)
    | .ok s =>
      let (s, findings) := declareAll s rest
      (s, declaredNameFindings id.kind name ++ findings)

/-- The scope of the enumerations and records. -/
def scope (d : Document) : Scope := (declareAll .empty d.declarations).1

/-- What is wrong with the names of enumerations and records. -/
def scopeFindings (d : Document) : List Finding := (declareAll .empty d.declarations).2

/-- What is wrong with the name of a method that is declared first. -/
def methodNameFindings (s : Scope) (name : String) : List Finding :=
  (if s.contains name then [.ofDeclaration .method name (.nameCollision name)] else []) ++
    if isSnakeCase name then []
    else [.ofDeclaration .method name (.namingConvention name .snakeCase)]

/-- What is wrong with the names of methods, given those seen before. -/
def methodNamesFindings (s : Scope) (seen : List String) : List String → List Finding
  | [] => []
  | name :: rest =>
    if name ∈ seen then
      .ofDeclaration .method name (.duplicateDeclaration name .method) ::
        methodNamesFindings s seen rest
    else methodNameFindings s name ++ methodNamesFindings s (name :: seen) rest

/-- What is wrong with the methods as a whole and with their names. -/
def methodsFindings (d : Document) : List Finding :=
  (if d.methods.isEmpty then [⟨⟨.section .method, []⟩, .noMethods⟩] else []) ++
    methodNamesFindings d.scope [] (d.methods.map (·.name))

end Document
end CallContract
