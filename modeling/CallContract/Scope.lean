import CallContract.Document

/-!
# Scopes

Enumerations and records share one space of names. A scope tells which declaration a name belongs
to; the first declaration of a name keeps it. Names are listed in the order in which they were
declared.
-/

namespace CallContract

/-- The place of an enumeration or a record among the declarations of its kind. -/
inductive DeclId where
  | enumeration (index : Nat)
  | record (index : Nat)
  deriving DecidableEq, Repr, Inhabited

def DeclId.kind : DeclId → Kind
  | .enumeration _ => .enumeration
  | .record _ => .record

def DeclId.index : DeclId → Nat
  | .enumeration i => i
  | .record i => i

/-- The error for a name that nothing is declared under. -/
structure Undeclared where
  name : String
  deriving DecidableEq, Repr

/-- Declared names with their declarations, in order of declaration. -/
structure Scope where
  entries : Named DeclId
  deriving DecidableEq, Repr

namespace Scope

def empty : Scope := ⟨[]⟩

def find? (s : Scope) (name : String) : Option DeclId := s.entries.lookup name

/-- The declaration of a name, or the error that there is none. -/
def lookup (s : Scope) (name : String) : Except Undeclared DeclId :=
  match s.find? name with
  | some id => .ok id
  | none => .error ⟨name⟩

def contains (s : Scope) (name : String) : Bool := (s.find? name).isSome

def size (s : Scope) : Nat := s.entries.length

/-- Declares a name, or tells the declaration that already has it. -/
def declare (s : Scope) (name : String) (id : DeclId) : Except DeclId Scope :=
  match s.find? name with
  | some existing => .error existing
  | none => .ok ⟨s.entries ++ [(name, id)]⟩

def takenMessage (existing : DeclId) : String := "name already declared as " ++ existing.kind.word

def undeclaredMessage (name : String) : String := "undeclared name: " ++ name

end Scope
end CallContract
