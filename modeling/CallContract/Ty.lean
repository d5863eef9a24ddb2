import CallContract.Json
import CallContract.Scalar

/-!
# Types

Types of fields, over what names a declaration: in a type as written that is a name, in a resolved
type the place of the declaration. The canonical JSON form writes an array type as an array of one
item, a union as the array of its alternatives, and a nullable type as a pair with the word `null`.
-/

namespace CallContract

/-- A type whose declarations are named by `ν`. -/
inductive Ty (ν : Type) where
  | scalar (s : Scalar)
  | named (name : ν)
  | nullable (inner : Ty ν)
  | array (element : Ty ν)
  | union (alternatives : List (Ty ν))
  | object (fields : List (String × Ty ν))
  deriving Repr, Inhabited

/-- Fields with their types, in order. -/
abbrev Fields (ν : Type) := Named (Ty ν)

namespace Ty

variable {ν μ : Type}

/-! ## Equality -/

section

variable [DecidableEq ν]

mutual

protected def decEq : (a b : Ty ν) → Decidable (a = b)
  | .scalar a, .scalar b => decidable_of_iff (a = b) (by simp)
  | .named a, .named b => decidable_of_iff (a = b) (by simp)
  | .nullable a, .nullable b =>
    match Ty.decEq a b with
    | isTrue h => isTrue (by rw [h])
    | isFalse h => isFalse (by simpa using h)
  | .array a, .array b =>
    match Ty.decEq a b with
    | isTrue h => isTrue (by rw [h])
    | isFalse h => isFalse (by simpa using h)
  | .union xs, .union ys =>
    match Ty.decEqList xs ys with
    | isTrue h => isTrue (by rw [h])
    | isFalse h => isFalse (by simpa using h)
  | .object xs, .object ys =>
    match Ty.decEqFields xs ys with
    | isTrue h => isTrue (by rw [h])
    | isFalse h => isFalse (by simpa using h)
  | .scalar _, .named _ | .scalar _, .nullable _ | .scalar _, .array _ | .scalar _, .union _
  | .scalar _, .object _
  | .named _, .scalar _ | .named _, .nullable _ | .named _, .array _ | .named _, .union _
  | .named _, .object _
  | .nullable _, .scalar _ | .nullable _, .named _ | .nullable _, .array _ | .nullable _, .union _
  | .nullable _, .object _
  | .array _, .scalar _ | .array _, .named _ | .array _, .nullable _ | .array _, .union _
  | .array _, .object _
  | .union _, .scalar _ | .union _, .named _ | .union _, .nullable _ | .union _, .array _
  | .union _, .object _
  | .object _, .scalar _ | .object _, .named _ | .object _, .nullable _ | .object _, .array _
  | .object _, .union _ => isFalse nofun

protected def decEqList : (a b : List (Ty ν)) → Decidable (a = b)
  | [], [] => isTrue rfl
  | [], _ :: _ | _ :: _, [] => isFalse nofun
  | x :: xs, y :: ys =>
    match Ty.decEq x y, Ty.decEqList xs ys with
    | isTrue h, isTrue h' => isTrue (by rw [h, h'])
    | isFalse h, _ => isFalse (by simp [h])
    | _, isFalse h => isFalse (by simp [h])

protected def decEqFields : (a b : Fields ν) → Decidable (a = b)
  | [], [] => isTrue rfl
  | [], _ :: _ | _ :: _, [] => isFalse nofun
  | (k, x) :: xs, (l, y) :: ys =>
    match decEq k l, Ty.decEq x y, Ty.decEqFields xs ys with
    | isTrue h, isTrue h', isTrue h'' => isTrue (by rw [h, h', h''])
    | isFalse h, _, _ => isFalse (by simp [h])
    | _, isFalse h, _ => isFalse (by simp [h])
    | _, _, isFalse h => isFalse (by simp [h])

end

instance : DecidableEq (Ty ν) := Ty.decEq

end

/-! ## Names -/

mutual

/-- What the type names, from left to right. -/
def references : Ty ν → List ν
  | .scalar _ => []
  | .named n => [n]
  | .nullable t => t.references
  | .array t => t.references
  | .union ts => referencesList ts
  | .object fs => referencesFields fs

def referencesList : List (Ty ν) → List ν
  | [] => []
  | t :: rest => t.references ++ referencesList rest

def referencesFields : Fields ν → List ν
  | [] => []
  | (_, t) :: rest => t.references ++ referencesFields rest

end

mutual

/-- The type with every name replaced; none if one of them has no replacement. -/
def rename? (f : ν → Option μ) : Ty ν → Option (Ty μ)
  | .scalar s => some (.scalar s)
  | .named n => (f n).map .named
  | .nullable t => (rename? f t).map .nullable
  | .array t => (rename? f t).map .array
  | .union ts => (renameList? f ts).map .union
  | .object fs => (renameFields? f fs).map .object

def renameList? (f : ν → Option μ) : List (Ty ν) → Option (List (Ty μ))
  | [] => some []
  | t :: rest => do
    let u ← rename? f t
    let us ← renameList? f rest
    return u :: us

def renameFields? (f : ν → Option μ) : Fields ν → Option (Fields μ)
  | [] => some []
  | (k, t) :: rest => do
    let u ← rename? f t
    let us ← renameFields? f rest
    return (k, u) :: us

end

/-! ## Canonical form -/

mutual

def toJson : Ty String → Json
  | .scalar s => .string s.name
  | .named n => .string n
  | .nullable t => .array [t.toJson, .string nullName]
  | .array t => .array [t.toJson]
  | .union ts => .array (toJsonList ts)
  | .object fs => .object (Named.merge (toJsonFields fs))

def toJsonList : List (Ty String) → List Json
  | [] => []
  | t :: rest => t.toJson :: toJsonList rest

/-- The canonical forms of fields, repeated names included. -/
def toJsonFields : Fields String → Named Json
  | [] => []
  | (k, t) :: rest => (k, t.toJson) :: toJsonFields rest

end

end Ty

/-- The canonical form of a list of fields. -/
def Fields.toJson (fields : Fields String) : Json := .object (Named.merge (Ty.toJsonFields fields))

end CallContract
