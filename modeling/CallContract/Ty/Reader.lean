import CallContract.Checked
import CallContract.Text.Blank
import CallContract.Ty.Malformation

/-!
# Reading types

A string names a scalar or a declaration, an array of one item is an array type, a longer array a
union, and an object lists fields. Unions are read through their alternatives: a union inside a
union gives its own alternatives to it, and null anywhere among them makes the whole nullable. So
the type that comes out never has a union or a nullable type directly inside a union, nor a nullable
type directly inside a nullable one.
-/

namespace CallContract

/-- What may stand in a place: types, and perhaps null. -/
structure Alternatives where
  nullable : Bool
  types : List (Ty String)

namespace Alternatives

def null : Alternatives := ⟨true, []⟩

def none : Alternatives := ⟨false, []⟩

def append (a b : Alternatives) : Alternatives := ⟨a.nullable || b.nullable, a.types ++ b.types⟩

/-- The type of these alternatives, which have to be distinct and at least two, or one and null. -/
def toTy (a : Alternatives) : Checked Misfit (Ty String) :=
  match firstRepeat? [] a.types with
  | some t => .fail ⟨[], .repeatedAlternative t⟩
  | Option.none =>
    match a.types with
    | [] => .fail ⟨[], .onlyNull⟩
    | [t] => if a.nullable then .ok (.nullable t) else .fail ⟨[], .singleAlternative⟩
    | ts => .ok (if a.nullable then .nullable (.union ts) else .union ts)

end Alternatives

namespace Ty

/-- The types of a union, or the type itself. -/
def members : Ty String → List (Ty String)
  | .union ts => ts
  | t => [t]

/-- The alternatives that a type offers to a union around it. -/
def alternatives : Ty String → Alternatives
  | .nullable t => ⟨true, t.members⟩
  | t => ⟨false, t.members⟩

def ofName (name : String) : Checked Misfit (Ty String) :=
  if name = nullName then .fail ⟨[], .nullAlone⟩
  else if Text.isBlankText name then .fail ⟨[], .blankName⟩
  else match Scalar.ofName? name with
    | some s => .ok (.scalar s)
    | none => .ok (.named name)

/-- What an item of a union offers: null if it is the word for null, else what its type offers. -/
def offer (item : Json) (type : Checked Misfit (Ty String)) : Checked Misfit Alternatives :=
  if item = .string nullName then .ok .null else type.map alternatives

mutual

def ofJson : Json → Checked Misfit (Ty String)
  | .string name => ofName name
  | .array items => ofItems items
  | .object [] => .fail ⟨[], .emptyObject⟩
  | .object members => (ofFields members).map .object
  | .null => .fail ⟨[], .notAType .null⟩
  | .boolean _ => .fail ⟨[], .notAType .boolean⟩
  | .number _ => .fail ⟨[], .notAType .number⟩

def ofItems : List Json → Checked Misfit (Ty String)
  | [] => .fail ⟨[], .emptyArray⟩
  -- One item makes an array type, even if that item is the word for null.
  | [v] => ((ofJson v).mapFaults (.below .element)).map .array
  | v :: rest =>
    ((offer v (ofJson v)).both Alternatives.append (ofAlternatives rest)).bind Alternatives.toTy

def ofAlternatives : List Json → Checked Misfit Alternatives
  | [] => .ok .none
  | v :: rest => (offer v (ofJson v)).both Alternatives.append (ofAlternatives rest)

/-- Reads fields; a broken one does not keep the others from being read. -/
def ofFields : Named Json → Checked Misfit (Fields String)
  | [] => .ok []
  | (k, v) :: rest =>
    ((ofJson v).mapFaults (.below (.field k))).both (fun t fs => (k, t) :: fs) (ofFields rest)

end

end Ty
end CallContract
