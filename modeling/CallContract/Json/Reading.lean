import CallContract.Json

/-!
# Readings

A reading is what a reader has made of a JSON text, with the places where values begin and end, and
perhaps broken off by a fault. Whoever looks at a reading from left to right meets everything that
was read before the fault first. A value that was never text is a reading without places and
without faults.
-/

namespace CallContract.Json

/-- How the items of an array or the members of an object came to an end. -/
inductive Ending (μ φ : Type) where
  | closed (stop : μ)
  | cut (fault : φ)

/-- A value as read: `μ` marks places, `φ` tells faults. The mark of a member's name tells where the
reader stands if it goes no further than that name. -/
inductive Reading (μ φ : Type) where
  | null (stop : μ)
  | boolean (value : Bool) (stop : μ)
  | number (value : Number) (stop : μ)
  | string (value : String) (stop : μ)
  | array (start : μ) (items : List (Reading μ φ)) (ending : Ending μ φ)
  | object (start : μ) (members : List (String × μ × Reading μ φ)) (ending : Ending μ φ)
  | broken (fault : φ)

variable {μ φ : Type}

/-- Nothing, or the fault that cut the container off. -/
def Ending.check : Ending μ φ → Except φ μ
  | .closed stop => .ok stop
  | .cut f => .error f

namespace Reading

mutual

/-- The value that was read, or the first fault. -/
def value : Reading μ φ → Except φ Json
  | .null _ => .ok .null
  | .boolean b _ => .ok (.boolean b)
  | .number n _ => .ok (.number n)
  | .string s _ => .ok (.string s)
  | .array _ items ending => do
    let vs ← valueItems items
    let _ ← ending.check
    return .array vs
  | .object _ members ending => do
    let vs ← valueMembers members
    let _ ← ending.check
    return .object vs
  | .broken f => .error f

def valueItems : List (Reading μ φ) → Except φ (List Json)
  | [] => .ok []
  | r :: rest => do
    let v ← r.value
    let vs ← valueItems rest
    return v :: vs

def valueMembers : List (String × μ × Reading μ φ) → Except φ (Named Json)
  | [] => .ok []
  | (k, _, r) :: rest => do
    let v ← r.value
    let vs ← valueMembers rest
    return (k, v) :: vs

end

mutual

/-- A value as a reading of itself. -/
def ofJson : Json → Reading Unit Empty
  | .null => .null ()
  | .boolean b => .boolean b ()
  | .number n => .number n ()
  | .string s => .string s ()
  | .array items => .array () (ofItems items) (.closed ())
  | .object members => .object () (ofMembers members) (.closed ())

def ofItems : List Json → List (Reading Unit Empty)
  | [] => []
  | v :: rest => ofJson v :: ofItems rest

def ofMembers : Named Json → List (String × Unit × Reading Unit Empty)
  | [] => []
  | (k, v) :: rest => (k, (), ofJson v) :: ofMembers rest

end

end Reading
end CallContract.Json
