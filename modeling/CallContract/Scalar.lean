/-!
# Scalars

The built-in kinds of values without parts, and their spellings. These spellings and `null` are not
free for declarations.
-/

namespace CallContract

/-- The built-in kinds of values. -/
inductive Scalar where
  | integer
  | float
  | boolean
  | string
  | uuid
  | date
  | datetime
  deriving DecidableEq, Repr, Inhabited

namespace Scalar

/-- The canonical spelling. -/
def name : Scalar → String
  | .integer => "int"
  | .float => "float"
  | .boolean => "boolean"
  | .string => "string"
  | .uuid => "uuid"
  | .date => "date"
  | .datetime => "datetime"

/-- The scalar of a spelling; `integer` is another word for `int`. -/
def ofName? (s : String) : Option Scalar :=
  if s = "int" ∨ s = "integer" then some .integer
  else if s = "float" then some .float
  else if s = "boolean" then some .boolean
  else if s = "string" then some .string
  else if s = "uuid" then some .uuid
  else if s = "date" then some .date
  else if s = "datetime" then some .datetime
  else none

theorem ofName?_name (s : Scalar) : ofName? s.name = some s := by
  cases s <;> decide

end Scalar

/-- The word that makes a union nullable. -/
def nullName : String := "null"

/-- Is the name a spelling of a scalar or the word for null? -/
def isReserved (name : String) : Bool := name = nullName || (Scalar.ofName? name).isSome

end CallContract
