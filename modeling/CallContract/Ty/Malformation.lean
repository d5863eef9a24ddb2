import CallContract.Json.Printer
import CallContract.Route
import CallContract.Ty

/-!
# Malformations

Why a JSON value in the place of a type is not one.
-/

namespace CallContract

/-- Ways in which a value is not a type. -/
inductive Malformation where
  | emptyArray
  | emptyObject
  | notAType (kind : Json.Kind)
  | nullAlone
  | blankName
  | repeatedAlternative (alternative : Ty String)
  | onlyNull
  | singleAlternative
  deriving DecidableEq, Repr

def Malformation.message : Malformation → String
  | .emptyArray => "empty array is not a type"
  | .emptyObject => "empty object is not a type"
  | .notAType kind => "expected type name, array or object, got " ++ kind.name
  | .nullAlone => "\"null\" is only valid as an alternative of a union"
  | .blankName => "empty type name"
  | .repeatedAlternative t => "duplicate union alternative " ++ t.toJson.text
  | .onlyNull => "union has no alternative besides null"
  | .singleAlternative => "union needs at least 2 distinct alternatives"

/-- A malformation somewhere in a type. -/
abbrev Misfit := Routed Malformation

end CallContract
