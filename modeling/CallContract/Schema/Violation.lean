import CallContract.Schema.Keyword

/-!
# Violations

How a value fails a schema, and where in the value. Places are told by JSON Pointers.
-/

namespace CallContract

/-- Ways in which a value fails a schema. -/
inductive Complaint where
  | wrongType (instanceValue : Json) (type : BasicType)
  | notAmong (instanceValue : Json) (values : List Json)
  | badFormat (instanceValue : Json) (format : Format)
  | noAlternative (instanceValue : Json)
  | missing (name : String)
  | unexpected (names : List String)
  /-- Nothing fits what is no schema. -/
  | invalid (fault : SchemaFault)
  deriving DecidableEq, Repr

def Complaint.message : Complaint → String
  | .wrongType v t => v.text ++ " is not of type \"" ++ t.name ++ "\""
  | .notAmong v values =>
    v.text ++ " is not one of " ++ (Json.array values).text
  | .badFormat v f => v.text ++ " is not a \"" ++ f.name ++ "\""
  | .noAlternative v =>
    v.text ++ " is not valid under any of the schemas listed in the 'anyOf' keyword"
  | .missing name => (Json.string name).text ++ " is a required property"
  | .unexpected names =>
    "Additional properties are not allowed (" ++
      ", ".intercalate (names.map fun n => "'" ++ n ++ "'") ++
      (if names.length = 1 then " was" else " were") ++ " unexpected)"
  | .invalid fault => fault.message

/-- A complaint and the tokens of the pointer to where it is. -/
structure Violation where
  tokens : List String
  complaint : Complaint
  deriving DecidableEq, Repr

namespace Violation

/-- The same violation seen from one step further out. -/
def below (token : String) (v : Violation) : Violation := { v with tokens := token :: v.tokens }

/-- The pointer to where the violation is. -/
def pointer (v : Violation) : String :=
  String.ofList (v.tokens.flatMap fun t => '/' :: Fragment.token t.toList)

def text (v : Violation) : String := v.pointer ++ ": " ++ v.complaint.message

end Violation
end CallContract
