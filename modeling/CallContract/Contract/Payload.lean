import CallContract.Contract.Export
import CallContract.Schema.Check

/-!
# Payloads

A payload is checked against the JSON form of the schema of one direction of a method, as it is
exported.
-/

namespace CallContract

/-- Why a payload is not accepted, or there is nothing to check it against. -/
inductive PayloadError where
  | unknownMethod (name : String)
  /-- No payload can be checked, as for a union without alternatives. -/
  | invalidSchema (fault : SchemaFault)
  | violated (first : Violation) (others : List Violation)
  deriving DecidableEq, Repr

def PayloadError.message : PayloadError → String
  | .unknownMethod name => "unknown method: " ++ name
  | .invalidSchema fault => "invalid schema: " ++ fault.message
  | .violated _ others =>
    "payload failed with " ++ toString (others.length + 1) ++ " violation(s)"

namespace Contract

/-- The schema of one direction of a method, or the error that there is no such method. -/
def schema (c : Contract) (method : String) (direction : Direction) (closed : Bool) :
    Except PayloadError RootSchema :=
  match c.export? method direction closed with
  | some d => .ok d
  | none => .error (.unknownMethod method)

def checkPayload (c : Contract) (method : String) (direction : Direction) (closed : Bool)
    (payload : Json) : Except PayloadError Unit :=
  match c.schema method direction closed with
  | .error e => .error e
  | .ok x =>
    match x.toJson.fault? with
    | some fault => .error (.invalidSchema fault)
    | none =>
      match x.toJson.rootViolations payload with
      | [] => .ok ()
      | v :: vs => .error (.violated v vs)

end Contract
end CallContract
