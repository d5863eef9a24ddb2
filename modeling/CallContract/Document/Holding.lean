import CallContract.Document.Names
import CallContract.Walk

/-!
# Records that hold records

A record holds another one by value if a field names it directly, in a union, or inside an inline
object. An array may be empty and a nullable type null, so what stands in them is not held. A record
that holds itself along a chain of records has no finite value.
-/

namespace CallContract

namespace Ty

mutual

/-- The records that a type holds by value, with the way to each. -/
def held (s : Scope) : Ty String → List (Routed Nat)
  | .named n =>
    match s.find? n with
    | some (.record i) => [⟨[], i⟩]
    | _ => []
  | .union ts => heldList s ts
  | .object fs => heldFields s fs
  | .scalar _ | .nullable _ | .array _ => []

def heldList (s : Scope) : List (Ty String) → List (Routed Nat)
  | [] => []
  | t :: rest => t.held s ++ heldList s rest

def heldFields (s : Scope) : Fields String → List (Routed Nat)
  | [] => []
  | (name, t) :: rest => (t.held s).map (.below (.field name)) ++ heldFields s rest

end

end Ty

/-- The records that a record holds, each with the location that names it. -/
def Record.edges (s : Scope) (r : Record String) : List (Edge Location) :=
  (Ty.heldFields s r.fields).map fun h => ⟨h.what, ⟨.declaration .record r.name, h.route⟩⟩

namespace Document

/-- The graph of records that hold records. -/
def holding (d : Document) : Graph Location := d.records.map (Record.edges d.scope)

/-- The name of a record given by its place. -/
def recordName (d : Document) (i : Nat) : String := d.records[i]?.elim "" (·.name)

def loopFinding (d : Document) (l : Loop Location) : Finding :=
  ⟨l.edge.label, .unrepresentableCycle (l.nodes.map d.recordName)⟩

def cycleFindings (d : Document) : List Finding := d.holding.loops.map d.loopFinding

end Document
end CallContract
