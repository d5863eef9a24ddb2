/-!
# Routes

A route leads from a type into one of its parts: through the field of an object or into the element
of an array. The alternatives of a union and the type that may be null lie where the type itself
lies.
-/

namespace CallContract

/-- One step down into a type. -/
inductive Step where
  | field (name : String)
  | element
  deriving DecidableEq, Repr

def Step.text : Step → String
  | .field name => "." ++ name
  | .element => "[]"

/-- Steps from the outside to the inside. -/
abbrev Route := List Step

def Route.text (r : Route) : String := String.join (r.map Step.text)

/-- Something at the end of a route. -/
structure Routed (α : Type) where
  route : Route
  what : α
  deriving DecidableEq, Repr

/-- The same thing seen from one step further out. -/
def Routed.below {α : Type} (step : Step) (r : Routed α) : Routed α := ⟨step :: r.route, r.what⟩

end CallContract
