import CallContract.Finding

/-!
# Members of enumerations

A member whose name was used before is an error, and so is an empty string. A string that an earlier
member already has is pointed out together with the first such member; members that are in error do
not count as earlier ones.
-/

namespace CallContract.Enumeration

/-- What is wrong with members, given the names seen before and the first member of each string. -/
def memberFindings (seen : List String) (first : Named String) : Named String → List (Routed Defect)
  | [] => []
  | (name, value) :: rest =>
    if name ∈ seen then
      ⟨[.field name], .duplicateKey name⟩ :: memberFindings seen first rest
    else if value = "" then
      ⟨[.field name], .emptyEnumValue⟩ :: memberFindings (name :: seen) first rest
    else
      match first.lookup value with
      | some holder =>
        ⟨[.field name], .duplicateEnumValue value holder⟩ ::
          memberFindings (name :: seen) first rest
      -- Only the first member of a string is remembered, so later ones are told about that one.
      | none => memberFindings (name :: seen) ((value, name) :: first) rest

def findings (e : Enumeration) : List Finding :=
  (memberFindings [] [] e.members).map (.ofDefect (.declaration .enumeration e.name))

end CallContract.Enumeration
