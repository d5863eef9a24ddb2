/-!
# Named — lists keyed by name, in order of writing

Members of a JSON object, fields of a record and members of an enumeration are lists of pairs whose
first component is a name. A name may be written twice, so three readings of such a list are kept
apart: all of it, the first entry of a name (`List.lookup`), and the list in which a repeated name
keeps its first place and takes its last value (`Named.merge`).
-/

namespace CallContract

/-- Values under names, in order of writing; a name may occur more than once. -/
abbrev Named (α : Type) := List (String × α)

namespace Named

variable {α β : Type}

/-- The names, in order, repetitions included. -/
def names (entries : Named α) : List String := entries.map (·.1)

def mapValues (f : α → β) (entries : Named α) : Named β := entries.map fun (n, x) => (n, f x)

/-- Gives `name` the value `x`: in place if the name is there, at the end otherwise. -/
def put (name : String) (x : α) : Named α → Named α
  | [] => [(name, x)]
  | (n, y) :: rest => if n = name then (name, x) :: rest else (n, y) :: put name x rest

/-- A repeated name keeps its first place and takes its last value. -/
def merge (entries : Named α) : Named α := entries.foldl (fun done (n, x) => put n x done) []

/-- No name occurs twice. -/
def Distinct (entries : Named α) : Prop := entries.names.Nodup

@[simp] theorem names_nil : names ([] : Named α) = [] := rfl

@[simp] theorem names_cons (n : String) (x : α) (rest : Named α) :
    names ((n, x) :: rest) = n :: names rest := rfl

@[simp] theorem names_mapValues (f : α → β) (entries : Named α) :
    (mapValues f entries).names = entries.names := by
  simp [names, mapValues]

/-- A name that is not there yet is put at the end. -/
theorem put_of_notMem {name : String} {x : α} {entries : Named α} (h : name ∉ entries.names) :
    entries.put name x = entries ++ [(name, x)] := by
  induction entries with
  | nil => rfl
  | cons e rest ih =>
    obtain ⟨n, y⟩ := e
    simp only [names_cons, List.mem_cons, not_or] at h
    simp [put, Ne.symm h.1, ih h.2]

end Named

/-- The first element that equals an earlier one, if there is any. -/
def firstRepeat? {α : Type} [DecidableEq α] (seen : List α) : List α → Option α
  | [] => none
  | x :: rest => if x ∈ seen then some x else firstRepeat? (x :: seen) rest

end CallContract
