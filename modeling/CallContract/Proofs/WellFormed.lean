import CallContract.Proofs.HoldingCycles

/-!
# Well-formed documents

What has to hold of a document for it to be a contract, said without the findings: names are
distinct and free, members and fields are distinct, every name in a type is declared, and no record
holds itself.  A document is well styled if there is nothing to advise about it either.
-/

namespace CallContract

/-! ## 1. Names -/

/-- The words that are not free for declarations: the spellings of the scalars and the word for
null. -/
def reservedNames : List String :=
  ["int", "integer", "float", "boolean", "string", "uuid", "date", "datetime", "null"]

/-- An ASCII letter from A to Z. -/
def IsCapital (c : Char) : Prop := 'A' ≤ c ∧ c ≤ 'Z'

/-- An ASCII letter from a to z. -/
def IsSmall (c : Char) : Prop := 'a' ≤ c ∧ c ≤ 'z'

/-- An ASCII digit. -/
def IsFigure (c : Char) : Prop := '0' ≤ c ∧ c ≤ '9'

/-- A capital letter, then letters and digits. -/
def InCamelCase (name : String) : Prop :=
  ∃ c rest, name.toList = c :: rest ∧ IsCapital c ∧
    ∀ x ∈ rest, IsCapital x ∨ IsSmall x ∨ IsFigure x

/-- A small letter, then small letters, digits and underscores. -/
def InSnakeCase (name : String) : Prop :=
  ∃ c rest, name.toList = c :: rest ∧ IsSmall c ∧ ∀ x ∈ rest, IsSmall x ∨ IsFigure x ∨ x = '_'

theorem isReserved_iff {name : String} : isReserved name = true ↔ name ∈ reservedNames := by
  simp only [isReserved, nullName, Scalar.ofName?, reservedNames, List.mem_cons, List.not_mem_nil,
    or_false, Bool.or_eq_true]
  grind

theorem isUpper_iff {c : Char} : c.isUpper = true ↔ IsCapital c := by
  -- Characters are compared by their code points.
  show decide (c.val ≥ 'A'.val ∧ c.val ≤ 'Z'.val) = true ↔ _
  rw [decide_eq_true_eq]
  exact Iff.rfl

theorem isLower_iff {c : Char} : c.isLower = true ↔ IsSmall c := by
  show (decide (c.val ≥ 'a'.val) && decide (c.val ≤ 'z'.val)) = true ↔ _
  rw [Bool.and_eq_true, decide_eq_true_eq, decide_eq_true_eq]
  exact Iff.rfl

theorem isDigit_iff {c : Char} : c.isDigit = true ↔ IsFigure c := by
  show (decide (c.val ≥ '0'.val) && decide (c.val ≤ '9'.val)) = true ↔ _
  rw [Bool.and_eq_true, decide_eq_true_eq, decide_eq_true_eq]
  exact Iff.rfl

theorem isAlphanum_iff {c : Char} :
    c.isAlphanum = true ↔ IsCapital c ∨ IsSmall c ∨ IsFigure c := by
  show ((c.isUpper || c.isLower) || c.isDigit) = true ↔ _
  rw [Bool.or_eq_true, Bool.or_eq_true, isUpper_iff, isLower_iff, isDigit_iff, or_assoc]

theorem isCamelCase_iff {name : String} : isCamelCase name = true ↔ InCamelCase name := by
  unfold isCamelCase InCamelCase
  cases name.toList with
  | nil => simp
  | cons c rest => simp [isUpper_iff, isAlphanum_iff]

theorem isSnakeCase_iff {name : String} : isSnakeCase name = true ↔ InSnakeCase name := by
  unfold isSnakeCase InSnakeCase
  cases name.toList with
  | nil => simp
  | cons c rest => simp [isLower_iff, isDigit_iff, or_assoc]

/-! ## 2. Documents -/

/-- The fields of records and of both directions of methods. -/
def fieldsOfAll {ν : Type} (records : List (Record ν)) (methods : List (Method ν)) :
    List (Fields ν) :=
  records.map (·.fields) ++ methods.flatMap fun m => [m.request, m.response]

theorem forall_mem_fieldsOfAll {ν : Type} {records : List (Record ν)} {methods : List (Method ν)}
    {P : Fields ν → Prop} :
    (∀ fs ∈ fieldsOfAll records methods, P fs) ↔
      (∀ r ∈ records, P r.fields) ∧ ∀ m ∈ methods, P m.request ∧ P m.response := by
  rw [fieldsOfAll, List.forall_mem_append, List.forall_mem_map, List.forall_mem_flatMap]
  refine and_congr_right fun _ => forall₂_congr fun m _ => ?_
  rw [List.forall_mem_cons, List.forall_mem_singleton]

theorem mem_fieldsOfAll_of_record {ν : Type} {records : List (Record ν)} {r : Record ν}
    (h : r ∈ records) (methods : List (Method ν)) : r.fields ∈ fieldsOfAll records methods :=
  List.mem_append_left _ (List.mem_map_of_mem h)

theorem mem_fieldsOfAll_of_method {ν : Type} {methods : List (Method ν)} {m : Method ν}
    (h : m ∈ methods) (direction : Direction) (records : List (Record ν)) :
    m.fields direction ∈ fieldsOfAll records methods := by
  have hside : m.fields direction ∈ [m.request, m.response] := by
    cases direction with
    | request => exact List.mem_cons_self
    | response => exact List.mem_cons_of_mem _ List.mem_cons_self
  exact List.mem_append_right _ (List.mem_flatMap.2 ⟨m, h, hside⟩)

namespace Document

/-- The fields of the records and of both directions of the methods. -/
def fieldLists (d : Document) : List (Fields String) := fieldsOfAll d.records d.methods

/-- The record in the first place names the one in the second place in one of its fields, reached
through unions and objects only. -/
def Holds (d : Document) (i j : Nat) : Prop :=
  ∃ r r' route, d.records[i]? = some r ∧ d.records[j]? = some r' ∧
    (Ty.object r.fields).ByValue route r'.name

/-- The document can be a contract. -/
structure WellFormed (d : Document) : Prop where
  distinct_types : d.typeNames.Nodup
  free_types : ∀ n ∈ d.typeNames, n ∉ reservedNames
  distinct_methods : (d.methods.map (·.name)).Nodup
  distinct_members : ∀ e ∈ d.enumerations, e.members.Distinct
  nonempty_values : ∀ e ∈ d.enumerations, ∀ m ∈ e.members, m.2 ≠ ""
  distinct_fields : ∀ fs ∈ d.fieldLists, ∀ inner : Fields String,
    (Ty.object inner).Part (.object fs) → inner.Distinct
  declared : ∀ fs ∈ d.fieldLists, ∀ n : String, (Ty.named n).Part (.object fs) → n ∈ d.typeNames
  acyclic : ∀ i, ¬ Relation.TransGen d.Holds i i

theorem WellFormed.distinct_records {d : Document} (h : d.WellFormed) :
    (d.records.map (·.name)).Nodup := (List.nodup_append.1 h.distinct_types).2.1

/-- There is nothing to advise about the document. -/
structure WellStyled (d : Document) : Prop where
  camel_types : ∀ n ∈ d.typeNames, InCamelCase n
  snake_methods : ∀ m ∈ d.methods, InSnakeCase m.name
  distinct_values : ∀ e ∈ d.enumerations, (e.members.map (·.2)).Nodup
  apart : ∀ m ∈ d.methods, m.name ∉ d.typeNames
  free_fields : ∀ fs ∈ d.fieldLists, ∀ inner : Fields String,
    (Ty.object inner).Part (.object fs) → ∀ n ∈ inner.names, n ∉ reservedNames
  has_methods : d.methods ≠ []

end Document
end CallContract
