import CallContract.Schema.Format
import CallContract.Schema.Violation

/-!
# Checking values against schemas

A schema in its JSON form is checked keyword by keyword, in the order in which they are written, and
all violations of a value are collected. Only `properties` and `additionalProperties` look at each
other: where nothing else is admitted, members are checked in their own order. A choice is violated
as a whole if no alternative accepts the value.

References are followed to the definitions of the whole schema. Without going inside of the value no
more of them are followed than there are definitions: any further one would come back to the same
definition and lead nowhere.
-/

namespace CallContract

theorem Named.sizeOf_lt_of_lookup {α : Type} [SizeOf α] {name : String} {x : α} {entries : Named α}
    (h : entries.lookup name = some x) : sizeOf x < sizeOf entries := by
  induction entries with
  | nil => simp at h
  | cons e rest ih =>
    obtain ⟨n, y⟩ := e
    simp only [List.lookup_cons] at h
    split at h
    · simp only [Option.some.injEq] at h
      subst h
      simp only [List.cons.sizeOf_spec, Prod.mk.sizeOf_spec]
      omega
    · have := ih h
      simp only [List.cons.sizeOf_spec]
      omega

namespace Json

def typeViolations (name : String) (v : Json) : List Violation :=
  match BasicType.ofName? name with
  | some t => if t.accepts v then [] else [⟨[], .wrongType v t⟩]
  | none => [⟨[], .invalid (.badArgument .type (.string name))⟩]

/-- The violations of a format; it says nothing about values that are no strings. A name that is not
known says nothing at all. -/
def formatViolations (name : String) (v : Json) : List Violation :=
  match Format.ofName? name, v with
  | some f, .string s => if f.accepts s then [] else [⟨[], .badFormat (.string s) f⟩]
  | _, _ => []

/-- The required names that no member has. -/
def missing (required : List String) (members : Named Json) : List Violation :=
  (required.filter fun name => !members.names.contains name).map fun name => ⟨[], .missing name⟩

/-- The members that no property speaks of, all in one violation. -/
def unexpected (ps members : Named Json) : List Violation :=
  match members.names.filter fun name => !ps.names.contains name with
  | [] => []
  | names => [⟨[], .unexpected names⟩]

/-- Do the members of a schema admit no members but those of its properties? -/
def isClosed (keywords : Named Json) : Bool :=
  keywords.lookup Keyword.additionalProperties.name = some (.boolean false)

mutual

/-- The violations of a schema; so many references may be followed before going inside of the value
(`hops`). -/
def violations (defs : Named Json) (hops : Nat) (schema v : Json) : List Violation :=
  match schema with
  | .object keywords => keywordsViolations defs hops keywords keywords v
  | schema => [⟨[], .invalid (.notObject schema)⟩]
termination_by (sizeOf v, hops, sizeOf schema)

/-- The violations of some of the members of a schema; `siblings` are all of them. -/
def keywordsViolations (defs : Named Json) (hops : Nat) (siblings keywords : Named Json)
    (v : Json) : List Violation :=
  match keywords with
  | [] => []
  | (name, argument) :: rest =>
    (match Keyword.ofName? name with
      | some k => keywordViolations defs hops siblings k argument v
      | none => []) ++ keywordsViolations defs hops siblings rest v
termination_by (sizeOf v, hops, sizeOf keywords)

def keywordViolations (defs : Named Json) (hops : Nat) (siblings : Named Json) (k : Keyword)
    (argument v : Json) : List Violation :=
  match k, argument with
  | .type, .string name => typeViolations name v
  | .format, .string name => formatViolations name v
  | .enum, .array values => if v ∈ values then [] else [⟨[], .notAmong v values⟩]
  | .reference, .string fragment =>
    match hops, Fragment.find? defs fragment with
    | hops + 1, some schema => violations defs hops schema v
    | _, _ => [⟨[], .invalid (.unresolved fragment)⟩]
  | .anyOf, .array schemas =>
    if anyAccepts defs hops schemas v then [] else [⟨[], .noAlternative v⟩]
  | .items, schema =>
    match v with
    | .array items => itemViolations defs schema 0 items
    | _ => []
  | .properties, .object ps =>
    match v with
    | .object members => if isClosed siblings then [] else propertyViolations defs members ps
    | _ => []
  | .required, .array names =>
    match v with
    | .object members => missing (names.filterMap string?) members
    | _ => []
  | .additionalProperties, .boolean false =>
    match v with
    | .object members =>
      let ps := table siblings .properties
      memberViolations defs ps members ++ unexpected ps members
    | _ => []
  | .additionalProperties, .boolean true | .definitions, .object _ => []
  | k, argument => [⟨[], .invalid (.badArgument k argument)⟩]
termination_by (sizeOf v, hops, sizeOf argument)

/-- The violations of the members that properties speak of, in the order of the properties. -/
def propertyViolations (defs members : Named Json) : Named Json → List Violation
  | [] => []
  | (name, schema) :: rest =>
    (match h : members.lookup name with
      | some v =>
        have := Named.sizeOf_lt_of_lookup h
        (violations defs defs.length schema v).map (.below name)
      | none => []) ++ propertyViolations defs members rest
termination_by ps => (sizeOf members, 0, sizeOf ps)

/-- The violations of the members that properties speak of, in the order of the members. -/
def memberViolations (defs ps : Named Json) : Named Json → List Violation
  | [] => []
  | (name, v) :: rest =>
    (match ps.lookup name with
      | some schema => (violations defs defs.length schema v).map (.below name)
      | none => []) ++ memberViolations defs ps rest
termination_by members => (sizeOf members, 0, 0)

/-- The violations of the items from place `i` on. -/
def itemViolations (defs : Named Json) (schema : Json) (i : Nat) : List Json → List Violation
  | [] => []
  | v :: rest =>
    (violations defs defs.length schema v).map (.below (toString i)) ++
      itemViolations defs schema (i + 1) rest
termination_by items => (sizeOf items, 0, 0)

/-- Does one of the schemas accept the value? -/
def anyAccepts (defs : Named Json) (hops : Nat) (schemas : List Json) (v : Json) : Bool :=
  match schemas with
  | [] => false
  | schema :: rest => (violations defs hops schema v).isEmpty || anyAccepts defs hops rest v
termination_by (sizeOf v, hops, sizeOf schemas)

end

/-- The violations of a whole schema, with the definitions that it keeps. -/
def rootViolations (schema v : Json) : List Violation :=
  violations schema.definitions schema.definitions.length schema v

end Json
end CallContract
