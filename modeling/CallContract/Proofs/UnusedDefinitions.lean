import CallContract.Proofs.Exports
import CallContract.Proofs.SchemaVerdicts

/-!
# Definitions that are not used

Checking a value looks definitions up only under the fragments of references that it meets.  So two
lists of definitions that agree on what a schema refers to, and on what is referred to from there,
give the same violations (`violations_of_agree`).  A definition to which nothing leads but itself
may be left out.
-/

namespace CallContract

/-! ## 1. Parts with the same violations -/

namespace Json

variable {defs defs' ps members : Named Json} {hops hops' : Nat} {v : Json}

theorem anyAccepts_congr {schemas : List Json}
    (h : ∀ s ∈ schemas, s.violations defs hops v = s.violations defs' hops' v) :
    anyAccepts defs hops schemas v = anyAccepts defs' hops' schemas v := by
  induction schemas with
  | nil => rw [anyAccepts, anyAccepts]
  | cons s rest ih =>
    rw [List.forall_mem_cons] at h
    rw [anyAccepts, anyAccepts, h.1, ih h.2]

/-- Two lists of definitions give the same violations of a value when it is come to from outside. -/
def SameViolations (defs defs' : Named Json) (schema v : Json) : Prop :=
  schema.violations defs defs.length v = schema.violations defs' defs'.length v

theorem itemViolations_congr {s : Json} {items : List Json}
    (h : ∀ w ∈ items, SameViolations defs defs' s w) (i : Nat) :
    itemViolations defs s i items = itemViolations defs' s i items := by
  induction items generalizing i with
  | nil => rw [itemViolations, itemViolations]
  | cons w rest ih =>
    rw [List.forall_mem_cons] at h
    have hw : s.violations defs defs.length w = s.violations defs' defs'.length w := h.1
    rw [itemViolations, itemViolations, hw, ih h.2]

theorem propertyViolations_congr
    (h : ∀ p ∈ ps, ∀ n w, (n, w) ∈ members → SameViolations defs defs' p.2 w) :
    propertyViolations defs members ps = propertyViolations defs' members ps := by
  induction ps with
  | nil => rw [propertyViolations, propertyViolations]
  | cons p rest ih =>
    obtain ⟨name, s⟩ := p
    rw [List.forall_mem_cons] at h
    rw [propertyViolations, propertyViolations, ih h.2]
    congr 1
    split
    · rename_i w hw
      exact congrArg _ (h.1 name w (Named.mem_of_lookup hw))
    · rfl

theorem memberViolations_congr
    (h : ∀ p ∈ ps, ∀ n w, (n, w) ∈ members → SameViolations defs defs' p.2 w) :
    memberViolations defs ps members = memberViolations defs' ps members := by
  induction members with
  | nil => rw [memberViolations, memberViolations]
  | cons m rest ih =>
    obtain ⟨name, w⟩ := m
    rw [memberViolations, memberViolations,
      ih fun p hp n w' hw' => h p hp n w' (List.mem_cons_of_mem _ hw')]
    congr 1
    cases hs : ps.lookup name with
    | none => rfl
    | some s => exact congrArg _ (h (name, s) (Named.mem_of_lookup hs) name w List.mem_cons_self)

theorem objectViolations_congr {required : List String} {closed : Bool}
    (h : ∀ w : Json, w.Inside v → ∀ p ∈ ps, SameViolations defs defs' p.2 w) :
    objectViolations defs ps required closed v = objectViolations defs' ps required closed v := by
  cases v with
  | object members =>
    have hparts : ∀ p ∈ ps, ∀ n w, (n, w) ∈ members → SameViolations defs defs' p.2 w :=
      fun p hp n w hw => h w (.member hw) p hp
    rw [objectViolations, objectViolations, memberViolations_congr hparts,
      propertyViolations_congr hparts]
  | null | boolean _ | number _ | string _ | array _ => rfl

end Json

namespace Schema

variable {defs defs' : Named Definition} {v : Json} {ps : Named Schema}

/-! ## 2. Definitions that agree -/

/-- The definitions are the same where they are used, and what is found there uses no others. -/
structure Agree (used : String → Prop) (defs defs' : Named Definition) : Prop where
  same : ∀ g, used g → Fragment.find? defs g = Fragment.find? defs' g
  closed : ∀ g d, used g → Fragment.find? defs g = some d → ∀ g' ∈ d.toJson.references, used g'

theorem forall_references_object {used : String → Prop} {required : List String} {closed : Bool}
    (h : ∀ g ∈ (object ps required closed).toJson.references, used g) :
    ∀ p ∈ ps, ∀ g ∈ p.2.toJson.references, used g := by
  rw [references_object] at h
  exact List.forall_mem_flatMap.1 h

/-- Definitions that agree on what a schema uses give the same violations.  Inside the value this is
known for all schemas; where it stays with the value, the schema gets smaller. -/
theorem violations_of_agree {used : String → Prop} (h : Agree used defs defs') (s : Schema)
    (v : Json) (hs : ∀ g ∈ s.toJson.references, used g) :
    s.violations defs v = s.violations defs' v := by
  induction v using Json.inside_induction generalizing s with
  | step v inside =>
    have hobject {ps : Named Schema} (required : List String) (closed : Bool)
        (hps : ∀ g ∈ (object ps required closed).toJson.references, used g) :
        (object ps required closed).violations defs v =
          (object ps required closed).violations defs' v := by
      rw [violations_object, violations_object]
      apply Json.objectViolations_congr
      intro w hw p hp
      obtain ⟨p, hmem, rfl⟩ := List.mem_map.1 hp
      exact inside w hw p.2 (forall_references_object hps p hmem)
    induction s with
    | basic t => rw [violations_basic, violations_basic]
    | formatted f => rw [violations_formatted, violations_formatted]
    | reference g =>
      have hg : used g := hs g (List.mem_singleton_self g)
      have hsame := h.same g hg
      cases hdef : Fragment.find? defs g with
      | none =>
        rw [hdef] at hsame
        rw [violations_unresolved hdef, violations_unresolved hsame.symm]
      | some d =>
        rw [violations_reference hdef, violations_reference (hsame ▸ hdef)]
        -- A definition is no reference, so its members are checked inside of the value.
        cases d with
        | strings values => rw [Definition.violations_strings, Definition.violations_strings]
        | object ps required closed =>
          rw [Definition.violations_object, Definition.violations_object]
          exact hobject required closed (h.closed g _ hg hdef)
    | anyOf ss ih =>
      rw [references_anyOf, List.forall_mem_flatMap] at hs
      rw [violations_anyOf, violations_anyOf]
      congr 2
      apply Json.anyAccepts_congr
      rw [List.forall_mem_map]
      exact fun s hmem => ih s hmem (hs s hmem)
    | array s _ =>
      rw [references_array] at hs
      rw [violations_array, violations_array]
      cases v with
      | array items => exact Json.itemViolations_congr (fun w hw => inside w (.item hw) s hs) 0
      | null | boolean _ | number _ | string _ | object _ => rfl
    | object ps required closed _ => exact hobject required closed hs

/-! ## 3. One definition less -/

/-- The fragment leads to another name. -/
def LeadsPast (n : String) (g : String) : Prop := ∃ m, m ≠ n ∧ g = Fragment.ofName m

theorem agree_of_unused {n : String} {entry : Definition} {earlier later : Named Definition}
    (h : ∀ d ∈ earlier ++ later, ∀ g ∈ d.2.toJson.references, LeadsPast n g) :
    Agree (LeadsPast n) (earlier ++ (n, entry) :: later) (earlier ++ later) := by
  -- Looking another name up goes past the entry.
  have hsame (m : String) (hm : m ≠ n) :
      (earlier ++ (n, entry) :: later).lookup m = (earlier ++ later).lookup m := by
    rw [List.lookup_append, List.lookup_append, List.lookup_cons, beq_false_of_ne hm]
  constructor
  · intro g hg
    obtain ⟨m, hm, rfl⟩ := hg
    rw [Fragment.find?_ofName, Fragment.find?_ofName, hsame m hm]
  · intro g d hg hd
    obtain ⟨m, hm, rfl⟩ := hg
    rw [Fragment.find?_ofName, hsame m hm] at hd
    exact h (m, d) (Named.mem_of_lookup hd)

end Schema

/-- The second value is the first one without the entry of the name among the definitions. -/
def Json.WithoutDefinition (n : String) (v w : Json) : Prop :=
  ∃ (front earlier later : Named Json) (entry : Json), n ∉ (earlier ++ later).names ∧
    v = .object (front ++ [(Fragment.definitionsKey, .object (earlier ++ (n, entry) :: later))]) ∧
    w = .object (front ++ [(Fragment.definitionsKey, .object (earlier ++ later))])

namespace RootSchema

variable {x x' : RootSchema} {n : String} {entry : Definition}

/-- The members of the JSON form before the definitions. -/
def front (x : RootSchema) : Named Json :=
  [("$schema", .string dialect), ("title", .string x.title)] ++
    Schema.objectMembers (Schema.toJsonProperties x.properties) x.required x.closed

theorem toJson_eq_front (x : RootSchema) : x.toJson = .object (x.front ++
    [(Fragment.definitionsKey, .object (x.definitions.mapValues Definition.toJson))]) := rfl

/-- The second schema is the first one without the entry of the name among the definitions. -/
structure Without (n : String) (entry : Definition) (x x' : RootSchema) : Prop where
  split : ∃ earlier later : Named Definition, x.definitions = earlier ++ (n, entry) :: later ∧
    x'.definitions = earlier ++ later ∧ n ∉ (earlier ++ later).names
  title : x.title = x'.title
  body : x.body = x'.body

theorem Without.toJson (h : x.Without n entry x') : x.toJson.WithoutDefinition n x'.toJson := by
  obtain ⟨earlier, later, hx, hx', hn⟩ := h.split
  obtain ⟨hproperties, hrequired, hclosed⟩ := Schema.object.inj h.body
  have hfront : x'.front = x.front := by
    rw [front, front, h.title, hproperties, hrequired, hclosed]
  refine ⟨x.front, earlier.mapValues Definition.toJson, later.mapValues Definition.toJson,
    entry.toJson, ?_, ?_, ?_⟩
  · rwa [Named.names_append, Named.names_mapValues, Named.names_mapValues, ← Named.names_append]
  · rw [toJson_eq_front, hx, Named.mapValues, List.map_append]
    rfl
  · rw [toJson_eq_front, hx', hfront, Named.mapValues, List.map_append]
    rfl

/-- Without a definition that has no faults a schema has the same faults. -/
theorem Without.findSome?_eq (h : x.Without n entry x') (hentry : entry.toJson.Faultless) :
    x.toJson.schemas.findSome? Json.ownFault? = x'.toJson.schemas.findSome? Json.ownFault? := by
  obtain ⟨earlier, later, hx, hx', -⟩ := h.split
  rw [findSome?_ownFault?, findSome?_ownFault?, h.body, hx, hx', List.flatMap_append,
    List.flatMap_append, List.flatMap_cons, List.findSome?_append, List.findSome?_append,
    List.findSome?_append, hentry.findSome?_eq_none, Option.none_or]

/-- Without a definition to which nothing else leads a value has the same violations. -/
theorem Without.rootViolations_eq (h : x.Without n entry x')
    (hunused : ∀ g ∈ x'.toJson.references, Schema.LeadsPast n g) (v : Json) :
    x.toJson.rootViolations v = x'.toJson.rootViolations v := by
  obtain ⟨earlier, later, hx, hx', -⟩ := h.split
  rw [references_toJson, List.forall_mem_append, List.forall_mem_flatMap, hx'] at hunused
  rw [rootViolations_toJson, rootViolations_toJson, hx, hx', h.body]
  exact Schema.violations_of_agree (Schema.agree_of_unused hunused.2) _ v hunused.1

end RootSchema
end CallContract
