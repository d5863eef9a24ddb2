import CallContract.Proofs.Exports
import CallContract.Proofs.JsonParts
import CallContract.Proofs.SchemaVerdicts

/-!
# Values of types

Which values a resolved type has, said without schemas.  Checking a payload against the exported
schema of a method decides exactly this: a reference is followed to the definition of its own
declaration, and every definition looks into the value before it comes to another reference, so the
argument goes by what is inside of the value and, for one value, by the type.
-/

namespace CallContract

/-! ## 1. Values of types -/

/-- The value is of the scalar kind. -/
def Scalar.Admits : Scalar → Json → Prop
  | .integer, .number n => n.isWhole = true
  | .float, .number _ | .boolean, .boolean _ | .string, .string _ => True
  | .uuid, .string s => Format.uuid.accepts s = true
  | .date, .string s => Format.date.accepts s = true
  | .datetime, .string s => Format.dateTime.accepts s = true
  | _, _ => False

namespace Contract

/-- The value is one of the type.  An object has a member for every field, and if objects are closed
it has no other members. -/
inductive Conforms (c : Contract) (closed : Bool) : Ty DeclId → Json → Prop
  | scalar {s : Scalar} {v : Json} : s.Admits v → Conforms c closed (.scalar s) v
  | enumeration {i : Nat} {e : Enumeration} {s : String} : c.enumeration? i = some e →
      s ∈ e.members.map (·.2) → Conforms c closed (.named (.enumeration i)) (.string s)
  | record {i : Nat} {r : Record DeclId} {v : Json} : c.record? i = some r →
      Conforms c closed (.object r.fields) v → Conforms c closed (.named (.record i)) v
  | null (t : Ty DeclId) : Conforms c closed (.nullable t) .null
  | nullable {t : Ty DeclId} {v : Json} : Conforms c closed t v → Conforms c closed (.nullable t) v
  | array {t : Ty DeclId} {items : List Json} : (∀ v ∈ items, Conforms c closed t v) →
      Conforms c closed (.array t) (.array items)
  | union {ts : List (Ty DeclId)} {t : Ty DeclId} {v : Json} : t ∈ ts → Conforms c closed t v →
      Conforms c closed (.union ts) v
  | object {fs : Fields DeclId} {members : Named Json} :
      (∀ n ∈ fs.names, n ∈ members.names) →
      (∀ n t v, (n, t) ∈ fs → (n, v) ∈ members → Conforms c closed t v) →
      (closed = true → ∀ n ∈ members.names, n ∈ fs.names) →
      Conforms c closed (.object fs) (.object members)

variable {c : Contract} {closed : Bool} {v : Json}

/-! ## 2. Types one by one -/

theorem conforms_scalar_iff {s : Scalar} :
    c.Conforms closed (.scalar s) v ↔ s.Admits v := by
  constructor
  · intro h
    cases h with
    | scalar h => exact h
  · exact .scalar

theorem conforms_enumeration_iff {i : Nat} {e : Enumeration} (he : c.enumeration? i = some e) :
    c.Conforms closed (.named (.enumeration i)) v ↔
      ∃ s ∈ e.members.map (·.2), v = .string s := by
  constructor
  · intro h
    cases h with
    | enumeration he' hs =>
      rw [he] at he'
      cases he'
      exact ⟨_, hs, rfl⟩
  · intro ⟨s, hs, hv⟩
    rw [hv]
    exact .enumeration he hs

theorem conforms_record_iff {i : Nat} {r : Record DeclId} (hr : c.record? i = some r) :
    c.Conforms closed (.named (.record i)) v ↔ c.Conforms closed (.object r.fields) v := by
  constructor
  · intro h
    cases h with
    | record hr' h =>
      rw [hr] at hr'
      cases hr'
      exact h
  · exact .record hr

theorem conforms_nullable_iff {t : Ty DeclId} :
    c.Conforms closed (.nullable t) v ↔ v = .null ∨ c.Conforms closed t v := by
  constructor
  · intro h
    cases h with
    | null => exact .inl rfl
    | nullable h => exact .inr h
  · intro h
    cases h with
    | inl h => exact h ▸ .null t
    | inr h => exact .nullable h

theorem conforms_array_iff {t : Ty DeclId} : c.Conforms closed (.array t) v ↔
    ∃ items, v = .array items ∧ ∀ x ∈ items, c.Conforms closed t x := by
  constructor
  · intro h
    cases h with
    | array h => exact ⟨_, rfl, h⟩
  · intro ⟨items, hv, h⟩
    rw [hv]
    exact .array h

theorem conforms_union_iff {ts : List (Ty DeclId)} :
    c.Conforms closed (.union ts) v ↔ ∃ t ∈ ts, c.Conforms closed t v := by
  constructor
  · intro h
    cases h with
    | union ht h => exact ⟨_, ht, h⟩
  · intro ⟨t, ht, h⟩
    exact .union ht h

theorem conforms_object_iff {fs : Fields DeclId} {members : Named Json} :
    c.Conforms closed (.object fs) (.object members) ↔
      (∀ n ∈ fs.names, n ∈ members.names) ∧
      (∀ n t v, (n, t) ∈ fs → (n, v) ∈ members → c.Conforms closed t v) ∧
      (closed = true → ∀ n ∈ members.names, n ∈ fs.names) := by
  constructor
  · intro h
    cases h with
    | object hpresent hvalues hclosed => exact ⟨hpresent, hvalues, hclosed⟩
  · intro ⟨hpresent, hvalues, hclosed⟩
    exact .object hpresent hvalues hclosed

/-! ## 3. Checking decides conformance -/

theorem violations_scalar_eq_nil_iff {defs : Named Definition} {s : Scalar} :
    s.schema.violations defs v = [] ↔ s.Admits v := by
  cases s with
  | integer | float | boolean | string =>
    unfold Scalar.schema
    rw [Schema.violations_basic_eq_nil_iff]
    cases v <;> simp [Scalar.Admits, BasicType.accepts]
  | uuid | date | datetime =>
    unfold Scalar.schema
    rw [Schema.violations_formatted_eq_nil_iff]
    cases v <;> simp [Scalar.Admits]

/-- For every type that the contract uses, the schema of the type accepts the value exactly if the
value is one of the type. -/
def Decides (c : Contract) (closed : Bool) (v : Json) : Prop :=
  ∀ t, c.Uses t →
    ((c.schemaOf closed t).violations (c.definitions closed) v = [] ↔ c.Conforms closed t v)

namespace Resolved

/-- Objects are decided if the values of their members are. -/
theorem decides_object (hc : c.Resolved) (hv : v.Distinct)
    (hinside : ∀ w : Json, w.Inside v → c.Decides closed w) {fs : Fields DeclId}
    (hfs : c.Uses (.object fs)) :
    (c.schemaOf closed (.object fs)).violations (c.definitions closed) v = [] ↔
      c.Conforms closed (.object fs) v := by
  rw [schemaOf, merge_propertiesOf (hc.distinct_fields hfs)]
  cases v with
  | object members =>
    have hps : (fs.mapValues (c.schemaOf closed)).Distinct := by
      rw [Named.Distinct, Named.names_mapValues]
      exact hc.distinct_fields hfs
    have hvalues : Schema.MembersAccepted (c.definitions closed)
        (fs.mapValues (c.schemaOf closed)) members ↔
        ∀ n t w, (n, t) ∈ fs → (n, w) ∈ members → c.Conforms closed t w := by
      constructor
      · intro h n t w ht hw
        have haccepted := h n _ w (List.mem_map.2 ⟨(n, t), ht, rfl⟩) hw
        exact (hinside w (.member hw) t (hfs.field ht)).1 haccepted
      · intro h n s w hs hw
        obtain ⟨⟨n, t⟩, ht, heq⟩ := List.mem_map.1 hs
        cases heq
        exact (hinside w (.member hw) t (hfs.field ht)).2 (h n t w ht hw)
    rw [Schema.violations_object_eq_nil_iff hps (Json.distinct_object_iff.1 hv).1, hvalues,
      Named.names_mapValues, conforms_object_iff]
  | null | boolean _ | number _ | string _ | array _ =>
    constructor
    · intro h
      obtain ⟨members, heq⟩ := Schema.exists_members_of_violations_object h
      cases heq
    · intro h
      cases h

/-- A reference is decided by the definition of the declaration. -/
theorem decides_named (hc : c.Resolved) (hv : v.Distinct)
    (hinside : ∀ w : Json, w.Inside v → c.Decides closed w) {id : DeclId}
    (hid : c.Uses (.named id)) :
    (c.schemaOf closed (.named id)).violations (c.definitions closed) v = [] ↔
      c.Conforms closed (.named id) v := by
  obtain ⟨definition, hdefinition⟩ := hc.exists_definitionOf? closed hid
  have hfound : Fragment.find? (c.definitions closed) (Fragment.ofName (c.nameOf id)) =
      some definition := by
    rw [Fragment.find?_ofName]
    exact hc.lookup_definitions hdefinition
  rw [schemaOf, Schema.violations_reference hfound]
  cases id with
  | enumeration i =>
    obtain ⟨e, he, heq⟩ := Option.map_eq_some_iff.1 hdefinition
    rw [← heq, conforms_enumeration_iff he]
    unfold Enumeration.definition
    rw [Definition.violations_strings_eq_nil_iff]
    unfold Enumeration.values
    simp only [List.mem_eraseDups]
  | record i =>
    obtain ⟨r, hr, heq⟩ := Option.map_eq_some_iff.1 hdefinition
    rw [← heq, conforms_record_iff hr]
    unfold recordDefinition
    rw [Definition.violations_object]
    exact hc.decides_object hv hinside (uses_record hr)

/-- Checking decides conformance: by induction on the value, which definitions look into, and for
one value by induction on the type, whose alternatives see the same value. -/
theorem decides (hc : c.Resolved) (closed : Bool) (hv : v.Distinct) : c.Decides closed v := by
  induction v using Json.inside_induction with
  | step v ih =>
    have hinside : ∀ w : Json, w.Inside v → c.Decides closed w :=
      fun w hw => ih w hw (hv.inside hw)
    intro t ht
    induction t with
    | scalar s =>
      rw [schemaOf, violations_scalar_eq_nil_iff, conforms_scalar_iff]
    | named id => exact hc.decides_named hv hinside ht
    | nullable t iht =>
      have hnull : (Schema.basic .null).violations (c.definitions closed) v = [] ↔ v = .null := by
        rw [Schema.violations_basic_eq_nil_iff]
        cases v <;> simp [BasicType.accepts]
      have hinner := iht (ht.part (.nullable .self))
      rw [schemaOf, Schema.violations_anyOf_eq_nil_iff, conforms_nullable_iff, ← hinner, ← hnull]
      simp [or_comm]
    -- Items are inside of the value, while alternatives see the value itself.
    | array t iht =>
      rw [schemaOf, Schema.violations_array_eq_nil_iff, conforms_array_iff]
      apply exists_congr
      intro items
      apply and_congr_right
      intro hitems
      apply forall₂_congr
      intro x hx
      exact hinside x (hitems ▸ .item hx) t (ht.part (.array .self))
    | union ts iht =>
      have hone (u) (hu : u ∈ ts) : (c.schemaOf closed u).violations (c.definitions closed) v = [] ↔
          c.Conforms closed u v := iht u hu (ht.part (.union hu .self))
      rw [schemaOf, schemasOf_eq, Schema.violations_anyOf_eq_nil_iff, conforms_union_iff]
      simp only [List.mem_map, exists_exists_and_eq_and]
      apply exists_congr
      intro u
      exact and_congr_right (hone u)
    | object fs iht => exact hc.decides_object hv hinside ht

/-- A declared method of a document that was read accepts what has no violations. -/
theorem checkPayload_eq_ok_iff (hc : c.Resolved) (hread : c.document.WasRead) {m : Method DeclId}
    (hm : m ∈ c.methods) (direction : Direction) (closed : Bool) (payload : Json) :
    c.checkPayload m.name direction closed payload = .ok () ↔
      (c.schemaOf closed (.object (m.fields direction))).violations (c.definitions closed) payload =
        [] := by
  have hvalid := hc.fault?_exportMethod_of_wasRead hread hm direction closed
  have hviolations : (c.exportMethod m direction closed).toJson.rootViolations payload =
      (c.schemaOf closed (.object (m.fields direction))).violations (c.definitions closed)
        payload := RootSchema.rootViolations_toJson _ payload
  unfold checkPayload schema
  rw [hc.export?_name hm direction closed]
  simp only [hvalid, hviolations]
  generalize (c.schemaOf closed (.object (m.fields direction))).violations _ payload = found
  cases found <;> simp

end Resolved

/-! ## 4. Payloads -/

/-- **A payload is accepted exactly if it conforms**: a declared method of a document that was read
accepts a payload that repeats no name if and only if the payload is one of the object type that has
the fields of the method for that direction. -/
theorem accepted_iff_conforms {d : Document} {s : Strictness} {c : Contract} (hread : d.WasRead)
    (h : d.validate s = .ok c) {m : Method DeclId} (hm : m ∈ c.methods) (direction : Direction)
    (closed : Bool) {payload : Json} (hpayload : payload.Distinct) :
    c.checkPayload m.name direction closed payload = .ok () ↔
      c.Conforms closed (.object (m.fields direction)) payload := by
  obtain ⟨rfl, hc⟩ := resolved_of_validate h
  rw [hc.checkPayload_eq_ok_iff hread hm]
  exact hc.decides closed hpayload _ (uses_method hm direction)

/-- A document of trees, in which a record goes on in an array of itself. -/
def trees : Document where
  enumerations := [⟨"Color", [("GREEN", "green")]⟩]
  records := [⟨"Tree", [("color", .named "Color"),
    ("label", .union [.scalar .date, .scalar .string]), ("children", .array (.named "Tree"))]⟩]
  methods := [⟨"plant", [("tree", .nullable (.named "Tree"))], []⟩]

/-- The contract of `trees`. -/
def treesContract : Contract where
  document := trees
  scope := ⟨[("Color", .enumeration 0), ("Tree", .record 0)]⟩
  records := [⟨"Tree", [("color", .named (.enumeration 0)),
    ("label", .union [.scalar .date, .scalar .string]), ("children", .array (.named (.record 0)))]⟩]
  methods := [⟨"plant", [("tree", .nullable (.named (.record 0)))], []⟩]
  warnings := []

/-- A green tree with these children. -/
def greenTree (children : List Json) : Json :=
  .object [("color", .string "green"), ("label", .string ""), ("children", .array children)]

theorem conforms_greenTree {children : List Json}
    (h : ∀ v ∈ children, treesContract.Conforms closed (.named (.record 0)) v) :
    treesContract.Conforms closed (.named (.record 0)) (greenTree children) := by
  have hcolor : treesContract.Conforms closed (.named (.enumeration 0)) (.string "green") :=
    .enumeration rfl List.mem_cons_self
  have hlabel : treesContract.Conforms closed (.union [.scalar .date, .scalar .string])
      (.string "") := .union (List.mem_cons_of_mem _ List.mem_cons_self) (.scalar trivial)
  refine .record rfl (.object (fun n hn => hn) ?_ fun _ n hn => hn)
  intro n t v ht hv
  simp only [List.mem_cons, List.not_mem_nil, or_false, Prod.mk.injEq] at ht hv
  -- The names are distinct, so the value is that of the member with the name of the field.
  obtain ⟨rfl, rfl⟩ | ⟨rfl, rfl⟩ | ⟨rfl, rfl⟩ := ht
  · have hgreen : v = .string "green" := by simpa using hv
    exact hgreen ▸ hcolor
  · have hempty : v = .string "" := by simpa using hv
    exact hempty ▸ hlabel
  · have hchildren : v = .array children := by simpa using hv
    exact hchildren ▸ .array h

theorem accepted_iff_conforms_trees : trees.WasRead ∧
    trees.validate .lenient = .ok treesContract ∧
    (Json.object [("tree", greenTree [greenTree []])]).Distinct ∧
    treesContract.checkPayload "plant" .request true
      (.object [("tree", greenTree [greenTree []])]) = .ok () := by
  have hread : trees.WasRead := .inr ⟨trees.toJson, by decide +kernel⟩
  have hvalid : trees.validate .lenient = .ok treesContract := by decide +kernel
  have hdistinct : (Json.object [("tree", greenTree [greenTree []])]).Distinct := by
    simp [greenTree, Json.Distinct, Json.DistinctItems, Json.DistinctMembers, Named.Distinct]
  have hconforms : treesContract.Conforms true
      (.object [("tree", .nullable (.named (.record 0)))])
      (.object [("tree", greenTree [greenTree []])]) := by
    refine .object (fun n hn => hn) ?_ fun _ n hn => hn
    intro n t v ht hv
    rw [List.mem_singleton] at ht hv
    cases ht
    cases hv
    apply Conforms.nullable
    apply conforms_greenTree
    rw [List.forall_mem_singleton]
    apply conforms_greenTree
    intro v hv
    cases hv
  have haccepted := accepted_iff_conforms hread hvalid (m := ⟨"plant", _, _⟩) List.mem_cons_self
    .request true hdistinct
  exact ⟨hread, hvalid, hdistinct, haccepted.2 hconforms⟩

end Contract
end CallContract
