import CallContract.Proofs.Exports

/-!
# Closed schemas

A closed export is the open one in which every object is closed.  Schemas stand in a schema as the
values of `properties` and `$defs`, as `items`, and in `anyOf`; a property that has the name of a
keyword is at none of these places.  Every object at such a place belongs to fields that are
exported, and lists them in order as properties and as required names; nothing but whether it is
closed depends on the kind of export.
-/

namespace CallContract

/-! ## 1. Schemas in schemas -/

namespace Json

/-- The first value stands directly in the second one, at a place for schemas: as a property, as a
definition, as the items or as an alternative. -/
inductive ChildSchema (u : Json) : Json → Prop
  | property {members props : Named Json} {k : String} : ("properties", .object props) ∈ members →
      (k, u) ∈ props → ChildSchema u (.object members)
  | definition {members defs : Named Json} {k : String} : ("$defs", .object defs) ∈ members →
      (k, u) ∈ defs → ChildSchema u (.object members)
  | items {members : Named Json} : ("items", u) ∈ members → ChildSchema u (.object members)
  | alternative {members : Named Json} {vs : List Json} : ("anyOf", .array vs) ∈ members →
      u ∈ vs → ChildSchema u (.object members)

/-- The first value is the second one, or a schema at any depth in it. -/
inductive Subschema (u : Json) : Json → Prop
  | self : Subschema u u
  | child {v w : Json} : Subschema u w → w.ChildSchema v → Subschema u v

mutual

/-- The schema with all objects open: `"additionalProperties": false` is left out at every place for
schemas, and nothing else is changed. -/
def opened : Json → Json
  | .object members => .object (openedMembers members)
  | v => v

def openedMembers : Named Json → Named Json
  | [] => []
  | (k, v) :: rest =>
    if k = "additionalProperties" ∧ v = .boolean false then openedMembers rest
    else if k = "properties" ∨ k = "$defs" then (k, openedTable v) :: openedMembers rest
    else if k = "items" then (k, v.opened) :: openedMembers rest
    else if k = "anyOf" then (k, openedChoice v) :: openedMembers rest
    else (k, v) :: openedMembers rest

/-- The schemas under names. -/
def openedTable : Json → Json
  | .object members => .object (openedValues members)
  | v => v

def openedValues : Named Json → Named Json
  | [] => []
  | (k, v) :: rest => (k, v.opened) :: openedValues rest

/-- The schemas of a choice. -/
def openedChoice : Json → Json
  | .array vs => .array (openedItems vs)
  | v => v

def openedItems : List Json → List Json
  | [] => []
  | v :: rest => v.opened :: openedItems rest

end

theorem openedValues_eq (members : Named Json) :
    openedValues members = members.mapValues opened := by
  induction members with
  | nil => rfl
  | cons m rest ih =>
    rw [openedValues, ih]
    rfl

theorem openedItems_eq (vs : List Json) : openedItems vs = vs.map opened := by
  induction vs with
  | nil => rfl
  | cons v rest ih => rw [openedItems, ih, List.map_cons]

theorem subschema_iff {u v : Json} :
    u.Subschema v ↔ u = v ∨ ∃ w, u.Subschema w ∧ w.ChildSchema v := by
  constructor
  · intro h
    cases h with
    | self => exact .inl rfl
    | child h hw => exact .inr ⟨_, h, hw⟩
  · intro h
    cases h with
    | inl heq => exact heq ▸ .self
    | inr h =>
      have ⟨w, h, hw⟩ := h
      exact .child h hw

theorem Subschema.eq_of_no_child {u v : Json} (h : u.Subschema v)
    (hv : ∀ w : Json, ¬w.ChildSchema v) : u = v := by
  cases h with
  | self => rfl
  | child _ hw => exact absurd hw (hv _)

theorem childSchema_object_iff {u : Json} {members : Named Json} :
    u.ChildSchema (.object members) ↔
      (∃ props, ("properties", .object props) ∈ members ∧ ∃ k, (k, u) ∈ props) ∨
      (∃ defs, ("$defs", .object defs) ∈ members ∧ ∃ k, (k, u) ∈ defs) ∨
      ("items", u) ∈ members ∨ ∃ vs, ("anyOf", .array vs) ∈ members ∧ u ∈ vs := by
  constructor
  · intro h
    cases h with
    | property hprops hu => exact .inl ⟨_, hprops, _, hu⟩
    | definition hdefs hu => exact .inr (.inl ⟨_, hdefs, _, hu⟩)
    | items hu => exact .inr (.inr (.inl hu))
    | alternative hvs hu => exact .inr (.inr (.inr ⟨_, hvs, hu⟩))
  · intro h
    rcases h with ⟨props, hprops, k, hu⟩ | ⟨defs, hdefs, k, hu⟩ | hu | ⟨vs, hvs, hu⟩
    · exact .property hprops hu
    · exact .definition hdefs hu
    · exact .items hu
    · exact .alternative hvs hu

theorem ChildSchema.mono {u : Json} {a b : Named Json} (h : u.ChildSchema (.object a))
    (hab : a ⊆ b) : u.ChildSchema (.object b) := by
  cases h with
  | property hprops hu => exact .property (hab hprops) hu
  | definition hdefs hu => exact .definition (hab hdefs) hu
  | items hu => exact .items (hab hu)
  | alternative hvs hu => exact .alternative (hab hvs) hu

/-- Each place for schemas is a member, so members can be taken one after the other. -/
theorem childSchema_append_iff {u : Json} {a b : Named Json} :
    u.ChildSchema (.object (a ++ b)) ↔
      u.ChildSchema (.object a) ∨ u.ChildSchema (.object b) := by
  constructor
  · intro h
    cases h with
    | property hprops hu => exact (List.mem_append.1 hprops).imp (.property · hu) (.property · hu)
    | definition hdefs hu =>
      exact (List.mem_append.1 hdefs).imp (.definition · hu) (.definition · hu)
    | items hu => exact (List.mem_append.1 hu).imp .items .items
    | alternative hvs hu =>
      exact (List.mem_append.1 hvs).imp (.alternative · hu) (.alternative · hu)
  · intro h
    cases h with
    | inl h => exact h.mono (List.subset_append_left a b)
    | inr h => exact h.mono (List.subset_append_right a b)

/-- Every member is opened or left out by itself. -/
theorem openedMembers_append (a b : Named Json) :
    openedMembers (a ++ b) = openedMembers a ++ openedMembers b := by
  induction a with
  | nil => rfl
  | cons m rest ih =>
    simp only [List.cons_append, openedMembers, ih]
    split_ifs <;> rfl

end Json

namespace Schema

/-- An object schema is opened by opening its properties and leaving one member out. -/
theorem openedMembers_objectMembers (props : Named Json) (required : List String) (closed : Bool) :
    Json.openedMembers (objectMembers props required closed) =
      objectMembers (props.mapValues Json.opened) required false := by
  rw [← Json.openedValues_eq]
  cases closed <;> simp [objectMembers, typeMember, Json.openedMembers, Json.openedTable]

theorem childSchema_objectMembers_iff {props : Named Json} {required : List String} {closed : Bool}
    {u : Json} :
    u.ChildSchema (.object (objectMembers props required closed)) ↔ u ∈ props.map (·.2) := by
  rw [Json.childSchema_object_iff]
  cases closed <;> simp [objectMembers, typeMember]

end Schema

namespace Contract

variable {c : Contract} {closed : Bool} {t : Ty DeclId} {fs : Fields DeclId} {u w : Json}

/-! ## 2. Schemas of types -/

/-- The properties of an object schema with these fields. -/
def propertiesJson (c : Contract) (closed : Bool) (fs : Fields DeclId) : Named Json :=
  fs.mapValues fun t => (c.schemaOf closed t).toJson

theorem map_snd_propertiesJson (c : Contract) (closed : Bool) (fs : Fields DeclId) :
    (c.propertiesJson closed fs).map (·.2) =
      (fs.map (·.2)).map fun t => (c.schemaOf closed t).toJson := by
  simp [propertiesJson, Named.mapValues]

/-- Where no field is repeated, the properties are those of all fields in order. -/
theorem toJsonProperties_propertiesOf (h : fs.Distinct) :
    Schema.toJsonProperties (Named.merge (c.propertiesOf closed fs)) =
      c.propertiesJson closed fs := by
  rw [Schema.toJsonProperties_eq, merge_propertiesOf h]
  simp [propertiesJson, Named.mapValues, Function.comp_def]

theorem toJson_schemaOf_object (h : fs.Distinct) : (c.schemaOf closed (.object fs)).toJson =
    .object (Schema.objectMembers (c.propertiesJson closed fs) fs.names closed) := by
  rw [schemaOf, Schema.toJson, toJsonProperties_propertiesOf h]

theorem toJson_schemaOf_union {ts : List (Ty DeclId)} : (c.schemaOf closed (.union ts)).toJson =
    .object [("anyOf", .array (ts.map fun t => (c.schemaOf closed t).toJson))] := by
  rw [schemaOf, schemasOf_eq, Schema.toJson, Schema.toJsonList_eq, List.map_map]
  rfl

theorem mapValues_opened_propertiesJson (h : ∀ k t, (k, t) ∈ fs →
      (c.schemaOf closed t).toJson.opened = (c.schemaOf false t).toJson) :
    (c.propertiesJson closed fs).mapValues Json.opened = c.propertiesJson false fs := by
  unfold propertiesJson Named.mapValues
  rw [List.map_map]
  exact List.map_congr_left fun f hf => congrArg _ (h f.1 f.2 hf)

namespace Resolved

/-- The schema of a type is opened by making it for open objects. -/
theorem opened_schemaOf (hc : c.Resolved) (closed : Bool) (h : c.Uses t) :
    (c.schemaOf closed t).toJson.opened = (c.schemaOf false t).toJson := by
  induction t with
  | scalar s => cases s <;> rfl
  | named id => rfl
  | nullable t ih =>
    have ht := ih (h.part (.nullable .self))
    show Json.object [("anyOf", .array [(c.schemaOf closed t).toJson.opened, _])] = _
    rw [ht]
    rfl
  | array t ih =>
    have ht := ih (h.part (.array .self))
    show Json.object [_, ("items", (c.schemaOf closed t).toJson.opened)] = _
    rw [ht]
    rfl
  | union ts ih =>
    rw [toJson_schemaOf_union, toJson_schemaOf_union]
    show Json.object [("anyOf", .array (Json.openedItems _))] = _
    have hts : (ts.map fun t => (c.schemaOf closed t).toJson).map Json.opened =
        ts.map fun t => (c.schemaOf false t).toJson := by
      rw [List.map_map]
      exact List.map_congr_left fun t ht => ih t ht (h.part (.union ht .self))
    rw [Json.openedItems_eq, hts]
  | object fs ih =>
    have hd := hc.distinct_fields h
    rw [toJson_schemaOf_object hd, toJson_schemaOf_object hd, Json.opened,
      Schema.openedMembers_objectMembers,
      mapValues_opened_propertiesJson fun k t ht => ih k t ht (h.field ht)]

end Resolved
end Contract

/-! ## 3. Schemas in schemas of types -/

namespace Ty

variable {ν : Type}

/-- The types directly in the type. -/
def children : Ty ν → List (Ty ν)
  | .scalar _ | .named _ => []
  | .nullable t | .array t => [t]
  | .union ts => ts
  | .object fs => fs.map (·.2)

theorem part_of_mem_children {t u w : Ty ν} (ht : t ∈ w.children) (h : u.Part t) : u.Part w := by
  cases w with
  | scalar _ | named _ => cases ht
  | nullable _ =>
    rw [List.mem_singleton.1 ht] at h
    exact .nullable h
  | array _ =>
    rw [List.mem_singleton.1 ht] at h
    exact .array h
  | union _ => exact .union ht h
  | object fs =>
    have ⟨f, hf, heq⟩ := List.mem_map.1 ht
    rw [← heq] at h
    exact .object hf h

theorem Part.eq_or_child {u w : Ty ν} (h : u.Part w) : u = w ∨ ∃ t ∈ w.children, u.Part t := by
  cases h with
  | self => exact .inl rfl
  | nullable h | array h => exact .inr ⟨_, List.mem_cons_self, h⟩
  | union ht h => exact .inr ⟨_, ht, h⟩
  | object hf h => exact .inr ⟨_, List.mem_map_of_mem hf, h⟩

/-- Induction over a type, with the hypothesis for all types directly in it. -/
theorem children_induction {P : Ty ν → Prop} (step : ∀ t, (∀ u ∈ t.children, P u) → P t)
    (t : Ty ν) : P t := by
  induction t with
  | scalar _ | named _ =>
    apply step
    intro u hu
    cases hu
  | nullable t ih | array t ih =>
    apply step
    intro u hu
    rw [List.mem_singleton.1 hu]
    exact ih
  | union ts ih => exact step _ ih
  | object fs ih =>
    apply step
    intro u hu
    have ⟨f, hf, heq⟩ := List.mem_map.1 hu
    exact heq ▸ ih f.1 f.2 hf

end Ty

namespace Contract

variable {c : Contract} {closed : Bool} {t : Ty DeclId} {fs : Fields DeclId} {u w : Json}

/-- The schema that only null fits. -/
def nullJson : Json := (Schema.basic .null).toJson

theorem not_childSchema_nullJson : ¬w.ChildSchema nullJson := by
  simp [nullJson, Schema.toJson, Schema.typeMember, Json.childSchema_object_iff]

theorem not_childSchema_definition (e : Enumeration) : ¬w.ChildSchema e.definition.toJson := by
  simp [Enumeration.definition, Definition.toJson, Schema.typeMember, Json.childSchema_object_iff]

namespace Resolved

/-- The schemas directly in the schema of a type are those of the types directly in it, and null if
the type is nullable. -/
theorem childSchema_schemaOf_iff (hc : c.Resolved) (h : c.Uses t) :
    w.ChildSchema (c.schemaOf closed t).toJson ↔
      (∃ t' ∈ t.children, w = (c.schemaOf closed t').toJson) ∨
        (∃ inner, t = .nullable inner) ∧ w = nullJson := by
  cases t with
  | scalar s =>
    cases s <;> simp [schemaOf, Scalar.schema, Schema.toJson, Schema.typeMember, Ty.children,
      Json.childSchema_object_iff]
  | named id => simp [schemaOf, Schema.toJson, Ty.children, Json.childSchema_object_iff]
  | nullable t =>
    simp [schemaOf, Schema.toJson, Schema.toJsonList, Ty.children, Json.childSchema_object_iff,
      nullJson]
  | array t =>
    simp [schemaOf, Schema.toJson, Schema.typeMember, Ty.children, Json.childSchema_object_iff]
  | union ts =>
    simp [toJson_schemaOf_union, Ty.children, Json.childSchema_object_iff, eq_comm]
  | object fs =>
    rw [toJson_schemaOf_object (hc.distinct_fields h), Schema.childSchema_objectMembers_iff,
      map_snd_propertiesJson, List.mem_map]
    simp [Ty.children, eq_comm]

/-- What is in the schema of a type is the schema of a part of the type, or null. -/
theorem part_of_subschema (hc : c.Resolved) (h : c.Uses t)
    (hu : u.Subschema (c.schemaOf closed t).toJson) :
    u = nullJson ∨ ∃ p : Ty DeclId, p.Part t ∧ u = (c.schemaOf closed p).toJson := by
  induction t using Ty.children_induction with
  | step t ih =>
    cases Json.subschema_iff.1 hu with
    | inl heq => exact .inr ⟨t, .self, heq⟩
    | inr hu =>
      have ⟨w, hu, hw⟩ := hu
      cases (hc.childSchema_schemaOf_iff h).1 hw with
      | inl hw =>
        -- The schema is in that of a type directly in this one.
        have ⟨t', ht', heq⟩ := hw
        rw [heq] at hu
        have huses := h.part (Ty.part_of_mem_children ht' .self)
        refine (ih t' ht' huses hu).imp_right fun hp => ?_
        have ⟨p, hp, heq⟩ := hp
        exact ⟨p, Ty.part_of_mem_children ht' hp, heq⟩
      | inr hw =>
        rw [hw.2] at hu
        exact .inl (hu.eq_of_no_child fun _ => not_childSchema_nullJson)

/-- The schema of a part of a type is in the schema of the type. -/
theorem subschema_of_part (hc : c.Resolved) (h : c.Uses t) {p : Ty DeclId} (hp : p.Part t) :
    (c.schemaOf closed p).toJson.Subschema (c.schemaOf closed t).toJson := by
  induction t using Ty.children_induction with
  | step t ih =>
    cases hp.eq_or_child with
    | inl heq => exact heq ▸ .self
    | inr hp =>
      have ⟨t', ht', hp⟩ := hp
      have huses := h.part (Ty.part_of_mem_children ht' .self)
      exact .child (ih t' ht' huses hp) ((hc.childSchema_schemaOf_iff h).2 (.inl ⟨t', ht', rfl⟩))

end Resolved

/-! ## 4. Object schemas -/

/-- The value is the schema of an object with these fields, in order, and closed if asked for. -/
structure DescribesObject (c : Contract) (closed : Bool) (fs : Fields DeclId) (v : Json) :
    Prop where
  distinct : fs.Distinct
  type : v.at? ["type"] = some (.string "object")
  properties : v.at? ["properties"] =
    some (.object (fs.mapValues fun t => (c.schemaOf closed t).toJson))
  required : v.at? ["required"] = some (.array (fs.names.map .string))
  additional : v.at? ["additionalProperties"] = if closed then some (.boolean false) else none

/-- The value is a schema of something else. -/
structure DescribesOther (v : Json) : Prop where
  type : v.at? ["type"] ≠ some (.string "object")
  additional : v.at? ["additionalProperties"] = none

theorem describesObject_schemaOf (h : fs.Distinct) :
    c.DescribesObject closed fs (c.schemaOf closed (.object fs)).toJson := by
  rw [toJson_schemaOf_object h]
  cases closed <;> exact ⟨h, rfl, rfl, rfl, rfl⟩

theorem describesOther_typed {v : Json} {word : String} (hword : word ≠ "object")
    (htype : v.at? ["type"] = some (.string word)) (hopen : v.at? ["additionalProperties"] = none) :
    DescribesOther v where
  type := by
    rw [htype]
    intro heq
    exact hword (Json.string.inj (Option.some.inj heq))
  additional := hopen

theorem describesOther_nullJson : DescribesOther nullJson :=
  describesOther_typed (by decide : "null" ≠ "object") rfl rfl

theorem describesOther_definition (e : Enumeration) : DescribesOther e.definition.toJson :=
  describesOther_typed (by decide : "string" ≠ "object") rfl rfl

theorem describesOther_schemaOf (h : ∀ fs, t ≠ .object fs) :
    DescribesOther (c.schemaOf closed t).toJson := by
  cases t with
  | scalar s =>
    cases s with
    | integer => exact describesOther_typed (by decide : "integer" ≠ "object") rfl rfl
    | float => exact describesOther_typed (by decide : "number" ≠ "object") rfl rfl
    | boolean => exact describesOther_typed (by decide : "boolean" ≠ "object") rfl rfl
    | string | uuid | date | datetime =>
      exact describesOther_typed (by decide : "string" ≠ "object") rfl rfl
  | array t => exact describesOther_typed (by decide : "array" ≠ "object") rfl rfl
  | named _ | nullable _ | union _ => exact ⟨nofun, rfl⟩
  | object fs => exact absurd rfl (h fs)

/-! ## 5. Exports -/

/-- The type is an object of the exported fields of a method or of the fields of a record, or lies
in such an object. -/
def Exports (c : Contract) (m : Method DeclId) (direction : Direction) (t : Ty DeclId) : Prop :=
  t.Part (.object (m.fields direction)) ∨ ∃ r ∈ c.records, t.Part (.object r.fields)

/-- The forms of the definitions of all enumerations and then all records. -/
def definitionsJson (c : Contract) (closed : Bool) : Named Json :=
  c.document.enumerations.map (fun e => (e.name, e.definition.toJson)) ++
    c.records.map fun r => (r.name, (c.schemaOf closed (.object r.fields)).toJson)

/-- What an exported schema has before its type. -/
def headJson (m : Method DeclId) (direction : Direction) : Named Json :=
  [("$schema", .string RootSchema.dialect), ("title", .string (m.name ++ "." ++ direction.key))]

variable {m : Method DeclId} {direction : Direction}

namespace Resolved

theorem toJson_exportMethod (hc : c.Resolved) (hm : m ∈ c.methods) :
    (c.exportMethod m direction closed).toJson = .object (headJson m direction ++
      Schema.objectMembers (c.propertiesJson closed (m.fields direction))
        (m.fields direction).names closed ++ [("$defs", .object (c.definitionsJson closed))]) := by
  have hd := hc.distinct_fields (uses_method hm direction)
  have hdefinitions : (c.definitions closed).mapValues Definition.toJson =
      c.definitionsJson closed := hc.mapValues_definitions closed
  unfold RootSchema.toJson exportMethod headJson
  dsimp only
  rw [toJsonProperties_propertiesOf hd, hdefinitions]

/-- An export is opened by exporting open objects. -/
theorem opened_exportMethod (hc : c.Resolved) (hm : m ∈ c.methods) (closed : Bool) :
    (c.exportMethod m direction closed).toJson.opened =
      (c.exportMethod m direction false).toJson := by
  have hhead : Json.openedMembers (headJson m direction) = headJson m direction := rfl
  have huses := uses_method hm direction
  have hproperties : (c.propertiesJson closed (m.fields direction)).mapValues Json.opened =
      c.propertiesJson false (m.fields direction) :=
    mapValues_opened_propertiesJson fun _ _ ht => hc.opened_schemaOf closed (huses.field ht)
  have hdefinitions : (c.definitionsJson closed).mapValues Json.opened =
      c.definitionsJson false := by
    unfold definitionsJson Named.mapValues
    rw [List.map_append, List.map_map, List.map_map]
    congr 1
    apply List.map_congr_left
    intro r hr
    exact congrArg _ (hc.opened_schemaOf closed (uses_of_mem_records hr))
  have htable : Json.openedMembers [("$defs", .object (c.definitionsJson closed))] =
      [("$defs", .object (c.definitionsJson false))] := by
    rw [← hdefinitions, ← Json.openedValues_eq]
    rfl
  rw [hc.toJson_exportMethod hm, hc.toJson_exportMethod hm, Json.opened, Json.openedMembers_append,
    Json.openedMembers_append, hhead, Schema.openedMembers_objectMembers, hproperties, htable]

/-- The schemas directly in an export are its properties and its definitions. -/
theorem childSchema_exportMethod_iff (hc : c.Resolved) (hm : m ∈ c.methods) :
    w.ChildSchema (c.exportMethod m direction closed).toJson ↔
      w.ChildSchema (c.schemaOf closed (.object (m.fields direction))).toJson ∨
        w ∈ (c.definitionsJson closed).map (·.2) := by
  have hhead : ¬w.ChildSchema (.object (headJson m direction)) := by
    simp [headJson, Json.childSchema_object_iff]
  have htable : w.ChildSchema (.object [("$defs", .object (c.definitionsJson closed))]) ↔
      w ∈ (c.definitionsJson closed).map (·.2) := by
    simp [Json.childSchema_object_iff]
  rw [hc.toJson_exportMethod hm, Json.childSchema_append_iff, Json.childSchema_append_iff, htable,
    toJson_schemaOf_object (hc.distinct_fields (uses_method hm direction)), or_iff_right hhead]

/-- What is in an export but the export itself is null, the definition of an enumeration, or the
schema of an exported type. -/
theorem exports_of_subschema (hc : c.Resolved) (hm : m ∈ c.methods)
    (hu : u.Subschema (c.exportMethod m direction closed).toJson) :
    u = (c.exportMethod m direction closed).toJson ∨ u = nullJson ∨
      (∃ e : Enumeration, u = e.definition.toJson) ∨
      ∃ t, c.Exports m direction t ∧ u = (c.schemaOf closed t).toJson := by
  cases Json.subschema_iff.1 hu with
  | inl heq => exact .inl heq
  | inr hu =>
    have ⟨w, hu, hw⟩ := hu
    right
    cases (hc.childSchema_exportMethod_iff hm).1 hw with
    | inl hw =>
      -- The export has the properties of the whole object, so they are schemas in its schema, too.
      have hroot := hc.part_of_subschema (uses_method hm direction) (.child hu hw)
      refine hroot.imp_right fun hp => .inr ?_
      have ⟨p, hp, heq⟩ := hp
      exact ⟨p, .inl hp, heq⟩
    | inr hw =>
      unfold definitionsJson at hw
      rw [List.map_append, List.map_map, List.map_map, List.mem_append] at hw
      cases hw with
      | inl hw =>
        have ⟨e, _, heq⟩ := List.mem_map.1 hw
        rw [← heq] at hu
        have hdefinition := hu.eq_of_no_child fun _ => not_childSchema_definition e
        exact .inr (.inl ⟨e, hdefinition⟩)
      | inr hw =>
        have ⟨r, hr, heq⟩ := List.mem_map.1 hw
        rw [← heq] at hu
        refine (hc.part_of_subschema (uses_of_mem_records hr) hu).imp_right fun hp => .inr ?_
        have ⟨p, hp, heq⟩ := hp
        exact ⟨p, .inr ⟨r, hr, hp⟩, heq⟩

/-- The schema of an exported type is in the export, which itself is that of the whole object. -/
theorem subschema_of_exports (hc : c.Resolved) (hm : m ∈ c.methods) (closed : Bool)
    (h : c.Exports m direction t) : t = .object (m.fields direction) ∨
      (c.schemaOf closed t).toJson.Subschema (c.exportMethod m direction closed).toJson := by
  cases h with
  | inl hp =>
    refine hp.eq_or_child.imp_right fun hp => ?_
    have ⟨t', ht', hp⟩ := hp
    have huses := uses_method hm direction
    have hin : (c.schemaOf closed t).toJson.Subschema (c.schemaOf closed t').toJson :=
      hc.subschema_of_part (huses.part (Ty.part_of_mem_children ht' .self)) hp
    have hchild : (c.schemaOf closed t').toJson.ChildSchema
        (c.schemaOf closed (.object (m.fields direction))).toJson :=
      (hc.childSchema_schemaOf_iff huses).2 (.inl ⟨t', ht', rfl⟩)
    exact .child hin ((hc.childSchema_exportMethod_iff hm).2 (.inl hchild))
  | inr hp =>
    have ⟨r, hr, hp⟩ := hp
    have hin : (c.schemaOf closed t).toJson.Subschema
        (c.schemaOf closed (.object r.fields)).toJson :=
      hc.subschema_of_part (uses_of_mem_records hr) hp
    have hmem : (c.schemaOf closed (.object r.fields)).toJson ∈
        (c.definitionsJson closed).map (·.2) := by
      unfold definitionsJson
      rw [List.map_append, List.map_map, List.map_map]
      exact List.mem_append_right _ (List.mem_map_of_mem hr)
    exact .inr (.child hin ((hc.childSchema_exportMethod_iff hm).2 (.inr hmem)))

theorem describesObject_exportMethod (hc : c.Resolved) (hm : m ∈ c.methods) :
    c.DescribesObject closed (m.fields direction) (c.exportMethod m direction closed).toJson := by
  rw [hc.toJson_exportMethod hm]
  have hd := hc.distinct_fields (uses_method hm direction)
  cases closed <;> exact ⟨hd, rfl, rfl, rfl, rfl⟩

theorem distinct_of_exports (hc : c.Resolved) (hm : m ∈ c.methods)
    (h : c.Exports m direction (.object fs)) : fs.Distinct := by
  cases h with
  | inl hp => exact hc.distinct_fields ((uses_method hm direction).part hp)
  | inr hp =>
    have ⟨r, hr, hp⟩ := hp
    exact hc.distinct_fields ((uses_of_mem_records hr).part hp)

end Resolved

/-- The object schemas in an export are those of the exported objects: the whole one, the records
and all objects in their types.  They are closed if the export is, and no other schema is. -/
structure ListsObjects (c : Contract) (m : Method DeclId) (direction : Direction) (closed : Bool)
    (v : Json) : Prop where
  root : c.DescribesObject closed (m.fields direction) v
  records : ∀ r ∈ c.records, ∃ u, v.at? ["$defs", r.name] = some u ∧
    c.DescribesObject closed r.fields u
  sound : ∀ u, u.Subschema v → DescribesOther u ∨
    ∃ fs, c.Exports m direction (.object fs) ∧ c.DescribesObject closed fs u
  complete : ∀ fs, c.Exports m direction (.object fs) →
    ∃ u, u.Subschema v ∧ c.DescribesObject closed fs u

/-- The definition of a record stands under its name. -/
theorem Resolved.at?_definition (hc : c.Resolved) {r : Record DeclId} (hr : r ∈ c.records) :
    (c.exportMethod m direction closed).toJson.at? ["$defs", r.name] =
      some (c.schemaOf closed (.object r.fields)).toJson := by
  have ⟨i, hi⟩ := List.getElem?_of_mem hr
  have hrecord : c.record? i = some r := hi
  have hname : c.nameOf (.record i) = r.name := by
    rw [nameOf, hrecord]
    rfl
  have hdefinition : c.definitionOf? closed (.record i) = some (c.recordDefinition closed r) :=
    congrArg (Option.map _) hrecord
  have hlookup := hc.lookup_definitions hdefinition
  have hat : (c.exportMethod m direction closed).toJson.at? [Fragment.definitionsKey, r.name] =
      ((c.definitions closed).lookup r.name).map Definition.toJson := by
    rw [← Json.follow?_ofName, RootSchema.follow?_ofName]
    rfl
  rw [hname] at hlookup
  rw [hlookup] at hat
  exact hat

theorem Resolved.listsObjects (hc : c.Resolved) (hm : m ∈ c.methods) :
    c.ListsObjects m direction closed (c.exportMethod m direction closed).toJson where
  root := hc.describesObject_exportMethod hm
  records r hr := by
    have hd := hc.distinct_fields (uses_of_mem_records hr)
    exact ⟨_, hc.at?_definition hr, describesObject_schemaOf hd⟩
  sound u hu := by
    rcases hc.exports_of_subschema hm hu with heq | heq | ⟨e, heq⟩ | ⟨t, ht, heq⟩
    · exact .inr ⟨_, .inl .self, heq ▸ hc.describesObject_exportMethod hm⟩
    · exact .inl (heq ▸ describesOther_nullJson)
    · exact .inl (heq ▸ describesOther_definition e)
    · cases t with
      | object fs =>
        exact .inr ⟨fs, ht, heq ▸ describesObject_schemaOf (hc.distinct_of_exports hm ht)⟩
      | _ => exact .inl (heq ▸ describesOther_schemaOf nofun)
  complete fs hfs := by
    cases hc.subschema_of_exports hm closed hfs with
    | inl heq =>
      cases heq
      exact ⟨_, .self, hc.describesObject_exportMethod hm⟩
    | inr hin => exact ⟨_, hin, describesObject_schemaOf (hc.distinct_of_exports hm hfs)⟩

/-- **A closed export is the open one with all objects closed.**  Both list the objects of the same
fields, one closed and the other not, and without the entries that close objects they are equal, the
order of members included.  Names of fields do not matter, those of keywords included. -/
theorem closed_export_closes_objects {d : Document} {s : Strictness} {c : Contract}
    (h : d.validate s = .ok c) {m : Method DeclId} (hm : m ∈ c.methods) (direction : Direction) :
    ∃ strict lax, c.export? m.name direction true = some strict ∧
      c.export? m.name direction false = some lax ∧
      strict.toJson.opened = lax.toJson ∧
      c.ListsObjects m direction true strict.toJson ∧
      c.ListsObjects m direction false lax.toJson := by
  have hc := (resolved_of_validate h).2
  exact ⟨_, _, hc.export?_name hm direction true, hc.export?_name hm direction false,
    hc.opened_exportMethod hm true, hc.listsObjects hm, hc.listsObjects hm⟩

/-- A document whose fields have the names of keywords. -/
def keywords : Document where
  enumerations := []
  records := [⟨"Box", [("additionalProperties", .scalar .boolean),
    ("required", .nullable (.object [("properties", .scalar .string)]))]⟩]
  methods := [⟨"close", [("items", .array (.named "Box"))], []⟩]

/-- The method of `keywords` with its types resolved. -/
def closeBoxes : Method DeclId := ⟨"close", [("items", .array (.named (.record 0)))], []⟩

/-- The contract of `keywords`. -/
def keywordsContract : Contract where
  document := keywords
  scope := ⟨[("Box", .record 0)]⟩
  records := [⟨"Box", [("additionalProperties", .scalar .boolean),
    ("required", .nullable (.object [("properties", .scalar .string)]))]⟩]
  methods := [closeBoxes]
  warnings := []

theorem closed_export_closes_objects_keywords :
    keywords.validate .lenient = .ok keywordsContract ∧ closeBoxes ∈ keywordsContract.methods ∧
    ∃ strict lax, keywordsContract.export? "close" .request true = some strict ∧
      keywordsContract.export? "close" .request false = some lax ∧
      strict.toJson.opened = lax.toJson ∧ strict.toJson ≠ lax.toJson ∧
      keywordsContract.ListsObjects closeBoxes .request true strict.toJson ∧
      keywordsContract.ListsObjects closeBoxes .request false lax.toJson := by
  have hvalid : keywords.validate .lenient = .ok keywordsContract := by decide +kernel
  have hmethod : closeBoxes ∈ keywordsContract.methods := List.mem_cons_self
  have ⟨strict, lax, hstrict, hlax, hopened, hclosed, hopen⟩ :=
    closed_export_closes_objects hvalid hmethod .request
  have hne : strict.toJson ≠ lax.toJson := by
    intro heq
    have hadditional := hclosed.root.additional
    rw [heq, hopen.root.additional] at hadditional
    cases hadditional
  exact ⟨hvalid, hmethod, strict, lax, hstrict, hlax, hopened, hne, hclosed, hopen⟩

end Contract
end CallContract
