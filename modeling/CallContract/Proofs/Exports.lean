import CallContract.Contract.Payload
import CallContract.Proofs.ContractTypes
import CallContract.Proofs.SchemaForms

/-!
# What exported schemas refer to

An exported schema keeps properties and definitions under their names.  In a contract none of these
names is repeated, so nothing is overwritten: there is one definition for each declaration, and the
references of the schema are those of the exported types, in order.  Following the fragment of a
reference through the JSON form of the schema leads to the definition of the declaration that the
type names.
-/

namespace CallContract

/-! ## 1. Following fragments -/

/-- The value at the end of a way through members with these names. -/
def Json.at? (v : Json) : List String → Option Json
  | [] => some v
  | name :: rest =>
    match v with
    | .object members => (members.lookup name).bind fun w => w.at? rest
    | _ => none

theorem Json.at?_object (members : Named Json) (name : String) (rest : List String) :
    (Json.object members).at? (name :: rest) = (members.lookup name).bind fun w => w.at? rest :=
  rfl

/-- The value that a fragment leads to. -/
def Json.follow? (v : Json) (fragment : String) : Option Json :=
  (Fragment.names? fragment).bind v.at?

theorem Json.follow?_ofName (v : Json) (name : String) :
    v.follow? (Fragment.ofName name) = v.at? [Fragment.definitionsKey, name] := by
  unfold follow?
  rw [Fragment.names?_ofName]
  rfl

namespace RootSchema

theorem at?_definitionsKey (x : RootSchema) (rest : List String) :
    x.toJson.at? (Fragment.definitionsKey :: rest) =
      (Json.object (x.definitions.mapValues Definition.toJson)).at? rest := by
  unfold toJson Schema.objectMembers
  rw [Json.at?_object]
  -- No other member of a schema has the name of the definitions.
  cases x.closed <;> rfl

theorem follow?_ofName (x : RootSchema) (name : String) :
    x.toJson.follow? (Fragment.ofName name) =
      (x.definitions.lookup name).map Definition.toJson := by
  rw [Json.follow?_ofName, at?_definitionsKey, Json.at?_object, Named.lookup_mapValues]
  cases x.definitions.lookup name <;> rfl

end RootSchema

theorem Scalar.faultless_schema (s : Scalar) : s.schema.toJson.Faultless := by
  cases s with
  | integer | float | boolean | string => exact Schema.faultless_basic _
  | uuid | date | datetime => exact Schema.faultless_formatted _

namespace Contract

/-! ## 2. Schemas of types -/

variable {c : Contract} {closed : Bool} {t : Ty DeclId} {fs : Fields DeclId} {id : DeclId}

theorem schemasOf_eq (c : Contract) (closed : Bool) (ts : List (Ty DeclId)) :
    c.schemasOf closed ts = ts.map (c.schemaOf closed) := by
  induction ts with
  | nil => rfl
  | cons t rest ih => rw [schemasOf, ih, List.map_cons]

theorem propertiesOf_eq (c : Contract) (closed : Bool) (fs : Fields DeclId) :
    c.propertiesOf closed fs = fs.mapValues (c.schemaOf closed) := by
  induction fs with
  | nil => rfl
  | cons f rest ih =>
    rw [propertiesOf, ih]
    rfl

/-- Fields with distinct names have a property each. -/
theorem merge_propertiesOf (h : fs.Distinct) :
    Named.merge (c.propertiesOf closed fs) = fs.mapValues (c.schemaOf closed) := by
  rw [propertiesOf_eq]
  apply Named.merge_of_distinct
  rw [Named.Distinct, Named.names_mapValues]
  exact h

/-- The definition that is made of a declaration. -/
def definitionOf? (c : Contract) (closed : Bool) : DeclId → Option Definition
  | .enumeration i => (c.enumeration? i).map Enumeration.definition
  | .record i => (c.record? i).map (c.recordDefinition closed)

/-- The places that the exported schema of one direction of a method refers to, in order. -/
def exportedIds (c : Contract) (m : Method DeclId) (direction : Direction) : List DeclId :=
  Ty.referencesFields (m.fields direction) ++
    c.records.flatMap fun r => Ty.referencesFields r.fields

/-- The fragment of a reference to a declaration. -/
def fragmentOf (c : Contract) (id : DeclId) : String := Fragment.ofName (c.nameOf id)

theorem uses_of_mem_exportedIds {m : Method DeclId} (hm : m ∈ c.methods) {direction : Direction}
    (h : id ∈ c.exportedIds m direction) : c.Uses (.named id) := by
  have hpart {fs : Fields DeclId} (h : id ∈ Ty.referencesFields fs) :
      (Ty.named id).Part (.object fs) :=
    (Ty.mem_references_iff (t := .object fs)).1 h
  unfold exportedIds at h
  rw [List.mem_append, List.mem_flatMap] at h
  cases h with
  | inl h => exact (uses_method hm direction).part (hpart h)
  | inr h =>
    obtain ⟨r, hr, h⟩ := h
    exact (uses_of_mem_records hr).part (hpart h)

namespace Resolved

theorem definitions_eq (hc : c.Resolved) (closed : Bool) : c.definitions closed =
    c.document.enumerations.map (fun e => (e.name, e.definition)) ++
      c.records.map fun r => (r.name, c.recordDefinition closed r) := by
  apply Named.merge_of_distinct
  rw [Named.Distinct, Named.names_append, Named.names_map, Named.names_map, ← hc.names_records]
  exact hc.wellFormed.distinct_types

theorem mapValues_definitions (hc : c.Resolved) (closed : Bool) :
    (c.definitions closed).mapValues Definition.toJson =
      c.document.enumerations.map (fun e => (e.name, e.definition.toJson)) ++
        c.records.map fun r => (r.name, (c.recordDefinition closed r).toJson) := by
  rw [hc.definitions_eq, Named.mapValues, List.map_append, List.map_map, List.map_map]
  rfl

/-- The definition of a declaration stands under its name. -/
theorem lookup_definitions (hc : c.Resolved) {x : Definition}
    (h : c.definitionOf? closed id = some x) :
    (c.definitions closed).lookup (c.nameOf id) = some x := by
  have hdistinct : (c.definitions closed).Distinct := Named.distinct_merge _
  rw [Named.lookup_eq_some_iff hdistinct, hc.definitions_eq]
  cases id with
  | enumeration i =>
    obtain ⟨e, he, rfl⟩ := Option.map_eq_some_iff.1 h
    have hname : c.nameOf (.enumeration i) = e.name := by
      rw [nameOf, he]
      rfl
    rw [hname]
    have hmem : e ∈ c.document.enumerations := List.mem_of_getElem? he
    exact List.mem_append_left _ (List.mem_map.2 ⟨e, hmem, rfl⟩)
  | record i =>
    obtain ⟨r, hr, rfl⟩ := Option.map_eq_some_iff.1 h
    have hname : c.nameOf (.record i) = r.name := by
      rw [nameOf, hr]
      rfl
    rw [hname]
    have hmem : r ∈ c.records := List.mem_of_getElem? hr
    exact List.mem_append_right _ (List.mem_map.2 ⟨r, hmem, rfl⟩)

theorem exists_definitionOf? (hc : c.Resolved) (closed : Bool) (h : c.Uses (.named id)) :
    ∃ x, c.definitionOf? closed id = some x := by
  cases id with
  | enumeration i =>
    obtain ⟨e, he⟩ := hc.exists_enumeration h
    exact ⟨e.definition, congrArg (Option.map _) he⟩
  | record i =>
    obtain ⟨r, hr⟩ := hc.exists_record h
    exact ⟨c.recordDefinition closed r, congrArg (Option.map _) hr⟩

/-- The schema of a type refers to what the type names. -/
theorem references_schemaOf (hc : c.Resolved) (closed : Bool) (h : c.Uses t) :
    (c.schemaOf closed t).toJson.references = t.references.map c.fragmentOf := by
  induction t with
  | scalar s => cases s <;> rfl
  | named id => rfl
  | nullable t ih =>
    have hnull : (Schema.basic .null).toJson.references = [] := rfl
    rw [schemaOf, Schema.references_anyOf, List.flatMap_cons, List.flatMap_singleton, hnull,
      List.append_nil, ih (h.part (.nullable .self))]
    rfl
  | array t ih =>
    rw [schemaOf, Schema.references_array, ih (h.part (.array .self))]
    rfl
  | union ts ih =>
    rw [schemaOf, Schema.references_anyOf, schemasOf_eq, List.flatMap_map, Ty.references,
      Ty.referencesList_eq, List.map_flatMap]
    exact List.flatMap_congr fun t ht => ih t ht (h.part (.union ht .self))
  | object fs ih =>
    rw [schemaOf, Schema.references_object, merge_propertiesOf (hc.distinct_fields h),
      Named.mapValues, List.flatMap_map, Ty.references, Ty.referencesFields_eq, List.map_flatMap]
    exact List.flatMap_congr fun f hf => ih f.1 f.2 hf (h.field hf)

/-- In the contract of a document that was read nothing is wrong with the schema of a type. -/
theorem faultless_schemaOf (hc : c.Resolved) (hread : c.document.WasRead) (closed : Bool)
    (h : c.Uses t) : (c.schemaOf closed t).toJson.Faultless := by
  induction t with
  | scalar s => exact s.faultless_schema
  | named id => exact Schema.faultless_reference _
  | nullable t ih =>
    have ht := ih (h.part (.nullable .self))
    rw [schemaOf]
    apply Schema.faultless_anyOf (List.cons_ne_nil _ _)
    rw [List.forall_mem_cons, List.forall_mem_singleton]
    exact ⟨ht, Schema.faultless_basic .null⟩
  | array t ih => exact Schema.faultless_array (ih (h.part (.array .self)))
  | union ts ih =>
    rw [schemaOf, schemasOf_eq]
    apply Schema.faultless_anyOf
    · exact mt List.map_eq_nil_iff.1 (hc.union_ne_nil hread h)
    · rw [List.forall_mem_map]
      exact fun t ht => ih t ht (h.part (.union ht .self))
  | object fs ih =>
    have hdistinct := hc.distinct_fields h
    rw [schemaOf, merge_propertiesOf hdistinct]
    apply Schema.faultless_object hdistinct
    rw [Named.mapValues, List.forall_mem_map]
    exact fun f hf => ih f.1 f.2 hf (h.field hf)

/-! ## 3. Exported schemas -/

theorem references_exportMethod (hc : c.Resolved) {m : Method DeclId} (hm : m ∈ c.methods)
    (direction : Direction) (closed : Bool) :
    (c.exportMethod m direction closed).toJson.references =
      (c.exportedIds m direction).map c.fragmentOf := by
  have hbody : (c.exportMethod m direction closed).body.toJson.references =
      (Ty.referencesFields (m.fields direction)).map c.fragmentOf :=
    hc.references_schemaOf closed (uses_method hm direction)
  have hdefinitions : (c.definitions closed).flatMap (fun d => d.2.toJson.references) =
      c.records.flatMap fun r => (Ty.referencesFields r.fields).map c.fragmentOf := by
    have hstrings :
        c.document.enumerations.flatMap (fun e => e.definition.toJson.references) = [] :=
      List.flatMap_eq_nil_iff.2 fun _ _ => rfl
    rw [hc.definitions_eq, List.flatMap_append, List.flatMap_map, List.flatMap_map, hstrings,
      List.nil_append]
    apply List.flatMap_congr
    intro r hr
    exact hc.references_schemaOf closed (uses_of_mem_records hr)
  rw [RootSchema.references_toJson, hbody]
  unfold exportedIds
  rw [List.map_append, List.map_flatMap]
  exact congrArg _ hdefinitions

/-- The fragment of a declaration that the contract uses leads to its definition. -/
theorem find?_fragmentOf (hc : c.Resolved) {x : Definition} (h : c.definitionOf? closed id = some x)
    (m : Method DeclId) (direction : Direction) :
    Fragment.find? (c.exportMethod m direction closed).toJson.definitions (c.fragmentOf id) =
      some x.toJson := by
  unfold fragmentOf
  rw [RootSchema.definitions_toJson, Fragment.find?_ofName, Named.lookup_mapValues]
  show ((c.definitions closed).lookup _).map _ = _
  rw [hc.lookup_definitions h]
  rfl

/-- Whether a schema is valid does not depend on its references: all of them lead somewhere. -/
theorem fault?_exportMethod (hc : c.Resolved) {m : Method DeclId} (hm : m ∈ c.methods)
    (direction : Direction) (closed : Bool) :
    (c.exportMethod m direction closed).toJson.fault? =
      (c.exportMethod m direction closed).toJson.schemas.findSome? Json.ownFault? := by
  apply Json.fault?_of_resolved
  rw [hc.references_exportMethod hm, List.forall_mem_map]
  intro id hid
  obtain ⟨x, hx⟩ := hc.exists_definitionOf? closed (uses_of_mem_exportedIds hm hid)
  rw [hc.find?_fragmentOf hx]
  rfl

theorem fault?_of_export? (hc : c.Resolved) {method : String} {direction : Direction}
    {x : RootSchema} (h : c.export? method direction closed = some x) :
    x.toJson.fault? = x.toJson.schemas.findSome? Json.ownFault? := by
  obtain ⟨m, hm, rfl⟩ := Option.map_eq_some_iff.1 h
  exact hc.fault?_exportMethod (List.mem_of_find?_eq_some hm) direction closed

theorem fault?_exportMethod_of_wasRead (hc : c.Resolved) (hread : c.document.WasRead)
    {m : Method DeclId} (hm : m ∈ c.methods) (direction : Direction) (closed : Bool) :
    (c.exportMethod m direction closed).toJson.fault? = none := by
  have hbody : (c.exportMethod m direction closed).body.toJson.Faultless :=
    hc.faultless_schemaOf hread closed (uses_method hm direction)
  have hdefinitions : ∀ d ∈ c.definitions closed, d.2.toJson.Faultless := by
    rw [hc.definitions_eq, List.forall_mem_append, List.forall_mem_map, List.forall_mem_map]
    constructor
    · intro e _
      exact Definition.faultless_strings e.values
    · intro r hr
      exact hc.faultless_schemaOf hread closed (uses_of_mem_records hr)
  rw [hc.fault?_exportMethod hm]
  exact RootSchema.findSome?_of_faultless hbody hdefinitions

end Resolved

/-- The JSON form of the schema keeps one definition for each declaration, enumerations first.  The
references in it are those of the exported types, and each of them leads to the definition of the
declaration that is named there, step by step along its pointer as well as when a value is
checked. -/
structure Refers (c : Contract) (m : Method DeclId) (direction : Direction) (closed : Bool)
    (x : RootSchema) : Prop where
  definitions : x.toJson.at? [Fragment.definitionsKey] = some (.object (
    c.document.enumerations.map (fun e => (e.name, e.definition.toJson)) ++
      c.records.map fun r => (r.name, (c.recordDefinition closed r).toJson)))
  distinct : (c.document.enumerations.map (·.name) ++ c.records.map (·.name)).Nodup
  references : x.toJson.references = (c.exportedIds m direction).map c.fragmentOf
  followed : ∀ id ∈ c.exportedIds m direction, ∃ definition,
    c.definitionOf? closed id = some definition ∧
    x.toJson.follow? (c.fragmentOf id) = some definition.toJson ∧
    Fragment.find? x.toJson.definitions (c.fragmentOf id) = some definition.toJson

theorem Resolved.refers (hc : c.Resolved) {m : Method DeclId} (hm : m ∈ c.methods)
    (direction : Direction) (closed : Bool) :
    c.Refers m direction closed (c.exportMethod m direction closed) where
  definitions := by
    rw [RootSchema.at?_definitionsKey]
    show some (Json.object ((c.definitions closed).mapValues Definition.toJson)) = _
    rw [hc.mapValues_definitions]
  distinct := hc.names_records ▸ hc.wellFormed.distinct_types
  references := hc.references_exportMethod hm direction closed
  followed := by
    intro id hid
    obtain ⟨definition, hdefinition⟩ :=
      hc.exists_definitionOf? closed (uses_of_mem_exportedIds hm hid)
    have hlookup : (c.exportMethod m direction closed).definitions.lookup (c.nameOf id) =
        some definition := hc.lookup_definitions hdefinition
    refine ⟨definition, hdefinition, ?_, hc.find?_fragmentOf hdefinition m direction⟩
    unfold fragmentOf
    rw [RootSchema.follow?_ofName, hlookup]
    rfl

theorem Resolved.export?_name (hc : c.Resolved) {m : Method DeclId} (hm : m ∈ c.methods)
    (direction : Direction) (closed : Bool) :
    c.export? m.name direction closed = some (c.exportMethod m direction closed) := by
  unfold export?
  rw [hc.method?_name hm]
  rfl

theorem Resolved.checkPayload_ne_invalidSchema (hc : c.Resolved) (hread : c.document.WasRead)
    (method : String) (direction : Direction) (closed : Bool) (payload : Json)
    (fault : SchemaFault) :
    c.checkPayload method direction closed payload ≠ .error (.invalidSchema fault) := by
  unfold checkPayload schema export?
  cases hmethod : c.method? method with
  | none => exact nofun
  | some m =>
    have hm : m ∈ c.methods := List.mem_of_find?_eq_some hmethod
    have hvalid := hc.fault?_exportMethod_of_wasRead hread hm direction closed
    simp only [Option.map_some, hvalid]
    split <;> exact nofun

/-- **Every exported reference leads to its own declaration**, whatever characters the names have:
names with one fragment are the same name, the escapes of a token are undone slashes first, and the
schema of every direction of every method has the definitions that its references need.  Nothing is
wrong with a schema of a document that was read, so that every payload can be checked. -/
theorem exported_references_resolve {d : Document} {s : Strictness} {c : Contract}
    (h : d.validate s = .ok c) :
    c.document = d ∧ Function.Injective Fragment.ofName ∧
    (∀ token, Fragment.untoken token = Fragment.untilde (Fragment.unslash token)) ∧
    (∀ m ∈ c.methods, ∀ direction closed, ∃ x,
      c.export? m.name direction closed = some x ∧ c.Refers m direction closed x) ∧
    (d.WasRead → ∀ method direction closed payload fault,
      c.checkPayload method direction closed payload ≠ .error (.invalidSchema fault)) := by
  obtain ⟨rfl, hc⟩ := resolved_of_validate h
  refine ⟨rfl, Fragment.ofName_injective, Fragment.untoken_eq,
    fun m hm direction closed => ?_, fun hread => ?_⟩
  · exact ⟨_, hc.export?_name hm direction closed, hc.refers hm direction closed⟩
  · exact hc.checkPayload_ne_invalidSchema hread

/-- A document whose names have characters that mean something in fragments. -/
def signposts : Document where
  enumerations := [⟨"~1/%2F é", [("A", "a")]⟩]
  records := [⟨"#", [("to", .named "~1/%2F é")]⟩, ⟨"", [("back", .nullable (.named "#"))]⟩]
  methods := [⟨"go", [("from", .named "#")], []⟩]

/-- The contract of `signposts`. -/
def signpostsContract : Contract where
  document := signposts
  scope := ⟨[("~1/%2F é", .enumeration 0), ("#", .record 0), ("", .record 1)]⟩
  records := [⟨"#", [("to", .named (.enumeration 0))]⟩,
    ⟨"", [("back", .nullable (.named (.record 0)))]⟩]
  methods := [⟨"go", [("from", .named (.record 0))], []⟩]
  warnings := []

theorem exported_references_resolve_signposts :
    signposts.validate .lenient = .ok signpostsContract ∧ signposts.WasRead ∧
    (∃ x, signpostsContract.export? "go" .request true = some x ∧
      signpostsContract.Refers ⟨"go", [("from", .named (.record 0))], []⟩ .request true x) ∧
    ∀ fault, signpostsContract.checkPayload "go" .request true .null ≠
      .error (.invalidSchema fault) := by
  have hvalid : signposts.validate .lenient = .ok signpostsContract := by decide +kernel
  have hread : signposts.WasRead := .inr ⟨signposts.toJson, by decide +kernel⟩
  have hresolve := exported_references_resolve hvalid
  exact ⟨hvalid, hread, hresolve.2.2.2.1 _ List.mem_cons_self .request true,
    hresolve.2.2.2.2 hread "go" .request true .null⟩

end Contract
end CallContract
