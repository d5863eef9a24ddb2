import CallContract.Proofs.Exports

/-!
# Schemas of written types

In an exported schema every place of a declaration is replaced by the name of the declaration, which
is the name that was written there.  So what a contract exports can be read off its document alone
(`Contract.Resolved.export?_eq`), and neither the places of declarations nor their order matter for
the schema of a method, except for the order of the definitions.
-/

namespace CallContract

/-! ## 1. Schemas of a document -/

namespace Ty

mutual

/-- The schema of a type as it was written. -/
def schema (closed : Bool) : Ty String → Schema
  | .scalar s => s.schema
  | .named n => .reference (Fragment.ofName n)
  | .nullable t => .anyOf [t.schema closed, .basic .null]
  | .array t => .array (t.schema closed)
  | .union ts => .anyOf (schemaList closed ts)
  | .object fs => .object (Named.merge (schemaFields closed fs)) (Named.names fs) closed

def schemaList (closed : Bool) : List (Ty String) → List Schema
  | [] => []
  | t :: rest => t.schema closed :: schemaList closed rest

/-- The schemas of fields, repeated names included. -/
def schemaFields (closed : Bool) : Fields String → Named Schema
  | [] => []
  | (name, t) :: rest => (name, t.schema closed) :: schemaFields closed rest

end

theorem schemaList_eq (closed : Bool) (ts : List (Ty String)) :
    schemaList closed ts = ts.map (schema closed) := by
  induction ts with
  | nil => rfl
  | cons t rest ih => rw [schemaList, ih, List.map_cons]

theorem schemaFields_eq (closed : Bool) (fs : Fields String) :
    schemaFields closed fs = fs.mapValues (schema closed) := by
  induction fs with
  | nil => rfl
  | cons f rest ih =>
    rw [schemaFields, ih]
    rfl

end Ty

def Record.definition (closed : Bool) (r : Record String) : Definition :=
  .object (Ty.schemaFields closed r.fields).merge r.fields.names closed

namespace Document

/-- The definitions of all enumerations and then all records. -/
def definitions (d : Document) (closed : Bool) : Named Definition :=
  d.enumerations.map (fun e => (e.name, e.definition)) ++
    d.records.map fun r => (r.name, r.definition closed)

/-- One direction of a method as a schema. -/
def exportMethod (d : Document) (m : Method String) (direction : Direction) (closed : Bool) :
    RootSchema where
  title := m.name ++ "." ++ direction.key
  properties := (Ty.schemaFields closed (m.fields direction)).merge
  required := (m.fields direction).names
  closed := closed
  definitions := d.definitions closed

/-- One direction of the method of a name as a schema. -/
def export? (d : Document) (method : String) (direction : Direction) (closed : Bool) :
    Option RootSchema :=
  (d.methods.find? (·.name = method)).map fun m => d.exportMethod m direction closed

end Document

/-! ## 2. Schemas of a contract -/

namespace Contract.Resolved

variable {c : Contract} {closed : Bool}

theorem schemaOf_eq (hc : c.Resolved) {w : Ty String} {t : Ty DeclId}
    (h : w.rename? c.scope.find? = some t) : c.schemaOf closed t = w.schema closed := by
  induction w generalizing t with
  | scalar s =>
    cases Option.some.inj h
    rfl
  | named n =>
    obtain ⟨id, hid, rfl⟩ := Option.map_eq_some_iff.1 h
    -- The name of the place is the name that was looked up.
    show Schema.reference (Fragment.ofName (c.nameOf id)) = _
    rw [hc.nameOf_find? hid]
    rfl
  | nullable w ih =>
    obtain ⟨t, ht, rfl⟩ := Option.map_eq_some_iff.1 h
    rw [schemaOf, Ty.schema, ih ht]
  | array w ih =>
    obtain ⟨t, ht, rfl⟩ := Option.map_eq_some_iff.1 h
    rw [schemaOf, Ty.schema, ih ht]
  | union ws ih =>
    obtain ⟨ts, hts, rfl⟩ := Option.map_eq_some_iff.1 h
    rw [Ty.renameList?_eq, mapM_eq_some_iff] at hts
    have hschemas : ws.map (Ty.schema closed) = ts.map (c.schemaOf closed) :=
      map_eq_of_forall₂ (forall₂_mem hts) fun w _ hw => (ih w hw.1 hw.2).symm
    rw [schemaOf, Ty.schema, schemasOf_eq, Ty.schemaList_eq, hschemas]
  | object fs ih =>
    obtain ⟨gs, hgs, rfl⟩ := Option.map_eq_some_iff.1 h
    have hnames := Ty.names_of_renameFields? hgs
    rw [Ty.renameFields?_eq, mapM_eq_some_iff] at hgs
    have hproperties : Named.mapValues (Ty.schema closed) fs =
        Named.mapValues (c.schemaOf closed) gs := by
      apply map_eq_of_forall₂ (forall₂_mem hgs)
      intro f g hfg
      obtain ⟨hname, htype⟩ := Ty.renameField?_eq_some_iff.1 hfg.2
      exact Prod.ext hname (ih f.1 f.2 hfg.1 htype).symm
    rw [schemaOf, Ty.schema, propertiesOf_eq, Ty.schemaFields_eq, hproperties, hnames]

/-- The fields of an object are exported as they were written. -/
theorem properties_eq (hc : c.Resolved) (closed : Bool) {fs : Fields String}
    {gs : Fields DeclId} (h : Ty.renameFields? c.scope.find? fs = some gs) :
    (c.propertiesOf closed gs).merge = (Ty.schemaFields closed fs).merge ∧ gs.names = fs.names := by
  -- Fields are exported as those of an inline object are.
  have hobject : c.schemaOf closed (.object gs) = (Ty.object fs).schema closed :=
    hc.schemaOf_eq (Ty.rename?_object h)
  rw [schemaOf, Ty.schema] at hobject
  exact ⟨(Schema.object.inj hobject).1, (Schema.object.inj hobject).2.1⟩

theorem definitions_eq_document (hc : c.Resolved) (closed : Bool) :
    c.definitions closed = c.document.definitions closed := by
  have hrecords : c.document.records.map (fun r => (r.name, r.definition closed)) =
      c.records.map fun r => (r.name, c.recordDefinition closed r) := by
    apply map_eq_of_forall₂ (mapM_eq_some_iff.1 hc.records)
    intro r r' h
    rw [Record.resolve?_eq_some_iff] at h
    obtain ⟨hproperties, hnames⟩ := hc.properties_eq closed h.2
    rw [Record.definition, recordDefinition, hproperties, hnames, h.1]
  rw [hc.definitions_eq, Document.definitions, hrecords]

/-- What a contract exports is read off its document. -/
theorem export?_eq (hc : c.Resolved) (method : String) (direction : Direction) (closed : Bool) :
    c.export? method direction closed = c.document.export? method direction closed := by
  have hmethod : (c.document.methods.find? (·.name = method)).bind (Method.resolve? c.scope) =
      c.method? method := by
    apply find?_of_mapM hc.methods
    intro m m' h
    rw [(Method.resolve?_eq_some_iff.1 h).1]
  rw [export?, Document.export?, ← hmethod]
  cases hfind : c.document.methods.find? (·.name = method) with
  | none => rfl
  | some m =>
    -- Every method that was written was resolved.
    have hsome : (m.resolve? c.scope).isSome :=
      isSome_mapM_iff.1 (hc.methods ▸ rfl) m (List.mem_of_find?_eq_some hfind)
    obtain ⟨m', hm'⟩ := Option.isSome_iff_exists.1 hsome
    rw [Option.bind_some, hm', Option.map_some, Option.map_some]
    congr 1
    obtain ⟨hname, hfields⟩ := Method.resolve?_eq_some_iff.1 hm'
    obtain ⟨hproperties, hnames⟩ := hc.properties_eq closed (hfields direction)
    rw [exportMethod, Document.exportMethod, hproperties, hnames, hname,
      hc.definitions_eq_document]

end Contract.Resolved

/-! ## 3. What written schemas refer to -/

namespace Ty

variable {closed : Bool} {t : Ty String}

/-- The schema of a type refers to what the type names and to nothing else. -/
theorem exists_of_mem_references_schema {g : String}
    (h : g ∈ (t.schema closed).toJson.references) : ∃ m ∈ t.references, g = Fragment.ofName m := by
  induction t with
  | scalar s => cases s <;> cases h
  | named n => exact ⟨n, List.mem_singleton_self n, List.mem_singleton.1 h⟩
  | nullable t ih =>
    have hnull : (Schema.basic .null).toJson.references = [] := rfl
    rw [schema, Schema.references_anyOf, List.flatMap_cons, List.flatMap_singleton, hnull,
      List.append_nil] at h
    exact ih h
  | array t ih =>
    rw [schema, Schema.references_array] at h
    exact ih h
  | union ts ih =>
    rw [schema, Schema.references_anyOf, schemaList_eq, List.flatMap_map, List.mem_flatMap] at h
    obtain ⟨t, ht, h⟩ := h
    obtain ⟨m, hm, hg⟩ := ih t ht h
    rw [references, referencesList_eq]
    exact ⟨m, List.mem_flatMap.2 ⟨t, ht, hm⟩, hg⟩
  | object fs ih =>
    rw [schema, Schema.references_object, List.mem_flatMap] at h
    obtain ⟨p, hp, h⟩ := h
    have hp := Named.mem_of_mem_merge hp
    rw [schemaFields_eq, Named.mapValues] at hp
    obtain ⟨f, hf, rfl⟩ := List.mem_map.1 hp
    obtain ⟨m, hm, hg⟩ := ih f.1 f.2 hf h
    rw [references, referencesFields_eq]
    exact ⟨m, List.mem_flatMap.2 ⟨f, hf, hm⟩, hg⟩

/-- Nothing is wrong with the schema of a type in which every union has an alternative and no object
has a field twice. -/
theorem faultless_schema (h : ¬ (Ty.union []).Part t)
    (hd : ∀ fs : Fields String, (Ty.object fs).Part t → fs.Distinct) :
    (t.schema closed).toJson.Faultless := by
  induction t with
  | scalar s => exact s.faultless_schema
  | named n => exact Schema.faultless_reference _
  | nullable t ih =>
    have ht := ih (fun hpart => h (.nullable hpart)) fun fs hpart => hd fs (.nullable hpart)
    rw [schema]
    apply Schema.faultless_anyOf (List.cons_ne_nil _ _)
    rw [List.forall_mem_cons, List.forall_mem_singleton]
    exact ⟨ht, Schema.faultless_basic .null⟩
  | array t ih =>
    have ht := ih (fun hpart => h (.array hpart)) fun fs hpart => hd fs (.array hpart)
    exact Schema.faultless_array ht
  | union ts ih =>
    have hne : ts ≠ [] := fun hnil => h (hnil ▸ .self)
    rw [schema, schemaList_eq]
    apply Schema.faultless_anyOf
    · exact mt List.map_eq_nil_iff.1 hne
    · rw [List.forall_mem_map]
      exact fun t ht => ih t ht (fun hpart => h (.union ht hpart))
        fun fs hpart => hd fs (.union ht hpart)
  | object fs ih =>
    rw [schema]
    apply Schema.faultless_object (hd fs .self)
    intro p hp
    have hp := Named.mem_of_mem_merge hp
    rw [schemaFields_eq, Named.mapValues] at hp
    obtain ⟨f, hf, rfl⟩ := List.mem_map.1 hp
    exact ih f.1 f.2 hf (fun hpart => h (.object hf hpart))
      fun inner hpart => hd inner (.object hf hpart)

end Ty

/-- Every reference in an exported schema is to what a field of the document names. -/
theorem Document.exists_of_mem_references {d : Document} {m : Method String} (hm : m ∈ d.methods)
    {direction : Direction} {closed : Bool} {g : String}
    (h : g ∈ (d.exportMethod m direction closed).toJson.references) :
    ∃ fs ∈ d.fieldLists, ∃ n, (Ty.named n).Part (.object fs) ∧ g = Fragment.ofName n := by
  have hfields {fs : Fields String} (hfs : fs ∈ d.fieldLists)
      (h : g ∈ ((Ty.object fs).schema closed).toJson.references) :
      ∃ fs ∈ d.fieldLists, ∃ n, (Ty.named n).Part (.object fs) ∧ g = Fragment.ofName n := by
    obtain ⟨n, hn, rfl⟩ := Ty.exists_of_mem_references_schema h
    exact ⟨fs, hfs, n, Ty.mem_references_iff.1 hn, rfl⟩
  rw [RootSchema.references_toJson, List.mem_append, List.mem_flatMap] at h
  obtain h | ⟨e, he, h⟩ := h
  · exact hfields (mem_fieldsOfAll_of_method hm direction _) h
  have he : e ∈ d.definitions closed := he
  rw [definitions, List.mem_append, List.mem_map, List.mem_map] at he
  obtain ⟨e, -, rfl⟩ | ⟨r, hr, rfl⟩ := he
  -- An enumeration refers to nothing.
  · cases h
  · exact hfields (mem_fieldsOfAll_of_record hr _) h

end CallContract
