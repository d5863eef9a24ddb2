import CallContract.Proofs.Fragments
import CallContract.Proofs.NamedLists
import CallContract.Schema.Keyword

/-!
# JSON forms of schemas

What stands in the JSON form of a schema: the forms of the schemas in it and no others, at the
places where schemas are looked for.  So the references of a form are those of its parts in order,
and nothing is wrong with it as long as every choice in it offers something, no name is required
twice, and every reference in it leads to one of the definitions that it keeps.
-/

namespace CallContract

/-! ## 1. Faults and references of a value -/

namespace Json

variable {v : Json}

theorem valueSchemas_eq (members : Named Json) :
    valueSchemas members = members.flatMap fun m => m.2.schemas := by
  induction members with
  | nil => rfl
  | cons m rest ih => rw [valueSchemas, ih, List.flatMap_cons]

theorem itemSchemas_eq (items : List Json) : itemSchemas items = items.flatMap schemas := by
  induction items with
  | nil => rfl
  | cons v rest ih => rw [itemSchemas, ih, List.flatMap_cons]

/-- Neither the value nor a schema in it has a fault of its own. -/
def Faultless (v : Json) : Prop := ∀ u ∈ v.schemas, u.ownFault? = none

theorem Faultless.findSome?_eq_none (h : v.Faultless) : v.schemas.findSome? ownFault? = none :=
  List.findSome?_eq_none_iff.2 h

theorem unresolved?_eq_none_iff :
    v.unresolved? = none ↔ ∀ g ∈ v.references, (Fragment.find? v.definitions g).isSome := by
  unfold unresolved?
  simp [List.find?_eq_none, Option.isSome_iff_ne_none]

theorem fault?_of_resolved (h : ∀ g ∈ v.references, (Fragment.find? v.definitions g).isSome) :
    v.fault? = v.schemas.findSome? ownFault? := by
  unfold fault?
  rw [unresolved?_eq_none_iff.2 h]
  exact Option.or_none

end Json

theorem Fragment.find?_nil {α : Type} (fragment : String) :
    find? ([] : Named α) fragment = none := by
  unfold find?
  cases target? fragment <;> rfl

theorem Fragment.find?_ofName {α : Type} (defs : Named α) (name : String) :
    find? defs (ofName name) = defs.lookup name := by
  unfold find?
  rw [target?_ofName]
  rfl

theorem Fragment.find?_mapValues {α β : Type} (f : α → β) (defs : Named α) (fragment : String) :
    find? (defs.mapValues f) fragment = (find? defs fragment).map f := by
  unfold find?
  cases target? fragment with
  | none => rfl
  | some name => exact Named.lookup_mapValues f

/-! ## 2. Forms of schemas -/

namespace Schema

variable {s : Schema}

/-- Induction over a schema and all the schemas in it. -/
@[induction_eliminator]
theorem induction {P : Schema → Prop} (basic : ∀ t, P (.basic t))
    (formatted : ∀ f, P (.formatted f)) (reference : ∀ g, P (.reference g))
    (anyOf : ∀ ss, (∀ s ∈ ss, P s) → P (.anyOf ss)) (array : ∀ s, P s → P (.array s))
    (object : ∀ ps required closed, (∀ p ∈ ps, P p.2) → P (.object ps required closed))
    (s : Schema) : P s := by
  refine @Schema.rec P (fun ss => ∀ s ∈ ss, P s) (fun ps => ∀ p ∈ ps, P p.2) (fun p => P p.2)
    basic formatted reference anyOf array object nofun ?_ nofun ?_ (fun _ _ hs => hs) s
  · exact fun _ _ hs hrest => List.forall_mem_cons.2 ⟨hs, hrest⟩
  · exact fun _ _ hp hrest => List.forall_mem_cons.2 ⟨hp, hrest⟩

/-- The schemas directly in the schema. -/
def parts : Schema → List Schema
  | .basic _ | .formatted _ | .reference _ => []
  | .anyOf ss => ss
  | .array s => [s]
  | .object ps _ _ => ps.map (·.2)

theorem toJsonList_eq (ss : List Schema) : toJsonList ss = ss.map toJson := by
  induction ss with
  | nil => rfl
  | cons s rest ih => rw [toJsonList, ih, List.map_cons]

theorem toJsonProperties_eq (ps : Named Schema) : toJsonProperties ps = ps.mapValues toJson := by
  induction ps with
  | nil => rfl
  | cons p rest ih =>
    rw [toJsonProperties, ih]
    rfl

theorem valueSchemas_toJsonProperties (ps : Named Schema) :
    Json.valueSchemas (toJsonProperties ps) = (ps.map (·.2)).flatMap fun s => s.toJson.schemas := by
  rw [Json.valueSchemas_eq, toJsonProperties_eq, Named.mapValues, List.flatMap_map,
    List.flatMap_map]

theorem memberSchemas_objectMembers (props : Named Json) (required : List String) (closed : Bool) :
    Json.memberSchemas (objectMembers props required closed) = Json.valueSchemas props := by
  cases closed <;> exact List.append_nil _

/-- In the form of a schema are the forms of its parts and what is in them. -/
theorem schemas_toJson (s : Schema) :
    s.toJson.schemas = s.toJson :: s.parts.flatMap fun p => p.toJson.schemas := by
  cases s with
  | basic t => rfl
  | formatted f => rfl
  | reference g => rfl
  | anyOf ss =>
    show (anyOf ss).toJson :: (Json.itemSchemas (toJsonList ss) ++ []) = _
    rw [List.append_nil, Json.itemSchemas_eq, toJsonList_eq, List.flatMap_map]
    rfl
  | array s => rfl
  | object ps required closed =>
    show _ :: Json.memberSchemas (objectMembers (toJsonProperties ps) required closed) = _
    rw [memberSchemas_objectMembers, valueSchemas_toJsonProperties]
    rfl

/-- The references of a schema are its own and those of its parts. -/
theorem references_toJson (s : Schema) : s.toJson.references =
    s.toJson.reference?.toList ++ s.parts.flatMap fun p => p.toJson.references := by
  unfold Json.references
  rw [schemas_toJson, List.filterMap_cons, List.filterMap_flatMap]
  cases s.toJson.reference? <;> rfl

theorem references_anyOf (ss : List Schema) :
    (anyOf ss).toJson.references = ss.flatMap fun s => s.toJson.references :=
  references_toJson (anyOf ss)

theorem references_array (s : Schema) : (array s).toJson.references = s.toJson.references := by
  rw [references_toJson]
  exact List.append_nil _

theorem references_object (ps : Named Schema) (required : List String) (closed : Bool) :
    (object ps required closed).toJson.references =
      ps.flatMap fun p => p.2.toJson.references := by
  have hown : (object ps required closed).toJson.reference? = none := by
    cases closed <;> rfl
  rw [references_toJson, hown]
  show (ps.map (·.2)).flatMap (fun p => p.toJson.references) = _
  rw [List.flatMap_map]

/-! ## 3. Faults of forms -/

/-- What a schema itself has to observe. -/
def Observant : Schema → Prop
  | .anyOf ss => ss ≠ []
  | .object _ required _ => required.Nodup
  | .basic _ | .formatted _ | .reference _ | .array _ => True

theorem findSome?_objectMembers (props : Named Json) {required : List String} (h : required.Nodup)
    (closed : Bool) : (objectMembers props required closed).findSome? Json.memberFault? = none := by
  have hnames : (required.map Json.string).Nodup := h.map fun _ _ => Json.string.inj
  have hrequired : Keyword.takes .required (.array (required.map .string)) = true := by
    simp [Keyword.takes, Json.kind, hnames]
  have hfault : Json.memberFault? ("required", .array (required.map .string)) = none :=
    if_pos hrequired
  rw [List.findSome?_eq_none_iff]
  intro m hm
  unfold objectMembers at hm
  rw [List.mem_append, List.mem_cons, List.mem_cons, List.mem_singleton] at hm
  obtain (rfl | rfl | rfl) | hm := hm
  · rfl
  · rfl
  · exact hfault
  · cases closed with
    | false => cases hm
    | true => exact List.mem_singleton.1 hm ▸ rfl

theorem ownFault?_toJson (h : s.Observant) : s.toJson.ownFault? = none := by
  cases s with
  | basic t => cases t <;> rfl
  | formatted f => rfl
  | reference g => rfl
  | anyOf ss =>
    cases ss with
    | nil => exact absurd rfl h
    | cons s rest => rfl
  | array s => rfl
  | object ps required closed => exact findSome?_objectMembers (toJsonProperties ps) h closed

theorem faultless_toJson (h : s.Observant) (hparts : ∀ p ∈ s.parts, p.toJson.Faultless) :
    s.toJson.Faultless := by
  unfold Json.Faultless
  rw [schemas_toJson, List.forall_mem_cons, List.forall_mem_flatMap]
  exact ⟨ownFault?_toJson h, hparts⟩

theorem faultless_basic (t : BasicType) : (basic t).toJson.Faultless :=
  faultless_toJson trivial nofun

theorem faultless_formatted (f : Format) : (formatted f).toJson.Faultless :=
  faultless_toJson trivial nofun

theorem faultless_reference (fragment : String) : (reference fragment).toJson.Faultless :=
  faultless_toJson trivial nofun

theorem faultless_anyOf {ss : List Schema} (hne : ss ≠ []) (h : ∀ s ∈ ss, s.toJson.Faultless) :
    (anyOf ss).toJson.Faultless :=
  faultless_toJson hne h

theorem faultless_array (h : s.toJson.Faultless) : (array s).toJson.Faultless :=
  faultless_toJson trivial (List.forall_mem_singleton.2 h)

theorem faultless_object {ps : Named Schema} {required : List String} {closed : Bool}
    (hrequired : required.Nodup) (h : ∀ p ∈ ps, p.2.toJson.Faultless) :
    (object ps required closed).toJson.Faultless :=
  faultless_toJson hrequired (List.forall_mem_map.2 h)

end Schema

theorem Definition.faultless_strings (values : List String) :
    (Definition.strings values).toJson.Faultless := by
  intro u hu
  rw [List.mem_singleton.1 hu]
  rfl

/-! ## 4. Forms of whole schemas -/

namespace RootSchema

variable {x : RootSchema}

/-- The schema of the object itself. -/
def body (x : RootSchema) : Schema := .object x.properties x.required x.closed

theorem definitions_toJson (x : RootSchema) :
    x.toJson.definitions = x.definitions.mapValues Definition.toJson := by
  -- No other member of a schema has the name of the definitions.
  unfold toJson Schema.objectMembers
  cases x.closed <;> rfl

theorem schemas_toJson (x : RootSchema) : x.toJson.schemas =
    x.toJson :: ((x.body.parts.flatMap fun p => p.toJson.schemas) ++
      x.definitions.flatMap fun d => d.2.toJson.schemas) := by
  have hmembers : x.toJson.schemas = x.toJson ::
      (Json.valueSchemas (Schema.toJsonProperties x.properties) ++
        (Json.valueSchemas (x.definitions.mapValues Definition.toJson) ++ [])) := by
    unfold toJson Schema.objectMembers
    cases x.closed <;> rfl
  have hdefinitions : Json.valueSchemas (x.definitions.mapValues Definition.toJson) =
      x.definitions.flatMap fun d => d.2.toJson.schemas := by
    rw [Json.valueSchemas_eq, Named.mapValues, List.flatMap_map]
  rw [hmembers, Schema.valueSchemas_toJsonProperties, hdefinitions, List.append_nil]
  rfl

/-- The references of a whole schema are those of its object and of its definitions. -/
theorem references_toJson (x : RootSchema) : x.toJson.references =
    x.body.toJson.references ++ x.definitions.flatMap fun d => d.2.toJson.references := by
  have hown : x.toJson.reference? = none := by
    unfold toJson Schema.objectMembers
    cases x.closed <;> rfl
  have hbody : x.body.toJson.reference? = none := by
    unfold body
    cases x.closed <;> rfl
  rw [Schema.references_toJson, hbody]
  unfold Json.references
  rw [schemas_toJson, List.filterMap_cons, hown, List.filterMap_append, List.filterMap_flatMap,
    List.filterMap_flatMap]
  rfl

/-- The members around those of the object have no faults. -/
theorem ownFault?_toJson (x : RootSchema) : x.toJson.ownFault? = x.body.toJson.ownFault? := by
  unfold toJson body Schema.toJson Json.ownFault?
  dsimp only
  rw [List.findSome?_append, List.findSome?_append]
  exact Option.or_none

/-- The faults of a whole schema are those of its object and of its definitions. -/
theorem findSome?_ownFault? (x : RootSchema) : x.toJson.schemas.findSome? Json.ownFault? =
    (x.body.toJson.schemas.findSome? Json.ownFault?).or
      ((x.definitions.flatMap fun d => d.2.toJson.schemas).findSome? Json.ownFault?) := by
  rw [schemas_toJson, Schema.schemas_toJson, List.findSome?_cons, List.findSome?_cons,
    ownFault?_toJson, List.findSome?_append]
  cases x.body.toJson.ownFault? <;> rfl

theorem findSome?_of_faultless (hbody : x.body.toJson.Faultless)
    (hdefinitions : ∀ d ∈ x.definitions, d.2.toJson.Faultless) :
    x.toJson.schemas.findSome? Json.ownFault? = none := by
  rw [findSome?_ownFault?, hbody.findSome?_eq_none, Option.none_or, List.findSome?_eq_none_iff,
    List.forall_mem_flatMap]
  exact hdefinitions

end RootSchema
end CallContract
