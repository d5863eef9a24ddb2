import CallContract.Proofs.Acceptance

/-!
# Resolution

A contract has the declarations of its document with every name replaced by the place of the
declaration that has it (`Contract.Resolved`).  All these places exist, and putting the names back
gives the document.  So looking a name up in the contract is the same as searching the document.
-/

namespace CallContract

/-! ## 1. The contract of a document -/

namespace Contract

/-- The fields of the records and of both directions of the methods. -/
def fieldLists (c : Contract) : List (Fields DeclId) := fieldsOfAll c.records c.methods

/-- There is a declaration in the place, and for a record one as it was written too. -/
def InRange (c : Contract) : DeclId → Prop
  | .enumeration i => i < c.document.enumerations.length
  | .record i => i < c.records.length ∧ i < c.document.records.length

/-- The contract has the scope of its document, which is well formed, and its declarations as this
scope resolves them. -/
structure Resolved (c : Contract) : Prop where
  wellFormed : c.document.WellFormed
  scope : c.scope = c.document.scope
  records : c.document.records.mapM (Record.resolve? c.scope) = some c.records
  methods : c.document.methods.mapM (Method.resolve? c.scope) = some c.methods

/-- Methods that have distinct names are all kept. -/
theorem methods_assemble {d : Document} {sc : Scope} {records : List (Record DeclId)}
    {methods : List (Method DeclId)} {warnings : List Finding}
    (h : (methods.map (·.name)).Nodup) :
    (assemble d sc records methods warnings).methods = methods := by
  show (Named.merge (methods.map fun m => (m.name, m))).map (·.2) = methods
  rw [Named.merge_map_of_nodup h, List.map_map]
  exact List.map_id' methods

theorem names_of_mapM_resolve? {sc : Scope} {ms : List (Method String)} {ms' : List (Method DeclId)}
    (h : ms.mapM (Method.resolve? sc) = some ms') : ms.map (·.name) = ms'.map (·.name) := by
  apply map_eq_of_forall₂ (mapM_eq_some_iff.1 h)
  intro m m' hm
  rw [Method.resolve?_eq] at hm
  exact (Method.rename?_eq_some_iff.1 hm).1

theorem resolved_of_validate {d : Document} {s : Strictness} {c : Contract}
    (h : d.validate s = .ok c) : c.document = d ∧ c.Resolved := by
  have hd := Document.wellFormed_of_validate h
  rcases Document.validate_eq_ok_iff.1 h with ⟨-, records, methods, hrecords, hmethods, rfl⟩
  refine ⟨rfl, hd, rfl, hrecords, ?_⟩
  rw [methods_assemble (names_of_mapM_resolve? hmethods ▸ hd.distinct_methods)]
  exact hmethods

/-! ## 2. Places and names -/

namespace Resolved

variable {c : Contract}

theorem length_records (hc : c.Resolved) : c.document.records.length = c.records.length :=
  (mapM_eq_some_iff.1 hc.records).length_eq

theorem names_records (hc : c.Resolved) :
    c.document.records.map (·.name) = c.records.map (·.name) :=
  map_eq_of_forall₂ (mapM_eq_some_iff.1 hc.records) fun _ _ h => (Record.rename?_eq_some_iff.1 h).1

theorem names_methods (hc : c.Resolved) :
    c.document.methods.map (·.name) = c.methods.map (·.name) :=
  names_of_mapM_resolve? hc.methods

theorem nameOf_eq (hc : c.Resolved) {id : DeclId} {n : String}
    (h : c.document.declaredName? id = some n) : c.nameOf id = n := by
  cases id with
  | enumeration i =>
    rcases Option.map_eq_some_iff.1 h with ⟨e, he, rfl⟩
    rw [nameOf, enumeration?, he]
    rfl
  | record i =>
    rw [Document.declaredName?, ← List.getElem?_map, hc.names_records, List.getElem?_map] at h
    rcases Option.map_eq_some_iff.1 h with ⟨r, hr, rfl⟩
    rw [nameOf, record?, hr]
    rfl

theorem nameOf_find? (hc : c.Resolved) {n : String} {id : DeclId}
    (h : c.scope.find? n = some id) : c.nameOf id = n := by
  rw [hc.scope] at h
  exact hc.nameOf_eq (Document.declaredName?_of_find? h)

theorem inRange_of_declaredName? (hc : c.Resolved) {id : DeclId}
    (h : (c.document.declaredName? id).isSome) : c.InRange id := by
  cases id with
  | enumeration i => simpa [Document.declaredName?, InRange] using h
  | record i => simpa [Document.declaredName?, InRange, ← hc.length_records] using h

/-- Whatever takes the places back to the names takes the contract back to the document. -/
theorem mapM_rename? (hc : c.Resolved) {g : DeclId → Option String}
    (hg : ∀ n id, c.scope.find? n = some id → g id = some n) :
    c.records.mapM (Record.rename? g) = some c.document.records ∧
      c.methods.mapM (Method.rename? g) = some c.document.methods := by
  constructor
  · exact mapM_of_mapM hc.records fun r _ r' h => Record.rename?_rename? h hg
  · apply mapM_of_mapM hc.methods
    intro m _ m' h
    rw [Method.resolve?_eq] at h
    exact Method.rename?_rename? h hg

theorem inRange (hc : c.Resolved) : ∀ fs ∈ c.fieldLists, ∀ id : DeclId,
    (Ty.named id).Part (.object fs) → c.InRange id := by
  have hback := hc.mapM_rename? (g := c.document.declaredName?) fun n id h =>
    Document.declaredName?_of_find? (hc.scope ▸ h)
  have hrecords : ∀ r ∈ c.records, (r.rename? c.document.declaredName?).isSome :=
    isSome_mapM_iff.1 (hback.1 ▸ rfl)
  have hmethods : ∀ m ∈ c.methods, (m.rename? c.document.declaredName?).isSome :=
    isSome_mapM_iff.1 (hback.2 ▸ rfl)
  have hfields {fs : Fields DeclId} (h : (Ty.renameFields? c.document.declaredName? fs).isSome) :
      ∀ id : DeclId, (Ty.named id).Part (.object fs) → c.InRange id := fun id hid =>
    hc.inRange_of_declaredName? (Ty.isSome_renameFields?_iff.1 h id
      ((Ty.mem_references_iff (t := .object fs)).2 hid))
  rw [fieldLists, forall_mem_fieldsOfAll]
  refine ⟨fun r hr => hfields ?_, fun m hm => ?_⟩
  · exact Record.isSome_rename?_iff.1 (hrecords r hr)
  · have h := Method.isSome_rename?_iff.1 (hmethods m hm)
    exact ⟨hfields h.1, hfields h.2⟩

/-! ## 3. Looking names up -/

/-- The declaration of a name is the first enumeration of the name, and otherwise the first
record. -/
theorem find?_eq_or (hc : c.Resolved) (n : String) :
    c.find? n = ((c.document.enumerations.find? fun e => e.name = n).map .enumeration).or
      ((c.records.find? fun r => r.name = n).map .record) := by
  have hplace : c.document.records.findIdx? (fun r => r.name = n) =
      c.records.findIdx? fun r => r.name = n := by
    have h := congrArg (List.findIdx? fun name => decide (name = n)) hc.names_records
    rw [List.findIdx?_map, List.findIdx?_map] at h
    exact h
  rw [find?, hc.scope, Document.find?_scope_eq_or, hplace,
    List.find?_eq_bind_findIdx?_getElem?, List.find?_eq_bind_findIdx?_getElem?]
  cases he : c.document.enumerations.findIdx? fun e => e.name = n with
  | some i =>
    rcases List.findIdx?_eq_some_iff_getElem.1 he with ⟨hi, -⟩
    simp [enumeration?, hi]
  | none =>
    cases c.records.findIdx? fun r => r.name = n with
    | some i => simp [record?]
    | none => rfl

theorem findEnumeration?_eq (hc : c.Resolved) (n : String) :
    c.findEnumeration? n = c.document.enumerations.find? fun e => e.name = n := by
  rw [findEnumeration?, hc.find?_eq_or]
  cases c.document.enumerations.find? fun e => e.name = n with
  | some e => rfl
  | none => cases c.records.find? fun r => r.name = n <;> rfl

theorem findRecord?_eq (hc : c.Resolved) (n : String) :
    c.findRecord? n = c.records.find? fun r => r.name = n := by
  rw [findRecord?, hc.find?_eq_or]
  cases he : c.document.enumerations.find? fun e => e.name = n with
  | some e =>
    have hname : e.name = n := by simpa using List.find?_some he
    have hin : n ∈ c.document.enumerations.map (·.name) :=
      hname ▸ List.mem_map_of_mem (List.mem_of_find?_eq_some he)
    -- Then no record has the name, since enumerations and records share one space of names.
    have hapart := (List.nodup_append.1 hc.wellFormed.distinct_types).2.2 n hin
    have hnone : c.records.find? (fun r => r.name = n) = none := by
      rw [List.find?_eq_none]
      intro r hr hname
      refine hapart n ?_ rfl
      rw [hc.names_records, ← of_decide_eq_true hname]
      exact List.mem_map_of_mem hr
    rw [hnone]
    rfl
  | none => cases c.records.find? fun r => r.name = n <;> rfl

theorem size_scope (hc : c.Resolved) :
    c.scope.size = c.document.enumerations.length + c.document.records.length := by
  rw [hc.scope, Scope.size, Document.entries_scope hc.wellFormed.distinct_types,
    Document.declarations, List.length_append, List.length_mapIdx, List.length_mapIdx]

end Resolved
end Contract

/-- Every place in the types of the contract is the place of a declaration, and with the names of
the declarations put back the records and methods are those of the document.  Looking a name up is
searching the enumerations and records for it, and the scope has one entry for each of them. -/
structure Contract.FaithfulTo (c : Contract) (d : Document) : Prop where
  document : c.document = d
  in_range : ∀ fs ∈ c.fieldLists, ∀ id : DeclId, (Ty.named id).Part (.object fs) → c.InRange id
  records : c.records.mapM (Record.rename? fun id => some (c.nameOf id)) = some d.records
  methods : c.methods.mapM (Method.rename? fun id => some (c.nameOf id)) = some d.methods
  scope_find : ∀ n, c.scope.find? n =
    ((d.enumerations.findIdx? fun e => e.name = n).map .enumeration).or
      ((d.records.findIdx? fun r => r.name = n).map .record)
  find : ∀ n, c.find? n = ((d.enumerations.find? fun e => e.name = n).map .enumeration).or
    ((c.records.find? fun r => r.name = n).map .record)
  find_enumeration : ∀ n, c.findEnumeration? n = d.enumerations.find? fun e => e.name = n
  find_record : ∀ n, c.findRecord? n = c.records.find? fun r => r.name = n
  find_written : ∀ n, (c.findRecord? n).bind (Record.rename? fun id => some (c.nameOf id)) =
    d.records.find? fun r => r.name = n
  size : c.scope.size = d.enumerations.length + d.records.length

namespace Document

/-- **Resolution is faithful**: what validation makes of a document says the same as the
document. -/
theorem faithful_of_validate {d : Document} {s : Strictness} {c : Contract}
    (h : d.validate s = .ok c) : c.FaithfulTo d := by
  rcases Contract.resolved_of_validate h with ⟨rfl, hc⟩
  have hback := hc.mapM_rename? fun n id hfind => congrArg some (hc.nameOf_find? hfind)
  exact {
    document := rfl
    in_range := hc.inRange
    records := hback.1
    methods := hback.2
    scope_find := fun n => hc.scope ▸ find?_scope_eq_or _ n
    find := hc.find?_eq_or
    find_enumeration := hc.findEnumeration?_eq
    find_record := hc.findRecord?_eq
    find_written := fun n => by
      rw [hc.findRecord?_eq]
      apply find?_of_mapM hback.1
      intro r r' hr
      rw [(Record.rename?_eq_some_iff.1 hr).1]
    size := hc.size_scope }

/-- Cars have paints and an owner, who is a person or just a name. -/
def garage : Document where
  enumerations := [⟨"Color", [("Red", "red"), ("Blue", "blue")]⟩]
  records := [
    ⟨"Car", [("paints", .nullable (.array (.named "Color"))),
      ("owner", .union [.named "Person", .scalar .string])]⟩,
    ⟨"Person", [("name", .scalar .string)]⟩]
  methods := [⟨"find_car", [("owner", .named "Person")], [("car", .nullable (.named "Car"))]⟩]

/-- The contract of `garage`. -/
def garageContract : Contract where
  document := garage
  scope := ⟨[("Color", .enumeration 0), ("Car", .record 0), ("Person", .record 1)]⟩
  records := [
    ⟨"Car", [("paints", .nullable (.array (.named (.enumeration 0)))),
      ("owner", .union [.named (.record 1), .scalar .string])]⟩,
    ⟨"Person", [("name", .scalar .string)]⟩]
  methods := [
    ⟨"find_car", [("owner", .named (.record 1))], [("car", .nullable (.named (.record 0)))]⟩]
  warnings := []

theorem faithful_garage :
    garage.validate .strict = .ok garageContract ∧ garageContract.FaithfulTo garage := by
  have h : garage.validate .strict = .ok garageContract := by decide +kernel
  exact ⟨h, faithful_of_validate h⟩

end Document
end CallContract
