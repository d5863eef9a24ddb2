import CallContract.Proofs.Acceptance
import CallContract.Proofs.NormalForm
import CallContract.Proofs.Outlines

/-!
# Reading the canonical form of a document

The canonical form of a document is the value of an outline in which nothing is repeated
(`toJson_eq`).  It is read as the document itself exactly if the document is canonical: its types
are normal, and it repeats no name.  What was read and then validated is canonical.
-/

namespace CallContract

theorem Checked.each_eq_ok_iff {ε α : Type} {xs : List (Checked ε α)} {ys : List α} :
    each xs = .ok ys ↔ List.Forall₂ (fun x y => x = .ok y) xs ys := by
  induction xs generalizing ys with
  | nil =>
    rw [each, ok.injEq, List.forall₂_nil_left_iff]
    exact eq_comm
  | cons x rest ih =>
    simp only [each, both_eq_ok_iff, ih, List.forall₂_cons_left_iff, eq_comm (b := ys)]

namespace Document

variable {d : Document} {o : Outline}

/-- The types of the document are normal, and no name is repeated among its enumerations, its
records or its methods, inside an enumeration or among fields. -/
structure Canonical (d : Document) : Prop where
  normal_types : ∀ fs ∈ d.fieldLists, ∀ k t, (k, t) ∈ fs → t.Normal
  distinct_enumerations : (d.enumerations.map (·.name)).Nodup
  distinct_records : (d.records.map (·.name)).Nodup
  distinct_methods : (d.methods.map (·.name)).Nodup
  distinct_members : ∀ e ∈ d.enumerations, e.members.Distinct
  distinct_fields : ∀ fs ∈ d.fieldLists, fs.Distinct

/-! ## 1. Reading the types of an outline -/

theorem recordOf_eq_ok_iff {name : String} {members : Named Json} {r : Record String} :
    recordOf name members = .ok r ↔ name = r.name ∧ Ty.ofFields members = .ok r.fields := by
  rcases r with ⟨name', fields⟩
  simp only [recordOf, fieldsOf, Checked.map_eq_ok_iff, Checked.mapFaults_eq_ok_iff,
    Record.mk.injEq]
  constructor
  · rintro ⟨fs, hfs, hname, heq⟩
    exact ⟨hname, heq ▸ hfs⟩
  · rintro ⟨hname, hfs⟩
    exact ⟨fields, hfs, hname, rfl⟩

theorem methodOf_eq_ok_iff {name : String} {sides : Named Json × Named Json} {m : Method String} :
    methodOf name sides = .ok m ↔ name = m.name ∧ Ty.ofFields sides.1 = .ok m.request ∧
      Ty.ofFields sides.2 = .ok m.response := by
  rcases m with ⟨name', request, response⟩
  simp only [methodOf, fieldsOf, Checked.both_eq_ok_iff, Checked.mapFaults_eq_ok_iff,
    Method.mk.injEq]
  constructor
  · rintro ⟨fs, gs, hfs, hgs, hname, hrequest, hresponse⟩
    exact ⟨hname, hrequest ▸ hfs, hresponse ▸ hgs⟩
  · rintro ⟨hname, hfs, hgs⟩
    exact ⟨request, response, hfs, hgs, hname, rfl, rfl⟩

/-- The outline is read as the document if it has the same names and its types are read as those of
the document. -/
theorem ofOutline_eq_ok_iff :
    ofOutline o = .ok d ↔ (o.enumerations.map fun e => ⟨e.1, e.2⟩) = d.enumerations ∧
      List.Forall₂ (fun e r => e.1 = r.name ∧ Ty.ofFields e.2 = .ok r.fields)
        o.records d.records ∧
      List.Forall₂ (fun e m => e.1 = m.name ∧ Ty.ofFields e.2.1 = .ok m.request ∧
        Ty.ofFields e.2.2 = .ok m.response) o.methods d.methods := by
  rcases d with ⟨enumerations, records, methods⟩
  simp only [ofOutline, Checked.both_eq_ok_iff, Checked.each_eq_ok_iff, List.forall₂_map_left_iff,
    recordOf_eq_ok_iff, methodOf_eq_ok_iff, Document.mk.injEq]
  constructor
  · rintro ⟨rs, ms, hrs, hms, henumerations, hrecords, hmethods⟩
    exact ⟨henumerations, hrecords ▸ hrs, hmethods ▸ hms⟩
  · rintro ⟨henumerations, hrs, hms⟩
    exact ⟨records, methods, hrs, hms, henumerations, rfl, rfl⟩

theorem accept_eq_ok_iff {x : Checked Finding Document} : accept x = .ok d ↔ x = .ok d := by
  cases x <;> simp [accept]

theorem flat_of_ofOutline (h : ofOutline o = .ok d) :
    ∀ fs ∈ d.fieldLists, ∀ k t, (k, t) ∈ fs → t.Flat := by
  have hfields {members : Named Json} {fs : Fields String} (h : Ty.ofFields members = .ok fs) :
      ∀ k t, (k, t) ∈ fs → t.Flat :=
    (Ty.readsNormal_of_ofFields (fun _ v _ => Ty.readsNormal v) h).1
  rcases ofOutline_eq_ok_iff.1 h with ⟨-, hrecords, hmethods⟩
  rw [fieldLists, forall_mem_fieldsOfAll]
  constructor
  · intro r hr
    rcases exists_mem_of_forall₂ hrecords hr with ⟨e, -, -, hread⟩
    exact hfields hread
  · intro m hm
    rcases exists_mem_of_forall₂ hmethods hm with ⟨e, -, -, hrequest, hresponse⟩
    exact ⟨hfields hrequest, hfields hresponse⟩

/-! ## 2. The outline of a canonical form -/

/-- The outline that the canonical form of a document has: a repeated name keeps its last value. -/
def outline (d : Document) : Outline where
  enumerations := Named.merge (d.enumerations.map fun e => (e.name, e.members.merge))
  records := Named.merge (d.records.map fun r => (r.name, (r.fields.mapValues Ty.toJson).merge))
  methods := Named.merge (d.methods.map fun m =>
    (m.name, ((m.request.mapValues Ty.toJson).merge, (m.response.mapValues Ty.toJson).merge)))

theorem toJson_eq (d : Document) : d.toJson = d.outline.toJson := by
  have henumeration (e : Enumeration) : e.toJson = Outline.membersJson e.members.merge := by
    rw [Enumeration.toJson, Named.merge_mapValues]
    rfl
  have hfields (fs : Fields String) : fs.toJson = .object (fs.mapValues Ty.toJson).merge := by
    rw [Fields.toJson, Ty.toJsonFields_eq]
  rw [toJson, Outline.toJson, outline, ← Named.merge_mapValues, ← Named.merge_mapValues,
    ← Named.merge_mapValues]
  simp only [Named.mapValues, List.map_map, Function.comp_def, henumeration, hfields,
    Method.toJson, Outline.sidesJson]

/-- Reading a canonical form is reading the types of its outline. -/
theorem ofJson_toJson_eq_ok_iff {d' : Document} :
    ofJson d.toJson = .ok d' ↔ ofOutline d.outline = .ok d' := by
  rw [ofJson, toJson_eq, Outline.ofReading_toJson]
  exact accept_eq_ok_iff

theorem outline_of_canonical (hd : d.Canonical) : d.outline =
    ⟨d.enumerations.map fun e => (e.name, e.members),
      d.records.map fun r => (r.name, r.fields.mapValues Ty.toJson),
      d.methods.map fun m =>
        (m.name, (m.request.mapValues Ty.toJson, m.response.mapValues Ty.toJson))⟩ := by
  have hmembers : (d.enumerations.map fun e => (e.name, e.members.merge)) =
      d.enumerations.map fun e => (e.name, e.members) := by
    apply List.map_congr_left
    intro e he
    rw [Named.merge_of_distinct (hd.distinct_members e he)]
  have hfields : ∀ fs ∈ d.fieldLists,
      (fs.mapValues Ty.toJson).merge = fs.mapValues Ty.toJson := by
    intro fs h
    apply Named.merge_of_distinct
    rw [Named.Distinct, Named.names_mapValues]
    exact hd.distinct_fields fs h
  rw [fieldLists, forall_mem_fieldsOfAll] at hfields
  have hrecords : (d.records.map fun r => (r.name, (r.fields.mapValues Ty.toJson).merge)) =
      d.records.map fun r => (r.name, r.fields.mapValues Ty.toJson) := by
    apply List.map_congr_left
    intro r hr
    rw [hfields.1 r hr]
  have hmethods : (d.methods.map fun m => (m.name,
        ((m.request.mapValues Ty.toJson).merge, (m.response.mapValues Ty.toJson).merge))) =
      d.methods.map fun m =>
        (m.name, (m.request.mapValues Ty.toJson, m.response.mapValues Ty.toJson)) := by
    apply List.map_congr_left
    intro m hm
    rw [(hfields.2 m hm).1, (hfields.2 m hm).2]
  rw [outline, hmembers, hrecords, hmethods, Named.merge_map_of_nodup hd.distinct_enumerations,
    Named.merge_map_of_nodup hd.distinct_records, Named.merge_map_of_nodup hd.distinct_methods]

/-! ## 3. Canonical documents are read back -/

theorem ofOutline_of_canonical (hd : d.Canonical) : ofOutline d.outline = .ok d := by
  have hread : ∀ fs ∈ d.fieldLists, Ty.ofFields (fs.mapValues Ty.toJson) = .ok fs := by
    intro fs h
    apply Ty.ofFields_mapValues
    intro k t hmem
    exact Ty.ofJson_toJson (hd.normal_types fs h k t hmem)
  rw [fieldLists, forall_mem_fieldsOfAll] at hread
  rw [outline_of_canonical hd, ofOutline_eq_ok_iff, List.forall₂_map_left_iff,
    List.forall₂_map_left_iff, List.forall₂_same, List.forall₂_same, List.map_map]
  exact ⟨List.map_id' _, fun r hr => ⟨rfl, hread.1 r hr⟩, fun m hm => ⟨rfl, hread.2 m hm⟩⟩

theorem canonical_of_ofFields {gs fs : Fields String}
    (h : Ty.ofFields (gs.mapValues Ty.toJson).merge = .ok fs) :
    (∀ k t, (k, t) ∈ fs → t.Normal) ∧ fs.Distinct := by
  -- The members that were merged are canonical forms, so nothing below them is repeated.
  have hvalues : ∀ m ∈ (gs.mapValues Ty.toJson).merge, m.2.Distinct := by
    intro m hm
    rcases List.mem_map.1 (Named.mem_of_mem_merge hm) with ⟨g, -, rfl⟩
    exact Ty.distinct_toJson g.2
  have hread := Ty.readsNormal_of_ofFields (fun _ v _ => Ty.readsNormal v) h
  refine ⟨fun k t hmem => ⟨hread.1 k t hmem, hread.2 hvalues k t hmem⟩, ?_⟩
  rw [Named.Distinct, Ty.names_of_ofFields h]
  exact Named.distinct_merge _

theorem canonical_of_ofOutline (h : ofOutline d.outline = .ok d) : d.Canonical := by
  rcases ofOutline_eq_ok_iff.1 h with ⟨henumerations, hrecords, hmethods⟩
  have hfields : ∀ fs ∈ d.fieldLists, (∀ k t, (k, t) ∈ fs → t.Normal) ∧ fs.Distinct := by
    rw [fieldLists, forall_mem_fieldsOfAll]
    constructor
    · intro r hr
      rcases exists_mem_of_forall₂ hrecords hr with ⟨e, he, -, hread⟩
      rcases List.mem_map.1 (Named.mem_of_mem_merge he) with ⟨r', -, rfl⟩
      exact canonical_of_ofFields hread
    · intro m hm
      rcases exists_mem_of_forall₂ hmethods hm with ⟨e, he, -, hrequest, hresponse⟩
      rcases List.mem_map.1 (Named.mem_of_mem_merge he) with ⟨m', -, rfl⟩
      exact ⟨canonical_of_ofFields hrequest, canonical_of_ofFields hresponse⟩
  exact {
    normal_types := fun fs h => (hfields fs h).1
    distinct_enumerations := by
      rw [← henumerations, List.map_map]
      exact Named.distinct_merge _
    distinct_records := by
      rw [← map_eq_of_forall₂ hrecords fun _ _ h => h.1]
      exact Named.distinct_merge _
    distinct_methods := by
      rw [← map_eq_of_forall₂ hmethods fun _ _ h => h.1]
      exact Named.distinct_merge _
    distinct_members := by
      intro e he
      rw [← henumerations] at he
      rcases List.mem_map.1 he with ⟨entry, hentry, rfl⟩
      rcases List.mem_map.1 (Named.mem_of_mem_merge hentry) with ⟨e', -, rfl⟩
      exact Named.distinct_merge _
    distinct_fields := fun fs h => (hfields fs h).2 }

theorem canonical_of_wellFormed (hd : d.WellFormed)
    (hflat : ∀ fs ∈ d.fieldLists, ∀ k t, (k, t) ∈ fs → t.Flat) : d.Canonical where
  normal_types := by
    intro fs h k t hmem
    refine ⟨hflat fs h k t hmem, Ty.everywhere_distinctHere_iff.2 fun inner hin => ?_⟩
    exact hd.distinct_fields fs h inner (.object hmem hin)
  distinct_enumerations := (List.nodup_append.1 hd.distinct_types).1
  distinct_records := hd.distinct_records
  distinct_methods := hd.distinct_methods
  distinct_members := hd.distinct_members
  distinct_fields := fun fs h => hd.distinct_fields fs h fs .self

/-! ## 4. Documents that were read -/

theorem exists_ofOutline_of_ofText {text : String} (h : ofText text = .ok d) :
    ∃ o, ofOutline o = .ok d := by
  dsimp only [ofText] at h
  split at h
  · cases h
  · cases h
  · rename_i o _
    split at h
    · cases h
    · exact ⟨o, accept_eq_ok_iff.1 h⟩

theorem exists_ofOutline_of_ofJson {v : Json} (h : ofJson v = .ok d) :
    ∃ o, ofOutline o = .ok d := by
  rw [ofJson] at h
  split at h
  · rename_i o _
    exact ⟨o, accept_eq_ok_iff.1 h⟩
  · cases h

/-- **The canonical form is read as the document exactly if the document is canonical**, and it is
for every document that was read, as text or as a value, and then validated. -/
theorem canonical_round_trip (d : Document) :
    (ofJson d.toJson = .ok d ↔ d.Canonical) ∧
    ∀ s c, d.validate s = .ok c →
      (∃ text, ofText text = .ok d) ∨ (∃ v, ofJson v = .ok d) → ofJson d.toJson = .ok d := by
  -- The canonical form has an outline of its own, from which the document is read back.
  have hiff : ofJson d.toJson = .ok d ↔ d.Canonical := by
    rw [ofJson_toJson_eq_ok_iff]
    exact ⟨canonical_of_ofOutline, ofOutline_of_canonical⟩
  refine ⟨hiff, fun s c hvalid hread => ?_⟩
  -- Text and values only differ in how the outline is found.
  have hflat : ∃ o, ofOutline o = .ok d := by
    rcases hread with ⟨text, h⟩ | ⟨v, h⟩
    · exact exists_ofOutline_of_ofText h
    · exact exists_ofOutline_of_ofJson h
  rcases hflat with ⟨o, ho⟩
  exact hiff.2 (canonical_of_wellFormed (wellFormed_of_validate hvalid) (flat_of_ofOutline ho))

/-- Nodes that may have a next one. -/
def chain : Document where
  enumerations := []
  records := [⟨"Node", [("next", .nullable (.named "Node")), ("tags", .array (.scalar .string))]⟩]
  methods := [⟨"find_head", [], [("node", .named "Node")]⟩]

/-- A value that is read as `chain` but is not its canonical form: null is nested and sections and
directions are in another order. -/
def chainValue : Json :=
  .object [
    ("methods", .object [("find_head", .object [
      ("response", .object [("node", .string "Node")]), ("request", .object [])])]),
    ("objects", .object [("Node", .object [
      ("next", .array [.string "null", .array [.string "Node", .string "null"]]),
      ("tags", .array [.string "string"])])])]

theorem round_trip_chain :
    ofJson chainValue = .ok chain ∧ chain.toJson ≠ chainValue ∧
      ofJson chain.toJson = .ok chain := by
  have hread : ofJson chainValue = .ok chain := by decide +kernel
  have hok : (chain.validate .strict).isOk = true := by decide +kernel
  cases hvalid : chain.validate .strict with
  | error r =>
    rw [hvalid] at hok
    cases hok
  | ok c =>
    refine ⟨hread, by decide +kernel, ?_⟩
    exact (canonical_round_trip chain).2 .strict c hvalid (.inr ⟨chainValue, hread⟩)

end Document
end CallContract
