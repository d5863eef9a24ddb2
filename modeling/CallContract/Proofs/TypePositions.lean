import CallContract.Proofs.RoundTrip
import CallContract.Proofs.ShapeGrammar

/-!
# Places of types

The places of types in a value that has the shape of a document, found without its reader: the
fields of every record, and then of every method those of its request and those of its response.
Reading the document is reading each of these values as a type.  Whatever is wrong with one of them
is told, seen from the place, and if nothing is wrong, there is one declaration for each entry.
-/

namespace CallContract

/-! ## 1. Places -/

/-- The members of an object; other values have none. -/
def Json.entries : Json → Named Json
  | .object members => members
  | .null | .boolean _ | .number _ | .string _ | .array _ => []

/-- All that is wrong with a value that is read as a type on its own. -/
def Ty.findingsIn (v : Json) : List Finding := (Ty.ofJson v).faults.map (.ofMisfit .expression [])

/-- A value in the place of a type: the declaration that it is in, and the names that lead to it
from there. -/
structure TypePosition where
  kind : Kind
  declaration : String
  names : List String
  type : Json
  deriving DecidableEq

namespace TypePosition

/-- The dotted path of the position. -/
def path (p : TypePosition) : String :=
  ".".intercalate (p.kind.section :: p.declaration :: p.names)

/-- The finding about the type in the position, seen from the document. -/
def place (p : TypePosition) (f : Finding) : Finding :=
  ⟨⟨.declaration p.kind p.declaration, p.names.map .field ++ f.location.route⟩, f.defect⟩

/-- All that is wrong with the type in the position. -/
def findings (p : TypePosition) : List Finding := (Ty.findingsIn p.type).map p.place

end TypePosition

namespace Outline

/-- The entries of a section of a document, in order. -/
def declarations (k : Kind) (v : Json) : Named Json := (sectionIn k v.entries).entries

/-- The entries of one direction of a method, in order. -/
def sideIn (d : Direction) (v : Json) : Named Json := (v.entries.lookup d.key).elim [] Json.entries

def recordPositions (r : String × Json) : List TypePosition :=
  r.2.entries.map fun f => ⟨.record, r.1, [f.1], f.2⟩

def methodPositions (m : String × Json) : List TypePosition :=
  let side (d : Direction) : List TypePosition :=
    (sideIn d m.2).map fun f => ⟨.method, m.1, [d.key, f.1], f.2⟩
  side .request ++ side .response

/-- The places of types in a document, in order. -/
def typePositions (v : Json) : List TypePosition :=
  (declarations .record v).flatMap recordPositions ++
    (declarations .method v).flatMap methodPositions

end Outline

/-! ## 2. Paths -/

theorem Route.text_append (a b : Route) : Route.text (a ++ b) = a.text ++ b.text := by
  rw [text, text, text, List.map_append, String.join_append]

theorem Route.text_fields (name : String) (names : List String) :
    ".".intercalate (name :: names) = name ++ Route.text (names.map .field) := by
  induction names generalizing name with
  | nil => simp [Route.text]
  | cons n rest ih =>
    rw [String.intercalate_cons_cons, ih]
    simp [Route.text, Step.text, String.append_assoc]

/-- The path of a finding about a type begins with a dollar sign.  Seen from a position the path of
the position stands in its place. -/
theorem TypePosition.text_place (p : TypePosition) {f : Finding} (h : f ∈ Ty.findingsIn p.type) :
    ∃ rest, f.location.text = "$" ++ rest ∧ (p.place f).location.text = p.path ++ rest := by
  obtain ⟨m, -, rfl⟩ := List.mem_map.1 h
  refine ⟨m.route.text, rfl, ?_⟩
  have hplace : (p.place (.ofMisfit .expression [] m)).location.text =
      p.kind.section ++ "." ++ p.declaration ++ Route.text (p.names.map .field ++ m.route) := rfl
  have hpath : p.path = p.kind.section ++ "." ++ (p.declaration ++
      Route.text (p.names.map .field)) := by
    rw [path, String.intercalate_cons_cons, Route.text_fields]
  rw [hplace, hpath, Route.text_append]
  simp only [String.append_assoc]

/-! ## 3. Reading all types -/

theorem Ty.faults_ofFields (members : Named Json) : (Ty.ofFields members).faults =
    members.flatMap fun m => (Ty.ofJson m.2).faults.map (.below (.field m.1)) := by
  induction members with
  | nil => rfl
  | cons m rest ih =>
    obtain ⟨k, v⟩ := m
    rw [Ty.ofFields, Checked.faults_both, Checked.faults_mapFaults, ih, List.flatMap_cons]

namespace TypePosition

theorem findings_eq (p : TypePosition) : p.findings = (Ty.ofJson p.type).faults.map
    (.ofMisfit (.declaration p.kind p.declaration) (p.names.map .field)) := by
  rw [findings, Ty.findingsIn, List.map_map]
  rfl

theorem findings_eq_nil_iff {p : TypePosition} :
    p.findings = [] ↔ ∃ t, Ty.ofJson p.type = .ok t := by
  rw [findings_eq, List.map_eq_nil_iff, Checked.faults_eq_nil_iff]

end TypePosition

namespace Document

/-- What is wrong with fields is what is wrong with the types in their places. -/
theorem faults_fieldsOf (kind : Kind) (declaration : String) (names : List String)
    (members : Named Json) :
    (fieldsOf (.declaration kind declaration) (names.map .field) members).faults =
      (members.map fun f => (⟨kind, declaration, names ++ [f.1], f.2⟩ : TypePosition)).flatMap
        TypePosition.findings := by
  rw [fieldsOf, Checked.faults_mapFaults, Ty.faults_ofFields, List.map_flatMap, List.flatMap_map]
  apply List.flatMap_congr
  intro f _
  rw [TypePosition.findings_eq, List.map_map, List.map_append]
  apply List.map_congr_left
  intro m _
  show (⟨⟨_, names.map .field ++ .field f.1 :: m.route⟩, _⟩ : Finding) =
    ⟨⟨_, names.map .field ++ [.field f.1] ++ m.route⟩, _⟩
  rw [List.append_cons]
  rfl

theorem faults_recordOf (name : String) (w : Json) :
    (recordOf name w.entries).faults =
      (Outline.recordPositions (name, w)).flatMap TypePosition.findings := by
  rw [recordOf, Checked.faults_map]
  exact faults_fieldsOf .record name [] w.entries

theorem faults_methodOf (name : String) (w : Json) :
    (methodOf name (Outline.sideIn .request w, Outline.sideIn .response w)).faults =
      (Outline.methodPositions (name, w)).flatMap TypePosition.findings := by
  rw [methodOf, Checked.faults_both, Outline.methodPositions, List.flatMap_append]
  exact congrArg₂ _ (faults_fieldsOf .method name [Direction.request.key] _)
    (faults_fieldsOf .method name [Direction.response.key] _)

end Document

namespace Outline

variable {members : Named Json} {o : Outline}

theorem sideIn_of_sidesOf {v : Json} {sides : Named Json × Named Json} (h : SidesOf v sides) :
    (sideIn .request v, sideIn .response v) = sides := by
  obtain ⟨members, rfl, hperm⟩ := h
  have hdistinct := (names_of_sides hperm).1
  have hrequest : members.lookup Direction.request.key = some (.object sides.1) :=
    (Named.lookup_eq_some_iff hdistinct).2 (hperm.mem_iff.2 List.mem_cons_self)
  have hresponse : members.lookup Direction.response.key = some (.object sides.2) :=
    (Named.lookup_eq_some_iff hdistinct).2
      (hperm.mem_iff.2 (List.mem_cons_of_mem _ List.mem_cons_self))
  unfold sideIn
  rw [Json.entries, hrequest, hresponse]
  rfl

theorem Shape.declarations_enumeration (h : Shape members o) :
    declarations .enumeration (.object members) = o.enumerations.mapValues membersJson := by
  rw [declarations, Json.entries, h.stands .enumeration, Json.entries]

theorem Shape.declarations_record (h : Shape members o) :
    declarations .record (.object members) = o.records.mapValues .object := by
  rw [declarations, Json.entries, h.stands .record, Json.entries]

theorem Shape.declarations_method (h : Shape members o) :
    List.Forall₂ (fun m x => m.1 = x.1 ∧ (sideIn .request m.2, sideIn .response m.2) = x.2)
      (declarations .method (.object members)) o.methods := by
  obtain ⟨ms, hms, hmethods⟩ := h.stands .method
  rw [declarations, Json.entries, hms, Json.entries]
  exact hmethods.imp fun m x hmx => ⟨hmx.1, sideIn_of_sidesOf hmx.2⟩

/-- What is wrong with a document is what is wrong with the types in their places. -/
theorem Shape.faults_ofOutline (h : Shape members o) : (Document.ofOutline o).faults =
    (typePositions (.object members)).flatMap TypePosition.findings := by
  rw [Document.ofOutline, Checked.faults_both, Checked.faults_each, Checked.faults_each,
    List.flatMap_map, List.flatMap_map, typePositions, List.flatMap_append, List.flatMap_assoc,
    List.flatMap_assoc]
  congr 1
  · rw [h.declarations_record, Named.mapValues, List.flatMap_map]
    exact List.flatMap_congr fun r _ => Document.faults_recordOf r.1 (.object r.2)
  -- The directions of a method stand in any order; `sideIn` finds each where it is.
  · rw [List.flatMap_def, List.flatMap_def]
    congr 1
    symm
    apply map_eq_of_forall₂ h.declarations_method
    rintro m ⟨name, sides⟩ ⟨hname, hsides⟩
    dsimp only at hname hsides ⊢
    rw [← hsides, ← hname]
    exact (Document.faults_methodOf m.1 m.2).symm

end Outline

/-! ## 4. Documents -/

/-- The fields have the names of the members, in order, and as types what their values are read
as. -/
def Fields.ReadFrom (fs : Fields String) (members : Named Json) : Prop :=
  List.Forall₂ (fun m f => m.1 = f.1 ∧ Ty.ofJson m.2 = .ok f.2) members fs

/-- The document has one declaration for each entry of each section, in order.  The members of an
enumeration are those that stand there, and fields have the types that are read there. -/
structure Document.ReadFrom (d : Document) (v : Json) : Prop where
  enumerations : List.Forall₂
    (fun m e => m.1 = e.name ∧ m.2 = .object (e.members.mapValues .string))
    (Outline.declarations .enumeration v) d.enumerations
  records : List.Forall₂ (fun m r => m.1 = r.name ∧ r.fields.ReadFrom m.2.entries)
    (Outline.declarations .record v) d.records
  methods : List.Forall₂
    (fun m x => m.1 = x.name ∧ ∀ side, (x.fields side).ReadFrom (Outline.sideIn side m.2))
    (Outline.declarations .method v) d.methods

namespace Document

variable {d : Document} {members : Named Json} {o : Outline}

theorem readFrom_of_ofOutline (h : Outline.Shape members o) (hd : ofOutline o = .ok d) :
    d.ReadFrom (.object members) where
  enumerations := by
    rw [h.declarations_enumeration, ← (ofOutline_eq_ok_iff.1 hd).1, Named.mapValues,
      List.forall₂_map_left_iff, List.forall₂_map_right_iff, List.forall₂_same]
    exact fun _ _ => ⟨rfl, rfl⟩
  records := by
    rw [h.declarations_record, Named.mapValues, List.forall₂_map_left_iff]
    exact (ofOutline_eq_ok_iff.1 hd).2.1.imp fun _ _ hr => ⟨hr.1, Ty.ofFields_eq_ok_iff.1 hr.2⟩
  methods := by
    apply forall₂_comp h.declarations_method (ofOutline_eq_ok_iff.1 hd).2.2
    intro m x y hmx hxy
    rw [← hmx.2] at hxy
    refine ⟨hmx.1.trans hxy.1, fun side => ?_⟩
    cases side with
    | request => exact Ty.ofFields_eq_ok_iff.1 hxy.2.1
    | response => exact Ty.ofFields_eq_ok_iff.1 hxy.2.2

/-- **Malformed types are collected, and no declaration is dropped.**  A value in the shape of a
document is malformed exactly if in some place there is no type.  Then everything that is wrong in
any of the places is told, in order, with the path of the place instead of the dollar sign; and
otherwise there is a document with a declaration for each entry. -/
theorem malformed_types_collected {v : Json} (hv : Outline.DocumentShape v) :
    ((∃ f fs, ofJson v = .error (.malformed f fs)) ↔
      ∃ p ∈ Outline.typePositions v, ∀ t, Ty.ofJson p.type ≠ .ok t) ∧
    (∀ f fs, ofJson v = .error (.malformed f fs) →
      f :: fs = (Outline.typePositions v).flatMap TypePosition.findings) ∧
    (∀ p ∈ Outline.typePositions v, ∀ f ∈ Ty.findingsIn p.type, ∃ rest,
      f.location.text = "$" ++ rest ∧ (p.place f).location.text = p.path ++ rest) ∧
    ((∀ p ∈ Outline.typePositions v, ∃ t, Ty.ofJson p.type = .ok t) →
      ∃ d, ofJson v = .ok d ∧ d.ReadFrom v) := by
  obtain ⟨o, ho⟩ := Outline.exists_outline_iff.2 hv
  obtain ⟨members, rfl, hshape⟩ := Outline.shape_of_ofReading ho
  have hread : ofJson (.object members) = accept (ofOutline o) := by rw [ofJson, ho]
  -- Reading succeeds exactly if nothing is wrong in any place.
  have hnone : (ofOutline o).faults = [] ↔
      ∀ p ∈ Outline.typePositions (.object members), ∃ t, Ty.ofJson p.type = .ok t := by
    rw [hshape.faults_ofOutline, List.flatMap_eq_nil_iff]
    exact forall₂_congr fun _ _ => TypePosition.findings_eq_nil_iff
  rw [hread, ← hnone]
  refine ⟨?_, ?_, fun p _ f hf => p.text_place hf, ?_⟩
  · have hsome : (∃ p ∈ Outline.typePositions (.object members), ∀ t, Ty.ofJson p.type ≠ .ok t) ↔
        (ofOutline o).faults ≠ [] := by
      rw [Ne, hnone]
      push Not
      rfl
    rw [hsome]
    cases ofOutline o <;> simp [accept]
  · intro f fs h
    rw [← hshape.faults_ofOutline]
    cases hout : ofOutline o with
    | ok d =>
      rw [hout] at h
      cases h
    | failed g gs =>
      rw [hout] at h
      cases h
      rfl
  · intro hfaults
    obtain ⟨d, hd⟩ := Checked.faults_eq_nil_iff.1 hfaults
    exact ⟨d, accept_eq_ok_iff.2 hd, readFrom_of_ofOutline hshape hd⟩

/-- The response of the method comes first, and there are no types in four places. -/
def broken : Json := .object [
  (Kind.method.section, .object [("find_car", .object [
    (Direction.response.key, .object [("car", .array [.string "Car", .object []])]),
    (Direction.request.key, .object [("owner", .string "null"), ("color", .string "Color")])])]),
  (Kind.record.section, .object [
    ("Car", .object [("paints", .array [.array []]), ("wheels", .string "int")]),
    ("Color", .object [("code", .number (.integer 5))])]),
  (Kind.enumeration.section, .null)]

theorem malformed_types_collected_broken : Outline.DocumentShape broken ∧
    ∃ f fs, ofJson broken = .error (.malformed f fs) ∧
      (f :: fs).map (·.location.text) = ["objects.Car.paints[]", "objects.Color.code",
        "methods.find_car.request.owner", "methods.find_car.response.car"] := by
  have hshape : Outline.DocumentShape broken := Outline.exists_outline_iff.1 ⟨_, rfl⟩
  obtain ⟨hmalformed, hall, -⟩ := malformed_types_collected hshape
  -- A number is no type.
  obtain ⟨f, fs, h⟩ := hmalformed.2
    ⟨⟨.record, "Color", ["code"], .number (.integer 5)⟩, by decide, nofun⟩
  refine ⟨hshape, f, fs, h, ?_⟩
  rw [hall f fs h]
  decide +kernel

end Document
end CallContract
