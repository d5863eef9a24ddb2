import CallContract.Proofs.ReorderedTypes
import CallContract.Proofs.Resolution

/-!
# The order of declarations

A document may be reordered: its declarations may be put in another order, and so may the fields of
its records and methods and of all objects in their types.  It is well formed then if it was before.
Names lead to other places, and a walk through its records goes other ways, but it has the same
findings in another order if there are no errors, and its contract says the same about every name.
-/

namespace CallContract

/-! ## 1. Documents in another order -/

/-- The records are the same up to the order of fields. -/
structure Record.Reordered {ν : Type} (r r' : Record ν) : Prop where
  name : r.name = r'.name
  fields : (Ty.object r.fields).Reordered (.object r'.fields)

theorem Record.reordered_of_fields {ν : Type} {fs gs : Fields ν} (name : String)
    (h : (Ty.object fs).Reordered (.object gs)) : Record.Reordered ⟨name, fs⟩ ⟨name, gs⟩ := ⟨rfl, h⟩

/-- The methods are the same up to the order of fields. -/
structure Method.Reordered {ν : Type} (m m' : Method ν) : Prop where
  name : m.name = m'.name
  request : (Ty.object m.request).Reordered (.object m'.request)
  response : (Ty.object m.response).Reordered (.object m'.response)

namespace Document

/-- The documents are the same up to the order of declarations and of fields. -/
structure Reordered (d d' : Document) : Prop where
  enumerations : d.enumerations.Perm d'.enumerations
  records : ReorderedBy Record.Reordered d.records d'.records
  methods : ReorderedBy Method.Reordered d.methods d'.methods

variable {d d' : Document}

namespace Reordered

theorem symm (h : d.Reordered d') : d'.Reordered d where
  enumerations := h.enumerations.symm
  records := h.records.symm fun _ _ _ hr => ⟨hr.name.symm, hr.fields.symm⟩
  methods := h.methods.symm fun _ _ _ hm => ⟨hm.name.symm, hm.request.symm, hm.response.symm⟩

theorem recordNames_perm (h : d.Reordered d') :
    (d.records.map (·.name)).Perm (d'.records.map (·.name)) :=
  h.records.map_perm fun _ _ hr => hr.name

theorem methodNames_perm (h : d.Reordered d') :
    (d.methods.map (·.name)).Perm (d'.methods.map (·.name)) :=
  h.methods.map_perm fun _ _ hm => hm.name

theorem typeNames_perm (h : d.Reordered d') : d.typeNames.Perm d'.typeNames :=
  (h.enumerations.map _).append h.recordNames_perm

theorem contains_eq (h : d.Reordered d') (n : String) :
    d.scope.contains n = d'.scope.contains n := by
  rw [Bool.eq_iff_iff, contains_scope_iff, contains_scope_iff]
  exact h.typeNames_perm.mem_iff

theorem exists_fields (h : d.Reordered d') :
    ∀ fs' ∈ d'.fieldLists, ∃ fs ∈ d.fieldLists, (Ty.object fs).Reordered (.object fs') := by
  unfold fieldLists
  rw [forall_mem_fieldsOfAll]
  constructor
  · intro r' hr'
    obtain ⟨r, hr, hfields⟩ := h.records.exists_left hr'
    exact ⟨r.fields, mem_fieldsOfAll_of_record hr _, hfields.fields⟩
  · intro m' hm'
    obtain ⟨m, hm, hfields⟩ := h.methods.exists_left hm'
    exact ⟨⟨m.request, mem_fieldsOfAll_of_method hm .request _, hfields.request⟩,
      ⟨m.response, mem_fieldsOfAll_of_method hm .response _, hfields.response⟩⟩

/-- Every part of a type of the one document is a part of a type of the other one, up to the order
of fields. -/
theorem exists_part (h : d.Reordered d') {fs' : Fields String} (hfs' : fs' ∈ d'.fieldLists)
    {w : Ty String} (hw : w.Part (.object fs')) :
    ∃ fs ∈ d.fieldLists, ∃ v : Ty String, v.Part (.object fs) ∧ v.Reordered w := by
  obtain ⟨fs, hfs, hfields⟩ := h.exists_fields fs' hfs'
  obtain ⟨v, hv, hvw⟩ := hfields.exists_part hw
  exact ⟨fs, hfs, v, hv, hvw⟩

theorem exists_object (h : d.Reordered d') {fs' : Fields String} (hfs' : fs' ∈ d'.fieldLists)
    {inner' : Fields String} (hw : (Ty.object inner').Part (.object fs')) :
    ∃ fs ∈ d.fieldLists, ∃ inner : Fields String, (Ty.object inner).Part (.object fs) ∧
      (Ty.object inner).Reordered (.object inner') := by
  obtain ⟨fs, hfs, v, hv, hvw⟩ := h.exists_part hfs' hw
  obtain ⟨inner, rfl, -⟩ := Ty.reordered_object_iff.1 hvw.symm
  exact ⟨fs, hfs, inner, hv, hvw⟩

end Reordered

/-! ## 2. Well-formed documents -/

/-- The place of the record of a name. -/
def placeOf (d : Document) (name : String) : Nat := d.records.findIdx fun r => r.name = name

theorem getElem?_placeOf (hd : (d.records.map (·.name)).Nodup) {r : Record String}
    (hr : r ∈ d.records) : d.records[d.placeOf r.name]? = some r := by
  unfold placeOf
  rw [← List.find?_eq_getElem?_findIdx]
  exact Named.find?_of_nodup hd hr

namespace Reordered

/-- What a record holds, the record of its name in the other document holds. -/
theorem holds (h : d.Reordered d') (hd : (d.records.map (·.name)).Nodup) {i j : Nat}
    (hij : d'.Holds i j) : d.Holds (d.placeOf (d'.recordName i)) (d.placeOf (d'.recordName j)) := by
  obtain ⟨r', u', route, hr', hu', hholds⟩ := hij
  -- Both records are in the other document too, where their names tell their places.
  obtain ⟨r, hr, hfields⟩ := h.records.exists_left (List.mem_of_getElem? hr')
  obtain ⟨u, hu, htarget⟩ := h.records.exists_left (List.mem_of_getElem? hu')
  have hi : d'.recordName i = r.name := by
    rw [recordName, hr', hfields.name]
    rfl
  have hj : d'.recordName j = u.name := by
    rw [recordName, hu', htarget.name]
    rfl
  rw [hi, hj]
  refine ⟨r, u, route, getElem?_placeOf hd hr, getElem?_placeOf hd hu, ?_⟩
  rw [htarget.name]
  exact hfields.fields.byValue hholds

theorem wellFormed (h : d.Reordered d') (hd : d.WellFormed) : d'.WellFormed where
  distinct_types := h.typeNames_perm.nodup_iff.1 hd.distinct_types
  free_types n hn := hd.free_types n (h.typeNames_perm.mem_iff.2 hn)
  distinct_methods := h.methodNames_perm.nodup_iff.1 hd.distinct_methods
  distinct_members e he := hd.distinct_members e (h.enumerations.mem_iff.2 he)
  nonempty_values e he := hd.nonempty_values e (h.enumerations.mem_iff.2 he)
  distinct_fields fs' hfs' inner' hinner' := by
    obtain ⟨fs, hfs, inner, hinner, hfields⟩ := h.exists_object hfs' hinner'
    exact hfields.distinct (hd.distinct_fields fs hfs inner hinner)
  declared fs' hfs' n hn := by
    obtain ⟨fs, hfs, v, hv, hvn⟩ := h.exists_part hfs' hn
    cases hvn
    exact h.typeNames_perm.mem_iff.1 (hd.declared fs hfs n hv)
  acyclic _ hi := hd.acyclic _ (hi.lift _ fun _ _ hij => h.holds hd.distinct_records hij)

theorem wellStyled (h : d.Reordered d') (hd : d.WellStyled) : d'.WellStyled where
  camel_types n hn := hd.camel_types n (h.typeNames_perm.mem_iff.2 hn)
  snake_methods m' hm' := by
    obtain ⟨m, hm, hboth⟩ := h.methods.exists_left hm'
    exact hboth.name ▸ hd.snake_methods m hm
  distinct_values e he := hd.distinct_values e (h.enumerations.mem_iff.2 he)
  apart m' hm' := by
    obtain ⟨m, hm, hboth⟩ := h.methods.exists_left hm'
    rw [← hboth.name, ← h.typeNames_perm.mem_iff]
    exact hd.apart m hm
  free_fields fs' hfs' inner' hinner' n hn := by
    obtain ⟨fs, hfs, inner, hinner, hfields⟩ := h.exists_object hfs' hinner'
    exact hd.free_fields fs hfs inner hinner n (hfields.names_perm.mem_iff.2 hn)
  has_methods := by
    intro hnil
    have hnames := h.methodNames_perm
    rw [hnil, List.map_nil, List.perm_nil, List.map_eq_nil_iff] at hnames
    exact hd.has_methods hnames

theorem exists_validate (h : d.Reordered d') {s : Strictness}
    (hvalid : ∃ c, d.validate s = .ok c) : ∃ c', d'.validate s = .ok c' := by
  rw [exists_validate_iff] at hvalid ⊢
  exact ⟨h.wellFormed hvalid.1, fun hs => h.wellStyled (hvalid.2 hs)⟩

end Reordered

/-! ## 3. Findings -/

theorem WellFormed.cycleFindings_eq_nil (hd : d.WellFormed) : d.cycleFindings = [] := by
  rw [cycleFindings_eq_nil_iff]
  intro i hi
  exact hd.acyclic i (hi.lift id fun _ _ hij => (leads_iff_holds hd.distinct_types).1 hij)

namespace Reordered

theorem scopeFindings_perm (h : d.Reordered d') (hd : d.typeNames.Nodup) :
    d.scopeFindings.Perm d'.scopeFindings := by
  rw [scopeFindings_of_nodup hd, scopeFindings_of_nodup (h.typeNames_perm.nodup_iff.1 hd)]
  apply (h.enumerations.flatMap_right _).append
  apply h.records.flatMap_perm
  intro r _ r' hr
  rw [hr.name]

theorem methodsFindings_perm (h : d.Reordered d') (hd : (d.methods.map (·.name)).Nodup) :
    d.methodsFindings.Perm d'.methodsFindings := by
  have hnames := h.methodNames_perm
  have hempty : d.methods.isEmpty = d'.methods.isEmpty := by
    rw [← List.isEmpty_map (f := (·.name)), hnames.isEmpty_eq, List.isEmpty_map]
  have hone : methodNameFindings d.scope = methodNameFindings d'.scope := by
    funext n
    unfold methodNameFindings
    rw [h.contains_eq]
  unfold methodsFindings
  rw [hempty, methodNamesFindings_of_fresh (fresh_of_nothing.2 hd),
    methodNamesFindings_of_fresh (fresh_of_nothing.2 (hnames.nodup_iff.1 hd)), hone]
  exact (hnames.flatMap_right _).append_left _

theorem fieldsFindings_perm (h : d.Reordered d') (hd : d.WellFormed) {site : Site} {route : Route}
    {fs fs' : Fields String} (hfs : fs ∈ d.fieldLists)
    (hfields : (Ty.object fs).Reordered (.object fs')) :
    (fs.findings d.scope site route).Perm (fs'.findings d'.scope site route) := by
  have hdistinct := Ty.everywhere_distinctHere_iff.2 (hd.distinct_fields fs hfs)
  exact (hfields.defects_perm h.contains_eq hdistinct).map _

/-- Without errors the findings are the same, in another order. -/
theorem findings_perm (h : d.Reordered d') (hd : d.WellFormed) :
    d.findings.Perm d'.findings := by
  have hrecords : (d.records.flatMap (Record.findings d.scope)).Perm
      (d'.records.flatMap (Record.findings d'.scope)) := by
    apply h.records.flatMap_perm
    intro r hr r' hfields
    unfold Record.findings
    rw [hfields.name]
    exact h.fieldsFindings_perm hd (mem_fieldsOfAll_of_record hr _) hfields.fields
  have hmethods : (d.methods.flatMap (Method.findings d.scope)).Perm
      (d'.methods.flatMap (Method.findings d'.scope)) := by
    apply h.methods.flatMap_perm
    intro m hm m' hfields
    have hin (direction : Direction) : m.fields direction ∈ d.fieldLists :=
      mem_fieldsOfAll_of_method hm direction _
    unfold Method.findings
    rw [hfields.name]
    exact (h.fieldsFindings_perm hd (hin .request) hfields.request).append
      (h.fieldsFindings_perm hd (hin .response) hfields.response)
  -- The findings about records that hold themselves would depend on the way of the walk, but there
  -- are none.
  unfold findings
  rw [hd.cycleFindings_eq_nil, (h.wellFormed hd).cycleFindings_eq_nil]
  exact (((((h.scopeFindings_perm hd.distinct_types).append
    (h.enumerations.flatMap_right _)).append hrecords).append
    (h.methodsFindings_perm hd.distinct_methods)).append hmethods).append_right []

end Reordered
end Document

/-! ## 4. Contracts -/

namespace Contract

/-- The name of a declaration in place of the declaration. -/
def named? (c : Contract) (id : DeclId) : Option String := some (c.nameOf id)

/-- The contracts have the same warnings in another order and say the same about every name: they
have records and methods of the same names, and with the names of declarations in place of the
declarations those of one name are the same up to the order of fields. -/
structure Reordered (c c' : Contract) : Prop where
  warnings : c.warnings.Perm c'.warnings
  record_names : (c.records.map (·.name)).Perm (c'.records.map (·.name))
  method_names : (c.methods.map (·.name)).Perm (c'.methods.map (·.name))
  records : ∀ r ∈ c.records, ∀ r' ∈ c'.records, r.name = r'.name →
    ∃ w w', r.rename? c.named? = some w ∧ r'.rename? c'.named? = some w' ∧ w.Reordered w'
  methods : ∀ m ∈ c.methods, ∀ m' ∈ c'.methods, m.name = m'.name →
    ∃ w w', m.rename? c.named? = some w ∧ m'.rename? c'.named? = some w' ∧ w.Reordered w'

namespace Resolved

variable {c c' : Contract}

/-- Every record with names in place of declarations is the one that was written. -/
theorem exists_written_record (hc : c.Resolved) {r : Record DeclId} (hr : r ∈ c.records) :
    ∃ w ∈ c.document.records, r.rename? c.named? = some w ∧ w.name = r.name := by
  have hback := (hc.mapM_rename? fun n id h => congrArg some (hc.nameOf_find? h)).1
  obtain ⟨w, hw, hrename⟩ := exists_mem_of_forall₂ (mapM_eq_some_iff.1 hback).flip hr
  exact ⟨w, hw, hrename, (Record.rename?_eq_some_iff.1 hrename).1.symm⟩

theorem exists_written_method (hc : c.Resolved) {m : Method DeclId} (hm : m ∈ c.methods) :
    ∃ w ∈ c.document.methods, m.rename? c.named? = some w ∧ w.name = m.name := by
  have hback := (hc.mapM_rename? fun n id h => congrArg some (hc.nameOf_find? h)).2
  obtain ⟨w, hw, hrename⟩ := exists_mem_of_forall₂ (mapM_eq_some_iff.1 hback).flip hm
  exact ⟨w, hw, hrename, (Method.rename?_eq_some_iff.1 hrename).1.symm⟩

theorem reordered (hc : c.Resolved) (hc' : c'.Resolved) (h : c.document.Reordered c'.document)
    (hwarnings : c.warnings.Perm c'.warnings) : c.Reordered c' where
  warnings := hwarnings
  record_names := by
    rw [← hc.names_records, ← hc'.names_records]
    exact h.recordNames_perm
  method_names := by
    rw [← hc.names_methods, ← hc'.names_methods]
    exact h.methodNames_perm
  records r hr r' hr' hname := by
    obtain ⟨w, hw, hrename, hwname⟩ := hc.exists_written_record hr
    obtain ⟨w', hw', hrename', hwname'⟩ := hc'.exists_written_record hr'
    have hboth : w.name = w'.name := by rw [hwname, hwname', hname]
    exact ⟨w, w', hrename, hrename',
      h.records.of_names (fun _ _ hr => hr.name) hc.wellFormed.distinct_records hw hw' hboth⟩
  methods m hm m' hm' hname := by
    obtain ⟨w, hw, hrename, hwname⟩ := hc.exists_written_method hm
    obtain ⟨w', hw', hrename', hwname'⟩ := hc'.exists_written_method hm'
    have hboth : w.name = w'.name := by rw [hwname, hwname', hname]
    exact ⟨w, w', hrename, hrename',
      h.methods.of_names (fun _ _ hm => hm.name) hc.wellFormed.distinct_methods hw hw' hboth⟩

end Resolved
end Contract

namespace Document

/-- **The order of declarations does not matter**: documents that are the same up to the order of
declarations and fields are accepted at the same levels of strictness, and their contracts say the
same. -/
theorem validate_reordered {d d' : Document} (h : d.Reordered d') (s : Strictness) :
    ((∃ c, d.validate s = .ok c) ↔ ∃ c', d'.validate s = .ok c') ∧
    ∀ c c', d.validate s = .ok c → d'.validate s = .ok c' → c.Reordered c' := by
  refine ⟨⟨h.exists_validate, h.symm.exists_validate⟩, fun c c' hvalid hvalid' => ?_⟩
  obtain ⟨rfl, hc⟩ := Contract.resolved_of_validate hvalid
  obtain ⟨rfl, hc'⟩ := Contract.resolved_of_validate hvalid'
  apply hc.reordered hc' h
  rw [warnings_of_validate hvalid, warnings_of_validate hvalid']
  exact (h.findings_perm hc.wellFormed).filter _

/-- Shelves are named before the books in them. -/
def shelves : Document where
  enumerations := [⟨"genre", [("A", "a"), ("B", "a")]⟩, ⟨"Size", [("C", "c")]⟩]
  records := [⟨"Shelf", [("size", .named "Size"), ("book", .named "Book")]⟩,
    ⟨"Book", [("pages", .array (.object [("int", .scalar .integer), ("genre", .named "genre")]))]⟩]
  methods := [⟨"Find", [], [("shelf", .named "Shelf")]⟩, ⟨"fill", [("books", .named "Book")], []⟩]

/-- Books are named before the shelves that they are in. -/
def books : Document where
  enumerations := [⟨"Size", [("C", "c")]⟩, ⟨"genre", [("A", "a"), ("B", "a")]⟩]
  records := [
    ⟨"Book", [("pages", .array (.object [("genre", .named "genre"), ("int", .scalar .integer)]))]⟩,
    ⟨"Shelf", [("book", .named "Book"), ("size", .named "Size")]⟩]
  methods := [⟨"fill", [("books", .named "Book")], []⟩, ⟨"Find", [], [("shelf", .named "Shelf")]⟩]

theorem reordered_shelves : shelves.Reordered books where
  enumerations := .swap _ _ []
  records := by
    have hshelf := Record.reordered_of_fields "Shelf" (Ty.reordered_of_perm
      (.swap ("book", .named "Book") ("size", .named "Size") []))
    have hpages : Ty.FieldReordered
        ("pages", .array (.object [("int", .scalar .integer), ("genre", .named "genre")]))
        ("pages", .array (.object [("genre", .named "genre"), ("int", .scalar .integer)])) :=
      ⟨rfl, .array (Ty.reordered_of_perm (.swap _ _ []))⟩
    have hfields : ReorderedBy Ty.FieldReordered [_] [_] := ⟨_, .cons hpages .nil, .refl _⟩
    have hbook := Record.reordered_of_fields "Book" (Ty.reordered_objects_iff.2 hfields)
    exact ⟨_, .cons hshelf (.cons hbook .nil), .swap _ _ []⟩
  methods := by
    have hsame (m : Method String) : m.Reordered m := ⟨rfl, .refl _, .refl _⟩
    exact ⟨_, .cons (hsame _) (.cons (hsame _) .nil), .swap _ _ []⟩

theorem validate_reordered_shelves : shelves.Reordered books ∧
    ∃ c c', shelves.validate .standard = .ok c ∧ books.validate .standard = .ok c' ∧
      c.warnings ≠ [] ∧ c.Reordered c' := by
  have hsame := validate_reordered reordered_shelves .standard
  have hwarned : ((shelves.validate .standard).toOption.any fun c => !c.warnings.isEmpty) = true :=
    by decide +kernel
  cases hvalid : shelves.validate .standard with
  | error r =>
    rw [hvalid] at hwarned
    cases hwarned
  | ok c =>
    obtain ⟨c', hvalid'⟩ := hsame.1.1 ⟨c, hvalid⟩
    rw [hvalid] at hwarned
    have hwarnings : c.warnings ≠ [] := by simpa [Except.toOption] using hwarned
    exact ⟨reordered_shelves, c, c', rfl, hvalid', hwarnings, hsame.2 c c' hvalid hvalid'⟩

end Document
end CallContract
