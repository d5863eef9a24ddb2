import CallContract.Proofs.Resolution
import CallContract.Proofs.RoundTrip

/-!
# Types of contracts

The types that a contract uses are those of its fields and whatever lies in them.  Each of them is
what a type of the document was resolved to, so it is as sound as the types of a well-formed
document: its objects repeat no field and its places are those of declarations.  If the document
was read, no union is without alternatives either.
-/

namespace CallContract

/-- The document was read from a text or from a value. -/
def Document.WasRead (d : Document) : Prop :=
  (∃ text, Document.ofText text = .ok d) ∨ ∃ v, Document.ofJson v = .ok d

theorem Document.WasRead.flat {d : Document} (h : d.WasRead) :
    ∀ fs ∈ d.fieldLists, ∀ k t, (k, t) ∈ fs → t.Flat := by
  have houtline : ∃ o, Document.ofOutline o = .ok d := by
    cases h with
    | inl h => exact h.elim fun _ => exists_ofOutline_of_ofText
    | inr h => exact h.elim fun _ => exists_ofOutline_of_ofJson
  exact houtline.elim fun _ => flat_of_ofOutline

namespace Contract

variable {c : Contract} {t u : Ty DeclId} {fs : Fields DeclId} {id : DeclId} {i : Nat}

/-- The type is an object of the fields of a record or of one direction of a method, or it lies in
such an object. -/
def Uses (c : Contract) (t : Ty DeclId) : Prop := ∃ fs ∈ c.fieldLists, t.Part (.object fs)

theorem Uses.part (h : c.Uses t) (hu : u.Part t) : c.Uses u := by
  obtain ⟨fs, hfs, ht⟩ := h
  exact ⟨fs, hfs, hu.trans ht⟩

theorem Uses.field (h : c.Uses (.object fs)) {k : String} (ht : (k, t) ∈ fs) : c.Uses t :=
  h.part (.object ht .self)

theorem uses_of_mem_records {r : Record DeclId} (hr : r ∈ c.records) : c.Uses (.object r.fields) :=
  ⟨r.fields, mem_fieldsOfAll_of_record hr _, .self⟩

theorem uses_record {r : Record DeclId} (h : c.record? i = some r) : c.Uses (.object r.fields) :=
  uses_of_mem_records (List.mem_of_getElem? h)

theorem uses_method {m : Method DeclId} (h : m ∈ c.methods) (direction : Direction) :
    c.Uses (.object (m.fields direction)) :=
  ⟨m.fields direction, mem_fieldsOfAll_of_method h direction _, .self⟩

namespace Resolved

theorem exists_fields (hc : c.Resolved) (h : fs ∈ c.fieldLists) :
    ∃ gs ∈ c.document.fieldLists, Ty.renameFields? c.scope.find? gs = some fs := by
  have hall : ∀ fs ∈ c.fieldLists,
      ∃ gs ∈ c.document.fieldLists, Ty.renameFields? c.scope.find? gs = some fs := by
    unfold fieldLists Document.fieldLists
    rw [forall_mem_fieldsOfAll]
    constructor
    · intro r hr
      obtain ⟨r', hr', hresolve⟩ := exists_mem_of_forall₂ (mapM_eq_some_iff.1 hc.records) hr
      rw [Record.resolve?_eq, Record.rename?_eq_some_iff] at hresolve
      exact ⟨r'.fields, mem_fieldsOfAll_of_record hr' _, hresolve.2⟩
    · intro m hm
      obtain ⟨m', hm', hresolve⟩ := exists_mem_of_forall₂ (mapM_eq_some_iff.1 hc.methods) hm
      rw [Method.resolve?_eq, Method.rename?_eq_some_iff] at hresolve
      exact ⟨⟨m'.request, mem_fieldsOfAll_of_method hm' .request _, hresolve.2.1⟩,
        ⟨m'.response, mem_fieldsOfAll_of_method hm' .response _, hresolve.2.2⟩⟩
  exact hall fs h

/-- Every type that the contract uses was resolved from a type of the document. -/
theorem exists_written (hc : c.Resolved) (h : c.Uses t) : ∃ gs ∈ c.document.fieldLists,
    ∃ w : Ty String, w.Part (.object gs) ∧ Ty.rename? c.scope.find? w = some t := by
  obtain ⟨fs, hfs, ht⟩ := h
  obtain ⟨gs, hgs, hrename⟩ := hc.exists_fields hfs
  obtain ⟨w, hw, ht⟩ := Ty.exists_part_of_rename? (Ty.rename?_object hrename) ht
  exact ⟨gs, hgs, w, hw, ht⟩

/-- No object that the contract uses repeats a field. -/
theorem distinct_fields (hc : c.Resolved) (h : c.Uses (.object fs)) : fs.Distinct := by
  obtain ⟨gs, hgs, w, hw, hrename⟩ := hc.exists_written h
  cases w with
  | object inner =>
    obtain ⟨fs', hfs', heq⟩ := Option.map_eq_some_iff.1 hrename
    rw [Named.Distinct, ← Ty.object.inj heq, Ty.names_of_renameFields? hfs']
    exact hc.wellFormed.distinct_fields gs hgs inner hw
  | scalar _ => cases hrename
  | named _ | nullable _ | array _ | union _ =>
    obtain ⟨_, -, heq⟩ := Option.map_eq_some_iff.1 hrename
    cases heq

theorem inRange_of_uses (hc : c.Resolved) (h : c.Uses (.named id)) : c.InRange id := by
  obtain ⟨fs, hfs, hid⟩ := h
  exact hc.inRange fs hfs id hid

theorem exists_enumeration (hc : c.Resolved) (h : c.Uses (.named (.enumeration i))) :
    ∃ e, c.enumeration? i = some e :=
  ⟨_, List.getElem?_eq_getElem (hc.inRange_of_uses h)⟩

theorem exists_record (hc : c.Resolved) (h : c.Uses (.named (.record i))) :
    ∃ r, c.record? i = some r :=
  ⟨_, List.getElem?_eq_getElem (hc.inRange_of_uses h).1⟩

/-- Every union that the contract of a document that was read uses has an alternative. -/
theorem union_ne_nil (hc : c.Resolved) (hread : c.document.WasRead) {ts : List (Ty DeclId)}
    (h : c.Uses (.union ts)) : ts ≠ [] := by
  obtain ⟨gs, hgs, w, hw, hrename⟩ := hc.exists_written h
  cases w with
  | union ws =>
    obtain ⟨ts', hts', heq⟩ := Option.map_eq_some_iff.1 hrename
    have hlength : ts.length = ws.length := Ty.union.inj heq ▸ Ty.length_of_renameList? hts'
    -- The union lies in the type of a field, which was read.
    have hflat : (Ty.union ws).FlatHere := by
      cases hw with
      | object hfield hw => exact (hread.flat gs hgs _ _ hfield).part hw |>.here
    have htwo : 2 ≤ ws.length := hflat.1
    intro hnil
    rw [hnil, List.length_nil] at hlength
    omega
  | scalar _ => cases hrename
  | named _ | nullable _ | array _ | object _ =>
    obtain ⟨_, -, heq⟩ := Option.map_eq_some_iff.1 hrename
    cases heq

/-- Every method is found under its name. -/
theorem method?_name (hc : c.Resolved) {m : Method DeclId} (h : m ∈ c.methods) :
    c.method? m.name = some m := by
  have hnames : (c.methods.map (·.name)).Nodup := hc.names_methods ▸ hc.wellFormed.distinct_methods
  exact Named.find?_of_nodup hnames h

end Resolved
end Contract
end CallContract
