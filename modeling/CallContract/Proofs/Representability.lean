import CallContract.Proofs.Conformance
import Mathlib.Data.Fintype.EquivFin

/-!
# Types have values

Where no record holds itself, going from a record to the records that it holds comes to an end.  So
a value of a record can be made out of values of the records that it holds: what may be null is
null, arrays are empty, and of a union the first alternative is taken.  Every record of the contract
of a document that was read has a value then, and every direction of every method accepts one, as
long as no enumeration is without members.
-/

namespace CallContract

/-! ## 1. Going down -/

theorem Document.WellFormed.wellFounded_holds {d : Document} (h : d.WellFormed) :
    WellFounded fun j i : Fin d.records.length => d.Holds i j := by
  let Below (j i : Fin d.records.length) : Prop := Relation.TransGen d.Holds i j
  have htrans : IsTrans _ Below := ⟨fun _ _ _ hij hjk => hjk.trans hij⟩
  have hirrefl : Std.Irrefl Below := ⟨fun i => h.acyclic i⟩
  exact Subrelation.wf (fun hij => .single hij) (Finite.wellFounded_of_trans_of_irrefl Below)

namespace Contract

variable {c : Contract} {t : Ty DeclId}

/-- What a record of the contract holds by value, its record in the document holds. -/
theorem Resolved.holds_of_byValue (hc : c.Resolved) {i j : Nat} {r : Record DeclId}
    (hr : c.record? i = some r) {route : Route}
    (hj : (Ty.object r.fields).ByValue route (.record j)) : c.document.Holds i j := by
  obtain ⟨w, hw, hresolve⟩ := exists_getElem?_of_forall₂ (mapM_eq_some_iff.1 hc.records) hr
  rw [Record.resolve?_eq, Record.rename?_eq_some_iff] at hresolve
  obtain ⟨n, hn, hfind⟩ := Ty.exists_byValue_of_rename? (Ty.rename?_object hresolve.2) hj
  -- The name that is held is the one of the record in its place.
  rw [hc.scope] at hfind
  obtain ⟨w', hw', hname⟩ := Option.map_eq_some_iff.1 (Document.declaredName?_of_find? hfind)
  exact ⟨w, w', route, hw, hw', hname ▸ hn⟩

end Contract

/-! ## 2. Making values -/

theorem Scalar.exists_admits (s : Scalar) : ∃ v : Json, v.Distinct ∧ s.Admits v := by
  cases s with
  | integer => exact ⟨.number (.integer 0), trivial, rfl⟩
  | float => exact ⟨.number (.integer 0), trivial, trivial⟩
  | boolean => exact ⟨.boolean true, trivial, trivial⟩
  | string => exact ⟨.string "", trivial, trivial⟩
  | uuid =>
    have h : Format.uuid.accepts "00000000-0000-0000-0000-000000000000" = true := by decide +kernel
    exact ⟨.string "00000000-0000-0000-0000-000000000000", trivial, h⟩
  | date =>
    have h : Format.date.accepts "2000-01-01" = true := by decide +kernel
    exact ⟨.string "2000-01-01", trivial, h⟩
  | datetime =>
    have h : Format.dateTime.accepts "2000-01-01T00:00:00Z" = true := by decide +kernel
    exact ⟨.string "2000-01-01T00:00:00Z", trivial, h⟩

namespace Contract

variable {c : Contract} {t : Ty DeclId}

/-- Some value that repeats no name is one of the type, whether objects are closed or not. -/
def HasValue (c : Contract) (t : Ty DeclId) : Prop :=
  ∃ v : Json, v.Distinct ∧ ∀ closed, c.Conforms closed t v

/-- An object can be made out of values of its fields. -/
theorem hasValue_object {fs : Fields DeclId} (hfs : fs.Distinct)
    (h : ∀ k t, (k, t) ∈ fs → c.HasValue t) : c.HasValue (.object fs) := by
  choose! value hvalue using h
  have hnames : Named.names (fs.map fun f => (f.1, value f.1 f.2)) = fs.names :=
    Named.names_map Prod.fst _ fs
  refine ⟨.object (fs.map fun f => (f.1, value f.1 f.2)), ?_, fun closed => ?_⟩
  · rw [Json.distinct_object_iff, Named.Distinct, hnames, List.forall_mem_map]
    exact ⟨hfs, fun f hf => (hvalue f.1 f.2 hf).1⟩
  · rw [conforms_object_iff, hnames]
    refine ⟨fun _ hn => hn, fun n t v ht hv => ?_, fun _ _ hn => hn⟩
    -- The field of a name is the only one with that name.
    obtain ⟨⟨_, u⟩, hu, heq⟩ := List.mem_map.1 hv
    obtain ⟨rfl, rfl⟩ := Prod.mk.inj heq
    have htu : some t = some u :=
      ((Named.lookup_eq_some_iff hfs).2 ht).symm.trans ((Named.lookup_eq_some_iff hfs).2 hu)
    cases htu
    exact (hvalue _ _ ht).2 closed

theorem hasValue_enumeration {i : Nat} {e : Enumeration} (he : c.enumeration? i = some e)
    (hne : e.members ≠ []) : c.HasValue (.named (.enumeration i)) := by
  obtain ⟨m, hm⟩ := List.exists_mem_of_ne_nil _ hne
  exact ⟨.string m.2, trivial, fun _ => .enumeration he (List.mem_map_of_mem hm)⟩

namespace Resolved

/-- A type has a value if all records have one that it holds. -/
theorem hasValue_of_held (hc : c.Resolved) (hread : c.document.WasRead)
    (hmembers : ∀ e ∈ c.document.enumerations, e.members ≠ []) (ht : c.Uses t)
    (hheld : ∀ route i, t.ByValue route (.record i) → c.HasValue (.named (.record i))) :
    c.HasValue t := by
  induction t with
  | scalar s =>
    obtain ⟨v, hv, hs⟩ := s.exists_admits
    exact ⟨v, hv, fun _ => .scalar hs⟩
  | named id =>
    cases id with
    | enumeration i =>
      obtain ⟨e, he⟩ := hc.exists_enumeration ht
      exact hasValue_enumeration he (hmembers e (List.mem_of_getElem? he))
    | record i => exact hheld [] i (.named _)
  -- Null and the empty array need no value of what may stand in their place.
  | nullable t _ => exact ⟨.null, trivial, fun _ => .null t⟩
  | array t _ => exact ⟨.array [], trivial, fun _ => .array nofun⟩
  | union ts ih =>
    obtain ⟨u, hu⟩ := List.exists_mem_of_ne_nil _ (hc.union_ne_nil hread ht)
    obtain ⟨v, hv, hconforms⟩ := ih u hu (ht.part (.union hu .self))
      fun route i hi => hheld route i (.union hu hi)
    exact ⟨v, hv, fun closed => .union hu (hconforms closed)⟩
  | object fs ih =>
    apply hasValue_object (hc.distinct_fields ht)
    intro k u hu
    exact ih k u hu (ht.field hu) fun route i hi => hheld _ i (.object hu hi)

/-- Every record has a value, by induction along the records that it holds. -/
theorem hasValue_record (hc : c.Resolved) (hread : c.document.WasRead)
    (hmembers : ∀ e ∈ c.document.enumerations, e.members ≠ [])
    (i : Fin c.document.records.length) : c.HasValue (.named (.record i)) := by
  induction i using hc.wellFormed.wellFounded_holds.induction with
  | h i ih =>
    have hi : i.1 < c.records.length := hc.length_records ▸ i.2
    have hr : c.record? i = some c.records[i.1] := List.getElem?_eq_getElem hi
    have hobject : c.HasValue (.object c.records[i.1].fields) := by
      apply hc.hasValue_of_held hread hmembers (uses_record hr)
      intro route j hj
      have hholds := hc.holds_of_byValue hr hj
      have hlt : j < c.document.records.length :=
        (hc.inRange_of_uses ((uses_record hr).part hj.part)).2
      exact ih ⟨j, hlt⟩ hholds
    obtain ⟨v, hv, hconforms⟩ := hobject
    exact ⟨v, hv, fun closed => .record hr (hconforms closed)⟩

/-- Everything that the contract uses has a value. -/
theorem hasValue (hc : c.Resolved) (hread : c.document.WasRead)
    (hmembers : ∀ e ∈ c.document.enumerations, e.members ≠ []) (ht : c.Uses t) :
    c.HasValue t := by
  apply hc.hasValue_of_held hread hmembers ht
  intro route i hi
  have hin : i < c.document.records.length := (hc.inRange_of_uses (ht.part hi.part)).2
  exact hc.hasValue_record hread hmembers ⟨i, hin⟩

end Resolved

/-! ## 3. Records and methods -/

/-- **Where nothing holds itself, everything has a value**: in the contract of a document that was
read, if no enumeration is without members, every record has a value and every direction of every
method accepts a payload, the same one whether objects are closed or not. -/
theorem every_record_and_method_has_value {d : Document} {s : Strictness} {c : Contract}
    (hread : d.WasRead) (h : d.validate s = .ok c)
    (hmembers : ∀ e ∈ d.enumerations, e.members ≠ []) :
    (∀ i < d.records.length,
      ∃ v : Json, v.Distinct ∧ ∀ closed, c.Conforms closed (.named (.record i)) v) ∧
    ∀ m ∈ c.methods, ∀ direction, ∃ payload : Json, payload.Distinct ∧
      ∀ closed, c.checkPayload m.name direction closed payload = .ok () := by
  obtain ⟨rfl, hc⟩ := resolved_of_validate h
  constructor
  · exact fun i hi => hc.hasValue_record hread hmembers ⟨i, hi⟩
  · intro m hm direction
    obtain ⟨payload, hpayload, hconforms⟩ := hc.hasValue hread hmembers (uses_method hm direction)
    refine ⟨payload, hpayload, fun closed => ?_⟩
    rw [hc.checkPayload_eq_ok_iff hread hm]
    exact (hc.decides closed hpayload _ (uses_method hm direction)).2 (hconforms closed)

theorem every_record_and_method_has_value_garage :
    Document.garage.WasRead ∧ Document.garage.validate .strict = .ok Document.garageContract ∧
    (∀ e ∈ Document.garage.enumerations, e.members ≠ []) ∧
    (∃ v : Json, v.Distinct ∧
      ∀ closed, Document.garageContract.Conforms closed (.named (.record 0)) v) ∧
    ∃ payload : Json, payload.Distinct ∧ ∀ closed,
      Document.garageContract.checkPayload "find_car" .request closed payload = .ok () := by
  have hread : Document.garage.WasRead := .inr ⟨Document.garage.toJson, by decide +kernel⟩
  have hvalid : Document.garage.validate .strict = .ok Document.garageContract := by decide +kernel
  have hmembers : ∀ e ∈ Document.garage.enumerations, e.members ≠ [] := by decide
  have hvalues := every_record_and_method_has_value hread hvalid hmembers
  exact ⟨hread, hvalid, hmembers, hvalues.1 0 (by decide),
    hvalues.2 _ List.mem_cons_self .request⟩

end Contract
end CallContract
