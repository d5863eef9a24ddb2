import CallContract.Proofs.Outlines
import CallContract.Proofs.RelatedLists

/-!
# Whole readings

A reading that no fault has broken off is whole and has a value.  Whatever is looked for in a whole
reading is found or refused as in its value, the mark of a refusal aside (`Agrees`).  An outline
comes out of whole readings only: nothing in a document is passed over.
-/

namespace CallContract

variable {μ φ : Type}

/-! ## 1. Values of readings -/

namespace Json

theorem Ending.check_eq_ok_iff {ending : Ending μ φ} {stop : μ} :
    ending.check = .ok stop ↔ ending = .closed stop := by
  cases ending <;> simp [Ending.check]

namespace Reading

theorem valueItems_eq_ok_iff {items : List (Reading μ φ)} {vs : List Json} :
    valueItems items = .ok vs ↔ List.Forall₂ (fun r v => r.value = .ok v) items vs := by
  induction items generalizing vs with
  | nil =>
    rw [valueItems, Except.ok.injEq, List.forall₂_nil_left_iff]
    exact eq_comm
  | cons r rest ih =>
    simp only [valueItems, Outline.bind_eq_ok_iff, ih, List.forall₂_cons_left_iff]
    constructor
    · rintro ⟨v, hv, ws, hws, heq⟩
      exact ⟨v, ws, hv, hws, (Except.ok.inj heq).symm⟩
    · rintro ⟨v, ws, hv, hws, heq⟩
      exact ⟨v, hv, ws, hws, congrArg Except.ok heq.symm⟩

theorem valueMembers_eq_ok_iff {members : List (String × μ × Reading μ φ)} {vs : Named Json} :
    valueMembers members = .ok vs ↔
      List.Forall₂ (fun m v => m.1 = v.1 ∧ m.2.2.value = .ok v.2) members vs := by
  induction members generalizing vs with
  | nil =>
    rw [valueMembers, Except.ok.injEq, List.forall₂_nil_left_iff]
    exact eq_comm
  | cons m rest ih =>
    obtain ⟨name, mark, r⟩ := m
    simp only [valueMembers, Outline.bind_eq_ok_iff, ih, List.forall₂_cons_left_iff]
    constructor
    · rintro ⟨v, hv, ws, hws, heq⟩
      exact ⟨(name, v), ws, ⟨rfl, hv⟩, hws, (Except.ok.inj heq).symm⟩
    · rintro ⟨v, ws, ⟨hname, hv⟩, hws, heq⟩
      refine ⟨v.2, hv, ws, hws, congrArg Except.ok ?_⟩
      rw [heq, show name = v.1 from hname]

theorem value_object_eq_ok_iff {start : μ} {members : List (String × μ × Reading μ φ)}
    {ending : Ending μ φ} {v : Json} :
    (Reading.object start members ending).value = .ok v ↔
      ∃ vs, valueMembers members = .ok vs ∧ (∃ stop, ending = .closed stop) ∧ v = .object vs := by
  simp only [value, Outline.bind_eq_ok_iff, Ending.check_eq_ok_iff]
  constructor
  · rintro ⟨vs, hvs, stop, hstop, heq⟩
    exact ⟨vs, hvs, ⟨stop, hstop⟩, (Except.ok.inj heq).symm⟩
  · rintro ⟨vs, hvs, ⟨stop, hstop⟩, heq⟩
    exact ⟨vs, hvs, stop, hstop, congrArg Except.ok heq.symm⟩

theorem value_array_eq_ok_iff {start : μ} {items : List (Reading μ φ)} {ending : Ending μ φ}
    {v : Json} : (Reading.array start items ending).value = .ok v ↔
      ∃ vs, valueItems items = .ok vs ∧ (∃ stop, ending = .closed stop) ∧ v = .array vs := by
  simp only [value, Outline.bind_eq_ok_iff, Ending.check_eq_ok_iff]
  constructor
  · rintro ⟨vs, hvs, stop, hstop, heq⟩
    exact ⟨vs, hvs, ⟨stop, hstop⟩, (Except.ok.inj heq).symm⟩
  · rintro ⟨vs, hvs, ⟨stop, hstop⟩, heq⟩
    exact ⟨vs, hvs, stop, hstop, congrArg Except.ok heq.symm⟩

theorem exists_valueMembers {members : List (String × μ × Reading μ φ)}
    (h : ∀ m ∈ members, ∃ v, m.2.2.value = .ok v) : ∃ vs, valueMembers members = .ok vs := by
  induction members with
  | nil => exact ⟨[], rfl⟩
  | cons m rest ih =>
    rw [List.forall_mem_cons] at h
    obtain ⟨⟨v, hv⟩, hrest⟩ := h
    obtain ⟨vs, hvs⟩ := ih hrest
    refine ⟨(m.1, v) :: vs, ?_⟩
    rw [valueMembers, hv, hvs]
    rfl

end Reading
end Json

namespace Outline

open Json

variable {α β : Type}

/-! ## 2. What is found in a whole reading -/

/-- The same comes out of a text and of a value: the same thing, or the same wrong shape on the same
path. -/
inductive Agrees : Result μ φ α → Result Unit Empty α → Prop
  | found (x : α) : Agrees (.ok x) (.ok x)
  | misshapen (path : List String) (m : Misshape) (mark : μ) :
      Agrees (.error (.misshapen path m mark)) (.error (.misshapen path m ()))

theorem Agrees.bind {x : Result μ φ α} {y : Result Unit Empty α} {f : α → Result μ φ β}
    {g : α → Result Unit Empty β} (h : Agrees x y) (hfg : ∀ a, Agrees (f a) (g a)) :
    Agrees (x >>= f) (y >>= g) := by
  cases h with
  | found a => exact hfg a
  | misshapen path m mark => exact .misshapen path m mark

/-- Two ways of looking find the same in whole readings and in their values. -/
def Alike (decode : List String → Reading μ φ → Result μ φ α)
    (decode' : List String → Reading Unit Empty → Result Unit Empty α) : Prop :=
  ∀ path r v, r.value = .ok v → Agrees (decode path r) (decode' path (.ofJson v))

theorem agrees_eachMember {decode : List String → Reading μ φ → Result μ φ α}
    {decode' : List String → Reading Unit Empty → Result Unit Empty α} (h : Alike decode decode')
    {path : List String} {members : List (String × μ × Reading μ φ)} {vs : Named Json}
    (hvs : Reading.valueMembers members = .ok vs) :
    Agrees (eachMember decode path members) (eachMember decode' path (Reading.ofMembers vs)) := by
  rw [Reading.valueMembers_eq_ok_iff] at hvs
  induction hvs with
  | nil => exact .found []
  | @cons m v _ _ hmv _ ih =>
    obtain ⟨name, mark, r⟩ := m
    obtain ⟨rfl, hr⟩ := hmv
    exact (h _ r v.2 hr).bind fun x => ih.bind fun xs => .found _

/-- Outside of objects there is nothing to look into, so it is enough to look at those. -/
theorem agrees_of_object {find : Reading μ φ → Result μ φ α}
    {find' : Reading Unit Empty → Result Unit Empty α} {path : List String}
    (hrefuse : ∀ r, (∀ start members ending, r = .object start members ending → False) →
      find r = refuse path .object r)
    (hrefuse' : ∀ r, (∀ start members ending, r = .object start members ending → False) →
      find' r = refuse path .object r)
    (hobject : ∀ start members stop vs, Reading.valueMembers members = .ok vs →
      Agrees (find (.object start members (.closed stop)))
        (find' (.object () (Reading.ofMembers vs) (.closed ()))))
    {r : Reading μ φ} {v : Json} (hv : r.value = .ok v) :
    Agrees (find r) (find' (Reading.ofJson v)) := by
  cases r with
  | object start members ending =>
    obtain ⟨vs, hvs, ⟨stop, rfl⟩, rfl⟩ := Reading.value_object_eq_ok_iff.1 hv
    exact hobject start members stop vs hvs
  | array start items ending =>
    obtain ⟨vs, -, -, rfl⟩ := Reading.value_array_eq_ok_iff.1 hv
    rw [hrefuse, hrefuse']
    · exact .misshapen _ _ _
    · exact fun _ _ _ h => by cases h
    · exact fun _ _ _ h => by cases h
  | null _ | boolean _ _ | number _ _ | string _ _ =>
    cases hv
    rw [hrefuse, hrefuse']
    · exact .misshapen _ _ _
    · exact fun _ _ _ h => by cases h
    · exact fun _ _ _ h => by cases h
  | broken f => cases hv

theorem alike_entries {decode : List String → Reading μ φ → Result μ φ α}
    {decode' : List String → Reading Unit Empty → Result Unit Empty α} (h : Alike decode decode') :
    Alike (entries decode) (entries decode') := by
  intro path r v hv
  refine agrees_of_object (entries.eq_2 decode path) (entries.eq_2 decode' path) ?_ hv
  intro start members stop vs hvs
  exact (agrees_eachMember h hvs).bind fun xs => .found xs

theorem alike_string : Alike (string : List String → Reading μ φ → Result μ φ String) string := by
  intro path r v hv
  cases r with
  | string s stop =>
    cases hv
    exact .found s
  | array start items ending =>
    obtain ⟨vs, -, -, rfl⟩ := Reading.value_array_eq_ok_iff.1 hv
    exact .misshapen _ _ _
  | object start members ending =>
    obtain ⟨vs, -, -, rfl⟩ := Reading.value_object_eq_ok_iff.1 hv
    exact .misshapen _ _ _
  | null _ | boolean _ _ | number _ _ =>
    cases hv
    exact .misshapen _ _ _
  | broken f => cases hv

theorem alike_any : Alike (any : List String → Reading μ φ → Result μ φ Json) any := by
  intro path r v hv
  rw [any, any_ofJson, hv]
  exact .found v

theorem agrees_knownMembers {known : List String}
    {decode : String → List String → Reading μ φ → Result μ φ α}
    {decode' : String → List String → Reading Unit Empty → Result Unit Empty α}
    (h : ∀ name, Alike (decode name) (decode' name)) {path seen : List String}
    {members : List (String × μ × Reading μ φ)} {vs : Named Json}
    (hvs : Reading.valueMembers members = .ok vs) :
    Agrees (knownMembers known decode path seen members)
      (knownMembers known decode' path seen (Reading.ofMembers vs)) := by
  rw [Reading.valueMembers_eq_ok_iff] at hvs
  induction hvs generalizing seen with
  | nil => exact .found []
  | @cons m v _ _ hmv _ ih =>
    obtain ⟨name, mark, r⟩ := m
    obtain ⟨rfl, hr⟩ := hmv
    -- A name is refused before its value is looked at, so only the values of good names matter.
    rw [Reading.ofMembers, knownMembers, knownMembers]
    by_cases hknown : v.1 ∈ known
    · by_cases hseen : v.1 ∈ seen
      · rw [if_neg (not_not.2 hknown), if_neg (not_not.2 hknown), if_pos hseen, if_pos hseen]
        exact .misshapen _ _ _
      · rw [if_neg (not_not.2 hknown), if_neg (not_not.2 hknown), if_neg hseen, if_neg hseen]
        exact (h _ _ r v.2 hr).bind fun x => ih.bind fun xs => .found _
    · rw [if_pos hknown, if_pos hknown]
      exact .misshapen _ _ _

theorem agrees_required {path : List String} {name : String} {stop : μ} {members : Named α} :
    Agrees (required path name stop members : Result μ φ α) (required path name () members) := by
  unfold required
  cases members.lookup name with
  | some x => exact .found x
  | none => exact .misshapen _ _ _

theorem alike_method :
    Alike (method : List String → Reading μ φ → Result μ φ (Named Json × Named Json)) method := by
  intro path r v hv
  refine agrees_of_object (method.eq_2 path) (method.eq_2 path) ?_ hv
  intro start members stop vs hvs
  refine (agrees_knownMembers (fun _ => alike_entries alike_any) hvs).bind fun sides => ?_
  exact agrees_required.bind fun request => agrees_required.bind fun response => .found _

theorem alike_oneSection (name : String) :
    Alike (oneSection name : List String → Reading μ φ → Result μ φ Outline)
      (oneSection name) := by
  intro path r v hv
  have hsection (hr : ∀ stop, r = .null stop → False)
      (hr' : ∀ stop, Reading.ofJson v = .null stop → False) :
      Agrees (oneSection name path r) (oneSection name path (Reading.ofJson v)) := by
    rw [oneSection, oneSection]
    · split
      · exact (alike_entries (alike_entries alike_string) path r v hv).bind fun _ => .found _
      · split
        · exact (alike_entries (alike_entries alike_any) path r v hv).bind fun _ => .found _
        · exact (alike_entries alike_method path r v hv).bind fun _ => .found _
    · exact hr'
    · exact hr
  cases r with
  | null stop =>
    cases hv
    exact .found empty
  | array start items ending =>
    obtain ⟨vs, -, -, rfl⟩ := Reading.value_array_eq_ok_iff.1 hv
    exact hsection (fun _ h => by cases h) fun _ h => by cases h
  | object start members ending =>
    obtain ⟨vs, -, -, rfl⟩ := Reading.value_object_eq_ok_iff.1 hv
    exact hsection (fun _ h => by cases h) fun _ h => by cases h
  | boolean _ _ | number _ _ | string _ _ =>
    cases hv
    exact hsection (fun _ h => by cases h) fun _ h => by cases h
  | broken f => cases hv

/-- The outline of a whole reading is that of its value. -/
theorem agrees_ofReading {r : Reading μ φ} {v : Json} (hv : r.value = .ok v) :
    Agrees (ofReading r) (ofReading (Reading.ofJson v)) := by
  refine agrees_of_object ofReading.eq_2 ofReading.eq_2 ?_ hv
  intro start members stop vs hvs
  exact (agrees_knownMembers alike_oneSection hvs).bind fun parts => .found _

/-! ## 3. Only whole readings have outlines -/

/-- Nothing is found in a reading that a fault has broken off. -/
def Thorough (decode : List String → Reading μ φ → Result μ φ α) : Prop :=
  ∀ path r x, decode path r = .ok x → ∃ v, r.value = .ok v

theorem orBroken_eq_ok_iff {x : Except φ α} {a : α} :
    (orBroken x : Result μ φ α) = .ok a ↔ x = .ok a := by
  cases x <;> simp [orBroken]

theorem exists_value_object {start stop : μ} {members : List (String × μ × Reading μ φ)}
    {ending : Ending μ φ} (hmembers : ∀ m ∈ members, ∃ v, m.2.2.value = .ok v)
    (hending : (orBroken ending.check : Result μ φ μ) = .ok stop) :
    ∃ v, (Reading.object start members ending).value = .ok v := by
  obtain ⟨vs, hvs⟩ := Reading.exists_valueMembers hmembers
  rw [orBroken_eq_ok_iff, Ending.check_eq_ok_iff] at hending
  exact ⟨.object vs, Reading.value_object_eq_ok_iff.2 ⟨vs, hvs, ⟨stop, hending⟩, rfl⟩⟩

theorem thorough_entries {decode : List String → Reading μ φ → Result μ φ α}
    (h : Thorough decode) : Thorough (entries decode) := by
  intro path r xs hxs
  cases r with
  | object start members ending =>
    simp only [entries, bind_eq_ok_iff, eachMember_eq_ok_iff] at hxs
    obtain ⟨ys, hys, stop, hstop, -⟩ := hxs
    apply exists_value_object _ hstop
    intro m hm
    obtain ⟨y, -, -, hy⟩ := exists_mem_of_forall₂ hys.flip hm
    exact h _ _ _ hy
  | null _ | boolean _ _ | number _ _ | string _ _ | array _ _ _ | broken _ => cases hxs

theorem thorough_string : Thorough (string : List String → Reading μ φ → Result μ φ String) := by
  intro path r s hs
  cases r with
  | string s stop => exact ⟨.string s, rfl⟩
  | null _ | boolean _ _ | number _ _ | object _ _ _ | array _ _ _ | broken _ => cases hs

theorem thorough_any : Thorough (any : List String → Reading μ φ → Result μ φ Json) := by
  intro path r v hv
  exact ⟨v, orBroken_eq_ok_iff.1 hv⟩

theorem exists_value_of_knownMembers {known : List String}
    {decode : String → List String → Reading μ φ → Result μ φ α}
    (h : ∀ name, Thorough (decode name)) {path seen : List String}
    {members : List (String × μ × Reading μ φ)} {xs : Named α}
    (hxs : knownMembers known decode path seen members = .ok xs) :
    ∀ m ∈ members, ∃ v, m.2.2.value = .ok v := by
  intro m hm
  obtain ⟨x, -, -, hx⟩ := exists_mem_of_forall₂ (knownMembers_eq_ok_iff.1 hxs).2.2.flip hm
  exact h _ _ _ _ hx

theorem thorough_method :
    Thorough (method : List String → Reading μ φ → Result μ φ (Named Json × Named Json)) := by
  intro path r sides hsides
  cases r with
  | object start members ending =>
    simp only [method, bind_eq_ok_iff] at hsides
    obtain ⟨xs, hxs, stop, hstop, -⟩ := hsides
    exact exists_value_object (exists_value_of_knownMembers
      (fun _ => thorough_entries thorough_any) hxs) hstop
  | null _ | boolean _ _ | number _ _ | string _ _ | array _ _ _ | broken _ => cases hsides

theorem thorough_oneSection (name : String) :
    Thorough (oneSection name : List String → Reading μ φ → Result μ φ Outline) := by
  intro path r o ho
  by_cases hr : ∃ stop, r = .null stop
  · obtain ⟨stop, rfl⟩ := hr
    exact ⟨.null, rfl⟩
  · rw [oneSection] at ho
    · split at ho
      · obtain ⟨xs, hxs, -⟩ := bind_eq_ok_iff.1 ho
        exact thorough_entries (thorough_entries thorough_string) _ _ _ hxs
      · split at ho
        · obtain ⟨xs, hxs, -⟩ := bind_eq_ok_iff.1 ho
          exact thorough_entries (thorough_entries thorough_any) _ _ _ hxs
        · obtain ⟨xs, hxs, -⟩ := bind_eq_ok_iff.1 ho
          exact thorough_entries thorough_method _ _ _ hxs
    · exact fun stop h => hr ⟨stop, h⟩

/-- A reading with an outline is whole. -/
theorem exists_value_of_ofReading {r : Reading μ φ} {o : Outline} (h : ofReading r = .ok o) :
    ∃ v, r.value = .ok v := by
  cases r with
  | object start members ending =>
    simp only [ofReading, bind_eq_ok_iff] at h
    obtain ⟨parts, hparts, stop, hstop, -⟩ := h
    exact exists_value_object (exists_value_of_knownMembers thorough_oneSection hparts) hstop
  | null _ | boolean _ _ | number _ _ | string _ _ | array _ _ _ | broken _ => cases h

end Outline
end CallContract
