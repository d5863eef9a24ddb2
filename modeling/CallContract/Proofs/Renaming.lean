import CallContract.Document.FieldTypes
import CallContract.Proofs.RelatedLists
import CallContract.Proofs.TypeParts

/-!
# Renaming types

A type can be renamed exactly if each of its names can (`isSome_rename?_iff`).  A function that
takes every new name back to the old one takes the outcome back to the type (`rename?_rename?`).
-/

namespace CallContract

namespace Ty

variable {ν μ : Type} {f : ν → Option μ} {g : μ → Option ν}

/-! ## 1. Types that can be renamed -/

theorem renameList?_eq (f : ν → Option μ) (ts : List (Ty ν)) :
    renameList? f ts = ts.mapM (rename? f) := by
  induction ts with
  | nil => rfl
  | cons t rest ih =>
    rw [renameList?, ih, List.mapM_cons]

/-- `rename?` on the type of one field. -/
def renameField? (f : ν → Option μ) (field : String × Ty ν) : Option (String × Ty μ) :=
  (rename? f field.2).map (field.1, ·)

theorem renameField?_eq_some_iff {e : String × Ty ν} {e' : String × Ty μ} :
    renameField? f e = some e' ↔ e.1 = e'.1 ∧ rename? f e.2 = some e'.2 := by
  rw [renameField?, Option.map_eq_some_iff]
  constructor
  · rintro ⟨_, hu, rfl⟩
    exact ⟨rfl, hu⟩
  · rintro ⟨hk, hu⟩
    exact ⟨e'.2, hu, by rw [hk]⟩

theorem renameFields?_eq (f : ν → Option μ) (fs : Fields ν) :
    renameFields? f fs = fs.mapM (renameField? f) := by
  induction fs with
  | nil => rfl
  | cons e rest ih =>
    rcases e with ⟨k, t⟩
    rw [renameFields?, ih, List.mapM_cons, renameField?]
    cases rename? f t <;> rfl

theorem rename?_object {fs : Fields ν} {gs : Fields μ} (h : renameFields? f fs = some gs) :
    rename? f (.object fs) = some (.object gs) := congrArg (Option.map Ty.object) h

/-- A type can be renamed exactly if each of its names can. -/
theorem isSome_rename?_iff {t : Ty ν} :
    (rename? f t).isSome ↔ ∀ n ∈ t.references, (f n).isSome := by
  induction t with
  | scalar s => simp [rename?, references]
  | named n => simp [rename?, references]
  | nullable t ih => rw [references, ← ih, rename?, Option.isSome_map]
  | array t ih => rw [references, ← ih, rename?, Option.isSome_map]
  | union ts ih =>
    rw [rename?, Option.isSome_map, renameList?_eq, isSome_mapM_iff, references,
      referencesList_eq, List.forall_mem_flatMap]
    exact forall₂_congr ih
  | object fs ih =>
    rw [rename?, Option.isSome_map, renameFields?_eq, isSome_mapM_iff, references,
      referencesFields_eq, List.forall_mem_flatMap]
    refine forall₂_congr fun e he => ?_
    rw [renameField?, Option.isSome_map]
    exact ih e.1 e.2 he

theorem isSome_renameFields?_iff {fs : Fields ν} :
    (renameFields? f fs).isSome ↔ ∀ n ∈ referencesFields fs, (f n).isSome := by
  have h := isSome_rename?_iff (f := f) (t := .object fs)
  rwa [rename?, Option.isSome_map, references] at h

/-- A function that takes every new name back to the old one takes the outcome back to the type. -/
theorem rename?_rename? {t : Ty ν} {u : Ty μ} (h : rename? f t = some u)
    (hback : ∀ n m, f n = some m → g m = some n) : rename? g u = some t := by
  induction t generalizing u with
  | scalar s =>
    rw [← Option.some.inj h]
    rfl
  | named n =>
    rcases Option.map_eq_some_iff.1 h with ⟨m, hm, rfl⟩
    rw [rename?, hback n m hm]
    rfl
  | nullable t ih =>
    rcases Option.map_eq_some_iff.1 h with ⟨v, hv, rfl⟩
    rw [rename?, ih hv]
    rfl
  | array t ih =>
    rcases Option.map_eq_some_iff.1 h with ⟨v, hv, rfl⟩
    rw [rename?, ih hv]
    rfl
  | union ts ih =>
    rcases Option.map_eq_some_iff.1 h with ⟨us, hus, rfl⟩
    rw [renameList?_eq] at hus
    have hts := mapM_of_mapM hus fun t ht u hu => ih t ht hu
    rw [rename?, renameList?_eq, hts]
    rfl
  | object fs ih =>
    rcases Option.map_eq_some_iff.1 h with ⟨gs, hgs, rfl⟩
    rw [renameFields?_eq] at hgs
    have hfs : gs.mapM (renameField? g) = some fs := by
      refine mapM_of_mapM hgs fun e he e' he' => ?_
      rcases renameField?_eq_some_iff.1 he' with ⟨hk, ht⟩
      exact renameField?_eq_some_iff.2 ⟨hk.symm, ih e.1 e.2 he ht⟩
    rw [rename?, renameFields?_eq, hfs]
    rfl

theorem renameFields?_renameFields? {fs : Fields ν} {gs : Fields μ}
    (h : renameFields? f fs = some gs) (hback : ∀ n m, f n = some m → g m = some n) :
    renameFields? g gs = some fs := by
  -- Fields are renamed as the object that has them.
  have hback := rename?_rename? (rename?_object h) hback
  rw [rename?, Option.map_eq_some_iff] at hback
  rcases hback with ⟨fs', hfs', heq⟩
  rw [hfs', Ty.object.inj heq]

/-! ## 2. Where the parts of the outcome come from -/

theorem exists_of_mem_renameList? {ts : List (Ty ν)} {us : List (Ty μ)} {u : Ty μ}
    (h : renameList? f ts = some us) (hu : u ∈ us) : ∃ t ∈ ts, rename? f t = some u := by
  rw [renameList?_eq, mapM_eq_some_iff] at h
  exact exists_mem_of_forall₂ h hu

theorem exists_of_mem_renameFields? {fs : Fields ν} {gs : Fields μ} {k : String} {u : Ty μ}
    (h : renameFields? f fs = some gs) (hu : (k, u) ∈ gs) :
    ∃ t, (k, t) ∈ fs ∧ rename? f t = some u := by
  rw [renameFields?_eq, mapM_eq_some_iff] at h
  have hfield := exists_mem_of_forall₂ h hu
  simp only [renameField?_eq_some_iff] at hfield
  obtain ⟨⟨_, t⟩, ht, rfl, hrename⟩ := hfield
  exact ⟨t, ht, hrename⟩

theorem names_of_renameFields? {fs : Fields ν} {gs : Fields μ} (h : renameFields? f fs = some gs) :
    gs.names = fs.names := by
  rw [renameFields?_eq, mapM_eq_some_iff] at h
  exact (map_eq_of_forall₂ h fun _ _ he => (renameField?_eq_some_iff.1 he).1).symm

theorem length_of_renameList? {ts : List (Ty ν)} {us : List (Ty μ)}
    (h : renameList? f ts = some us) : us.length = ts.length := by
  rw [renameList?_eq, mapM_eq_some_iff] at h
  exact h.length_eq.symm

/-- Every part of the outcome is the outcome of a part. -/
theorem exists_part_of_rename? {t : Ty ν} {u w : Ty μ} (h : rename? f t = some u)
    (hw : w.Part u) : ∃ v : Ty ν, v.Part t ∧ rename? f v = some w := by
  induction t generalizing u with
  | scalar s =>
    cases Option.some.inj h
    cases hw
    exact ⟨.scalar s, .self, rfl⟩
  | named n =>
    obtain ⟨m, hm, rfl⟩ := Option.map_eq_some_iff.1 h
    cases hw
    exact ⟨.named n, .self, h⟩
  | nullable t ih =>
    obtain ⟨u, hu, rfl⟩ := Option.map_eq_some_iff.1 h
    cases hw with
    | self => exact ⟨.nullable t, .self, h⟩
    | nullable hw =>
      obtain ⟨v, hv, hrename⟩ := ih hu hw
      exact ⟨v, .nullable hv, hrename⟩
  | array t ih =>
    obtain ⟨u, hu, rfl⟩ := Option.map_eq_some_iff.1 h
    cases hw with
    | self => exact ⟨.array t, .self, h⟩
    | array hw =>
      obtain ⟨v, hv, hrename⟩ := ih hu hw
      exact ⟨v, .array hv, hrename⟩
  | union ts ih =>
    obtain ⟨us, hus, rfl⟩ := Option.map_eq_some_iff.1 h
    cases hw with
    | self => exact ⟨.union ts, .self, h⟩
    | union hu hw =>
      obtain ⟨t, ht, hut⟩ := exists_of_mem_renameList? hus hu
      obtain ⟨v, hv, hrename⟩ := ih t ht hut hw
      exact ⟨v, .union ht hv, hrename⟩
  | object fs ih =>
    obtain ⟨gs, hgs, rfl⟩ := Option.map_eq_some_iff.1 h
    cases hw with
    | self => exact ⟨.object fs, .self, h⟩
    | object hu hw =>
      obtain ⟨t, ht, hut⟩ := exists_of_mem_renameFields? hgs hu
      obtain ⟨v, hv, hrename⟩ := ih _ t ht hut hw
      exact ⟨v, .object ht hv, hrename⟩

/-- What the outcome holds by value is what replaces a name that the type holds by value. -/
theorem exists_byValue_of_rename? {t : Ty ν} {u : Ty μ} {route : Route} {m : μ}
    (h : rename? f t = some u) (hm : u.ByValue route m) :
    ∃ n, t.ByValue route n ∧ f n = some m := by
  induction t generalizing u route with
  | scalar s =>
    cases Option.some.inj h
    cases hm
  | named n =>
    obtain ⟨m', hm', rfl⟩ := Option.map_eq_some_iff.1 h
    cases hm
    exact ⟨n, .named n, hm'⟩
  -- What may be null or stands in an array is not held.
  | nullable t _ | array t _ =>
    obtain ⟨u, -, rfl⟩ := Option.map_eq_some_iff.1 h
    cases hm
  | union ts ih =>
    obtain ⟨us, hus, rfl⟩ := Option.map_eq_some_iff.1 h
    cases hm with
    | union hu hm =>
      obtain ⟨t, ht, hut⟩ := exists_of_mem_renameList? hus hu
      obtain ⟨n, hn, hf⟩ := ih t ht hut hm
      exact ⟨n, .union ht hn, hf⟩
  | object fs ih =>
    obtain ⟨gs, hgs, rfl⟩ := Option.map_eq_some_iff.1 h
    cases hm with
    | object hu hm =>
      obtain ⟨t, ht, hut⟩ := exists_of_mem_renameFields? hgs hu
      obtain ⟨n, hn, hf⟩ := ih _ t ht hut hm
      exact ⟨n, .object ht hn, hf⟩

end Ty

/-! ## 3. Renaming declarations -/

variable {ν μ : Type} {f : ν → Option μ} {g : μ → Option ν}

/-- The record with every name in its types replaced. -/
def Record.rename? (f : ν → Option μ) (r : Record ν) : Option (Record μ) :=
  (Ty.renameFields? f r.fields).map (⟨r.name, ·⟩)

/-- The method with every name in its types replaced. -/
def Method.rename? (f : ν → Option μ) (m : Method ν) : Option (Method μ) :=
  match Ty.renameFields? f m.request, Ty.renameFields? f m.response with
  | some request, some response => some ⟨m.name, request, response⟩
  | _, _ => none

theorem Record.rename?_eq_some_iff {r : Record ν} {r' : Record μ} :
    r.rename? f = some r' ↔ r.name = r'.name ∧ Ty.renameFields? f r.fields = some r'.fields := by
  rcases r with ⟨name, fields⟩
  rcases r' with ⟨name', fields'⟩
  simp only [rename?, Option.map_eq_some_iff, Record.mk.injEq]
  constructor
  · rintro ⟨gs, hgs, hname, heq⟩
    exact ⟨hname, heq ▸ hgs⟩
  · rintro ⟨hname, hfields⟩
    exact ⟨fields', hfields, hname, rfl⟩

theorem Method.rename?_eq_some_iff {m : Method ν} {m' : Method μ} :
    m.rename? f = some m' ↔ m.name = m'.name ∧ Ty.renameFields? f m.request = some m'.request ∧
      Ty.renameFields? f m.response = some m'.response := by
  rcases m with ⟨name, request, response⟩
  rcases m' with ⟨name', request', response'⟩
  unfold rename?
  cases Ty.renameFields? f request <;> cases Ty.renameFields? f response <;> simp

theorem Record.isSome_rename?_iff {r : Record ν} :
    (r.rename? f).isSome ↔ (Ty.renameFields? f r.fields).isSome := by
  rw [rename?, Option.isSome_map]

theorem Method.isSome_rename?_iff {m : Method ν} :
    (m.rename? f).isSome ↔
      (Ty.renameFields? f m.request).isSome ∧ (Ty.renameFields? f m.response).isSome := by
  rw [rename?]
  cases Ty.renameFields? f m.request <;> cases Ty.renameFields? f m.response <;> simp

theorem Record.rename?_rename? {r : Record ν} {r' : Record μ} (h : r.rename? f = some r')
    (hback : ∀ n m, f n = some m → g m = some n) : r'.rename? g = some r := by
  rw [rename?_eq_some_iff] at h ⊢
  exact ⟨h.1.symm, Ty.renameFields?_renameFields? h.2 hback⟩

theorem Method.rename?_rename? {m : Method ν} {m' : Method μ} (h : m.rename? f = some m')
    (hback : ∀ n m, f n = some m → g m = some n) : m'.rename? g = some m := by
  rw [rename?_eq_some_iff] at h ⊢
  exact ⟨h.1.symm, Ty.renameFields?_renameFields? h.2.1 hback,
    Ty.renameFields?_renameFields? h.2.2 hback⟩

theorem Record.resolve?_eq (sc : Scope) (r : Record String) :
    r.resolve? sc = r.rename? sc.find? := rfl

theorem Method.resolve?_eq (sc : Scope) (m : Method String) :
    m.resolve? sc = m.rename? sc.find? := by
  rw [resolve?, rename?, Fields.resolve?, Fields.resolve?]
  cases Ty.renameFields? sc.find? m.request <;> cases Ty.renameFields? sc.find? m.response <;> rfl

theorem Record.resolve?_eq_some_iff {sc : Scope} {r : Record String} {r' : Record DeclId} :
    r.resolve? sc = some r' ↔
      r.name = r'.name ∧ Ty.renameFields? sc.find? r.fields = some r'.fields := by
  rw [resolve?_eq, rename?_eq_some_iff]

theorem Method.resolve?_eq_some_iff {sc : Scope} {m : Method String} {m' : Method DeclId} :
    m.resolve? sc = some m' ↔ m.name = m'.name ∧ ∀ direction,
      Ty.renameFields? sc.find? (m.fields direction) = some (m'.fields direction) := by
  rw [resolve?_eq, rename?_eq_some_iff]
  refine and_congr_right fun _ => ⟨fun h direction => ?_, fun h => ⟨h .request, h .response⟩⟩
  cases direction with
  | request => exact h.1
  | response => exact h.2

end CallContract
