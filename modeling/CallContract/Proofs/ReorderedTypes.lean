import CallContract.Document.FieldTypes
import CallContract.Proofs.NormalForm

/-!
# Types with fields in another order

Two types are reordered if they differ only in the order of the fields of objects, at any depth.
They have the same parts up to this order and hold the same names by value.  Where no object repeats
a field the same is wrong with both of them, in another order.
-/

namespace CallContract.Ty

variable {ν : Type}

/-- The types are the same up to the order of the fields of all objects in them. -/
inductive Reordered : Ty ν → Ty ν → Prop
  | scalar (s : Scalar) : Reordered (.scalar s) (.scalar s)
  | named (n : ν) : Reordered (.named n) (.named n)
  | nullable {t u : Ty ν} : Reordered t u → Reordered (.nullable t) (.nullable u)
  | array {t u : Ty ν} : Reordered t u → Reordered (.array t) (.array u)
  | union {ts us : List (Ty ν)} : List.Forall₂ Reordered ts us → Reordered (.union ts) (.union us)
  | object {fs gs hs : Fields ν} : fs.names = gs.names →
      List.Forall₂ Reordered (fs.map (·.2)) (gs.map (·.2)) → gs.Perm hs →
      Reordered (.object fs) (.object hs)

/-- The fields have one name and types that are reordered. -/
def FieldReordered (f g : String × Ty ν) : Prop := f.1 = g.1 ∧ f.2.Reordered g.2

variable {t u : Ty ν} {fs gs : Fields ν}

theorem forall₂_fieldReordered_iff : List.Forall₂ FieldReordered fs gs ↔
    fs.names = gs.names ∧ List.Forall₂ Reordered (fs.map (·.2)) (gs.map (·.2)) :=
  forall₂_named_iff

theorem reordered_object_iff :
    (Ty.object fs).Reordered u ↔ ∃ gs, u = .object gs ∧ ReorderedBy FieldReordered fs gs := by
  constructor
  · intro h
    cases h with
    | object hnames htypes hperm =>
      exact ⟨_, rfl, _, forall₂_fieldReordered_iff.2 ⟨hnames, htypes⟩, hperm⟩
  · intro ⟨gs, hu, _, hfs, hperm⟩
    have hboth := forall₂_fieldReordered_iff.1 hfs
    exact hu ▸ .object hboth.1 hboth.2 hperm

theorem reordered_objects_iff :
    (Ty.object fs).Reordered (.object gs) ↔ ReorderedBy FieldReordered fs gs := by
  simp [reordered_object_iff]

theorem Reordered.refl (t : Ty ν) : t.Reordered t := by
  induction t with
  | scalar s => exact .scalar s
  | named n => exact .named n
  | nullable t ih => exact .nullable ih
  | array t ih => exact .array ih
  | union ts ih => exact .union (List.forall₂_same.2 ih)
  | object fs ih =>
    have hfs : List.Forall₂ FieldReordered fs fs :=
      List.forall₂_same.2 fun f hf => ⟨rfl, ih f.1 f.2 hf⟩
    exact reordered_objects_iff.2 ⟨fs, hfs, .refl fs⟩

/-- Fields that are put in another order are reordered. -/
theorem reordered_of_perm (h : fs.Perm gs) : (Ty.object fs).Reordered (.object gs) := by
  have hfs : List.Forall₂ FieldReordered fs fs :=
    List.forall₂_same.2 fun f _ => ⟨rfl, .refl f.2⟩
  exact reordered_objects_iff.2 ⟨fs, hfs, h⟩

theorem Reordered.symm (h : t.Reordered u) : u.Reordered t := by
  induction t generalizing u with
  | scalar _ | named _ => cases h with | _ => exact .refl _
  | nullable t ih => cases h with | nullable h => exact .nullable (ih h)
  | array t ih => cases h with | array h => exact .array (ih h)
  | union ts ih =>
    cases h with
    | union h => exact .union (forall₂_symm_of_mem h fun t ht _ htu => ih t ht htu)
  | object fs ih =>
    obtain ⟨gs, rfl, hfs⟩ := reordered_object_iff.1 h
    exact reordered_objects_iff.2 (hfs.symm fun f hf _ hfg => ⟨hfg.1.symm, ih f.1 f.2 hf hfg.2⟩)

theorem Reordered.names_perm (h : (Ty.object fs).Reordered (.object gs)) :
    fs.names.Perm gs.names :=
  (reordered_objects_iff.1 h).map_perm fun _ _ hfg => hfg.1

theorem Reordered.distinct (h : (Ty.object fs).Reordered (.object gs)) (hfs : fs.Distinct) :
    gs.Distinct := h.names_perm.nodup_iff.1 hfs

/-- Every part is a part of the other type, up to the order of fields. -/
theorem Reordered.exists_part {w : Ty ν} (h : t.Reordered u) (hw : w.Part u) :
    ∃ v : Ty ν, v.Part t ∧ v.Reordered w := by
  induction t generalizing u with
  | scalar s => cases h; cases hw; exact ⟨.scalar s, .self, .scalar s⟩
  | named n => cases h; cases hw; exact ⟨.named n, .self, .named n⟩
  | nullable t ih =>
    cases h with
    | nullable h =>
      cases hw with
      | self => exact ⟨.nullable t, .self, .nullable h⟩
      | nullable hw =>
        obtain ⟨v, hv, hvw⟩ := ih h hw
        exact ⟨v, .nullable hv, hvw⟩
  | array t ih =>
    cases h with
    | array h =>
      cases hw with
      | self => exact ⟨.array t, .self, .array h⟩
      | array hw =>
        obtain ⟨v, hv, hvw⟩ := ih h hw
        exact ⟨v, .array hv, hvw⟩
  | union ts ih =>
    cases h with
    | union h =>
      cases hw with
      | self => exact ⟨.union ts, .self, .union h⟩
      | union hu hw =>
        obtain ⟨t, ht, htu⟩ := exists_mem_of_forall₂ h hu
        obtain ⟨v, hv, hvw⟩ := ih t ht htu hw
        exact ⟨v, .union ht hv, hvw⟩
  | object fs ih =>
    obtain ⟨gs, rfl, hfs⟩ := reordered_object_iff.1 h
    cases hw with
    | self => exact ⟨.object fs, .self, h⟩
    | object hu hw =>
      obtain ⟨f, hf, hfu⟩ := hfs.exists_left hu
      obtain ⟨v, hv, hvw⟩ := ih f.1 f.2 hf hfu.2 hw
      exact ⟨v, .object hf hv, hvw⟩

/-- The types hold the same names by value. -/
theorem Reordered.byValue {route : Route} {n : ν} (h : t.Reordered u) (hn : u.ByValue route n) :
    t.ByValue route n := by
  induction t generalizing u route with
  | scalar _ => cases h; cases hn
  | named _ => cases h; exact hn
  | nullable _ _ | array _ _ => cases h; cases hn
  | union ts ih =>
    cases h with
    | union h =>
      cases hn with
      | union hu hn =>
        obtain ⟨t, ht, htu⟩ := exists_mem_of_forall₂ h hu
        exact .union ht (ih t ht htu hn)
  | object fs ih =>
    obtain ⟨gs, rfl, hfs⟩ := reordered_object_iff.1 h
    cases hn with
    | object hu hn =>
      obtain ⟨⟨_, t⟩, ht, rfl, htu⟩ := hfs.exists_left hu
      exact .object ht (ih _ t ht htu hn)

/-! ## Defects -/

/-- What is wrong with one field if no earlier one has its name. -/
def defectsOfField (s : Scope) (f : String × Ty String) : List (Routed Defect) :=
  (fieldNameDefects [] f.1 ++ f.2.defects s).map (.below (.field f.1))

theorem listDefects_eq (s : Scope) (ts : List (Ty String)) :
    listDefects s ts = ts.flatMap (defects s) := by
  induction ts with
  | nil => rfl
  | cons t rest ih => rw [listDefects, ih, List.flatMap_cons]

/-- Where names are distinct the fields do not depend on each other. -/
theorem fieldDefects_of_fresh {s : Scope} {seen : List String} {fs : Fields String}
    (h : Fresh seen fs.names) : fieldDefects s seen fs = fs.flatMap (defectsOfField s) := by
  induction fs generalizing seen with
  | nil => rfl
  | cons f rest ih =>
    obtain ⟨name, t⟩ := f
    rw [Named.names_cons, fresh_cons] at h
    have hname : fieldNameDefects seen name = fieldNameDefects [] name := by
      unfold fieldNameDefects
      rw [if_neg h.1, if_neg List.not_mem_nil]
    rw [fieldDefects, ih h.2, List.flatMap_cons, hname]
    rfl

theorem fieldDefects_of_distinct {s : Scope} {fs : Fields String} (h : fs.Distinct) :
    fieldDefects s [] fs = fs.flatMap (defectsOfField s) :=
  fieldDefects_of_fresh (fresh_of_nothing.2 h)

/-- In scopes that know the same names the same is wrong with the types. -/
theorem Reordered.defects_perm {s s' : Scope} {t u : Ty String} (h : t.Reordered u)
    (hs : ∀ n, s.contains n = s'.contains n) (ht : t.Everywhere DistinctHere) :
    (t.defects s).Perm (u.defects s') := by
  induction t generalizing u with
  | scalar _ => cases h; exact .nil
  | named n => cases h; rw [defects, defects, hs]
  | nullable t ih =>
    cases h with
    | nullable h =>
      rw [defects, defects]
      exact ih h (everywhere_nullable.1 ht).2
  | array t ih =>
    cases h with
    | array h => exact (ih h (everywhere_array.1 ht).2).map _
  | union ts ih =>
    cases h with
    | union h =>
      have hts := (everywhere_union.1 ht).2
      rw [defects, defects, listDefects_eq, listDefects_eq]
      exact flatMap_perm_of_forall₂ h fun t hmem _ htu => ih t hmem htu (hts t hmem)
  | object fs ih =>
    obtain ⟨gs, rfl, hfs⟩ := reordered_object_iff.1 h
    have hdistinct : Named.Distinct fs := ht.here
    rw [defects, defects, fieldDefects_of_distinct hdistinct,
      fieldDefects_of_distinct (h.distinct hdistinct)]
    apply hfs.flatMap_perm
    intro f hf g hfg
    unfold defectsOfField
    rw [hfg.1]
    have htypes := ih f.1 f.2 hf hfg.2 ((everywhere_object.1 ht).2 f.1 f.2 hf)
    exact (htypes.append_left _).map _

end CallContract.Ty
