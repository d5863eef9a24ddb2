import Mathlib.Data.List.Forall2
import Mathlib.Data.List.Nodup
import Mathlib.Data.List.Perm.Basic

/-!
# Related lists

Lists whose members are related one by one (`List.Forall₂`), lists that come from each other by a
function that may fail (`List.mapM`), and lists whose members are related one by one after one of
the lists has been put in another order (`ReorderedBy`).
-/

namespace CallContract

/-! ## 1. Members and their partners -/

theorem exists_mem_of_forall₂ {α β : Type} {R : α → β → Prop} {xs : List α} {ys : List β}
    (h : List.Forall₂ R xs ys) {y : β} (hy : y ∈ ys) : ∃ x ∈ xs, R x y := by
  induction h with
  | nil => exact absurd hy List.not_mem_nil
  | @cons x _ _ _ hxy _ ih =>
    rcases List.mem_cons.1 hy with rfl | hy
    · exact ⟨x, List.mem_cons_self, hxy⟩
    · rcases ih hy with ⟨x', hx', hR⟩
      exact ⟨x', List.mem_cons_of_mem x hx', hR⟩

theorem forall₂_mem {α β : Type} {R : α → β → Prop} {xs : List α} {ys : List β}
    (h : List.Forall₂ R xs ys) : List.Forall₂ (fun x y => x ∈ xs ∧ R x y) xs ys :=
  (List.forall₂_and_left xs ys).2 ⟨fun _ hx => hx, h⟩

/-- Partners that can be found for all members make a list. -/
theorem exists_forall₂ {α β : Type} {R : α → β → Prop} {xs : List α} (h : ∀ x ∈ xs, ∃ y, R x y) :
    ∃ ys, List.Forall₂ R xs ys := by
  induction xs with
  | nil => exact ⟨[], .nil⟩
  | cons x rest ih =>
    rw [List.forall_mem_cons] at h
    obtain ⟨⟨y, hy⟩, hrest⟩ := h
    obtain ⟨ys, hys⟩ := ih hrest
    exact ⟨y :: ys, .cons hy hys⟩

theorem exists_getElem?_of_forall₂ {α β : Type} {R : α → β → Prop} {xs : List α} {ys : List β}
    (h : List.Forall₂ R xs ys) {i : Nat} {y : β} (hy : ys[i]? = some y) :
    ∃ x, xs[i]? = some x ∧ R x y := by
  induction h generalizing i with
  | nil => cases hy
  | @cons x _ _ _ hxy _ ih =>
    cases i with
    | zero => exact ⟨x, rfl, Option.some.inj hy ▸ hxy⟩
    | succ i => exact ih hy

theorem forall₂_symm_of_mem {α β : Type} {R : α → β → Prop} {S : β → α → Prop} {xs : List α}
    {ys : List β} (h : List.Forall₂ R xs ys) (hS : ∀ x ∈ xs, ∀ y, R x y → S y x) :
    List.Forall₂ S ys xs := by
  induction h with
  | nil => exact .nil
  | @cons x y xs ys hxy _ ih =>
    have hrest := ih fun x' hx' => hS x' (List.mem_cons_of_mem x hx')
    exact .cons (hS x List.mem_cons_self y hxy) hrest

theorem forall₂_comp {α β γ : Type} {R : α → β → Prop} {S : β → γ → Prop} {T : α → γ → Prop}
    {xs : List α} {ys : List β} {zs : List γ} (h : List.Forall₂ R xs ys) (h' : List.Forall₂ S ys zs)
    (hT : ∀ x y z, R x y → S y z → T x z) : List.Forall₂ T xs zs := by
  induction h generalizing zs with
  | nil =>
    cases h'
    exact .nil
  | cons hxy _ ih =>
    cases h' with
    | cons hyz hrest => exact .cons (hT _ _ _ hxy hyz) (ih hrest)

theorem map_eq_of_forall₂ {α β γ : Type} {R : α → β → Prop} {xs : List α} {ys : List β} {p : α → γ}
    {q : β → γ} (h : List.Forall₂ R xs ys) (hpq : ∀ x y, R x y → p x = q y) :
    xs.map p = ys.map q := by
  have heq : List.Forall₂ (· = ·) (xs.map p) (ys.map q) := by
    rw [List.forall₂_map_left_iff, List.forall₂_map_right_iff]
    exact h.imp hpq
  rwa [List.forall₂_eq_eq_eq] at heq

theorem forall₂_modify {α β : Type} {R : α → β → Prop} {xs : List α} {ys : List β}
    (h : List.Forall₂ R xs ys) (i : Nat) {f : α → α} {g : β → β}
    (hfg : ∀ x y, R x y → R (f x) (g y)) : List.Forall₂ R (xs.modify i f) (ys.modify i g) := by
  induction h generalizing i with
  | nil => cases i <;> exact .nil
  | cons hxy hrest ih =>
    cases i with
    | zero => exact .cons (hfg _ _ hxy) hrest
    | succ i => exact .cons hxy (ih i)

theorem flatMap_perm_of_forall₂ {α β γ : Type} {R : α → β → Prop} {f : α → List γ} {g : β → List γ}
    {xs : List α} {ys : List β} (h : List.Forall₂ R xs ys)
    (hfg : ∀ x ∈ xs, ∀ y, R x y → (f x).Perm (g y)) : (xs.flatMap f).Perm (ys.flatMap g) := by
  induction h with
  | nil => exact .nil
  | @cons x y xs ys hxy _ ih =>
    rw [List.flatMap_cons, List.flatMap_cons]
    have hrest := ih fun x' hx' => hfg x' (List.mem_cons_of_mem x hx')
    exact (hfg x List.mem_cons_self y hxy).append hrest

theorem forall_mem_iff_of_forall₂ {α β : Type} {R : α → β → Prop} {p : α → Prop} {q : β → Prop}
    {xs : List α} {ys : List β} (h : List.Forall₂ R xs ys) (hpq : ∀ x y, R x y → (p x ↔ q y)) :
    (∀ x ∈ xs, p x) ↔ ∀ y ∈ ys, q y := by
  induction h with
  | nil => simp
  | cons hxy _ ih => rw [List.forall_mem_cons, List.forall_mem_cons, hpq _ _ hxy, ih]

/-- Entries that have one name and related values. -/
theorem forall₂_named_iff {α β : Type} {R : α → β → Prop} {xs : List (String × α)}
    {ys : List (String × β)} : List.Forall₂ (fun x y => x.1 = y.1 ∧ R x.2 y.2) xs ys ↔
      xs.map (·.1) = ys.map (·.1) ∧ List.Forall₂ R (xs.map (·.2)) (ys.map (·.2)) := by
  induction xs generalizing ys with
  | nil => cases ys <;> simp
  | cons x rest ih =>
    cases ys with
    | nil => simp
    | cons y ys =>
      simp only [List.forall₂_cons, ih, List.map_cons, List.cons.injEq]
      tauto

/-! ## 2. Lists mapped by a function that may fail -/

theorem mapM_eq_some_iff {α β : Type} {f : α → Option β} {xs : List α} {ys : List β} :
    xs.mapM f = some ys ↔ List.Forall₂ (fun x y => f x = some y) xs ys := by
  induction xs generalizing ys with
  | nil =>
    rw [List.mapM_nil, List.forall₂_nil_left_iff]
    exact ⟨fun h => (Option.some.inj h).symm, fun h => h ▸ rfl⟩
  | cons x rest ih =>
    simp only [List.mapM_cons, Option.bind_eq_bind, Option.bind_eq_some_iff, ih,
      List.forall₂_cons_left_iff]
    constructor
    · rintro ⟨y, hy, zs, hzs, heq⟩
      exact ⟨y, zs, hy, hzs, (Option.some.inj heq).symm⟩
    · rintro ⟨y, zs, hy, hzs, rfl⟩
      exact ⟨y, hy, zs, hzs, rfl⟩

theorem isSome_mapM_iff {α β : Type} {f : α → Option β} {xs : List α} :
    (xs.mapM f).isSome ↔ ∀ x ∈ xs, (f x).isSome := by
  induction xs with
  | nil => simp
  | cons x rest ih =>
    rw [List.forall_mem_cons, ← ih, List.mapM_cons]
    cases f x <;> cases rest.mapM f <;> simp

theorem mapM_of_mapM {α β : Type} {f : α → Option β} {g : β → Option α} {xs : List α}
    {ys : List β} (h : xs.mapM f = some ys) (hback : ∀ x ∈ xs, ∀ y, f x = some y → g y = some x) :
    ys.mapM g = some xs := by
  rw [mapM_eq_some_iff] at h ⊢
  induction h with
  | nil => exact .nil
  | @cons x y xs ys hxy _ ih =>
    refine .cons (hback x List.mem_cons_self y hxy) (ih fun x' hx' => ?_)
    exact hback x' (List.mem_cons_of_mem _ hx')

theorem find?_of_mapM {α β : Type} {f : α → Option β} {xs : List α} {ys : List β} {p : α → Bool}
    {q : β → Bool} (h : xs.mapM f = some ys) (hpq : ∀ x y, f x = some y → p x = q y) :
    (xs.find? p).bind f = ys.find? q := by
  rw [mapM_eq_some_iff] at h
  induction h with
  | nil => rfl
  | @cons x y _ _ hxy _ ih =>
    rw [List.find?_cons, List.find?_cons, ← hpq x y hxy]
    cases p x with
    | true => exact hxy
    | false => exact ih

/-! ## 3. Lists in another order -/

/-- The members of the lists are related one by one, in whatever order they stand. -/
def ReorderedBy {α β : Type} (R : α → β → Prop) (xs : List α) (ys : List β) : Prop :=
  ∃ zs, List.Forall₂ R xs zs ∧ zs.Perm ys

namespace ReorderedBy

variable {α β : Type} {R : α → β → Prop} {xs : List α} {ys : List β}

theorem exists_left (h : ReorderedBy R xs ys) {y : β} (hy : y ∈ ys) : ∃ x ∈ xs, R x y := by
  obtain ⟨zs, hR, hperm⟩ := h
  exact exists_mem_of_forall₂ hR (hperm.mem_iff.2 hy)

theorem symm {S : β → α → Prop} (h : ReorderedBy R xs ys) (hS : ∀ x ∈ xs, ∀ y, R x y → S y x) :
    ReorderedBy S ys xs := by
  obtain ⟨zs, hR, hperm⟩ := h
  exact List.perm_comp_forall₂ hperm.symm (forall₂_symm_of_mem hR hS)

theorem map_perm {γ : Type} {p : α → γ} {q : β → γ} (h : ReorderedBy R xs ys)
    (hpq : ∀ x y, R x y → p x = q y) : (xs.map p).Perm (ys.map q) := by
  obtain ⟨zs, hR, hperm⟩ := h
  rw [map_eq_of_forall₂ hR hpq]
  exact hperm.map q

theorem flatMap_perm {γ : Type} {f : α → List γ} {g : β → List γ} (h : ReorderedBy R xs ys)
    (hfg : ∀ x ∈ xs, ∀ y, R x y → (f x).Perm (g y)) : (xs.flatMap f).Perm (ys.flatMap g) := by
  obtain ⟨zs, hR, hperm⟩ := h
  exact (flatMap_perm_of_forall₂ hR hfg).trans (hperm.flatMap_right g)

/-- Where names are distinct, members with one name are related. -/
theorem of_names {name : α → String} {name' : β → String} (h : ReorderedBy R xs ys)
    (hR : ∀ x y, R x y → name x = name' y) (hd : (xs.map name).Nodup) {x : α} {y : β}
    (hx : x ∈ xs) (hy : y ∈ ys) (hxy : name x = name' y) : R x y := by
  obtain ⟨z, hz, hzy⟩ := h.exists_left hy
  have heq : z = x := List.inj_on_of_nodup_map hd hz hx ((hR z y hzy).trans hxy.symm)
  exact heq ▸ hzy

end ReorderedBy
end CallContract
