import CallContract.Route
import CallContract.Ty
import Mathlib.Data.List.Basic

/-!
# Parts of types

Induction over types, in which the types of a union and of the fields of an object come with their
hypotheses.  A part of a type is the type itself or lies in it at any depth; a property holds
everywhere in a type if all of its parts have it.  What a type holds by value is reached from it
through unions and objects only.
-/

namespace CallContract.Ty

variable {ν μ : Type}

/-- Induction over a type and all the types in it. -/
@[induction_eliminator]
theorem induction {P : Ty ν → Prop} (scalar : ∀ s, P (.scalar s)) (named : ∀ n, P (.named n))
    (nullable : ∀ t, P t → P (.nullable t)) (array : ∀ t, P t → P (.array t))
    (union : ∀ ts, (∀ t ∈ ts, P t) → P (.union ts))
    (object : ∀ fs, (∀ k t, (k, t) ∈ fs → P t) → P (.object fs)) (t : Ty ν) : P t := by
  -- The recursor also asks for a property of lists of types, of lists of fields and of fields.
  refine @Ty.rec ν P (fun ts => ∀ t ∈ ts, P t) (fun fs => ∀ k t, (k, t) ∈ fs → P t)
    (fun e => P e.2) scalar named nullable array union object ?_ ?_ ?_ ?_ ?_ t
  · simp
  · intro t ts ht hts u hu
    rcases List.mem_cons.1 hu with rfl | hu
    · exact ht
    · exact hts u hu
  · simp
  · intro e fs he hfs k t hmem
    rcases List.mem_cons.1 hmem with rfl | hmem
    · exact he
    · exact hfs k t hmem
  · exact fun _ _ ht => ht

/-! ## 1. Lists of types and of fields -/

@[simp] theorem referencesList_eq (ts : List (Ty ν)) :
    referencesList ts = ts.flatMap references := by
  induction ts with
  | nil => rfl
  | cons t rest ih => rw [referencesList, ih, List.flatMap_cons]

@[simp] theorem referencesFields_eq (fs : Fields ν) :
    referencesFields fs = fs.flatMap fun e => e.2.references := by
  induction fs with
  | nil => rfl
  | cons e rest ih => rw [referencesFields, ih, List.flatMap_cons]

@[simp] theorem toJsonList_eq (ts : List (Ty String)) : toJsonList ts = ts.map toJson := by
  induction ts with
  | nil => rfl
  | cons t rest ih => rw [toJsonList, ih, List.map_cons]

@[simp] theorem toJsonFields_eq (fs : Fields String) : toJsonFields fs = fs.mapValues toJson := by
  induction fs with
  | nil => rfl
  | cons e rest ih =>
    rw [toJsonFields, ih]
    rfl

/-! ## 2. Parts -/

/-- The first type is the second one or lies in it. -/
inductive Part (u : Ty ν) : Ty ν → Prop
  | self : Part u u
  | nullable {t : Ty ν} : Part u t → Part u (.nullable t)
  | array {t : Ty ν} : Part u t → Part u (.array t)
  | union {t : Ty ν} {ts : List (Ty ν)} : t ∈ ts → Part u t → Part u (.union ts)
  | object {k : String} {t : Ty ν} {fs : Fields ν} :
      (k, t) ∈ fs → Part u t → Part u (.object fs)

theorem Part.trans {u t w : Ty ν} (h : u.Part t) (h' : t.Part w) : u.Part w := by
  induction h' with
  | self => exact h
  | nullable _ ih => exact .nullable ih
  | array _ ih => exact .array ih
  | union ht _ ih => exact .union ht ih
  | object ht _ ih => exact .object ht ih

/-- All parts of the type have the property. -/
def Everywhere (P : Ty ν → Prop) (t : Ty ν) : Prop := ∀ u : Ty ν, u.Part t → P u

variable {P Q : Ty ν → Prop}

theorem Everywhere.here {t : Ty ν} (h : t.Everywhere P) : P t := h t .self

theorem Everywhere.part {u t : Ty ν} (h : t.Everywhere P) (hu : u.Part t) : u.Everywhere P :=
  fun _ hw => h _ (hw.trans hu)

@[simp] theorem everywhere_scalar {s : Scalar} :
    (Ty.scalar s : Ty ν).Everywhere P ↔ P (.scalar s) := by
  refine ⟨Everywhere.here, fun h u hu => ?_⟩
  cases hu
  exact h

@[simp] theorem everywhere_named {n : ν} : (Ty.named n).Everywhere P ↔ P (.named n) := by
  refine ⟨Everywhere.here, fun h u hu => ?_⟩
  cases hu
  exact h

@[simp] theorem everywhere_nullable {t : Ty ν} :
    (Ty.nullable t).Everywhere P ↔ P (.nullable t) ∧ t.Everywhere P := by
  refine ⟨fun h => ⟨h.here, fun u hu => h u (.nullable hu)⟩, fun h u hu => ?_⟩
  cases hu with
  | self => exact h.1
  | nullable hu => exact h.2 u hu

@[simp] theorem everywhere_array {t : Ty ν} :
    (Ty.array t).Everywhere P ↔ P (.array t) ∧ t.Everywhere P := by
  refine ⟨fun h => ⟨h.here, fun u hu => h u (.array hu)⟩, fun h u hu => ?_⟩
  cases hu with
  | self => exact h.1
  | array hu => exact h.2 u hu

@[simp] theorem everywhere_union {ts : List (Ty ν)} :
    (Ty.union ts).Everywhere P ↔ P (.union ts) ∧ ∀ t ∈ ts, t.Everywhere P := by
  refine ⟨fun h => ⟨h.here, fun t ht u hu => h u (.union ht hu)⟩, fun h u hu => ?_⟩
  cases hu with
  | self => exact h.1
  | union ht hu => exact h.2 _ ht u hu

@[simp] theorem everywhere_object {fs : Fields ν} :
    (Ty.object fs).Everywhere P ↔ P (.object fs) ∧ ∀ k t, (k, t) ∈ fs → t.Everywhere P := by
  refine ⟨fun h => ⟨h.here, fun k t ht u hu => h u (.object ht hu)⟩, fun h u hu => ?_⟩
  cases hu with
  | self => exact h.1
  | object ht hu => exact h.2 _ _ ht u hu

/-- The names of a type are the names among its parts. -/
theorem mem_references_iff {n : ν} {t : Ty ν} : n ∈ t.references ↔ (Ty.named n).Part t := by
  induction t with
  | scalar s =>
    simp only [references, List.not_mem_nil, false_iff]
    rintro ⟨⟩
  | named m =>
    simp only [references, List.mem_singleton]
    constructor
    · rintro rfl
      exact .self
    · rintro ⟨⟩
      rfl
  | nullable t ih =>
    rw [references, ih]
    refine ⟨.nullable, ?_⟩
    rintro (_ | h)
    exact h
  | array t ih =>
    rw [references, ih]
    refine ⟨.array, ?_⟩
    rintro (_ | _ | h)
    exact h
  | union ts ih =>
    simp only [references, referencesList_eq, List.mem_flatMap]
    constructor
    · rintro ⟨t, ht, hn⟩
      exact .union ht ((ih t ht).1 hn)
    · rintro (_ | _ | _ | ⟨ht, hn⟩)
      exact ⟨_, ht, (ih _ ht).2 hn⟩
  | object fs ih =>
    simp only [references, referencesFields_eq, List.mem_flatMap]
    constructor
    · rintro ⟨⟨k, t⟩, ht, hn⟩
      exact .object ht ((ih k t ht).1 hn)
    · rintro (_ | _ | _ | _ | ⟨ht, hn⟩)
      exact ⟨_, ht, (ih _ _ ht).2 hn⟩

/-! ## 3. Names held by value -/

/-- The type holds the name by value at the end of the route: on the way there are unions and
objects only. -/
inductive ByValue : Ty ν → Route → ν → Prop
  | named (n : ν) : ByValue (.named n) [] n
  | union {t : Ty ν} {ts : List (Ty ν)} {r : Route} {n : ν} :
      t ∈ ts → ByValue t r n → ByValue (.union ts) r n
  | object {k : String} {t : Ty ν} {fs : Fields ν} {r : Route} {n : ν} :
      (k, t) ∈ fs → ByValue t r n → ByValue (.object fs) (.field k :: r) n

theorem ByValue.part {t : Ty ν} {r : Route} {n : ν} (h : t.ByValue r n) : (Ty.named n).Part t := by
  induction h with
  | named n => exact .self
  | union ht _ ih => exact .union ht ih
  | object ht _ ih => exact .object ht ih

end CallContract.Ty
