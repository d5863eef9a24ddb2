import CallContract.Named
import Mathlib.Data.List.Nodup

/-!
# Lists with distinct names

What a list of named values gives where no name occurs twice: looking a name up finds the one entry
that has it, and merging leaves the list as it is.  A merged list has distinct names whatever it was
made from.
-/

namespace CallContract

/-- The names are distinct, and none of them was seen before. -/
def Fresh {α : Type} (seen names : List α) : Prop := names.Nodup ∧ ∀ n ∈ names, n ∉ seen

@[simp] theorem fresh_nil {α : Type} {seen : List α} : Fresh seen [] := by simp [Fresh]

@[simp] theorem fresh_cons {α : Type} {seen names : List α} {n : α} :
    Fresh seen (n :: names) ↔ n ∉ seen ∧ Fresh (n :: seen) names := by
  unfold Fresh
  rw [List.nodup_cons, List.forall_mem_cons]
  constructor
  · rintro ⟨⟨hn, hd⟩, hseen, hrest⟩
    refine ⟨hseen, hd, fun m hm => ?_⟩
    rw [List.mem_cons, not_or]
    exact ⟨fun heq => hn (heq ▸ hm), hrest m hm⟩
  · rintro ⟨hseen, hd, hrest⟩
    refine ⟨⟨fun hn => hrest n hn List.mem_cons_self, hd⟩, hseen, fun m hm hin => ?_⟩
    exact hrest m hm (List.mem_cons_of_mem n hin)

theorem fresh_of_nothing {α : Type} {names : List α} : Fresh [] names ↔ names.Nodup := by
  simp [Fresh]

theorem firstRepeat?_eq_none_iff {α : Type} [DecidableEq α] {seen xs : List α} :
    firstRepeat? seen xs = none ↔ Fresh seen xs := by
  induction xs generalizing seen with
  | nil => simp [firstRepeat?]
  | cons x rest ih =>
    rw [firstRepeat?, fresh_cons, ← ih]
    by_cases hx : x ∈ seen <;> simp [hx]

theorem Fresh.congr {α : Type} {seen seen' names : List α} (h : ∀ n, n ∈ seen ↔ n ∈ seen') :
    Fresh seen names ↔ Fresh seen' names := by
  unfold Fresh
  simp only [h]

namespace Named

variable {α β : Type} {entries : Named α} {n : String} {x : α}

theorem mem_names_iff : n ∈ entries.names ↔ ∃ x, (n, x) ∈ entries := by
  simp [names]

@[simp] theorem names_append (a b : Named α) : names (a ++ b) = names a ++ names b :=
  List.map_append

theorem names_map {γ : Type} (name : γ → String) (f : γ → α) (xs : List γ) :
    names (xs.map fun x => (name x, f x)) = xs.map name := by
  rw [names, List.map_map]
  rfl

/-! ## 1. Looking up -/

theorem mem_of_lookup (h : entries.lookup n = some x) : (n, x) ∈ entries := by
  rcases List.lookup_eq_some_iff.1 h with ⟨before, after, hsplit, -⟩
  simp [hsplit]

theorem lookup_isSome_iff : (entries.lookup n).isSome ↔ n ∈ entries.names := by
  rw [List.lookup_isSome_iff, mem_names_iff]
  constructor
  · rintro ⟨⟨k, y⟩, hmem, hk⟩
    exact ⟨y, by simpa [beq_iff_eq.1 hk] using hmem⟩
  · rintro ⟨y, hmem⟩
    exact ⟨(n, y), hmem, beq_self_eq_true n⟩

theorem lookup_eq_none_iff : entries.lookup n = none ↔ n ∉ entries.names := by
  rw [← lookup_isSome_iff, Option.not_isSome_iff_eq_none]

theorem lookup_mapValues (f : α → β) :
    (entries.mapValues f).lookup n = (entries.lookup n).map f := by
  induction entries with
  | nil => rfl
  | cons e rest ih =>
    show List.lookup n ((e.1, f e.2) :: mapValues f rest) = _
    rw [List.lookup_cons, List.lookup_cons, ih]
    cases n == e.1 <;> rfl

/-- Where names are distinct every entry is found under its name. -/
theorem lookup_eq_some_iff (hd : Distinct entries) :
    entries.lookup n = some x ↔ (n, x) ∈ entries := by
  refine ⟨mem_of_lookup, fun hmem => ?_⟩
  induction entries with
  | nil => simp at hmem
  | cons e rest ih =>
    rcases e with ⟨k, y⟩
    rcases List.nodup_cons.1 hd with ⟨hk, hrest⟩
    rcases List.mem_cons.1 hmem with heq | hin
    · rcases Prod.mk.inj heq with ⟨rfl, rfl⟩
      exact List.lookup_cons_self
    -- The entry is a later one, so the first one has another name.
    · have hne : n ≠ k := by
        rintro rfl
        exact hk (mem_names_iff.2 ⟨x, hin⟩)
      rw [List.lookup_cons, beq_false_of_ne hne]
      exact ih hrest hin

/-- Where names are distinct every element is the first one of its name. -/
theorem find?_of_nodup {γ : Type} {name : γ → String} {xs : List γ} (hd : (xs.map name).Nodup)
    {y : γ} (hy : y ∈ xs) : (xs.find? fun z => name z = name y) = some y := by
  induction xs with
  | nil => exact absurd hy List.not_mem_nil
  | cons z rest ih =>
    rw [List.map_cons, List.nodup_cons] at hd
    rw [List.find?_cons]
    by_cases hz : name z = name y
    · -- A later element of the name would be another one of that name.
      have heq : y = z := (List.mem_cons.1 hy).resolve_right fun hin =>
        hd.1 (hz ▸ List.mem_map_of_mem hin)
      simp [heq]
    · have hin : y ∈ rest := (List.mem_cons.1 hy).resolve_left fun heq => hz (heq ▸ rfl)
      simp [hz, ih hd.2 hin]

/-- Two distinct names that are both there, and no others, make a list of two. -/
theorem perm_pair {a b : String} {y : α} (hab : a ≠ b) (hd : Distinct entries)
    (hknown : ∀ e ∈ entries, e.1 ∈ [a, b]) (ha : entries.lookup a = some x)
    (hb : entries.lookup b = some y) : entries.Perm [(a, x), (b, y)] := by
  rw [lookup_eq_some_iff hd] at ha hb
  have hpair : [(a, x), (b, y)].Nodup := by
    rw [List.nodup_cons, List.mem_singleton]
    exact ⟨fun heq => hab (Prod.mk.inj heq).1, List.nodup_singleton _⟩
  rw [List.perm_ext_iff_of_nodup (List.Nodup.of_map _ hd) hpair]
  intro e
  rw [List.mem_cons, List.mem_singleton]
  constructor
  · intro he
    -- Whatever has one of the two names is what is found under it.
    have hfound := (lookup_eq_some_iff hd).2 he
    have hname := hknown e he
    rw [List.mem_cons, List.mem_singleton] at hname
    obtain h | h := hname
    · rw [h, (lookup_eq_some_iff hd).2 ha] at hfound
      exact .inl (Prod.ext h (Option.some.inj hfound).symm)
    · rw [h, (lookup_eq_some_iff hd).2 hb] at hfound
      exact .inr (Prod.ext h (Option.some.inj hfound).symm)
  · intro he
    obtain rfl | rfl := he
    · exact ha
    · exact hb

/-! ## 2. Merging -/

theorem names_put (name : String) (x : α) (entries : Named α) :
    (entries.put name x).names =
      if name ∈ entries.names then entries.names else entries.names ++ [name] := by
  induction entries with
  | nil => simp [put]
  | cons e rest ih =>
    rcases e with ⟨k, y⟩
    by_cases hk : k = name
    · simp [put, hk]
    · rw [put, if_neg hk, names_cons, ih]
      by_cases hin : name ∈ names rest
      · simp [hin]
      · simp [hin, Ne.symm hk]

theorem distinct_put {name : String} (h : Distinct entries) : Distinct (entries.put name x) := by
  rw [Distinct, names_put]
  split
  · exact h
  · rename_i hnot
    simpa using List.Nodup.concat hnot h

/-- Puts entries into others, one after the other. -/
def mergeInto (done entries : Named α) : Named α :=
  entries.foldl (fun done e => put e.1 e.2 done) done

@[simp] theorem mergeInto_nil (done : Named α) : mergeInto done [] = done := rfl

@[simp] theorem mergeInto_cons (done : Named α) (e : String × α) (rest : Named α) :
    mergeInto done (e :: rest) = mergeInto (put e.1 e.2 done) rest := rfl

theorem distinct_mergeInto {done : Named α} (h : Distinct done) :
    Distinct (mergeInto done entries) := by
  induction entries generalizing done with
  | nil => exact h
  | cons e rest ih => exact ih (distinct_put h)

theorem distinct_merge (entries : Named α) : Distinct entries.merge :=
  distinct_mergeInto List.nodup_nil

theorem mem_of_mem_put {e : String × α} (h : e ∈ entries.put n x) : e = (n, x) ∨ e ∈ entries := by
  induction entries with
  | nil => exact .inl (List.mem_singleton.1 h)
  | cons d rest ih =>
    rw [put] at h
    split at h
    · rcases List.mem_cons.1 h with h | h
      · exact .inl h
      · exact .inr (List.mem_cons_of_mem d h)
    · rcases List.mem_cons.1 h with h | h
      · exact .inr (h ▸ List.mem_cons_self)
      · exact (ih h).imp_right (List.mem_cons_of_mem d)

theorem mem_of_mem_mergeInto {e : String × α} {done : Named α} (h : e ∈ mergeInto done entries) :
    e ∈ done ∨ e ∈ entries := by
  induction entries generalizing done with
  | nil => exact .inl h
  | cons d rest ih =>
    rw [mergeInto_cons] at h
    rcases ih h with h | h
    · rcases mem_of_mem_put h with rfl | h
      · exact .inr List.mem_cons_self
      · exact .inl h
    · exact .inr (List.mem_cons_of_mem d h)

theorem mem_of_mem_merge {e : String × α} (h : e ∈ entries.merge) : e ∈ entries :=
  (mem_of_mem_mergeInto h).resolve_left List.not_mem_nil

theorem put_mapValues (f : α → β) :
    (entries.mapValues f).put n (f x) = (entries.put n x).mapValues f := by
  induction entries with
  | nil => rfl
  | cons d rest ih =>
    rcases d with ⟨k, y⟩
    show put n (f x) ((k, f y) :: mapValues f rest) = _
    rw [put, put, ih]
    split <;> rfl

theorem mergeInto_mapValues (f : α → β) (done entries : Named α) :
    mergeInto (done.mapValues f) (entries.mapValues f) = (mergeInto done entries).mapValues f := by
  induction entries generalizing done with
  | nil => rfl
  | cons d rest ih =>
    rw [mergeInto_cons, ← ih, ← put_mapValues]
    rfl

theorem merge_mapValues (f : α → β) (entries : Named α) :
    (entries.mapValues f).merge = entries.merge.mapValues f :=
  mergeInto_mapValues f [] entries

theorem notMem_names_of_distinct {done : Named α} {e : String × α}
    (h : Distinct (done ++ e :: entries)) : e.1 ∉ done.names := by
  rw [Distinct, names_append, names_cons] at h
  exact fun hin => (List.nodup_append.1 h).2.2 e.1 hin e.1 List.mem_cons_self rfl

theorem mergeInto_of_distinct {done : Named α} (h : Distinct (done ++ entries)) :
    mergeInto done entries = done ++ entries := by
  induction entries generalizing done with
  | nil => simp
  | cons e rest ih =>
    have hk : e.1 ∉ done.names := notMem_names_of_distinct h
    -- An entry with a new name is put at the end of those that are done.
    have hsplit : done ++ e :: rest = (done ++ [e]) ++ rest := by simp
    rw [hsplit] at h ⊢
    rw [mergeInto_cons, put_of_notMem hk]
    exact ih h

theorem merge_of_distinct (h : Distinct entries) : entries.merge = entries :=
  mergeInto_of_distinct h

theorem merge_map_of_nodup {γ : Type} {name : γ → String} {f : γ → α} {xs : List γ}
    (h : (xs.map name).Nodup) :
    merge (xs.map fun x => (name x, f x)) = xs.map fun x => (name x, f x) := by
  apply merge_of_distinct
  rwa [Distinct, names_map]

end Named
end CallContract
