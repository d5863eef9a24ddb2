import CallContract.Files.Path
import Mathlib.Data.List.Sort
import Mathlib.Data.String.Basic

/-!
# Paths of entries

What joining proper names to a path does, however the path is written: the names become further
segments, and components, behind those of the path, and what is left of the joined path behind the
path is the names again.  Paths behind one path are in the order of the names behind it.
-/

namespace CallContract

/-! ## 1. Proper names -/

/-- Is a text the name of an entry? It is not empty, not made of one or two dots, and without
slashes. -/
structure ProperName (name : String) : Prop where
  notMem_slash : '/' ∉ name.toList
  ne_empty : name ≠ ""
  ne_here : name ≠ "."
  ne_up : name ≠ ".."

/-- The names of a directory in a directory, and so on, down to an entry. -/
structure ProperWay (way : List String) : Prop where
  ne_nil : way ≠ []
  names : ∀ name ∈ way, ProperName name

namespace ProperName

variable {name : String}

instance (name : String) : Decidable (ProperName name) :=
  decidable_of_iff ('/' ∉ name.toList ∧ name ≠ "" ∧ name ≠ "." ∧ name ≠ "..")
    ⟨fun ⟨hslash, hempty, hhere, hup⟩ => ⟨hslash, hempty, hhere, hup⟩,
      fun ⟨hslash, hempty, hhere, hup⟩ => ⟨hslash, hempty, hhere, hup⟩⟩

theorem toList_ne_nil (h : ProperName name) : name.toList ≠ [] :=
  mt String.toList_eq_nil_iff.1 h.ne_empty

theorem toList_ne_up (h : ProperName name) : name.toList ≠ ['.', '.'] :=
  fun heq => h.ne_up (String.toList_inj.1 heq)

theorem isIdle (h : ProperName name) : Path.isIdle name.toList = false := by
  have hhere : name.toList ≠ ['.'] := fun heq => h.ne_here (String.toList_inj.1 heq)
  simp [Path.isIdle, h.toList_ne_nil, hhere]

theorem component (h : ProperName name) : Path.component name.toList = .name name := by
  rw [Path.component, if_neg h.toList_ne_up, String.ofList_toList]

end ProperName

theorem Text.join_toList (way : List String) :
    join '/' (way.map String.toList) = ("/".intercalate way).toList := by
  induction way with
  | nil => rfl
  | cons name rest ih =>
    cases rest with
    | nil => simp [join]
    | cons next rest =>
      rw [String.intercalate_cons_cons, String.toList_append, String.toList_append, ← ih]
      simp [join]

namespace ProperWay

variable {way : List String}

theorem isIdle (h : ProperWay way) : ∀ s ∈ way.map String.toList, Path.isIdle s = false :=
  List.forall_mem_map.2 fun name hname => (h.names name hname).isIdle

theorem split (h : ProperWay way) :
    Text.split '/' ("/".intercalate way).toList = way.map String.toList := by
  rw [← Text.join_toList]
  apply Text.split_join (mt List.map_eq_nil_iff.1 h.ne_nil)
  rw [List.forall_mem_map]
  exact fun name hname => (h.names name hname).notMem_slash

theorem components (h : ProperWay way) :
    ((way.map String.toList).filter (!Path.isIdle ·)).map Path.component = way.map .name := by
  have hall : (way.map String.toList).filter (!Path.isIdle ·) = way.map String.toList := by
    rw [List.filter_eq_self]
    exact fun s hs => by rw [h.isIdle s hs, Bool.not_false]
  rw [hall, List.map_map]
  exact List.map_congr_left fun name hname => (h.names name hname).component

end ProperWay

namespace Path

variable {p : Path} {way : List String}

/-! ## 2. Joining -/

theorem join_text (p : Path) (name : String) : (p.join name).text = (p.join "").text ++ name := by
  unfold join
  split <;> simp

theorem prefix_join (p : Path) (name : String) : p.text.toList <+: (p.join name).text.toList := by
  unfold join
  split
  · rw [String.toList_append]
    exact List.prefix_append _ _
  · rw [String.toList_append, String.toList_append, List.append_assoc]
    exact List.prefix_append _ _

/-- Names that are joined one after the other are joined at once, with slashes between them. -/
theorem join_join {name : String} (hname : ProperName name) (more : String) :
    (p.join name).join more = p.join (name ++ "/" ++ more) := by
  have hne := hname.toList_ne_nil
  have hopen : ¬ ((p.join name).text = "" ∨ (p.join name).text.toList.getLast? = some '/') := by
    rw [join_text, ← String.toList_inj, String.toList_append, not_or]
    constructor
    · exact fun hnil => hne (List.append_eq_nil_iff.1 hnil).2
    · rw [List.getLast?_append_of_ne_nil _ hne]
      exact fun hlast => hname.notMem_slash (List.mem_of_getLast? hlast)
  have htext : ((p.join name).join more).text = (p.join (name ++ "/" ++ more)).text := by
    rw [join, if_neg hopen, join_text p name, join_text p (name ++ "/" ++ more)]
    simp only [String.append_assoc]
  exact congrArg Path.mk htext

theorem foldl_join (h : ProperWay way) : way.foldl join p = p.join ("/".intercalate way) := by
  induction way generalizing p with
  | nil => exact absurd rfl h.ne_nil
  | cons name rest ih =>
    obtain ⟨hname, hrest⟩ := List.forall_mem_cons.1 h.names
    cases rest with
    | nil => simp
    | cons next rest =>
      rw [List.foldl_cons, ih ⟨List.cons_ne_nil next rest, hrest⟩, join_join hname,
        String.intercalate_cons_cons]

/-- A slash stands between a path and what is joined to it, be it the one that the path ends
with. -/
theorem exists_front (h : p.text ≠ "") :
    ∃ front, (p.text.toList = front ∧ front ≠ [] ∨ p.text.toList = front ++ ['/']) ∧
      ∀ name, (p.join name).text.toList = front ++ '/' :: name.toList := by
  have hne : p.text.toList ≠ [] := mt String.toList_eq_nil_iff.1 h
  by_cases hlast : p.text.toList.getLast? = some '/'
  · have hfront := List.dropLast_append_getLast? '/' hlast
    refine ⟨p.text.toList.dropLast, .inr hfront.symm, fun name => ?_⟩
    rw [join, if_pos (.inr hlast), String.toList_append]
    nth_rewrite 1 [← hfront]
    rw [List.append_assoc, List.singleton_append]
  · refine ⟨p.text.toList, .inl ⟨rfl, hne⟩, fun name => ?_⟩
    rw [join, if_neg (not_or.2 ⟨h, hlast⟩)]
    simp

theorem exists_split_join (h : p.text ≠ "") : ∃ segments,
    (Text.split '/' p.text.toList = segments ∨
      Text.split '/' p.text.toList = segments ++ [[]]) ∧
    ∀ name, Text.split '/' (p.join name).text.toList = segments ++ Text.split '/' name.toList := by
  obtain ⟨front, hfront, hjoin⟩ := exists_front h
  refine ⟨Text.split '/' front, ?_, fun name => ?_⟩
  · refine hfront.imp (fun hfront => by rw [hfront.1]) fun hfront => ?_
    rw [hfront, Text.split_append_mark]
    rfl
  · rw [hjoin, Text.split_append_mark]

/-- Does a text begin with a name or with two dots? -/
structure Unanchored (cs : List Char) : Prop where
  ne_root (rest : List Char) : cs ≠ '/' :: rest
  ne_dot : cs ≠ ['.']
  ne_here (rest : List Char) : cs ≠ '.' :: '/' :: rest

theorem parts_of_root {rest : List Char} (h : p.text.toList = '/' :: rest) :
    p.parts = (some .root, Text.split '/' rest) := by
  rw [parts, h]
  rfl

theorem parts_of_dot (h : p.text.toList = ['.']) : p.parts = (some .here, []) := by
  rw [parts, h]
  rfl

theorem parts_of_here {rest : List Char} (h : p.text.toList = '.' :: '/' :: rest) :
    p.parts = (some .here, Text.split '/' rest) := by
  rw [parts, h]
  rfl

theorem parts_of_unanchored (h : Unanchored p.text.toList) :
    p.parts = (none, Text.split '/' p.text.toList) := by
  unfold parts
  split
  · exact absurd ‹_› (h.ne_root _)
  · exact absurd ‹_› h.ne_dot
  · exact absurd ‹_› (h.ne_here _)
  · rfl

theorem exists_anchor (h : ¬ Unanchored p.text.toList) :
    ∃ anchor segments, p.parts = (some anchor, segments) := by
  by_contra hnone
  push Not at hnone
  exact h ⟨fun _ heq => hnone _ _ (parts_of_root heq), fun heq => hnone _ _ (parts_of_dot heq),
    fun _ heq => hnone _ _ (parts_of_here heq)⟩

theorem Unanchored.append {cs : List Char} (h : Unanchored cs) (hne : cs ≠ []) (rest : List Char) :
    Unanchored (cs ++ '/' :: rest) := by
  cases cs with
  | nil => exact absurd rfl hne
  | cons c cs =>
    constructor
    · rintro _ ⟨⟩
      exact h.ne_root _ rfl
    · intro heq
      simp at heq
    · intro more heq
      cases cs with
      | nil =>
        cases heq
        exact h.ne_dot rfl
      | cons d cs =>
        cases heq
        exact h.ne_here _ rfl

/-- Further segments behind a slash leave the anchor of a path as it is. -/
theorem parts_append {q : Path} {rest : List Char} (hne : p.text.toList ≠ [])
    (hq : q.text.toList = p.text.toList ++ '/' :: rest) :
    q.parts = (p.parts.1, p.parts.2 ++ Text.split '/' rest) := by
  by_cases hroot : ∃ cs, p.text.toList = '/' :: cs
  · obtain ⟨cs, hp⟩ := hroot
    rw [hp, List.cons_append] at hq
    rw [parts_of_root hp, parts_of_root hq, Text.split_append_mark]
  -- A dot alone is an anchor, and stays one before the new slash.
  by_cases hdot : p.text.toList = ['.']
  · rw [hdot] at hq
    rw [parts_of_dot hdot, parts_of_here hq, List.nil_append]
  by_cases hhere : ∃ cs, p.text.toList = '.' :: '/' :: cs
  · obtain ⟨cs, hp⟩ := hhere
    rw [hp, List.cons_append, List.cons_append] at hq
    rw [parts_of_here hp, parts_of_here hq, Text.split_append_mark]
  · have hp : Unanchored p.text.toList := ⟨not_exists.1 hroot, hdot, not_exists.1 hhere⟩
    rw [parts_of_unanchored hp, parts_of_unanchored (hq ▸ hp.append hne rest), hq,
      Text.split_append_mark]

theorem exists_parts_join (h : p.text ≠ "") : ∃ anchor segments,
    (p.parts = (anchor, segments) ∨ p.parts = (anchor, segments ++ [[]])) ∧
    ∀ name, (p.join name).parts = (anchor, segments ++ Text.split '/' name.toList) := by
  obtain ⟨front, hfront, hjoin⟩ := exists_front h
  by_cases hnil : front = []
  · -- The path is a slash, and that is its anchor.
    subst hnil
    have hp : p.text.toList = ['/'] := hfront.resolve_left fun hfront => hfront.2 rfl
    exact ⟨some .root, [], .inr (parts_of_root hp), fun name => parts_of_root (hjoin name)⟩
  · have htext : (Path.mk (String.ofList front)).text.toList = front := String.toList_ofList
    have hparts {q : Path} {rest : List Char} (hq : q.text.toList = front ++ '/' :: rest) :=
      parts_append (htext.symm ▸ hnil) (hq.trans (congrArg (· ++ '/' :: rest) htext.symm))
    refine ⟨_, _, ?_, fun name => hparts (hjoin name)⟩
    refine hfront.imp (fun hp => ?_) hparts
    rw [← hp.1, String.ofList_toList]

/-! ## 3. Components -/

theorem components_of_parts {anchor : Option Anchor} {segments : List (List Char)}
    (h : p.parts = (anchor, segments)) : p.components =
      (anchor.map Anchor.component).toList ++ (segments.filter (!isIdle ·)).map component := by
  rw [components, h]

theorem components_ne_nil (h : p.text ≠ "") : p.components ≠ [] := by
  have hne : p.text.toList ≠ [] := mt String.toList_eq_nil_iff.1 h
  by_cases hanchor : Unanchored p.text.toList
  · rw [components_of_parts (parts_of_unanchored hanchor)]
    -- Without an anchor the first segment counts: an idle one would be an anchor.
    obtain ⟨part, parts, hsplit, hpart⟩ := Text.exists_split_cons '/' p.text.toList
    have hcounts : isIdle part = false := by
      rw [isIdle, Bool.or_eq_false_iff, decide_eq_false_iff_not, decide_eq_false_iff_not]
      constructor
      · rintro rfl
        exact hpart.elim hne fun ⟨rest, hrest⟩ => hanchor.ne_root rest hrest
      · rintro rfl
        exact hpart.elim hanchor.ne_dot fun ⟨rest, hrest⟩ => hanchor.ne_here rest hrest
    simp [hsplit, hcounts]
  · obtain ⟨anchor, segments, hparts⟩ := exists_anchor hanchor
    simp [components_of_parts hparts]

/-- The components of a path, and how many of them are segments. -/
theorem exists_components_join (h : p.text ≠ "") : ∃ anchor segments,
    p.components = (anchor.map Anchor.component).toList ++
      (segments.filter (!isIdle ·)).map component ∧
    ∀ name, (p.join name).parts = (anchor, segments ++ Text.split '/' name.toList) := by
  obtain ⟨anchor, segments, hp, hjoin⟩ := exists_parts_join h
  refine ⟨anchor, segments, ?_, hjoin⟩
  rcases hp with hp | hp
  · exact components_of_parts hp
  · -- The text behind a slash at the end is an idle segment.
    rw [components_of_parts hp, List.filter_append]
    simp [isIdle]

theorem components_join (h : p.text ≠ "") (hway : ProperWay way) :
    (p.join ("/".intercalate way)).components = p.components ++ way.map .name := by
  obtain ⟨anchor, segments, hp, hjoin⟩ := exists_components_join h
  have hparts := hjoin ("/".intercalate way)
  rw [hway.split] at hparts
  rw [components_of_parts hparts, hp, List.filter_append, List.map_append, hway.components,
    List.append_assoc]

theorem unanchored_way (h : ProperWay way) : Unanchored ("/".intercalate way).toList := by
  -- The first segment of a text that begins with an anchor is idle, but no name is.
  have hcounts {part : List Char} {parts : List (List Char)}
      (hsplit : Text.split '/' ("/".intercalate way).toList = part :: parts) :
      isIdle part = false := by
    apply h.isIdle
    rw [← h.split, hsplit]
    exact List.mem_cons_self
  constructor
  · intro rest heq
    rw [heq, Text.split_mark] at hcounts
    exact absurd (hcounts rfl) (by decide)
  · intro heq
    rw [heq] at hcounts
    exact absurd (hcounts rfl) (by decide)
  · intro rest heq
    have hdot : Text.split '/' ('.' :: '/' :: rest) = ['.'] :: Text.split '/' rest :=
      Text.split_append (by decide : '/' ∉ ['.']) rest
    rw [heq] at hcounts
    exact absurd (hcounts hdot) (by decide)

/-- Names between slashes are the components of their path. -/
theorem components_way (h : ProperWay way) :
    (Path.mk ("/".intercalate way)).components = way.map .name := by
  have hparts : (Path.mk ("/".intercalate way)).parts = (none, way.map String.toList) := by
    rw [← h.split]
    exact parts_of_unanchored (unanchored_way h)
  rw [components_of_parts hparts, h.components]
  rfl

/-! ## 4. What is left behind a path -/

@[simp] theorem dropSegments_zero (segments : List (List Char)) :
    dropSegments 0 segments = segments := by
  cases segments <;> rw [dropSegments]

theorem dropWhile_dropSegments (segments rest : List (List Char)) :
    (dropSegments (segments.countP (!isIdle ·)) (segments ++ rest)).dropWhile isIdle =
      rest.dropWhile isIdle := by
  induction segments with
  | nil => simp
  | cons s segments ih =>
    cases hs : isIdle s with
    | true =>
      rw [List.countP_cons_of_neg (by simp [hs])]
      -- An idle segment is dropped on the way to one that counts, or else by `dropWhile`.
      cases hcount : segments.countP (!isIdle ·) with
      | zero =>
        rw [hcount, dropSegments_zero] at ih
        rw [dropSegments_zero, List.cons_append, List.dropWhile_cons_of_pos hs, ih]
      | succ n =>
        rw [hcount] at ih
        rw [List.cons_append, dropSegments, if_pos hs, ih]
    | false =>
      rw [List.countP_cons_of_pos (by simp [hs]), List.cons_append, dropSegments,
        if_neg (by simp [hs]), ih]

theorem trimEnd_dropWhile {segments : List (List Char)} (h : ∀ s ∈ segments, isIdle s = false) :
    trimEnd (segments.dropWhile isIdle) = segments := by
  have hkeeps (segments : List (List Char)) (h : ∀ s ∈ segments, isIdle s = false) :
      segments.dropWhile isIdle = segments := by
    cases segments with
    | nil => rfl
    | cons s rest => exact List.dropWhile_cons_of_neg (by simp [h s List.mem_cons_self])
  rw [hkeeps _ h, trimEnd, hkeeps, List.reverse_reverse]
  exact fun s hs => h s (List.mem_reverse.1 hs)

/-- **Behind a path there is what was joined to it**, whatever the spelling of the path. -/
theorem relativeTo?_join (h : p.text ≠ "") (hway : ProperWay way) :
    (p.join ("/".intercalate way)).relativeTo? p = some ⟨"/".intercalate way⟩ := by
  obtain ⟨anchor, segments, hp, hjoin⟩ := exists_components_join h
  have hparts := hjoin ("/".intercalate way)
  rw [hway.split] at hparts
  have hleads : p.components.isPrefixOf (p.join ("/".intercalate way)).components := by
    rw [components_join h hway, List.isPrefixOf_iff_prefix]
    exact List.prefix_append _ _
  rw [relativeTo?, if_pos hleads]
  cases hn : p.components.length with
  | zero => exact absurd (List.length_eq_zero_iff.1 hn) (components_ne_nil h)
  | succ n =>
    -- What `behind` drops are the components of the path, less the anchor.
    have hcount : (if anchor.isSome then n else n + 1) = segments.countP (!isIdle ·) := by
      rw [hp] at hn
      rw [List.countP_eq_length_filter]
      cases anchor <;> simp at hn ⊢ <;> omega
    rw [behind, hparts]
    simp only [hcount, dropWhile_dropSegments, trimEnd_dropWhile hway.isIdle, Text.join_toList,
      String.ofList_toList]

/-! ## 5. Order -/

theorem inOrder_append (front as bs : List Component) :
    inOrder (front ++ as) (front ++ bs) = inOrder as bs := by
  induction front with
  | nil => rfl
  | cons c front ih =>
    have hirrefl : c.before c = false := by
      cases c <;> simp [Component.before, Component.rank]
    simp [inOrder, hirrefl, ih]

theorem inOrder_names (as bs : List String) :
    inOrder (as.map .name) (bs.map .name) = decide (¬ bs < as) := by
  induction as generalizing bs with
  | nil => simp [inOrder]
  | cons a as ih =>
    cases bs with
    | nil => simp [inOrder]
    | cons b bs =>
      rw [List.map_cons, List.map_cons, inOrder, ih, Bool.eq_iff_iff]
      simp only [Component.before, List.cons_lt_cons_iff, not_or, Bool.or_eq_true,
        Bool.and_eq_true, decide_eq_true_eq, Component.name.injEq, not_and]
      rcases lt_trichotomy a b with h | rfl | h
      · simp [h, h.ne', h.not_gt]
      · simp
      · simp [h, h.ne', h.not_gt]

/-- Paths behind one path are in the order of the names behind it, from the outside to the
inside. -/
theorem le_join {way' : List String} (h : p.text ≠ "") (hway : ProperWay way)
    (hway' : ProperWay way') :
    (p.join ("/".intercalate way)).le (p.join ("/".intercalate way')) = decide (¬ way' < way) := by
  rw [le, components_join h hway, components_join h hway', inOrder_append, inOrder_names]

/-! ## 6. Names of documents -/

/-- The name ends with a dot and the extension, which is the text behind the last dot, and there is
something before it. -/
def HasExtension (ext name : String) : Prop :=
  '.' ∉ ext.toList ∧ ∃ stem, stem ≠ "" ∧ name = stem ++ "." ++ ext

theorem hasExtension_iff {name : String} : HasExtension "json" name ↔
    documentEnding.isSuffixOf name.toList ∧ documentEnding.length < name.length := by
  rw [List.isSuffixOf_iff_suffix]
  constructor
  · rintro ⟨-, stem, hstem, rfl⟩
    have hending : (stem ++ "." ++ "json").toList = stem.toList ++ documentEnding := by
      simp [documentEnding]
    rw [hending, ← String.length_toList, hending, List.length_append]
    refine ⟨List.suffix_append _ _, ?_⟩
    have hpos := List.length_pos_iff.2 (mt String.toList_eq_nil_iff.1 hstem)
    omega
  · rintro ⟨⟨stem, hstem⟩, hlong⟩
    refine ⟨by decide, String.ofList stem, ?_, ?_⟩
    · intro heq
      rw [← String.length_toList, ← hstem, List.length_append] at hlong
      have hnil : stem = [] := by simpa using heq
      simp [hnil] at hlong
    · rw [← String.toList_inj, ← hstem]
      simp [documentEnding]

instance (name : String) : Decidable (HasExtension "json" name) :=
  decidable_of_iff _ hasExtension_iff.symm

theorem isDocument_iff {name : String} (h : p.components.getLast? = some (.name name)) :
    p.isDocument ↔ HasExtension "json" name := by
  rw [isDocument, h, hasExtension_iff]
  simp

end Path
end CallContract
