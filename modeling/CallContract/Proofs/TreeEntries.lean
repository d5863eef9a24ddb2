import CallContract.Files.Tree
import CallContract.Proofs.EntryPaths
import CallContract.Proofs.NamedLists
import CallContract.Proofs.RelatedLists

/-!
# Entries of file trees

What is where in a tree is said by the names on the way there.  Following a path step by step agrees
with it: behind a path to a directory, wherever the path starts, names lead where they lead from
that directory, and behind a slash where they lead from the root.  The documents of a tree are found
on the ways to its files, and nothing about the order of entries counts for where they are.
-/

namespace CallContract

namespace FileTree

/-- Induction over a tree and all trees in it. -/
@[induction_eliminator]
theorem induction {P : FileTree → Prop} (file : ∀ bytes, P (.file bytes))
    (guarded : ∀ reason, P (.guarded reason))
    (directory : ∀ entries, (∀ name t, (name, t) ∈ entries → P t) → P (.directory entries))
    (locked : ∀ reason, P (.locked reason)) (t : FileTree) : P t := by
  refine @FileTree.rec P (fun entries => ∀ name t, (name, t) ∈ entries → P t) (fun e => P e.2)
    file guarded directory locked ?_ ?_ ?_ t
  · simp
  · intro e rest he hrest name t hmem
    rcases List.mem_cons.1 hmem with rfl | hmem
    · exact he
    · exact hrest name t hmem
  · exact fun _ _ ht => ht

/-! ## 1. Ways -/

/-- The names lead from the first tree to the second one, from each directory to an entry. -/
inductive Leads : FileTree → List String → FileTree → Prop
  | here {t : FileTree} : Leads t [] t
  | entry {name : String} {way : List String} {entries : List (String × FileTree)}
      {t u : FileTree} : (name, t) ∈ entries → Leads t way u →
      Leads (.directory entries) (name :: way) u

/-- Nothing can be reached through the tree: it is no directory, or a locked one. -/
def Leaf (t : FileTree) : Prop := ∀ entries, t ≠ .directory entries

/-- In every directory of the tree the names of the entries are proper, and no two are the same. -/
def Proper (t : FileTree) : Prop :=
  ∀ way entries, t.Leads way (.directory entries) →
    Named.Distinct entries ∧ ∀ name ∈ Named.names entries, ProperName name

variable {t u v : FileTree} {entries : List (String × FileTree)} {name : String}
  {way : List String}

theorem leaf_of_not_isDirectory (h : t.isDirectory = false) : t.Leaf := by
  rintro entries rfl
  cases h

theorem leads_leaf_iff (h : t.Leaf) : t.Leads way u ↔ way = [] ∧ u = t := by
  constructor
  · intro hway
    cases hway with
    | here => exact ⟨rfl, rfl⟩
    | entry _ _ => exact absurd rfl (h _)
  · rintro ⟨rfl, rfl⟩
    exact .here

@[simp] theorem leads_file_iff {bytes : List UInt8} :
    (FileTree.file bytes).Leads way u ↔ way = [] ∧ u = .file bytes := leads_leaf_iff nofun

@[simp] theorem leads_guarded_iff {reason : String} :
    (FileTree.guarded reason).Leads way u ↔ way = [] ∧ u = .guarded reason := leads_leaf_iff nofun

@[simp] theorem leads_locked_iff {reason : String} :
    (FileTree.locked reason).Leads way u ↔ way = [] ∧ u = .locked reason := leads_leaf_iff nofun

@[simp] theorem leads_nil_iff : t.Leads [] u ↔ u = t := by
  constructor
  · intro h
    cases h
    rfl
  · rintro rfl
    exact .here

@[simp] theorem leads_cons_iff : (FileTree.directory entries).Leads (name :: way) u ↔
    ∃ t, (name, t) ∈ entries ∧ t.Leads way u := by
  constructor
  · intro h
    cases h with
    | entry hmem h => exact ⟨_, hmem, h⟩
  · rintro ⟨t, hmem, h⟩
    exact .entry hmem h

theorem Leaf.proper (h : t.Leaf) : t.Proper := by
  intro way entries hway
  obtain ⟨-, heq⟩ := (leads_leaf_iff h).1 hway
  exact absurd heq.symm (h entries)

@[simp] theorem proper_file (bytes : List UInt8) : (FileTree.file bytes).Proper :=
  Leaf.proper nofun

@[simp] theorem proper_guarded (reason : String) : (FileTree.guarded reason).Proper :=
  Leaf.proper nofun

@[simp] theorem proper_locked (reason : String) : (FileTree.locked reason).Proper :=
  Leaf.proper nofun

theorem proper_directory_iff : (FileTree.directory entries).Proper ↔
    Named.Distinct entries ∧ (∀ name ∈ Named.names entries, ProperName name) ∧
      ∀ e ∈ entries, e.2.Proper := by
  constructor
  · intro h
    obtain ⟨hd, hnames⟩ := h [] entries .here
    exact ⟨hd, hnames, fun e he way entries hway => h (e.1 :: way) entries (.entry he hway)⟩
  · rintro ⟨hd, hnames, hentries⟩ way inner hway
    cases hway with
    | here => exact ⟨hd, hnames⟩
    | entry he hway => exact hentries _ he _ inner hway

theorem Proper.properNames (h : t.Proper) (hway : t.Leads way u) : ∀ n ∈ way, ProperName n := by
  induction hway with
  | here => exact fun n hn => absurd hn List.not_mem_nil
  | entry hmem _ ih =>
    obtain ⟨-, hnames, hentries⟩ := proper_directory_iff.1 h
    rw [List.forall_mem_cons]
    exact ⟨hnames _ (Named.mem_names_iff.2 ⟨_, hmem⟩), ih (hentries _ hmem)⟩

/-! ## 2. Following a path -/

/-- Where one stands in a tree, and the directories around (innermost first). -/
structure Place where
  around : List FileTree
  tree : FileTree

/-- One directory further out; the root is where it is. -/
def Place.outside (p : Place) : Place :=
  match p.around with
  | [] => p
  | outer :: around => ⟨around, outer⟩

/-- One step of following a path. -/
def Place.step (p : Place) (segment : List Char) : Option Place :=
  match p.tree with
  | .file _ | .guarded _ | .locked _ => none
  | .directory entries =>
    if Path.isIdle segment then some p
    else if segment = ['.', '.'] then some p.outside
    else (entries.lookup (String.ofList segment)).map (⟨p.tree :: p.around, ·⟩)

/-- Following a path is taking its steps one after the other. -/
theorem follow_eq (around : List FileTree) (t : FileTree) (segments : List (List Char)) :
    t.follow around segments = (segments.foldlM Place.step ⟨around, t⟩).map (·.tree) := by
  induction segments generalizing around t with
  | nil => cases t <;> rfl
  | cons s rest ih =>
    rw [List.foldlM_cons]
    cases t with
    | file _ | guarded _ | locked _ => rfl
    | directory entries =>
      rw [Place.step]
      unfold follow
      by_cases hidle : Path.isIdle s
      · simp [hidle, ih]
      by_cases hup : s = ['.', '.']
      · cases around <;> simp [hup, Path.isIdle, Place.outside, ih]
      · cases hlookup : entries.lookup (String.ofList s) with
        | none => simp [hidle, hup, hlookup]
        | some inner => simp [hidle, hup, hlookup, ih]

namespace Place

variable {p q : Place}

/-- The place is in a proper tree. -/
structure Proper (p : Place) : Prop where
  around : ∀ t ∈ p.around, t.Proper
  tree : p.tree.Proper

/-- What a step can do: stay, go out, or enter an entry. -/
theorem step_eq_some_iff {segment : List Char} : p.step segment = some q ↔
    ∃ entries, p.tree = .directory entries ∧ (Path.isIdle segment ∧ q = p ∨
      segment = ['.', '.'] ∧ q = p.outside ∨
      ¬ Path.isIdle segment ∧ segment ≠ ['.', '.'] ∧
        ∃ inner, entries.lookup (String.ofList segment) = some inner ∧
          q = ⟨p.tree :: p.around, inner⟩) := by
  rw [step]
  cases p.tree with
  | file _ | guarded _ | locked _ => simp
  | directory entries =>
    by_cases hidle : Path.isIdle segment
    · have hup : segment ≠ ['.', '.'] := fun heq => absurd (heq ▸ hidle) (by decide)
      simp [hidle, hup, eq_comm]
    by_cases hup : segment = ['.', '.']
    · subst hup
      simp [hidle, eq_comm]
    · simp [hidle, hup, eq_comm]

theorem Proper.outside (hp : p.Proper) : p.outside.Proper := by
  unfold Place.outside
  cases haround : p.around with
  | nil => exact hp
  | cons outer around =>
    have hall := haround ▸ hp.around
    rw [List.forall_mem_cons] at hall
    exact ⟨hall.2, hall.1⟩

theorem Proper.step {segment : List Char} (hp : p.Proper) (h : p.step segment = some q) :
    q.Proper := by
  obtain ⟨entries, htree, hmove⟩ := step_eq_some_iff.1 h
  rcases hmove with ⟨-, rfl⟩ | ⟨-, rfl⟩ | ⟨-, -, inner, hinner, rfl⟩
  · exact hp
  · exact hp.outside
  · have hentries := (proper_directory_iff.1 (htree ▸ hp.tree)).2.2
    exact ⟨List.forall_mem_cons.2 ⟨hp.tree, hp.around⟩,
      hentries _ (Named.mem_of_lookup hinner)⟩

theorem Proper.steps {segments : List (List Char)} (hp : p.Proper)
    (h : segments.foldlM Place.step p = some q) : q.Proper := by
  induction segments generalizing p with
  | nil => exact Option.some.inj h ▸ hp
  | cons s rest ih =>
    rw [List.foldlM_cons] at h
    obtain ⟨p', hstep, hrest⟩ := Option.bind_eq_some_iff.1 h
    exact ih (hp.step hstep) hrest

/-- A slash at the end of a path leads nowhere else. -/
theorem eq_of_step_nil (h : p.step [] = some q) : q = p := by
  obtain ⟨entries, -, hmove⟩ := step_eq_some_iff.1 h
  simpa [Path.isIdle] using hmove

/-- Names lead, step by step, to where they lead in the tree. -/
theorem steps_of_leads {u : FileTree} (hp : p.tree.Proper) (h : p.tree.Leads way u) :
    ∃ around, (way.map String.toList).foldlM Place.step p = some ⟨around, u⟩ := by
  induction way generalizing p with
  | nil => exact ⟨p.around, leads_nil_iff.1 h ▸ rfl⟩
  | cons name rest ih =>
    have hname := hp.properNames h name List.mem_cons_self
    cases hp' : p.tree with
    | file _ | guarded _ | locked _ =>
      rw [hp'] at h
      cases h
    | directory entries =>
      rw [hp'] at h hp
      obtain ⟨t, hmem, hrest⟩ := leads_cons_iff.1 h
      obtain ⟨hd, -, hentries⟩ := proper_directory_iff.1 hp
      have hstep : p.step name.toList = some ⟨p.tree :: p.around, t⟩ := by
        refine step_eq_some_iff.2 ⟨entries, hp', .inr (.inr ⟨?_, hname.toList_ne_up, t, ?_, rfl⟩)⟩
        · simp [hname.isIdle]
        · rwa [String.ofList_toList, Named.lookup_eq_some_iff hd]
      obtain ⟨around, hsteps⟩ := ih (p := ⟨p.tree :: p.around, t⟩) (hentries _ hmem) hrest
      refine ⟨around, ?_⟩
      rw [List.map_cons, List.foldlM_cons, hstep]
      exact hsteps

end Place

end FileTree

namespace FileSystem

open FileTree

variable {files : FileSystem} {p : Path} {u v : FileTree} {way : List String}

theorem find?_eq_some_iff : files.find? p = some u ↔ p.text ≠ "" ∧
    ∃ around, (files.start p ++ Text.split '/' p.text.toList).foldlM Place.step ⟨[], files.root⟩ =
      some ⟨around, u⟩ := by
  unfold find?
  by_cases htext : p.text = ""
  · simp [htext]
  · rw [if_neg htext, follow_eq, Option.map_eq_some_iff]
    constructor
    · rintro ⟨q, hq, rfl⟩
      exact ⟨htext, q.around, hq⟩
    · rintro ⟨-, around, hq⟩
      exact ⟨_, hq, rfl⟩

theorem text_ne_of_find? (h : files.find? p = some u) : p.text ≠ "" :=
  (find?_eq_some_iff.1 h).1

/-- What is joined to a path does not change where it starts. -/
theorem start_join (h : p.text ≠ "") (name : String) :
    files.start (p.join name) = files.start p := by
  obtain ⟨more, hmore⟩ := p.prefix_join name
  obtain ⟨c, rest, hc⟩ := List.exists_cons_of_ne_nil (mt String.toList_eq_nil_iff.1 h)
  unfold start
  rw [← hmore, hc]
  rfl

theorem proper_of_find? (h : files.root.Proper) (hp : files.find? p = some u) : u.Proper := by
  obtain ⟨-, around, hsteps⟩ := find?_eq_some_iff.1 hp
  have hstart : Place.Proper ⟨[], files.root⟩ := ⟨by simp, h⟩
  exact (hstart.steps hsteps).tree

/-- **Behind a path to a directory, names lead where they lead from the directory**, whatever the
spelling of the path. -/
theorem find?_join (h : files.root.Proper) (hp : files.find? p = some u) (hne : way ≠ [])
    (hway : u.Leads way v) : files.find? (p.join ("/".intercalate way)) = some v := by
  have hu := proper_of_find? h hp
  have hproper : ProperWay way := ⟨hne, hu.properNames hway⟩
  obtain ⟨htext, around, hsteps⟩ := find?_eq_some_iff.1 hp
  obtain ⟨segments, hsplit, hjoin⟩ := Path.exists_split_join htext
  have hjoin := hjoin ("/".intercalate way)
  rw [hproper.split] at hjoin
  have hsegments : (files.start p ++ segments).foldlM Place.step ⟨[], files.root⟩ =
      some ⟨around, u⟩ := by
    rcases hsplit with hsplit | hsplit
    · rwa [hsplit] at hsteps
    -- The path ends with a slash, and the step behind it is none.
    · rw [hsplit, ← List.append_assoc, List.foldlM_append] at hsteps
      obtain ⟨q, hq, hlast⟩ := Option.bind_eq_some_iff.1 hsteps
      rw [List.foldlM_cons] at hlast
      obtain ⟨q', hstep, hq'⟩ := Option.bind_eq_some_iff.1 hlast
      rw [hq, ← Option.some.inj hq', Place.eq_of_step_nil hstep]
  obtain ⟨around', hnew⟩ := Place.steps_of_leads (p := ⟨around, u⟩) hu hway
  rw [find?_eq_some_iff]
  refine ⟨?_, around', ?_⟩
  · obtain ⟨more, hmore⟩ := p.prefix_join ("/".intercalate way)
    intro hnil
    rw [hnil] at hmore
    exact htext (String.toList_eq_nil_iff.1 (List.append_eq_nil_iff.1 hmore).1)
  · rw [start_join htext, hjoin, ← List.append_assoc, List.foldlM_append, hsegments]
    exact hnew

/-- Wherever the program is, names behind a slash lead where they lead from the root. -/
theorem find?_rooted (h : files.root.Proper) (hne : way ≠ []) (hway : files.root.Leads way v) :
    files.find? ((⟨"/"⟩ : Path).join ("/".intercalate way)) = some v := by
  have hroot : files.find? ⟨"/"⟩ = some files.root := by
    unfold find? start
    cases htree : files.root with
    | directory entries => rfl
    | file _ | guarded _ | locked _ =>
      rw [htree] at hway
      cases hway with
      | here => exact absurd rfl hne
  exact find?_join h hroot hne hway

end FileSystem

namespace FileTree

variable {t u v : FileTree} {entries : List (String × FileTree)} {name : String}
  {way : List String}

/-! ## 3. Files -/

mutual

/-- The ways to all files in a tree, those included that cannot be read. -/
def ways : FileTree → List (List String)
  | .file _ | .guarded _ => [[]]
  | .directory entries => waysAmong entries
  | .locked _ => []

def waysAmong : List (String × FileTree) → List (List String)
  | [] => []
  | (name, t) :: rest => t.ways.map (name :: ·) ++ waysAmong rest

end

theorem waysAmong_eq (entries : List (String × FileTree)) :
    waysAmong entries = entries.flatMap fun e => e.2.ways.map (e.1 :: ·) := by
  induction entries with
  | nil => rfl
  | cons e rest ih => rw [waysAmong, ih, List.flatMap_cons]

theorem mem_ways_iff : way ∈ t.ways ↔ ∃ f, t.Leads way f ∧ f.isDirectory = false := by
  induction t generalizing way with
  | file _ | guarded _ | locked _ => simp [ways, isDirectory]
  | directory entries ih =>
    rw [ways, waysAmong_eq, List.mem_flatMap]
    constructor
    -- The first name of the way is that of an entry, and the rest leads on from there.
    · rintro ⟨⟨name, t⟩, hmem, hin⟩
      obtain ⟨rest, hrest, rfl⟩ := List.mem_map.1 hin
      obtain ⟨f, hf, hfile⟩ := (ih name t hmem).1 hrest
      exact ⟨f, .entry hmem hf, hfile⟩
    · rintro ⟨f, hf, hfile⟩
      cases hf with
      | here => cases hfile
      | entry hmem hf => exact ⟨_, hmem, List.mem_map_of_mem ((ih _ _ hmem).2 ⟨f, hf, hfile⟩)⟩

theorem nodup_ways (h : t.Proper) : t.ways.Nodup := by
  induction t with
  | file _ | guarded _ | locked _ => simp [ways]
  | directory entries ih =>
    obtain ⟨hd, -, hentries⟩ := proper_directory_iff.1 h
    rw [ways, waysAmong_eq, List.nodup_flatMap]
    constructor
    · intro e he
      exact (ih e.1 e.2 he (hentries e he)).map fun _ _ heq => (List.cons.inj heq).2
    · -- Ways through different entries begin with different names.
      refine (List.pairwise_map.1 hd).imp fun {e e'} hne way hway hway' => ?_
      obtain ⟨rest, -, rfl⟩ := List.mem_map.1 hway
      obtain ⟨rest', -, heq⟩ := List.mem_map.1 hway'
      exact hne (List.cons.inj heq).1.symm

theorem documentsAmong_eq (p : Path) (entries : List (String × FileTree)) :
    documentsAmong p entries = entries.flatMap fun e => e.2.documents (p.join e.1) := by
  induction entries with
  | nil => rfl
  | cons e rest ih => rw [documentsAmong, ih, List.flatMap_cons]

theorem documents_eq (p : Path) (t : FileTree) :
    t.documents p = (t.ways.map (·.foldl Path.join p)).filter Path.isDocument := by
  induction t generalizing p with
  | file _ | guarded _ | locked _ => simp [ways, documents, List.filter_cons]
  | directory entries ih =>
    rw [documents, documentsAmong_eq, ways, waysAmong_eq, List.map_flatMap, List.filter_flatMap]
    refine List.flatMap_congr fun e he => ?_
    -- Joining the rest of a way to an entry is joining the whole way to the directory.
    rw [ih e.1 e.2 he, List.map_map]
    rfl

/-! ## 4. Entries in another order -/

/-- The trees are the same up to the order of the entries of all directories in them. -/
inductive Reordered : FileTree → FileTree → Prop
  | leaf {t : FileTree} : t.Leaf → Reordered t t
  | directory {es fs gs : List (String × FileTree)} : Named.names es = Named.names fs →
      List.Forall₂ Reordered (es.map (·.2)) (fs.map (·.2)) → fs.Perm gs →
      Reordered (.directory es) (.directory gs)

/-- The entries have one name and trees that are reordered. -/
def EntryReordered (e f : String × FileTree) : Prop := e.1 = f.1 ∧ e.2.Reordered f.2

theorem reordered_directory_iff : (FileTree.directory entries).Reordered u ↔
    ∃ gs, u = .directory gs ∧ ReorderedBy EntryReordered entries gs := by
  constructor
  · intro h
    cases h with
    | leaf h => exact absurd rfl (h entries)
    | directory hnames htrees hperm =>
      exact ⟨_, rfl, _, forall₂_named_iff.2 ⟨hnames, htrees⟩, hperm⟩
  · rintro ⟨gs, rfl, fs, hfs, hperm⟩
    obtain ⟨hnames, htrees⟩ := forall₂_named_iff.1 hfs
    exact .directory hnames htrees hperm

theorem reordered_directories_iff {gs : List (String × FileTree)} :
    (FileTree.directory entries).Reordered (.directory gs) ↔
      ReorderedBy EntryReordered entries gs := by
  simp [reordered_directory_iff]

/-- Entries whose trees are reordered may stay in their places. -/
theorem reordered_of_forall₂ {gs : List (String × FileTree)}
    (h : List.Forall₂ EntryReordered entries gs) :
    (FileTree.directory entries).Reordered (.directory gs) :=
  reordered_directories_iff.2 ⟨gs, h, .refl gs⟩

theorem Reordered.refl (t : FileTree) : t.Reordered t := by
  induction t with
  | file _ | guarded _ | locked _ => exact .leaf nofun
  | directory entries ih =>
    exact reordered_of_forall₂ (List.forall₂_same.2 fun e he => ⟨rfl, ih e.1 e.2 he⟩)

/-- Entries that are put in another order are reordered. -/
theorem reordered_of_perm {gs : List (String × FileTree)} (h : entries.Perm gs) :
    (FileTree.directory entries).Reordered (.directory gs) :=
  reordered_directories_iff.2 ⟨entries, List.forall₂_same.2 fun e _ => ⟨rfl, .refl e.2⟩, h⟩

theorem Reordered.symm (h : t.Reordered u) : u.Reordered t := by
  induction t generalizing u with
  | file _ | guarded _ | locked _ =>
    cases h with
    | leaf h => exact .leaf h
  | directory entries ih =>
    obtain ⟨gs, rfl, hes⟩ := reordered_directory_iff.1 h
    exact reordered_directories_iff.2
      (hes.symm fun e he _ hef => ⟨hef.1.symm, ih e.1 e.2 he hef.2⟩)

theorem Reordered.isDirectory_eq (h : t.Reordered u) : t.isDirectory = u.isDirectory := by
  cases h with
  | leaf _ | directory _ _ _ => rfl

/-- A way leads to the same place, up to the order of entries. -/
theorem Reordered.leads (h : t.Reordered u) (hway : u.Leads way v) :
    ∃ w, t.Leads way w ∧ w.Reordered v := by
  induction hway generalizing t with
  | here => exact ⟨t, .here, h⟩
  | entry hmem _ ih =>
    obtain ⟨es, rfl, -⟩ := reordered_directory_iff.1 h.symm
    obtain ⟨⟨_, t⟩, he, rfl, htu⟩ := (reordered_directories_iff.1 h).exists_left hmem
    obtain ⟨w, hw, hwv⟩ := ih htu
    exact ⟨w, .entry he hw, hwv⟩

theorem Reordered.leads_file_iff {f : FileTree} (h : t.Reordered u) (hf : f.isDirectory = false) :
    t.Leads way f ↔ u.Leads way f := by
  have hleaf := leaf_of_not_isDirectory hf
  constructor
  · intro hway
    obtain ⟨w, hw, hwf⟩ := h.symm.leads hway
    cases hwf with
    | leaf _ => exact hw
    | directory _ _ _ => exact absurd rfl (hleaf _)
  · intro hway
    obtain ⟨w, hw, hwf⟩ := h.leads hway
    cases hwf with
    | leaf _ => exact hw
    | directory _ _ _ => exact absurd rfl (hleaf _)

theorem Reordered.proper (h : t.Reordered u) (ht : t.Proper) : u.Proper := by
  intro way entries hway
  obtain ⟨w, hw, hwv⟩ := h.leads hway
  obtain ⟨es, rfl, -⟩ := reordered_directory_iff.1 hwv.symm
  have hnames : (Named.names es).Perm (Named.names entries) :=
    (reordered_directories_iff.1 hwv).map_perm fun _ _ hef => hef.1
  obtain ⟨hd, hproper⟩ := ht way es hw
  exact ⟨hnames.nodup_iff.1 hd, fun name hname => hproper name (hnames.mem_iff.2 hname)⟩

namespace Place

variable {p q p' : Place}

/-- The places are the same up to the order of entries. -/
structure Reordered (p q : Place) : Prop where
  around : List.Forall₂ FileTree.Reordered p.around q.around
  tree : p.tree.Reordered q.tree

theorem Reordered.outside (h : p.Reordered q) : p.outside.Reordered q.outside := by
  obtain ⟨around, t⟩ := p
  obtain ⟨around', t'⟩ := q
  obtain ⟨haround, htree⟩ := h
  cases haround with
  | nil => exact ⟨.nil, htree⟩
  | cons houter haround => exact ⟨haround, houter⟩

/-- One step leads to the same place, up to the order of entries. -/
theorem Reordered.step {segment : List Char} (h : p.Reordered q) (hp : p.Proper)
    (hstep : p.step segment = some p') : ∃ q', q.step segment = some q' ∧ p'.Reordered q' := by
  obtain ⟨entries, htree, hmove⟩ := step_eq_some_iff.1 hstep
  obtain ⟨gs, hgs, hes⟩ := reordered_directory_iff.1 (htree ▸ h.tree)
  rcases hmove with ⟨hidle, rfl⟩ | ⟨hup, rfl⟩ | ⟨hidle, hup, inner, hinner, rfl⟩
  · exact ⟨q, step_eq_some_iff.2 ⟨gs, hgs, .inl ⟨hidle, rfl⟩⟩, h⟩
  · exact ⟨q.outside, step_eq_some_iff.2 ⟨gs, hgs, .inr (.inl ⟨hup, rfl⟩)⟩, h.outside⟩
  · -- The entry has a partner, and that is the only one of its name.
    have hback := hes.symm (S := fun f e => EntryReordered e f) fun _ _ _ hef => hef
    obtain ⟨⟨_, inner'⟩, hmem, rfl, hinner'⟩ := hback.exists_left (Named.mem_of_lookup hinner)
    have hq : (FileTree.directory gs).Proper := (hgs ▸ h.tree).proper hp.tree
    have hlookup := (Named.lookup_eq_some_iff (proper_directory_iff.1 hq).1).2 hmem
    exact ⟨⟨q.tree :: q.around, inner'⟩,
      step_eq_some_iff.2 ⟨gs, hgs, .inr (.inr ⟨hidle, hup, inner', hlookup, rfl⟩)⟩,
      .cons h.tree h.around, hinner'⟩

theorem Reordered.steps {segments : List (List Char)} (h : p.Reordered q) (hp : p.Proper)
    (hsteps : segments.foldlM Place.step p = some p') :
    ∃ q', segments.foldlM Place.step q = some q' ∧ p'.Reordered q' := by
  induction segments generalizing p q with
  | nil => exact ⟨q, rfl, Option.some.inj hsteps ▸ h⟩
  | cons s rest ih =>
    rw [List.foldlM_cons] at hsteps
    obtain ⟨p₁, hstep, hrest⟩ := Option.bind_eq_some_iff.1 hsteps
    obtain ⟨q₁, hq₁, h₁⟩ := h.step hp hstep
    obtain ⟨q', hq', h'⟩ := ih h₁ (hp.step hstep) hrest
    refine ⟨q', ?_, h'⟩
    rw [List.foldlM_cons, hq₁]
    exact hq'

end Place

end FileTree

namespace FileSystem

open FileTree

/-- The file systems are the same up to the order of the entries of all directories. -/
structure Reordered (files files' : FileSystem) : Prop where
  root : files.root.Reordered files'.root
  here : files.here = files'.here

theorem Reordered.find? {files files' : FileSystem} {p : Path} {u : FileTree}
    (h : files.Reordered files') (hproper : files.root.Proper) (hp : files.find? p = some u) :
    ∃ w, files'.find? p = some w ∧ u.Reordered w := by
  obtain ⟨htext, around, hsteps⟩ := find?_eq_some_iff.1 hp
  have hplace : Place.Reordered ⟨[], files.root⟩ ⟨[], files'.root⟩ := ⟨.nil, h.root⟩
  obtain ⟨q, hq, hu⟩ := hplace.steps ⟨by simp, hproper⟩ hsteps
  have hstart : files.start p = files'.start p := by
    unfold start
    rw [h.here]
  rw [hstart] at hq
  exact ⟨q.tree, find?_eq_some_iff.2 ⟨htext, q.around, hq⟩, hu.tree⟩

end FileSystem
end CallContract
