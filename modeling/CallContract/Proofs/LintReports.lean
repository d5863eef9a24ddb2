import CallContract.Proofs.LintedFiles
import CallContract.Proofs.TreeEntries
import Mathlib.Data.String.Basic

/-!
# Reports on directories

Linting a directory tells of each document in it, at any depth, exactly once.  The ways to the
documents are found in the order of enumeration and then sorted; since sorted ways without
repetition are determined by what is among them, nothing of that order is left.  The counts of a
report are those of its parts, whichever of them is counted first.
-/

namespace CallContract

/-! ## 1. Documents of a directory -/

namespace FileTree

/-- The way leads to this file, and its name has the extension of documents. -/
def DocumentAt (t : FileTree) (way : List String) (f : FileTree) : Prop :=
  t.Leads way f ∧ f.isDirectory = false ∧ ∃ name ∈ way.getLast?, Path.HasExtension "json" name

/-- The ways to all documents in a tree, in the order in which entries are enumerated. -/
def documentWays (t : FileTree) : List (List String) :=
  t.ways.filter fun way => ∃ name ∈ way.getLast?, Path.HasExtension "json" name

variable {dir f : FileTree} {target : Path} {way : List String}

theorem mem_documentWays_iff : way ∈ dir.documentWays ↔ ∃ f, dir.DocumentAt way f := by
  rw [documentWays, List.mem_filter, mem_ways_iff, decide_eq_true_iff]
  simp only [DocumentAt, ← and_assoc, exists_and_right]

/-- It takes a name to get from a directory to a file. -/
theorem ne_nil_of_leads (hdir : dir.isDirectory) (hf : f.isDirectory = false)
    (h : dir.Leads way f) : way ≠ [] := by
  rintro rfl
  rw [leads_nil_iff.1 h, hdir] at hf
  cases hf

theorem DocumentAt.properWay (h : dir.DocumentAt way f) (hproper : dir.Proper)
    (hdir : dir.isDirectory) : ProperWay way :=
  ⟨ne_nil_of_leads hdir h.2.1 h.1, hproper.properNames h.1⟩

theorem Proper.properWay (h : dir.Proper) (hdir : dir.isDirectory) (hway : way ∈ dir.ways) :
    ProperWay way := by
  obtain ⟨f, hleads, hf⟩ := mem_ways_iff.1 hway
  exact ⟨ne_nil_of_leads hdir hf hleads, h.properNames hleads⟩

theorem isDocument_join_iff (htarget : target.text ≠ "") (hway : ProperWay way) :
    (target.join ("/".intercalate way)).isDocument ↔
      ∃ name ∈ way.getLast?, Path.HasExtension "json" name := by
  obtain ⟨name, hname⟩ :=
    Option.ne_none_iff_exists'.1 (mt List.getLast?_eq_none_iff.1 hway.ne_nil)
  have hlast : (target.join ("/".intercalate way)).components.getLast? = some (.name name) := by
    rw [Path.components_join htarget hway, List.getLast?_append, List.getLast?_map, hname]
    rfl
  rw [Path.isDocument_iff hlast, hname]
  simp

/-- The documents of a directory are behind its path. -/
theorem documents_eq_map (htarget : target.text ≠ "") (hproper : dir.Proper)
    (hdir : dir.isDirectory) :
    dir.documents target = dir.documentWays.map fun way => target.join ("/".intercalate way) := by
  have hjoin : dir.ways.map (·.foldl Path.join target) =
      dir.ways.map fun way => target.join ("/".intercalate way) :=
    List.map_congr_left fun way hway => Path.foldl_join (hproper.properWay hdir hway)
  rw [documents_eq, hjoin, List.filter_map, documentWays]
  -- Whether a path is a document is seen from the last name on the way.
  refine congrArg (List.map _) (List.filter_congr fun way hway => ?_)
  rw [Bool.eq_iff_iff, decide_eq_true_iff]
  exact isDocument_join_iff htarget (hproper.properWay hdir hway)

/-- The ways to all documents in a tree, in the order of their names. -/
def sortedWays (t : FileTree) : List (List String) :=
  t.documentWays.mergeSort fun way way' => ¬ way' < way

theorem mem_sortedWays_iff : way ∈ dir.sortedWays ↔ ∃ f, dir.DocumentAt way f := by
  rw [sortedWays, List.mem_mergeSort, mem_documentWays_iff]

/-- No way is listed twice, so that sorted ways increase. -/
theorem pairwise_sortedWays (h : dir.Proper) : dir.sortedWays.Pairwise (· < ·) := by
  have htrans (a b c : List String) (hab : decide (¬ b < a)) (hbc : decide (¬ c < b)) :
      decide (¬ c < a) := by
    simp only [decide_eq_true_eq, not_lt] at hab hbc ⊢
    exact hab.trans hbc
  have htotal (a b : List String) : decide (¬ b < a) || decide (¬ a < b) := by
    simpa using le_total a b
  have hle := List.pairwise_mergeSort htrans htotal dir.documentWays
  have hne : dir.sortedWays.Nodup :=
    (List.mergeSort_perm dir.documentWays _).nodup_iff.2 ((nodup_ways h).filter _)
  exact hle.imp₂ (fun _ _ hle hne => lt_of_le_of_ne (not_lt.1 (of_decide_eq_true hle)) hne) hne

/-- The same documents are in both trees. -/
theorem Reordered.documentAt_iff {u : FileTree} (h : dir.Reordered u) :
    dir.DocumentAt way f ↔ u.DocumentAt way f := by
  unfold DocumentAt
  constructor
  · rintro ⟨hway, hf, hname⟩
    exact ⟨(h.leads_file_iff hf).1 hway, hf, hname⟩
  · rintro ⟨hway, hf, hname⟩
    exact ⟨(h.leads_file_iff hf).2 hway, hf, hname⟩

/-- The order of entries does not count: both lists are sorted, and the same ways are in them. -/
theorem Reordered.sortedWays_eq {u : FileTree} (h : dir.Reordered u) (hdir : dir.Proper) :
    u.sortedWays = dir.sortedWays := by
  refine (pairwise_sortedWays (h.proper hdir)).eq_of_mem_iff (pairwise_sortedWays hdir)
    fun way => ?_
  simp only [mem_sortedWays_iff, h.documentAt_iff]

end FileTree

/-- The documents of a directory are linted in the order of the names on the way. -/
theorem FileSystem.lintable_eq_map {files : FileSystem} {target : Path} {dir : FileTree}
    (hfiles : files.root.Proper) (htarget : files.find? target = some dir)
    (hdir : dir.isDirectory) :
    files.lintable target = dir.sortedWays.map fun way => target.join ("/".intercalate way) := by
  have htext := text_ne_of_find? htarget
  have hproper := proper_of_find? hfiles htarget
  rw [lintable, htarget]
  show (if dir.isDirectory then (dir.documents target).mergeSort Path.le else _) = _
  rw [if_pos hdir, FileTree.documents_eq_map htext hproper hdir, FileTree.sortedWays,
    List.map_mergeSort]
  -- Sorting the paths is sorting the ways, as they are in the same order.
  intro way hway way' hway'
  have hway := hproper.properWay hdir (List.mem_of_mem_filter hway)
  have hway' := hproper.properWay hdir (List.mem_of_mem_filter hway')
  exact (Path.le_join htext hway hway').symm

/-! ## 2. Counts -/

namespace LintReport

/-- The counts of the report are those of the files and diagnostics in it. -/
structure Balanced (r : LintReport) : Prop where
  checked : r.checked = r.files.length
  parted : r.checked = r.passed + r.failed
  failed : r.failed = r.files.countP (·.status = .error)
  errors : r.errors = (r.files.map fun f => f.diagnostics.countP (·.severity = .error)).sum
  warnings : r.warnings = (r.files.map fun f => f.diagnostics.countP (·.severity = .warning)).sum
  isOk : r.isOk ↔ r.failed = 0

theorem balanced_ofFiles {path : Path} {files : List FileReport}
    (h : ∀ f ∈ files, f.status = .ofDiagnostics f.diagnostics) : (ofFiles path files).Balanced where
  checked := rfl
  parted := (Nat.sub_add_cancel List.countP_le_length).symm
  failed := rfl
  errors := List.countP_flatMap
  warnings := List.countP_flatMap
  isOk := by
    -- A file fails exactly if one of its diagnostics is an error.
    show decide ((files.flatMap (·.diagnostics)).countP (·.severity = .error) = 0) = true ↔
      files.countP (·.status = .error) = 0
    rw [decide_eq_true_iff, List.countP_eq_zero, List.countP_eq_zero, List.forall_mem_flatMap]
    refine forall₂_congr fun f hf => ?_
    rw [decide_eq_true_iff, h f hf, FileStatus.ofDiagnostics_eq_error_iff]
    simp

end LintReport

/-! ## 3. Reports -/

theorem Diagnostic.file_of_mem_ofLoad {file : Path}
    {outcome : Except (LoadError FileError) Contract} {d : Diagnostic}
    (h : d ∈ ofLoad file outcome) : d.file = file := by
  have hfindings {severity : Severity} {fs : List Finding}
      (h : d ∈ fs.map (ofFinding severity file)) : d.file = file := by
    obtain ⟨f, -, rfl⟩ := List.mem_map.1 h
    rfl
  match outcome with
  | .ok c => exact hfindings h
  | .error (.rejected r) => exact (List.mem_append.1 h).elim hfindings hfindings
  | .error (.unread e) =>
    by_cases hmalformed : ∀ f fs, e ≠ .unread (.malformed f fs)
    · obtain ⟨d', hd', -, -, hfile⟩ := exists_ofFileError file hmalformed
      rw [ofLoad, hd', List.mem_singleton] at h
      rw [h, hfile]
    · simp only [not_forall, not_not] at hmalformed
      obtain ⟨f, fs, rfl⟩ := hmalformed
      have hall : d ∈ (f :: fs).map (ofFinding .error file) := h
      exact hfindings hall

/-- The report tells of the document to which the way leads from the target: its file, joined to the
target, is a path to the document, and all it says is about that path. -/
structure FileReport.At (files : FileSystem) (target : Path) (s : Strictness) (way : List String)
    (r : FileReport) : Prop where
  file : r.file = ⟨"/".intercalate way⟩
  components : r.file.components = way.map .name
  lints : r = FileReport.lint files (target.join r.file.text) target s
  places : ∀ d ∈ r.diagnostics, d.file = target.join r.file.text
  found : ∃ dir f, files.find? target = some dir ∧ dir.DocumentAt way f ∧
    files.find? (target.join r.file.text) = some f

namespace LintReport

variable {files : FileSystem} {target : Path} {dir f : FileTree} {way : List String}

/-- A document is behind the path of its directory. -/
theorem find?_document (hfiles : files.root.Proper) (htarget : files.find? target = some dir)
    (hdir : dir.isDirectory) (hway : dir.DocumentAt way f) :
    files.find? (target.join ("/".intercalate way)) = some f :=
  FileSystem.find?_join hfiles htarget (FileTree.ne_nil_of_leads hdir hway.2.1 hway.1) hway.1

theorem at_lint (hfiles : files.root.Proper) (htarget : files.find? target = some dir)
    (hdir : dir.isDirectory) (s : Strictness) (hway : dir.DocumentAt way f) :
    FileReport.At files target s way
      (FileReport.lint files (target.join ("/".intercalate way)) target s) := by
  have htext := FileSystem.text_ne_of_find? htarget
  have hproper := hway.properWay (FileSystem.proper_of_find? hfiles htarget) hdir
  have hfile : (FileReport.lint files (target.join ("/".intercalate way)) target s).file =
      ⟨"/".intercalate way⟩ := by
    show ((target.join ("/".intercalate way)).relativeTo? target).getD _ = _
    rw [Path.relativeTo?_join htext hproper]
    rfl
  refine ⟨hfile, ?_, ?_, ?_, dir, f, htarget, hway, ?_⟩
  · rw [hfile, Path.components_way hproper]
  · rw [hfile]
  · rw [hfile]
    exact fun d hd => Diagnostic.file_of_mem_ofLoad hd
  · rw [hfile]
    exact find?_document hfiles htarget hdir hway

theorem files_lint (hfiles : files.root.Proper) (htarget : files.find? target = some dir)
    (hdir : dir.isDirectory) (s : Strictness) :
    (lint files target s).files = dir.sortedWays.map
      fun way => FileReport.lint files (target.join ("/".intercalate way)) target s := by
  rw [lint, FileSystem.lintable_eq_map hfiles htarget hdir, List.map_map]
  rfl

theorem balanced_lint (files : FileSystem) (target : Path) (s : Strictness) :
    (lint files target s).Balanced := by
  refine balanced_ofFiles fun r hr => ?_
  obtain ⟨file, -, rfl⟩ := List.mem_map.1 hr
  rfl

/-- A report does not depend on the order in which entries are enumerated. -/
theorem lint_reordered {files' : FileSystem} (h : files.Reordered files')
    (hfiles : files.root.Proper) (htarget : files.find? target = some dir)
    (hdir : dir.isDirectory) (s : Strictness) : lint files' target s = lint files target s := by
  obtain ⟨dir', htarget', horder⟩ := h.find? hfiles htarget
  have hfiles' := h.root.proper hfiles
  have hdir' : dir'.isDirectory := horder.isDirectory_eq ▸ hdir
  have hreports : (lint files' target s).files = (lint files target s).files := by
    rw [files_lint hfiles' htarget' hdir', files_lint hfiles htarget hdir,
      horder.sortedWays_eq (FileSystem.proper_of_find? hfiles htarget)]
    refine List.map_congr_left fun way hway => ?_
    -- The way leads to the same file in both.
    obtain ⟨f, hf⟩ := FileTree.mem_sortedWays_iff.1 hway
    have hfound := find?_document hfiles htarget hdir hf
    have hfound' := find?_document hfiles' htarget' hdir' (horder.documentAt_iff.1 hf)
    rw [FileReport.lint, FileReport.lint, Contract.load, Contract.load, Document.load,
      Document.load, hfound, hfound']
  exact congrArg (ofFiles target) hreports

/-- **The report on a directory tells of every document in it, at any depth, exactly once**, and of
nothing else, in the order of the names on the way, whichever path leads to the directory.  Each
result leads back to its document, the counts are right, and nothing depends on the order in which
entries are enumerated. -/
theorem lint_directory (files : FileSystem) (hfiles : files.root.Proper) (target : Path)
    (dir : FileTree) (htarget : files.find? target = some dir) (hdir : dir.isDirectory)
    (s : Strictness) :
    (∃ ways : List (List String), ways.Pairwise (· < ·) ∧
      (∀ way, way ∈ ways ↔ ∃ f, dir.DocumentAt way f) ∧
      List.Forall₂ (FileReport.At files target s) ways (lint files target s).files) ∧
    (lint files target s).Balanced ∧
    ∀ files' : FileSystem, files.Reordered files' →
      lint files' target s = lint files target s := by
  refine ⟨⟨dir.sortedWays, ?_, ?_, ?_⟩, balanced_lint files target s,
    fun files' hreordered => lint_reordered hreordered hfiles htarget hdir s⟩
  · exact FileTree.pairwise_sortedWays (FileSystem.proper_of_find? hfiles htarget)
  · exact fun way => FileTree.mem_sortedWays_iff
  · rw [files_lint hfiles htarget hdir, List.forall₂_map_right_iff, List.forall₂_same]
    intro way hway
    obtain ⟨f, hf⟩ := FileTree.mem_sortedWays_iff.1 hway
    exact at_lint hfiles htarget hdir s hf

/-- Documents in nested directories, one of which has the name of a document, other files, and what
is out of reach: a document and a directory. -/
def specs : List (String × FileTree) := [
  ("notes.txt", .file []), (".json", .file []), ("a-b.json", .file [255]),
  ("a", .directory [("b.json", .file [])]),
  ("key.json", .guarded "Permission denied (os error 13)"),
  ("vault.json", .locked "Permission denied (os error 13)"),
  ("old.json", .directory [("v1.json", .file []), ("v1.json.bak", .file [])])]

def archive : FileSystem where
  root := .directory [("work", .directory [("specs", .directory specs), ("top.json", .file [])])]
  here := ["work"]

/-- The same files with other orders of entries. -/
def shuffled : FileSystem where
  root := .directory [
    ("work", .directory [("top.json", .file []), ("specs", .directory specs.reverse)])]
  here := ["work"]

theorem archive_proper : archive.root.Proper := by
  have hnames : ∀ name ∈ ["work", "specs", "top.json", "notes.txt", ".json", "a-b.json", "a",
      "b.json", "key.json", "vault.json", "old.json", "v1.json", "v1.json.bak"],
      ProperName name := by decide +kernel
  simp only [List.forall_mem_cons] at hnames
  simp [archive, specs, FileTree.proper_directory_iff, Named.Distinct, hnames]

theorem archive_reordered : archive.Reordered shuffled := by
  have hspecs : (FileTree.directory specs).Reordered (.directory specs.reverse) :=
    FileTree.reordered_of_perm specs.reverse_perm.symm
  have hwork : (FileTree.directory [("specs", .directory specs), ("top.json", .file [])]).Reordered
      (.directory [("top.json", .file []), ("specs", .directory specs.reverse)]) := by
    refine FileTree.reordered_directories_iff.2
      ⟨[("specs", .directory specs.reverse), ("top.json", .file [])], ?_, .swap _ _ _⟩
    exact .cons ⟨rfl, hspecs⟩ (.cons ⟨rfl, .refl _⟩ .nil)
  exact ⟨FileTree.reordered_of_forall₂ (.cons ⟨rfl, hwork⟩ .nil), rfl⟩

theorem lint_directory_archive : archive.root.Proper ∧ archive.Reordered shuffled ∧
    (FileTree.directory specs).isDirectory ∧
    ∀ target ∈ [⟨"./specs//"⟩, ⟨"../../work/specs"⟩, (⟨"/work/./specs/a/.."⟩ : Path)],
      archive.find? target = some (.directory specs) ∧
      (lint archive target .standard).files.map (·.file.text) =
        ["a/b.json", "a-b.json", "key.json", "old.json/v1.json"] ∧
      (lint archive target .standard).checked = 4 ∧
      lint shuffled target .standard = lint archive target .standard := by
  refine ⟨archive_proper, archive_reordered, rfl, fun target hmem => ?_⟩
  have htarget : archive.find? target = some (.directory specs) := by
    simp only [List.mem_cons, List.not_mem_nil, or_false] at hmem
    rcases hmem with rfl | rfl | rfl <;> rfl
  obtain ⟨⟨ways, hsorted, hways, hfiles⟩, hcounts, horder⟩ :=
    lint_directory archive archive_proper target (.directory specs) htarget rfl .standard
  have hall : ways = [["a", "b.json"], ["a-b.json"], ["key.json"], ["old.json", "v1.json"]] := by
    refine hsorted.eq_of_mem_iff (by decide +kernel) fun way => ?_
    have hlisted : (FileTree.directory specs).documentWays =
        [["a-b.json"], ["a", "b.json"], ["key.json"], ["old.json", "v1.json"]] := by
      decide +kernel
    rw [hways, ← FileTree.mem_documentWays_iff, hlisted]
    simp only [List.mem_cons]
    tauto
  have hnames : (lint archive target .standard).files.map (·.file.text) =
      ways.map ("/".intercalate ·) :=
    (map_eq_of_forall₂ hfiles fun way r hr => by rw [hr.file]).symm
  refine ⟨htarget, ?_, ?_, horder shuffled archive_reordered⟩
  · rw [hnames, hall]
    rfl
  · rw [hcounts.checked, ← hfiles.length_eq, hall]
    rfl

end LintReport
end CallContract
