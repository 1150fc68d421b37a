import StyleLift.Proofs.Disk.Walk
import StyleLift.Proofs.Extraction.Untouched
import StyleLift.Proofs.Path.Below

/-!
# What a scan returns

A scan walks the tree below its root and keeps the files that are selected by their names.  The
names of all variables depend on the order of these files, so it matters that there is only one: the
result is in the order of the components of the paths, which is not the order of their texts, and two
disks with the same files below the root give the same result.

A backslash is no separator of paths, but globs are asked as if it were one.  So a file whose name
holds a backslash is found by the pattern for a file in a folder, and not by the pattern for its
name.

* `Glob.fits`, `Glob.anyAccepts_of_compileSet`: one glob, and a set of them.
* `Disk.TreeAt`, `Disk.IsWalkable`: a tree with a root to scan from, and that it can be walked.
* `Disk.TreeAt.filePaths_eq_ok_iff`: when the files are found.
* `Disk.TreeAt.scan_eq`: a scan selects by the names behind the root.
* `scan_complete`: the result, and `backslash_not_scanned`: a name that its pattern does not find.
-/

namespace StyleLift

/-! ## Globs -/

namespace Glob

/-- Whether a text can be read as a glob that matches a path. -/
def fits (path source : Text) : Bool := (compile source).toOption.any fun glob => glob.accepts path

theorem exists_of_isOk {sources : List Text} (h : (compileSet sources).isOk = true) :
    ∃ globs, compileSet sources = .ok globs := by
  cases hset : compileSet sources with
  | error refusal => simp [hset, Except.isOk, Except.toBool] at h
  | ok globs => exact ⟨globs, rfl⟩

theorem anyAccepts_of_compileAll {sources : List Text} {globs : List Glob}
    (h : compileAll sources = .ok globs) (path : Text) :
    anyAccepts globs path = sources.any (fits path) := by
  induction sources generalizing globs with
  | nil =>
    obtain rfl := Except.ok.inj h
    rfl
  | cons source sources ih =>
    obtain ⟨glob, hglob, h⟩ := Disk.exists_of_bind_eq_ok h
    obtain ⟨others, hothers, h⟩ := Disk.exists_of_bind_eq_ok h
    obtain rfl := Except.ok.inj h
    have hfits : fits path source = glob.accepts path := by
      rw [fits, hglob]
      rfl
    rw [List.any_cons, ← ih hothers, hfits]
    rfl

/-- **A set of globs matches what one of them matches.** -/
theorem anyAccepts_of_compileSet {sources : List Text} {globs : List Glob}
    (h : compileSet sources = .ok globs) (path : Text) :
    anyAccepts globs path = sources.any (fits path) := by
  obtain ⟨all, hall, h⟩ := Disk.exists_of_bind_eq_ok h
  split at h
  · cases h
  · obtain rfl := Except.ok.inj h
    exact anyAccepts_of_compileAll (Disk.eq_ok_of_mapError hall) path

end Glob

/-! ## Finding the files -/

namespace Disk

/-- A file system, and a path in it from which it can be scanned. -/
structure TreeAt (disk : Disk) (root : Path) (base : Location) : Prop extends
    disk.IsRootedTree where
  locate_root : disk.locate root = .ok base
  isSome_base : (disk.node? base).isSome = true

/-- Every directory at or below a root is found by its path.  It is not if the path is too long. -/
def IsWalkable (disk : Disk) (root : Path) (base : Location) : Prop :=
  ∀ names, disk.node? (base ++ names) = some .directory → disk.pathExists (root.below names) = true

theorem forM_eq_ok_iff {ε α : Type} {f : α → Except ε Unit} {l : List α} {u : Unit} :
    l.forM f = .ok u ↔ ∀ a ∈ l, f a = .ok () := by
  induction l with
  | nil => simp [List.forM, pure, Except.pure]
  | cons a l ih =>
    rw [List.forall_mem_cons, ← ih, List.forM]
    cases f a with
    | error fault => simp [bind, Except.bind]
    | ok u => simp [bind, Except.bind]

theorem visit_eq_ok_iff {disk : Disk} {p : Path} :
    (do let _ ← disk.stat p : Except IoFault Unit) = .ok () ↔ disk.pathExists p = true := by
  rw [pathExists]
  cases disk.stat p <;> simp [bind, Except.bind, pure, Except.pure, Except.toOption]

namespace TreeAt

variable {disk : Disk} {root : Path} {base : Location}

/-- The directories of the table are those that a walk has to open, but for the root of the disk. -/
theorem isWalkable_iff (h : disk.TreeAt root base) :
    disk.IsWalkable root base ↔
      ∀ names ∈ disk.directoriesBelow base, disk.pathExists (root.below names) = true := by
  constructor
  · intro hwalk names hnames
    exact hwalk names (h.mem_nodes_iff.1 (mem_directoriesBelow_iff.1 hnames)).2
  · intro hall names hnode
    by_cases hplace : base ++ names = []
    · obtain ⟨-, rfl⟩ := List.append_eq_nil_iff.1 hplace
      obtain ⟨node, hbase⟩ := Option.isSome_iff_exists.1 h.isSome_base
      exact pathExists_iff.2 ⟨base, node, h.locate_root, hbase⟩
    · exact hall names (mem_directoriesBelow_iff.2 (h.mem_nodes_iff.2 ⟨hplace, hnode⟩))

/-- **The files are found just if all directories are.** -/
theorem filePaths_eq_ok_iff (h : disk.TreeAt root base) {paths : List Path} :
    disk.filePaths root = .ok paths ↔
      disk.IsWalkable root base ∧ paths = (disk.filesBelow base).map root.below := by
  obtain ⟨node, hbase⟩ := Option.isSome_iff_exists.1 h.isSome_base
  have hvisits : disk.filePaths root = (do
      (disk.directoriesBelow base).forM fun names => do
        let _ ← disk.stat (root.below names)
      .ok ((disk.filesBelow base).map root.below)) := by
    rw [filePaths, stat_of_node? h.locate_root hbase, h.locate_root]
    rfl
  rw [hvisits, h.isWalkable_iff]
  simp only [← visit_eq_ok_iff, ← forM_eq_ok_iff (u := ())]
  constructor
  · intro hpaths
    obtain ⟨u, hall, hpaths⟩ := exists_of_bind_eq_ok hpaths
    exact ⟨hall, (Except.ok.inj hpaths).symm⟩
  · rintro ⟨hall, rfl⟩
    rw [hall]
    rfl

end TreeAt

end Disk

/-! ## Selecting among them -/

/-- What globs are asked about: the names with separators between them, and a separator for every
backslash. -/
def Glob.subject (names : Location) : Text := Text.exchange '\\' '/' (Text.joined ['/'] names)

/-- Whether a scan returns a file, by the names that lead to it from the root. -/
def selects (root : Path) (pattern : Text) (ignores : List Text) (isExcluded : Path → Bool)
    (names : Location) : Bool :=
  !isExcluded (root.below names) && !ignores.any (Glob.fits (Glob.subject names)) &&
    Glob.fits (Glob.subject names) pattern

variable {disk : Disk} {root : Path} {base : Location} {pattern : Text} {ignores : List Text}
  {wanted unwanted : List Glob}

/-- **A scan selects by the names behind the root.** -/
theorem Disk.TreeAt.scan_eq (h : disk.TreeAt root base) (hwalk : disk.IsWalkable root base)
    (hpattern : Glob.compileSet [pattern] = .ok wanted)
    (hignores : Glob.compileSet ignores = .ok unwanted) (isExcluded : Path → Bool) :
    scan disk root pattern ignores isExcluded =
      .ok (((disk.filesBelow base).filter (selects root pattern ignores isExcluded)).map
        root.below) := by
  have hselected : ((disk.filesBelow base).map root.below).filter (fun path =>
      !isExcluded path && !Glob.anyAccepts unwanted (path.shown root) &&
        Glob.anyAccepts wanted (path.shown root)) =
      ((disk.filesBelow base).filter (selects root pattern ignores isExcluded)).map
        root.below := by
    rw [List.filter_map]
    refine congrArg (List.map root.below) (List.filter_congr fun names hnames => ?_)
    have hshown : (root.below names).shown root = Glob.subject names :=
      Path.shown_below (text_ne_nil_of_locate h.locate_root) (h.isFileName_of_filesBelow hnames)
    rw [Function.comp_apply, hshown, Glob.anyAccepts_of_compileSet hpattern,
      Glob.anyAccepts_of_compileSet hignores, List.any_cons, List.any_nil, Bool.or_false, selects]
  rw [Lifter.scan_of_filePaths (h.filePaths_eq_ok_iff.2 ⟨hwalk, rfl⟩), hpattern, hignores,
    ← hselected]
  rfl

/-- Without all directories there is no result. -/
theorem Disk.TreeAt.scan_eq_error (h : disk.TreeAt root base) (hwalk : ¬ disk.IsWalkable root base)
    (hpattern : Glob.compileSet [pattern] = .ok wanted)
    (hignores : Glob.compileSet ignores = .ok unwanted) (isExcluded : Path → Bool) :
    scan disk root pattern ignores isExcluded = .error (.inaccessible root) := by
  cases hpaths : disk.filePaths root with
  | ok paths => exact absurd (h.filePaths_eq_ok_iff.1 hpaths).1 hwalk
  | error fault =>
    rw [scan, hpattern, hignores, hpaths]
    rfl

/-- The order of two paths, component by component. -/
def Path.Before (p q : Path) : Prop :=
  Disk.Before (p.components.map Component.text) (q.components.map Component.text)

theorem Path.Before.ne {p q : Path} (h : p.Before q) : p ≠ q := by
  rintro rfl
  exact Disk.Before.ne h rfl

/-- Paths below a root are in the order of the names behind it. -/
theorem Path.before_below (hroot : root.text ≠ []) {names names' : Location}
    (hnames : ∀ name ∈ names, IsFileName name ∧ '/' ∉ name)
    (hnames' : ∀ name ∈ names', IsFileName name ∧ '/' ∉ name) (h : Disk.Before names names') :
    (root.below names).Before (root.below names') := by
  have htexts : ∀ names : Location, (names.map Component.name).map Component.text = names := by
    intro names
    rw [List.map_map]
    exact List.map_id names
  rw [Before, (IsBelow.of_names hroot hnames).components,
    (IsBelow.of_names hroot hnames').components, List.map_append, List.map_append, htexts, htexts]
  exact .append_left _ h _

theorem Disk.TreeAt.pairwise_below (h : disk.TreeAt root base) (selected : Location → Bool) :
    (((disk.filesBelow base).filter selected).map root.below).Pairwise Path.Before := by
  rw [List.pairwise_map]
  refine ((h.pairwise_before_filesBelow base).filter selected).imp_of_mem ?_
  intro names names' hnames hnames' hbefore
  exact Path.before_below (text_ne_nil_of_locate h.locate_root)
    (h.isFileName_of_filesBelow (List.mem_of_mem_filter hnames))
    (h.isFileName_of_filesBelow (List.mem_of_mem_filter hnames')) hbefore

/-- **A scan is complete, ordered and reproducible.**  It fails if a directory at or below the root
is not found by its path.  Otherwise it returns just the files at or below the root that are not
excluded and whose names, with a separator for every backslash, fit no ignore and fit the pattern.
Each is returned once, and they are in the order of their components, compared by bytes, which is
the order in which a walk comes to them.  So the result is the same on every disk with these files,
whatever the order of its table and whatever else is on it. -/
theorem scan_complete (htree : disk.TreeAt root base)
    (hpattern : (Glob.compileSet [pattern]).isOk = true)
    (hignores : (Glob.compileSet ignores).isOk = true) (isExcluded : Path → Bool) :
    (¬ disk.IsWalkable root base →
      scan disk root pattern ignores isExcluded = .error (.inaccessible root)) ∧
    (disk.IsWalkable root base → ∃ paths, scan disk root pattern ignores isExcluded = .ok paths ∧
      (∀ p, p ∈ paths ↔ ∃ names, disk.isFileAt (base ++ names) = true ∧ p = root.below names ∧
        isExcluded p = false ∧ (∀ ignore ∈ ignores, Glob.fits (Glob.subject names) ignore = false) ∧
        Glob.fits (Glob.subject names) pattern = true) ∧
      paths.Nodup ∧
      paths.Pairwise Path.Before ∧
      paths = ((disk.walk base).filter fun names => disk.isFileAt (base ++ names) &&
        selects root pattern ignores isExcluded names).map root.below ∧
      ∀ disk' base', disk'.TreeAt root base' → disk'.IsWalkable root base' →
        (∀ names, disk'.isFileAt (base' ++ names) = disk.isFileAt (base ++ names)) →
        scan disk' root pattern ignores isExcluded = .ok paths) := by
  obtain ⟨wanted, hpattern⟩ := Glob.exists_of_isOk hpattern
  obtain ⟨unwanted, hignores⟩ := Glob.exists_of_isOk hignores
  refine ⟨fun hwalk => htree.scan_eq_error hwalk hpattern hignores isExcluded, fun hwalk =>
    ⟨_, htree.scan_eq hwalk hpattern hignores isExcluded, ?_, ?_, ?_, ?_, ?_⟩⟩
  · intro p
    simp only [List.mem_map, List.mem_filter, htree.mem_filesBelow_iff_isFileAt, selects,
      Bool.and_eq_true, Bool.not_eq_true', List.any_eq_false, Bool.not_eq_true]
    constructor
    · rintro ⟨names, ⟨hfile, ⟨hexcluded, hignored⟩, hfits⟩, rfl⟩
      exact ⟨names, hfile, rfl, hexcluded, hignored, hfits⟩
    · rintro ⟨names, hfile, rfl, hexcluded, hignored, hfits⟩
      exact ⟨names, ⟨hfile, ⟨hexcluded, hignored⟩, hfits⟩, rfl⟩
  · exact (htree.pairwise_below _).imp Path.Before.ne
  · exact htree.pairwise_below _
  · rw [htree.filesBelow_eq_filter_walk, List.filter_filter]
    simp only [Bool.and_comm]
  · intro disk' base' htree' hwalk' hfiles
    rw [htree'.scan_eq hwalk' hpattern hignores,
      htree.filesBelow_congr htree'.toIsRootedTree hfiles]

/-- A folder, and files that come after it, although the text of their paths comes before that of
the file in it. -/
def folderNodes : List (Location × Node) :=
  [(["p".toList], .directory),
    (["p".toList, "a".toList], .directory),
    (["p".toList, "a".toList, "z.css".toList], .file ⟨#[]⟩),
    (["p".toList, "a-b.css".toList], .file ⟨#[]⟩),
    (["p".toList, "a.css".toList], .file ⟨#[]⟩),
    (["p".toList, "lib".toList], .directory),
    (["p".toList, "lib".toList, "x.css".toList], .file ⟨#[]⟩),
    (["p".toList, "variables.css".toList], .file ⟨#[]⟩)]

/-- A scan that leaves out a folder and a file. -/
def folderScan (disk : Disk) : Except Failure (List Path) :=
  scan disk (.ofString "/p") "**/*.css".toList ["lib/**".toList]
    fun path => path == .ofString "/p/variables.css"

theorem folderScan_folderNodes :
    folderScan ⟨folderNodes, []⟩ =
      .ok [.ofString "/p/a/z.css", .ofString "/p/a-b.css", .ofString "/p/a.css"] := by
  have hbelow : (⟨folderNodes, []⟩ : Disk).filesBelow ["p".toList] =
      [["a".toList, "z.css".toList], ["a-b.css".toList], ["a.css".toList],
        ["lib".toList, "x.css".toList], ["variables.css".toList]] :=
    List.mergeSort_of_pairwise (by decide)
  have hpaths : (⟨folderNodes, []⟩ : Disk).filePaths (.ofString "/p") =
      .ok (((⟨folderNodes, []⟩ : Disk).filesBelow ["p".toList]).map (Path.ofString "/p").below) :=
    rfl
  rw [hbelow] at hpaths
  rw [folderScan, Lifter.scan_of_filePaths hpaths]
  decide +kernel

theorem treeAt_folderNodes : (⟨folderNodes, []⟩ : Disk).TreeAt (.ofString "/p") ["p".toList] :=
  ⟨by decide +kernel, by decide +kernel, by decide +kernel⟩

theorem treeAt_reverse_folderNodes :
    (⟨folderNodes.reverse, []⟩ : Disk).TreeAt (.ofString "/p") ["p".toList] :=
  ⟨by decide +kernel, by decide +kernel, by decide +kernel⟩

/-- The same files in the opposite order, and the same result. -/
theorem folderScan_reverse :
    folderScan ⟨folderNodes.reverse, []⟩ =
      .ok [.ofString "/p/a/z.css", .ofString "/p/a-b.css", .ofString "/p/a.css"] := by
  have hwalk : (⟨folderNodes, []⟩ : Disk).IsWalkable (.ofString "/p") ["p".toList] :=
    treeAt_folderNodes.isWalkable_iff.2 (by decide +kernel)
  have hwalk' : (⟨folderNodes.reverse, []⟩ : Disk).IsWalkable (.ofString "/p") ["p".toList] :=
    treeAt_reverse_folderNodes.isWalkable_iff.2 (by decide +kernel)
  have hfiles : ∀ names, (⟨folderNodes.reverse, []⟩ : Disk).isFileAt (["p".toList] ++ names) =
      (⟨folderNodes, []⟩ : Disk).isFileAt (["p".toList] ++ names) := by
    intro names
    rw [Bool.eq_iff_iff, ← treeAt_folderNodes.mem_filesBelow_iff_isFileAt,
      ← treeAt_reverse_folderNodes.mem_filesBelow_iff_isFileAt, Disk.mem_filesBelow_iff,
      Disk.mem_filesBelow_iff]
    simp only [List.mem_reverse]
  have hpattern : (Glob.compileSet ["**/*.css".toList]).isOk = true := by decide +kernel
  have hignores : (Glob.compileSet ["lib/**".toList]).isOk = true := by decide +kernel
  obtain ⟨paths, hscan, -, -, -, -, hsame⟩ :=
    (scan_complete treeAt_folderNodes hpattern hignores
      fun path => path == .ofString "/p/variables.css").2 hwalk
  have hreverse := hsame _ _ treeAt_reverse_folderNodes hwalk' hfiles
  exact hreverse.trans (hscan.symm.trans folderScan_folderNodes)

/-- A file with a backslash in its name. -/
def backslashDisk : Disk where
  nodes := [(["bs\\x.css".toList], .file ⟨#[]⟩)]

/-- **A name that its pattern does not find.**  The glob matches the name of the only file, and a
scan for the glob returns nothing; the file is returned for a glob with a folder. -/
theorem backslash_not_scanned :
    backslashDisk.TreeAt (.ofString "/") [] ∧ backslashDisk.IsWalkable (.ofString "/") [] ∧
    backslashDisk.isFileAt ["bs\\x.css".toList] = true ∧
    Glob.fits (Text.joined ['/'] ["bs\\x.css".toList]) "bs*".toList = true ∧
    scan backslashDisk (.ofString "/") "bs*".toList [] (fun _ => false) = .ok [] ∧
    scan backslashDisk (.ofString "/") "bs/*.css".toList [] (fun _ => false) =
      .ok [.ofString "/bs\\x.css"] := by
  have htree : backslashDisk.TreeAt (.ofString "/") [] :=
    ⟨by decide +kernel, by decide +kernel, by decide +kernel⟩
  have hbelow : backslashDisk.filesBelow [] = [["bs\\x.css".toList]] := List.mergeSort_singleton _
  have hpaths : backslashDisk.filePaths (.ofString "/") =
      .ok ((backslashDisk.filesBelow []).map (Path.ofString "/").below) := rfl
  rw [hbelow] at hpaths
  have hwalk := htree.isWalkable_iff.2 (by decide +kernel)
  refine ⟨htree, hwalk, by decide +kernel, by decide +kernel, ?_, ?_⟩
  · rw [Lifter.scan_of_filePaths hpaths]
    decide +kernel
  · rw [Lifter.scan_of_filePaths hpaths]
    decide +kernel

end StyleLift
