import StyleLift.Proofs.Disk.Ways
import StyleLift.Proofs.Extraction.Excluded
import StyleLift.Proofs.Path.Below

/-!
# The usage map is scanned

The sheets of earlier runs are left out of a scan by their names.  The usage map that is written
beside a sheet is not left out with it: its name is the stem of the sheet with another extension,
and none of the names that a scan leaves out ends like that.  So whether a run finds the usage map
of an earlier one is up to the globs.

* `Path.shown_join`: a name in a directory is shown as it is.
* `join_mem_scan_iff`: what a scan does with a file right below its root.
* `Outputs.components_mapPath`: the usage map lies beside its sheet.
* `isOutput_mapPath`: its path is not left out.
* `eq_append_of_locate_mapPath`: where it leads, and so where a scan finds it.
* `usage_map_scanned_iff`: the result, and `usage_map_scanned_again`: a run that finds its map.
-/

namespace StyleLift

/-! ## What a scan sees of a name -/

/-- **A name in a directory is shown as it is,** but for its backslashes. -/
theorem Path.shown_join {root : Path} (hroot : root.text ≠ []) {name : Text}
    (hname : IsFileName name) (hslash : '/' ∉ name) :
    (root.join name).shown root = Text.exchange '\\' '/' name := by
  have hnames : ∀ other ∈ [name], IsFileName other ∧ '/' ∉ other := by
    simpa using ⟨hname, hslash⟩
  have hbelow : root.below [name] = root.join name := rfl
  rw [← hbelow, shown_below hroot hnames, Text.joined]

namespace Glob

/-- Whether the globs can be used and one of them matches a path. -/
def setAccepts (sources : List Text) (path : Text) : Bool :=
  (compileSet sources).toOption.any fun globs => anyAccepts globs path

theorem setAccepts_of_compileSet {sources : List Text} {globs : List Glob}
    (h : compileSet sources = .ok globs) (path : Text) :
    setAccepts sources path = anyAccepts globs path := by
  rw [setAccepts, h]
  rfl

end Glob

/-- **What a scan does with a file right below its root:** it returns the file just if its path is
not excluded, the pattern accepts the name and no ignore does. -/
theorem Lifter.join_mem_scan_iff {disk : Disk} {root : Path} {pattern name : Text}
    {ignores : List Text} {isExcluded : Path → Bool} {paths : List Path}
    (h : scan disk root pattern ignores isExcluded = .ok paths) {base : Location}
    (hroot : disk.locate root = .ok base) (hname : Path.IsFileName name) (hslash : '/' ∉ name)
    {content : ByteArray} (hnode : disk.node? (base ++ [name]) = some (.file content)) :
    root.join name ∈ paths ↔
      isExcluded (root.join name) = false ∧
        Glob.setAccepts [pattern] (Text.exchange '\\' '/' name) = true ∧
        Glob.setAccepts ignores (Text.exchange '\\' '/' name) = false := by
  obtain ⟨base', wanted, unwanted, hroot', hwanted, hunwanted, rfl⟩ := exists_of_scan h
  obtain rfl : base = base' := Except.ok.inj (hroot.symm.trans hroot')
  have hfound : root.join name ∈ (disk.filesBelow base).map root.below :=
    List.mem_map.2 ⟨[name], Disk.mem_filesBelow_of_node? (by simp) hnode, rfl⟩
  have hshown := Path.shown_join (Disk.text_ne_nil_of_locate hroot) hname hslash
  rw [List.mem_filter, and_iff_right hfound, hshown, Glob.setAccepts_of_compileSet hwanted,
    Glob.setAccepts_of_compileSet hunwanted]
  simp only [Bool.and_eq_true, Bool.not_eq_true', and_assoc]
  exact and_congr_right fun _ => and_comm

/-! ## The path of the usage map -/

namespace Outputs

variable {root sheet : Path} {output name s : Text} {front : List Path.Component}

theorem isFileName_mapName (sheet : Path) : Path.IsFileName (mapName sheet) := by
  have hletter : 'm' ∈ mapName sheet := List.mem_append_right _ (by decide)
  exact .of_mem hletter (by decide)

/-- The last dot in the name. -/
theorem mapName_eq (sheet : Path) :
    mapName sheet = (sheet.fileStem?.getD [] ++ ".map".toList) ++ '.' :: "json".toList := by
  rw [mapName, List.append_assoc]
  rfl

/-- **The usage map lies beside its sheet.** -/
theorem exists_mapPath_eq (h : sheet.components = front ++ [.name s]) :
    ∃ parent : Path, parent.components = front ∧ mapPath sheet = parent.join (mapName sheet) := by
  obtain ⟨parent, hparent, hcomponents⟩ := Path.parent?_eq_some_of_components h (by simp)
  refine ⟨parent, hcomponents, ?_⟩
  rw [mapPath, Path.withFileName, Path.fileName?_of_components h, Option.isSome_some, if_pos rfl,
    hparent, Option.getD_some]
  rfl

theorem components_mapPath (h : sheet.components = front ++ [.name s]) :
    (mapPath sheet).components = front ++ [.name (mapName sheet)] := by
  obtain ⟨parent, rfl, heq⟩ := exists_mapPath_eq h
  rw [heq]
  exact Path.components_join_name parent (isFileName_mapName sheet) (slash_notMem_mapName sheet)

/-- A sheet whose name has no directory lies in the root, under the requested name or under that of
an alternative. -/
theorem exists_components_sheet (hroot : root.text ≠ [])
    (hname : (⟨output⟩ : Path).components = [.name name])
    (hsheet : sheet = root.join output ∨ ∃ n, sheet = numbered root output n) :
    ∃ s, (s = name ∨ ∃ n, s = numberedName output n) ∧
      sheet.components = root.components ++ [.name s] := by
  have hlast : (⟨output⟩ : Path).components = [] ++ [.name name] := hname
  obtain ⟨parent, hparent, hnone⟩ := Path.parent?_eq_some_of_components hlast (by simp)
  have hdir : (root.join ((⟨output⟩ : Path).parent?.getD ⟨[]⟩).text).components =
      root.components := by
    rw [hparent, Option.getD_some, Path.text_eq_nil_of_components hnone,
      Path.components_join hroot (by simp)]
    exact List.append_nil _
  rcases hsheet with rfl | ⟨n, rfl⟩
  · refine ⟨name, Or.inl rfl, ?_⟩
    rw [← hdir]
    exact Path.components_join_parent root (Path.fileName?_of_components hlast)
  · refine ⟨numberedName output n, Or.inr ⟨n, rfl⟩, ?_⟩
    rw [← hdir]
    exact Path.components_join_name _ (isFileName_numberedName output n)
      (slash_notMem_numberedName output n)

/-- The usage map does not have the requested name.  That name would have the stem of the sheet
in its own stem, and the sheet has its stem from that. -/
theorem mapName_ne_requested (hname : (⟨output⟩ : Path).fileName? = some name)
    (hs : s = name ∨ ∃ n, s = numberedName output n) (hsheet : sheet.fileName? = some s) :
    mapName sheet ≠ name := by
  rintro rfl
  have hdot : '.' ∉ "json".toList := by decide
  have hne : sheet.fileStem?.getD [] ++ ".map".toList ≠ [] := by simp
  rw [mapName_eq] at hname
  obtain ⟨more, hmore⟩ : ∃ more, s =
      (sheet.fileStem?.getD [] ++ ".map".toList ++ more) ++ '.' :: "json".toList := by
    rcases hs with rfl | ⟨n, rfl⟩
    · exact ⟨[], by rw [mapName_eq, List.append_nil]⟩
    · refine ⟨'-' :: Text.decimal n, ?_⟩
      rw [numberedName, Path.fileStem?_of_fileName? hname hne hdot,
        Path.extension?_of_fileName? hname hne hdot]
      rfl
  rw [hmore] at hsheet
  have hstem := Path.fileStem?_of_fileName? hsheet (by simp) hdot
  have hlength := congrArg (fun stem => (stem.getD []).length) hstem
  simp at hlength

end Outputs

namespace Lifter

variable {lifter : Lifter} {sheet : Path} {name : Text}

/-- What stands before the last dot in the name of a usage map is no number. -/
theorem isNumberedStem_map (stem s : Text) : isNumberedStem stem (s ++ ".map".toList) = false := by
  rw [Bool.eq_false_iff, Ne, isNumberedStem_iff]
  rintro ⟨digits, hne, hdigits, heq⟩
  have hlast := congrArg List.getLast? heq
  rw [List.getLast?_append_of_ne_nil _ (by decide), List.getLast?_append_of_ne_nil _ (by simp),
    List.getLast?_cons_of_ne_nil hne] at hlast
  have hletter := hdigits _ (List.mem_of_getLast? hlast.symm)
  exact absurd hletter (by decide)

/-- **The path of the usage map is not left out.** -/
theorem isOutput_mapPath (hroot : lifter.root.text ≠ [])
    (hname : (⟨lifter.settings.output⟩ : Path).components = [.name name])
    (hsheet : sheet = lifter.root.join lifter.settings.output ∨
      ∃ n, sheet = Outputs.numbered lifter.root lifter.settings.output n) :
    lifter.isOutput (Outputs.mapPath sheet) = false := by
  have hlast : (⟨lifter.settings.output⟩ : Path).components = [] ++ [.name name] := hname
  have hfile := Path.fileName?_of_components hlast
  obtain ⟨s, hs, hcomponents⟩ := Outputs.exists_components_sheet hroot hname hsheet
  have hmap := Outputs.components_mapPath hcomponents
  have hname' := Path.fileName?_of_components hmap
  have hrequested : (Outputs.mapPath sheet).same
      (lifter.root.join lifter.settings.output) = false := by
    refine Path.same_eq_false ?_
    rw [hname', Path.fileName?_of_components (Path.components_join_parent lifter.root hfile)]
    exact fun heq => Outputs.mapName_ne_requested hfile hs
      (Path.fileName?_of_components hcomponents) (Option.some.inj heq)
  have hassets : (Outputs.mapPath sheet).same
      (lifter.root.join Outputs.assetsFileName) = false := by
    refine Path.same_eq_false ?_
    rw [hname', Path.fileName?_of_components (lifter.root.components_join_name
      (by decide : Path.IsFileName Outputs.assetsFileName) (by decide))]
    exact fun heq => Outputs.mapName_ne_assets sheet (Option.some.inj heq)
  have hsplit : splitName (Outputs.mapName sheet) =
      (sheet.fileStem?.getD [] ++ ".map".toList, some "json".toList) := by
    rw [splitName, Outputs.mapName_eq, Text.splitLast?_append_cons (by decide)]
  rw [isOutput, hname']
  dsimp only
  rw [hsplit, hrequested, hassets, isNumberedStem_map, Bool.and_false]
  rfl

/-- **The usage map of a sheet in the root leads to the place of its name below the root,** however
the two paths are written. -/
theorem eq_append_of_locate_mapPath {root : Path} {s : Text}
    (h : sheet.components = root.components ++ [.name s]) {disk : Disk} {base place : Location}
    (hroot : disk.locate root = .ok base)
    (hmap : disk.locate (Outputs.mapPath sheet) = .ok place) :
    place = base ++ [Outputs.mapName sheet] := by
  obtain ⟨parent, hparent, heq⟩ := Outputs.exists_mapPath_eq h
  have hne : parent.text ≠ [] := by
    intro hempty
    have hnone : parent.components = [] := by
      rw [Path.components, Path.parts, hempty]
      rfl
    exact Disk.text_ne_nil_of_locate hroot
      (Path.text_eq_nil_of_components (hparent.symm.trans hnone))
  have hslash := Outputs.slash_notMem_mapName sheet
  rw [heq] at hmap
  obtain ⟨dir, hdir, hlast⟩ := Disk.exists_of_follow_join hne
    (fun hhead => hslash (List.mem_of_head? hhead)) (Disk.locate_eq_ok_iff.1 hmap).2
  rw [Text.pieces_of_notMem hslash] at hlast
  obtain ⟨hnode, next, hnext, hend⟩ := Disk.follow_cons_eq_ok_iff.1 hlast
  obtain rfl := Except.ok.inj hend
  rw [Disk.next?_of_isFileName (Outputs.isFileName_mapName sheet)] at hnext
  have hbase := Disk.follow_of_components hparent hdir hnode
  obtain rfl : dir = base := Except.ok.inj (hbase.symm.trans (Disk.locate_eq_ok_iff.1 hroot).2)
  split_ifs at hnext
  exact (Option.some.inj hnext).symm

/-- **A run leaves its usage map to the globs.**  Let the settings name the sheet by a name without
a directory, and let a run succeed and write a usage map.  This is a file right below the root, and
its path is none of those that a scan leaves out.  So a scan of the disk after the run returns this
path, written as scans write it, just if the pattern accepts the name and no ignore does. -/
theorem usage_map_scanned_iff (lifter : Lifter) {name : Text}
    (hname : (⟨lifter.settings.output⟩ : Path).components = [.name name]) {before after : Disk}
    {summary : Summary} (h : lifter.extract before = (.ok summary, after)) {p : Path}
    (hp : summary.written.map = some p) :
    let mapName := Outputs.mapName
      (summary.written.sheet.getD (lifter.root.join lifter.settings.output))
    (lifter.root.join mapName).same p = true ∧ lifter.isOutput p = false ∧
      (∃ base, after.locate lifter.root = .ok base ∧ after.locate p = .ok (base ++ [mapName])) ∧
      ∀ pattern ignores paths,
        scan after lifter.root pattern ignores lifter.isOutput = .ok paths →
        (lifter.root.join mapName ∈ paths ↔
          Glob.setAccepts [pattern] (Text.exchange '\\' '/' mapName) = true ∧
            Glob.setAccepts ignores (Text.exchange '\\' '/' mapName) = false) := by
  obtain ⟨scanned, middle, hscan, hrewrites, hwrite⟩ := exists_of_extract h
  obtain ⟨first, second, hsteps⟩ := Outputs.exists_steps hwrite
  intro mapName
  obtain ⟨base, hbefore⟩ := exists_locate_root hscan
  have hbase : after.locate lifter.root = .ok base :=
    ((hrewrites.keepsDirectories.trans hsteps.sheet.keepsDirectories).trans
      hsteps.keeps_first).locate hbefore
  have hroot := Disk.text_ne_nil_of_locate hbase
  -- the map belongs to the sheet, and to the requested path where there is none
  have hsheet : summary.written.sheet.getD (lifter.root.join lifter.settings.output) =
      lifter.root.join lifter.settings.output ∨ ∃ n,
        summary.written.sheet.getD (lifter.root.join lifter.settings.output) =
          Outputs.numbered lifter.root lifter.settings.output n := by
    cases hwritten : summary.written.sheet with
    | none => exact Or.inl rfl
    | some sheet =>
      obtain ⟨rfl, -⟩ := hsteps.sheet.exists_stores hwritten
      exact Outputs.availablePath_cases middle lifter.root lifter.settings.output
  obtain ⟨s, -, hcomponents⟩ := Outputs.exists_components_sheet hroot hname hsheet
  have hmap := Outputs.components_mapPath hcomponents
  have hjoin : (lifter.root.join mapName).components =
      lifter.root.components ++ [.name mapName] :=
    Path.components_join_name _ (Outputs.isFileName_mapName _) (Outputs.slash_notMem_mapName _)
  obtain ⟨content, hstat⟩ := Disk.exists_of_readText (hsteps.readText_map hp)
  obtain ⟨rfl, -⟩ := hsteps.map.exists_stores hp
  obtain ⟨place, hlocate, hnode⟩ := Disk.exists_of_stat hstat
  obtain rfl := eq_append_of_locate_mapPath hcomponents hbase hlocate
  have hleft := isOutput_mapPath hroot hname hsheet
  refine ⟨beq_iff_eq.2 (hjoin.trans hmap.symm), hleft, ⟨base, hbase, hlocate⟩, ?_⟩
  intro pattern ignores paths hpaths
  rw [join_mem_scan_iff hpaths hbase (Outputs.isFileName_mapName _)
    (Outputs.slash_notMem_mapName _) hnode, isOutput_congr (hjoin.trans hmap.symm),
    and_iff_right hleft]

/-- A run that looks at every file and writes a usage map. -/
def everyFile : Lifter where
  root := .ofString "/"
  settings := { Settings.default with pattern := "**/*".toList, exportMap := true }

/-- A disk with one source. -/
def oneSource : Disk where
  nodes := [(["a.css".toList], .file (Disk.encode "a\x7bcolor:red\x7d".toList))]

theorem files_oneSource : everyFile.files oneSource = .ok [.ofString "/a.css"] := by
  have hbelow : oneSource.filesBelow [] = [["a.css".toList]] :=
    List.mergeSort_of_pairwise (by decide)
  have hpaths : oneSource.filePaths everyFile.root =
      .ok ((oneSource.filesBelow []).map everyFile.root.below) := rfl
  rw [hbelow] at hpaths
  rw [files, scan_of_filePaths hpaths]
  decide +kernel

/-- What the run comes to, with the file given. -/
def everyFileResult : Except Failure Summary × Disk :=
  (do
    let (files, journal) ← everyFile.liftFiles {} [.ofString "/a.css"]
    let written ← Outputs.write everyFile.root everyFile.settings journal
    return ⟨files, journal, written⟩ : Run Summary) oneSource

/-- The run writes its sheet and its usage map. -/
theorem exists_everyFile :
    ∃ summary, everyFile.extract oneSource = (.ok summary, everyFileResult.2) ∧
      summary.written = ⟨some (.ofString "/variables.css"),
        some (.ofString "/variables.map.json"), none, []⟩ := by
  have hwritten : everyFileResult.1.toOption.map Summary.written =
      some ⟨some (.ofString "/variables.css"), some (.ofString "/variables.map.json"), none,
        []⟩ := by decide +kernel
  obtain ⟨summary, hsummary, hpaths⟩ := Option.map_eq_some_iff.1 hwritten
  have hextract : everyFile.extract oneSource = everyFileResult := extract_of_files files_oneSource
  exact ⟨summary, hextract.trans (Run.eq_of_toOption hsummary), hpaths⟩

/-- By its name, the usage map is found with every file and not among the style files. -/
theorem usage_map_scanned_by_name :
    ∃ summary after, everyFile.extract oneSource = (.ok summary, after) ∧
      summary.written.map = some (.ofString "/variables.map.json") ∧
      everyFile.isOutput (.ofString "/variables.map.json") = false ∧
      (∀ paths, scan after everyFile.root "**/*".toList [] everyFile.isOutput = .ok paths →
        .ofString "/variables.map.json" ∈ paths) ∧
      ∀ paths, scan after everyFile.root Settings.default.pattern [] everyFile.isOutput =
        .ok paths → .ofString "/variables.map.json" ∉ paths := by
  obtain ⟨summary, hextract, hwritten⟩ := exists_everyFile
  have hmap : summary.written.map = some (.ofString "/variables.map.json") := by rw [hwritten]
  have hname : (⟨everyFile.settings.output⟩ : Path).components =
      [.name "variables.css".toList] := by decide +kernel
  obtain ⟨-, hleft, -, hscan⟩ := usage_map_scanned_iff everyFile hname hextract hmap
  rw [hwritten] at hscan
  refine ⟨summary, _, hextract, hmap, hleft, fun paths hpaths => ?_, fun paths hpaths hmem => ?_⟩
  · exact (hscan _ _ paths hpaths).2 ⟨by decide +kernel, by decide +kernel⟩
  · have haccepts := ((hscan _ _ paths hpaths).1 hmem).1
    exact absurd haccepts (by decide +kernel)

/-- A second scan of every file returns the usage map of the run. -/
theorem usage_map_scanned_again :
    ∃ summary after paths, (⟨everyFile.settings.output⟩ : Path).components =
        [.name "variables.css".toList] ∧
      everyFile.settings.exportMap = true ∧
      everyFile.extract oneSource = (.ok summary, after) ∧
      summary.written.map = some (.ofString "/variables.map.json") ∧
      everyFile.files after = .ok paths ∧ .ofString "/variables.map.json" ∈ paths := by
  obtain ⟨summary, hextract, hwritten⟩ := exists_everyFile
  have hsome : (everyFile.files everyFileResult.2).toOption.isSome = true := by decide +kernel
  have hroot : everyFileResult.2.locate everyFile.root = .ok [] := by decide +kernel
  have hfile : everyFileResult.2.isFileAt ["variables.map.json".toList] = true := by
    decide +kernel
  cases hpaths : everyFile.files everyFileResult.2 with
  | error failure =>
    rw [hpaths] at hsome
    cases hsome
  | ok paths =>
    rw [Disk.isFileAt] at hfile
    split at hfile
    · rename_i content hnode
      have hmem := (join_mem_scan_iff hpaths hroot (.of_mem (c := 'm') (by decide) (by decide))
        (by decide) hnode).2 ⟨by decide +kernel, by decide +kernel, by decide +kernel⟩
      exact ⟨summary, _, paths, by decide +kernel, rfl, hextract, by rw [hwritten], hpaths, hmem⟩
    · cases hfile

end Lifter

end StyleLift
