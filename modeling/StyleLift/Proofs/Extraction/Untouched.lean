import StyleLift.Extraction
import StyleLift.Proofs.Outputs.Available

/-!
# Files that a run leaves alone

A run writes to the files it scans, and then its outputs.  While it lifts, only the contents of
scanned files change, so every path keeps its place and the outputs find the disk as the scan did.
What the outputs do to files that were there before depends on how each gets its path: the sheet
goes to a free place, but the usage map and the sheet of images are written without looking.

* `Disk.Rewrites`: only the contents of files at some paths change; `rewrites_liftFiles`.
* `extract_keeps_files`: a file that was not scanned keeps its bytes, unless it is where the usage
  map or the sheet of images goes, or the name of the sheet has a `..`.
* `extract_replaces_earlier_assets`: the sheet of images of an earlier run is lost.
-/

namespace StyleLift

namespace Disk

/-! ## Rewriting files -/

/-- Only the contents of files change, and only of files that one of the paths leads to. -/
structure Rewrites (paths : List Path) (before after : Disk) : Prop where
  cwd : after.cwd = before.cwd
  node : ∀ place, after.node? place = before.node? place ∨
    (∃ old new, before.node? place = some (.file old) ∧ after.node? place = some (.file new)) ∧
      ∃ p ∈ paths, before.locate p = .ok place

namespace Rewrites

variable {paths : List Path} {before middle after : Disk}

theorem refl (disk : Disk) : Rewrites paths disk disk := ⟨rfl, fun _ => Or.inl rfl⟩

theorem keepsDirectories (h : Rewrites paths before after) : KeepsDirectories before after := by
  refine ⟨h.cwd, fun place hdir => ?_⟩
  rcases h.node place with heq | ⟨⟨old, new, hold, -⟩, -⟩
  · rw [heq, hdir]
  · rw [hdir] at hold
    cases hold

/-- No directory is new either. -/
theorem keepsDirectories_back (h : Rewrites paths before after) :
    KeepsDirectories after before := by
  refine ⟨h.cwd.symm, fun place hdir => ?_⟩
  rcases h.node place with heq | ⟨⟨old, new, -, hnew⟩, -⟩
  · rw [← heq, hdir]
  · rw [hdir] at hnew
    cases hnew

theorem append {others : List Path} (h : Rewrites paths before middle)
    (h' : Rewrites others middle after) : Rewrites (paths ++ others) before after := by
  refine ⟨h'.cwd.trans h.cwd, fun place => ?_⟩
  rcases h.node place with heq | ⟨⟨old, new, hold, hnew⟩, p, hp, hlocate⟩
  · rcases h'.node place with heq' | ⟨hfiles, p, hp, hlocate⟩
    · exact Or.inl (heq'.trans heq)
    · rw [heq] at hfiles
      exact Or.inr ⟨hfiles, p, List.mem_append_right _ hp, h.keepsDirectories_back.locate hlocate⟩
  · refine Or.inr ⟨⟨old, ?_⟩, p, List.mem_append_left _ hp, hlocate⟩
    rcases h'.node place with heq' | ⟨⟨-, newer, -, hnewer⟩, -⟩
    · exact ⟨new, hold, heq'.trans hnew⟩
    · exact ⟨newer, hold, hnewer⟩

/-- Other files stay. -/
theorem hasFile (h : Rewrites paths before after) {place : Location} {content : ByteArray}
    (hfile : before.HasFile place content) (hne : ∀ p ∈ paths, before.locate p ≠ .ok place) :
    after.HasFile place content := by
  refine ⟨?_, fun n hn => h.keepsDirectories.directory _ (hfile.above n hn)⟩
  rcases h.node place with heq | ⟨-, p, hp, hlocate⟩
  · rw [heq, hfile.node]
  · exact absurd hlocate (hne p hp)

/-- Writing to a file that is there rewrites it. -/
theorem of_write {p : Path} {s : Text} {content : ByteArray}
    (hstat : before.stat p = .ok (.file content)) (h : before.write p s = .ok after) :
    Rewrites [p] before after := by
  obtain ⟨place, hlocate, hnode⟩ := exists_of_stat hstat
  obtain ⟨dir, name, -, -, hlocate', -, rfl⟩ := exists_of_write h
  obtain rfl : place = dir ++ [name] := Except.ok.inj (hlocate.symm.trans hlocate')
  refine ⟨rfl, fun q => ?_⟩
  rw [node?_put (by simp)]
  by_cases hq : q = dir ++ [name]
  · subst hq
    rw [if_pos rfl]
    exact Or.inr ⟨⟨content, encode s, hnode, rfl⟩, p, List.mem_singleton_self p, hlocate⟩
  · exact Or.inl (if_neg hq)

end Rewrites

theorem exists_of_readText {disk : Disk} {p : Path} {s : Text} (h : disk.readText p = .ok s) :
    ∃ content, disk.stat p = .ok (.file content) := by
  obtain ⟨content, hread, -⟩ := exists_of_bind_eq_ok h
  obtain ⟨node, hstat, h⟩ := exists_of_bind_eq_ok hread
  cases node with
  | file content => exact ⟨content, hstat⟩
  | directory => cases h

end Disk

namespace Lifter

variable {lifter : Lifter} {before after : Disk}

theorem exists_stat_of_readDocument {path : Path} {doc : Stylesheet.Document}
    (h : readDocument before path = .ok doc) :
    ∃ content, before.stat path = .ok (.file content) := by
  obtain ⟨source, hread, -⟩ := Disk.exists_of_bind_eq_ok h
  exact Disk.exists_of_readText (Disk.eq_ok_of_mapError hread)

/-- **Lifting a file rewrites at most that file.** -/
theorem rewrites_liftFile {path : Path} {journal : Journal} {result : Nat × Journal}
    (h : lifter.liftFile path journal before = (.ok result, after)) :
    before.Rewrites [path] after := by
  obtain ⟨doc, observed, hobserve, h⟩ := Run.exists_of_bind h
  rw [Run.observe_apply] at hobserve
  obtain ⟨hread, rfl⟩ := Prod.mk.inj hobserve
  obtain ⟨content, hstat⟩ := exists_stat_of_readDocument hread
  obtain ⟨disk, middle, hget, h⟩ := Run.exists_of_bind h
  cases hget
  dsimp only at h
  split_ifs at h
  · obtain ⟨u, changed, hchange, h⟩ := Run.exists_of_bind h
    cases h
    exact .of_write hstat (Run.of_change hchange)
  · cases h
    exact .refl _

/-- **Lifting files rewrites only these files.** -/
theorem rewrites_liftFiles {paths : List Path} {journal : Journal}
    {result : List (Path × Nat) × Journal}
    (h : lifter.liftFiles journal paths before = (.ok result, after)) :
    before.Rewrites paths after := by
  induction paths generalizing before journal result with
  | nil =>
    cases h
    exact .refl _
  | cons path rest ih =>
    obtain ⟨first, middle, hfirst, h⟩ := Run.exists_of_bind h
    obtain ⟨others, last, hrest, h⟩ := Run.exists_of_bind h
    cases h
    exact (rewrites_liftFile hfirst).append (ih hrest)

/-! ## Scanning, lifting and writing -/

/-- A scan selects among the files that are found. -/
theorem scan_of_filePaths {disk : Disk} {root : Path} {found : List Path}
    (h : disk.filePaths root = .ok found) (pattern : Text) (ignores : List Text)
    (isExcluded : Path → Bool) :
    scan disk root pattern ignores isExcluded = (do
      let wanted ← (Glob.compileSet [pattern]).mapError .unusableGlobs
      let unwanted ← (Glob.compileSet ignores).mapError .unusableGlobs
      .ok (found.filter fun path =>
        !isExcluded path && !Glob.anyAccepts unwanted (path.shown root) &&
          Glob.anyAccepts wanted (path.shown root))) := by
  rw [scan, h]
  rfl

/-- **What a scan returns:** the files below its directory that are not excluded, and that the
pattern accepts and no ignore does. -/
theorem exists_of_scan {disk : Disk} {root : Path} {pattern : Text} {ignores : List Text}
    {isExcluded : Path → Bool} {paths : List Path}
    (h : scan disk root pattern ignores isExcluded = .ok paths) :
    ∃ base wanted unwanted, disk.locate root = .ok base ∧
      Glob.compileSet [pattern] = .ok wanted ∧ Glob.compileSet ignores = .ok unwanted ∧
      paths = ((disk.filesBelow base).map root.below).filter fun path =>
        !isExcluded path && !Glob.anyAccepts unwanted (path.shown root) &&
          Glob.anyAccepts wanted (path.shown root) := by
  obtain ⟨wanted, hwanted, h⟩ := Disk.exists_of_bind_eq_ok h
  obtain ⟨unwanted, hunwanted, h⟩ := Disk.exists_of_bind_eq_ok h
  obtain ⟨found, hfound, h⟩ := Disk.exists_of_bind_eq_ok h
  obtain ⟨node, -, hfound⟩ := Disk.exists_of_bind_eq_ok (Disk.eq_ok_of_mapError hfound)
  obtain ⟨base, hroot, hfound⟩ := Disk.exists_of_bind_eq_ok hfound
  obtain ⟨u, -, hfound⟩ := Disk.exists_of_bind_eq_ok hfound
  obtain rfl := Except.ok.inj hfound
  exact ⟨base, wanted, unwanted, hroot, Disk.eq_ok_of_mapError hwanted,
    Disk.eq_ok_of_mapError hunwanted, (Except.ok.inj h).symm⟩

/-- A scan finds its directory. -/
theorem exists_locate_root {paths : List Path} (h : lifter.files before = .ok paths) :
    ∃ place, before.locate lifter.root = .ok place := by
  obtain ⟨base, -, -, hroot, -⟩ := exists_of_scan h
  exact ⟨base, hroot⟩

/-- A run scans, lifts and writes its outputs. -/
theorem exists_of_extract {summary : Summary} (h : lifter.extract before = (.ok summary, after)) :
    ∃ paths middle, lifter.files before = .ok paths ∧ before.Rewrites paths middle ∧
      Outputs.write lifter.root lifter.settings summary.journal middle =
        (.ok summary.written, after) := by
  obtain ⟨paths, observed, hobserve, h⟩ := Run.exists_of_bind h
  rw [Run.observe_apply] at hobserve
  obtain ⟨hfiles, rfl⟩ := Prod.mk.inj hobserve
  obtain ⟨⟨outcomes, journal⟩, middle, hlift, h⟩ := Run.exists_of_bind h
  obtain ⟨written, last, hwrite, h⟩ := Run.exists_of_bind h
  cases h
  exact ⟨paths, middle, hfiles, rewrites_liftFiles hlift, hwrite⟩

end Lifter

namespace Outputs

/-- The sheet takes the place of a file only if its name has a `..`. -/
theorem Steps.up_mem_output {root : Path} {settings : Settings} {journal : Journal}
    {before first second after : Disk} {written : Written}
    (h : Steps root settings journal before first second after written)
    {base : Location} (hroot : before.locate root = .ok base) {p : Path}
    (hp : p ∈ written.sheet) {place : Location} (hlocate : first.locate p = .ok place)
    {bytes : ByteArray} (hfile : before.HasFile place bytes) :
    ['.', '.'] ∈ Text.pieces '/' settings.output := by
  by_contra hup
  obtain ⟨rfl, _, target, hstores⟩ := h.sheet.exists_stores hp
  obtain rfl : target = place := Except.ok.inj (hstores.shows.locate.symm.trans hlocate)
  have hdescends := descends_availablePath (Disk.Descends.of_locate hroot) hup
  exact hdescends.not_hasFile (pathExists_availablePath _ _ _) hstores.grows hstores.locate
    hstores.not_directory hfile

end Outputs

namespace Lifter

variable {lifter : Lifter} {before after : Disk}

/-- **A run leaves other files alone.**  A file that is none of those that are scanned keeps its
bytes, unless it lies where the usage map or the sheet of images was written, or where the sheet was
written under a name with a `..`. -/
theorem extract_keeps_files {summary : Summary} {paths : List Path} {place : Location}
    {content : ByteArray} (h : lifter.extract before = (.ok summary, after))
    (hfiles : lifter.files before = .ok paths) (hfile : before.HasFile place content)
    (hother : ∀ p ∈ paths, before.locate p ≠ .ok place) :
    after.HasFile place content ∨
    (∃ p ∈ summary.written.map, after.locate p = .ok place) ∨
    (∃ p ∈ summary.written.assets, after.locate p = .ok place) ∨
    (∃ p ∈ summary.written.sheet, after.locate p = .ok place) ∧
      ['.', '.'] ∈ Text.pieces '/' lifter.settings.output := by
  obtain ⟨scanned, middle, hscan, hrewrites, hwrite⟩ := exists_of_extract h
  obtain rfl : scanned = paths := Except.ok.inj (hscan.symm.trans hfiles)
  obtain ⟨first, second, hsteps⟩ := Outputs.exists_steps hwrite
  obtain ⟨base, hroot⟩ := exists_locate_root hfiles
  have hmiddle := hrewrites.hasFile hfile hother
  rcases hsteps.sheet.hasFile_or hmiddle with hfirst | ⟨p, hp, hlocate⟩
  · rcases hsteps.map.hasFile_or hfirst with hsecond | ⟨p, hp, hlocate⟩
    · rcases hsteps.assets.hasFile_or hsecond with hafter | hassets
      · exact Or.inl hafter
      · exact Or.inr (Or.inr (Or.inl hassets))
    · exact Or.inr (Or.inl ⟨p, hp, hsteps.assets.keepsDirectories.locate hlocate⟩)
  · have hup := hsteps.up_mem_output (hrewrites.keepsDirectories.locate hroot) hp hlocate hmiddle
    exact Or.inr (Or.inr (Or.inr ⟨⟨p, hp, hsteps.keeps_first.locate hlocate⟩, hup⟩))

/-! ## A second run -/

/-- Once the files are known, a run is lifting and writing. -/
theorem extract_of_files {paths : List Path} (h : lifter.files before = .ok paths) :
    lifter.extract before = (do
      let (files, journal) ← lifter.liftFiles {} paths
      let written ← Outputs.write lifter.root lifter.settings journal
      return ⟨files, journal, written⟩ : Run Summary) before := by
  have hobserve : Run.observe lifter.files before = (.ok paths, before) := by
    rw [Run.observe_apply, h]
  exact Run.bind_of_ok hobserve

/-- A disk with a sheet and a sheet of images from before. -/
def rerunDisk : Disk where
  nodes := [
    (["a.css".toList], .file (Disk.encode "a { color: red; background: url(i.png); }".toList)),
    (["assets.css".toList], .file (Disk.encode "x".toList)),
    (["i.png".toList], .file (Disk.encode "PNG".toList)),
    (["variables.css".toList], .file (Disk.encode "y".toList))]

/-- A run that writes all outputs. -/
def rerun : Lifter where
  root := .ofString "/"
  settings := Outputs.allOutputs "variables.css"

theorem files_rerun : rerun.files rerunDisk = .ok [.ofString "/a.css"] := by
  have hbelow : rerunDisk.filesBelow [] = [["a.css".toList], ["assets.css".toList],
      ["i.png".toList], ["variables.css".toList]] := List.mergeSort_of_pairwise (by decide)
  have hpaths : rerunDisk.filePaths rerun.root =
      .ok ((rerunDisk.filesBelow []).map rerun.root.below) := rfl
  rw [hbelow] at hpaths
  rw [files, scan_of_filePaths hpaths]
  decide +kernel

/-- What a second run comes to, with the files given. -/
def rerunResult : Except Failure Summary × Disk :=
  (do
    let (files, journal) ← rerun.liftFiles {} [.ofString "/a.css"]
    let written ← Outputs.write rerun.root rerun.settings journal
    return ⟨files, journal, written⟩ : Run Summary) rerunDisk

/-- The second run puts its sheet next to the first one, and its images into the same file. -/
theorem exists_rerun :
    ∃ summary, rerun.extract rerunDisk = (.ok summary, rerunResult.2) ∧
      summary.written = ⟨some (.ofString "/variables-1.css"),
        some (.ofString "/variables-1.map.json"), some (.ofString "/assets.css"), []⟩ := by
  have hwritten : rerunResult.1.toOption.map Summary.written =
      some ⟨some (.ofString "/variables-1.css"), some (.ofString "/variables-1.map.json"),
        some (.ofString "/assets.css"), []⟩ := by decide +kernel
  obtain ⟨summary, hsummary, hpaths⟩ := Option.map_eq_some_iff.1 hwritten
  have hextract : rerun.extract rerunDisk = rerunResult := extract_of_files files_rerun
  exact ⟨summary, hextract.trans (Run.eq_of_toOption hsummary), hpaths⟩

/-- The sheet from before is still there after a second run. -/
theorem extract_keeps_earlier_sheet :
    ∃ summary after, rerun.extract rerunDisk = (.ok summary, after) ∧
      rerunDisk.HasFile ["variables.css".toList] (Disk.encode "y".toList) ∧
      after.HasFile ["variables.css".toList] (Disk.encode "y".toList) := by
  obtain ⟨summary, hextract, hwritten⟩ := exists_rerun
  have hfile : rerunDisk.HasFile ["variables.css".toList] (Disk.encode "y".toList) :=
    ⟨by decide +kernel, by decide +kernel⟩
  have hother : ∀ p ∈ [Path.ofString "/a.css"],
      rerunDisk.locate p ≠ .ok ["variables.css".toList] := by decide +kernel
  refine ⟨summary, _, hextract, hfile, ?_⟩
  rcases extract_keeps_files hextract files_rerun hfile hother with
    hkept | ⟨p, hp, hlocate⟩ | ⟨p, hp, hlocate⟩ | ⟨-, hup⟩
  · exact hkept
  · rw [hwritten] at hp
    obtain rfl := Option.some.inj hp
    exact absurd hlocate (by decide +kernel)
  · rw [hwritten] at hp
    obtain rfl := Option.some.inj hp
    exact absurd hlocate (by decide +kernel)
  · exact absurd hup (by decide +kernel)

/-- The sheet of images from before is lost in a second run, though it was not scanned. -/
theorem extract_replaces_earlier_assets :
    ∃ summary after, rerun.extract rerunDisk = (.ok summary, after) ∧
      rerun.files rerunDisk = .ok [.ofString "/a.css"] ∧
      rerunDisk.HasFile ["assets.css".toList] (Disk.encode "x".toList) ∧
      ¬ after.HasFile ["assets.css".toList] (Disk.encode "x".toList) := by
  obtain ⟨summary, hextract, -⟩ := exists_rerun
  have hlost : rerunResult.2.node? ["assets.css".toList] ≠
      some (.file (Disk.encode "x".toList)) := by decide +kernel
  exact ⟨summary, _, hextract, files_rerun, ⟨by decide +kernel, by decide +kernel⟩,
    fun hkept => hlost hkept.node⟩

end Lifter

end StyleLift
