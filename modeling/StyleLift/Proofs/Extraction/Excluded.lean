import StyleLift.Proofs.Disk.Descent
import StyleLift.Proofs.Extraction.Untouched

/-!
# The sheet is never scanned

A run must not take the sheet of an earlier run for a source.  The path of the sheet is put together
when it is written, from the directory, the stem, a number and the extension of the requested name;
a scan takes the names it finds apart again, at the last dot and at a hyphen before digits.  The two
know nothing of each other, and neither sees the texts the other has seen: the requested name may
spell its directories in any way.  What they share are components.

* `isOutput_congr`: whether a path is left out depends on its components only.
* `isNumberedStem_iff`, `splitName_alternativeName`: numbers are recognised where they were put.
* `isOutput_iff`: what is left out; `isOutput_availablePath`: the path of the sheet is.
* `IsBelow.availablePath`: this path goes down from the root, as the paths of a scan do, so that a
  scan that leaves out the path also leaves out the file.
* `sheet_never_scanned`: the result.

A name with a dot at its start and no other is left out of this: its dot does not start an extension
for the writer, and does for the scan.
-/

namespace StyleLift

namespace Lifter

variable {lifter : Lifter} {output name : Text}

/-! ## Taking names apart -/

/-- A number behind a stem is a hyphen and digits. -/
theorem isNumberedStem_iff {stem s : Text} :
    isNumberedStem stem s = true ↔
      ∃ digits : Text, digits ≠ [] ∧ (∀ c ∈ digits, c.isDigit = true) ∧
        s = stem ++ '-' :: digits := by
  constructor
  · intro h
    rw [isNumberedStem] at h
    split at h
    · rename_i digits hafter
      simp only [Bool.and_eq_true, Bool.not_eq_true', List.isEmpty_eq_false_iff,
        List.all_eq_true] at h
      refine ⟨digits, h.1, h.2, ?_⟩
      rw [Text.after?_eq_some_iff.1 hafter, List.append_assoc, List.singleton_append]
    · cases h
  · rintro ⟨digits, hne, hdigits, rfl⟩
    have hafter : Text.after? (stem ++ ['-']) (stem ++ '-' :: digits) = some digits :=
      Text.after?_eq_some_iff.2 (by simp)
    rw [isNumberedStem, hafter]
    simpa [hne] using hdigits

/-- A name comes apart into what it is put together from. -/
theorem eq_append_of_splitName {s stem : Text} {extension : Option Text}
    (h : splitName s = (stem, extension)) :
    s = stem ++ (extension.map fun e => '.' :: e).getD [] := by
  rw [splitName] at h
  split at h
  · rename_i before rest hsplit
    obtain ⟨rfl, rfl⟩ := Prod.mk.inj h
    exact (Text.eq_append_of_splitLast? hsplit).1
  · obtain ⟨rfl, rfl⟩ := Prod.mk.inj h
    simp

/-- The name of an alternative to a requested one, by the text of its number. -/
def alternativeName (output digits : Text) : Text :=
  (⟨output⟩ : Path).fileStem?.getD [] ++ '-' :: digits ++
    ((⟨output⟩ : Path).extension?.map fun e => '.' :: e).getD []

/-- **The name of an alternative comes apart where it was put together.** -/
theorem splitName_alternativeName (hname : (⟨output⟩ : Path).fileName? = some name)
    (hdot : (⟨output⟩ : Path).extension?.isSome = true ∨ '.' ∉ name) {digits : Text}
    (hdigits : '.' ∉ digits) :
    splitName (alternativeName output digits) =
      ((⟨output⟩ : Path).fileStem?.getD [] ++ '-' :: digits, (⟨output⟩ : Path).extension?) := by
  rw [splitName, alternativeName]
  rcases Path.fileStem?_cases hname with ⟨hstem, hext⟩ | ⟨stem, extension, -, hnodot, hstem, hext⟩
  · have hnone : '.' ∉ name := by
      rw [hext] at hdot
      exact hdot.resolve_left (by simp)
    have hfree : '.' ∉ name ++ '-' :: digits := by
      simp [hnone, hdigits]
    simp only [hstem, hext, Option.map_none, Option.getD_none, Option.getD_some, List.append_nil]
    rw [Text.splitLast?_eq_none_iff.2 hfree]
  · simp only [hstem, hext, Option.map_some, Option.getD_some]
    rw [Text.splitLast?_append_cons hnodot]

/-! ## Leaving paths out -/

/-- **Whether a path is left out depends on its components only.** -/
theorem isOutput_congr {p q : Path} (h : p.components = q.components) :
    lifter.isOutput p = lifter.isOutput q := by
  simp only [isOutput, Path.fileName?, Path.same, sameDirectory, Path.map_components_parent?, h]

/-- A path that lies where the sheet was requested, by the name of an alternative. -/
def IsAlternative (lifter : Lifter) (p : Path) : Prop :=
  ∃ digits : Text, digits ≠ [] ∧ (∀ c ∈ digits, c.isDigit = true) ∧
    p.components =
      (lifter.root.join ((⟨lifter.settings.output⟩ : Path).parent?.getD ⟨[]⟩).text).components ++
        [.name (alternativeName lifter.settings.output digits)]

theorem isAlternative_numbered (lifter : Lifter) (n : Nat) :
    lifter.IsAlternative (Outputs.numbered lifter.root lifter.settings.output n) :=
  ⟨Text.decimal n, Nat.toDigits_ne_nil,
    fun _ hc => Nat.isDigit_of_mem_toDigits (by decide) (by decide) hc,
    Path.components_join_name _ (Outputs.isFileName_numberedName lifter.settings.output n)
      (Outputs.slash_notMem_numberedName lifter.settings.output n)⟩

/-- Two paths that end in names lie in one directory just if they agree before these names. -/
theorem sameDirectory_iff {p q : Path} {front front' : List Path.Component} {s t : Text}
    (hp : p.components = front ++ [.name s]) (hq : q.components = front' ++ [.name t]) :
    sameDirectory p q = true ↔ front = front' := by
  rw [sameDirectory, Path.map_components_parent?, Path.map_components_parent?, hp, hq,
    Path.above_concat (by simp), Path.above_concat (by simp), beq_iff_eq, Option.some.injEq]

/-- **What is left out:** the requested path, the sheet of images and the alternatives. -/
theorem isOutput_iff (hname : (⟨lifter.settings.output⟩ : Path).fileName? = some name)
    (hdot : (⟨lifter.settings.output⟩ : Path).extension?.isSome = true ∨ '.' ∉ name) {p : Path} :
    lifter.isOutput p = true ↔
      p.same (lifter.root.join lifter.settings.output) = true ∨
      p.same (lifter.root.join Outputs.assetsFileName) = true ∨ lifter.IsAlternative p := by
  have hrequested := Path.components_join_parent lifter.root hname
  have hassets := Path.components_join_name lifter.root
    (by decide : Path.IsFileName Outputs.assetsFileName) (by decide)
  -- the requested path has the stem and the extension of the name, wherever it lies
  have hfile : (lifter.root.join lifter.settings.output).fileName? =
      (⟨lifter.settings.output⟩ : Path).fileName? := by
    rw [Path.fileName?_of_components hrequested, hname]
  have hstem : (lifter.root.join lifter.settings.output).fileStem? =
      (⟨lifter.settings.output⟩ : Path).fileStem? := by
    rw [Path.fileStem?, Path.fileStem?, hfile]
  have hextension : (lifter.root.join lifter.settings.output).extension? =
      (⟨lifter.settings.output⟩ : Path).extension? := by
    rw [Path.extension?, Path.extension?, hfile]
  constructor
  · intro h
    rw [isOutput] at h
    split at h
    · cases h
    · rename_i s hs
      obtain ⟨front, hp⟩ := Path.exists_components_of_fileName? hs
      cases hsplit : splitName s with
      | mk stem extension =>
        simp only [hsplit, Bool.or_eq_true, Bool.and_eq_true, beq_iff_eq, hstem, hextension] at h
        rcases h with (hsame | hsame) | ⟨⟨hdir, rfl⟩, hnumbered⟩
        · exact Or.inl hsame
        · exact Or.inr (Or.inl hsame)
        · obtain rfl := (sameDirectory_iff hp hrequested).1 hdir
          obtain ⟨digits, hne, hdigits, rfl⟩ := isNumberedStem_iff.1 hnumbered
          obtain rfl := eq_append_of_splitName hsplit
          exact Or.inr (Or.inr ⟨digits, hne, hdigits, hp⟩)
  · rintro (hsame | hsame | ⟨digits, hne, hdigits, hp⟩)
    · have hp := (beq_iff_eq.1 hsame).trans hrequested
      rw [isOutput, Path.fileName?_of_components hp]
      simp [hsame]
    · have hp := (beq_iff_eq.1 hsame).trans hassets
      rw [isOutput, Path.fileName?_of_components hp]
      simp [hsame]
    · have hfree : '.' ∉ digits := fun hmem => absurd (hdigits _ hmem) (by decide)
      have hnumbered : isNumberedStem ((⟨lifter.settings.output⟩ : Path).fileStem?.getD [])
          ((⟨lifter.settings.output⟩ : Path).fileStem?.getD [] ++ '-' :: digits) = true :=
        isNumberedStem_iff.2 ⟨digits, hne, hdigits, rfl⟩
      rw [isOutput, Path.fileName?_of_components hp]
      dsimp only
      rw [splitName_alternativeName hname hdot hfree, hstem, hextension,
        (sameDirectory_iff hp hrequested).2 rfl, hnumbered, beq_self_eq_true, Bool.and_self,
        Bool.and_self, Bool.or_true]

theorem isOutput_requested (hname : (⟨lifter.settings.output⟩ : Path).fileName? = some name)
    (hdot : (⟨lifter.settings.output⟩ : Path).extension?.isSome = true ∨ '.' ∉ name) :
    lifter.isOutput (lifter.root.join lifter.settings.output) = true :=
  (isOutput_iff hname hdot).2 (Or.inl (beq_self_eq_true _))

theorem isOutput_numbered (hname : (⟨lifter.settings.output⟩ : Path).fileName? = some name)
    (hdot : (⟨lifter.settings.output⟩ : Path).extension?.isSome = true ∨ '.' ∉ name) (n : Nat) :
    lifter.isOutput (Outputs.numbered lifter.root lifter.settings.output n) = true :=
  (isOutput_iff hname hdot).2 (Or.inr (Or.inr (lifter.isAlternative_numbered n)))

/-- **The path of the sheet is left out,** whatever number it got. -/
theorem isOutput_availablePath
    (hname : (⟨lifter.settings.output⟩ : Path).fileName? = some name)
    (hdot : (⟨lifter.settings.output⟩ : Path).extension?.isSome = true ∨ '.' ∉ name)
    (disk : Disk) :
    lifter.isOutput (Outputs.availablePath disk lifter.root lifter.settings.output) = true := by
  rcases Outputs.availablePath_cases disk lifter.root lifter.settings.output with
    hpath | ⟨n, hpath⟩
  · rw [hpath]
    exact isOutput_requested hname hdot
  · rw [hpath]
    exact isOutput_numbered hname hdot n

/-- What a scan returns is not left out, and goes down from the root by names. -/
theorem exists_of_mem_files {disk : Disk} {paths : List Path} (h : lifter.files disk = .ok paths)
    {p : Path} (hp : p ∈ paths) :
    lifter.isOutput p = false ∧ ∃ base names, disk.locate lifter.root = .ok base ∧
      names ∈ disk.filesBelow base ∧ p = lifter.root.below names := by
  obtain ⟨base, wanted, unwanted, hroot, -, -, rfl⟩ := exists_of_scan h
  obtain ⟨hmem, hselected⟩ := List.mem_filter.1 hp
  obtain ⟨names, hnames, rfl⟩ := List.mem_map.1 hmem
  simp only [Bool.and_eq_true, Bool.not_eq_true'] at hselected
  exact ⟨hselected.1.1, base, names, hroot, hnames, rfl⟩

end Lifter

/-- The path of the sheet goes down from the root. -/
theorem IsBelow.availablePath {root : Path} (hroot : root.text ≠ []) {output : Text}
    (hrelative : output.head? ≠ some '/') (hup : ['.', '.'] ∉ Text.pieces '/' output)
    (disk : Disk) :
    ∃ names, IsBelow root names (Outputs.availablePath disk root output) := by
  rcases Outputs.availablePath_cases disk root output with hpath | ⟨n, hpath⟩
  · rw [hpath]
    exact ⟨_, (IsBelow.refl hroot).join hrelative hup⟩
  · have hparent : ((⟨output⟩ : Path).parent?.getD ⟨[]⟩).text.head? ≠ some '/' ∧
        ['.', '.'] ∉ Text.pieces '/' ((⟨output⟩ : Path).parent?.getD ⟨[]⟩).text := by
      cases hparent : (⟨output⟩ : Path).parent? with
      | none => decide
      | some parent =>
        refine ⟨fun hhead => ?_, fun hmem => ?_⟩
        · have hmap := (⟨output⟩ : Path).map_components_parent?
          rw [hparent, Option.map_some, Path.above] at hmap
          split_ifs at hmap
          have hmem : .root ∈ parent.components :=
            Path.root_mem_components_iff.2 (by simpa [Path.isAbsolute] using hhead)
          rw [Option.some.inj hmap] at hmem
          have habsolute := Path.root_mem_components_iff.1 (List.dropLast_subset _ hmem)
          exact hrelative (by simpa [Path.isAbsolute] using habsolute)
        · rcases Path.mem_pieces_parent? hparent hmem with hnil | hmem
          · cases hnil
          · exact hup hmem
    rw [hpath, Outputs.numbered]
    exact ⟨_, ((IsBelow.refl hroot).join hparent.1 hparent.2).join_name
      (Outputs.isFileName_numberedName output n) (Outputs.slash_notMem_numberedName output n)⟩

namespace Lifter

/-- **The sheet is never scanned.**  Where the settings name the sheet by a relative path without
`..`, with an extension or without a dot, just these paths are recognised as outputs: the requested
one, the sheet of images, and those that lie where the sheet was requested, by its stem, a hyphen,
digits and its extension.  Every numbered alternative is among them, and so is the path that the
sheet gets on any disk.  Hence no scan of the same directory for the same sheet, on whatever disk
and with whatever globs, returns this path, nor a path that leads to the same file. -/
theorem sheet_never_scanned (lifter : Lifter) {name : Text}
    (hrelative : lifter.settings.output.head? ≠ some '/')
    (hup : ['.', '.'] ∉ Text.pieces '/' lifter.settings.output)
    (hname : (⟨lifter.settings.output⟩ : Path).fileName? = some name)
    (hdot : (⟨lifter.settings.output⟩ : Path).extension?.isSome = true ∨ '.' ∉ name) :
    (∀ p, lifter.isOutput p = true ↔
      p.same (lifter.root.join lifter.settings.output) = true ∨
      p.same (lifter.root.join Outputs.assetsFileName) = true ∨ lifter.IsAlternative p) ∧
    lifter.isOutput (lifter.root.join lifter.settings.output) = true ∧
    (∀ n, lifter.isOutput (Outputs.numbered lifter.root lifter.settings.output n) = true) ∧
    ∀ disk sheet, Outputs.availablePath disk lifter.root lifter.settings.output = sheet →
      lifter.isOutput sheet = true ∧
      ∀ later paths, lifter.files later = .ok paths →
        (∀ p ∈ paths, p.same sheet = false) ∧
        (later.IsTree → ∀ p ∈ paths, later.Apart p sheet) := by
  refine ⟨fun p => isOutput_iff hname hdot, isOutput_requested hname hdot,
    isOutput_numbered hname hdot, ?_⟩
  rintro disk sheet rfl
  have hsheet := isOutput_availablePath hname hdot disk
  have hother : ∀ later paths, lifter.files later = .ok paths → ∀ p ∈ paths,
      p.components ≠
        (Outputs.availablePath disk lifter.root lifter.settings.output).components := by
    intro later paths hfiles p hp heq
    have hleft := (exists_of_mem_files hfiles hp).1
    rw [isOutput_congr heq, hsheet] at hleft
    cases hleft
  refine ⟨hsheet, fun later paths hfiles => ⟨fun p hp => ?_, fun htree p hp target => ?_⟩⟩
  · simpa [Path.same] using hother later paths hfiles p hp
  · intro hlocate hlocate'
    obtain ⟨-, base, names, hroot, hnames, rfl⟩ := exists_of_mem_files hfiles hp
    have hne : lifter.root.text ≠ [] := by
      intro hempty
      have hparts := (Disk.locate_eq_ok_iff.1 hroot).1
      rw [Disk.partsOf, hempty] at hparts
      cases hparts
    have hproper : ∀ name ∈ names, Path.IsFileName name ∧ '/' ∉ name := fun name hmem =>
      htree.isFileName _ (Disk.mem_of_mem_filesBelow hnames) name (List.mem_append_right _ hmem)
    obtain ⟨names', hbelow⟩ := IsBelow.availablePath hne hrelative hup disk
    exact hother later paths hfiles _ hp
      ((IsBelow.of_names hne hproper).components_eq_of_locate hbelow hlocate hlocate')

/-- A run whose sheet lies in a folder, by a name with two dots and a way with a `.` in it. -/
def nested : Lifter where
  root := .ofString "/p"
  settings := Outputs.allOutputs "styles/./vars.v1.css"

/-- A disk with a source and with sheets of such runs. -/
def nestedDisk (sheets : List String) : Disk where
  nodes := [
    (["p".toList], .directory),
    (["p".toList, "styles".toList], .directory),
    (["p".toList, "styles".toList, "a.css".toList], .file (Disk.encode "x".toList))] ++
    sheets.map fun sheet =>
      (["p".toList, "styles".toList, sheet.toList], .file (Disk.encode "y".toList))

/-- The disk before a third run. -/
def twoSheets : Disk := nestedDisk ["vars.v1-1.css", "vars.v1.css"]

/-- The disk after a third run. -/
def threeSheets : Disk := nestedDisk ["vars.v1-1.css", "vars.v1-2.css", "vars.v1.css"]

theorem files_threeSheets :
    nested.files threeSheets = .ok [.ofString "/p/styles/a.css"] := by
  have hbelow : threeSheets.filesBelow ["p".toList] =
      [["styles".toList, "a.css".toList], ["styles".toList, "vars.v1-1.css".toList],
        ["styles".toList, "vars.v1-2.css".toList], ["styles".toList, "vars.v1.css".toList]] :=
    List.mergeSort_of_pairwise (by decide)
  have hpaths : threeSheets.filePaths nested.root =
      .ok ((threeSheets.filesBelow ["p".toList]).map nested.root.below) := rfl
  rw [hbelow] at hpaths
  rw [files, scan_of_filePaths hpaths]
  decide +kernel

/-- The third sheet gets the number two, and a scan finds it no more than the other two. -/
theorem third_sheet_not_scanned :
    Outputs.availablePath twoSheets nested.root nested.settings.output =
      .ofString "/p/styles/vars.v1-2.css" ∧
    nested.isOutput (.ofString "/p/styles/vars.v1-2.css") = true ∧
    nested.files threeSheets = .ok [.ofString "/p/styles/a.css"] ∧
    threeSheets.Apart (.ofString "/p/styles/a.css") (.ofString "/p/styles/vars.v1-2.css") := by
  have hsheet : Outputs.availablePath twoSheets nested.root nested.settings.output =
      .ofString "/p/styles/vars.v1-2.css" := by decide +kernel
  have hname : (⟨nested.settings.output⟩ : Path).fileName? = some "vars.v1.css".toList := by
    decide +kernel
  obtain ⟨-, -, -, hnever⟩ := sheet_never_scanned nested (by decide +kernel) (by decide +kernel)
    hname (by decide +kernel)
  obtain ⟨houtput, hscan⟩ := hnever twoSheets _ hsheet
  obtain ⟨-, happart⟩ := hscan threeSheets _ files_threeSheets
  exact ⟨hsheet, houtput, files_threeSheets, happart (by decide +kernel) _ (by simp)⟩

-- a dot at the start belongs to the stem here, and starts an extension for the scan
example : (⟨".tokens".toList⟩ : Path).extension? = none ∧
    splitName (Outputs.numberedName ".tokens".toList 1) = ([], some "tokens-1".toList) := by
  decide +kernel

end Lifter

end StyleLift
