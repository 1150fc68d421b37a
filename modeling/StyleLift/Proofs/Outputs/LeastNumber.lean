import StyleLift.CommandLine.Report
import StyleLift.Proofs.Outputs.Available
import StyleLift.Proofs.Path.Components

/-!
# The sheet takes the least number

Where the requested path is taken, the sheet goes into the same folder under the name with a number
behind its stem.  Folder, stem and extension are not those of the path but are taken from the
requested name and put together again, so it has to be shown that they are the same: a name can be
nested, absolute, hidden or end in a separator.  The numbers are tried in order, and the search ends
after one more attempt than there are files, so the number is the least one that is free.

The name with a number is longer than the requested one.  This is how a report finds out that the
requested path was taken: it compares the two paths.

* `Path.IsCut`, `Path.isCut_fileName?`: how a file name is divided.
* `folder`, `components_numbered`: an alternative lies in the folder of the requested path.
* `exists_least_of_exists`: the least number that is free.
* `availablePath_same_iff`: the requested path is taken exactly if another one is returned.
* `availablePath_least`: **the path of the sheet is free, and its number is the least.**
-/

namespace StyleLift

/-! ## Dividing a file name -/

namespace Path

/-- A file name divided at its last dot.  A dot at the start does not count, and where no other is
there, the suffix is empty. -/
structure IsCut (file stem suffix : Text) : Prop where
  file_eq : file = stem ++ suffix
  at_dot : suffix = [] ∧ '.' ∉ file.drop 1 ∨ stem ≠ [] ∧ ∃ e, suffix = '.' :: e ∧ '.' ∉ e

/-- **Stem and extension divide the file name.** -/
theorem isCut_fileName? {p : Path} {file : Text} (h : p.fileName? = some file) :
    IsCut file (p.fileStem?.getD []) ((p.extension?.map fun e => '.' :: e).getD []) := by
  rw [fileStem?, extension?, h, Option.map_some, Option.bind_some]
  cases hsplit : Text.splitLast? '.' file with
  | none =>
    have hdot := Text.splitLast?_eq_none_iff.1 hsplit
    exact ⟨(List.append_nil file).symm, Or.inl ⟨rfl, fun hmem => hdot (List.mem_of_mem_drop hmem)⟩⟩
  | some cut =>
    obtain ⟨stem, e⟩ := cut
    obtain ⟨rfl, hdot⟩ := Text.eq_append_of_splitLast? hsplit
    dsimp only
    by_cases hstem : stem = []
    · subst hstem
      exact ⟨(List.append_nil _).symm, Or.inl ⟨rfl, hdot⟩⟩
    · rw [if_neg (by simpa using hstem), if_neg (by simpa using hstem)]
      exact ⟨rfl, Or.inr ⟨hstem, e, rfl, hdot⟩⟩

end Path

namespace Outputs

/-! ## The folder of the alternatives -/

/-- The folder in which the alternatives to a name lie. -/
def folder (dir : Path) (name : Text) : Path :=
  dir.join ((⟨name⟩ : Path).parent?.getD ⟨[]⟩).text

theorem components_numbered (dir : Path) (name : Text) (n : Nat) :
    (numbered dir name n).components =
      (folder dir name).components ++ [.name (numberedName name n)] :=
  (folder dir name).components_join_name (isFileName_numberedName name n)
    (slash_notMem_numberedName name n)

/-- A number makes a name longer. -/
theorem numberedName_ne {name file : Text} (h : (⟨name⟩ : Path).fileName? = some file) (n : Nat) :
    numberedName name n ≠ file := by
  intro heq
  have hlength := congrArg List.length (heq.trans (Path.isCut_fileName? h).file_eq)
  simp only [numberedName, List.length_append, List.length_cons] at hlength
  omega

/-! ## The search -/

/-- **The search ends at the least number that is free,** after at most one more attempt than there
are files and directories. -/
theorem exists_least_of_exists {disk : Disk} {dir : Path} {name : Text}
    (h : disk.pathExists (dir.join name) = true) :
    ∃ n, 1 ≤ n ∧ n ≤ disk.nodes.length + 1 ∧ availablePath disk dir name = numbered dir name n ∧
      ∀ m, 1 ≤ m → m < n → disk.pathExists (numbered dir name m) = true := by
  obtain ⟨k, hk, hfree⟩ := exists_numbered_free disk dir name
  cases hfind : (List.range (disk.nodes.length + 2)).find?
      ((fun p => !disk.pathExists p) ∘ fun n => numbered dir name (n + 1)) with
  | none =>
    have htried := List.find?_eq_none.1 hfind k (List.mem_range.2 (Nat.lt_succ_of_lt hk))
    simp [hfree] at htried
  | some n =>
    obtain ⟨-, -, hleast⟩ := List.find?_range_eq_some.1 hfind
    have hbefore : ∀ m < n, disk.pathExists (numbered dir name (m + 1)) = true := by
      intro m hm
      simpa using hleast m hm
    have hle : n ≤ k := by
      by_contra hlt
      rw [hbefore k (Nat.lt_of_not_le hlt)] at hfree
      cases hfree
    refine ⟨n + 1, Nat.le_add_left 1 n, by omega, ?_, ?_⟩
    · rw [availablePath, h, List.find?_map, hfind]
      rfl
    · intro m hm hlt
      obtain ⟨m, rfl⟩ := Nat.exists_eq_add_of_le' hm
      exact hbefore m (Nat.lt_of_succ_lt_succ hlt)

theorem availablePath_of_free {disk : Disk} {dir : Path} {name : Text}
    (h : disk.pathExists (dir.join name) = false) : availablePath disk dir name = dir.join name := by
  rw [availablePath, h]
  rfl

/-- **The requested path is returned exactly if it is free.** -/
theorem availablePath_same_iff (disk : Disk) (dir : Path) {name file : Text}
    (h : (⟨name⟩ : Path).fileName? = some file) :
    (availablePath disk dir name).same (dir.join name) = true ↔
      disk.pathExists (dir.join name) = false := by
  constructor
  · intro hsame
    rw [← Bool.not_eq_true]
    intro hexists
    obtain ⟨n, -, -, hpath, -⟩ := exists_least_of_exists hexists
    have hrequested := Path.fileName?_of_components (dir.components_join_parent h)
    have hnumbered := Path.fileName?_of_components (components_numbered dir name n)
    rw [hpath, Path.same_eq_false] at hsame
    · cases hsame
    · rw [hrequested, hnumbered]
      exact fun heq => numberedName_ne h n (Option.some.inj heq)
  · intro hfree
    rw [availablePath_of_free hfree, Path.same, beq_self_eq_true]

end Outputs

/-! ## What is reported -/

namespace CommandLine.RunReport

/-- The line that says what went into a sheet. -/
def newsLine (colour : Bool) (r : RunReport) (sheet : Path) : Text :=
  let label := if r.isPreset then "Extracted (preset) ".toList else "Extracted ".toList
  let news := label ++ counted r.summary.journal.plain.length "value" "values" ++
    " from ".toList ++ counted r.summary.filesModified "file" "files" ++ " into ".toList ++
    sheet.shown r.root
  line [styled colour .green successMark, " ".toList, styled colour .green news]

/-- The line that says that the requested path was taken. -/
def takenLine (colour : Bool) (r : RunReport) (sheet : Path) : Text :=
  line ["  ".toList, styled colour .bold "note:".toList, " ".toList, r.requested,
    " already exists, wrote ".toList, sheet.shown r.root, " instead".toList]

theorem sheetLines_of_sheet {colour : Bool} {r : RunReport} {sheet : Path}
    (h : r.summary.written.sheet = some sheet) :
    r.sheetLines colour = r.newsLine colour sheet ++
      if sheet.same (r.root.join r.requested) then [] else r.takenLine colour sheet := by
  rw [sheetLines, h]
  rfl

end CommandLine.RunReport

namespace Outputs

/-- **The path of the sheet is free, and its number is the least.**  The requested path is returned
if it is free.  Else the sheet goes into its folder, under its name with the least number from one on
behind the stem for which nothing is there.  The result is the requested path exactly if that was
free, and a report says that it exists already exactly if it was not. -/
theorem availablePath_least (disk : Disk) (dir : Path) {name file : Text}
    (h : (⟨name⟩ : Path).fileName? = some file) :
    disk.pathExists (availablePath disk dir name) = false ∧
    (disk.pathExists (dir.join name) = false → availablePath disk dir name = dir.join name) ∧
    (disk.pathExists (dir.join name) = true →
      ∃ (parent : Path) (stem suffix : Text) (n : Nat),
        (dir.join name).components = parent.components ++ [.name file] ∧
        Path.IsCut file stem suffix ∧ 1 ≤ n ∧ n ≤ disk.nodes.length + 1 ∧
        availablePath disk dir name = parent.join (stem ++ '-' :: Text.decimal n ++ suffix) ∧
        ∀ m, 1 ≤ m → m < n →
          disk.pathExists (parent.join (stem ++ '-' :: Text.decimal m ++ suffix)) = true) ∧
    ((availablePath disk dir name).same (dir.join name) = true ↔
      disk.pathExists (dir.join name) = false) ∧
    ∀ (colour : Bool) (r : CommandLine.RunReport), r.root = dir → r.requested = name →
      r.summary.written.sheet = some (availablePath disk dir name) →
      r.sheetLines colour = r.newsLine colour (availablePath disk dir name) ++
        if disk.pathExists (dir.join name) then r.takenLine colour (availablePath disk dir name)
        else [] := by
  have hsame := availablePath_same_iff disk dir h
  refine ⟨pathExists_availablePath disk dir name, availablePath_of_free, ?_, hsame, ?_⟩
  · intro hexists
    obtain ⟨n, hn, hbound, hpath, hleast⟩ := exists_least_of_exists hexists
    exact ⟨folder dir name, _, _, n, dir.components_join_parent h, Path.isCut_fileName? h, hn, hbound,
      hpath, hleast⟩
  · rintro colour r rfl rfl hsheet
    rw [CommandLine.RunReport.sheetLines_of_sheet hsheet]
    cases hexists : disk.pathExists (r.root.join r.requested) with
    | false => rw [if_pos (hsame.2 hexists), if_neg Bool.false_ne_true]
    | true => rw [if_neg (by rw [hsame, hexists]; exact nofun), if_pos rfl]

/-- A hidden name in a nested folder, of which the first number is taken as well, and what is said
about it. -/
theorem availablePath_least_hidden :
    let disk : Disk := ⟨[(["p".toList], .directory), (["p".toList, "s".toList], .directory),
      (["p".toList, "s".toList, ".v".toList], .file (Disk.encode [])),
      (["p".toList, "s".toList, ".v-1".toList], .directory)], []⟩
    let sheet := availablePath disk (.ofString "/p") "s/./.v".toList
    let report : CommandLine.RunReport := ⟨.ofString "/p", "s/./.v".toList, false, false,
      ⟨[], {}, ⟨some sheet, none, none, []⟩⟩⟩
    (⟨"s/./.v".toList⟩ : Path).fileName? = some ".v".toList ∧ sheet = .ofString "/p/s/.v-2" ∧
      disk.pathExists (.ofString "/p/s/./.v") = true ∧ disk.pathExists sheet = false ∧
      report.sheetLines false = report.newsLine false sheet ++
        "  note: s/./.v already exists, wrote s/.v-2 instead\n".toList := by
  intro disk sheet report
  have hfile : (⟨"s/./.v".toList⟩ : Path).fileName? = some ".v".toList := by decide +kernel
  have hsheet : sheet = .ofString "/p/s/.v-2" := by decide +kernel
  have hexists : disk.pathExists (.ofString "/p/s/./.v") = true := by decide +kernel
  obtain ⟨hfree, -, -, -, hreport⟩ := availablePath_least disk (.ofString "/p") hfile
  refine ⟨hfile, hsheet, hexists, hfree, (hreport false report rfl rfl rfl).trans ?_⟩
  decide +kernel

end Outputs

end StyleLift
