import Mathlib.Data.List.Nodup
import Mathlib.Data.List.Perm.Subperm
import StyleLift.Proofs.Outputs.ReadBack

/-!
# The sheet takes a free place

The path of the sheet is one at which there is nothing: among one more alternatives than there are
files, one is free, since the files they would name are all different.  That there is nothing at a
path does not mean that nothing can be at the place it leads to once its directories have been
made: with `missing` not there, `missing/../notes.txt` names nothing, and `notes.txt` afterwards.
As long as the name of the sheet has no `..`, this cannot happen.

* `pathExists_availablePath`: nothing is at the path of the sheet.
* `Descends`: a path that has no `..` after a part that is there; `descends_availablePath`.
* `Descends.not_hasFile`: such a path, if nothing is there, does not lead to a file after directories
  have been added.
-/

namespace StyleLift

/-! ## Counting alternatives -/

namespace Outputs

theorem numberedName_injective (name : Text) : Function.Injective (numberedName name) := by
  intro m n h
  have hdigits : Text.decimal m = Text.decimal n := by simpa [numberedName] using h
  exact Text.decimal_injective hdigits

theorem isFileName_numberedName (name : Text) (n : Nat) :
    Path.IsFileName (numberedName name n) := by
  have hhyphen : '-' ∈ numberedName name n := by simp [numberedName]
  exact .of_mem hhyphen (by decide)

/-- Where an alternative exists, a file or directory has its name. -/
theorem mem_names_of_pathExists {disk : Disk} {dir : Path} {name : Text} {n : Nat}
    (h : disk.pathExists (numbered dir name n) = true) :
    numberedName name n ∈ disk.nodes.filterMap fun entry => entry.1.getLast? := by
  obtain ⟨place, node, hlocate, hnode⟩ := Disk.pathExists_iff.1 h
  have hlast := Disk.getLast?_of_locate hlocate (isFileName_numberedName name n)
    (getLast?_pieces_numbered dir name n)
  have hplace : place ≠ [] := by
    rintro rfl
    cases hlast
  have hlookup : disk.nodes.lookup place = some node := by
    rwa [Disk.node?, if_neg (by simpa using hplace)] at hnode
  obtain ⟨front, back, hsplit, -⟩ := List.lookup_eq_some_iff.1 hlookup
  refine List.mem_filterMap.2 ⟨(place, node), ?_, hlast⟩
  rw [hsplit]
  exact List.mem_append_right _ List.mem_cons_self

/-- One of the alternatives is free, since there are more of them than files and directories. -/
theorem exists_numbered_free (disk : Disk) (dir : Path) (name : Text) :
    ∃ n < disk.nodes.length + 1, disk.pathExists (numbered dir name (n + 1)) = false := by
  by_contra h
  have hall : ∀ n < disk.nodes.length + 1,
      disk.pathExists (numbered dir name (n + 1)) = true := by
    intro n hn
    by_contra hfree
    exact h ⟨n, hn, by simpa using hfree⟩
  have hnodup : ((List.range (disk.nodes.length + 1)).map fun n =>
      numberedName name (n + 1)).Nodup := by
    refine List.Nodup.map (fun m n hmn => ?_) List.nodup_range
    exact Nat.succ.inj (numberedName_injective name hmn)
  have hsub : ((List.range (disk.nodes.length + 1)).map fun n => numberedName name (n + 1)) ⊆
      disk.nodes.filterMap fun entry => entry.1.getLast? := by
    intro alternative hmem
    obtain ⟨n, hn, rfl⟩ := List.mem_map.1 hmem
    exact mem_names_of_pathExists (hall n (List.mem_range.1 hn))
  have hlength := (hnodup.subperm hsub).length_le
  have hnodes := List.length_filterMap_le (fun entry : Location × Node => entry.1.getLast?) disk.nodes
  rw [List.length_map, List.length_range] at hlength
  omega

/-- **There is nothing at the path of the sheet.** -/
theorem pathExists_availablePath (disk : Disk) (dir : Path) (name : Text) :
    disk.pathExists (availablePath disk dir name) = false := by
  rw [availablePath]
  split
  · rename_i hfree
    simpa using hfree
  · cases hfind : ((List.range (disk.nodes.length + 2)).map fun n => numbered dir name (n + 1)).find?
        fun p => !disk.pathExists p with
    | some p =>
      have hfree := List.find?_some hfind
      simpa using hfree
    | none =>
      obtain ⟨n, hn, hfree⟩ := exists_numbered_free disk dir name
      have htried := List.find?_eq_none.1 hfind (numbered dir name (n + 1))
        (List.mem_map_of_mem (List.mem_range.2 (Nat.lt_succ_of_lt hn)))
      exact absurd hfree (by simpa using htried)

end Outputs

/-! ## Paths that do not go up -/

namespace Disk

variable {disk : Disk} {p : Path}

/-- A path that has no `..` after some front that leads somewhere. -/
def Descends (disk : Disk) (p : Path) : Prop :=
  ∃ front tail base, Text.pieces '/' p.text = front ++ tail ∧
    disk.follow (disk.start p) front = .ok base ∧ ['.', '.'] ∉ tail

theorem Descends.of_locate {place : Location} (h : disk.locate p = .ok place) :
    disk.Descends p :=
  ⟨Text.pieces '/' p.text, [], place, (List.append_nil _).symm, (locate_eq_ok_iff.1 h).2,
    List.not_mem_nil⟩

/-- A separator at the end does not matter. -/
theorem Descends.exists_of_concat {front : List Text} (h : disk.Descends p)
    (hpieces : Text.pieces '/' p.text = front ∨ Text.pieces '/' p.text = front ++ [[]]) :
    ∃ lead tail base, front = lead ++ tail ∧ disk.follow (disk.start p) lead = .ok base ∧
      ['.', '.'] ∉ tail := by
  obtain ⟨lead, tail, base, hsplit, hfollow, hup⟩ := h
  rcases hpieces with hpieces | hpieces
  · exact ⟨lead, tail, base, hpieces.symm.trans hsplit, hfollow, hup⟩
  · rw [hpieces] at hsplit
    rcases List.eq_nil_or_concat' tail with rfl | ⟨tail, last, rfl⟩
    · rw [List.append_nil] at hsplit
      rw [← hsplit] at hfollow
      obtain ⟨middle, hfront, -⟩ := follow_append_eq_ok_iff.1 hfollow
      exact ⟨front, [], middle, (List.append_nil _).symm, hfront, List.not_mem_nil⟩
    · rw [← List.append_assoc] at hsplit
      refine ⟨lead, tail, base, (List.append_inj' hsplit rfl).1, hfollow, fun hmem => hup ?_⟩
      exact List.mem_append_left _ hmem

/-- A name without `..` may be joined. -/
theorem Descends.join (h : disk.Descends p) {other : Text}
    (hother : ['.', '.'] ∉ Text.pieces '/' other) : disk.Descends (p.join other) := by
  rcases p.pieces_join other with hpieces | ⟨front, hfront, hpieces, habsolute⟩
  · exact ⟨[], _, disk.start (p.join other), hpieces, rfl, hother⟩
  · obtain ⟨lead, tail, base, rfl, hfollow, hup⟩ := h.exists_of_concat hfront
    refine ⟨lead, tail ++ Text.pieces '/' other, base, ?_, ?_, ?_⟩
    · rw [hpieces, List.append_assoc]
    · rw [start, habsolute]
      exact hfollow
    · rw [List.mem_append, not_or]
      exact ⟨hup, hother⟩

/-- **Where there is nothing, adding directories does not make a path lead to a file**, if the path
does not go up. -/
theorem Descends.not_hasFile {middle : Disk} {place : Location} {content : ByteArray}
    (h : disk.Descends p) (hfree : disk.pathExists p = false) (hgrows : disk.Grows middle)
    (hlocate : middle.locate p = .ok place) (hnode : middle.node? place ≠ some .directory) :
    ¬ disk.HasFile place content := by
  intro hfile
  obtain ⟨front, tail, base, hpieces, hfront, hup⟩ := h
  obtain ⟨hparts, hfollow⟩ := locate_eq_ok_iff.1 hlocate
  rw [hgrows.keepsDirectories.start, hpieces] at hfollow
  obtain ⟨base', hfront', htail⟩ := follow_append_eq_ok_iff.1 hfollow
  obtain rfl : base = base' :=
    Except.ok.inj ((hgrows.keepsDirectories.follow hfront).symm.trans hfront')
  -- the tail passes only directories above the file, and those were there before
  have htail' : disk.follow base tail = .ok place := by
    refine follow_of_directories htail hup fun q hq hdir => ?_
    refine hfile.directory_of_isPrefixOf hq ?_
    rintro rfl
    exact hnode hdir
  have hbefore : disk.locate p = .ok place := by
    refine locate_eq_ok_iff.2 ⟨hparts, ?_⟩
    rw [hpieces]
    exact follow_append_eq_ok_iff.2 ⟨base, hfront, htail'⟩
  have hexists := pathExists_iff.2 ⟨place, _, hbefore, hfile.node⟩
  rw [hfree] at hexists
  cases hexists

end Disk

namespace Outputs

/-- The path of the sheet does not go up after its directory, unless its name does. -/
theorem descends_availablePath {disk : Disk} {dir : Path} {name : Text}
    (hdir : disk.Descends dir) (hname : ['.', '.'] ∉ Text.pieces '/' name) :
    disk.Descends (availablePath disk dir name) := by
  rcases availablePath_cases disk dir name with hpath | ⟨n, hpath⟩
  · rw [hpath]
    exact hdir.join hname
  · rw [hpath, numbered]
    have hparent : ['.', '.'] ∉ Text.pieces '/' ((⟨name⟩ : Path).parent?.getD ⟨[]⟩).text := by
      cases hparent : (⟨name⟩ : Path).parent? with
      | none => decide
      | some parent =>
        intro hmem
        rcases Path.mem_pieces_parent? hparent hmem with hnil | hmem
        · cases hnil
        · exact hname hmem
    have hnumbered : ['.', '.'] ∉ Text.pieces '/' (numberedName name n) := by
      rw [Text.pieces_of_notMem (slash_notMem_numberedName name n), List.mem_singleton]
      exact (isFileName_numberedName name n).not_up.symm
    exact (hdir.join hparent).join hnumbered

/-- A name with `..` can lead to a file that is there once its directories have been made. -/
example :
    let disk : Disk := ⟨[(["notes.txt".toList], .file (Disk.encode "x".toList))], []⟩
    let sheet := availablePath disk (.ofString "/") "missing/../notes.txt".toList
    sheet = .ofString "/missing/../notes.txt" ∧
      (writeFile sheet "y".toList disk).2.node? ["notes.txt".toList] =
        some (.file (Disk.encode "y".toList)) := by
  decide +kernel

end Outputs

end StyleLift
