import StyleLift.Proofs.Disk.Places
import StyleLift.Proofs.Path.Names

/-!
# What writing changes

Making directories only adds directories where there was nothing, and writing a file changes one
place, which is no directory.  So after any number of writes every path still leads where it led,
and a file that is not the one that was written keeps its bytes.

* `Grows`: directories were added; `grows_makeDirectories`.
* `exists_of_write`: the place that a write changes, and that the path leads there.
* `Stores`: directories were added and then one file was written.  Paths keep their places
  (`Stores.keepsDirectories`), what was written is read back (`Stores.shows`, `Shows.readText`) and
  every other file stays (`Stores.shows_of_ne`, `Stores.hasFile_of_ne`).
-/

namespace StyleLift.Disk

/-! ## Adding directories -/

/-- Every place has what it had, or a directory where there was nothing. -/
structure Grows (before after : Disk) : Prop where
  cwd : after.cwd = before.cwd
  node : ∀ place, after.node? place = before.node? place ∨
    (before.node? place = none ∧ after.node? place = some .directory)

namespace Grows

variable {before middle after : Disk}

theorem refl (disk : Disk) : Grows disk disk := ⟨rfl, fun _ => Or.inl rfl⟩

/-- What is there stays. -/
theorem node?_eq_some (h : Grows before after) {place : Location} {node : Node}
    (hnode : before.node? place = some node) : after.node? place = some node := by
  rcases h.node place with heq | ⟨hnone, -⟩
  · rw [heq, hnode]
  · rw [hnode] at hnone
    cases hnone

theorem trans (h : Grows before middle) (h' : Grows middle after) : Grows before after := by
  refine ⟨h'.cwd.trans h.cwd, fun place => ?_⟩
  rcases h.node place with heq | ⟨hnone, hdir⟩
  · rw [← heq]
    exact h'.node place
  · exact Or.inr ⟨hnone, h'.node?_eq_some hdir⟩

theorem keepsDirectories (h : Grows before after) : KeepsDirectories before after :=
  ⟨h.cwd, fun _ hdir => h.node?_eq_some hdir⟩

theorem put_directory {disk : Disk} {place : Location} (hplace : place ≠ [])
    (hnone : disk.node? place = none) : Grows disk (disk.put place .directory) := by
  refine ⟨rfl, fun q => ?_⟩
  rw [node?_put hplace]
  by_cases hq : q = place
  · subst hq
    exact Or.inr ⟨hnone, if_pos rfl⟩
  · exact Or.inl (if_neg hq)

end Grows

theorem grows_of_makeDirectory {disk after : Disk} {p : Path}
    (h : disk.makeDirectory p = .ok after) : disk.Grows after := by
  obtain ⟨parts, -, h⟩ := exists_of_bind_eq_ok h
  obtain ⟨dir, -, h⟩ := exists_of_bind_eq_ok h
  obtain ⟨-, -, h⟩ := exists_of_bind_eq_ok h
  split at h
  · cases h
  · split_ifs at h
    split at h
    · cases h
    · rename_i hnone
      obtain rfl := Except.ok.inj h
      exact .put_directory (by simp) hnone

theorem grows_ensureDirectory (disk : Disk) (p : Path) : disk.Grows (disk.ensureDirectory p).1 := by
  rw [ensureDirectory]
  split
  · rename_i after hmake
    exact grows_of_makeDirectory hmake
  · exact .refl disk

theorem grows_makeDirectoriesFrom (fuel : Nat) (disk : Disk) (p : Path) :
    disk.Grows (makeDirectoriesFrom fuel disk p).1 := by
  induction fuel generalizing disk p with
  | zero => exact .refl disk
  | succ fuel ih =>
    rw [makeDirectoriesFrom]
    split
    · exact .refl disk
    · have hfirst := disk.grows_ensureDirectory p
      split
      · rename_i first parent hensure _
        rw [hensure] at hfirst
        have hparent := ih first parent
        split
        · rename_i above habove
          rw [habove] at hparent
          exact (hfirst.trans hparent).trans (grows_ensureDirectory above p)
        · exact hfirst.trans hparent
      · exact hfirst

/-- **Making directories only adds directories.** -/
theorem grows_makeDirectories (disk : Disk) (p : Path) : disk.Grows (disk.makeDirectories p).1 :=
  grows_makeDirectoriesFrom _ disk p

/-! ## Writing a file -/

/-- The last part and those before it, if a name stands last. -/
theorem lastPart_concat (before : List Text) {last : Text} (h : last ≠ []) :
    lastPart (before ++ [last]) = (before, some last, false) := by
  have hempty : last.isEmpty = false := by simpa using h
  simp [lastPart, hempty]

/-- A path that ends in a separator. -/
theorem lastPart_concat_nil (before : List Text) :
    ∃ front last?, lastPart (before ++ [[]]) = (front, last?, true) := by
  rw [lastPart]
  split
  · exact ⟨_, _, rfl⟩
  · exact ⟨_, _, by rw [List.getLast?_concat]; rfl⟩

theorem next?_of_isFileName {name : Text} (hname : Path.IsFileName name) (place : Location) :
    next? place name = if isTooLong name then none else some (place ++ [name]) := by
  have hcounts := hname.counts
  simp only [Path.counts, Bool.and_eq_true, bne_iff_ne, ne_eq] at hcounts
  have hempty : name.isEmpty = false := by simpa using hcounts.1
  simp [next?, hempty, hcounts.2, hname.not_up]

/-- A path that ends in a name leads to a place of this name. -/
theorem getLast?_of_locate {disk : Disk} {p : Path} {place : Location} {name : Text}
    (hlocate : disk.locate p = .ok place) (hname : Path.IsFileName name)
    (hlast : (Text.pieces '/' p.text).getLast? = some name) : place.getLast? = some name := by
  obtain ⟨-, hfollow⟩ := locate_eq_ok_iff.1 hlocate
  obtain ⟨front, hpieces⟩ := List.getLast?_eq_some_iff.1 hlast
  rw [hpieces] at hfollow
  obtain ⟨dir, -, hfollow⟩ := follow_append_eq_ok_iff.1 hfollow
  obtain ⟨-, next, hnext, hend⟩ := follow_cons_eq_ok_iff.1 hfollow
  obtain rfl := Except.ok.inj hend
  rw [next?_of_isFileName hname] at hnext
  split at hnext
  · cases hnext
  · obtain rfl := Option.some.inj hnext
    exact List.getLast?_concat

/-- **A write changes the place its path leads to**, which is no directory and is named by the
last part of the path. -/
theorem exists_of_write {disk after : Disk} {p : Path} {s : Text}
    (h : disk.write p s = .ok after) :
    ∃ dir name, Path.IsFileName name ∧ (Text.pieces '/' p.text).getLast? = some name ∧
      disk.locate p = .ok (dir ++ [name]) ∧ disk.node? (dir ++ [name]) ≠ some .directory ∧
      after = disk.put (dir ++ [name]) (.file (encode s)) := by
  obtain ⟨parts, hparts, h⟩ := exists_of_bind_eq_ok h
  obtain rfl := partsOf_eq_ok hparts
  obtain ⟨front, name, hpieces⟩ :=
    (List.eq_nil_or_concat' (Text.pieces '/' p.text)).resolve_left (Text.pieces_ne_nil _ _)
  rw [hpieces] at h
  by_cases hname : name = []
  · -- a separator at the end asks for a directory
    obtain ⟨before, last?, hlast⟩ := lastPart_concat_nil front
    rw [hname, hlast] at h
    obtain ⟨dir, -, h⟩ := exists_of_bind_eq_ok h
    obtain ⟨-, -, h⟩ := exists_of_bind_eq_ok h
    cases last? <;> cases h
  · rw [lastPart_concat front hname] at h
    obtain ⟨dir, hfollow, h⟩ := exists_of_bind_eq_ok h
    obtain ⟨u, hneed, h⟩ := exists_of_bind_eq_ok h
    simp only [Bool.false_or, Bool.or_eq_true, decide_eq_true_eq] at h
    split_ifs at h with hdots hlong
    rw [not_or] at hdots
    split at h
    · cases h
    · rename_i hnode
      obtain rfl := Except.ok.inj h
      have hfile : Path.IsFileName name := ⟨by simp [Path.counts, hname, hdots.1], hdots.2⟩
      refine ⟨dir, name, hfile, ?_, locate_eq_ok_iff.2 ⟨hparts, ?_⟩, hnode, rfl⟩
      · rw [hpieces, List.getLast?_concat]
      · rw [hpieces]
        refine follow_append_eq_ok_iff.2 ⟨dir, hfollow, follow_cons_eq_ok_iff.2 ?_⟩
        refine ⟨needDirectory_eq_ok_iff.1 hneed, dir ++ [name], ?_, rfl⟩
        rw [next?_of_isFileName hfile, if_neg hlong]

theorem KeepsDirectories.put_file {disk : Disk} {place : Location} (hplace : place ≠ [])
    (hnode : disk.node? place ≠ some .directory) (content : ByteArray) :
    KeepsDirectories disk (disk.put place (.file content)) := by
  refine ⟨rfl, fun q hdir => ?_⟩
  have hq : q ≠ place := by
    rintro rfl
    exact hnode hdir
  rw [node?_put hplace, if_neg hq, hdir]

/-! ## Reading what was written -/

theorem decode?_encode (s : Text) : decode? (encode s) = some s := by
  have hbytes : String.fromUTF8? (String.ofList s).toUTF8 = some (String.ofList s) :=
    dif_pos (String.ofList s).isValidUTF8
  rw [decode?, encode, hbytes, Option.map_some, String.toList_ofList]

/-- A path leads to a place at which a file with a text is found. -/
structure Shows (disk : Disk) (p : Path) (place : Location) (s : Text) : Prop where
  locate : disk.locate p = .ok place
  node : disk.node? place = some (.file (encode s))

theorem Shows.readText {disk : Disk} {p : Path} {place : Location} {s : Text}
    (h : disk.Shows p place s) : disk.readText p = .ok s := by
  simp [Disk.readText, read, stat_of_node? h.locate h.node, bind, Except.bind, decode?_encode]

/-- Directories were added and then a text was written to the place of a path. -/
structure Stores (before middle : Disk) (p : Path) (s : Text) (place : Location) (after : Disk) :
    Prop where
  grows : before.Grows middle
  locate : middle.locate p = .ok place
  /-- The last part of the path names the file. -/
  name : ∃ name, Path.IsFileName name ∧ (Text.pieces '/' p.text).getLast? = some name ∧
    place.getLast? = some name
  not_directory : middle.node? place ≠ some .directory
  eq_put : after = middle.put place (.file (encode s))

namespace Stores

variable {before middle after : Disk} {p : Path} {s : Text} {place : Location}

theorem of_write (hgrows : before.Grows middle) (h : middle.write p s = .ok after) :
    ∃ place, Stores before middle p s place after := by
  obtain ⟨dir, name, hfile, hlast, hlocate, hnode, heq⟩ := exists_of_write h
  exact ⟨dir ++ [name], hgrows, hlocate, ⟨name, hfile, hlast, List.getLast?_concat⟩, hnode, heq⟩

theorem ne_nil (h : Stores before middle p s place after) : place ≠ [] := by
  rintro rfl
  obtain ⟨name, -, -, hname⟩ := h.name
  cases hname

/-- Paths that end in different names are written to different places. -/
theorem place_ne {before' middle' after' : Disk} {q : Path} {t : Text} {other : Location}
    (h : Stores before middle p s place after) (h' : Stores before' middle' q t other after')
    (hne : (Text.pieces '/' p.text).getLast? ≠ (Text.pieces '/' q.text).getLast?) :
    place ≠ other := by
  rintro rfl
  obtain ⟨name, -, hp, hname⟩ := h.name
  obtain ⟨name', -, hq, hname'⟩ := h'.name
  exact hne (by rw [hp, hq, ← hname, hname'])

theorem keeps_middle (h : Stores before middle p s place after) :
    KeepsDirectories middle after := by
  rw [h.eq_put]
  exact .put_file h.ne_nil h.not_directory _

/-- **Every path keeps its place.** -/
theorem keepsDirectories (h : Stores before middle p s place after) :
    KeepsDirectories before after :=
  h.grows.keepsDirectories.trans h.keeps_middle

/-- **What was written is there.** -/
theorem shows (h : Stores before middle p s place after) : after.Shows p place s := by
  refine ⟨h.keeps_middle.locate h.locate, ?_⟩
  rw [h.eq_put, node?_put h.ne_nil, if_pos rfl]

theorem node?_of_ne (h : Stores before middle p s place after) {q : Location} (hq : q ≠ place)
    {node : Node} (hnode : before.node? q = some node) : after.node? q = some node := by
  rw [h.eq_put, node?_put h.ne_nil, if_neg hq]
  exact h.grows.node?_eq_some hnode

/-- **Every other file stays.** -/
theorem shows_of_ne (h : Stores before middle p s place after) {q : Path} {other : Location}
    {t : Text} (hshows : before.Shows q other t) (hne : other ≠ place) : after.Shows q other t :=
  ⟨h.keepsDirectories.locate hshows.locate, h.node?_of_ne hne hshows.node⟩

theorem hasFile_of_ne (h : Stores before middle p s place after) {q : Location}
    {content : ByteArray} (hfile : before.HasFile q content) (hne : q ≠ place) :
    after.HasFile q content :=
  ⟨h.node?_of_ne hne hfile.node, fun n hn => h.keepsDirectories.directory _ (hfile.above n hn)⟩

end Stores

end StyleLift.Disk
