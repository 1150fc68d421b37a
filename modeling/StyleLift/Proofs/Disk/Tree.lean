import Mathlib.Data.List.Induction
import StyleLift.Proofs.Disk.Writing
import StyleLift.Extraction

/-!
# Disks that are trees

The table of a disk is that of a file system if every place is in it once, by proper names, and
lies in a directory.  On such a disk a file that can be found can be written, since a path that
leads to a file ends in the name of this file.  And the files that a scan finds lie at different
places, although their paths are only texts that are put together from names.

* `IsTree`: the table of a file system.
* `IsTree.write_of_stat`: a file that is found can be written.
* `follow_join`, `locate_below`: where a path that is put together from names leads.
* `Apart`, `IsTree.pairwise_filePaths`: the files that a scan finds lie at different places.
-/

namespace StyleLift.Disk

/-- Every place is in the table once, by proper names, and lies in a directory. -/
structure IsTree (disk : Disk) : Prop where
  nodup : (disk.nodes.map Prod.fst).Nodup
  isFileName : ∀ place ∈ disk.nodes.map Prod.fst, ∀ name ∈ place, Path.IsFileName name ∧ '/' ∉ name
  above : ∀ place ∈ disk.nodes.map Prod.fst, disk.node? place.dropLast = some .directory

instance (name : Text) : Decidable (Path.IsFileName name) :=
  decidable_of_iff (Path.counts name = true ∧ name ≠ ['.', '.'])
    ⟨fun h => ⟨h.1, h.2⟩, fun h => ⟨h.counts, h.not_up⟩⟩

instance (disk : Disk) : Decidable disk.IsTree :=
  decidable_of_iff ((disk.nodes.map Prod.fst).Nodup ∧
      (∀ place ∈ disk.nodes.map Prod.fst, ∀ name ∈ place, Path.IsFileName name ∧ '/' ∉ name) ∧
      ∀ place ∈ disk.nodes.map Prod.fst, disk.node? place.dropLast = some .directory)
    ⟨fun h => ⟨h.1, h.2.1, h.2.2⟩, fun h => ⟨h.nodup, h.isFileName, h.above⟩⟩

variable {disk : Disk}

/-! ## Places of a tree -/

theorem mem_of_node? {place : Location} (hplace : place ≠ []) {node : Node}
    (h : disk.node? place = some node) : place ∈ disk.nodes.map Prod.fst := by
  rw [node?, if_neg (by simpa using hplace)] at h
  obtain ⟨front, back, hsplit, -⟩ := List.lookup_eq_some_iff.1 h
  rw [hsplit]
  simp

/-- A directory lies in a directory. -/
theorem IsTree.directory_dropLast (h : disk.IsTree) {place : Location}
    (hdir : disk.node? place = some .directory) :
    disk.node? place.dropLast = some .directory := by
  by_cases hplace : place = []
  · rw [hplace]
    rfl
  · exact h.above place (mem_of_node? hplace hdir)

theorem map_fst_putNode {place : Location} {node : Node} {nodes : List (Location × Node)}
    (h : place ∈ nodes.map Prod.fst) :
    (putNode place node nodes).map Prod.fst = nodes.map Prod.fst := by
  induction nodes with
  | nil => simp at h
  | cons entry rest ih =>
    obtain ⟨p, n⟩ := entry
    rw [putNode]
    split
    · rfl
    · rename_i hne
      rw [List.map_cons, List.map_cons, ih]
      exact (List.mem_cons.1 h).resolve_left (Ne.symm hne)

/-- A tree stays one when a file gets other bytes. -/
theorem IsTree.put_file (h : disk.IsTree) {place : Location} {old : ByteArray}
    (hold : disk.node? place = some (.file old)) (new : ByteArray) :
    (disk.put place (.file new)).IsTree := by
  have hplace : place ≠ [] := by
    rintro rfl
    cases hold
  have hplaces : (disk.put place (.file new)).nodes.map Prod.fst = disk.nodes.map Prod.fst :=
    map_fst_putNode (mem_of_node? hplace hold)
  refine ⟨by rw [hplaces]; exact h.nodup, by rw [hplaces]; exact h.isFileName, ?_⟩
  rw [hplaces]
  intro q hq
  have hdir := h.above q hq
  have hne : q.dropLast ≠ place := by
    intro heq
    rw [heq, hold] at hdir
    cases hdir
  rw [node?_put hplace, if_neg hne, hdir]

/-! ## Writing what can be found -/

/-- A path that leads to a file ends in the name of the file. -/
theorem IsTree.exists_name_of_stat (h : disk.IsTree) {p : Path} {content : ByteArray}
    (hstat : disk.stat p = .ok (.file content)) :
    ∃ front name dir, partsOf p = .ok (front ++ [name]) ∧ Path.IsFileName name ∧
      isTooLong name = false ∧ disk.follow (disk.start p) front = .ok dir ∧
      disk.node? dir = some .directory ∧ disk.locate p = .ok (dir ++ [name]) ∧
      disk.node? (dir ++ [name]) = some (.file content) := by
  obtain ⟨place, hlocate, hnode⟩ := exists_of_stat hstat
  obtain ⟨hparts, hfollow⟩ := locate_eq_ok_iff.1 hlocate
  obtain ⟨front, name, hpieces⟩ :=
    (List.eq_nil_or_concat' (Text.pieces '/' p.text)).resolve_left (Text.pieces_ne_nil _ _)
  rw [hpieces] at hparts hfollow
  obtain ⟨dir, hfront, hlast⟩ := follow_append_eq_ok_iff.1 hfollow
  obtain ⟨hdir, next, hnext, hend⟩ := follow_cons_eq_ok_iff.1 hlast
  obtain rfl := Except.ok.inj hend
  -- all other parts lead from a directory to a directory
  rw [next?] at hnext
  split_ifs at hnext with hhere hup hlong
  · obtain rfl := Option.some.inj hnext
    rw [hdir] at hnode
    cases hnode
  · obtain rfl := Option.some.inj hnext
    rw [h.directory_dropLast hdir] at hnode
    cases hnode
  · obtain rfl := Option.some.inj hnext
    simp only [Bool.or_eq_true, List.isEmpty_iff, decide_eq_true_eq, not_or] at hhere
    refine ⟨front, name, dir, hparts, ⟨?_, hup⟩, by simpa using hlong, hfront, hdir, hlocate, hnode⟩
    simp [Path.counts, hhere]

/-- **A file that is found can be written.** -/
theorem IsTree.write_of_stat (h : disk.IsTree) {p : Path} {content : ByteArray}
    (hstat : disk.stat p = .ok (.file content)) (s : Text) :
    ∃ place, disk.locate p = .ok place ∧ disk.node? place = some (.file content) ∧
      disk.write p s = .ok (disk.put place (.file (encode s))) := by
  obtain ⟨front, name, dir, hparts, hname, hlong, hfollow, hdir, hlocate, hnode⟩ :=
    h.exists_name_of_stat hstat
  refine ⟨dir ++ [name], hlocate, hnode, ?_⟩
  have hcounts := hname.counts
  simp only [Path.counts, Bool.and_eq_true, bne_iff_ne, ne_eq] at hcounts
  have hneed : disk.needDirectory dir = .ok () := needDirectory_eq_ok_iff.2 hdir
  simp [write, hparts, lastPart_concat front hcounts.1, hfollow, hneed, hcounts.2, hname.not_up,
    hlong, hnode, bind, Except.bind]

/-! ## Paths that are put together from names -/

/-- A path to which a name was joined leads from where the path leads to the place of this name. -/
theorem follow_join {p : Path} (hp : p.text ≠ []) {name : Text} (hname : Path.IsFileName name)
    (hslash : '/' ∉ name) {place : Location}
    (h : disk.follow (disk.start (p.join name)) (Text.pieces '/' (p.join name).text) = .ok place) :
    ∃ dir, disk.follow (disk.start p) (Text.pieces '/' p.text) = .ok dir ∧
      place = dir ++ [name] := by
  have hhead : name.head? ≠ some '/' := fun hslash' => hslash (List.mem_of_head? hslash')
  obtain ⟨front, hfront, hjoined, habsolute⟩ := Path.exists_pieces_join hp hhead
  have hstart : disk.start (p.join name) = disk.start p := by
    rw [start, start, habsolute]
  rw [hstart, hjoined, Text.pieces_of_notMem hslash] at h
  obtain ⟨dir, hdir, hlast⟩ := follow_append_eq_ok_iff.1 h
  obtain ⟨hnode, next, hnext, hend⟩ := follow_cons_eq_ok_iff.1 hlast
  obtain rfl := Except.ok.inj hend
  rw [next?_of_isFileName hname] at hnext
  split at hnext
  · cases hnext
  · refine ⟨dir, ?_, (Option.some.inj hnext).symm⟩
    rcases hfront with hfront | hfront
    · rwa [hfront]
    · rw [hfront]
      exact follow_append_eq_ok_iff.2 ⟨dir, hdir, follow_cons_eq_ok_iff.2 ⟨hnode, dir, rfl, rfl⟩⟩

theorem text_join_ne_nil (p : Path) {name : Text} (hname : name ≠ []) :
    (p.join name).text ≠ [] := by
  obtain ⟨s, hs⟩ := p.exists_text_join name
  rw [hs]
  simp [hname]

/-- **Names below a directory lead to the place of these names below it.** -/
theorem locate_below {root : Path} {base : Location} (hroot : disk.locate root = .ok base)
    {names : Location} (hnames : ∀ name ∈ names, Path.IsFileName name ∧ '/' ∉ name)
    {place : Location} (h : disk.locate (root.below names) = .ok place) :
    place = base ++ names := by
  have hne := text_ne_nil_of_locate hroot
  obtain ⟨-, hbase⟩ := locate_eq_ok_iff.1 hroot
  obtain ⟨-, hplace⟩ := locate_eq_ok_iff.1 h
  clear h hroot
  induction names using List.reverseRecOn generalizing place with
  | nil =>
    rw [List.append_nil]
    exact Except.ok.inj (hplace.symm.trans hbase)
  | append_singleton names name ih =>
    have hjoin : root.below (names ++ [name]) = (root.below names).join name :=
      List.foldl_concat ..
    have hname := hnames name (by simp)
    have hbelow : (root.below names).text ≠ [] := by
      rcases List.eq_nil_or_concat' names with rfl | ⟨front, last, rfl⟩
      · exact hne
      · have hlast : last ≠ [] := by
          have hcounts := (hnames last (by simp)).1.counts
          simp only [Path.counts, Bool.and_eq_true, bne_iff_ne, ne_eq] at hcounts
          exact hcounts.1
        rw [Path.below, List.foldl_concat]
        exact text_join_ne_nil _ hlast
    rw [hjoin] at hplace
    obtain ⟨dir, hdir, rfl⟩ := follow_join hbelow hname.1 hname.2 hplace
    rw [ih (fun n hn => hnames n (List.mem_append_left _ hn)) hdir, List.append_assoc]

/-! ## Scanning a tree -/

/-- The names behind a place. -/
theorem drop_eq_some_iff {base place names : Location} :
    (if base.isPrefixOf place then some (place.drop base.length) else none) = some names ↔
      place = base ++ names := by
  constructor
  · intro h
    split_ifs at h with hprefix
    obtain ⟨rest, rfl⟩ := List.isPrefixOf_iff_prefix.1 hprefix
    rw [List.drop_left] at h
    rw [Option.some.inj h]
  · rintro rfl
    rw [if_pos (List.isPrefixOf_iff_prefix.2 (List.prefix_append base names)), List.drop_left]

/-- **What is found below a place:** the files of the table, by the names behind it. -/
theorem mem_filesBelow_iff {base names : Location} :
    names ∈ disk.filesBelow base ↔ ∃ content, (base ++ names, .file content) ∈ disk.nodes := by
  rw [filesBelow, List.mem_mergeSort, List.mem_filterMap]
  constructor
  · rintro ⟨⟨place, node⟩, hmem, h⟩
    cases node with
    | directory => cases h
    | file content =>
      obtain rfl := drop_eq_some_iff.1 h
      exact ⟨content, hmem⟩
  · rintro ⟨content, hmem⟩
    exact ⟨_, hmem, drop_eq_some_iff.2 rfl⟩

/-- The directories of the table, by the names behind a place. -/
theorem mem_directoriesBelow_iff {base names : Location} :
    names ∈ disk.directoriesBelow base ↔ (base ++ names, .directory) ∈ disk.nodes := by
  rw [directoriesBelow, List.mem_filterMap]
  constructor
  · rintro ⟨⟨place, node⟩, hmem, h⟩
    cases node with
    | file content => cases h
    | directory =>
      obtain rfl := drop_eq_some_iff.1 h
      exact hmem
  · intro hmem
    exact ⟨_, hmem, drop_eq_some_iff.2 rfl⟩

/-- The names that lead to a file below a place. -/
theorem mem_of_mem_filesBelow {base names : Location} (h : names ∈ disk.filesBelow base) :
    base ++ names ∈ disk.nodes.map Prod.fst := by
  obtain ⟨content, hmem⟩ := mem_filesBelow_iff.1 h
  exact List.mem_map_of_mem hmem

theorem IsTree.isFileName_of_filesBelow (h : disk.IsTree) {base names : Location}
    (hnames : names ∈ disk.filesBelow base) :
    ∀ name ∈ names, Path.IsFileName name ∧ '/' ∉ name := fun name hname =>
  h.isFileName _ (mem_of_mem_filesBelow hnames) name (List.mem_append_right _ hname)

/-- A file is found below every place above it. -/
theorem mem_filesBelow_of_node? {base names : Location} (hnames : names ≠ [])
    {content : ByteArray} (h : disk.node? (base ++ names) = some (.file content)) :
    names ∈ disk.filesBelow base := by
  rw [node?, if_neg (by simp [hnames])] at h
  obtain ⟨front, back, hsplit, -⟩ := List.lookup_eq_some_iff.1 h
  exact mem_filesBelow_iff.2 ⟨content, by rw [hsplit]; simp⟩

theorem IsTree.nodup_filesBelow (h : disk.IsTree) (base : Location) :
    (disk.filesBelow base).Nodup := by
  rw [filesBelow, (List.mergeSort_perm _ _).nodup_iff, List.Nodup, List.pairwise_filterMap]
  refine (List.pairwise_map.1 h.nodup).imp ?_
  rintro ⟨place, node⟩ ⟨place', node'⟩ hne names hnames names' hnames' rfl
  cases node with
  | directory => cases hnames
  | file content =>
    cases node' with
    | directory => cases hnames'
    | file content' =>
      exact hne ((drop_eq_some_iff.1 hnames).trans (drop_eq_some_iff.1 hnames').symm)

/-- Two paths lead to no common place. -/
def Apart (disk : Disk) (p q : Path) : Prop :=
  ∀ place, disk.locate p = .ok place → disk.locate q ≠ .ok place

theorem Apart.symm {p q : Path} (h : disk.Apart p q) : disk.Apart q p :=
  fun place hq hp => h place hp hq

/-- **The files that are found lie at different places.** -/
theorem IsTree.pairwise_filePaths (h : disk.IsTree) {root : Path} {paths : List Path}
    (hpaths : disk.filePaths root = .ok paths) : paths.Pairwise disk.Apart := by
  obtain ⟨node, -, hpaths⟩ := exists_of_bind_eq_ok hpaths
  obtain ⟨base, hroot, hpaths⟩ := exists_of_bind_eq_ok hpaths
  obtain ⟨u, -, hpaths⟩ := exists_of_bind_eq_ok hpaths
  obtain rfl := Except.ok.inj hpaths
  rw [List.pairwise_map]
  refine (h.nodup_filesBelow base).imp_of_mem ?_
  intro names names' hmem hmem' hne place hplace hplace'
  have heq := locate_below hroot (h.isFileName_of_filesBelow hmem) hplace
  have heq' := locate_below hroot (h.isFileName_of_filesBelow hmem') hplace'
  exact hne (List.append_cancel_left (heq.symm.trans heq'))

end StyleLift.Disk
