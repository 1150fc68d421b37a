import StyleLift.Proofs.Disk.Tree
import StyleLift.Proofs.Text.ByteOrder

/-!
# Walking a tree

A file system is walked depth first: a directory comes before what lies in it, its entries come in
the order of their names, and what lies in an entry comes right after it.  Sorting only happens
within a directory, but on a tree the walk as a whole is in order too, since names are compared one
after the other.  So the table of the disk may be sorted all at once, and the order of its entries
does not matter.

* `entries`, `walk`: what lies right in a directory, and all that lies below a place.
* `IsRootedTree`: the table of a file system, which does not list the root.
* `Before`, `eq_of_pairwise_before`: the order of places, in which there is one list of them.
* `cons_mem_walk_iff`, `IsTree.mem_walk_iff`: a walk comes to all that is there.
* `IsTree.pairwise_before_walk`: **a walk is in order,** name by name.
* `IsRootedTree.filesBelow_eq_filter_walk`: **the files below a place are those of a walk.**
* `IsRootedTree.filesBelow_congr`: they depend only on the set of these files.
-/

namespace StyleLift.Disk

variable {disk : Disk} {place names : Location}

/-! ## The order of places -/

/-- One place comes before another: name by name, and names by their bytes. -/
def Before (names names' : Location) : Prop := List.Lex Text.ByteLt names names'

theorem Before.asymm {names names' : Location} (h : Before names names') :
    ¬ Before names' names :=
  List.lex_asymm Text.ByteLt.asymm h

theorem Before.ne {names names' : Location} (h : Before names names') : names ≠ names' := by
  rintro rfl
  exact h.asymm h

theorem before_of_placeLe {names names' : Location} (h : placeLe names names' = true)
    (hne : names ≠ names') : Before names names' := by
  induction names generalizing names' with
  | nil =>
    obtain ⟨name', names', rfl⟩ := List.exists_cons_of_ne_nil hne.symm
    exact .nil
  | cons name names ih =>
    cases names' with
    | nil => cases h
    | cons name' names' =>
      rw [placeLe] at h
      split_ifs at h with heq
      · subst heq
        exact .cons (ih h fun heq => hne (by rw [heq]))
      · exact .rel (Text.byteLt_of_le h heq)

theorem placeLe_total (names names' : Location) :
    (placeLe names names' || placeLe names' names) = true := by
  induction names generalizing names' with
  | nil => rfl
  | cons name names ih =>
    cases names' with
    | nil => rfl
    | cons name' names' =>
      rw [placeLe, placeLe]
      by_cases heq : name = name'
      · rw [if_pos heq, if_pos heq.symm]
        exact ih names'
      · rw [if_neg heq, if_neg (Ne.symm heq)]
        exact Text.le_total name name'

theorem placeLe_trans {a b c : Location} (hab : placeLe a b = true) (hbc : placeLe b c = true) :
    placeLe a c = true := by
  induction a generalizing b c with
  | nil => rfl
  | cons x a ih =>
    cases b with
    | nil => cases hab
    | cons y b =>
      cases c with
      | nil => cases hbc
      | cons z c =>
        rw [placeLe] at hab hbc ⊢
        by_cases hxy : x = y
        · subst hxy
          rw [if_pos rfl] at hab
          by_cases hxz : x = z
          · rw [if_pos hxz] at hbc ⊢
            exact ih hab hbc
          · rw [if_neg hxz] at hbc ⊢
            exact hbc
        · rw [if_neg hxy] at hab
          by_cases hyz : y = z
          · subst hyz
            rw [if_neg hxy]
            exact hab
          · rw [if_neg hyz] at hbc
            have hxz : x ≠ z := by
              rintro rfl
              exact (Text.byteLt_of_le hab hxy).asymm (Text.byteLt_of_le hbc hyz)
            rw [if_neg hxz]
            exact Text.le_trans hab hbc

/-- Sorting puts different things in strict order. -/
theorem pairwise_mergeSort_of_nodup {α : Type} {r : α → α → Bool} {strict : α → α → Prop}
    (trans : ∀ a b c, r a b = true → r b c = true → r a c = true)
    (total : ∀ a b, (r a b || r b a) = true) (hstrict : ∀ a b, r a b = true → a ≠ b → strict a b)
    {l : List α} (h : l.Nodup) : (l.mergeSort r).Pairwise strict := by
  have hnodup : (l.mergeSort r).Pairwise (· ≠ ·) := (List.mergeSort_perm l r).nodup_iff.2 h
  have hsorted := List.pairwise_mergeSort trans total l
  exact (hsorted.and hnodup).imp fun hab => hstrict _ _ hab.1 hab.2

/-- Places that are in order are determined by the set of them. -/
theorem eq_of_pairwise_before {l l' : List Location} (h : l.Pairwise Before)
    (h' : l'.Pairwise Before) (hmem : ∀ names, names ∈ l ↔ names ∈ l') : l = l' := by
  have hperm : l.Perm l' :=
    (List.perm_ext_iff_of_nodup (h.imp Before.ne) (h'.imp Before.ne)).2 hmem
  exact hperm.eq_of_pairwise (fun _ _ _ _ hab hba => absurd hba hab.asymm) h h'

/-! ## Walks -/

/-- The names of what lies right in a place, in order. -/
def entries (disk : Disk) (place : Location) : List Text :=
  ((disk.nodes.map Prod.fst).filterMap fun q =>
    if q.dropLast = place then q.getLast? else none).mergeSort Text.le

/-- The greatest length of a place in the table. -/
def depth (disk : Disk) : Nat :=
  ((disk.nodes.map Prod.fst).map List.length).max?.getD 0

theorem mem_entries_iff {name : Text} :
    name ∈ disk.entries place ↔ place ++ [name] ∈ disk.nodes.map Prod.fst := by
  rw [entries, List.mem_mergeSort, List.mem_filterMap]
  constructor
  · rintro ⟨q, hq, h⟩
    split_ifs at h with hplace
    rw [← hplace, List.dropLast_append_getLast? name h]
    exact hq
  · intro h
    exact ⟨_, h, by simp⟩

theorem length_le_depth (h : place ∈ disk.nodes.map Prod.fst) : place.length ≤ disk.depth :=
  List.le_max?_getD_of_mem (List.mem_map_of_mem h)

/-- All that is at or below a place, depth first, each by the names that lead to it from there. -/
def walk (disk : Disk) (place : Location) : List Location :=
  match disk.node? place with
  | none => []
  | some (.file _) => [[]]
  | some .directory =>
    [] :: (disk.entries place).attach.flatMap fun ⟨name, _⟩ =>
      (disk.walk (place ++ [name])).map (name :: ·)
termination_by disk.depth - place.length
decreasing_by
  rename_i hname
  have hlength := length_le_depth (mem_entries_iff.1 hname)
  rw [List.length_append, List.length_singleton] at hlength ⊢
  omega

theorem walk_of_directory (h : disk.node? place = some .directory) :
    disk.walk place = [] :: (disk.entries place).flatMap fun name =>
      (disk.walk (place ++ [name])).map (name :: ·) := by
  rw [walk, h]
  dsimp only
  rw [List.flatMap_subtype (g := fun name => (disk.walk (place ++ [name])).map (name :: ·))
    fun _ _ => rfl, List.unattach_attach]

/-- What lies below a place lies in a directory. -/
theorem IsTree.directory_of_append (h : disk.IsTree) (hne : names ≠ [])
    (hnode : (disk.node? (place ++ names)).isSome = true) :
    disk.node? place = some .directory := by
  induction names using List.reverseRecOn with
  | nil => exact absurd rfl hne
  | append_singleton names name ih =>
    obtain ⟨node, hnode⟩ := Option.isSome_iff_exists.1 hnode
    have hdir := h.above _ (mem_of_node? (by simp) hnode)
    rw [← List.append_assoc, List.dropLast_concat] at hdir
    by_cases hnames : names = []
    · rw [hnames, List.append_nil] at hdir
      exact hdir
    · exact ih hnames (by rw [hdir]; rfl)

/-- A walk comes to more than a place itself only through the entries of a directory. -/
theorem cons_mem_walk_iff {name : Text} :
    name :: names ∈ disk.walk place ↔
      disk.node? place = some .directory ∧ name ∈ disk.entries place ∧
        names ∈ disk.walk (place ++ [name]) := by
  cases hnode : disk.node? place with
  | none =>
    rw [walk, hnode]
    simp
  | some node =>
    cases node with
    | file content =>
      rw [walk, hnode]
      simp
    | directory =>
      rw [walk_of_directory hnode]
      simp

/-- **A walk comes to all that is there.** -/
theorem IsTree.mem_walk_iff (h : disk.IsTree) :
    names ∈ disk.walk place ↔ (disk.node? (place ++ names)).isSome = true := by
  induction names generalizing place with
  | nil =>
    rw [List.append_nil, walk]
    split <;> simp [*]
  | cons name names ih =>
    rw [cons_mem_walk_iff, ih, List.append_assoc, List.singleton_append]
    constructor
    · exact fun hwalk => hwalk.2.2
    · intro hnode
      have hname : (disk.node? (place ++ [name])).isSome = true := by
        by_cases hnames : names = []
        · rwa [hnames] at hnode
        · rw [List.append_cons] at hnode
          rw [h.directory_of_append hnames hnode]
          rfl
      obtain ⟨node, hname⟩ := Option.isSome_iff_exists.1 hname
      exact ⟨h.directory_of_append (List.cons_ne_nil name names) hnode,
        mem_entries_iff.2 (mem_of_node? (by simp) hname), hnode⟩

/-- The entries of a directory are in order. -/
theorem IsTree.pairwise_entries (h : disk.IsTree) (place : Location) :
    (disk.entries place).Pairwise Text.ByteLt := by
  refine pairwise_mergeSort_of_nodup (r := Text.le) (fun _ _ _ => Text.le_trans) Text.le_total
    (fun _ _ => Text.byteLt_of_le) ?_
  rw [List.Nodup, List.pairwise_filterMap]
  refine h.nodup.imp ?_
  rintro q q' hne name hname name' hname' rfl
  split_ifs at hname hname' with hq hq'
  refine hne ?_
  rw [← List.dropLast_append_getLast? name hname, ← List.dropLast_append_getLast? name hname', hq,
    hq']

/-- **A walk is in order,** name by name. -/
theorem IsTree.pairwise_before_walk (h : disk.IsTree) (place : Location) :
    (disk.walk place).Pairwise Before := by
  induction place using walk.induct disk with
  | case1 place hnode =>
    rw [walk, hnode]
    exact .nil
  | case2 place content hnode =>
    rw [walk, hnode]
    exact List.pairwise_singleton _ _
  | case3 place hnode ih =>
    rw [walk_of_directory hnode, List.pairwise_cons, List.pairwise_flatMap]
    refine ⟨?_, ?_, ?_⟩
    · intro names hnames
      obtain ⟨name, -, hnames⟩ := List.mem_flatMap.1 hnames
      obtain ⟨rest, -, rfl⟩ := List.mem_map.1 hnames
      exact .nil
    · intro name hname
      rw [List.pairwise_map]
      exact (ih name hname).imp .cons
    · refine (h.pairwise_entries place).imp ?_
      intro name name' hlt names hnames names' hnames'
      obtain ⟨rest, -, rfl⟩ := List.mem_map.1 hnames
      obtain ⟨rest', -, rfl⟩ := List.mem_map.1 hnames'
      exact .rel hlt

/-! ## Files -/

/-- The table of a file system, which does not list the root. -/
structure IsRootedTree (disk : Disk) : Prop extends disk.IsTree where
  root_notMem : [] ∉ disk.nodes.map Prod.fst

instance (disk : Disk) : Decidable disk.IsRootedTree :=
  decidable_of_iff (disk.IsTree ∧ [] ∉ disk.nodes.map Prod.fst)
    ⟨fun h => ⟨h.1, h.2⟩, fun h => ⟨h.toIsTree, h.root_notMem⟩⟩

theorem isFileAt_iff :
    disk.isFileAt place = true ↔ ∃ content, disk.node? place = some (.file content) := by
  rw [isFileAt]
  split <;> simp_all

/-- The table lists just what is found, but for the root. -/
theorem IsRootedTree.mem_nodes_iff (h : disk.IsRootedTree) {node : Node} :
    (place, node) ∈ disk.nodes ↔ place ≠ [] ∧ disk.node? place = some node := by
  constructor
  · intro hmem
    have hplace : place ≠ [] := by
      rintro rfl
      exact h.root_notMem (List.mem_map_of_mem hmem)
    refine ⟨hplace, ?_⟩
    obtain ⟨front, back, hsplit⟩ := List.append_of_mem hmem
    rw [node?, if_neg (by simpa using hplace), List.lookup_eq_some_iff]
    refine ⟨front, back, hsplit, fun entry hentry => bne_iff_ne.2 ?_⟩
    -- every place is listed once
    have hnodup := h.nodup
    rw [hsplit, List.map_append, List.map_cons, List.nodup_append] at hnodup
    exact Ne.symm (hnodup.2.2 _ (List.mem_map_of_mem hentry) _ List.mem_cons_self)
  · rintro ⟨hplace, hnode⟩
    rw [node?, if_neg (by simpa using hplace)] at hnode
    obtain ⟨front, back, hsplit, -⟩ := List.lookup_eq_some_iff.1 hnode
    rw [hsplit]
    simp

/-- **The files below a place** are those that are found there. -/
theorem IsRootedTree.mem_filesBelow_iff_isFileAt (h : disk.IsRootedTree) :
    names ∈ disk.filesBelow place ↔ disk.isFileAt (place ++ names) = true := by
  rw [mem_filesBelow_iff, isFileAt_iff]
  simp only [h.mem_nodes_iff]
  constructor
  · rintro ⟨content, -, hnode⟩
    exact ⟨content, hnode⟩
  · rintro ⟨content, hnode⟩
    refine ⟨content, fun hplace => ?_, hnode⟩
    -- the root is a directory
    rw [hplace] at hnode
    cases hnode

theorem IsTree.pairwise_before_filesBelow (h : disk.IsTree) (place : Location) :
    (disk.filesBelow place).Pairwise Before :=
  pairwise_mergeSort_of_nodup (r := placeLe) (fun _ _ _ => placeLe_trans) placeLe_total
    (fun _ _ => before_of_placeLe)
    ((List.mergeSort_perm _ _).nodup_iff.1 (h.nodup_filesBelow place))

/-- **The files below a place are those that a walk comes to,** in this order. -/
theorem IsRootedTree.filesBelow_eq_filter_walk (h : disk.IsRootedTree) (place : Location) :
    disk.filesBelow place =
      (disk.walk place).filter fun names => disk.isFileAt (place ++ names) := by
  refine eq_of_pairwise_before (h.pairwise_before_filesBelow place)
    ((h.pairwise_before_walk place).filter _) fun names => ?_
  rw [h.mem_filesBelow_iff_isFileAt, List.mem_filter, h.mem_walk_iff, isFileAt_iff]
  constructor
  · rintro ⟨content, hnode⟩
    exact ⟨by rw [hnode]; rfl, content, hnode⟩
  · exact fun hfile => hfile.2

/-- **The files below a place depend only on the set of them.** -/
theorem IsRootedTree.filesBelow_congr {disk' : Disk} {place' : Location} (h : disk.IsRootedTree)
    (h' : disk'.IsRootedTree)
    (hfiles : ∀ names, disk'.isFileAt (place' ++ names) = disk.isFileAt (place ++ names)) :
    disk'.filesBelow place' = disk.filesBelow place := by
  refine eq_of_pairwise_before (h'.pairwise_before_filesBelow place')
    (h.pairwise_before_filesBelow place) fun names => ?_
  rw [h'.mem_filesBelow_iff_isFileAt, h.mem_filesBelow_iff_isFileAt, hfiles]

end StyleLift.Disk
