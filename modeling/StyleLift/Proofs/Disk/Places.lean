import Mathlib.Data.List.Basic
import StyleLift.Disk.Access

/-!
# Where paths lead

Following a path asks of the disk only which places are directories: whatever else happens to a
disk, a path leads to the same place as long as no directory disappears.  A path that never goes
up with `..` passes only places above the one it leads to; this is what makes it possible to say,
from the place alone, which directories were needed.

* `node?_put`: what is found after something was put at a place.
* `next?`, `follow_cons_eq_ok_iff`, `follow_append_eq_ok_iff`: one part, and many.
* `KeepsDirectories.locate`: paths keep their places.
* `isPrefixOf_of_follow`, `follow_of_directories`: parts without `..`.
* `HasFile`: a file that can be reached from the root.
-/

namespace StyleLift.Disk

/-! ## The table of files and directories -/

theorem lookup_putNode (place : Location) (node : Node) (nodes : List (Location × Node))
    (q : Location) :
    (putNode place node nodes).lookup q = if q = place then some node else nodes.lookup q := by
  induction nodes with
  | nil =>
    rw [putNode, List.lookup_cons]
    by_cases hq : q = place
    · simp [hq]
    · simp [hq, beq_false_of_ne hq]
  | cons entry rest ih =>
    obtain ⟨p, n⟩ := entry
    rw [putNode]
    by_cases hp : p = place
    · subst hp
      rw [if_pos rfl, List.lookup_cons, List.lookup_cons]
      by_cases hq : q = p
      · simp [hq]
      · simp [hq, beq_false_of_ne hq]
    · rw [if_neg hp, List.lookup_cons, List.lookup_cons, ih]
      by_cases hq : q = p
      · subst hq
        simp [hp]
      · simp [beq_false_of_ne hq]

/-- A place keeps what it has, unless something is put there. -/
theorem node?_put {place : Location} (hplace : place ≠ []) (disk : Disk) (node : Node)
    (q : Location) :
    (disk.put place node).node? q = if q = place then some node else disk.node? q := by
  cases q with
  | nil => simp [node?, hplace.symm]
  | cons name q =>
    rw [node?, node?]
    exact lookup_putNode place node disk.nodes (name :: q)

/-! ## Following a path -/

theorem exists_of_bind_eq_ok {ε α β : Type} {x : Except ε α} {f : α → Except ε β} {b : β}
    (h : x >>= f = .ok b) : ∃ a, x = .ok a ∧ f a = .ok b := by
  cases x with
  | error fault => cases h
  | ok a => exact ⟨a, rfl, h⟩

/-- A wrapped fault is no result. -/
theorem eq_ok_of_mapError {ε ε' α : Type} {x : Except ε α} {f : ε → ε'} {a : α}
    (h : x.mapError f = .ok a) : x = .ok a := by
  cases x with
  | error fault => cases h
  | ok b => rw [Except.ok.inj h]

theorem needDirectory_eq_ok_iff {disk : Disk} {place : Location} {u : Unit} :
    disk.needDirectory place = .ok u ↔ disk.node? place = some .directory := by
  rw [needDirectory]
  split <;> simp_all

/-- The place after one more part. -/
def next? (place : Location) (part : Text) : Option Location :=
  if part.isEmpty || part = ['.'] then some place
  else if part = ['.', '.'] then some place.dropLast
  else if isTooLong part then none
  else some (place ++ [part])

/-- A part can be followed only from a directory. -/
theorem follow_cons_eq_ok_iff {disk : Disk} {place target : Location} {part : Text}
    {rest : List Text} :
    disk.follow place (part :: rest) = .ok target ↔
      disk.node? place = some .directory ∧
        ∃ next, next? place part = some next ∧ disk.follow next rest = .ok target := by
  rw [follow, next?]
  cases hneed : disk.needDirectory place with
  | error fault =>
    have hnot : disk.node? place ≠ some .directory := by
      intro hdir
      rw [needDirectory_eq_ok_iff (u := ()) |>.2 hdir] at hneed
      cases hneed
    simp [bind, Except.bind, hnot]
  | ok u =>
    have hdir := needDirectory_eq_ok_iff.1 hneed
    simp only [bind, Except.bind, hdir, true_and]
    split
    · simp
    · split
      · simp
      · split <;> simp

/-- A list of parts is followed front first. -/
theorem follow_append_eq_ok_iff {disk : Disk} {place target : Location} {front tail : List Text} :
    disk.follow place (front ++ tail) = .ok target ↔
      ∃ middle, disk.follow place front = .ok middle ∧ disk.follow middle tail = .ok target := by
  induction front generalizing place with
  | nil => simp [follow]
  | cons part front ih =>
    rw [List.cons_append, follow_cons_eq_ok_iff]
    simp only [ih, follow_cons_eq_ok_iff]
    constructor
    · rintro ⟨hdir, next, hnext, middle, hfront, htail⟩
      exact ⟨middle, ⟨hdir, next, hnext, hfront⟩, htail⟩
    · rintro ⟨middle, ⟨hdir, next, hnext, hfront⟩, htail⟩
      exact ⟨hdir, next, hnext, middle, hfront, htail⟩

/-- The parts of a path, where it has any. -/
theorem partsOf_eq_ok {p : Path} {parts : List Text} (h : partsOf p = .ok parts) :
    parts = Text.pieces '/' p.text := by
  rw [partsOf] at h
  split at h
  · cases h
  · split at h
    · cases h
    · split at h
      · cases h
      · exact (Except.ok.inj h).symm

theorem locate_eq_ok_iff {disk : Disk} {p : Path} {place : Location} :
    disk.locate p = .ok place ↔
      partsOf p = .ok (Text.pieces '/' p.text) ∧
        disk.follow (disk.start p) (Text.pieces '/' p.text) = .ok place := by
  rw [locate]
  cases hparts : partsOf p with
  | error fault => simp [bind, Except.bind]
  | ok parts =>
    obtain rfl := partsOf_eq_ok hparts
    simp [bind, Except.bind]

/-- The empty path leads nowhere. -/
theorem text_ne_nil_of_locate {disk : Disk} {p : Path} {place : Location}
    (h : disk.locate p = .ok place) : p.text ≠ [] := by
  intro hempty
  have hparts := (locate_eq_ok_iff.1 h).1
  rw [partsOf, hempty] at hparts
  cases hparts

/-! ## Disks that keep their directories -/

/-- No directory disappears, and the working directory stays. -/
structure KeepsDirectories (before after : Disk) : Prop where
  cwd : after.cwd = before.cwd
  directory : ∀ place, before.node? place = some .directory → after.node? place = some .directory

namespace KeepsDirectories

variable {before middle after : Disk}

theorem refl (disk : Disk) : KeepsDirectories disk disk := ⟨rfl, fun _ h => h⟩

theorem trans (h : KeepsDirectories before middle) (h' : KeepsDirectories middle after) :
    KeepsDirectories before after :=
  ⟨h'.cwd.trans h.cwd, fun place hdir => h'.directory place (h.directory place hdir)⟩

theorem start (h : KeepsDirectories before after) (p : Path) : after.start p = before.start p := by
  rw [Disk.start, Disk.start, h.cwd]

theorem follow (h : KeepsDirectories before after) {place target : Location} {parts : List Text}
    (hfollow : before.follow place parts = .ok target) : after.follow place parts = .ok target := by
  induction parts generalizing place with
  | nil => exact hfollow
  | cons part rest ih =>
    obtain ⟨hdir, next, hnext, hrest⟩ := follow_cons_eq_ok_iff.1 hfollow
    exact follow_cons_eq_ok_iff.2 ⟨h.directory place hdir, next, hnext, ih hrest⟩

/-- **A path keeps its place.** -/
theorem locate (h : KeepsDirectories before after) {p : Path} {place : Location}
    (hlocate : before.locate p = .ok place) : after.locate p = .ok place := by
  obtain ⟨hparts, hfollow⟩ := locate_eq_ok_iff.1 hlocate
  refine locate_eq_ok_iff.2 ⟨hparts, ?_⟩
  rw [h.start]
  exact h.follow hfollow

end KeepsDirectories

/-! ## Parts that never go up -/

theorem isPrefixOf_of_next? {place next : Location} {part : Text} (h : next? place part = some next)
    (hup : part ≠ ['.', '.']) : place <+: next := by
  rw [next?, if_neg hup] at h
  split at h
  · obtain rfl := Option.some.inj h
    exact List.prefix_refl _
  · split at h
    · cases h
    · obtain rfl := Option.some.inj h
      exact List.prefix_append _ _

/-- Parts without `..` lead further down. -/
theorem isPrefixOf_of_follow {disk : Disk} {place target : Location} {parts : List Text}
    (hfollow : disk.follow place parts = .ok target) (hup : ['.', '.'] ∉ parts) :
    place <+: target := by
  induction parts generalizing place with
  | nil =>
    obtain rfl := Except.ok.inj hfollow
    exact List.prefix_refl _
  | cons part rest ih =>
    rw [List.mem_cons, not_or] at hup
    obtain ⟨-, next, hnext, hrest⟩ := follow_cons_eq_ok_iff.1 hfollow
    exact (isPrefixOf_of_next? hnext (Ne.symm hup.1)).trans (ih hrest hup.2)

/-- Parts without `..` lead to the same place on every disk that has the directories above it. -/
theorem follow_of_directories {disk other : Disk} {place target : Location} {parts : List Text}
    (hfollow : disk.follow place parts = .ok target) (hup : ['.', '.'] ∉ parts)
    (hdirs : ∀ q, q <+: target → disk.node? q = some .directory →
      other.node? q = some .directory) :
    other.follow place parts = .ok target := by
  induction parts generalizing place with
  | nil => exact hfollow
  | cons part rest ih =>
    have habove := isPrefixOf_of_follow hfollow hup
    obtain ⟨hdir, next, hnext, hrest⟩ := follow_cons_eq_ok_iff.1 hfollow
    refine follow_cons_eq_ok_iff.2 ⟨hdirs place habove hdir, next, hnext, ih hrest ?_⟩
    exact fun hmem => hup (List.mem_cons_of_mem _ hmem)

/-! ## Files -/

/-- There is a file with this content at a place, and every place above it is a directory. -/
structure HasFile (disk : Disk) (place : Location) (content : ByteArray) : Prop where
  node : disk.node? place = some (.file content)
  above : ∀ n < place.length, disk.node? (place.take n) = some .directory

theorem HasFile.directory_of_isPrefixOf {disk : Disk} {place q : Location} {content : ByteArray}
    (h : disk.HasFile place content) (hq : q <+: place) (hne : q ≠ place) :
    disk.node? q = some .directory := by
  have hlength : q.length < place.length :=
    Nat.lt_of_le_of_ne hq.length_le fun hlen => hne (hq.eq_of_length hlen)
  rw [List.prefix_iff_eq_take.1 hq]
  exact h.above _ hlength

theorem stat_of_node? {disk : Disk} {p : Path} {place : Location} {node : Node}
    (hlocate : disk.locate p = .ok place) (hnode : disk.node? place = some node) :
    disk.stat p = .ok node := by
  simp [stat, hlocate, hnode, bind, Except.bind]

theorem exists_of_stat {disk : Disk} {p : Path} {node : Node} (h : disk.stat p = .ok node) :
    ∃ place, disk.locate p = .ok place ∧ disk.node? place = some node := by
  obtain ⟨place, hlocate, h⟩ := exists_of_bind_eq_ok h
  split at h
  · rename_i found hnode
    obtain rfl := Except.ok.inj h
    exact ⟨place, hlocate, hnode⟩
  · cases h

theorem pathExists_iff {disk : Disk} {p : Path} :
    disk.pathExists p = true ↔
      ∃ place node, disk.locate p = .ok place ∧ disk.node? place = some node := by
  rw [pathExists]
  constructor
  · intro h
    cases hstat : disk.stat p with
    | error fault => simp [hstat, Except.toOption] at h
    | ok node =>
      obtain ⟨place, hlocate, hnode⟩ := exists_of_stat hstat
      exact ⟨place, node, hlocate, hnode⟩
  · rintro ⟨place, node, hlocate, hnode⟩
    rw [stat_of_node? hlocate hnode]
    rfl

end StyleLift.Disk
