import Mathlib.Data.List.Infix
import StyleLift.Proofs.Disk.Descent
import StyleLift.Proofs.Disk.Ways
import StyleLift.Settings.Discovery

/-!
# How far a search for the configuration goes

The search goes up by the text of a path.  A text ends where it starts: that of a relative path in
the working directory, and a `..` in it is taken away like a name, so that the search looks into the
directory that the `..` has left.  Going up from the absolute path of the same directory meets all
directories above it and no others.  The two agree as far as they visit the same places, that is
from the directory up to where the last `..` of the path has led, or to the working directory.

* `decision?`: what the search decides at a place.
* `locate_discoverFrom`: the search decides what the way of the path decides, from its end.
* `nearest?_append_of_eq_some`, `nearest?_names`: parts of a way, and ways down by names.
* `discover_spelling`: the result.
-/

namespace StyleLift.Settings

open Disk (HasRoom IsPassable move way)
open StyleLift.Path (Component)

variable {disk : Disk} {dir : Path} {base place : Location}

/-! ## The search as one over places -/

/-- What the search decides at a place: the file that it finds there, or that there is none; or to
go on. -/
def decision? (disk : Disk) (place : Location) : Option (Option Location) :=
  if (disk.node? (place ++ [configFileName])).isSome then some (some (place ++ [configFileName]))
  else if (disk.node? (place ++ [projectMark])).isSome then some none
  else none

/-- What is decided first on a way, seen from its end. -/
def nearest? (disk : Disk) (base : Location) (cs : List Component) : Option (Option Location) :=
  (way base cs).reverse.findSome? (decision? disk)

theorem nearest?_nil (disk : Disk) (base : Location) :
    nearest? disk base [] = decision? disk base := by
  rw [nearest?, way, List.reverse_singleton, List.findSome?_singleton]

theorem nearest?_concat (disk : Disk) (base : Location) (cs : List Component) (c : Component) :
    nearest? disk base (cs ++ [c]) =
      (decision? disk ((cs ++ [c]).foldl move base)).or (nearest? disk base cs) := by
  rw [nearest?, Disk.way_concat, List.reverse_append, List.reverse_singleton, List.singleton_append,
    List.findSome?_cons, List.foldl_concat, nearest?]
  cases decision? disk (move (cs.foldl move base) c) <;> rfl

/-- What is decided at the end of a way is decided on it. -/
theorem nearest?_append_of_eq_some {front tail : List Component} {found : Option Location}
    (h : nearest? disk (front.foldl move base) tail = some found) :
    nearest? disk base (front ++ tail) = some found := by
  rw [nearest?] at h
  rw [nearest?, Disk.way_append, List.reverse_append, List.findSome?_append, h, Option.some_or]

/-- A component that leads nowhere changes nothing. -/
theorem nearest?_cons_of_not_isStep {c : Component} {cs : List Component} (hc : c.isStep = false) :
    nearest? disk base (c :: cs) = nearest? disk base cs := by
  have hcons : nearest? disk base (c :: cs) = (nearest? disk base cs).or (decision? disk base) := by
    rw [nearest?, way, Disk.move_of_not_isStep base hc, List.reverse_cons, List.findSome?_append,
      List.findSome?_singleton, nearest?]
  cases hrest : nearest? disk base cs with
  | some found => rw [hcons, hrest, Option.some_or]
  | none =>
    have hbase : decision? disk base = none :=
      List.findSome?_eq_none_iff.1 hrest base (List.mem_reverse.2 (Disk.self_mem_way base cs))
    rw [hcons, hrest, hbase, Option.none_or]

/-- The names that are looked for are found one step further than the path, if at all. -/
theorem locate_join_of_mem {name : Text} (hname : name ∈ [configFileName, projectMark])
    (hway : disk.IsPassable (disk.start dir) dir.components)
    (hroom : HasRoom dir configFileName.byteLength) :
    disk.locate (dir.join name) = .ok (dir.components.foldl move (disk.start dir) ++ [name]) := by
  have hproper : ∀ name ∈ [configFileName, projectMark],
      (Path.IsFileName name ∧ '/' ∉ name ∧ Disk.isTooLong name = false) ∧
        name ≠ [] ∧ Char.ofNat 0 ∉ name ∧ name.byteLength ≤ configFileName.byteLength := by
    decide
  obtain ⟨⟨hfile, hslash, hshort⟩, hne, hclean, hlength⟩ := hproper name hname
  exact Disk.locate_join_of_isPassable hway hfile hslash hshort
    (hroom.partsOf_join hne hclean hlength)

theorem pathExists_join_of_mem {name : Text} (hname : name ∈ [configFileName, projectMark])
    (hway : disk.IsPassable (disk.start dir) dir.components)
    (hroom : HasRoom dir configFileName.byteLength) :
    disk.pathExists (dir.join name) =
      (disk.node? (dir.components.foldl move (disk.start dir) ++ [name])).isSome := by
  rw [Disk.pathExists, Disk.stat, locate_join_of_mem hname hway hroom]
  simp only [bind, Except.bind]
  cases disk.node? (dir.components.foldl move (disk.start dir) ++ [name]) <;> rfl

/-- One step of the search: what is decided where the path leads, or else by its parent. -/
theorem locate_discoverFrom_succ (fuel : Nat)
    (hway : disk.IsPassable (disk.start dir) dir.components)
    (hroom : HasRoom dir configFileName.byteLength) :
    (discoverFrom (fuel + 1) disk dir).map disk.locate =
      match decision? disk (dir.components.foldl move (disk.start dir)) with
      | some found => found.map .ok
      | none => (dir.parent?.bind (discoverFrom fuel disk)).map disk.locate := by
  rw [discoverFrom, pathExists_join_of_mem (by simp) hway hroom,
    pathExists_join_of_mem (by simp) hway hroom, decision?]
  split_ifs
  · simp only [Option.map_some, locate_join_of_mem (List.mem_cons_self ..) hway hroom]
  · rfl
  · rfl

/-- The parent of a path has its way, less the last step. -/
theorem start_parent? {parent : Path} {c : Component} (hc : c ≠ .root)
    (hcomponents : dir.components = parent.components ++ [c]) :
    disk.start parent = disk.start dir := by
  have habsolute : dir.isAbsolute = parent.isAbsolute := by
    rw [Bool.eq_iff_iff, ← Path.root_mem_components_iff, ← Path.root_mem_components_iff,
      hcomponents]
    simp [hc.symm]
  rw [Disk.start, Disk.start, habsolute]

/-- **The search decides what the way of the path decides, seen from its end.** -/
theorem locate_discoverFrom {fuel : Nat} (hfuel : dir.components.length < fuel)
    (hway : disk.IsPassable (disk.start dir) dir.components)
    (hroom : HasRoom dir configFileName.byteLength) :
    (discoverFrom fuel disk dir).map disk.locate =
      (nearest? disk (disk.start dir) dir.components).join.map .ok := by
  induction fuel generalizing dir with
  | zero => omega
  | succ fuel ih =>
    rw [locate_discoverFrom_succ fuel hway hroom]
    have htop : dir.components = [] ∨ dir.components = [.root] → dir.parent? = none := by
      intro htop
      have habove := dir.map_components_parent?
      rwa [Path.above, if_pos htop, Option.map_eq_none_iff] at habove
    rcases dir.components_cases with hnone | hroot | ⟨front, c, hfront, hc⟩
    · rw [htop (Or.inl hnone), hnone, nearest?_nil, List.foldl_nil]
      cases decision? disk (disk.start dir) <;> rfl
    · rw [htop (Or.inr hroot), hroot, nearest?_cons_of_not_isStep rfl, nearest?_nil,
        List.foldl_cons, List.foldl_nil, move]
      cases decision? disk (disk.start dir) <;> rfl
    · obtain ⟨parent, hparent, hcomponents⟩ := Path.parent?_eq_some_of_components hfront hc
      have hstart : disk.start parent = disk.start dir :=
        start_parent? hc (hcomponents ▸ hfront)
      rw [hfront] at hway hfuel
      have hlength : parent.components.length < fuel := by
        simp only [List.length_append, List.length_singleton, hcomponents] at hfuel ⊢
        omega
      have hrest := ih hlength (by rw [hstart, hcomponents]; exact hway.of_concat)
        (hroom.of_isPrefix (Path.isPrefix_text_parent? hparent))
      rw [hstart, hcomponents] at hrest
      rw [hfront, nearest?_concat, hparent, Option.bind_some, hrest]
      cases decision? disk ((front ++ [c]).foldl move (disk.start dir)) <;> rfl

/-! ## Ways down -/

/-- Whether something is decided between two places, one above the other. -/
def IsDecidedBetween (disk : Disk) (base place : Location) : Prop :=
  ∃ q, base <+: q ∧ q <+: place ∧ (decision? disk q).isSome = true

theorem nearest?_names (disk : Disk) (base names : Location) :
    nearest? disk base (names.map .name) =
      (names.inits.reverse.map (base ++ ·)).findSome? (decision? disk) := by
  rw [nearest?, Disk.way_names, List.map_reverse]

theorem isSome_nearest?_names {names : Location} :
    (nearest? disk base (names.map .name)).isSome = true ↔
      IsDecidedBetween disk base (base ++ names) := by
  rw [nearest?_names, List.findSome?_isSome_iff]
  constructor
  · rintro ⟨q, hq, hsome⟩
    obtain ⟨front, hfront, rfl⟩ := List.mem_map.1 hq
    rw [List.mem_reverse, List.mem_inits] at hfront
    exact ⟨_, List.prefix_append _ _, (List.prefix_append_right_inj _).2 hfront, hsome⟩
  · rintro ⟨q, ⟨front, rfl⟩, hplace, hsome⟩
    refine ⟨_, List.mem_map.2 ⟨front, ?_, rfl⟩, hsome⟩
    rw [List.mem_reverse, List.mem_inits]
    exact (List.prefix_append_right_inj _).1 hplace

/-- The absolute path of a place goes down by the names of the place. -/
theorem steps_pathOfPlace (hplace : ∀ name ∈ place, Path.IsFileName name ∧ '/' ∉ name) :
    Path.steps (Text.pieces '/' (Disk.pathOfPlace place).text) = place.map .name := by
  rw [Disk.pathOfPlace, Text.pieces, if_pos rfl, Path.steps_cons_of_not_counts rfl]
  cases place with
  | nil => rfl
  | cons name rest =>
    rw [Text.pieces_joined (fun name hname => (hplace name hname).2) (List.cons_ne_nil _ _),
      Path.steps_of_up_notMem fun hup => (hplace _ hup).1.not_up rfl,
      List.filter_eq_self.2 fun name hname => (hplace name hname).1.counts]

/-! ## Spellings of a directory -/

/-- A path that leads to a directory, with room for the names that are looked for. -/
structure IsSearchable (disk : Disk) (dir : Path) (place : Location) : Prop where
  locate : disk.locate dir = .ok place
  directory : disk.node? place = some .directory
  room : dir.text.byteLength + configFileName.byteLength < Disk.maxPathLength

/-- The searches from two paths find nothing, or files at one place. -/
def SameConfiguration (disk : Disk) (p q : Path) : Prop :=
  (discover disk p).map disk.locate = (discover disk q).map disk.locate

theorem IsSearchable.follow (h : IsSearchable disk dir place) :
    disk.follow (disk.start dir) (Text.pieces '/' dir.text) = .ok place :=
  (Disk.locate_eq_ok_iff.1 h.locate).2

/-- The search decides what the names and `..` of the path decide. -/
theorem IsSearchable.locate_discover (h : IsSearchable disk dir place) :
    (discover disk dir).map disk.locate =
      (nearest? disk (disk.start dir)
        (Path.steps (Text.pieces '/' dir.text))).join.map .ok := by
  have hway := (Disk.follow_start_iff_isPassable.1 ⟨h.follow, h.directory⟩).1
  rw [discover, locate_discoverFrom (Nat.lt_succ_self _) hway (.of_locate h.locate h.room),
    Path.components_eq, Path.lead]
  split_ifs
  · rw [List.singleton_append, nearest?_cons_of_not_isStep rfl]
  · rw [List.singleton_append, nearest?_cons_of_not_isStep rfl]
  · rw [List.nil_append]

/-- The search from the absolute path of a directory decides what is decided first above it. -/
theorem IsSearchable.locate_discover_pathOfPlace (htree : disk.IsTree)
    (h : IsSearchable disk (Disk.pathOfPlace place) place) :
    (discover disk (Disk.pathOfPlace place)).map disk.locate =
      (nearest? disk [] (place.map .name)).join.map .ok := by
  have hplace : ∀ name ∈ place, Path.IsFileName name ∧ '/' ∉ name := by
    intro name hname
    have hmem := Disk.mem_of_node? (List.ne_nil_of_mem hname) h.directory
    exact htree.isFileName place hmem name hname
  rw [h.locate_discover, steps_pathOfPlace hplace]
  rfl

/-- Where the last parts of a path are names, it goes down by them from where the others lead. -/
theorem IsSearchable.exists_names (h : IsSearchable disk dir place) {front tail : List Text}
    (hparts : Text.pieces '/' dir.text = front ++ tail) (hup : ['.', '.'] ∉ tail)
    (hfront : disk.follow (disk.start dir) front = .ok base) :
    ∃ names, place = base ++ names ∧
      Path.steps (Text.pieces '/' dir.text) = Path.steps front ++ names.map .name ∧
      (Path.steps front).foldl move (disk.start dir) = base := by
  have hfollow := h.follow
  rw [hparts] at hfollow
  obtain ⟨middle, hmiddle, htail⟩ := Disk.follow_append_eq_ok_iff.1 hfollow
  obtain rfl : base = middle := Except.ok.inj (hfront.symm.trans hmiddle)
  have hbase := (Disk.follow_iff_isPassable.1 ⟨htail, h.directory⟩).1.start
  exact ⟨_, Disk.eq_append_of_follow hup htail,
    by rw [hparts, Path.steps_append, Path.steps_of_up_notMem hup],
    (Disk.follow_iff_isPassable.1 ⟨hfront, hbase⟩).2⟩

/-- What is decided between two places is what is decided first above the lower one. -/
theorem nearest?_of_isDecidedBetween {front : List Component} {start : Location} {names : Location}
    (hfront : front.foldl move start = base) (h : IsDecidedBetween disk base (base ++ names)) :
    nearest? disk start (front ++ names.map .name) = nearest? disk base (names.map .name) := by
  obtain ⟨found, hfound⟩ := Option.isSome_iff_exists.1 (isSome_nearest?_names.2 h)
  rw [hfound]
  exact nearest?_append_of_eq_some (hfront ▸ hfound)

theorem toOption_readFile_congr {file other : Path} (h : disk.locate file = disk.locate other) :
    (readFile disk file).toOption = (readFile disk other).toOption := by
  have hread : disk.readText file = disk.readText other := by
    simp only [Disk.readText, Disk.read, Disk.stat, h]
  rw [readFile, readFile, hread]
  -- only the faults name the path
  cases disk.readText other with
  | error fault => rfl
  | ok text =>
    simp only [Except.mapError, bind, Except.bind]
    cases parse text with
    | error fault => rfl
    | ok settings => cases settings.fault? <;> rfl

/-- Paths with one configuration get the same settings. -/
theorem SameConfiguration.load {p q : Path} (h : SameConfiguration disk p q) :
    (Settings.load disk p).toOption = (Settings.load disk q).toOption := by
  rw [SameConfiguration] at h
  rw [Settings.load, Settings.load]
  cases hp : discover disk p with
  | none =>
    rw [hp, Option.map_none, eq_comm, Option.map_eq_none_iff] at h
    rw [h]
  | some file =>
    rw [hp, Option.map_some, eq_comm, Option.map_eq_some_iff] at h
    obtain ⟨other, hq, hlocate⟩ := h
    have hmap : ∀ result : Except Failure Settings,
        (result.map fun settings => (⟨settings, true⟩ : Loaded)).toOption =
          result.toOption.map fun settings => ⟨settings, true⟩ := by
      rintro (fault | settings) <;> rfl
    rw [hq]
    dsimp only
    rw [hmap, hmap, toOption_readFile_congr hlocate]

/-- **How far the search depends on the spelling of a directory.**  From the absolute path of a
directory it visits the directory and all above it, and decides where a configuration file or a
project mark is met first.  From any other path to the same directory it finds the same, and so the
same settings, if something is decided on the way down to the directory from where the last `..` of
the path has led.  A path without `..` finds the same just if something is decided between its start
and the directory, or nothing is found at all: what lies above the working directory is never seen
from a relative path. -/
theorem discover_spelling (htree : disk.IsTree) (hdir : IsSearchable disk dir place)
    (hcanonical : IsSearchable disk (Disk.pathOfPlace place) place) :
    (discover disk (Disk.pathOfPlace place)).map disk.locate =
      (place.inits.reverse.findSome? (decision? disk)).join.map .ok ∧
    (∀ front tail base, Text.pieces '/' dir.text = front ++ tail → ['.', '.'] ∉ tail →
      disk.follow (disk.start dir) front = .ok base → IsDecidedBetween disk base place →
      SameConfiguration disk dir (Disk.pathOfPlace place) ∧
        (Settings.load disk dir).toOption =
          (Settings.load disk (Disk.pathOfPlace place)).toOption) ∧
    (['.', '.'] ∉ Text.pieces '/' dir.text →
      (SameConfiguration disk dir (Disk.pathOfPlace place) ↔
        IsDecidedBetween disk (disk.start dir) place ∨
          discover disk (Disk.pathOfPlace place) = none)) := by
  have hwhole := hcanonical.locate_discover_pathOfPlace htree
  have hagree : ∀ front tail base, Text.pieces '/' dir.text = front ++ tail → ['.', '.'] ∉ tail →
      disk.follow (disk.start dir) front = .ok base → IsDecidedBetween disk base place →
      SameConfiguration disk dir (Disk.pathOfPlace place) := by
    intro front tail base hparts hup hfront hdecided
    obtain ⟨names, rfl, hsteps, hbase⟩ := hdir.exists_names hparts hup hfront
    rw [SameConfiguration, hwhole, hdir.locate_discover, hsteps,
      nearest?_of_isDecidedBetween hbase hdecided, List.map_append,
      nearest?_of_isDecidedBetween (Disk.foldl_move_names [] base) hdecided, List.nil_append]
  refine ⟨?_, ?_, ?_⟩
  · simpa [nearest?_names] using hwhole
  · intro front tail base hparts hup hfront hdecided
    have hsame := hagree front tail base hparts hup hfront hdecided
    exact ⟨hsame, hsame.load⟩
  · intro hup
    have hstart : Text.pieces '/' dir.text = [] ++ Text.pieces '/' dir.text := rfl
    by_cases hdecided : IsDecidedBetween disk (disk.start dir) place
    · exact iff_of_true (hagree _ _ _ hstart hup rfl hdecided) (Or.inl hdecided)
    · -- the search from the path ends undecided at its start
      have hnone : discover disk dir = none := by
        obtain ⟨names, rfl, hsteps, -⟩ := hdir.exists_names hstart hup rfl
        rw [← isSome_nearest?_names, Bool.not_eq_true, Option.isSome_eq_false_iff,
          Option.isNone_iff_eq_none] at hdecided
        have hdiscover := hdir.locate_discover
        rw [hsteps, Path.steps_nil, List.nil_append, hdecided] at hdiscover
        exact Option.map_eq_none_iff.1 hdiscover
      rw [SameConfiguration, hnone, Option.map_none, eq_comm, Option.map_eq_none_iff]
      exact (or_iff_right hdecided).symm

/-- A project with a configuration file above its folders and another one in one of them. -/
def project (cwd : Location) : Disk where
  nodes := [
    (["w".toList], .directory),
    (["w".toList, configFileName], .file (Disk.encode "\x7b\x7d".toList)),
    (["w".toList, "p".toList], .directory),
    (["w".toList, "p".toList, "a".toList], .directory),
    (["w".toList, "p".toList, "a".toList, configFileName], .file (Disk.encode "\x7b\x7d".toList)),
    (["w".toList, "p".toList, "b".toList], .directory)]
  cwd := cwd

/-- A detour changes nothing where the file lies on the way back down. -/
theorem discover_spelling_with_detour :
    SameConfiguration (project ["w".toList]) (.ofString "p/../p/b") (.ofString "/w/p/b") ∧
    discover (project ["w".toList]) (.ofString "p/../p/b") =
      some (.ofString "p/../.cssvarrc.json") := by
  have hdir : IsSearchable (project ["w".toList]) (.ofString "p/../p/b")
      ["w".toList, "p".toList, "b".toList] :=
    ⟨by decide +kernel, by decide +kernel, by decide +kernel⟩
  have hcanonical : IsSearchable (project ["w".toList])
      (Disk.pathOfPlace ["w".toList, "p".toList, "b".toList])
      ["w".toList, "p".toList, "b".toList] :=
    ⟨by decide +kernel, by decide +kernel, by decide +kernel⟩
  obtain ⟨-, hagree, -⟩ := discover_spelling (by decide +kernel) hdir hcanonical
  have hsame := hagree ["p".toList, "..".toList] ["p".toList, "b".toList] ["w".toList]
    (by decide +kernel) (by decide +kernel) (by decide +kernel)
    ⟨["w".toList], List.prefix_refl _, List.prefix_append _ _, by decide +kernel⟩
  exact ⟨hsame.1, by decide +kernel⟩

/-- The spelling matters: from `.` nothing above the working directory is found, and from a path
with a `..` a file is found that lies in no directory above. -/
theorem discover_depends_on_spelling :
    let here := project ["w".toList, "p".toList, "b".toList]
    let above := project ["w".toList, "p".toList]
    here.locate (.ofString ".") = here.locate (.ofString "/w/p/b") ∧
    discover here (.ofString ".") = none ∧
    discover here (.ofString "/w/p/b") = some (.ofString "/w/.cssvarrc.json") ∧
    above.locate (.ofString "a/../b") = above.locate (.ofString "/w/p/b") ∧
    discover above (.ofString "a/../b") = some (.ofString "a/.cssvarrc.json") ∧
    discover above (.ofString "/w/p/b") = some (.ofString "/w/.cssvarrc.json") := by
  decide +kernel

end StyleLift.Settings
