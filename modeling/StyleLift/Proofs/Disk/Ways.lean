import StyleLift.Proofs.Disk.Writing
import StyleLift.Proofs.Path.Components
import StyleLift.Proofs.Text.Bytes

/-!
# The way of a path

Following a path fails or gives a place, and says nothing about the places in between.  A search
that goes up from a path visits just these: the parent of a path leads to the place before the last
step, not to the directory above the last place.  So a path that leads to a directory is described
here by its way, a list of places with one for each component.

* `way`, `way_concat`, `way_append`: the places on a way.
* `IsPassable`, `follow_iff_isPassable`: a way can be gone just if the parts can be followed.
* `way_names`: a way down by names.
* `locate_join_of_isPassable`: a name that is joined leads one step further.
-/

namespace StyleLift

namespace Disk

open StyleLift.Path (Component)

/-! ## Ways -/

/-- The place after a component, whatever is on the disk. -/
def move (place : Location) : Component → Location
  | .up => place.dropLast
  | .name s => place ++ [s]
  | .root => place
  | .here => place

theorem move_of_not_isStep (place : Location) {c : Component} (hc : c.isStep = false) :
    move place c = place := by
  cases c with
  | root => rfl
  | here => rfl
  | up => cases hc
  | name s => cases hc

/-- The places on a way, its start first. -/
def way (place : Location) : List Component → List Location
  | [] => [place]
  | c :: cs => place :: way (move place c) cs

theorem way_ne_nil (place : Location) (cs : List Component) : way place cs ≠ [] := by
  cases cs <;> simp [way]

theorem self_mem_way (place : Location) (cs : List Component) : place ∈ way place cs := by
  cases cs <;> simp [way]

theorem way_concat (place : Location) (cs : List Component) (c : Component) :
    way place (cs ++ [c]) = way place cs ++ [move (cs.foldl move place) c] := by
  induction cs generalizing place with
  | nil => rfl
  | cons d cs ih => rw [List.cons_append, way, ih, way, List.foldl_cons, List.cons_append]

/-- A way goes on where its first part ends. -/
theorem way_append (place : Location) (front tail : List Component) :
    way place (front ++ tail) =
      (way place front).dropLast ++ way (front.foldl move place) tail := by
  induction front generalizing place with
  | nil => rfl
  | cons c front ih =>
    rw [List.cons_append, way, ih, way, List.dropLast_cons_of_ne_nil (way_ne_nil _ _),
      List.foldl_cons, List.cons_append]

/-- **The way down by names** has the places of the first of them. -/
theorem way_names (place names : Location) :
    way place (names.map .name) = names.inits.map (place ++ ·) := by
  induction names generalizing place with
  | nil => simp [way]
  | cons name names ih => simp [way, move, ih, Function.comp_def]

theorem foldl_move_names (place names : Location) :
    (names.map Component.name).foldl move place = place ++ names := by
  induction names generalizing place with
  | nil => simp
  | cons name names ih => simp [move, ih]

/-! ## Ways that can be gone -/

/-- Every place on a way is a directory, and no name on it is too long. -/
structure IsPassable (disk : Disk) (place : Location) (cs : List Component) : Prop where
  directory : ∀ q ∈ way place cs, disk.node? q = some .directory
  short : ∀ s, .name s ∈ cs → isTooLong s = false

variable {disk : Disk} {place target : Location}

theorem isPassable_nil_iff :
    disk.IsPassable place [] ↔ disk.node? place = some .directory :=
  ⟨fun h => h.directory place (self_mem_way _ _), fun h => ⟨by simpa [way] using h, by simp⟩⟩

theorem isPassable_cons_iff {c : Component} {cs : List Component} :
    disk.IsPassable place (c :: cs) ↔ disk.node? place = some .directory ∧
      (∀ s, c = .name s → isTooLong s = false) ∧ disk.IsPassable (move place c) cs := by
  constructor
  · intro h
    refine ⟨h.directory place (self_mem_way _ _), ?_, ?_, ?_⟩
    · rintro s rfl
      exact h.short s List.mem_cons_self
    · exact fun q hq => h.directory q (List.mem_cons_of_mem _ hq)
    · exact fun s hs => h.short s (List.mem_cons_of_mem _ hs)
  · rintro ⟨hdir, hshort, hrest⟩
    refine ⟨fun q hq => ?_, fun s hs => ?_⟩
    · rcases List.mem_cons.1 hq with rfl | hq
      · exact hdir
      · exact hrest.directory q hq
    · rcases List.mem_cons.1 hs with heq | hs
      · exact hshort s heq.symm
      · exact hrest.short s hs

theorem IsPassable.start {cs : List Component} (h : disk.IsPassable place cs) :
    disk.node? place = some .directory :=
  h.directory place (self_mem_way _ _)

/-- A component that leads nowhere asks for nothing. -/
theorem isPassable_cons_of_not_isStep {c : Component} {cs : List Component}
    (hc : c.isStep = false) : disk.IsPassable place (c :: cs) ↔ disk.IsPassable place cs := by
  have hname : ∀ s, c = .name s → isTooLong s = false := by
    rintro s rfl
    cases hc
  rw [isPassable_cons_iff, move_of_not_isStep place hc]
  exact ⟨fun h => h.2.2, fun h => ⟨h.start, hname, h⟩⟩

theorem IsPassable.of_concat {cs : List Component} {c : Component}
    (h : disk.IsPassable place (cs ++ [c])) : disk.IsPassable place cs := by
  refine ⟨fun q hq => h.directory q ?_, fun s hs => h.short s (List.mem_append_left _ hs)⟩
  rw [way_concat]
  exact List.mem_append_left _ hq

/-- **Parts can be followed to a directory just if the way by the components among them can be
gone.** -/
theorem follow_iff_isPassable {parts : List Text} :
    disk.follow place parts = .ok target ∧ disk.node? target = some .directory ↔
      disk.IsPassable place (Path.steps parts) ∧ (Path.steps parts).foldl move place = target := by
  induction parts generalizing place with
  | nil =>
    rw [Path.steps_nil, isPassable_nil_iff]
    constructor
    · rintro ⟨hfollow, hdir⟩
      obtain rfl := Except.ok.inj hfollow
      exact ⟨hdir, rfl⟩
    · rintro ⟨hdir, rfl⟩
      exact ⟨rfl, hdir⟩
  | cons part rest ih =>
    rw [follow_cons_eq_ok_iff]
    cases hcounts : Path.counts part with
    | false =>
      have hnext : next? place part = some place := by
        rw [next?, if_pos]
        simpa [Path.counts, imp_iff_not_or, or_comm] using hcounts
      rw [Path.steps_cons_of_not_counts hcounts, ← ih, hnext]
      constructor
      · rintro ⟨⟨-, next, hsome, hrest⟩, hdir⟩
        obtain rfl := Option.some.inj hsome
        exact ⟨hrest, hdir⟩
      · intro h
        exact ⟨⟨(ih.1 h).1.start, place, rfl, h.1⟩, h.2⟩
    | true =>
      have hhere : ¬(part.isEmpty || part = ['.']) = true := by
        simpa [Path.counts] using hcounts
      rw [Path.steps_cons_of_counts hcounts, isPassable_cons_iff, List.foldl_cons, next?,
        if_neg hhere]
      by_cases hup : part = ['.', '.']
      · subst hup
        have hpart : Component.ofPart ['.', '.'] = .up := rfl
        simp only [hpart, move, if_true, reduceCtorEq, false_implies, implies_true, true_and,
          Option.some.injEq, exists_eq_left', and_assoc, ← ih]
      · have hpart : Component.ofPart part = .name part :=
          Path.IsFileName.ofPart ⟨hcounts, hup⟩
        rw [hpart, if_neg hup]
        cases hlong : isTooLong part with
        | true => simp [hlong]
        | false =>
          simp only [hlong, move, Bool.false_eq_true, if_false, Option.some.injEq, exists_eq_left',
            and_assoc, ih, Component.name.injEq, forall_eq', true_and]

/-- A path leads to a directory just if its way can be gone. -/
theorem follow_start_iff_isPassable {p : Path} :
    disk.follow (disk.start p) (Text.pieces '/' p.text) = .ok target ∧
        disk.node? target = some .directory ↔
      disk.IsPassable (disk.start p) p.components ∧
        p.components.foldl move (disk.start p) = target := by
  rw [follow_iff_isPassable, Path.components_eq, Path.lead]
  split_ifs
  · rw [List.singleton_append, isPassable_cons_of_not_isStep rfl, List.foldl_cons]
    rfl
  · rw [List.singleton_append, isPassable_cons_of_not_isStep rfl, List.foldl_cons]
    rfl
  · rfl

/-- Paths with the same components start at the same place. -/
theorem start_of_components {p q : Path} (h : p.components = q.components) :
    disk.start p = disk.start q := by
  have habsolute : p.isAbsolute = q.isAbsolute := by
    rw [Bool.eq_iff_iff, ← Path.root_mem_components_iff, ← Path.root_mem_components_iff, h]
  rw [start, start, habsolute]

/-- **Components lead to one directory,** however the path is written. -/
theorem follow_of_components {p q : Path} (h : p.components = q.components)
    (hfollow : disk.follow (disk.start p) (Text.pieces '/' p.text) = .ok target)
    (hdir : disk.node? target = some .directory) :
    disk.follow (disk.start q) (Text.pieces '/' q.text) = .ok target := by
  have hway := follow_start_iff_isPassable.1 ⟨hfollow, hdir⟩
  rw [start_of_components h, h] at hway
  exact (follow_start_iff_isPassable.2 hway).1

/-! ## Joined names -/

/-- A path to whose text names of a length can be joined. -/
structure HasRoom (p : Path) (n : Nat) : Prop where
  clean : Char.ofNat 0 ∉ p.text
  length : p.text.byteLength + n < maxPathLength

theorem HasRoom.of_locate {p : Path} (h : disk.locate p = .ok target) {n : Nat}
    (hlength : p.text.byteLength + n < maxPathLength) : HasRoom p n := by
  refine ⟨fun hmem => ?_, hlength⟩
  have hparts := (locate_eq_ok_iff.1 h).1
  rw [partsOf, if_pos (by simpa using hmem)] at hparts
  cases hparts

theorem HasRoom.of_isPrefix {p q : Path} {n : Nat} (h : HasRoom p n) (hq : q.text <+: p.text) :
    HasRoom q n := by
  refine ⟨fun hmem => h.clean (hq.subset hmem), ?_⟩
  obtain ⟨rest, htext⟩ := hq
  have hlength := h.length
  rw [← htext, Text.byteLength_append] at hlength
  omega

theorem HasRoom.partsOf_join {p : Path} {n : Nat} (h : HasRoom p n) {name : Text}
    (hne : name ≠ []) (hclean : Char.ofNat 0 ∉ name) (hlength : name.byteLength ≤ n) :
    partsOf (p.join name) = .ok (Text.pieces '/' (p.join name).text) := by
  have htext : (p.join name).text = name ∨ (p.join name).text = p.text ++ name ∨
      (p.join name).text = p.text ++ '/' :: name := by
    rw [Path.join]
    split_ifs <;> simp
  have hroom := h.length
  have hnull : Char.ofNat 0 ≠ '/' := by decide
  have hslash : Text.byteLength ('/' :: name) = 1 + name.byteLength := rfl
  have hfree : Char.ofNat 0 ∉ (p.join name).text := by
    rcases htext with htext | htext | htext
    · rwa [htext]
    · rw [htext, List.mem_append, not_or]
      exact ⟨h.clean, hclean⟩
    · rw [htext, List.mem_append, List.mem_cons, not_or, not_or]
      exact ⟨h.clean, hnull, hclean⟩
  have hshort : ¬ maxPathLength < (p.join name).text.byteLength := by
    rcases htext with htext | htext | htext
    · rw [htext]
      omega
    · rw [htext, Text.byteLength_append]
      omega
    · rw [htext, Text.byteLength_append, hslash]
      omega
  have hfilled : (p.join name).text.isEmpty = false := by
    rcases htext with htext | htext | htext
    · simpa [htext] using hne
    · simp [htext, hne]
    · simp [htext]
  rw [partsOf, if_neg (by simpa using hfree), if_neg hshort, if_neg (by simp [hfilled])]

/-- **A joined name leads one step further than the path,** which may be the empty one. -/
theorem locate_join_of_isPassable {p : Path} (hp : disk.IsPassable (disk.start p) p.components)
    {name : Text} (hname : Path.IsFileName name) (hslash : '/' ∉ name)
    (hshort : isTooLong name = false)
    (hparts : partsOf (p.join name) = .ok (Text.pieces '/' (p.join name).text)) :
    disk.locate (p.join name) = .ok (p.components.foldl move (disk.start p) ++ [name]) := by
  obtain ⟨hfollow, hdir⟩ := follow_start_iff_isPassable.2 ⟨hp, rfl⟩
  generalize p.components.foldl move (disk.start p) = place at hfollow hdir ⊢
  have hhead : name.head? ≠ some '/' := fun hhead => hslash (List.mem_of_head? hhead)
  have hlast : disk.follow place [name] = .ok (place ++ [name]) := by
    refine follow_cons_eq_ok_iff.2 ⟨hdir, _, ?_, rfl⟩
    rw [next?_of_isFileName hname, if_neg (by simp [hshort])]
  rw [locate_eq_ok_iff]
  refine ⟨hparts, ?_⟩
  by_cases hempty : p.text = []
  · have hstart : disk.start p = disk.start ⟨name⟩ := by
      rw [start, start, Path.isAbsolute, Path.isAbsolute, hempty]
      simp [hhead]
    -- the empty path has one part, which is empty and leads nowhere
    obtain ⟨-, next, hnext, hend⟩ := follow_cons_eq_ok_iff.1 (hempty ▸ hfollow)
    obtain rfl : disk.start p = next := Option.some.inj hnext
    obtain rfl := Except.ok.inj hend
    rw [Path.join_of_text_eq_nil hempty, Text.pieces_of_notMem hslash, ← hstart]
    exact hlast
  · obtain ⟨front, hfront, hjoined, habsolute⟩ := Path.exists_pieces_join hempty hhead
    rw [start, habsolute, hjoined, Text.pieces_of_notMem hslash]
    refine follow_append_eq_ok_iff.2 ⟨place, ?_, hlast⟩
    rcases hfront with hfront | hfront
    · rwa [hfront] at hfollow
    · rw [hfront] at hfollow
      obtain ⟨middle, hmiddle, hend⟩ := follow_append_eq_ok_iff.1 hfollow
      obtain ⟨-, next, hnext, hend⟩ := follow_cons_eq_ok_iff.1 hend
      obtain rfl : middle = next := Option.some.inj hnext
      obtain rfl := Except.ok.inj hend
      exact hmiddle

end Disk

end StyleLift
