import StyleLift.Proofs.Disk.Tree
import StyleLift.Proofs.Path.Components

/-!
# Paths that go down

A path that is put together from a root by joining leads down from where the root leads, as long as
nothing that is joined has a `..` in it.  Such a path says two things at once, which components it
has and to which place it leads, and both are the names that were joined: so what is known of the
one carries over to the other.

* `Disk.eq_append_of_follow`: where parts without `..` lead.
* `Disk.exists_of_follow_join`: a joined path leads on from where the path leads.
* `IsBelow`: a path that goes down from a root by names.
* `IsBelow.components_eq_of_locate`: two of them that lead to one place have the same components.
-/

namespace StyleLift

namespace Disk

/-- Parts without `..` lead down by the names among them. -/
theorem eq_append_of_follow {disk : Disk} {place target : Location} {parts : List Text}
    (hup : ['.', '.'] ∉ parts) (h : disk.follow place parts = .ok target) :
    target = place ++ parts.filter Path.counts := by
  induction parts generalizing place with
  | nil =>
    obtain rfl := Except.ok.inj h
    simp
  | cons part rest ih =>
    rw [List.mem_cons, not_or] at hup
    obtain ⟨-, next, hnext, hrest⟩ := follow_cons_eq_ok_iff.1 h
    rw [ih hup.2 hrest]
    rw [next?, if_neg (Ne.symm hup.1)] at hnext
    split_ifs at hnext with hhere
    · obtain rfl := Option.some.inj hnext
      have hcounts : Path.counts part = false := by
        simpa [Path.counts, ← not_or, or_comm, imp_iff_not_or] using hhere
      rw [List.filter_cons_of_neg (by simp [hcounts])]
    · obtain rfl := Option.some.inj hnext
      have hcounts : Path.counts part = true := by
        simpa [Path.counts] using hhere
      rw [List.filter_cons_of_pos hcounts, List.append_assoc, List.singleton_append]

/-- A path to which another one was joined leads from where the path leads. -/
theorem exists_of_follow_join {disk : Disk} {p : Path} (hp : p.text ≠ []) {other : Text}
    (hother : other.head? ≠ some '/') {place : Location}
    (h : disk.follow (disk.start (p.join other)) (Text.pieces '/' (p.join other).text) =
      .ok place) :
    ∃ dir, disk.follow (disk.start p) (Text.pieces '/' p.text) = .ok dir ∧
      disk.follow dir (Text.pieces '/' other) = .ok place := by
  obtain ⟨front, hfront, hjoined, habsolute⟩ := Path.exists_pieces_join hp hother
  rw [start, habsolute, hjoined] at h
  obtain ⟨dir, hdir, hrest⟩ := follow_append_eq_ok_iff.1 h
  refine ⟨dir, ?_, hrest⟩
  rcases hfront with hfront | hfront
  · rw [hfront]
    exact hdir
  · -- the separator at the end asks for a directory, and so does the first part after it
    obtain ⟨part, rest, hparts⟩ := List.exists_cons_of_ne_nil (Text.pieces_ne_nil '/' other)
    rw [hparts] at hrest
    have hnode := (follow_cons_eq_ok_iff.1 hrest).1
    rw [hfront]
    exact follow_append_eq_ok_iff.2 ⟨dir, hdir, follow_cons_eq_ok_iff.2 ⟨hnode, dir, rfl, rfl⟩⟩

end Disk

/-- A path goes down from a root by names: it has the components of the root and these names, and
leads from where the root leads to the place of these names. -/
structure IsBelow (root : Path) (names : List Text) (p : Path) : Prop where
  text_ne_nil : p.text ≠ []
  components : p.components = root.components ++ names.map Path.Component.name
  place : ∀ (disk : Disk) (target : Location),
    disk.follow (disk.start p) (Text.pieces '/' p.text) = .ok target →
    ∃ base, disk.follow (disk.start root) (Text.pieces '/' root.text) = .ok base ∧
      target = base ++ names

namespace IsBelow

variable {root p q : Path} {names : List Text}

theorem refl (h : root.text ≠ []) : IsBelow root [] root :=
  ⟨h, by simp, fun _ target htarget => ⟨target, htarget, by simp⟩⟩

/-- Joining a relative path without `..` goes further down. -/
theorem join (h : IsBelow root names p) {other : Text} (hother : other.head? ≠ some '/')
    (hup : ['.', '.'] ∉ Text.pieces '/' other) :
    IsBelow root (names ++ (Text.pieces '/' other).filter Path.counts) (p.join other) where
  text_ne_nil := by
    rw [Path.join, if_neg hother]
    split <;> simp [h.text_ne_nil]
  components := by
    rw [Path.components_join h.text_ne_nil hother, h.components, Path.steps_of_up_notMem hup,
      List.map_append, List.append_assoc]
  place := by
    intro disk target htarget
    obtain ⟨dir, hdir, hrest⟩ := Disk.exists_of_follow_join h.text_ne_nil hother htarget
    obtain ⟨base, hbase, rfl⟩ := h.place disk dir hdir
    exact ⟨base, hbase, by rw [Disk.eq_append_of_follow hup hrest, List.append_assoc]⟩

theorem join_name (h : IsBelow root names p) {name : Text} (hname : Path.IsFileName name)
    (hslash : '/' ∉ name) : IsBelow root (names ++ [name]) (p.join name) := by
  have hjoin := h.join (fun hhead => hslash (List.mem_of_head? hhead))
    (by rw [Text.pieces_of_notMem hslash, List.mem_singleton]; exact hname.not_up.symm)
  rwa [Text.pieces_of_notMem hslash, List.filter_cons_of_pos hname.counts, List.filter_nil] at hjoin

/-- What a scan returns goes down by the names it was found by. -/
theorem of_names (hroot : root.text ≠ [])
    (hnames : ∀ name ∈ names, Path.IsFileName name ∧ '/' ∉ name) :
    IsBelow root names (root.below names) := by
  induction names using List.reverseRecOn with
  | nil => exact .refl hroot
  | append_singleton names name ih =>
    rw [Path.below, List.foldl_concat]
    obtain ⟨hname, hslash⟩ := hnames name (by simp)
    have hbelow := ih fun other hother => hnames other (List.mem_append_left _ hother)
    exact hbelow.join_name hname hslash

/-- Paths that go down to one place have the same components. -/
theorem components_eq_of_locate {names' : List Text} (hp : IsBelow root names p)
    (hq : IsBelow root names' q) {disk : Disk} {target : Location}
    (hlocate : disk.locate p = .ok target) (hlocate' : disk.locate q = .ok target) :
    p.components = q.components := by
  obtain ⟨base, hbase, htarget⟩ := hp.place disk target (Disk.locate_eq_ok_iff.1 hlocate).2
  obtain ⟨base', hbase', htarget'⟩ := hq.place disk target (Disk.locate_eq_ok_iff.1 hlocate').2
  obtain rfl : base = base' := Except.ok.inj (hbase.symm.trans hbase')
  rw [hp.components, hq.components, List.append_cancel_left (htarget.symm.trans htarget')]

end IsBelow

end StyleLift
