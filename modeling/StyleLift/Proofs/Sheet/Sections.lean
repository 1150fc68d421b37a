import Mathlib.Data.List.Perm.Basic
import StyleLift.Proofs.Sheet.Definitions

/-!
# The sections of a sheet

A sheet is built by updating a list of definitions in place, one variable after the other.  Here
it is described by the variables alone: the names as they first come, the last value of each name
and the folder of its first variable.  The flat sheet is one line for each name.  The grouped sheet
has the same lines, divided by folder, and neither sheet can tell a variable that repeats what is
already there.

* `names`, `lastValue`, `firstGroup`: what matters of a list of variables.
* `definitions_eq`: **the definitions are the names with their last values and first groups.**
* `perm_flatMap_filter`: dividing a list by labels loses nothing and repeats nothing.
* `render_partition`: **the flat sheet has a line for each name, and the grouped sheet is a stable
  partition of it.**
-/

namespace StyleLift.Sheet

/-! ## Names, values and groups -/

/-- The names of variables, each where it first comes. -/
def names (entries : List Variable) : List Text := (entries.map Variable.name).eraseDups

/-- The value of the last variable of a name. -/
def lastValue (entries : List Variable) (name : Text) : Text :=
  ((entries.filter fun v => v.name == name).getLast?.map Variable.value).getD []

/-- The group of the first variable of a name. -/
def firstGroup (groupOf : Variable → Text) (entries : List Variable) (name : Text) : Text :=
  ((entries.find? fun v => v.name == name).map groupOf).getD []

theorem mem_names {entries : List Variable} {name : Text} :
    name ∈ names entries ↔ ∃ v ∈ entries, v.name = name := by
  rw [names, List.mem_eraseDups, List.mem_map]

theorem names_concat (entries : List Variable) (v : Variable) :
    names (entries ++ [v]) =
      if v.name ∈ names entries then names entries else names entries ++ [v.name] := by
  rw [names, List.map_append, List.map_singleton, eraseDups_concat]
  rfl

theorem lastValue_concat (entries : List Variable) (v : Variable) (name : Text) :
    lastValue (entries ++ [v]) name =
      if v.name = name then v.value else lastValue entries name := by
  rw [lastValue, List.filter_append]
  by_cases hname : v.name = name
  · simp [hname]
  · simp [hname, lastValue]

/-- A name that is there keeps its group. -/
theorem firstGroup_concat {groupOf : Variable → Text} {entries : List Variable} {name : Text}
    (hname : name ∈ names entries) (v : Variable) :
    firstGroup groupOf (entries ++ [v]) name = firstGroup groupOf entries name := by
  obtain ⟨w, hw, hwname⟩ := mem_names.1 hname
  have hfound : (entries.find? fun u => u.name == name).isSome = true :=
    List.find?_isSome.2 ⟨w, hw, by simp [hwname]⟩
  rw [firstGroup, List.find?_append, Option.or_of_isSome hfound, firstGroup]

/-- A new name gets the group of its variable. -/
theorem firstGroup_concat_self {groupOf : Variable → Text} {entries : List Variable} {v : Variable}
    (hname : v.name ∉ names entries) :
    firstGroup groupOf (entries ++ [v]) v.name = groupOf v := by
  have hnone : (entries.find? fun u => u.name == v.name) = none := by
    rw [List.find?_eq_none]
    intro w hw hwname
    exact hname (mem_names.2 ⟨w, hw, by simpa using hwname⟩)
  rw [firstGroup, List.find?_append, hnone]
  simp

/-! ## The definitions -/

/-- Defining a name among definitions that are one for each of some names. -/
theorem define_map {valueOf groupOf : Text → Text} {ns : List Text} (hns : ns.Nodup)
    (name value group : Text) :
    define name value group (ns.map fun n => ⟨n, valueOf n, groupOf n⟩) =
      if name ∈ ns then ns.map fun n => ⟨n, if n = name then value else valueOf n, groupOf n⟩
      else ns.map (fun n => ⟨n, valueOf n, groupOf n⟩) ++ [⟨name, value, group⟩] := by
  induction ns with
  | nil => rfl
  | cons n ns ih =>
    rw [List.nodup_cons] at hns
    rw [List.map_cons, define]
    by_cases hname : n = name
    · subst hname
      rw [if_pos rfl, if_pos List.mem_cons_self, List.map_cons, if_pos rfl]
      congr 1
      refine List.map_congr_left ?_
      intro m hm
      have hne : m ≠ n := fun h => hns.1 (h ▸ hm)
      rw [if_neg hne]
    · have hne : ¬ name = n := fun h => hname h.symm
      rw [if_neg hname, ih hns.2]
      simp only [List.mem_cons, hne, false_or]
      split
      · rw [List.map_cons, if_neg hname]
      · rfl

/-- **The definitions are the names with their last values and first groups.** -/
theorem definitions_eq (groupOf : Variable → Text) (entries : List Variable) :
    definitions groupOf entries =
      (names entries).map fun name =>
        ⟨name, lastValue entries name, firstGroup groupOf entries name⟩ := by
  induction entries using List.reverseRecOn with
  | nil => rfl
  | append_singleton entries v ih =>
    have hnodup : (names entries).Nodup := nodup_eraseDups _
    rw [definitions_concat, ih, define_map hnodup, names_concat]
    split
    · refine List.map_congr_left ?_
      intro name hname
      rw [lastValue_concat, firstGroup_concat hname]
      by_cases heq : name = v.name
      · rw [if_pos heq, if_pos heq.symm]
      · rw [if_neg heq, if_neg (Ne.symm heq)]
    · rename_i hnew
      rw [List.map_append, List.map_singleton, lastValue_concat, if_pos rfl,
        firstGroup_concat_self hnew]
      congr 1
      refine List.map_congr_left ?_
      intro name hname
      have hne : ¬ v.name = name := fun h => hnew (h ▸ hname)
      rw [lastValue_concat, if_neg hne, firstGroup_concat hname]

/-- A variable that repeats a name and its last value changes no definition. -/
theorem definitions_concat_of_repeats {entries : List Variable} {v : Variable}
    (hname : v.name ∈ names entries) (hvalue : v.value = lastValue entries v.name)
    (groupOf : Variable → Text) :
    definitions groupOf (entries ++ [v]) = definitions groupOf entries := by
  rw [definitions_eq, definitions_eq, names_concat, if_pos hname]
  refine List.map_congr_left ?_
  intro name hmem
  rw [lastValue_concat, firstGroup_concat hmem]
  split
  · rename_i heq
    rw [hvalue, heq]
  · rfl

/-! ## Sections -/

/-- Dividing a list by labels that are different and cover it loses nothing and repeats
nothing. -/
theorem perm_flatMap_filter {α β : Type} [BEq β] [LawfulBEq β] {f : α → β} {labels : List β}
    (hlabels : labels.Nodup) {l : List α} (hl : ∀ a ∈ l, f a ∈ labels) :
    (labels.flatMap fun b => l.filter fun a => f a == b).Perm l := by
  induction labels generalizing l with
  | nil =>
    cases l with
    | nil => exact List.Perm.nil
    | cons a l => exact absurd (hl a List.mem_cons_self) (by simp)
  | cons b labels ih =>
    rw [List.nodup_cons] at hlabels
    -- the other labels divide what is left
    have hrest : ∀ a ∈ l.filter (fun a => !f a == b), f a ∈ labels := by
      intro a ha
      obtain ⟨ha, hne⟩ := List.mem_filter.1 ha
      rcases List.mem_cons.1 (hl a ha) with heq | hmem
      · simp [heq] at hne
      · exact hmem
    have hsame : ∀ c ∈ labels, l.filter (fun a => f a == c) =
        (l.filter fun a => !f a == b).filter fun a => f a == c := by
      intro c hc
      rw [List.filter_filter]
      refine List.filter_congr ?_
      intro a _
      by_cases hac : f a = c
      · have hcb : c ≠ b := fun h => hlabels.1 (h ▸ hc)
        simp [hac, hcb]
      · simp [hac]
    have hperm := ih hlabels.2 hrest
    rw [List.flatMap_cons, List.flatMap_congr hsame]
    exact (hperm.append_left _).trans (List.filter_append_perm _ l)

/-- The line of a name. -/
def nameLine (entries : List Variable) (name : Text) : Text :=
  definitionLine ⟨name, lastValue entries name, []⟩

/-- The folder of the first variable of a name. -/
def firstFolder (root : Path) (entries : List Variable) (name : Text) : Text :=
  firstGroup (fun v => folderGroup v.path root) entries name

/-- The labels of the sections: the first folders of the names, each where it first comes. -/
def labels (root : Path) (entries : List Variable) : List Text :=
  ((names entries).map (firstFolder root entries)).eraseDups

/-- The names in the section of a folder, in the order of the flat sheet. -/
def sectionNames (root : Path) (entries : List Variable) (label : Text) : List Text :=
  (names entries).filter fun name => firstFolder root entries name == label

theorem render_flat (entries : List Variable) (root : Path) :
    render entries root false = rootRule ((names entries).flatMap (nameLine entries)) := by
  rw [render, if_neg Bool.false_ne_true, definitions_eq, lines, List.flatMap_map]
  rfl

theorem groups_definitions (entries : List Variable) (root : Path) :
    groups (definitions (fun v => folderGroup v.path root) entries) = labels root entries := by
  rw [groups_eq, definitions_eq, List.map_map]
  rfl

theorem render_grouped (entries : List Variable) (root : Path) :
    render entries root true = rootRule (Text.joined ['\n'] ((labels root entries).map fun label =>
      commentLine label ++ (sectionNames root entries label).flatMap (nameLine entries))) := by
  have hsection : ∀ label,
      sectionText (definitions (fun v => folderGroup v.path root) entries) label =
        commentLine label ++ (sectionNames root entries label).flatMap (nameLine entries) := by
    intro label
    rw [sectionText, definitions_eq, List.filter_map, lines, List.flatMap_map]
    rfl
  rw [render, if_pos rfl]
  dsimp only
  rw [groups_definitions, funext hsection]

/-- Every name stands in one section. -/
theorem perm_sectionNames (entries : List Variable) (root : Path) :
    ((labels root entries).flatMap (sectionNames root entries)).Perm (names entries) := by
  have hlabels : (labels root entries).Nodup := nodup_eraseDups _
  have hcover : ∀ name ∈ names entries, firstFolder root entries name ∈ labels root entries :=
    fun name hname => List.mem_eraseDups.2 (List.mem_map_of_mem hname)
  exact perm_flatMap_filter hlabels hcover

/-- **The flat sheet has a line for each name, and the grouped sheet is a stable partition of
it.**  A variable that repeats a name and its last value changes neither. -/
theorem render_partition (entries : List Variable) (root : Path) :
    render entries root false = rootRule ((names entries).flatMap (nameLine entries)) ∧
    render entries root true =
      rootRule (Text.joined ['\n'] ((labels root entries).map fun label =>
        commentLine label ++ (sectionNames root entries label).flatMap (nameLine entries))) ∧
    (names entries).Nodup ∧ (labels root entries).Nodup ∧
    ((labels root entries).flatMap (sectionNames root entries)).Perm (names entries) ∧
    ∀ v : Variable, v.name ∈ names entries → v.value = lastValue entries v.name →
      ∀ grouped, render (entries ++ [v]) root grouped = render entries root grouped := by
  refine ⟨render_flat entries root, render_grouped entries root, nodup_eraseDups _,
    nodup_eraseDups _, perm_sectionNames entries root, ?_⟩
  intro v hname hvalue grouped
  simp only [render, definitions_concat_of_repeats hname hvalue]

/-- A name that comes first in one folder and then, with other values, in another. -/
theorem render_partition_across_folders :
    render ([⟨"color".toList, "red".toList, "--a".toList, ⟨"/p/x/1.css".toList⟩, 1⟩,
        ⟨"color".toList, "blue".toList, "--b".toList, ⟨"/p/y/1.css".toList⟩, 1⟩,
        ⟨"color".toList, "green".toList, "--a".toList, ⟨"/p/y/2.css".toList⟩, 1⟩] ++
          [⟨"color".toList, "green".toList, "--a".toList, ⟨"/p/z/1.css".toList⟩, 1⟩])
      ⟨"/p".toList⟩ true =
        (":root \x7b\n  /* x */\n  --a: green;\n\n  /* y */\n  --b: blue;\n\x7d\n").toList := by
  rw [(render_partition _ _).2.2.2.2.2 _ (by decide +kernel) (by decide +kernel)]
  decide +kernel

end StyleLift.Sheet
