import StyleLift.Proofs.Path.Relative
import StyleLift.Proofs.Sheet.Sections

/-!
# Sections and folders

A grouped sheet has a section for each label, and a label is made for a folder: its path relative to
the root, with slashes for backslashes, or a fixed word for the root itself.  Two folders share a
section when they share a label, so the question is what the label forgets.

It forgets three things.  The word for the root is also the label of a folder of this name.  A
backslash in a name reads like a separator.  And a path may be spelled with parts that are no
components, which the label keeps, so that one folder may have two labels.  For folders that are
spelled plainly only the first is left.

* `InOneSection`, `inOneSection_iff`: two names stand in one section if their folders have one label.
* `relativeFolder`, `exists_relativeFolder`: the folder of a file and the label it makes.
* `same_section_iff`: **plain folders share a section exactly if they are the same, or one is the root
  and the other is called like it.**
* `root_shares_section`: the root and a folder that is called `root`.
-/

namespace StyleLift.Sheet

open StyleLift.Path (Component)

/-! ## Sections -/

/-- Both names stand in one section of the grouped sheet. -/
def InOneSection (root : Path) (entries : List Variable) (n m : Text) : Prop :=
  ∃ label ∈ labels root entries, n ∈ sectionNames root entries label ∧
    m ∈ sectionNames root entries label

theorem mem_sectionNames {root : Path} {entries : List Variable} {n label : Text} :
    n ∈ sectionNames root entries label ↔
      n ∈ names entries ∧ firstFolder root entries n = label := by
  rw [sectionNames, List.mem_filter, beq_iff_eq]

/-- Names stand in one section if the folders of their first variables have one label. -/
theorem inOneSection_iff {root : Path} {entries : List Variable} {n m : Text} {v w : Variable}
    (hv : entries.find? (fun u => u.name == n) = some v)
    (hw : entries.find? (fun u => u.name == m) = some w) :
    InOneSection root entries n m ↔ folderGroup v.path root = folderGroup w.path root := by
  have hfolder : ∀ {n : Text} {v : Variable}, entries.find? (fun u => u.name == n) = some v →
      n ∈ names entries ∧ firstFolder root entries n = folderGroup v.path root := by
    intro n v hv
    refine ⟨mem_names.2 ⟨v, List.mem_of_find?_eq_some hv, by simpa using List.find?_some hv⟩, ?_⟩
    rw [firstFolder, firstGroup, hv]
    rfl
  obtain ⟨hn, hvfolder⟩ := hfolder hv
  obtain ⟨hm, hwfolder⟩ := hfolder hw
  simp only [InOneSection, mem_sectionNames, hn, hm, true_and, hvfolder, hwfolder]
  constructor
  · rintro ⟨label, -, rfl, hlabel⟩
    exact hlabel.symm
  · intro hlabel
    refine ⟨folderGroup v.path root, ?_, rfl, hlabel.symm⟩
    rw [← hvfolder]
    exact List.mem_eraseDups.2 (List.mem_map_of_mem hn)

/-! ## Folders -/

/-- The file lies in the folder with these components below the root. -/
def LiesIn (root path : Path) (folder : List Component) : Prop :=
  ∃ name, path.components = root.components ++ folder ++ [.name name]

/-- The folder of a file relative to the root. -/
def relativeFolder (root path : Path) : Path :=
  (path.parent?.bind fun parent => parent.relativeTo? root).getD ⟨[]⟩

/-- A folder that is spelled by its components alone and without backslashes. -/
structure IsPlainFolder (folder : Path) : Prop where
  tidy : folder.IsTidy
  backslash : '\\' ∉ folder.text

variable {root path : Path} {folder : List Component}

/-- A file below the root has a folder with the components in between, and this folder makes its
label. -/
theorem exists_relativeFolder (h : LiesIn root path folder) :
    (relativeFolder root path).components = folder ∧
      folderGroup path root = if (relativeFolder root path).text = [] then rootLabel
        else Text.exchange '\\' '/' (relativeFolder root path).text := by
  obtain ⟨name, hname⟩ := h
  obtain ⟨parent, hparent, hcomponents⟩ :=
    Path.parent?_eq_some_of_components hname (by simp)
  obtain ⟨rel, hrel, hfolder⟩ := Path.exists_relativeTo? hcomponents
  have hrelative : relativeFolder root path = rel := by
    rw [relativeFolder, hparent, Option.bind_some, hrel, Option.getD_some]
  have hshown : parent.shown root = Text.exchange '\\' '/' rel.text := by
    rw [Path.shown, hrel, Option.getD_some]
  refine ⟨hrelative ▸ hfolder, ?_⟩
  rw [hrelative, folderGroup, hparent, Option.map_some, Option.getD_some, hshown]
  simp [Text.exchange]

/-- Only the root itself has no text. -/
theorem text_relativeFolder_iff (h : LiesIn root path folder) :
    (relativeFolder root path).text = [] ↔ folder = [] := by
  rw [← (exists_relativeFolder h).1]
  constructor
  · intro htext
    rw [show relativeFolder root path = ⟨[]⟩ from congrArg Path.mk htext]
    rfl
  · exact Path.text_eq_nil_of_components

theorem folderGroup_of_root (h : LiesIn root path []) : folderGroup path root = rootLabel := by
  rw [(exists_relativeFolder h).2, if_pos ((text_relativeFolder_iff h).2 rfl)]

theorem folderGroup_of_ne_nil (h : LiesIn root path folder) (hne : folder ≠ []) :
    folderGroup path root = Text.exchange '\\' '/' (relativeFolder root path).text := by
  rw [(exists_relativeFolder h).2, if_neg (mt (text_relativeFolder_iff h).1 hne)]

/-- A text without backslashes is shown as it is. -/
theorem exchange_of_notMem {s : Text} (h : '\\' ∉ s) : Text.exchange '\\' '/' s = s := by
  refine (List.map_congr_left fun c hc => ?_).trans (List.map_id s)
  have hne : c ≠ '\\' := fun heq => h (heq ▸ hc)
  rw [if_neg hne, id]

/-- A text that is shown without slashes is shown as it is. -/
theorem eq_of_exchange_eq {s t : Text} (h : Text.exchange '\\' '/' s = t) (ht : '/' ∉ t) :
    s = t := by
  have hs : '\\' ∉ s := by
    intro hmem
    refine ht (h ▸ List.mem_map.2 ⟨'\\', hmem, ?_⟩)
    rfl
  rw [← h, exchange_of_notMem hs]

/-- **A folder with the label of the root** is the root or a folder that is called like it. -/
theorem eq_of_folderGroup_eq_rootLabel (h : LiesIn root path folder)
    (hlabel : folderGroup path root = rootLabel) : folder = [] ∨ folder = [.name rootLabel] := by
  by_cases hfolder : folder = []
  · exact Or.inl hfolder
  · rw [folderGroup_of_ne_nil h hfolder] at hlabel
    have htext := eq_of_exchange_eq hlabel (by decide)
    right
    rw [← (exists_relativeFolder h).1,
      show relativeFolder root path = ⟨rootLabel⟩ from congrArg Path.mk htext]
    decide

/-- The label of a plain folder other than the root is its text, which tells its components. -/
theorem folderGroup_of_isPlainFolder (h : LiesIn root path folder) (hne : folder ≠ [])
    (hplain : IsPlainFolder (relativeFolder root path)) :
    folderGroup path root = Path.spelling folder ∧
      folder = (⟨Path.spelling folder⟩ : Path).components := by
  have hcomponents := (exists_relativeFolder h).1
  have htext : (relativeFolder root path).text = Path.spelling folder := by
    rw [hplain.tidy, hcomponents]
  refine ⟨?_, ?_⟩
  · rw [folderGroup_of_ne_nil h hne, exchange_of_notMem hplain.backslash, htext]
  · rw [← htext, hcomponents]

/-! ## Sections and folders -/

/-- **The sections of plain folders.**  Let two names come first in files of the folders `f` and `g`
below the root.

* If the first of them is the root, they stand in one section only if the second is the root too, or
  a folder right below the root that is called like the label of the root.
* If both are spelled plainly, they stand in one section exactly if they are the same folder, or one
  is the root and the other is called like its label. -/
theorem same_section_iff {entries : List Variable} {n m : Text} {v w : Variable}
    (hv : entries.find? (fun u => u.name == n) = some v)
    (hw : entries.find? (fun u => u.name == m) = some w) {f g : List Component}
    (hf : LiesIn root v.path f) (hg : LiesIn root w.path g) :
    render entries root true =
      rootRule (Text.joined ['\n'] ((labels root entries).map fun label =>
        commentLine label ++ (sectionNames root entries label).flatMap (nameLine entries))) ∧
    (f = [] → InOneSection root entries n m → g = [] ∨ g = [.name rootLabel]) ∧
    (IsPlainFolder (relativeFolder root v.path) → IsPlainFolder (relativeFolder root w.path) →
      (InOneSection root entries n m ↔
        f = g ∨ f = [] ∧ g = [.name rootLabel] ∨ f = [.name rootLabel] ∧ g = [])) := by
  rw [inOneSection_iff hv hw]
  refine ⟨render_grouped entries root, ?_, ?_⟩
  · rintro rfl hlabel
    exact eq_of_folderGroup_eq_rootLabel hg (hlabel.symm.trans (folderGroup_of_root hf))
  · intro hvplain hwplain
    constructor
    · intro hlabel
      by_cases hfnil : f = []
      · subst hfnil
        rw [folderGroup_of_root hf] at hlabel
        exact (eq_of_folderGroup_eq_rootLabel hg hlabel.symm).imp Eq.symm fun h => Or.inl ⟨rfl, h⟩
      · by_cases hgnil : g = []
        · subst hgnil
          rw [folderGroup_of_root hg] at hlabel
          have hroot := (eq_of_folderGroup_eq_rootLabel hf hlabel).resolve_left hfnil
          exact Or.inr (Or.inr ⟨hroot, rfl⟩)
        · -- both labels are texts, and texts tell the components
          obtain ⟨hflabel, hfcomponents⟩ := folderGroup_of_isPlainFolder hf hfnil hvplain
          obtain ⟨hglabel, hgcomponents⟩ := folderGroup_of_isPlainFolder hg hgnil hwplain
          rw [hflabel, hglabel] at hlabel
          rw [hfcomponents, hlabel, ← hgcomponents]
          exact Or.inl rfl
    · have hcalled : ∀ {path : Path}, LiesIn root path [.name rootLabel] →
          IsPlainFolder (relativeFolder root path) → folderGroup path root = rootLabel :=
        fun h hplain => (folderGroup_of_isPlainFolder h (List.cons_ne_nil _ _) hplain).1
      rintro (rfl | ⟨rfl, rfl⟩ | ⟨rfl, rfl⟩)
      · by_cases hfnil : f = []
        · subst hfnil
          rw [folderGroup_of_root hf, folderGroup_of_root hg]
        · rw [(folderGroup_of_isPlainFolder hf hfnil hvplain).1,
            (folderGroup_of_isPlainFolder hg hfnil hwplain).1]
      · rw [folderGroup_of_root hf, hcalled hg hwplain]
      · rw [hcalled hf hvplain, folderGroup_of_root hg]

/-- Two files of one folder, and a file of the root, below a root that is spelled with a separator too
many. -/
theorem same_section_of_nested_folders :
    let root : Path := ⟨"/p//".toList⟩
    let entries : List Variable :=
      [⟨"color".toList, "red".toList, "--a".toList, ⟨"/p//x/y/1.css".toList⟩, 1⟩,
        ⟨"color".toList, "blue".toList, "--b".toList, ⟨"/p//1.css".toList⟩, 1⟩,
        ⟨"color".toList, "green".toList, "--c".toList, ⟨"/p//x/y/2.css".toList⟩, 1⟩]
    InOneSection root entries "--a".toList "--c".toList ∧
      ¬ InOneSection root entries "--a".toList "--b".toList := by
  intro root entries
  have hfolder : ∀ name ∈ ["1.css".toList, "2.css".toList],
      LiesIn root ⟨"/p//x/y/".toList ++ name⟩ [.name ['x'], .name ['y']] := by
    intro name hname
    refine ⟨name, ?_⟩
    simp only [List.mem_cons, List.not_mem_nil, or_false] at hname
    rcases hname with rfl | rfl <;> decide
  have hroot : LiesIn root ⟨"/p//1.css".toList⟩ [] := ⟨"1.css".toList, by decide⟩
  have hfirst := hfolder "1.css".toList (by decide)
  have hsecond := hfolder "2.css".toList (by decide)
  have hplain : ∀ path ∈ [⟨"/p//x/y/1.css".toList⟩, ⟨"/p//1.css".toList⟩, ⟨"/p//x/y/2.css".toList⟩],
      IsPlainFolder (relativeFolder root path) := by
    intro path hpath
    simp only [List.mem_cons, List.not_mem_nil, or_false] at hpath
    rcases hpath with rfl | rfl | rfl <;> exact ⟨by unfold Path.IsTidy; decide, by decide⟩
  refine ⟨?_, ?_⟩
  · exact ((same_section_iff rfl rfl hfirst hsecond).2.2 (hplain _ (by decide))
      (hplain _ (by decide))).2 (Or.inl rfl)
  · rw [(same_section_iff rfl rfl hfirst hroot).2.2 (hplain _ (by decide)) (hplain _ (by decide))]
    decide

/-- **The root and a folder called `root` share a section,** although they are different folders. -/
theorem root_shares_section :
    let root : Path := ⟨"/p".toList⟩
    let entries : List Variable :=
      [⟨"color".toList, "red".toList, "--a".toList, ⟨"/p/1.css".toList⟩, 1⟩,
        ⟨"color".toList, "blue".toList, "--b".toList, ⟨"/p/root/1.css".toList⟩, 1⟩]
    LiesIn root ⟨"/p/1.css".toList⟩ [] ∧
      LiesIn root ⟨"/p/root/1.css".toList⟩ [.name "root".toList] ∧
      InOneSection root entries "--a".toList "--b".toList ∧
      render entries root true =
        ":root \x7b\n  /* root */\n  --a: red;\n  --b: blue;\n\x7d\n".toList :=
  ⟨⟨"1.css".toList, by decide⟩, ⟨"1.css".toList, by decide⟩,
    ⟨"root".toList, by decide +kernel, by decide +kernel, by decide +kernel⟩, by decide +kernel⟩

-- a backslash reads like a separator, and a part that is no component stays in the label
example : folderGroup ⟨"/p/a\\b/1.css".toList⟩ ⟨"/p".toList⟩ =
    folderGroup ⟨"/p/a/b/1.css".toList⟩ ⟨"/p".toList⟩ := by decide

example : folderGroup ⟨"/p/a/./b/1.css".toList⟩ ⟨"/p".toList⟩ ≠
    folderGroup ⟨"/p/a/b/1.css".toList⟩ ⟨"/p".toList⟩ := by decide

end StyleLift.Sheet
