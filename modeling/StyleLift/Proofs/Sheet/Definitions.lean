import Mathlib.Data.List.Induction
import StyleLift.Proofs.FirstOccurrences
import StyleLift.Sheet

/-!
# What a sheet defines

The definitions of a list of variables are built one variable at a time, and each variable
touches only its own name.  So a sheet defines every name at most once, and the value it gives to
a name is that of the last variable of this name.  An index of the names can lead to the definition
that has to be changed, but the sheet is the same without it.

* `valuesOf`: all values that a list of definitions gives to one name.
* `valuesOf_define_self`, `valuesOf_define_of_ne`: what one variable changes.
* `definitions_indexed`: definitions through an index.
* `valuesOf_definitions`: the value of a name is that of its last variable.
* `valuesOf_definitions_of_mem`: if variables of one name agree in their value, the sheet gives
  each of them its own.
* `pairs_definitions`: then the definitions are the variables without repetitions.
* `defines_render`, `defines_renderAssets`: every variable has its line in the text.
-/

namespace StyleLift.Sheet

/-- The values that a list of definitions gives to a name. -/
def valuesOf (name : Text) (ds : List Definition) : List Text :=
  (ds.filter fun d => d.name == name).map Definition.value

theorem valuesOf_eq_nil_of_notMem {name : Text} {ds : List Definition}
    (h : name ∉ ds.map Definition.name) : valuesOf name ds = [] := by
  rw [valuesOf, List.map_eq_nil_iff, List.filter_eq_nil_iff]
  intro d hd hname
  exact h (List.mem_map.mpr ⟨d, hd, by simpa using hname⟩)

/-! ## One variable -/

theorem define_eq_upsert (name value group : Text) (ds : List Definition) :
    define name value group ds =
      upsert Definition.name name ⟨name, value, group⟩ (fun d => { d with value := value }) ds := by
  induction ds with
  | nil => rfl
  | cons d ds ih => rw [define, upsert, ih]

/-- A known name keeps its place, a new one comes last. -/
theorem names_define (name value group : Text) (ds : List Definition) :
    (define name value group ds).map Definition.name =
      if name ∈ ds.map Definition.name then ds.map Definition.name
      else ds.map Definition.name ++ [name] := by
  rw [define_eq_upsert]
  refine keys_upsert ?_ ?_ ds
  · rfl
  · exact fun _ => rfl

theorem nodup_names_define {ds : List Definition} (h : (ds.map Definition.name).Nodup)
    (name value group : Text) :
    ((define name value group ds).map Definition.name).Nodup := by
  rw [names_define]
  split
  · exact h
  · rename_i hnew
    rw [← List.concat_eq_append]
    exact List.Nodup.concat hnew h

/-- The name that is defined gets the value. -/
theorem valuesOf_define_self {ds : List Definition} (h : (ds.map Definition.name).Nodup)
    (name value group : Text) : valuesOf name (define name value group ds) = [value] := by
  induction ds with
  | nil => simp [define, valuesOf]
  | cons d ds ih =>
    rw [List.map_cons, List.nodup_cons] at h
    rw [define]
    split
    · rename_i hname
      subst hname
      have hrest : valuesOf d.name ds = [] := valuesOf_eq_nil_of_notMem h.1
      rw [valuesOf] at hrest ⊢
      simpa using hrest
    · rename_i hname
      have hrest := ih h.2
      rw [valuesOf] at hrest ⊢
      simpa [hname] using hrest

/-- Every other name keeps its values. -/
theorem valuesOf_define_of_ne {name other : Text} (h : other ≠ name) (value group : Text)
    (ds : List Definition) :
    valuesOf other (define name value group ds) = valuesOf other ds := by
  induction ds with
  | nil => simp [define, valuesOf, h.symm]
  | cons d ds ih =>
    rw [define]
    split
    · rename_i hname
      have hne : ¬ d.name = other := fun hd => h (hd.symm.trans hname)
      simp [valuesOf, hne]
    · rw [valuesOf, valuesOf, List.filter_cons, List.filter_cons]
      rw [valuesOf, valuesOf] at ih
      split
      · rw [List.map_cons, List.map_cons, ih]
      · exact ih

/-! ## All variables -/

@[simp] theorem definitions_nil (groupOf : Variable → Text) : definitions groupOf [] = [] := rfl

theorem definitions_concat (groupOf : Variable → Text) (entries : List Variable) (v : Variable) :
    definitions groupOf (entries ++ [v]) =
      define v.name v.value (groupOf v) (definitions groupOf entries) := by
  rw [definitions, List.foldl_append]
  rfl

/-- **No name is defined twice.** -/
theorem nodup_names_definitions (groupOf : Variable → Text) (entries : List Variable) :
    ((definitions groupOf entries).map Definition.name).Nodup := by
  induction entries using List.reverseRecOn with
  | nil => exact List.nodup_nil
  | append_singleton entries v ih =>
    rw [definitions_concat]
    exact nodup_names_define ih _ _ _

/-! ## Through an index -/

/-- Definitions, and the place of the definition of every name. -/
structure Indexed where
  index : List (Text × Nat) := []
  definitions : List Definition := []

/-- Defines a variable where the index says, or at the end. -/
def Indexed.define (groupOf : Variable → Text) (sheet : Indexed) (v : Variable) : Indexed :=
  match sheet.index.lookup v.name with
  | some place =>
    { sheet with
      definitions := sheet.definitions.modify place fun d => { d with value := v.value } }
  | none =>
    ⟨sheet.index ++ [(v.name, sheet.definitions.length)],
      sheet.definitions ++ [⟨v.name, v.value, groupOf v⟩]⟩

/-- One variable is defined through the index as without it, and the index stays right. -/
theorem Indexed.define_of_isIndex (groupOf : Variable → Text) {sheet : Indexed}
    (h : IsIndex sheet.index (sheet.definitions.map Definition.name)) (v : Variable) :
    (sheet.define groupOf v).definitions =
        Sheet.define v.name v.value (groupOf v) sheet.definitions ∧
      IsIndex (sheet.define groupOf v).index
        ((sheet.define groupOf v).definitions.map Definition.name) := by
  rw [Indexed.define]
  cases hplace : sheet.index.lookup v.name with
  | none =>
    have hconcat := h.concat v.name
    rw [List.length_map] at hconcat
    rw [define_eq_upsert, h.upsert_eq_concat hplace]
    refine ⟨rfl, ?_⟩
    rwa [List.map_append]
  | some place =>
    have hknown : v.name ∈ sheet.definitions.map Definition.name := by
      rw [← List.isSome_idxOf?, ← h v.name, hplace]
      rfl
    have hdefine := names_define v.name v.value (groupOf v) sheet.definitions
    rw [if_pos hknown, define_eq_upsert, h.upsert_eq_modify hplace] at hdefine
    rw [define_eq_upsert, h.upsert_eq_modify hplace]
    refine ⟨rfl, ?_⟩
    rwa [hdefine]

/-- **An index changes nothing.**  Definitions that are found by it are those that are found by a
search from the front. -/
theorem definitions_indexed (groupOf : Variable → Text) (entries : List Variable) :
    (entries.foldl (Indexed.define groupOf) {}).definitions = definitions groupOf entries ∧
      IsIndex (entries.foldl (Indexed.define groupOf) {}).index
        ((definitions groupOf entries).map Definition.name) := by
  induction entries using List.reverseRecOn with
  | nil => exact ⟨rfl, isIndex_nil⟩
  | append_singleton entries v ih =>
    obtain ⟨hdefinitions, hindex⟩ := ih
    rw [← hdefinitions] at hindex
    obtain ⟨hdefine, hindex'⟩ := Indexed.define_of_isIndex groupOf hindex v
    rw [List.foldl_append, List.foldl_cons, List.foldl_nil, definitions_concat, ← hdefinitions,
      ← hdefine]
    exact ⟨rfl, hindex'⟩

/-! ## Values -/

/-- **The last variable of a name gives its value.** -/
theorem valuesOf_definitions (groupOf : Variable → Text) (entries : List Variable)
    (name : Text) :
    valuesOf name (definitions groupOf entries) =
      ((entries.filter fun v => v.name == name).getLast?.map Variable.value).toList := by
  induction entries using List.reverseRecOn with
  | nil => rfl
  | append_singleton entries v ih =>
    rw [definitions_concat, List.filter_append]
    by_cases hname : v.name = name
    · subst hname
      rw [valuesOf_define_self (nodup_names_definitions groupOf entries)]
      simp
    · rw [valuesOf_define_of_ne (Ne.symm hname), ih]
      simp [hname]

/-- Where variables of one name agree in their value, each of them is defined once and with its
own value. -/
theorem valuesOf_definitions_of_mem (groupOf : Variable → Text) {entries : List Variable}
    (hagree : ∀ v ∈ entries, ∀ w ∈ entries, v.name = w.name → v.value = w.value)
    {v : Variable} (hv : v ∈ entries) :
    valuesOf v.name (definitions groupOf entries) = [v.value] := by
  rw [valuesOf_definitions]
  cases hlast : (entries.filter fun w => w.name == v.name).getLast? with
  | none =>
    have hnil := List.getLast?_eq_none_iff.mp hlast
    exact absurd (List.filter_eq_nil_iff.mp hnil v hv) (by simp)
  | some w =>
    have hw := List.mem_filter.mp (List.mem_of_mem_getLast? hlast)
    have hname : w.name = v.name := by simpa using hw.2
    rw [Option.map_some, Option.toList_some, hagree w hw.1 v hv hname]

/-- Every definition is that of some variable. -/
theorem exists_mem_of_mem_definitions {groupOf : Variable → Text} {entries : List Variable}
    {d : Definition} (hd : d ∈ definitions groupOf entries) :
    ∃ v ∈ entries, v.name = d.name ∧ v.value = d.value := by
  have hmem : d.value ∈ valuesOf d.name (definitions groupOf entries) := by
    rw [valuesOf, List.mem_map]
    exact ⟨d, List.mem_filter.mpr ⟨hd, by simp⟩, rfl⟩
  rw [valuesOf_definitions, Option.mem_toList, Option.map_eq_some_iff] at hmem
  obtain ⟨v, hlast, hvalue⟩ := hmem
  have hv := List.mem_filter.mp (List.mem_of_mem_getLast? hlast)
  exact ⟨v, hv.1, by simpa using hv.2, hvalue⟩

/-- Every variable is defined. -/
theorem exists_mem_definitions (groupOf : Variable → Text) {entries : List Variable}
    {v : Variable} (hv : v ∈ entries) : ∃ d ∈ definitions groupOf entries, d.name = v.name := by
  rw [← List.mem_map]
  induction entries using List.reverseRecOn with
  | nil => cases hv
  | append_singleton entries last ih =>
    rw [definitions_concat, names_define]
    rcases List.mem_append.1 hv with hv | hv
    · split
      · exact ih hv
      · exact List.mem_append_left _ (ih hv)
    · obtain rfl := List.mem_singleton.1 hv
      split
      · rename_i hknown
        exact hknown
      · exact List.mem_append_right _ (List.mem_singleton_self _)

/-! ## Pairs of names and values -/

/-- Defining a name by the value it has already changes nothing, and a new name comes last. -/
theorem pairs_define {name value : Text} {ds : List Definition}
    (h : ∀ d ∈ ds, d.name = name → d.value = value) (group : Text) :
    (define name value group ds).map (fun d => (d.name, d.value)) =
      if (name, value) ∈ ds.map (fun d => (d.name, d.value)) then
        ds.map fun d => (d.name, d.value)
      else ds.map (fun d => (d.name, d.value)) ++ [(name, value)] := by
  induction ds with
  | nil => rfl
  | cons d ds ih =>
    rw [List.forall_mem_cons] at h
    rw [define]
    by_cases hname : d.name = name
    · simp [hname, h.1 hname]
    · have hne : (name, value) ≠ (d.name, d.value) := fun heq => hname (congrArg Prod.fst heq).symm
      rw [if_neg hname, List.map_cons, ih h.2, List.map_cons]
      simp only [List.mem_cons, hne, false_or]
      split <;> rfl

/-- **If variables of one name agree in their value, the definitions are the pairs of names and
values, each where it first comes.** -/
theorem pairs_definitions (groupOf : Variable → Text) {entries : List Variable}
    (hagree : ∀ v ∈ entries, ∀ w ∈ entries, v.name = w.name → v.value = w.value) :
    (definitions groupOf entries).map (fun d => (d.name, d.value)) =
      (entries.map fun v => (v.name, v.value)).eraseDups := by
  induction entries using List.reverseRecOn with
  | nil => rfl
  | append_singleton entries v ih =>
    have hbefore : ∀ d ∈ definitions groupOf entries, d.name = v.name → d.value = v.value := by
      intro d hd hname
      obtain ⟨w, hw, hwname, hwvalue⟩ := exists_mem_of_mem_definitions hd
      rw [← hwvalue]
      exact hagree w (by simp [hw]) v (by simp) (hwname.trans hname)
    have hentries := ih fun u hu w hw => hagree u (by simp [hu]) w (by simp [hw])
    rw [definitions_concat, pairs_define hbefore, List.map_append, List.map_singleton,
      eraseDups_concat, hentries]

/-! ## The text -/

/-- A line of the text defines the name. -/
def Defines (s name : Text) : Prop := ∃ d : Definition, d.name = name ∧ definitionLine d <:+: s

theorem infix_lines {ds : List Definition} {d : Definition} (hd : d ∈ ds) :
    definitionLine d <:+: lines ds := by
  rw [lines, List.flatMap_def]
  exact List.infix_of_mem_flatten (List.mem_map_of_mem hd)

/-- The labels of the sections are the labels of the definitions, each where it first comes. -/
theorem groups_eq (ds : List Definition) : groups ds = (ds.map Definition.group).eraseDups := by
  induction ds using List.reverseRecOn with
  | nil => rfl
  | append_singleton ds d ih =>
    rw [List.map_append, List.map_singleton, eraseDups_concat, ← ih, groups, List.foldl_append,
      ← groups]
    simp only [List.foldl_cons, List.foldl_nil, List.contains_iff_mem]

theorem mem_groups {ds : List Definition} {d : Definition} (hd : d ∈ ds) : d.group ∈ groups ds := by
  rw [groups_eq, List.mem_eraseDups]
  exact List.mem_map_of_mem hd

theorem infix_joined (sep : Text) {l : List Text} {s : Text} (hs : s ∈ l) :
    s <:+: Text.joined sep l := by
  induction l with
  | nil => cases hs
  | cons first rest ih =>
    cases rest with
    | nil =>
      obtain rfl := List.mem_singleton.1 hs
      exact List.infix_refl _
    | cons second rest =>
      change s <:+: first ++ sep ++ Text.joined sep (second :: rest)
      rcases List.mem_cons.1 hs with rfl | hs
      · rw [List.append_assoc]
        exact (List.prefix_append _ _).isInfix
      · exact (ih hs).trans (List.suffix_append _ _).isInfix

theorem infix_rootRule (body : Text) : body <:+: rootRule body :=
  List.infix_append _ _ _

/-- **A sheet defines every variable.** -/
theorem defines_render {entries : List Variable} {v : Variable} (hv : v ∈ entries) (root : Path)
    (grouped : Bool) : Defines (render entries root grouped) v.name := by
  cases grouped with
  | false =>
    obtain ⟨d, hd, hname⟩ := exists_mem_definitions (fun _ => []) hv
    exact ⟨d, hname, (infix_lines hd).trans (infix_rootRule _)⟩
  | true =>
    obtain ⟨d, hd, hname⟩ := exists_mem_definitions (fun v => folderGroup v.path root) hv
    refine ⟨d, hname, .trans ?_ (infix_rootRule _)⟩
    -- the definition stands in the section of its folder
    have hsection : definitionLine d <:+:
        sectionText (definitions (fun v => folderGroup v.path root) entries) d.group :=
      (infix_lines (List.mem_filter.2 ⟨hd, by simp⟩)).trans (List.suffix_append _ _).isInfix
    exact hsection.trans (infix_joined _ (List.mem_map_of_mem (mem_groups hd)))

/-- **A sheet of images defines every image.** -/
theorem defines_renderAssets {entries : List Variable} {v : Variable} (hv : v ∈ entries) :
    Defines (renderAssets entries) v.name := by
  obtain ⟨d, hd, hname⟩ := exists_mem_definitions (fun _ => []) hv
  have hbody : definitionLine d <:+:
      commentLine assetsComment ++ lines (definitions (fun _ => []) entries) :=
    (infix_lines hd).trans (List.suffix_append _ _).isInfix
  exact ⟨d, hname, hbody.trans (infix_rootRule _)⟩

end StyleLift.Sheet
