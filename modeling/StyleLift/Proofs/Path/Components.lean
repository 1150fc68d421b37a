import Mathlib.Data.List.TakeWhile
import StyleLift.Proofs.Path.Names

/-!
# The components of joined and cut paths

Two paths are the same if their components are, whatever their texts.  Joining and taking the parent
work on the text, so it takes a proof that they mean something for components: joining appends the
components of the right side, and the parent has all components but the last.  What stands in the
way is the first part of a text, where a separator and a `.` count that count nowhere else.

* `lead`, `steps`, `components_eq`: the components are at most one that only the first part can be,
  and then the names and `..` among all parts.
* `components_join`, `components_join_name`: what joining appends.
* `above`, `map_components_parent?`, `isPrefix_text_parent?`: components and text of the parent.
* `components_join_parent`: a path that is joined, and the directory it lies in.
-/

namespace StyleLift

namespace Text

theorem joined_pieces (sep : Char) (s : Text) : joined [sep] (pieces sep s) = s := by
  rw [pieces_eq_splitOn, joined_eq_intercalate, List.intercalate_splitOn]

theorem joined_cons_cons (sep s t : Text) (l : List Text) :
    joined sep (s :: t :: l) = s ++ sep ++ joined sep (t :: l) := rfl

theorem isPrefix_joined (sep : Text) {l l' : List Text} (h : l <+: l') :
    joined sep l <+: joined sep l' := by
  induction l generalizing l' with
  | nil => exact List.nil_prefix
  | cons s l ih =>
    obtain ⟨rest, rfl⟩ := h
    cases l with
    | nil =>
      cases rest with
      | nil => exact List.prefix_refl _
      | cons t rest =>
        rw [List.singleton_append, joined_cons_cons, List.append_assoc]
        exact List.prefix_append _ _
    | cons t l =>
      have hrest := ih (List.prefix_append (t :: l) rest)
      rw [List.cons_append, List.cons_append, joined_cons_cons, joined_cons_cons]
      exact (List.prefix_append_right_inj _).2 hrest

end Text

namespace Path

open Text (pieces)

/-! ## First parts and all parts -/

/-- The names and `..` among parts. -/
def steps (parts : List Text) : List Component := (parts.filter counts).map Component.ofPart

/-- The component that only the first part can be: the root, or a leading `.`. -/
def lead (p : Path) : List Component :=
  if p.isAbsolute then [.root]
  else if (pieces '/' p.text).head? = some ['.'] then [.here]
  else []

@[simp] theorem steps_nil : steps [] = [] := rfl

@[simp] theorem steps_append (front tail : List Text) :
    steps (front ++ tail) = steps front ++ steps tail := by
  simp [steps]

theorem steps_cons_of_counts {part : Text} (h : counts part = true) (rest : List Text) :
    steps (part :: rest) = Component.ofPart part :: steps rest := by
  simp [steps, h]

theorem steps_cons_of_not_counts {part : Text} (h : counts part = false) (rest : List Text) :
    steps (part :: rest) = steps rest := by
  simp [steps, h]

theorem steps_eq_nil {parts : List Text} (h : ∀ part ∈ parts, counts part = false) :
    steps parts = [] := by
  rw [steps, List.filter_eq_nil_iff.2 (by simpa using h), List.map_nil]

/-- A part that counts is a name or a `..`. -/
theorem ofPart_of_counts {part : Text} (h : counts part = true) :
    Component.ofPart part = .up ∨ Component.ofPart part = .name part := by
  simp only [counts, Bool.and_eq_true, bne_iff_ne, ne_eq] at h
  rw [Component.ofPart, if_neg h.2]
  split
  · exact Or.inl rfl
  · exact Or.inr rfl

theorem ofPart_ne_root (part : Text) : Component.ofPart part ≠ .root := by
  rw [Component.ofPart]
  split_ifs <;> simp

theorem IsFileName.ofPart {name : Text} (h : IsFileName name) :
    Component.ofPart name = .name name := by
  rcases ofPart_of_counts h.counts with hup | hname
  · rw [Component.ofPart] at hup
    split_ifs at hup with hhere heq
    exact absurd heq h.not_up
  · exact hname

/-- Parts without `..` are names, apart from those that do not count. -/
theorem steps_of_up_notMem {parts : List Text} (h : ['.', '.'] ∉ parts) :
    steps parts = (parts.filter counts).map .name := by
  refine List.map_congr_left fun part hpart => ?_
  obtain ⟨hmem, hcounts⟩ := List.mem_filter.1 hpart
  exact IsFileName.ofPart ⟨hcounts, fun heq => h (heq ▸ hmem)⟩

/-- Whether a component can stand after the first. -/
def Component.isStep : Component → Bool
  | .up => true
  | .name _ => true
  | .root => false
  | .here => false

theorem isStep_of_mem_steps {parts : List Text} {c : Component} (h : c ∈ steps parts) :
    c.isStep = true := by
  obtain ⟨part, hpart, rfl⟩ := List.mem_map.1 h
  rcases ofPart_of_counts (List.mem_filter.1 hpart).2 with hup | hname
  · rw [hup]
    rfl
  · rw [hname]
    rfl

theorem isStep_of_mem_lead {p : Path} {c : Component} (h : c ∈ p.lead) : c.isStep = false := by
  rw [lead] at h
  split_ifs at h
  · rw [List.mem_singleton.1 h]
    rfl
  · rw [List.mem_singleton.1 h]
    rfl
  · cases h

/-- **The components of a path** are that of its first part, if only a first part can be it, and
those of all parts. -/
theorem components_eq (p : Path) : p.components = p.lead ++ steps (pieces '/' p.text) := by
  obtain ⟨text⟩ := p
  cases text with
  | nil => rfl
  | cons c s =>
    by_cases hc : c = '/'
    · subst hc
      have hpieces : pieces '/' ('/' :: s) = [] :: pieces '/' s := by
        rw [pieces, if_pos rfl]
      simp [components, parts, lead, isAbsolute, hpieces, Text.pieces_ne_nil, steps, counts]
    · obtain ⟨first, rest, hpieces⟩ :
          ∃ first rest, pieces '/' (c :: s) = (c :: first) :: rest := by
        rw [pieces, if_neg hc]
        cases pieces '/' s with
        | nil => exact ⟨[], [], rfl⟩
        | cons piece rest => exact ⟨piece, rest, rfl⟩
      by_cases hhere : c :: first = ['.']
      · simp [components, parts, lead, isAbsolute, hpieces, hc, hhere, steps, counts,
          Component.ofPart]
      · have hcounts : counts (c :: first) = true := by
          simpa [counts] using hhere
        have hlead : lead ⟨c :: s⟩ = [] := by
          rw [lead, if_neg (by simpa [isAbsolute] using hc), hpieces]
          exact if_neg (by simpa using hhere)
        rw [hlead, hpieces, steps_cons_of_counts hcounts]
        simp [components, parts, hpieces, steps]

/-- The components tell which of them can stand after the first. -/
theorem filter_isStep_components (p : Path) :
    p.components.filter Component.isStep = steps (pieces '/' p.text) := by
  rw [components_eq, List.filter_append,
    List.filter_eq_nil_iff.2 fun c hc => by rw [isStep_of_mem_lead hc]; exact Bool.false_ne_true,
    List.filter_eq_self.2 fun c hc => isStep_of_mem_steps hc, List.nil_append]

/-- The components tell whether the path is absolute. -/
theorem root_mem_components_iff {p : Path} : .root ∈ p.components ↔ p.isAbsolute = true := by
  rw [components_eq, List.mem_append]
  have hsteps : .root ∉ steps (pieces '/' p.text) := fun hmem => by
    cases isStep_of_mem_steps hmem
  rw [or_iff_left hsteps, lead]
  split_ifs with habsolute
  · simp [habsolute]
  · simp [habsolute]
  · simp [habsolute]

/-- A path that is not empty starts with a separator if its first part is empty. -/
theorem isAbsolute_iff {p : Path} (hp : p.text ≠ []) {first : Text} {rest : List Text}
    (hpieces : pieces '/' p.text = first :: rest) : p.isAbsolute = true ↔ first = [] := by
  obtain ⟨c, s, htext⟩ := List.exists_cons_of_ne_nil hp
  rw [htext, pieces] at hpieces
  split_ifs at hpieces with hc
  · obtain ⟨rfl, -⟩ := List.cons.inj hpieces
    simp [isAbsolute, htext, hc]
  · have hfirst : first ≠ [] := by
      rintro rfl
      split at hpieces <;> cases hpieces
    simp [isAbsolute, htext, hc, hfirst]

/-- The first component of a path that is not empty is that of its first part. -/
theorem components_of_pieces {p : Path} (hp : p.text ≠ []) {first : Text} {rest : List Text}
    (hpieces : pieces '/' p.text = first :: rest) :
    p.components = (if first = [] then [.root] else [Component.ofPart first]) ++ steps rest := by
  rw [components, parts, hpieces]
  dsimp only
  by_cases hfirst : first = []
  · have hrest : rest ≠ [] := by
      rintro rfl
      have htext := Text.joined_pieces '/' p.text
      rw [hpieces, hfirst] at htext
      exact hp htext.symm
    simp [hfirst, hrest, steps]
  · simp [hfirst, steps]

theorem exists_components_cons {p : Path} (hp : p.text ≠ []) {first : Text} {rest : List Text}
    (hpieces : pieces '/' p.text = first :: rest) : ∃ c, p.components = c :: steps rest := by
  rw [components_of_pieces hp hpieces]
  split_ifs
  · exact ⟨.root, rfl⟩
  · exact ⟨Component.ofPart first, rfl⟩

/-- Only the empty path has no components. -/
theorem text_eq_nil_of_components {p : Path} (h : p.components = []) : p.text = [] := by
  by_contra hp
  obtain ⟨first, rest, hpieces⟩ := List.exists_cons_of_ne_nil (Text.pieces_ne_nil '/' p.text)
  obtain ⟨c, hc⟩ := exists_components_cons hp hpieces
  rw [h] at hc
  cases hc

/-- The root is the first component and no other. -/
theorem components_cases (p : Path) :
    p.components = [] ∨ p.components = [.root] ∨
      ∃ front c, p.components = front ++ [c] ∧ c ≠ .root := by
  rw [components_eq]
  rcases List.eq_nil_or_concat' (steps (pieces '/' p.text)) with hsteps | ⟨front, c, hsteps⟩
  · rw [hsteps, List.append_nil, lead]
    split_ifs
    · exact Or.inr (Or.inl rfl)
    · exact Or.inr (Or.inr ⟨[], .here, rfl, by simp⟩)
    · exact Or.inl rfl
  · refine Or.inr (Or.inr ⟨p.lead ++ front, c, by rw [hsteps, List.append_assoc], ?_⟩)
    rintro rfl
    have hmem : .root ∈ steps (pieces '/' p.text) := by
      rw [hsteps]
      simp
    cases isStep_of_mem_steps hmem

/-- What is not counted at the end adds nothing. -/
theorem steps_dropTrailing (parts : List Text) : steps (dropTrailing parts) = steps parts := by
  have hsplit : parts = dropTrailing parts ++
      (parts.reverse.takeWhile fun part => !counts part).reverse := by
    rw [dropTrailing, ← List.reverse_append, List.takeWhile_append_dropWhile, List.reverse_reverse]
  have hnone : steps (parts.reverse.takeWhile fun part => !counts part).reverse = [] := by
    refine steps_eq_nil fun part hpart => ?_
    have htake := List.mem_takeWhile_imp (List.mem_reverse.1 hpart)
    simpa using htake
  conv_rhs => rw [hsplit, steps_append, hnone, List.append_nil]

/-! ## Joined paths -/

/-- A path that is not empty has a part before the separator at its end. -/
theorem ne_nil_of_pieces {p : Path} (hp : p.text ≠ []) {front : List Text}
    (h : pieces '/' p.text = front ∨ pieces '/' p.text = front ++ [[]]) : front ≠ [] := by
  rintro rfl
  have htext := Text.joined_pieces '/' p.text
  rcases h with h | h
  · exact Text.pieces_ne_nil _ _ h
  · rw [h] at htext
    exact hp htext.symm

/-- **Joining a relative path appends its names and `..`.** -/
theorem components_join {p : Path} (hp : p.text ≠ []) {other : Text}
    (hother : other.head? ≠ some '/') :
    (p.join other).components = p.components ++ steps (pieces '/' other) := by
  obtain ⟨front, hfront, hpieces, habsolute⟩ := exists_pieces_join hp hother
  have hne := ne_nil_of_pieces hp hfront
  have hlead : (p.join other).lead = p.lead := by
    rw [lead, lead, habsolute, hpieces, List.head?_append_of_ne_nil _ hne]
    rcases hfront with hfront | hfront
    · rw [hfront]
    · rw [hfront, List.head?_append_of_ne_nil _ hne]
  have hsteps : steps (pieces '/' p.text) = steps front := by
    rcases hfront with hfront | hfront
    · rw [hfront]
    · rw [hfront, steps_append, steps_cons_of_not_counts rfl, steps_nil, List.append_nil]
  rw [components_eq, components_eq, hlead, hpieces, steps_append, hsteps, List.append_assoc]

/-- Joining to the empty path is what is joined. -/
theorem join_of_text_eq_nil {p : Path} (hp : p.text = []) (other : Text) :
    p.join other = ⟨other⟩ := by
  simp [join, hp]

/-- **Joining a name appends it.** -/
theorem components_join_name (p : Path) {name : Text} (hname : IsFileName name)
    (hslash : '/' ∉ name) : (p.join name).components = p.components ++ [.name name] := by
  have hsteps : steps (pieces '/' name) = [.name name] := by
    rw [Text.pieces_of_notMem hslash, steps_cons_of_counts hname.counts, hname.ofPart, steps_nil]
  have hhead : name.head? ≠ some '/' := fun h => hslash (List.mem_of_head? h)
  by_cases hp : p.text = []
  · obtain ⟨text⟩ := p
    obtain rfl : text = [] := hp
    have hcounts := hname.counts
    simp only [counts, Bool.and_eq_true, bne_iff_ne, ne_eq] at hcounts
    have hlead : lead ⟨name⟩ = [] := by
      rw [lead, if_neg (by simpa [isAbsolute] using hhead), Text.pieces_of_notMem hslash]
      exact if_neg (by simpa using hcounts.2)
    rw [join_of_text_eq_nil rfl, components_eq, hlead, hsteps]
    rfl
  · rw [components_join hp hhead, hsteps]

/-! ## Parents -/

/-- All components but the last, unless there are none or there is only the root. -/
def above (components : List Component) : Option (List Component) :=
  if components = [] ∨ components = [.root] then none else some components.dropLast

theorem above_concat {front : List Component} {c : Component} (h : c ≠ .root) :
    above (front ++ [c]) = some front := by
  have hroot : front ++ [c] ≠ [.root] := by
    intro heq
    have hlast := congrArg List.getLast? heq
    rw [List.getLast?_concat] at hlast
    exact h (Option.some.inj hlast)
  rw [above, if_neg (by simp [hroot]), List.dropLast_concat]

theorem components_ofParts {isRooted : Bool} {first : Text} {rest : List Text}
    (hslash : ∀ s ∈ first :: rest, '/' ∉ s) (hrooted : isRooted = true ↔ first = []) :
    (ofParts isRooted first rest).components =
      (if first = [] then [.root] else [Component.ofPart first]) ++ steps rest := by
  rw [ofParts]
  by_cases hroot : (rest.isEmpty && isRooted) = true
  · simp only [Bool.and_eq_true, List.isEmpty_iff] at hroot
    rw [if_pos (by simp [hroot]), if_pos (hrooted.1 hroot.2), hroot.1]
    rfl
  · rw [if_neg hroot, components, parts, Text.pieces_joined hslash (List.cons_ne_nil _ _)]
    by_cases hfirst : first = []
    · have hrest : rest ≠ [] := by
        intro hrest
        simp [hrest, hrooted.2 hfirst] at hroot
      simp [hfirst, hrest, steps]
    · simp [hfirst, steps]

/-- **The parent has all components but the last.** -/
theorem map_components_parent? (p : Path) : p.parent?.map components = above p.components := by
  obtain ⟨first, rest, hpieces⟩ := List.exists_cons_of_ne_nil (Text.pieces_ne_nil '/' p.text)
  have hslash : ∀ s ∈ first :: rest, '/' ∉ s := by
    intro s hs
    rw [← hpieces] at hs
    exact Text.notMem_of_mem_pieces hs
  have hcomponents : p.components =
      (if first = [] then if rest = [] then [] else [.root] else [Component.ofPart first]) ++
        steps rest := by
    by_cases hfirst : first = []
    · by_cases hrest : rest = []
      · simp [components, parts, hpieces, hfirst, hrest, steps]
      · simp [components, parts, hpieces, hfirst, hrest, steps]
    · simp [components, parts, hpieces, hfirst, steps]
  rw [parent?, parts, hpieces]
  dsimp only
  cases hdrop : (dropTrailing rest).reverse with
  | nil =>
    -- no part after the first counts
    have hsteps : steps rest = [] := by
      rw [← steps_dropTrailing, List.reverse_eq_nil_iff.1 hdrop, steps_nil]
    rw [hcomponents, hsteps, List.append_nil]
    by_cases hfirst : first = []
    · by_cases hrest : rest = []
      · simp [hfirst, hrest, above]
      · simp [hfirst, hrest, above]
    · have habove : above ([] ++ [Component.ofPart first]) = some [] :=
        above_concat (ofPart_ne_root first)
      rw [List.nil_append] at habove
      simp only [hfirst, List.isEmpty_iff, if_false, habove]
      rfl
  | cons last before =>
    have hrest : dropTrailing rest = before.reverse ++ [last] := by
      rw [← List.reverse_reverse (dropTrailing rest), hdrop, List.reverse_cons]
    have hlast : counts last = true := by
      have hhead := List.head?_dropWhile_not (fun part => !counts part) rest.reverse
      rw [dropTrailing, List.reverse_reverse] at hdrop
      rw [hdrop] at hhead
      simpa using hhead
    have hne : rest ≠ [] := by
      rintro rfl
      cases hdrop
    have hsteps : steps rest = steps before.reverse ++ [Component.ofPart last] := by
      rw [← steps_dropTrailing, hrest, steps_append, steps_cons_of_counts hlast, steps_nil]
    have htext : p.text ≠ [] := by
      intro htext
      rw [htext] at hpieces
      cases hpieces
      exact hne rfl
    have habsolute := isAbsolute_iff htext hpieces
    have hslash' : ∀ s ∈ first :: dropTrailing before.reverse, '/' ∉ s := by
      intro s hs
      refine hslash s ?_
      rcases List.mem_cons.1 hs with rfl | hs
      · exact List.mem_cons_self
      · refine List.mem_cons_of_mem _ (mem_of_mem_dropTrailing ?_)
        rw [hrest]
        exact List.mem_append_left _ (mem_of_mem_dropTrailing hs)
    dsimp only
    rw [Option.map_some, components_ofParts hslash' habsolute, hcomponents, hsteps,
      steps_dropTrailing, ← List.append_assoc, above_concat (ofPart_ne_root last)]
    simp [hne]

/-- A path with a last component has a parent with the others. -/
theorem parent?_eq_some_of_components {p : Path} {front : List Component} {c : Component}
    (h : p.components = front ++ [c]) (hc : c ≠ .root) :
    ∃ parent, p.parent? = some parent ∧ parent.components = front := by
  have hmap := p.map_components_parent?
  rw [h, above_concat hc] at hmap
  exact Option.map_eq_some_iff.1 hmap

theorem isPrefix_dropTrailing (rest : List Text) : dropTrailing rest <+: rest := by
  rw [dropTrailing, ← List.reverse_suffix, List.reverse_reverse]
  exact List.dropWhile_suffix _

/-- **The text of the parent is the start of the text.** -/
theorem isPrefix_text_parent? {p parent : Path} (h : p.parent? = some parent) :
    parent.text <+: p.text := by
  cases hpieces : pieces '/' p.text with
  | nil => exact absurd hpieces (Text.pieces_ne_nil _ _)
  | cons first rest =>
    rw [parent?, parts, hpieces] at h
    dsimp only at h
    split at h
    · split at h
      · cases h
      · obtain rfl := Option.some.inj h
        exact List.nil_prefix
    · rename_i last before hdrop
      obtain rfl := Option.some.inj h
      rw [ofParts]
      split_ifs with hroot
      · simp only [Bool.and_eq_true, isAbsolute, beq_iff_eq] at hroot
        obtain ⟨s, hs⟩ := List.head?_eq_some_iff.1 hroot.2
        rw [hs]
        exact List.prefix_append ['/'] s
      · have hrest : dropTrailing rest = before.reverse ++ [last] := by
          rw [← List.reverse_reverse (dropTrailing rest), hdrop, List.reverse_cons]
        have hfront : dropTrailing before.reverse <+: rest :=
          (isPrefix_dropTrailing _).trans
            ((hrest ▸ List.prefix_append _ _).trans (isPrefix_dropTrailing rest))
        conv_rhs => rw [← Text.joined_pieces '/' p.text, hpieces]
        exact Text.isPrefix_joined _ ((List.prefix_cons_inj _).2 hfront)

/-! ## File names -/

/-- The file name is the last component. -/
theorem exists_components_of_fileName? {p : Path} {name : Text} (h : p.fileName? = some name) :
    ∃ front, p.components = front ++ [.name name] := by
  obtain ⟨component, hlast, hname⟩ := Option.bind_eq_some_iff.1 h
  obtain ⟨front, hfront⟩ := List.getLast?_eq_some_iff.1 hlast
  refine ⟨front, ?_⟩
  cases component with
  | name s => rw [hfront, Option.some.inj hname]
  | root => cases hname
  | here => cases hname
  | up => cases hname

theorem fileName?_of_components {p : Path} {front : List Component} {name : Text}
    (h : p.components = front ++ [.name name]) : p.fileName? = some name := by
  rw [fileName?, h, List.getLast?_concat]
  rfl

/-- Paths with different file names are different. -/
theorem same_eq_false {p q : Path} (h : p.fileName? ≠ q.fileName?) : p.same q = false := by
  rw [same, beq_eq_false_iff_ne]
  intro heq
  exact h (by rw [fileName?, fileName?, heq])

/-- **A path that is joined lies in what its parent makes when it is joined.** -/
theorem components_join_parent (dir : Path) {t name : Text}
    (h : (⟨t⟩ : Path).fileName? = some name) :
    (dir.join t).components =
      (dir.join ((⟨t⟩ : Path).parent?.getD ⟨[]⟩).text).components ++ [.name name] := by
  obtain ⟨front, hfront⟩ := exists_components_of_fileName? h
  obtain ⟨⟨u⟩, hparent, hcomponents⟩ := parent?_eq_some_of_components hfront (by simp)
  rw [hparent, Option.getD_some]
  have habsolute : t.head? = some '/' ↔ u.head? = some '/' := by
    have ht : .root ∈ (⟨t⟩ : Path).components ↔ _ := root_mem_components_iff
    have hu : .root ∈ (⟨u⟩ : Path).components ↔ _ := root_mem_components_iff
    rw [hfront] at ht
    rw [hcomponents] at hu
    simp only [isAbsolute, beq_iff_eq] at ht hu
    rw [← ht, ← hu]
    simp
  have hsame : ∀ s : Text, s.head? = some '/' ∨ dir.text = [] → dir.join s = ⟨s⟩ := by
    rintro s (hs | hdir)
    · rw [join, if_pos hs]
    · exact join_of_text_eq_nil hdir s
  by_cases hreplaced : t.head? = some '/' ∨ dir.text = []
  · rw [hsame t hreplaced, hsame u (hreplaced.imp_left habsolute.1), hfront, hcomponents]
  · rw [not_or] at hreplaced
    have hsteps := filter_isStep_components ⟨t⟩
    rw [hfront, List.filter_append, ← hcomponents, filter_isStep_components] at hsteps
    rw [components_join hreplaced.2 hreplaced.1,
      components_join hreplaced.2 fun hu => hreplaced.1 (habsolute.2 hu), ← hsteps,
      List.append_assoc]
    rfl

end Path

end StyleLift
