import StyleLift.Proofs.Path.Components

/-!
# Relative paths

What a path is relative to a directory is cut out of its text: the parts behind as many components as
the directory has, without those at either end that are none.  So its components are those that the
path has after the directory, and its text may still be spelled in several ways, with parts in
between that are no components.

* `exists_split_steps`, `dropWhile_dropComponents`: where the text is cut.
* `exists_relativeTo?`: **the components of a relative path.**
* `spelling`, `IsTidy`: texts that are spelled by their components alone.
-/

namespace StyleLift.Path

open Text (pieces)

/-! ## Where the text is cut -/

/-- Parts are divided as their components are. -/
theorem exists_split_steps {parts : List Text} {front tail : List Component}
    (h : steps parts = front ++ tail) :
    ∃ before behind, parts = before ++ behind ∧ steps before = front ∧ steps behind = tail := by
  obtain ⟨fs, ts, hcounted, rfl, rfl⟩ := List.map_eq_append_iff.1 h
  obtain ⟨before, behind, rfl, rfl, rfl⟩ := List.filter_eq_append_iff.1 hcounted
  exact ⟨before, behind, rfl, rfl, rfl⟩

/-- Behind as many components as the front has, what is left starts with the tail. -/
theorem dropWhile_dropComponents (front tail : List Text) :
    (dropComponents (front.filter counts).length (front ++ tail)).dropWhile
        (fun part => !counts part) =
      tail.dropWhile fun part => !counts part := by
  induction front with
  | nil => simp [dropComponents]
  | cons part front ih =>
    cases hcounts : counts part with
    | true =>
      rw [List.filter_cons_of_pos hcounts, List.length_cons, List.cons_append, dropComponents,
        if_pos hcounts]
      exact ih
    | false =>
      rw [List.filter_cons_of_neg (by simp [hcounts]), List.cons_append]
      cases hlength : (front.filter counts).length with
      | zero =>
        rw [hlength, dropComponents] at ih
        rw [dropComponents, List.dropWhile_cons_of_pos (by simp [hcounts])]
        exact ih
      | succ n =>
        rw [hlength] at ih
        rw [dropComponents, if_neg (by simp [hcounts])]
        exact ih

theorem steps_dropWhile (parts : List Text) :
    steps (parts.dropWhile fun part => !counts part) = steps parts := by
  induction parts with
  | nil => rfl
  | cons part parts ih =>
    cases hcounts : counts part with
    | true => rw [List.dropWhile_cons_of_neg (by simp [hcounts])]
    | false =>
      rw [List.dropWhile_cons_of_pos (by simp [hcounts]), ih, steps_cons_of_not_counts hcounts]

/-- A path made of parts of which the first is a component. -/
theorem components_joined {parts : List Text} (hslash : ∀ part ∈ parts, '/' ∉ part)
    (hfirst : ∀ part ∈ parts.head?, counts part = true) :
    (⟨Text.joined ['/'] parts⟩ : Path).components = steps parts := by
  cases parts with
  | nil => rfl
  | cons first rest =>
    have hcounts := hfirst first rfl
    have hne : first ≠ [] := by
      rintro rfl
      exact absurd hcounts (by decide)
    rw [components, Path.parts, Text.pieces_joined hslash (List.cons_ne_nil _ _),
      steps_cons_of_counts hcounts]
    simp [hne, steps]

/-! ## Relative paths -/

/-- **The components of a relative path** are those behind the directory. -/
theorem exists_relativeTo? {p base : Path} {folder : List Component}
    (h : p.components = base.components ++ folder) :
    ∃ rel, p.relativeTo? base = some rel ∧ rel.components = folder := by
  obtain ⟨first, rest, hpieces⟩ := List.exists_cons_of_ne_nil (Text.pieces_ne_nil '/' p.text)
  have hslash : ∀ part ∈ first :: rest, '/' ∉ part := fun part hpart =>
    Text.notMem_of_mem_pieces (hpieces ▸ hpart)
  have hparts : p.parts = (first, rest) := by
    rw [parts, hpieces]
  rw [relativeTo?, hparts]
  cases hbase : base.components with
  | nil =>
    rw [hbase, List.nil_append] at h
    refine ⟨_, rfl, ?_⟩
    by_cases hp : p.text = []
    · obtain ⟨text⟩ := p
      obtain rfl : text = [] := hp
      cases hpieces
      exact h
    · have hslash' : ∀ part ∈ first :: dropTrailing rest, '/' ∉ part := fun part hpart =>
        hslash part (List.mem_cons.2 ((List.mem_cons.1 hpart).imp_right mem_of_mem_dropTrailing))
      rw [components_ofParts hslash' (isAbsolute_iff hp hpieces), steps_dropTrailing,
        ← components_of_pieces hp hpieces, h]
  | cons c others =>
    have hp : p.text ≠ [] := by
      intro hp
      obtain ⟨text⟩ := p
      obtain rfl : text = [] := hp
      rw [hbase] at h
      cases h
    obtain ⟨c', hcomponents⟩ := exists_components_cons hp hpieces
    have hstarts : (c :: others).isPrefixOf p.components = true := by
      rw [h, hbase]
      exact List.isPrefixOf_iff_prefix.2 (List.prefix_append _ _)
    rw [hcomponents, hbase, List.cons_append] at h
    -- the parts behind the directory are those whose components are left
    obtain ⟨before, behind, rfl, hbefore, hbehind⟩ := exists_split_steps (List.cons.inj h).2
    have hleft : (dropComponents others.length (before ++ behind)).dropWhile
        (fun part => !counts part) = behind.dropWhile fun part => !counts part := by
      rw [← hbefore, steps, List.length_map, dropWhile_dropComponents]
    dsimp only
    rw [if_pos hstarts, hleft]
    refine ⟨_, rfl, ?_⟩
    have hmem : ∀ part ∈ dropTrailing (behind.dropWhile fun part => !counts part),
        part ∈ behind := fun part hpart =>
      (List.dropWhile_sublist _).mem (mem_of_mem_dropTrailing hpart)
    rw [components_joined, steps_dropTrailing, steps_dropWhile, hbehind]
    · exact fun part hpart => hslash part
        (List.mem_cons_of_mem _ (List.mem_append_right _ (hmem part hpart)))
    · intro part hpart
      obtain ⟨tail, htail⟩ := isPrefix_dropTrailing (behind.dropWhile fun part => !counts part)
      have hhead : (behind.dropWhile fun part => !counts part).head? = some part := by
        rw [← htail, List.head?_append, Option.mem_def.1 hpart]
        rfl
      have hfirst := List.head?_dropWhile_not (fun part => !counts part) behind
      rw [hhead] at hfirst
      simpa using hfirst

/-! ## Spelling -/

/-- The text of a component between separators. -/
def Component.text : Component → Text
  | .root => []
  | .here => ['.']
  | .up => ['.', '.']
  | .name s => s

/-- The plain text of components: one separator between neighbours and nothing else. -/
def spelling (components : List Component) : Text :=
  if components = [.root] then ['/'] else Text.joined ['/'] (components.map Component.text)

/-- A path that is spelled by its components alone. -/
def IsTidy (p : Path) : Prop := p.text = spelling p.components

end StyleLift.Path
