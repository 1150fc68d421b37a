import StyleLift.Proofs.Path.Parts
import StyleLift.Proofs.Text.Cuts

/-!
# File names

The file name of a path is its last part, if that is a name, and a dot divides it into a stem and
an extension unless it comes first or there is none.

* `Text.exists_getLast?_pieces`: the piece behind the last separator.
* `Path.fileName?_of_getLast?_pieces`, `Path.mem_pieces_of_fileName?`: the file name is a part.
* `Path.fileStem?_cases`: a file name is its stem, or a stem, a dot and an extension.
* `Path.extension?_of_text_eq`: the extension of a path that ends in a dot and letters.
* `Path.fileStem_append_ne`: a longer extension makes another name.
-/

namespace StyleLift

/-! ## The last piece -/

/-- The last piece of a text that ends in `t` ends in `t`, if no separator stands in it. -/
theorem Text.exists_getLast?_pieces {sep : Char} {t : Text} (h : sep ∉ t) (s : Text) :
    ∃ l, (Text.pieces sep (s ++ t)).getLast? = some (l ++ t) := by
  induction s with
  | nil =>
    refine ⟨[], ?_⟩
    rw [List.nil_append, Text.pieces_of_notMem h]
    rfl
  | cons c s ih =>
    obtain ⟨l, hl⟩ := ih
    rw [List.cons_append, Text.pieces]
    split
    · exact ⟨l, by rw [List.getLast?_cons, hl]; rfl⟩
    · cases hpieces : Text.pieces sep (s ++ t) with
      | nil => simp [hpieces] at hl
      | cons piece rest =>
        rw [hpieces] at hl
        cases rest with
        | nil =>
          have hpiece : piece = l ++ t := by simpa using hl
          exact ⟨c :: l, by rw [hpiece]; rfl⟩
        | cons next rest => exact ⟨l, hl⟩

/-! ## The last name -/

namespace Path

/-- The last part of a path that is a name is its file name. -/
theorem fileName?_of_getLast?_pieces {p : Path} {w : Text}
    (h : (Text.pieces '/' p.text).getLast? = some w) (hcounts : counts w = true)
    (hup : w ≠ ['.', '.']) : p.fileName? = some w := by
  simp only [counts, Bool.and_eq_true, bne_iff_ne, ne_eq] at hcounts
  have hname : Component.ofPart w = .name w := by
    rw [Component.ofPart, if_neg hcounts.2, if_neg hup]
  cases hpieces : Text.pieces '/' p.text with
  | nil => simp [hpieces] at h
  | cons first rest =>
    rw [hpieces] at h
    rw [fileName?, components, parts, hpieces]
    rcases List.eq_nil_or_concat' rest with rfl | ⟨rest, last, rfl⟩
    · obtain rfl : first = w := by simpa using h
      simp [hcounts.1, hname, Component.name?]
    · rw [← List.cons_append, List.getLast?_concat] at h
      obtain rfl := Option.some.inj h
      have hfilter : counts last = true := by
        simp [counts, hcounts]
      simp [List.filter_append, hfilter, hname, Component.name?]

/-- The extension of a path that ends in a dot and `e`: it is `e`, unless nothing stands before
the dot. -/
theorem extension?_of_text_eq {p : Path} {s e : Text} (htext : p.text = s ++ '.' :: e)
    (hne : e ≠ []) (hdot : '.' ∉ e) (hslash : '/' ∉ e) :
    p.extension? = none ∨ p.extension? = some e := by
  have hsep : '/' ∉ '.' :: e := by
    rw [List.mem_cons, not_or]
    exact ⟨by decide, hslash⟩
  obtain ⟨l, hl⟩ := Text.exists_getLast?_pieces hsep s
  rw [← htext] at hl
  -- the last part ends in a character of `e`, so it is none of the special parts
  have hlast : (l ++ '.' :: e).getLast? ≠ some '.' := by
    intro h
    rw [← List.singleton_append, ← List.append_assoc, List.getLast?_append_of_ne_nil _ hne] at h
    exact hdot (List.mem_of_getLast? h)
  have hfile : p.fileName? = some (l ++ '.' :: e) := by
    refine fileName?_of_getLast?_pieces hl ?_ ?_
    · rw [counts, Bool.and_eq_true, bne_iff_ne, bne_iff_ne]
      exact ⟨by simp, fun h => hlast (by rw [h]; rfl)⟩
    · exact fun h => hlast (by rw [h]; rfl)
  rw [extension?, hfile, Option.bind_some, Text.splitLast?_append_cons hdot]
  dsimp only
  split
  · exact Or.inl rfl
  · exact Or.inr rfl

/-- What is joined to a path ends it. -/
theorem exists_text_join (p : Path) (other : Text) : ∃ s, (p.join other).text = s ++ other := by
  rw [join]
  split
  · exact ⟨[], rfl⟩
  · split
    · exact ⟨p.text, rfl⟩
    · exact ⟨p.text ++ ['/'], by simp⟩

/-- What can be a file name: a part that is neither empty nor `.` nor `..`. -/
structure IsFileName (name : Text) : Prop where
  counts : Path.counts name = true
  not_up : name ≠ ['.', '.']

/-- A name with a character that is no dot is none of the special parts. -/
theorem IsFileName.of_mem {name : Text} {c : Char} (hmem : c ∈ name) (hc : c ≠ '.') :
    IsFileName name := by
  refine ⟨?_, ?_⟩
  · rw [Path.counts, Bool.and_eq_true, bne_iff_ne, bne_iff_ne]
    refine ⟨List.ne_nil_of_mem hmem, ?_⟩
    rintro rfl
    exact hc (List.mem_singleton.1 hmem)
  · rintro rfl
    simp [hc] at hmem

theorem IsFileName.fileName? {p : Path} {name : Text} (h : IsFileName name)
    (hlast : (Text.pieces '/' p.text).getLast? = some name) : p.fileName? = some name :=
  fileName?_of_getLast?_pieces hlast h.counts h.not_up

/-- A name that is joined to a path stands last. -/
theorem getLast?_pieces_join_name (p : Path) {name : Text} (h : '/' ∉ name) :
    (Text.pieces '/' (p.join name).text).getLast? = some name := by
  rw [getLast?_pieces_join, Text.pieces_of_notMem h]
  rfl

theorem eq_of_ofPart_eq_name {part name : Text} (h : Component.ofPart part = .name name) :
    part = name := by
  rw [Component.ofPart] at h
  split_ifs at h
  exact Component.name.inj h

/-- The file name is one of the parts. -/
theorem mem_pieces_of_fileName? {p : Path} {name : Text} (h : p.fileName? = some name) :
    name ∈ Text.pieces '/' p.text := by
  obtain ⟨component, hlast, hname⟩ := Option.bind_eq_some_iff.1 h
  have hmem := List.mem_of_getLast? hlast
  have hcomponent : component = .name name := by
    cases component with
    | name s => exact congrArg _ (Option.some.inj hname)
    | root => cases hname
    | here => cases hname
    | up => cases hname
  subst hcomponent
  cases hpieces : Text.pieces '/' p.text with
  | nil => exact absurd hpieces (Text.pieces_ne_nil _ _)
  | cons first rest =>
    simp only [components, parts, hpieces, List.mem_append, List.mem_map] at hmem
    rcases hmem with hfirst | ⟨part, hpart, heq⟩
    · split_ifs at hfirst
      · have heq := List.mem_singleton.1 hfirst
        rw [eq_of_ofPart_eq_name heq.symm]
        exact List.mem_cons_self
      · cases List.mem_singleton.1 hfirst
      · cases hfirst
    · rw [← eq_of_ofPart_eq_name heq]
      exact List.mem_cons_of_mem _ (List.mem_filter.1 hpart).1

/-! ## Stem and extension -/

/-- A file name is its stem alone, or a stem, a dot and an extension without dots. -/
theorem fileStem?_cases {p : Path} {name : Text} (h : p.fileName? = some name) :
    p.fileStem? = some name ∧ p.extension? = none ∨
    ∃ stem extension, name = stem ++ '.' :: extension ∧ '.' ∉ extension ∧
      p.fileStem? = some stem ∧ p.extension? = some extension := by
  rw [fileStem?, extension?, h, Option.map_some, Option.bind_some]
  cases hsplit : Text.splitLast? '.' name with
  | none => exact Or.inl ⟨rfl, rfl⟩
  | some split =>
    obtain ⟨stem, extension⟩ := split
    obtain ⟨hname, hdot⟩ := Text.eq_append_of_splitLast? hsplit
    dsimp only
    by_cases hstem : stem.isEmpty = true
    · rw [if_pos hstem, if_pos hstem]
      exact Or.inl ⟨rfl, rfl⟩
    · rw [if_neg hstem, if_neg hstem]
      exact Or.inr ⟨stem, extension, hname, hdot, rfl, rfl⟩

section

variable {p : Path} {stem extension : Text} (h : p.fileName? = some (stem ++ '.' :: extension))
  (hstem : stem ≠ []) (hdot : '.' ∉ extension)

include h hstem hdot

theorem fileStem?_of_fileName? : p.fileStem? = some stem := by
  rw [fileStem?, h, Option.map_some, Text.splitLast?_append_cons hdot]
  simp [hstem]

theorem extension?_of_fileName? : p.extension? = some extension := by
  rw [extension?, h, Option.bind_some, Text.splitLast?_append_cons hdot]
  simp [hstem]

end

/-- No separator stands in the stem. -/
theorem slash_notMem_fileStem (p : Path) : '/' ∉ p.fileStem?.getD [] := by
  cases hname : p.fileName? with
  | none => simp [fileStem?, hname]
  | some name =>
    have hslash := Text.notMem_of_mem_pieces (mem_pieces_of_fileName? hname)
    rcases fileStem?_cases hname with ⟨hstem, -⟩ | ⟨stem, extension, rfl, -, hstem, -⟩
    · simpa [hstem] using hslash
    · rw [hstem]
      exact fun hmem => hslash (List.mem_append_left _ hmem)

/-- No separator stands in the extension. -/
theorem slash_notMem_extension (p : Path) : '/' ∉ p.extension?.getD [] := by
  cases hname : p.fileName? with
  | none => simp [extension?, hname]
  | some name =>
    have hslash := Text.notMem_of_mem_pieces (mem_pieces_of_fileName? hname)
    rcases fileStem?_cases hname with ⟨-, hext⟩ | ⟨stem, extension, rfl, -, -, hext⟩
    · simp [hext]
    · rw [hext]
      exact fun hmem => hslash (List.mem_append_right _ (List.mem_cons_of_mem _ hmem))

/-- A stem with an extension that holds a dot is not the name that the stem was taken from. -/
theorem fileStem_append_ne {p : Path} {name : Text} (h : p.fileName? = some name)
    {extension : Text} (hdot : '.' ∈ extension) :
    p.fileStem?.getD [] ++ '.' :: extension ≠ name := by
  intro heq
  rcases fileStem?_cases h with ⟨hstem, -⟩ | ⟨stem, ending, hname, hnodot, hstem, -⟩
  · rw [hstem] at heq
    have hlength := congrArg List.length heq
    simp at hlength
  · rw [hstem, hname] at heq
    obtain rfl : extension = ending := by simpa using heq
    exact hnodot hdot

end Path

end StyleLift
