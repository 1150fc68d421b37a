import StyleLift.Proofs.Stylesheet.Statements

/-!
# The colon of a declaration

A declaration is cut at the first colon of its statement.  A more careful reader leaves out the
statements that start with `@`, keeps in mind which string is open and how many parentheses, and
cuts at the first colon outside all of them.  It finds the same declarations: what stands before the
colon has to be a property name between blanks, and in such a text nothing opens a string or a
parenthesis.

The careful reader is told where its text starts, which may be before the statement: blanks in front
of the statement belong to the text for it.

* `Opened`, `Opened.behind`: what is open behind a character.
* `splitTopLevel?`: a text, cut at the first colon outside strings and parentheses.
* `nameAndTail?`: the name and the value in the text of a statement, as the careful reader finds them.
* `nameAndTail?_append`: **it finds what the first colon gives.**
* `declaration?_eq_nameAndTail?`: so the declaration of a statement is the one that it finds.
-/

namespace StyleLift.Stylesheet

/-! ## The careful reader -/

/-- What is open: a string, by its quote, and some parentheses. -/
structure Opened where
  quote : Option Char := none
  depth : Nat := 0
  deriving DecidableEq, Repr

/-- What is open behind a character.  Backslashes mean nothing here. -/
def Opened.behind (opened : Opened) (c : Char) : Opened :=
  match opened.quote with
  | some quote => if c = quote then { opened with quote := none } else opened
  | none =>
    if c = '"' ∨ c = '\'' then { opened with quote := some c }
    else if c = '(' then { opened with depth := opened.depth + 1 }
    else if c = ')' then { opened with depth := opened.depth - 1 }
    else opened

/-- The text before and after the first colon outside strings and parentheses. -/
def splitTopLevel? (opened : Opened) : Text → Option (Text × Text)
  | [] => none
  | c :: rest =>
    if c = ':' ∧ opened = {} then some ([], rest)
    else (splitTopLevel? (opened.behind c) rest).map fun (name, tail) => (c :: name, tail)

/-- The text before and after the colon of a declaration, if the text of a statement is one: it is
not empty, starts with no `@`, and has a property name before its first colon outside strings and
parentheses. -/
def nameAndTail? (text : Text) : Option (Text × Text) :=
  match Text.trimStart text with
  | [] => none
  | '@' :: _ => none
  | _ => (splitTopLevel? {} text).filter fun parts => isPropertyName (Text.trim parts.1)

/-! ## Both readers cut alike -/

theorem eq_append_of_splitTopLevel? {opened : Opened} {s name tail : Text}
    (h : splitTopLevel? opened s = some (name, tail)) : s = name ++ ':' :: tail := by
  induction s generalizing opened name with
  | nil => exact absurd h (Option.some_ne_none _).symm
  | cons c s ih =>
    rw [splitTopLevel?] at h
    split at h
    · rename_i hcolon
      obtain ⟨rfl, rfl⟩ := Prod.mk.inj (Option.some.inj h)
      rw [hcolon.1, List.nil_append]
    · obtain ⟨name', rfl, hrest⟩ := exists_of_map_cons_eq_some h
      rw [ih hrest, List.cons_append]

/-- A plain character opens and closes nothing. -/
theorem Opened.behind_of_isPlain {c : Char} (hc : isPlain c = true) :
    Opened.behind {} c = {} := by
  have hne : ∀ d ∈ specialChars, c ≠ d := by
    rintro d hd rfl
    rw [isPlain, Bool.not_eq_true', ← Bool.not_eq_true, List.contains_iff_mem] at hc
    exact hc hd
  have hquote : ¬ (c = '"' ∨ c = '\'') :=
    not_or.2 ⟨hne '"' (by decide), hne '\'' (by decide)⟩
  show (if c = '"' ∨ c = '\'' then _ else _) = ({} : Opened)
  rw [if_neg hquote, if_neg (hne '(' (by decide)), if_neg (hne ')' (by decide))]

/-- Behind plain characters the first colon is outside strings and parentheses. -/
theorem splitTopLevel?_append_cons {name : Text} (hplain : ∀ c ∈ name, isPlain c = true)
    (hcolon : ':' ∉ name) (tail : Text) :
    splitTopLevel? {} (name ++ ':' :: tail) = some (name, tail) := by
  induction name with
  | nil => rw [List.nil_append, splitTopLevel?, if_pos ⟨rfl, rfl⟩]
  | cons c name ih =>
    rw [List.forall_mem_cons] at hplain
    rw [List.mem_cons, not_or] at hcolon
    rw [List.cons_append, splitTopLevel?, if_neg fun h => hcolon.1 h.1.symm,
      Opened.behind_of_isPlain hplain.1, ih hplain.2 hcolon.2]
    rfl

section

variable {name : Text} (hname : isPropertyName (Text.trim name) = true)
include hname

/-- What is a property name between blanks is plain, and has no colon. -/
theorem isPlain_and_ne_colon_of_isPropertyName_trim :
    (∀ c ∈ name, isPlain c = true) ∧ ':' ∉ name := by
  obtain ⟨b, b', hb, hb', hparts⟩ := Text.exists_trim name
  have hmem : ∀ c ∈ name, Text.isBlank c = true ∨ c ∈ Text.trim name := by
    intro c hc
    rw [hparts, List.mem_append, List.mem_append] at hc
    rcases hc with (hc | hc) | hc
    · exact Or.inl (Text.isBlank_of_mem hb hc)
    · exact Or.inr hc
    · exact Or.inl (Text.isBlank_of_mem hb' hc)
  refine ⟨fun c hc => ?_, fun hc => ?_⟩
  · rcases hmem c hc with hblank | hword
    · exact isPlain_of_isBlank hblank
    · exact isPlain_of_mem_propertyName hname hword
  · rcases hmem ':' hc with hblank | hword
    · exact absurd hblank (by decide)
    · exact colon_notMem_propertyName hname hword

/-- What is a property name between blanks does not start with `@`. -/
theorem head?_trimStart_of_isPropertyName_trim {tail : Text} :
    ∃ c rest, Text.trimStart (name ++ tail) = c :: rest ∧ c ≠ '@' := by
  obtain ⟨b, b', hb, hb', hparts⟩ := Text.exists_trim name
  obtain ⟨c, word, hword⟩ := List.exists_cons_of_ne_nil (propertyName_ne_nil hname)
  have hmem : c ∈ Text.trim name := hword ▸ List.mem_cons_self
  have hstart : Text.trimStart (Text.trim name) = Text.trim name := by
    rw [Text.trimStart_eq_self_iff]
    exact fun d hd => isBlank_of_mem_propertyName hname (List.mem_of_head? hd)
  refine ⟨c, word ++ (b' ++ tail), ?_, ?_⟩
  · rw [hparts, List.append_assoc, List.append_assoc, Text.trimStart_append_of_blank hb,
      Text.trimStart_append_of_ne_nil hstart (propertyName_ne_nil hname), hword, List.cons_append]
  · rintro rfl
    rcases isWordOrHyphen_of_mem_propertyName hname hmem with h | ⟨h, -⟩ <;>
      exact absurd h (by decide)

end

/-- A text is cut by the careful reader at a colon behind a property name, and nowhere else. -/
theorem nameAndTail?_eq_some_iff {text name tail : Text} :
    nameAndTail? text = some (name, tail) ↔
      text = name ++ ':' :: tail ∧ isPropertyName (Text.trim name) = true := by
  constructor
  · intro h
    unfold nameAndTail? at h
    split at h
    · exact absurd h (Option.some_ne_none _).symm
    · exact absurd h (Option.some_ne_none _).symm
    · obtain ⟨hsplit, hname⟩ := Option.filter_eq_some_iff.1 h
      exact ⟨eq_append_of_splitTopLevel? hsplit, hname⟩
  · rintro ⟨rfl, hname⟩
    obtain ⟨hplain, hcolon⟩ := isPlain_and_ne_colon_of_isPropertyName_trim hname
    obtain ⟨c, rest, hstart, hc⟩ := head?_trimStart_of_isPropertyName_trim hname
    have hsplit := splitTopLevel?_append_cons hplain hcolon tail
    unfold nameAndTail?
    split
    · rename_i hnil
      exact absurd (hstart.symm.trans hnil) (List.cons_ne_nil _ _)
    · rename_i rest' hat
      exact absurd (List.cons.inj (hstart.symm.trans hat)).1 hc
    · rw [hsplit]
      exact Option.filter_eq_some_iff.2 ⟨rfl, hname⟩

/-- The first colon, behind a property name. -/
theorem filter_splitFirst?_eq_some_iff {core name tail : Text} :
    (Text.splitFirst? ':' core).filter (fun parts => isPropertyName (Text.trim parts.1)) =
        some (name, tail) ↔
      core = name ++ ':' :: tail ∧ isPropertyName (Text.trim name) = true := by
  rw [Option.filter_eq_some_iff]
  refine and_congr_left fun hname => ⟨fun h => (eq_append_of_splitFirst? h).1, ?_⟩
  rintro rfl
  exact splitFirst?_append_cons (isPlain_and_ne_colon_of_isPropertyName_trim hname).2 tail

/-- **The careful reader cuts at the first colon,** also when blanks stand in front of the
statement. -/
theorem nameAndTail?_append {space : Text} (hspace : Text.isBlankText space = true) (core : Text) :
    nameAndTail? (space ++ core) =
      ((Text.splitFirst? ':' core).filter fun parts => isPropertyName (Text.trim parts.1)).map
        fun (name, tail) => (space ++ name, tail) := by
  refine Option.ext fun ⟨whole, tail⟩ => ?_
  rw [nameAndTail?_eq_some_iff, Option.map_eq_some_iff]
  constructor
  · rintro ⟨htext, hname⟩
    -- the colon stands behind the blanks
    rcases List.append_eq_append_iff.1 htext with ⟨name, rfl, rfl⟩ | ⟨front, rfl, hrest⟩
    · rw [Text.trim_append_of_blank hspace] at hname
      exact ⟨(name, tail), filter_splitFirst?_eq_some_iff.2 ⟨rfl, hname⟩, rfl⟩
    · rw [Text.isBlankText_append] at hspace
      rw [Text.trim, Text.trimStart_eq_nil_of_blank hspace.1] at hname
      exact absurd rfl (propertyName_ne_nil hname)
  · rintro ⟨⟨name, tail'⟩, hfilter, heq⟩
    obtain ⟨rfl, rfl⟩ := Prod.mk.inj heq
    obtain ⟨rfl, hname⟩ := filter_splitFirst?_eq_some_iff.1 hfilter
    refine ⟨(List.append_assoc _ _ _).symm, ?_⟩
    rwa [Text.trim_append_of_blank hspace]

/-- **The declaration of a statement is the one that the careful reader finds.**  It is told that its
text starts at `base`, and the text may start with blanks in front of the statement. -/
theorem declaration?_eq_nameAndTail? {space : Text} (hspace : Text.isBlankText space = true)
    {dialect : Dialect} {offset line base : Nat} {blocks : List Text} {s : Statement}
    (hbase : base + space.length = offset + s.lead.length) :
    s.declaration? dialect offset line blocks =
      match nameAndTail? (space ++ s.core) with
      | none => none
      | some (name, tail) =>
        let start := base + name.length + 1
        let value := withoutFlags (Placed.text (keptValue dialect start tail))
        (Placed.span? ((keptValue dialect start tail).take value.length)).map fun span =>
          { property := Text.trim name, value, selectors := blocks, span
            line := line + s.lead.count '\n'
            comments := (Uncommented.ofText dialect start tail).comments.filter
              (·.within span) } := by
  rw [declaration?_eq, nameAndTail?_append hspace]
  cases hsplit : Text.splitFirst? ':' s.core with
  | none => rfl
  | some parts =>
    obtain ⟨name, tail⟩ := parts
    have hstart : base + (space ++ name).length + 1 = offset + s.lead.length + name.length + 1 := by
      rw [List.length_append]
      omega
    cases hname : isPropertyName (Text.trim name) with
    | false => simp [Option.filter, hname]
    | true =>
      simp only [Option.filter, hname, if_true, Option.map_some, hstart,
        Text.trim_append_of_blank hspace]

end StyleLift.Stylesheet
