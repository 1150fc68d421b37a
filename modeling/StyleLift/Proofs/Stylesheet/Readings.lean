import StyleLift.Proofs.Stylesheet.Statements

/-!
# The two readings of a statement

A statement is read twice.  The first reading looks for its end, and takes an interpolation as one
token; the second looks for its comments, and takes an interpolation as any other text.  As long
as there is no interpolation, both give the same tokens.

The second reading starts behind the name of a declaration and stops where the statement does, so
it does not know what follows.  That is no loss: a token that fits before some character fits at
the end as well.

* `FitsAll.atEnd`: what fits before a character fits at the end.
* `FitsAll.ofComments`: without interpolations the two readings agree.
* `exists_tokens_of_name`: the first reading of a declaration starts with its name and the colon.
* `coreOf_name_append`: what stands before the name does not belong to the statement.
-/

namespace StyleLift.Stylesheet

variable {lexis : Lexis} {dialect : Dialect} {depth : Nat} {next : Option Char} {t : Token}
  {ts : List Token}

/-! ## At the end of a text -/

theorem Token.Fits.atEnd (h : t.Fits lexis depth next) : t.Fits lexis depth none := by
  cases t with
  | comment s =>
    rcases h with hblock | ⟨hlexis, hdepth, hline, -⟩
    · exact Or.inl hblock
    · exact Or.inr ⟨hlexis, hdepth, hline, by simp⟩
  | glyph c =>
    obtain ⟨hdouble, hsingle, hstructure, -, -⟩ := h
    exact ⟨hdouble, hsingle, hstructure, fun _ => ⟨by simp, fun _ _ => by simp⟩,
      fun _ _ => by simp⟩
  | quoted | interpolation | opening | closing | separator => exact h
  | unterminated what s => cases what with
    | comment | string | interpolation => exact ⟨rfl, h.2⟩

/-- What fits before a character fits at the end of a text. -/
theorem FitsAll.atEnd (h : FitsAll lexis depth next ts) : FitsAll lexis depth none ts := by
  induction ts generalizing depth with
  | nil => trivial
  | cons t ts ih =>
    refine ⟨?_, ih h.2⟩
    have ht := h.1
    cases hs : spelling ts with
    | nil => exact ht.atEnd
    | cons c s => rwa [hs] at ht

/-- Only the text itself matters for what it is read as. -/
theorem FitsAll.of_or {x : Option Char} (h : FitsAll lexis depth (x.or next) ts) :
    FitsAll lexis depth x ts := by
  cases x with
  | none => exact h.atEnd
  | some c => exact h

/-! ## Without interpolations -/

/-- Interpolations, ended or not. -/
def Token.isInterpolation : Token → Bool
  | .interpolation _ => true
  | .unterminated .interpolation _ => true
  | _ => false

theorem Token.Fits.ofComments (h : t.Fits (.ofStatements dialect) depth next)
    (ht : t.isInterpolation = false) : t.Fits (.ofComments dialect) depth next := by
  have hlines : (Lexis.ofComments dialect).lineComments =
      (Lexis.ofStatements dialect).lineComments := by cases dialect <;> rfl
  cases t with
  | comment s =>
    rcases h with hblock | ⟨hlexis, hrest⟩
    · exact Or.inl hblock
    · exact Or.inr ⟨hlines.trans hlexis, hrest⟩
  | glyph c =>
    obtain ⟨hdouble, hsingle, hstructure, hslash, -⟩ := h
    refine ⟨hdouble, hsingle, hstructure, by rwa [hlines], fun _ hlexis => ?_⟩
    cases dialect <;> exact absurd hlexis Bool.false_ne_true
  | quoted | opening | closing | separator => exact h
  | interpolation => exact absurd ht.symm Bool.false_ne_true
  | unterminated what s =>
    cases what with
    | comment | string => exact h
    | interpolation => exact absurd ht.symm Bool.false_ne_true

/-- Without interpolations the two readings agree. -/
theorem FitsAll.ofComments (h : FitsAll (.ofStatements dialect) depth next ts)
    (hts : ∀ t ∈ ts, t.isInterpolation = false) : FitsAll (.ofComments dialect) depth next ts := by
  induction ts generalizing depth with
  | nil => trivial
  | cons t ts ih =>
    rw [List.forall_mem_cons] at hts
    exact ⟨h.1.ofComments hts.1, ih h.2 hts.2⟩

/-! ## Blanks and comments -/

theorem Token.isInterpolation_of_isFiller (ht : t.isFiller = true) :
    t.isInterpolation = false := by
  cases t with
  | comment | glyph => rfl
  | quoted | interpolation | opening | closing | separator | unterminated =>
    exact absurd ht Bool.false_ne_true

theorem Token.depthAfter_of_isFiller (ht : t.isFiller = true) (depth : Nat) :
    t.depthAfter depth = depth := by
  cases t with
  | comment s => rfl
  | glyph c => exact Token.Plain.depthAfter_eq (t := .glyph c) (isPlain_of_isBlank ht) depth
  | quoted | interpolation | opening | closing | separator | unterminated =>
    exact absurd ht Bool.false_ne_true

/-- Blanks and comments open and close no parenthesis. -/
theorem finalDepth_of_filler (hts : ∀ t ∈ ts, t.isFiller = true) (depth : Nat) :
    finalDepth depth ts = depth := by
  induction ts with
  | nil => rfl
  | cons t ts ih =>
    rw [List.forall_mem_cons] at hts
    rw [finalDepth_cons, Token.depthAfter_of_isFiller hts.1, ih hts.2]

/-- Blanks and comments in front are read alike in both readings. -/
theorem tokens_ofComments_filler {lead : List Token} (hlead : ∀ t ∈ lead, t.isFiller = true)
    (h : FitsAll (.ofStatements dialect) depth next (lead ++ ts)) :
    tokens (.ofComments dialect) depth (spelling (lead ++ ts)) =
      lead ++ tokens (.ofComments dialect) depth (spelling ts) := by
  have hfits := (fitsAll_append.1 h).1.of_or.ofComments
    fun t ht => Token.isInterpolation_of_isFiller (hlead t ht)
  rw [spelling_append, tokens_spelling_append hfits, finalDepth_of_filler hlead]

/-! ## The name of a declaration -/

/-- A name, blanks and a colon open and close nothing. -/
theorem plain_of_mem_name {name space : Text} (hname : isPropertyName name = true)
    (hspace : Text.isBlankText space = true)
    (ht : t ∈ (name ++ space ++ [':']).map Token.glyph) : t.Plain := by
  refine plain_of_mem_map_glyph ?_ ht
  intro c hc
  simp only [List.mem_append, List.mem_singleton] at hc
  rcases hc with (hc | hc) | rfl
  · exact isPlain_of_mem_propertyName hname hc
  · exact isPlain_of_isBlank (Text.isBlank_of_mem hspace hc)
  · decide

/-- The name of a declaration starts its statement and is followed by blanks and the colon. -/
theorem exists_tokens_of_name {body : List Token} (hbody : IsBody dialect next body)
    {name tail : Text} (hsplit : Text.splitFirst? ':' (coreOf body) = some (name, tail))
    (hname : isPropertyName (Text.trim name) = true) :
    ∃ space, Text.isBlankText space = true ∧ name = Text.trim name ++ space ∧
      body.dropWhile Token.isFiller =
        (Text.trim name ++ space ++ [':']).map .glyph ++
          tokens (.ofStatements dialect) 0 tail := by
  obtain ⟨hcore, -⟩ := eq_append_of_splitFirst? hsplit
  obtain ⟨b, space, hb, hspace, hparts⟩ := Text.exists_trim name
  have hread : tokens (.ofStatements dialect) 0 (coreOf body) =
      body.dropWhile Token.isFiller := by
    have hfits := hbody.fits
    rw [← List.takeWhile_append_dropWhile (p := Token.isFiller) (l := body), fitsAll_append,
      finalDepth_of_filler fun t ht => List.mem_takeWhile_imp ht] at hfits
    exact tokens_spelling hfits.2.atEnd
  have hplain : ∀ c ∈ b ++ Text.trim name ++ space ++ [':'], isPlain c = true := by
    intro c hc
    simp only [List.mem_append, List.mem_singleton] at hc
    rcases hc with ((hc | hc) | hc) | rfl
    · exact isPlain_of_isBlank (Text.isBlank_of_mem hb hc)
    · exact isPlain_of_mem_propertyName hname hc
    · exact isPlain_of_isBlank (Text.isBlank_of_mem hspace hc)
    · decide
  have htokens := tokens_append_of_plain hplain (.ofStatements dialect) 0 tail
  rw [← hparts, List.append_assoc, List.singleton_append, ← hcore, hread] at htokens
  -- no blank stands before the name, since the statement starts with no blank
  have hnil : b = [] := by
    cases b with
    | nil => rfl
    | cons c b =>
      have hhead := List.head?_dropWhile_not Token.isFiller body
      rw [htokens, hparts] at hhead
      have hc : Text.isBlank c = true := Text.isBlank_of_mem hb List.mem_cons_self
      simp [Token.isFiller, hc] at hhead
  subst hnil
  rw [List.nil_append] at hparts
  refine ⟨space, hspace, hparts, ?_⟩
  rw [htokens]
  congr 3

/-- What stands before the name does not belong to the statement. -/
theorem coreOf_name_append {lead : List Token} (hlead : ∀ t ∈ lead, t.isFiller = true)
    {name space : Text} (hname : isPropertyName name = true) (ts : List Token) :
    coreOf (lead ++ (name ++ space ++ [':']).map .glyph ++ ts) =
      name ++ space ++ ':' :: spelling ts := by
  have hdrop : (lead ++ (name ++ space ++ [':']).map Token.glyph ++ ts).dropWhile Token.isFiller =
      (name ++ space ++ [':']).map Token.glyph ++ ts := by
    rw [List.append_assoc, List.dropWhile_append_of_pos hlead]
    cases name with
    | nil => exact absurd rfl (propertyName_ne_nil hname)
    | cons c name =>
      have hc := isBlank_of_mem_propertyName hname List.mem_cons_self
      simp [Token.isFiller, hc]
  rw [coreOf, hdrop, spelling_append, spelling_map_glyph, List.append_assoc,
    List.singleton_append]

end StyleLift.Stylesheet
