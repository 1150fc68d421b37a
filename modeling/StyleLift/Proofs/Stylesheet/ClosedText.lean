import StyleLift.Proofs.Stylesheet.Statements

/-!
# Closed text

A text is closed when it ends outside strings and parentheses and nothing in it ends a statement
or starts a comment.  That is asked here of the characters alone, with a state that says whether
the reading is inside a string and how many parentheses are open.  Closed text is read as strings
and characters, so it can be put into a statement.

* `isClosed`: the question.
* `settles_of_isClosed`: the answer in terms of tokens.
* `Settled`: strings and characters that close all parentheses, and what follows from that.
-/

namespace StyleLift.Stylesheet

/-- The character `c` before `rest`, outside strings and at parenthesis depth `depth`, ends no
statement and starts no comment and no interpolation. -/
def isHarmless (dialect : Dialect) (depth : Nat) (c : Char) (rest : Text) : Bool :=
  !((c == ';' || c == '{' || c == '}') && depth == 0) &&
  !(c == '/' && rest.head? == some '*') &&
  !(dialect == .scss && c == '/' && rest.head? == some '/' && depth == 0) &&
  !(dialect == .scss && c == '#' && rest.head? == some '{')

/-- The text, read inside the string `quote` or outside strings at parenthesis depth `depth`, ends
outside strings and parentheses, and all characters outside strings are harmless. -/
def isClosed (dialect : Dialect) : Option Char → Nat → Text → Bool
  | none, depth, [] => depth == 0
  | some _, _, [] => false
  | some quote, depth, '\\' :: _ :: rest => isClosed dialect (some quote) depth rest
  | some quote, depth, c :: rest =>
    if c = quote then isClosed dialect none depth rest
    else isClosed dialect (some quote) depth rest
  | none, depth, c :: rest =>
    if c = '"' ∨ c = '\'' then isClosed dialect (some c) depth rest
    else if c = '(' then isClosed dialect none (depth + 1) rest
    else if c = ')' then depth != 0 && isClosed dialect none (depth - 1) rest
    else isHarmless dialect depth c rest && isClosed dialect none depth rest

/-- A character that starts and ends no string, no parentheses and no comment. -/
def isInert (c : Char) : Bool := c ∉ "\"'()*".toList

theorem isInert_of_isAlphanum {c : Char} (h : c.isAlphanum = true) : isInert c = true := by
  rw [isInert, decide_eq_true_eq]
  intro hc
  have hnone : "\"'()*".toList.any Char.isAlphanum = false := by decide
  exact List.any_eq_false.1 hnone c hc h

/-- Inside parentheses, everything but strings, parentheses and comments is a character of the
value, also what would end a statement outside. -/
theorem isClosed_append_of_inert {s : Text} (depth : Nat) (h : ∀ c ∈ s, isInert c = true)
    (rest : Text) (hrest : rest.head? ≠ some '*') :
    isClosed .css none (depth + 1) (s ++ rest) = isClosed .css none (depth + 1) rest := by
  induction s with
  | nil => rfl
  | cons c s ih =>
    rw [List.forall_mem_cons] at h
    have hinert : c ∉ "\"'()*".toList := of_decide_eq_true h.1
    have hnext : (s ++ rest).head? ≠ some '*' := by
      cases s with
      | nil => exact hrest
      | cons d s =>
        intro hstar
        obtain rfl := Option.some.inj hstar
        exact absurd (h.2 '*' List.mem_cons_self) (by decide)
    have hharmless : isHarmless .css (depth + 1) c (s ++ rest) = true := by
      have hstar : ((s ++ rest).head? == some '*') = false := beq_eq_false_iff_ne.2 hnext
      simp [isHarmless, hstar, -List.head?_append]
    simp only [String.reduceToList, List.mem_cons, List.not_mem_nil, or_false, not_or] at hinert
    rw [List.cons_append, isClosed, if_neg (by tauto), if_neg (by tauto), if_neg (by tauto),
      hharmless, Bool.true_and, ih h.2]

/-- Strings and characters that, from parenthesis depth `depth` on, close all parentheses. -/
structure Settled (dialect : Dialect) (depth : Nat) (ts : List Token) : Prop where
  simple : ∀ t ∈ ts, t.Simple ∧ t.isComment = false
  fits : FitsAll (.ofStatements dialect) depth none ts
  closed : finalDepth depth ts = 0

/-- Plain characters are settled. -/
theorem Settled.of_plain {dialect : Dialect} {s : Text} (h : ∀ c ∈ s, isPlain c = true) :
    Settled dialect 0 (s.map .glyph) := by
  have hplain : ∀ t ∈ s.map Token.glyph, t.Plain := fun _ => plain_of_mem_map_glyph h
  refine ⟨fun t ht => ⟨(hplain t ht).simple, ?_⟩, fitsAll_of_plain hplain _ _ _,
    finalDepth_of_plain hplain 0⟩
  obtain ⟨c, -, rfl⟩ := List.mem_map.1 ht
  rfl

/-- A string in front of settled tokens. -/
theorem Settled.cons_string {dialect : Dialect} {depth : Nat} {ts : List Token} {s : Text}
    (hs : IsString s) (h : Settled dialect depth ts) : Settled dialect depth (.quoted s :: ts) where
  simple := List.forall_mem_cons.2 ⟨⟨hs, rfl⟩, h.simple⟩
  fits := ⟨hs, h.fits⟩
  closed := h.closed

theorem Settled.cons_glyph {dialect : Dialect} {depth : Nat} {ts : List Token} {c : Char}
    (hc : (Token.glyph c).Fits (.ofStatements dialect) depth (spelling ts).head?)
    (h : Settled dialect ((Token.glyph c).depthAfter depth) ts) :
    Settled dialect depth (.glyph c :: ts) where
  simple := List.forall_mem_cons.2 ⟨⟨trivial, rfl⟩, h.simple⟩
  fits := ⟨by rwa [Option.or_none], h.fits⟩
  closed := h.closed

/-- A harmless character fits. -/
theorem fits_of_isHarmless {dialect : Dialect} {depth : Nat} {c : Char} {rest : Text}
    (hquote : ¬ (c = '"' ∨ c = '\'')) (h : isHarmless dialect depth c rest = true) :
    (Token.glyph c).Fits (.ofStatements dialect) depth rest.head? := by
  rw [not_or] at hquote
  simp only [isHarmless, Bool.and_eq_true, Bool.not_eq_true', Bool.and_eq_false_iff,
    Bool.or_eq_false_iff, beq_eq_false_iff_ne] at h
  obtain ⟨⟨⟨hstructure, hcomment⟩, hline⟩, hinterpolation⟩ := h
  refine ⟨hquote.1, hquote.2, ?_, ?_, ?_⟩
  · rintro (rfl | rfl | rfl) rfl <;> simp at hstructure
  · rintro rfl
    refine ⟨by simpa using hcomment, fun hlexis hdepth hslash => ?_⟩
    cases dialect with
    | css => exact absurd hlexis Bool.false_ne_true
    | scss => simp [hdepth, hslash] at hline
  · rintro rfl hlexis hbrace
    cases dialect with
    | css => exact absurd hlexis Bool.false_ne_true
    | scss => simp [hbrace] at hinterpolation

/-- The text is strings and characters that close all parentheses.  Inside a string, it first
ends the string. -/
def Settles (dialect : Dialect) (quote : Option Char) (depth : Nat) (s : Text) : Prop :=
  match quote with
  | none => ∃ ts, s = spelling ts ∧ Settled dialect depth ts
  | some q => ∃ body ts, s = body ++ spelling ts ∧ closeQuote? q body = some (body, []) ∧
      Settled dialect depth ts

/-- **Closed text is strings and characters.** -/
theorem settles_of_isClosed {dialect : Dialect} {quote : Option Char} {depth : Nat} {s : Text}
    (h : isClosed dialect quote depth s = true) : Settles dialect quote depth s := by
  fun_induction isClosed dialect quote depth s with
  | case1 depth => exact ⟨[], rfl, by simp, trivial, by simpa using h⟩
  | case2 => exact absurd h Bool.false_ne_true
  | case3 depth q c rest ih =>
    obtain ⟨body, ts, rfl, hclose, hts⟩ := ih h
    refine ⟨'\\' :: c :: body, ts, rfl, ?_, hts⟩
    rw [closeQuote?, hclose]
    rfl
  | case4 depth q rest hback ih =>
    obtain ⟨ts, rfl, hts⟩ := ih h
    refine ⟨[q], ts, rfl, ?_, hts⟩
    rw [closeQuote?_cons fun _ => rfl, if_pos rfl]
  | case5 depth q c rest hback hne ih =>
    obtain ⟨body, ts, rfl, hclose, hts⟩ := ih h
    refine ⟨c :: body, ts, rfl, ?_, hts⟩
    rw [closeQuote?_cons, if_neg hne, hclose]
    · rfl
    · rintro rfl
      cases body with
      | nil => rfl
      | cons d body => exact absurd rfl (hback d (body ++ spelling ts) rfl)
  | case6 depth c rest hquote ih =>
    obtain ⟨body, ts, rfl, hclose, hts⟩ := ih h
    refine ⟨.quoted (c :: body) :: ts, rfl, hts.cons_string ?_⟩
    rcases hquote with rfl | rfl
    · exact Or.inl ⟨body, rfl, hclose⟩
    · exact Or.inr ⟨body, rfl, hclose⟩
  | case7 depth rest hquote ih =>
    obtain ⟨ts, rfl, hts⟩ := ih h
    exact ⟨.glyph '(' :: ts, rfl, hts.cons_glyph ⟨by decide, by decide, by simp, by simp, by simp⟩⟩
  | case8 depth rest hquote hopen ih =>
    rw [Bool.and_eq_true] at h
    obtain ⟨ts, rfl, hts⟩ := ih h.2
    exact ⟨.glyph ')' :: ts, rfl, hts.cons_glyph ⟨by decide, by decide, by simp, by simp, by simp⟩⟩
  | case9 depth c rest hquote hopen hclose ih =>
    rw [Bool.and_eq_true] at h
    obtain ⟨ts, rfl, hts⟩ := ih h.2
    refine ⟨.glyph c :: ts, rfl, Settled.cons_glyph (fits_of_isHarmless hquote h.1) ?_⟩
    rwa [Token.depthAfter_of_ne hopen hclose]

/-! ## Settled tokens in a statement -/

/-- Without comments, what follows the tokens matters only for their last character. -/
theorem fitsAll_before {lexis : Lexis} {ts : List Token}
    (hts : ∀ t ∈ ts, t.Simple ∧ t.isComment = false) {depth : Nat} {next : Option Char}
    (h : FitsAll lexis depth none ts) (hstar : next ≠ some '*') (hslash : next ≠ some '/')
    (hhash : lexis.interpolations = true → next = some '{' →
      (spelling ts).getLast? ≠ some '#') : FitsAll lexis depth next ts := by
  induction ts generalizing depth with
  | nil => trivial
  | cons t ts ih =>
    rw [List.forall_mem_cons] at hts
    obtain ⟨ht, hrest⟩ := h
    have hsimple : ∀ u ∈ ts, u.Simple := fun u hu => (hts.2 u hu).1
    by_cases hnil : ts = []
    · subst hnil
      refine ⟨?_, trivial⟩
      cases t with
      | glyph c =>
        obtain ⟨hdouble, hsingle, hstructure, -, -⟩ := ht
        refine ⟨hdouble, hsingle, hstructure, fun _ => ⟨hstar, fun _ _ => hslash⟩, ?_⟩
        rintro rfl hlexis hbrace
        exact hhash hlexis hbrace rfl
      | quoted s => exact ht
      | comment => exact absurd hts.1.2.symm Bool.false_ne_true
      | interpolation | opening | closing | separator | unterminated => exact hts.1.1.elim
    · have hne : spelling ts ≠ [] := fun h => hnil ((spelling_eq_nil_iff hsimple).1 h)
      refine ⟨?_, ih hts.2 hrest ?_⟩
      · obtain ⟨c, s, hs⟩ := List.exists_cons_of_ne_nil hne
        rw [hs] at ht ⊢
        exact ht
      · rwa [spelling_cons, List.getLast?_append_of_ne_nil _ hne] at hhash

/-- Looking for comments only, tokens without comments are read as before. -/
theorem fitsAll_ofComments {dialect : Dialect} {ts : List Token}
    (hts : ∀ t ∈ ts, t.Simple ∧ t.isComment = false) {depth : Nat} {next : Option Char}
    (h : FitsAll (.ofStatements dialect) depth next ts) :
    FitsAll (.ofComments dialect) depth next ts := by
  induction ts generalizing depth with
  | nil => trivial
  | cons t ts ih =>
    rw [List.forall_mem_cons] at hts
    obtain ⟨ht, hrest⟩ := h
    refine ⟨?_, ih hts.2 hrest⟩
    cases t with
    | glyph c =>
      obtain ⟨hdouble, hsingle, hstructure, hslash, -⟩ := ht
      refine ⟨hdouble, hsingle, hstructure, fun hc => ⟨(hslash hc).1, fun hlexis => ?_⟩, ?_⟩
      · cases dialect with
        | css => exact absurd hlexis Bool.false_ne_true
        | scss => exact (hslash hc).2 rfl
      · cases dialect with
        | css => exact fun _ hlexis => absurd hlexis Bool.false_ne_true
        | scss => exact fun _ hlexis => absurd hlexis Bool.false_ne_true
    | quoted s => exact ht
    | comment => exact absurd hts.1.2.symm Bool.false_ne_true
    | interpolation | opening | closing | separator | unterminated => exact hts.1.1.elim

end StyleLift.Stylesheet
