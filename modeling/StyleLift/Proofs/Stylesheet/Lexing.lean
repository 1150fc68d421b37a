import StyleLift.Stylesheet.Token

/-!
# When tokens are read back

A list of tokens is what its text is read as exactly when every token *fits*: it is a comment,
string or interpolation that ends where it ends and nowhere before, or a character that starts
none of these.  Whether a token fits depends on the depth it stands at and on the one character
that comes next, and on nothing else.  So tokens can be exchanged, left out and put together by
looking at neighbours only, and no proof after this file opens the reader again.

* `Closer`: what the three functions that look for an end have in common.
* `Token.Fits`, `FitsAll`: the condition on one token and on a list.
* `fitsAll_tokens`: what is read fits.
* `tokens_spelling_append`: what fits is read, whatever follows.
* `Token.Plain`: the tokens that fit everywhere.
-/

namespace StyleLift.Stylesheet

/-! ## Looking for an end -/

/-- A function that cuts a text after its first end: a text that ends at its end is found whole,
and what follows does not matter. -/
structure Closer (close : Text → Option (Text × Text)) : Prop where
  append_eq : ∀ {s body rest : Text}, close s = some (body, rest) → body ++ rest = s
  self : ∀ {s body rest : Text}, close s = some (body, rest) → close body = some (body, [])
  append : ∀ {body : Text} (rest : Text), close body = some (body, []) →
    close (body ++ rest) = some (body, rest)

/-- Finding an end behind `c` is finding it in the rest. -/
theorem exists_of_map_cons_eq_some {c : Char} {found : Option (Text × Text)} {body rest : Text}
    (h : found.map (fun (body, after) => (c :: body, after)) = some (body, rest)) :
    ∃ tail, body = c :: tail ∧ found = some (tail, rest) := by
  obtain ⟨⟨tail, rest'⟩, hfound, heq⟩ := Option.map_eq_some_iff.1 h
  simp only [Prod.mk.injEq] at heq
  obtain ⟨rfl, rfl⟩ := heq
  exact ⟨tail, rfl, hfound⟩

theorem closeComment?_cons {c : Char} {s : Text} (h : ¬ (c = '*' ∧ ∃ t, s = '/' :: t)) :
    closeComment? (c :: s) =
      (closeComment? s).map fun (body, after) => (c :: body, after) := by
  rw [closeComment?]
  intro rest hc hs
  exact h ⟨hc, rest, hs⟩

theorem closer_comment : Closer closeComment? where
  append_eq := append_of_closeComment?
  self := by
    intro s body rest h
    fun_induction closeComment? s generalizing body rest with
    | case1 => simp at h
    | case2 =>
      simp only [Option.some.injEq, Prod.mk.injEq] at h
      obtain ⟨rfl, rfl⟩ := h
      rfl
    | case3 c s hstar ih =>
      obtain ⟨tail, rfl, htail⟩ := exists_of_map_cons_eq_some h
      have hself := ih htail
      rw [closeComment?_cons, hself]
      · rfl
      -- the end that `c` would make with what follows it would be one of the whole text too
      · rintro ⟨rfl, t, rfl⟩
        exact hstar (t ++ rest) rfl (append_of_closeComment? htail).symm
  append := by
    intro body rest h
    fun_induction closeComment? body with
    | case1 => simp at h
    | case2 s =>
      simp only [Option.some.injEq, Prod.mk.injEq, List.cons.injEq, true_and] at h
      obtain ⟨hs, -⟩ := h
      subst hs
      rfl
    | case3 c s hstar ih =>
      obtain ⟨tail, heq, htail⟩ := exists_of_map_cons_eq_some h
      obtain rfl := (List.cons.inj heq).2
      rw [List.cons_append, closeComment?_cons, ih htail]
      · rfl
      · rintro ⟨rfl, t, ht⟩
        cases s with
        | nil => simp [closeComment?] at htail
        | cons d s =>
          obtain ⟨rfl, -⟩ := List.cons.inj ht
          exact hstar s rfl rfl

theorem closeQuote?_cons {quote c : Char} {s : Text} (h : c = '\\' → s = []) :
    closeQuote? quote (c :: s) =
      if c = quote then some ([c], s)
      else (closeQuote? quote s).map fun (body, after) => (c :: body, after) := by
  rw [closeQuote?]
  intro d rest hc hs
  simp [h hc] at hs

theorem closer_quote {quote : Char} (hquote : quote ≠ '\\') : Closer (closeQuote? quote) where
  append_eq := append_of_closeQuote?
  self := by
    intro s body rest h
    fun_induction closeQuote? quote s generalizing body rest with
    | case1 => simp at h
    | case2 c s ih =>
      obtain ⟨⟨tail, rest'⟩, htail, heq⟩ := Option.map_eq_some_iff.1 h
      simp only [Prod.mk.injEq] at heq
      obtain ⟨rfl, rfl⟩ := heq
      rw [closeQuote?, ih htail]
      rfl
    | case3 s hback =>
      simp only [Option.some.injEq, Prod.mk.injEq] at h
      obtain ⟨rfl, rfl⟩ := h
      rw [closeQuote?_cons (fun hq => absurd hq hquote), if_pos rfl]
    | case4 c s hback hne ih =>
      obtain ⟨tail, rfl, htail⟩ := exists_of_map_cons_eq_some h
      rw [closeQuote?_cons, if_neg hne, ih htail]
      · rfl
      · rintro rfl
        cases s with
        | nil => simp [closeQuote?] at htail
        | cons d s => exact absurd rfl (hback d s rfl)
  append := by
    intro body rest h
    fun_induction closeQuote? quote body with
    | case1 => simp at h
    | case2 c s ih =>
      obtain ⟨⟨tail, rest'⟩, htail, heq⟩ := Option.map_eq_some_iff.1 h
      simp only [Prod.mk.injEq, List.cons.injEq, true_and] at heq
      obtain ⟨rfl, rfl⟩ := heq
      rw [List.cons_append, List.cons_append, closeQuote?, ih htail]
      rfl
    | case3 s hback =>
      simp only [Option.some.injEq, Prod.mk.injEq, List.cons.injEq, true_and] at h
      obtain ⟨-, rfl⟩ := h
      rw [List.cons_append, closeQuote?_cons (fun hq => absurd hq hquote), if_pos rfl]
      rfl
    | case4 c s hback hne ih =>
      obtain ⟨tail, heq, htail⟩ := exists_of_map_cons_eq_some h
      obtain rfl := (List.cons.inj heq).2
      rw [List.cons_append, closeQuote?_cons, if_neg hne, ih htail]
      · rfl
      · rintro rfl
        cases s with
        | nil => simp [closeQuote?] at htail
        | cons d s => exact absurd rfl (hback d s rfl)

theorem closer_interpolation (depth : Nat) : Closer (closeInterpolation? depth) where
  append_eq := append_of_closeInterpolation?
  self := by
    intro s body rest h
    fun_induction closeInterpolation? depth s generalizing body rest with
    | case1 => simp at h
    | case3 =>
      simp only [Option.some.injEq, Prod.mk.injEq] at h
      obtain ⟨rfl, rfl⟩ := h
      rfl
    | case2 depth s ih | case4 s outer ih =>
      obtain ⟨tail, rfl, htail⟩ := exists_of_map_cons_eq_some h
      rw [closeInterpolation?, ih htail]
      rfl
    | case5 depth c s hopen hclose ih =>
      obtain ⟨tail, rfl, htail⟩ := exists_of_map_cons_eq_some h
      rw [closeInterpolation?, ih htail]
      · rfl
      · exact hopen
      · exact hclose
  append := by
    intro body rest h
    fun_induction closeInterpolation? depth body with
    | case1 => simp at h
    | case3 s =>
      simp only [Option.some.injEq, Prod.mk.injEq, List.cons.injEq, true_and] at h
      obtain ⟨-, rfl⟩ := h
      rfl
    | case2 depth s ih | case4 s outer ih =>
      obtain ⟨tail, heq, htail⟩ := exists_of_map_cons_eq_some h
      obtain rfl := (List.cons.inj heq).2
      rw [List.cons_append, closeInterpolation?, ih htail]
      rfl
    | case5 depth c s hopen hclose ih =>
      obtain ⟨tail, heq, htail⟩ := exists_of_map_cons_eq_some h
      obtain rfl := (List.cons.inj heq).2
      rw [List.cons_append, closeInterpolation?, ih htail]
      · rfl
      · exact hopen
      · exact hclose

/-! ## Tokens that fit -/

/-- A text that starts with `lead` and ends at its first end. -/
def Encloses (lead : Text) (close : Text → Option (Text × Text)) (s : Text) : Prop :=
  ∃ body, s = lead ++ body ∧ close body = some (body, [])

/-- A text that starts with `lead` and has no end. -/
def StaysOpen (lead : Text) (close : Text → Option (Text × Text)) (s : Text) : Prop :=
  ∃ body, s = lead ++ body ∧ close body = none

/-- A string with its quotes. -/
def IsString (s : Text) : Prop :=
  Encloses ['"'] (closeQuote? '"') s ∨ Encloses ['\''] (closeQuote? '\'') s

/-- A comment that ends with `*/`. -/
def IsBlockComment (s : Text) : Prop := Encloses ['/', '*'] closeComment? s

/-- A comment up to the end of its line. -/
def IsLineComment (s : Text) : Prop := ∃ line, s = '/' :: '/' :: line ∧ '\n' ∉ line

namespace Token

/-- The token is read as it is at parenthesis depth `depth` before the character `next`. -/
def Fits (lexis : Lexis) (depth : Nat) (next : Option Char) : Token → Prop
  | comment s => IsBlockComment s ∨
      lexis.lineComments = true ∧ depth = 0 ∧ IsLineComment s ∧ ∀ c, next = some c → c = '\n'
  | quoted s => IsString s
  | interpolation s =>
      lexis.interpolations = true ∧ Encloses ['#', '{'] (closeInterpolation? 0) s
  | opening => depth = 0
  | closing => depth = 0
  | separator => depth = 0
  | glyph c =>
      c ≠ '"' ∧ c ≠ '\'' ∧ (c = '{' ∨ c = '}' ∨ c = ';' → depth ≠ 0) ∧
      (c = '/' → next ≠ some '*' ∧
        (lexis.lineComments = true → depth = 0 → next ≠ some '/')) ∧
      (c = '#' → lexis.interpolations = true → next ≠ some '{')
  | unterminated .comment s => next = none ∧ StaysOpen ['/', '*'] closeComment? s
  | unterminated .string s => next = none ∧
      (StaysOpen ['"'] (closeQuote? '"') s ∨ StaysOpen ['\''] (closeQuote? '\'') s)
  | unterminated .interpolation s => next = none ∧
      lexis.interpolations = true ∧ StaysOpen ['#', '{'] (closeInterpolation? 0) s

end Token

/-- An enclosed text is either whole or open. -/
theorem fits_enclosed {lexis : Lexis} {depth : Nat} {what : Enclosure} {token : Text → Token}
    {lead rest : Text} {close : Text → Option (Text × Text)} (hclose : Closer close)
    (hwhole : ∀ s next, Encloses lead close s → (token s).Fits lexis depth next)
    (hopen : ∀ s, StaysOpen lead close s → (Token.unterminated what s).Fits lexis depth none) :
    (enclosed what token lead rest close).1.Fits lexis depth
      (enclosed what token lead rest close).2.head? := by
  unfold enclosed
  split
  · rename_i body after hfound
    exact hwhole _ _ ⟨body, rfl, hclose.self hfound⟩
  · rename_i hfound
    exact hopen _ ⟨rest, rfl, hfound⟩

/-- A whole enclosed text is found, whatever follows. -/
theorem enclosed_of_encloses {what : Enclosure} {token : Text → Token} {lead body : Text}
    {close : Text → Option (Text × Text)} (hclose : Closer close)
    (hbody : close body = some (body, [])) (rest : Text) :
    enclosed what token lead (body ++ rest) close = (token (lead ++ body), rest) := by
  rw [enclosed, hclose.append rest hbody]

theorem closer_doubleQuote : Closer (closeQuote? '"') := closer_quote (by decide)

theorem closer_singleQuote : Closer (closeQuote? '\'') := closer_quote (by decide)

theorem fits_structural {lexis : Lexis} {depth : Nat} {next : Option Char} {token : Token}
    {c : Char} (htoken : depth = 0 → token.Fits lexis depth next)
    (hc : c = '{' ∨ c = '}' ∨ c = ';') : (structural depth token c).Fits lexis depth next := by
  unfold structural
  split
  · rename_i hdepth
    exact htoken hdepth
  · rename_i hdepth
    rcases hc with rfl | rfl | rfl <;> exact ⟨by decide, by decide, fun _ => hdepth, by simp⟩

/-- **What is read fits.** -/
theorem fits_nextToken (lexis : Lexis) (depth : Nat) (c : Char) (rest : Text) :
    (nextToken lexis depth c rest).1.Fits lexis depth (nextToken lexis depth c rest).2.head? := by
  unfold nextToken
  split
  · exact fits_enclosed closer_comment (fun _ _ hs => Or.inl hs) fun _ hs => ⟨rfl, hs⟩
  · rename_i tail
    split
    · rename_i hline
      simp only [Bool.and_eq_true, beq_iff_eq] at hline
      refine Or.inr ⟨hline.1, hline.2, ⟨tail.takeWhile (· != '\n'), ?_, ?_⟩, ?_⟩
      · rw [List.takeWhile_cons_of_pos (by decide)]
      · intro hmem
        have hall := List.all_takeWhile (p := (· != '\n')) (l := tail)
        simpa using List.all_eq_true.1 hall _ hmem
      · intro c hc
        have hstop := List.head?_dropWhile_not (· != '\n') ('/' :: tail)
        rw [hc] at hstop
        simpa using hstop
    · rename_i hline
      refine ⟨by decide, by decide, by simp, fun _ => ⟨by simp, ?_⟩, by simp⟩
      intro hlexis hdepth
      simp [hlexis, hdepth] at hline
  · exact fits_enclosed closer_doubleQuote (fun _ _ hs => Or.inl hs)
      fun _ hs => ⟨rfl, Or.inl hs⟩
  · exact fits_enclosed closer_singleQuote (fun _ _ hs => Or.inr hs)
      fun _ hs => ⟨rfl, Or.inr hs⟩
  · split
    · rename_i hlexis
      exact fits_enclosed (closer_interpolation 0) (fun _ _ hs => ⟨hlexis, hs⟩)
        fun _ hs => ⟨rfl, hlexis, hs⟩
    · rename_i hlexis
      exact ⟨by decide, by decide, by simp, by simp, fun _ h => absurd h hlexis⟩
  · exact fits_structural id (by simp)
  · exact fits_structural id (by simp)
  · exact fits_structural id (by simp)
  · rename_i hdouble hsingle hopening hclosing hseparator hstar hslash hhash
    refine ⟨hdouble, hsingle, ?_, ?_, ?_⟩
    · rintro (rfl | rfl | rfl)
      · exact absurd rfl hopening
      · exact absurd rfl hclosing
      · exact absurd rfl hseparator
    · rintro rfl
      refine ⟨?_, fun _ _ => ?_⟩
      · intro hnext
        obtain ⟨tail, htail⟩ := List.head?_eq_some_iff.1 hnext
        exact hstar tail rfl htail
      · intro hnext
        obtain ⟨tail, htail⟩ := List.head?_eq_some_iff.1 hnext
        exact hslash tail rfl htail
    · rintro rfl - hnext
      obtain ⟨tail, htail⟩ := List.head?_eq_some_iff.1 hnext
      exact hhash tail rfl htail

theorem eq_nil_of_head?_eq_none {s : Text} (h : s.head? = none) : s = [] :=
  List.head?_eq_none_iff.1 h

/-- A line comment is found when its line ends behind it. -/
theorem nextToken_line {lexis : Lexis} {line rest : Text} (hlexis : lexis.lineComments = true)
    (hline : '\n' ∉ line) (hrest : ∀ c, rest.head? = some c → c = '\n') :
    nextToken lexis 0 '/' ('/' :: (line ++ rest)) = (.comment ('/' :: '/' :: line), rest) := by
  have hpos : ∀ c ∈ '/' :: line, (c != '\n') = true := by
    intro c hc
    rw [bne_iff_ne]
    rintro rfl
    rcases List.mem_cons.1 hc with h | h
    · exact absurd h (by decide)
    · exact hline h
  have hstop : rest.takeWhile (· != '\n') = [] ∧ rest.dropWhile (· != '\n') = rest := by
    cases rest with
    | nil => exact ⟨rfl, rfl⟩
    | cons c rest =>
      obtain rfl := hrest c rfl
      exact ⟨rfl, rfl⟩
  have htake : ('/' :: (line ++ rest)).takeWhile (· != '\n') = '/' :: line := by
    rw [← List.cons_append, List.takeWhile_append_of_pos hpos, hstop.1, List.append_nil]
  have hdrop : ('/' :: (line ++ rest)).dropWhile (· != '\n') = rest := by
    rw [← List.cons_append, List.dropWhile_append_of_pos hpos, hstop.2]
  simp only [nextToken, hlexis, htake, hdrop, Bool.true_and, beq_self_eq_true, if_true]

theorem nextToken_structural {lexis : Lexis} {rest : Text} :
    nextToken lexis 0 '{' rest = (.opening, rest) ∧
      nextToken lexis 0 '}' rest = (.closing, rest) ∧
      nextToken lexis 0 ';' rest = (.separator, rest) := by
  simp [nextToken, structural]

/-- A character that fits is found. -/
theorem nextToken_glyph {lexis : Lexis} {depth : Nat} {c : Char} {rest : Text}
    (h : (Token.glyph c).Fits lexis depth rest.head?) :
    nextToken lexis depth c rest = (.glyph c, rest) := by
  obtain ⟨hdouble, hsingle, hstructure, hslash, hhash⟩ := h
  unfold nextToken
  split
  · exact absurd rfl (hslash rfl).1
  · split
    · rename_i hline
      simp only [Bool.and_eq_true, beq_iff_eq] at hline
      exact absurd rfl ((hslash rfl).2 hline.1 hline.2)
    · rfl
  · exact absurd rfl hdouble
  · exact absurd rfl hsingle
  · split
    · rename_i hlexis
      exact absurd rfl (hhash rfl hlexis)
    · rfl
  · rw [structural, if_neg (hstructure (by simp))]
  · rw [structural, if_neg (hstructure (by simp))]
  · rw [structural, if_neg (hstructure (by simp))]
  · rfl

/-- **What fits is read.** -/
theorem nextToken_of_fits {lexis : Lexis} {depth : Nat} {t : Token} {rest : Text}
    (h : t.Fits lexis depth rest.head?) :
    ∃ c tail, t.text ++ rest = c :: tail ∧ nextToken lexis depth c tail = (t, rest) := by
  cases t with
  | comment s =>
    rcases h with ⟨body, rfl, hbody⟩ | ⟨hlexis, rfl, ⟨line, rfl, hline⟩, hnext⟩
    · exact ⟨'/', '*' :: (body ++ rest), rfl, enclosed_of_encloses closer_comment hbody rest⟩
    · exact ⟨'/', '/' :: (line ++ rest), rfl, nextToken_line hlexis hline hnext⟩
  | quoted s =>
    rcases h with ⟨body, rfl, hbody⟩ | ⟨body, rfl, hbody⟩
    · refine ⟨'"', body ++ rest, rfl, ?_⟩
      simp only [nextToken]
      exact enclosed_of_encloses closer_doubleQuote hbody rest
    · refine ⟨'\'', body ++ rest, rfl, ?_⟩
      simp only [nextToken]
      exact enclosed_of_encloses closer_singleQuote hbody rest
  | interpolation s =>
    obtain ⟨hlexis, body, rfl, hbody⟩ := h
    refine ⟨'#', '{' :: (body ++ rest), rfl, ?_⟩
    simp only [nextToken, hlexis, if_true]
    exact enclosed_of_encloses (closer_interpolation 0) hbody rest
  | opening =>
    obtain rfl : depth = 0 := h
    exact ⟨'{', rest, rfl, nextToken_structural.1⟩
  | closing =>
    obtain rfl : depth = 0 := h
    exact ⟨'}', rest, rfl, nextToken_structural.2.1⟩
  | separator =>
    obtain rfl : depth = 0 := h
    exact ⟨';', rest, rfl, nextToken_structural.2.2⟩
  | glyph c => exact ⟨c, rest, rfl, nextToken_glyph h⟩
  | unterminated what s =>
    cases what with
    | comment =>
      obtain ⟨hrest, body, rfl, hbody⟩ := h
      obtain rfl := eq_nil_of_head?_eq_none hrest
      exact ⟨'/', '*' :: body, by simp, by simp [nextToken, enclosed, hbody]⟩
    | string =>
      obtain ⟨hrest, ⟨body, rfl, hbody⟩ | ⟨body, rfl, hbody⟩⟩ := h
      · obtain rfl := eq_nil_of_head?_eq_none hrest
        exact ⟨'"', body, by simp, by simp [nextToken, enclosed, hbody]⟩
      · obtain rfl := eq_nil_of_head?_eq_none hrest
        exact ⟨'\'', body, by simp, by simp [nextToken, enclosed, hbody]⟩
    | interpolation =>
      obtain ⟨hrest, hlexis, body, rfl, hbody⟩ := h
      obtain rfl := eq_nil_of_head?_eq_none hrest
      exact ⟨'#', '{' :: body, by simp, by simp [nextToken, enclosed, hbody, hlexis]⟩

/-! ## Lists of tokens -/

/-- The text of a list of tokens. -/
def spelling (ts : List Token) : Text := ts.flatMap Token.text

@[simp] theorem Token.text_opening : Token.opening.text = ['{'] := rfl

@[simp] theorem Token.text_closing : Token.closing.text = ['}'] := rfl

@[simp] theorem Token.text_separator : Token.separator.text = [';'] := rfl

@[simp] theorem spelling_nil : spelling [] = [] := rfl

@[simp] theorem spelling_cons (t : Token) (ts : List Token) :
    spelling (t :: ts) = t.text ++ spelling ts := rfl

@[simp] theorem spelling_append (ts us : List Token) :
    spelling (ts ++ us) = spelling ts ++ spelling us :=
  List.flatMap_append

@[simp] theorem spelling_map_glyph (s : Text) : spelling (s.map .glyph) = s := by
  induction s with
  | nil => rfl
  | cons c s ih => rw [List.map_cons, spelling_cons, ih, Token.text_glyph, List.singleton_append]

/-- The parenthesis depth after a list of tokens. -/
def finalDepth (depth : Nat) (ts : List Token) : Nat := ts.foldl Token.depthAfter depth

@[simp] theorem finalDepth_nil (depth : Nat) : finalDepth depth [] = depth := rfl

@[simp] theorem finalDepth_cons (depth : Nat) (t : Token) (ts : List Token) :
    finalDepth depth (t :: ts) = finalDepth (t.depthAfter depth) ts := rfl

@[simp] theorem finalDepth_append (depth : Nat) (ts us : List Token) :
    finalDepth depth (ts ++ us) = finalDepth (finalDepth depth ts) us :=
  List.foldl_append

/-- Every token fits where it stands; `next` is the character behind the last one. -/
def FitsAll (lexis : Lexis) (depth : Nat) (next : Option Char) : List Token → Prop
  | [] => True
  | t :: ts => t.Fits lexis depth ((spelling ts).head?.or next) ∧
      FitsAll lexis (t.depthAfter depth) next ts

@[simp] theorem fitsAll_nil (lexis : Lexis) (depth : Nat) (next : Option Char) :
    FitsAll lexis depth next [] := trivial

theorem fitsAll_cons {lexis : Lexis} {depth : Nat} {next : Option Char} {t : Token}
    {ts : List Token} : FitsAll lexis depth next (t :: ts) ↔
      t.Fits lexis depth ((spelling ts).head?.or next) ∧
        FitsAll lexis (t.depthAfter depth) next ts :=
  Iff.rfl

theorem fitsAll_append {lexis : Lexis} {depth : Nat} {next : Option Char} {ts us : List Token} :
    FitsAll lexis depth next (ts ++ us) ↔
      FitsAll lexis depth ((spelling us).head?.or next) ts ∧
        FitsAll lexis (finalDepth depth ts) next us := by
  induction ts generalizing depth with
  | nil => simp
  | cons t ts ih =>
    rw [List.cons_append, fitsAll_cons, fitsAll_cons, ih, spelling_append, List.head?_append,
      Option.or_assoc, finalDepth_cons, and_assoc]

/-- **Everything that is read fits.** -/
theorem fitsAll_tokens (lexis : Lexis) (depth : Nat) (s : Text) :
    FitsAll lexis depth none (tokens lexis depth s) := by
  fun_induction tokens lexis depth s with
  | case1 => trivial
  | case2 depth c rest step ih =>
    refine ⟨?_, ih⟩
    rw [spelling, text_tokens, Option.or_none]
    exact fits_nextToken lexis depth c rest

/-- **What fits is read as it is, whatever follows.** -/
theorem tokens_spelling_append {lexis : Lexis} {depth : Nat} {ts : List Token} {rest : Text}
    (h : FitsAll lexis depth rest.head? ts) :
    tokens lexis depth (spelling ts ++ rest) =
      ts ++ tokens lexis (finalDepth depth ts) rest := by
  induction ts generalizing depth with
  | nil => rfl
  | cons t ts ih =>
    obtain ⟨ht, hts⟩ := h
    rw [← List.head?_append] at ht
    obtain ⟨c, tail, htext, hread⟩ := nextToken_of_fits ht
    rw [spelling_cons, List.append_assoc, htext, tokens_cons, hread, List.cons_append,
      finalDepth_cons, ih hts]

theorem tokens_spelling {lexis : Lexis} {depth : Nat} {ts : List Token}
    (h : FitsAll lexis depth none ts) : tokens lexis depth (spelling ts) = ts := by
  have hread : tokens lexis depth (spelling ts ++ []) = ts ++ tokens lexis (finalDepth depth ts) [] :=
    tokens_spelling_append h
  rwa [List.append_nil, tokens_nil, List.append_nil] at hread

@[simp] theorem spelling_tokens (lexis : Lexis) (depth : Nat) (s : Text) :
    spelling (tokens lexis depth s) = s :=
  text_tokens lexis depth s

/-! ## Plain text -/

/-- The characters that have a part in the structure of a stylesheet. -/
def specialChars : List Char := ['"', '\'', '{', '}', ';', '/', '*', '#', '(', ')']

/-- A character that means nothing by itself, wherever it stands. -/
def isPlain (c : Char) : Bool := !specialChars.contains c

/-- A class of characters without special ones has only plain ones. -/
theorem isPlain_of_class {p : Char → Bool} (hp : specialChars.any p = false) {c : Char}
    (hc : p c = true) : isPlain c = true := by
  rw [isPlain, Bool.not_eq_true', ← Bool.not_eq_true, List.contains_iff_mem]
  intro hmem
  exact List.any_eq_false.1 hp c hmem hc

namespace Token

/-- A block comment or a plain character. -/
def Plain : Token → Prop
  | comment s => IsBlockComment s
  | glyph c => isPlain c = true
  | _ => False

theorem Plain.fits {t : Token} (h : t.Plain) (lexis : Lexis) (depth : Nat) (next : Option Char) :
    t.Fits lexis depth next := by
  cases t with
  | comment s => exact Or.inl h
  | glyph c =>
    have hne : ∀ d, isPlain d = false → c ≠ d := by
      rintro d hd rfl
      exact absurd (h.symm.trans hd) (by decide)
    refine ⟨hne _ (by decide), hne _ (by decide), ?_, fun hc => absurd hc (hne _ (by decide)),
      fun hc => absurd hc (hne _ (by decide))⟩
    rintro (hc | hc | hc) <;> exact absurd hc (hne _ (by decide))
  | quoted | interpolation | opening | closing | separator | unterminated => exact h.elim

/-- Only parentheses change the depth. -/
theorem depthAfter_of_ne {c : Char} (hopen : c ≠ '(') (hclose : c ≠ ')') (depth : Nat) :
    (glyph c).depthAfter depth = depth := by
  unfold depthAfter
  split
  · rename_i heq
    exact absurd (glyph.inj heq) hopen
  · rename_i heq
    exact absurd (glyph.inj heq) hclose
  · rfl

theorem Plain.depthAfter_eq {t : Token} (h : t.Plain) (depth : Nat) :
    t.depthAfter depth = depth := by
  cases t with
  | comment s => rfl
  | glyph c =>
    refine depthAfter_of_ne ?_ ?_ depth
    · rintro rfl
      exact absurd (show isPlain '(' = true from h) (by decide)
    · rintro rfl
      exact absurd (show isPlain ')' = true from h) (by decide)
  | quoted | interpolation | opening | closing | separator | unterminated => exact h.elim

end Token

/-- Plain tokens fit everywhere. -/
theorem fitsAll_of_plain {ts : List Token} (h : ∀ t ∈ ts, t.Plain) (lexis : Lexis) (depth : Nat)
    (next : Option Char) : FitsAll lexis depth next ts := by
  induction ts generalizing depth with
  | nil => trivial
  | cons t ts ih =>
    rw [List.forall_mem_cons] at h
    exact ⟨h.1.fits lexis depth _, ih h.2 _⟩

/-- Plain tokens open and close no parenthesis. -/
theorem finalDepth_of_plain {ts : List Token} (h : ∀ t ∈ ts, t.Plain) (depth : Nat) :
    finalDepth depth ts = depth := by
  induction ts with
  | nil => rfl
  | cons t ts ih =>
    rw [List.forall_mem_cons] at h
    rw [finalDepth_cons, h.1.depthAfter_eq, ih h.2]

/-- Plain tokens do not make a comment of a `/` before them. -/
theorem head?_spelling_ne_star {ts : List Token} (h : ∀ t ∈ ts, t.Plain) :
    (spelling ts).head? ≠ some '*' := by
  cases ts with
  | nil => simp
  | cons t ts =>
    have ht := h t List.mem_cons_self
    cases t with
    | comment s =>
      obtain ⟨body, rfl, -⟩ := ht
      exact fun hstar => absurd (Option.some.inj hstar) (by decide)
    | glyph c =>
      intro hstar
      obtain rfl : c = '*' := Option.some.inj hstar
      exact absurd (show isPlain '*' = true from ht) (by decide)
    | quoted | interpolation | opening | closing | separator | unterminated => exact ht.elim

theorem plain_of_mem_map_glyph {s : Text} (hs : ∀ c ∈ s, isPlain c = true) {t : Token}
    (ht : t ∈ s.map Token.glyph) : t.Plain := by
  obtain ⟨c, hc, rfl⟩ := List.mem_map.1 ht
  exact hs c hc

/-- Plain text is read character by character. -/
theorem tokens_append_of_plain {s : Text} (hs : ∀ c ∈ s, isPlain c = true) (lexis : Lexis)
    (depth : Nat) (rest : Text) :
    tokens lexis depth (s ++ rest) = s.map .glyph ++ tokens lexis depth rest := by
  have hplain : ∀ t ∈ s.map Token.glyph, t.Plain := fun _ => plain_of_mem_map_glyph hs
  have hread := tokens_spelling_append (fitsAll_of_plain hplain lexis depth rest.head?)
  rwa [spelling_map_glyph, finalDepth_of_plain hplain] at hread

end StyleLift.Stylesheet
