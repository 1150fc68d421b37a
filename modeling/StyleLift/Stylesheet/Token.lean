import StyleLift.Text.Basic

/-!
# Tokens of a stylesheet

A stylesheet is read as a sequence of tokens.  Comments, quoted strings and (where the dialect
has them) interpolations `#{…}` are opaque: nothing inside them separates statements.  Outside
parentheses `{`, `}` and `;` are structure; every other character is a token of its own.

Reading loses nothing: the texts of the tokens, in order, are the source (`text_tokens`).  A
comment, string or interpolation that never ends is the last token and says which of the three
it is, so whether a source is well formed is a question about its tokens.

The parenthesis depth never goes below zero, so an unmatched `)` is harmless, while an unmatched
`(` hides all later structure.
-/

namespace StyleLift

/-- The two languages of style files. -/
inductive Dialect where
  | css
  | scss
  deriving DecidableEq, Repr

namespace Stylesheet

/-- Which optional tokens a reading knows. -/
structure Lexis where
  /-- `//` starts a comment outside parentheses. -/
  lineComments : Bool
  /-- `#{…}` is one token. -/
  interpolations : Bool
  deriving DecidableEq, Repr

/-- The tokens that separate statements and blocks. -/
def Lexis.ofStatements : Dialect → Lexis
  | .css => ⟨false, false⟩
  | .scss => ⟨true, true⟩

/-- The tokens that matter for finding comments inside a statement; interpolations are plain
text there. -/
def Lexis.ofComments : Dialect → Lexis
  | .css => ⟨false, false⟩
  | .scss => ⟨true, false⟩

/-- What can be left open at the end of a source. -/
inductive Enclosure where
  | comment
  | string
  | interpolation
  deriving DecidableEq, Repr

/-- A lexical unit of a stylesheet. -/
inductive Token where
  /-- A whole comment with its delimiters; a line comment is without its newline. -/
  | comment (text : Text)
  /-- A string with its quotes. -/
  | quoted (text : Text)
  /-- An interpolation with its delimiters. -/
  | interpolation (text : Text)
  /-- `{` outside parentheses. -/
  | opening
  /-- `}` outside parentheses. -/
  | closing
  /-- `;` outside parentheses. -/
  | separator
  /-- Any other character. -/
  | glyph (c : Char)
  /-- The rest of a source whose last comment, string or interpolation never ends. -/
  | unterminated (what : Enclosure) (text : Text)
  deriving DecidableEq, Repr

namespace Token

/-- The part of the source that a token is. -/
def text : Token → Text
  | comment s => s
  | quoted s => s
  | interpolation s => s
  | opening => ['{']
  | closing => ['}']
  | separator => [';']
  | glyph c => [c]
  | unterminated _ s => s

@[simp] theorem text_comment (s : Text) : (comment s).text = s := rfl

@[simp] theorem text_quoted (s : Text) : (quoted s).text = s := rfl

@[simp] theorem text_interpolation (s : Text) : (interpolation s).text = s := rfl

@[simp] theorem text_glyph (c : Char) : (glyph c).text = [c] := rfl

@[simp] theorem text_unterminated (what : Enclosure) (s : Text) :
    (unterminated what s).text = s := rfl

/-- The parenthesis depth after a token. -/
def depthAfter (depth : Nat) : Token → Nat
  | glyph '(' => depth + 1
  | glyph ')' => depth - 1
  | _ => depth

/-- Comments, ended or not. -/
def isComment : Token → Bool
  | comment _ => true
  | unterminated .comment _ => true
  | _ => false

/-- What may stand before a statement without belonging to it: comments and blanks. -/
def isFiller : Token → Bool
  | comment _ => true
  | glyph c => Text.isBlank c
  | _ => false

end Token

/-! ## Reading one token -/

/-- The rest of a block comment up to and including `*/`, and what follows. -/
def closeComment? : Text → Option (Text × Text)
  | [] => none
  | '*' :: '/' :: rest => some (['*', '/'], rest)
  | c :: rest => (closeComment? rest).map fun (body, after) => (c :: body, after)

/-- The rest of a string up to and including the closing `quote`, and what follows.  A backslash
takes the next character with it. -/
def closeQuote? (quote : Char) : Text → Option (Text × Text)
  | [] => none
  | '\\' :: c :: rest =>
    (closeQuote? quote rest).map fun (body, after) => ('\\' :: c :: body, after)
  | c :: rest =>
    if c = quote then some ([c], rest)
    else (closeQuote? quote rest).map fun (body, after) => (c :: body, after)

/-- The rest of an interpolation in which `depth + 1` braces are open, up to and including the
brace that closes the first of them, and what follows. -/
def closeInterpolation? (depth : Nat) : Text → Option (Text × Text)
  | [] => none
  | '{' :: rest =>
    (closeInterpolation? (depth + 1) rest).map fun (body, after) => ('{' :: body, after)
  | '}' :: rest =>
    match depth with
    | 0 => some (['}'], rest)
    | outer + 1 => (closeInterpolation? outer rest).map fun (body, after) => ('}' :: body, after)
  | c :: rest => (closeInterpolation? depth rest).map fun (body, after) => (c :: body, after)

/-- A token that starts with `lead` and ends as `close` says, or does not end at all. -/
def enclosed (what : Enclosure) (token : Text → Token) (lead rest : Text)
    (close : Text → Option (Text × Text)) : Token × Text :=
  match close rest with
  | some (body, after) => (token (lead ++ body), after)
  | none => (.unterminated what (lead ++ rest), [])

/-- A character that is structure outside parentheses and plain inside them. -/
def structural (depth : Nat) (token : Token) (c : Char) : Token :=
  if depth = 0 then token else .glyph c

/-- The token that starts at `c`, which is followed by `rest`, and what is left after it. -/
def nextToken (lexis : Lexis) (depth : Nat) (c : Char) (rest : Text) : Token × Text :=
  match c, rest with
  | '/', '*' :: body => enclosed .comment .comment ['/', '*'] body closeComment?
  | '/', '/' :: _ =>
    if lexis.lineComments && depth == 0 then
      (.comment ('/' :: rest.takeWhile (· != '\n')), rest.dropWhile (· != '\n'))
    else (.glyph '/', rest)
  | '"', _ => enclosed .string .quoted ['"'] rest (closeQuote? '"')
  | '\'', _ => enclosed .string .quoted ['\''] rest (closeQuote? '\'')
  | '#', '{' :: body =>
    if lexis.interpolations then
      enclosed .interpolation .interpolation ['#', '{'] body (closeInterpolation? 0)
    else (.glyph '#', rest)
  | '{', _ => (structural depth .opening '{', rest)
  | '}', _ => (structural depth .closing '}', rest)
  | ';', _ => (structural depth .separator ';', rest)
  | c, _ => (.glyph c, rest)

/-! ## What a token and its rest have in common with the text -/

theorem append_of_closeComment? {s body rest : Text} (h : closeComment? s = some (body, rest)) :
    body ++ rest = s := by
  fun_induction closeComment? s generalizing body rest with
  | case1 => simp at h
  | case2 =>
    simp only [Option.some.injEq, Prod.mk.injEq] at h
    obtain ⟨rfl, rfl⟩ := h
    rfl
  | case3 c s _ ih =>
    obtain ⟨⟨b, r⟩, hb, he⟩ := Option.map_eq_some_iff.1 h
    simp only [Prod.mk.injEq] at he
    obtain ⟨rfl, rfl⟩ := he
    simp [ih hb]

theorem append_of_closeQuote? {quote : Char} {s body rest : Text}
    (h : closeQuote? quote s = some (body, rest)) : body ++ rest = s := by
  fun_induction closeQuote? quote s generalizing body rest with
  | case1 => simp at h
  | case2 c s ih =>
    obtain ⟨⟨b, r⟩, hb, he⟩ := Option.map_eq_some_iff.1 h
    simp only [Prod.mk.injEq] at he
    obtain ⟨rfl, rfl⟩ := he
    simp [ih hb]
  | case3 =>
    simp only [Option.some.injEq, Prod.mk.injEq] at h
    obtain ⟨rfl, rfl⟩ := h
    simp_all
  | case4 c s _ _ ih =>
    obtain ⟨⟨b, r⟩, hb, he⟩ := Option.map_eq_some_iff.1 h
    simp only [Prod.mk.injEq] at he
    obtain ⟨rfl, rfl⟩ := he
    simp [ih hb]

theorem append_of_closeInterpolation? {depth : Nat} {s body rest : Text}
    (h : closeInterpolation? depth s = some (body, rest)) : body ++ rest = s := by
  fun_induction closeInterpolation? depth s generalizing body rest with
  | case1 => simp at h
  | case3 =>
    simp only [Option.some.injEq, Prod.mk.injEq] at h
    obtain ⟨rfl, rfl⟩ := h
    rfl
  | case2 depth s ih | case4 s outer ih | case5 depth c s _ _ ih =>
    obtain ⟨⟨b, r⟩, hb, he⟩ := Option.map_eq_some_iff.1 h
    simp only [Prod.mk.injEq] at he
    obtain ⟨rfl, rfl⟩ := he
    simp [ih hb]

theorem text_enclosed {what : Enclosure} {token : Text → Token} {lead rest : Text}
    {close : Text → Option (Text × Text)} (htoken : ∀ s, (token s).text = s)
    (hclose : ∀ body after, close rest = some (body, after) → body ++ after = rest) :
    (enclosed what token lead rest close).1.text ++ (enclosed what token lead rest close).2 =
      lead ++ rest := by
  unfold enclosed
  split
  · rename_i body after h
    simp [htoken, hclose body after h]
  · simp

theorem text_structural {token : Token} {c : Char} (h : token.text = [c]) (depth : Nat) :
    (structural depth token c).text = [c] := by
  unfold structural
  split
  · exact h
  · rfl

/-- A token and the rest make up the text. -/
theorem text_nextToken (lexis : Lexis) (depth : Nat) (c : Char) (rest : Text) :
    (nextToken lexis depth c rest).1.text ++ (nextToken lexis depth c rest).2 = c :: rest := by
  unfold nextToken
  split
  · exact text_enclosed (fun _ => rfl) fun _ _ => append_of_closeComment?
  · split <;> simp
  · exact text_enclosed (fun _ => rfl) fun _ _ => append_of_closeQuote?
  · exact text_enclosed (fun _ => rfl) fun _ _ => append_of_closeQuote?
  · split
    · exact text_enclosed (fun _ => rfl) fun _ _ => append_of_closeInterpolation?
    · rfl
  · rw [text_structural rfl, List.singleton_append]
  · rw [text_structural rfl, List.singleton_append]
  · rw [text_structural rfl, List.singleton_append]
  · rfl

theorem enclosed_text_ne_nil {what : Enclosure} {token : Text → Token} {c : Char}
    {lead rest : Text} {close : Text → Option (Text × Text)} (htoken : ∀ s, (token s).text = s) :
    (enclosed what token (c :: lead) rest close).1.text ≠ [] := by
  unfold enclosed
  split
  · simp [htoken]
  · simp

/-- No token is empty. -/
theorem text_nextToken_ne_nil (lexis : Lexis) (depth : Nat) (c : Char) (rest : Text) :
    (nextToken lexis depth c rest).1.text ≠ [] := by
  unfold nextToken
  split
  · exact enclosed_text_ne_nil fun _ => rfl
  · split <;> simp
  · exact enclosed_text_ne_nil fun _ => rfl
  · exact enclosed_text_ne_nil fun _ => rfl
  · split
    · exact enclosed_text_ne_nil fun _ => rfl
    · simp
  · rw [text_structural rfl]
    exact List.cons_ne_nil _ _
  · rw [text_structural rfl]
    exact List.cons_ne_nil _ _
  · rw [text_structural rfl]
    exact List.cons_ne_nil _ _
  · exact List.cons_ne_nil _ _

/-- Reading a token uses up at least one character. -/
theorem length_nextToken_lt (lexis : Lexis) (depth : Nat) (c : Char) (rest : Text) :
    (nextToken lexis depth c rest).2.length < (c :: rest).length := by
  have whole := congrArg List.length (text_nextToken lexis depth c rest)
  have some := List.length_pos_iff.2 (text_nextToken_ne_nil lexis depth c rest)
  rw [List.length_append] at whole
  omega

/-! ## Reading all tokens -/

/-- The tokens of a text that is read at parenthesis depth `depth`. -/
def tokens (lexis : Lexis) (depth : Nat) : Text → List Token
  | [] => []
  | c :: rest =>
    let step := nextToken lexis depth c rest
    step.1 :: tokens lexis (step.1.depthAfter depth) step.2
termination_by s => s.length
decreasing_by exact length_nextToken_lt lexis depth c rest

@[simp] theorem tokens_nil (lexis : Lexis) (depth : Nat) : tokens lexis depth [] = [] := by
  rw [tokens]

theorem tokens_cons (lexis : Lexis) (depth : Nat) (c : Char) (rest : Text) :
    tokens lexis depth (c :: rest) =
      (nextToken lexis depth c rest).1 ::
        tokens lexis ((nextToken lexis depth c rest).1.depthAfter depth)
          (nextToken lexis depth c rest).2 := by
  rw [tokens]

/-- **Reading loses nothing.**  The tokens of a text, put together again, are the text. -/
theorem text_tokens (lexis : Lexis) (depth : Nat) (s : Text) :
    (tokens lexis depth s).flatMap Token.text = s := by
  fun_induction tokens lexis depth s with
  | case1 => rfl
  | case2 depth c rest step ih =>
    rw [List.flatMap_cons, ih]
    exact text_nextToken lexis depth c rest

end Stylesheet

end StyleLift
