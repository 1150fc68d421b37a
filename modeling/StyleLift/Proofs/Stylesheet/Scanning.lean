import Mathlib.Data.List.Basic
import StyleLift.Proofs.Stylesheet.Lexing

/-!
# How a stylesheet is read from left to right

The reader looks for the end of a comment, a string or an interpolation with three recursive
functions and calls a token unterminated when it finds none.  This file says what is read without
any of them.  A block comment goes up to the first `*/`, a string up to the first quote of its
kind that no backslash escapes, and an interpolation up to the brace at which as many braces are
closed as are open; outside these, a parenthesis changes the depth, and at depth zero `{`, `}` and
`;` are structure.  There is no rule for a comment, string or interpolation without an end, so a
source that has one is not read at all.

* `Closes`: opening and closing marks of a list, with marks left open before it.
* `closeComment?_self_iff`, `closeQuote?_self_iff`, `closeInterpolation?_self_iff`: where the
  three functions find an end.
* `Reads`: the rules, one for each kind of token.
* `reads_iff`: **the reader follows the rules**, and a source that the rules do not cover has an
  unterminated token.
-/

namespace StyleLift.Stylesheet

/-! ## Opening and closing marks -/

section

variable {α : Type} [DecidableEq α]

/-- Every mark that the list closes has been opened, in it or as one of `n` marks before it, and
in the end nothing is open. -/
structure Closes (opening closing : α) (n : Nat) (l : List α) : Prop where
  bound : ∀ front, front <+: l → front.count closing ≤ front.count opening + n
  total : l.count closing = l.count opening + n

variable {opening closing : α} {n : Nat} {l : List α}

theorem closes_nil : Closes opening closing n [] ↔ n = 0 := by
  constructor
  · intro h
    have htotal := h.total
    simp only [List.count_nil] at htotal
    omega
  · rintro rfl
    refine ⟨?_, rfl⟩
    intro front hfront
    rw [List.prefix_nil.1 hfront]
    exact Nat.le_refl _

/-- One element more in front: what it opens or closes is counted to the marks before the rest. -/
theorem closes_cons {x : α} : Closes opening closing n (x :: l) ↔
    (∀ front, front <+: l →
      (x :: front).count closing ≤ (x :: front).count opening + n) ∧
    (x :: l).count closing = (x :: l).count opening + n := by
  constructor
  · intro h
    exact ⟨fun front hfront => h.bound _ (List.prefix_cons_inj x |>.2 hfront), h.total⟩
  · rintro ⟨hbound, htotal⟩
    refine ⟨?_, htotal⟩
    intro front hfront
    rcases List.prefix_cons_iff.1 hfront with rfl | ⟨rest, rfl, hrest⟩
    · simp
    · exact hbound rest hrest

theorem closes_cons_of_ne {x : α} (hopening : x ≠ opening) (hclosing : x ≠ closing) :
    Closes opening closing n (x :: l) ↔ Closes opening closing n l := by
  rw [closes_cons]
  simp only [List.count_cons_of_ne hopening, List.count_cons_of_ne hclosing]
  exact ⟨fun h => ⟨h.1, h.2⟩, fun h => ⟨h.bound, h.total⟩⟩

theorem closes_cons_opening (hne : opening ≠ closing) :
    Closes opening closing n (opening :: l) ↔ Closes opening closing (n + 1) l := by
  rw [closes_cons]
  simp only [List.count_cons_self, List.count_cons_of_ne hne]
  constructor
  · rintro ⟨hbound, htotal⟩
    refine ⟨?_, by omega⟩
    intro front hfront
    have h := hbound front hfront
    omega
  · intro h
    refine ⟨?_, by have htotal := h.total; omega⟩
    intro front hfront
    have hbound := h.bound front hfront
    omega

theorem closes_cons_closing (hne : opening ≠ closing) :
    Closes opening closing n (closing :: l) ↔ ∃ m, n = m + 1 ∧ Closes opening closing m l := by
  rw [closes_cons]
  simp only [List.count_cons_self, List.count_cons_of_ne hne.symm]
  constructor
  · rintro ⟨hbound, htotal⟩
    have hfirst := hbound [] (List.nil_prefix)
    simp only [List.count_nil] at hfirst
    refine ⟨n - 1, by omega, ?_, by omega⟩
    intro front hfront
    have h := hbound front hfront
    omega
  · rintro ⟨m, rfl, h⟩
    refine ⟨?_, by have htotal := h.total; omega⟩
    intro front hfront
    have hbound := h.bound front hfront
    omega

/-- A list that closes just what it opens does not matter. -/
theorem Closes.append_iff {front : List α} (hfront : Closes opening closing 0 front) :
    Closes opening closing n (front ++ l) ↔ Closes opening closing n l := by
  have htotal := hfront.total
  constructor
  · intro h
    refine ⟨?_, ?_⟩
    · intro part hpart
      have hbound := h.bound (front ++ part) ((List.prefix_append_right_inj front).2 hpart)
      simp only [List.count_append] at hbound
      omega
    · have hwhole := h.total
      simp only [List.count_append] at hwhole
      omega
  · intro h
    refine ⟨?_, ?_⟩
    · rintro part ⟨rest, hrest⟩
      rcases List.append_eq_append_iff.1 hrest with ⟨mid, hmid, -⟩ | ⟨mid, hmid, hl⟩
      · have hbound := hfront.bound part ⟨mid, hmid.symm⟩
        omega
      · have hbound := h.bound mid ⟨rest, hl.symm⟩
        rw [hmid, List.count_append, List.count_append]
        omega
    · have hwhole := h.total
      simp only [List.count_append]
      omega

/-- Nothing is opened or closed without a mark. -/
theorem closes_of_ne (hl : ∀ x ∈ l, x ≠ opening ∧ x ≠ closing) : Closes opening closing 0 l := by
  induction l with
  | nil => exact closes_nil.2 rfl
  | cons x l ih =>
    rw [List.forall_mem_cons] at hl
    exact (closes_cons_of_ne hl.1.1 hl.1.2).2 (ih hl.2)

end

/-! ## Where an end is found -/

/-- The first end of a comment is the first `*/`. -/
theorem closeComment?_self_iff {body : Text} : closeComment? body = some (body, []) ↔
    ∃ inner, body = inner ++ ['*', '/'] ∧ ¬ ['*', '/'] <:+: inner ++ ['*'] := by
  constructor
  · intro h
    fun_induction closeComment? body with
    | case1 => simp at h
    | case2 rest =>
      simp only [Option.some.injEq, Prod.mk.injEq, List.cons.injEq, true_and] at h
      obtain ⟨rfl, -⟩ := h
      exact ⟨[], rfl, by decide⟩
    | case3 c s hstar ih =>
      obtain ⟨tail, heq, htail⟩ := exists_of_map_cons_eq_some h
      obtain rfl := (List.cons.inj heq).2
      obtain ⟨inner, rfl, hinner⟩ := ih htail
      refine ⟨c :: inner, rfl, ?_⟩
      rw [List.cons_append, List.infix_cons_iff, not_or]
      refine ⟨?_, hinner⟩
      rintro ⟨rest, hrest⟩
      obtain ⟨rfl, hslash⟩ := List.cons.inj hrest
      cases inner with
      | nil => exact absurd (List.cons.inj hslash).1 (by decide)
      | cons d inner =>
        obtain ⟨rfl, -⟩ := List.cons.inj hslash
        exact hstar _ rfl rfl
  · rintro ⟨inner, rfl, hinner⟩
    induction inner with
    | nil => rfl
    | cons c inner ih =>
      rw [List.cons_append, List.infix_cons_iff, not_or] at hinner
      rw [List.cons_append, closeComment?_cons, ih hinner.2]
      · rfl
      · rintro ⟨rfl, t, ht⟩
        cases inner with
        | nil => exact absurd (List.cons.inj ht).1 (by decide)
        | cons d inner =>
          obtain ⟨rfl, -⟩ := List.cons.inj ht
          exact hinner.1 ⟨inner ++ ['*'], rfl⟩

/-- What can stand between two quotes: a backslash takes the next character with it, and no quote
stands by itself. -/
inductive InString (quote : Char) : Text → Prop
  | nil : InString quote []
  | escape {c : Char} {s : Text} (h : InString quote s) : InString quote ('\\' :: c :: s)
  | char {c : Char} {s : Text} (hback : c ≠ '\\') (hquote : c ≠ quote) (h : InString quote s) :
    InString quote (c :: s)

/-- The first end of a string is the first quote that is not escaped. -/
theorem closeQuote?_self_iff {quote : Char} (hquote : quote ≠ '\\') {body : Text} :
    closeQuote? quote body = some (body, []) ↔
      ∃ inner, body = inner ++ [quote] ∧ InString quote inner := by
  constructor
  · intro h
    fun_induction closeQuote? quote body with
    | case1 => simp at h
    | case2 c s ih =>
      obtain ⟨⟨tail, rest⟩, htail, heq⟩ := Option.map_eq_some_iff.1 h
      simp only [Prod.mk.injEq, List.cons.injEq, true_and] at heq
      obtain ⟨rfl, rfl⟩ := heq
      obtain ⟨inner, rfl, hinner⟩ := ih htail
      exact ⟨'\\' :: c :: inner, rfl, .escape hinner⟩
    | case3 s =>
      simp only [Option.some.injEq, Prod.mk.injEq, List.cons.injEq, true_and] at h
      obtain ⟨-, rfl⟩ := h
      exact ⟨[], rfl, .nil⟩
    | case4 c s hback hne ih =>
      obtain ⟨tail, heq, htail⟩ := exists_of_map_cons_eq_some h
      obtain rfl := (List.cons.inj heq).2
      obtain ⟨inner, rfl, hinner⟩ := ih htail
      refine ⟨c :: inner, rfl, .char ?_ hne hinner⟩
      -- a backslash has something behind it here, so it would have been an escape
      rintro rfl
      cases inner with
      | nil => exact hback quote [] rfl rfl
      | cons d inner => exact hback d (inner ++ [quote]) rfl rfl
  · rintro ⟨inner, rfl, hinner⟩
    induction hinner with
    | nil => rw [List.nil_append, closeQuote?_cons fun h => absurd h hquote, if_pos rfl]
    | escape h ih =>
      rw [List.cons_append, List.cons_append, closeQuote?, ih]
      rfl
    | char hback hne h ih =>
      rw [List.cons_append, closeQuote?_cons fun h => absurd h hback, if_neg hne, ih]
      rfl

/-- The end of an interpolation is the brace at which all braces are closed. -/
theorem closeInterpolation?_self_iff {depth : Nat} {body : Text} :
    closeInterpolation? depth body = some (body, []) ↔
      ∃ inner, body = inner ++ ['}'] ∧ Closes '{' '}' depth inner := by
  have hne : '{' ≠ '}' := by decide
  constructor
  · intro h
    fun_induction closeInterpolation? depth body with
    | case1 => simp at h
    | case2 depth s ih =>
      obtain ⟨tail, heq, htail⟩ := exists_of_map_cons_eq_some h
      obtain rfl := (List.cons.inj heq).2
      obtain ⟨inner, rfl, hinner⟩ := ih htail
      exact ⟨'{' :: inner, rfl, (closes_cons_opening hne).2 hinner⟩
    | case3 s =>
      simp only [Option.some.injEq, Prod.mk.injEq, List.cons.injEq, true_and] at h
      obtain ⟨-, rfl⟩ := h
      exact ⟨[], rfl, closes_nil.2 rfl⟩
    | case4 s outer ih =>
      obtain ⟨tail, heq, htail⟩ := exists_of_map_cons_eq_some h
      obtain rfl := (List.cons.inj heq).2
      obtain ⟨inner, rfl, hinner⟩ := ih htail
      exact ⟨'}' :: inner, rfl, (closes_cons_closing hne).2 ⟨outer, rfl, hinner⟩⟩
    | case5 depth c s hopening hclosing ih =>
      obtain ⟨tail, heq, htail⟩ := exists_of_map_cons_eq_some h
      obtain rfl := (List.cons.inj heq).2
      obtain ⟨inner, rfl, hinner⟩ := ih htail
      exact ⟨c :: inner, rfl, (closes_cons_of_ne hopening hclosing).2 hinner⟩
  · rintro ⟨inner, rfl, hinner⟩
    induction inner generalizing depth with
    | nil =>
      obtain rfl := closes_nil.1 hinner
      rfl
    | cons c inner ih =>
      rw [List.cons_append]
      by_cases hopening : c = '{'
      · subst hopening
        rw [closeInterpolation?, ih ((closes_cons_opening hne).1 hinner)]
        rfl
      by_cases hclosing : c = '}'
      · subst hclosing
        obtain ⟨outer, rfl, hrest⟩ := (closes_cons_closing hne).1 hinner
        rw [closeInterpolation?, ih hrest]
        rfl
      · rw [closeInterpolation?, ih ((closes_cons_of_ne hopening hclosing).1 hinner)]
        · rfl
        · exact hopening
        · exact hclosing

/-! ## The rules -/

/-- The text, read from left to right at parenthesis depth `depth`, is the list of tokens. -/
inductive Reads (dialect : Dialect) : Nat → Text → List Token → Prop
  | finish {depth : Nat} : Reads dialect depth [] []
  | blockComment {depth : Nat} {inner rest : Text} {ts : List Token}
    (hinner : ¬ ['*', '/'] <:+: inner ++ ['*']) (h : Reads dialect depth rest ts) :
    Reads dialect depth ('/' :: '*' :: inner ++ ['*', '/'] ++ rest)
      (.comment ('/' :: '*' :: inner ++ ['*', '/']) :: ts)
  | lineComment {line rest : Text} {ts : List Token} (hdialect : dialect = .scss)
    (hline : '\n' ∉ line) (hrest : ∀ c, rest.head? = some c → c = '\n')
    (h : Reads dialect 0 rest ts) :
    Reads dialect 0 ('/' :: '/' :: line ++ rest) (.comment ('/' :: '/' :: line) :: ts)
  | string {depth : Nat} {quote : Char} {inner rest : Text} {ts : List Token}
    (hquote : quote = '"' ∨ quote = '\'') (hinner : InString quote inner)
    (h : Reads dialect depth rest ts) :
    Reads dialect depth (quote :: inner ++ [quote] ++ rest)
      (.quoted (quote :: inner ++ [quote]) :: ts)
  | interpolation {depth : Nat} {inner rest : Text} {ts : List Token}
    (hdialect : dialect = .scss) (hinner : Closes '{' '}' 0 inner)
    (h : Reads dialect depth rest ts) :
    Reads dialect depth ('#' :: '{' :: inner ++ ['}'] ++ rest)
      (.interpolation ('#' :: '{' :: inner ++ ['}']) :: ts)
  | opening {rest : Text} {ts : List Token} (h : Reads dialect 0 rest ts) :
    Reads dialect 0 ('{' :: rest) (.opening :: ts)
  | closing {rest : Text} {ts : List Token} (h : Reads dialect 0 rest ts) :
    Reads dialect 0 ('}' :: rest) (.closing :: ts)
  | separator {rest : Text} {ts : List Token} (h : Reads dialect 0 rest ts) :
    Reads dialect 0 (';' :: rest) (.separator :: ts)
  | deeper {depth : Nat} {rest : Text} {ts : List Token}
    (h : Reads dialect (depth + 1) rest ts) : Reads dialect depth ('(' :: rest) (.glyph '(' :: ts)
  /-- The depth does not go below zero. -/
  | shallower {depth : Nat} {rest : Text} {ts : List Token}
    (h : Reads dialect (depth - 1) rest ts) : Reads dialect depth (')' :: rest) (.glyph ')' :: ts)
  /-- Any character at which no other rule applies. -/
  | glyph {depth : Nat} {c : Char} {rest : Text} {ts : List Token}
    (hc : c ≠ '"' ∧ c ≠ '\'' ∧ c ≠ '(' ∧ c ≠ ')')
    (hstructure : c = '{' ∨ c = '}' ∨ c = ';' → depth ≠ 0)
    (hcomment : c = '/' → rest.head? ≠ some '*' ∧
      (dialect = .scss → depth = 0 → rest.head? ≠ some '/'))
    (hinterpolation : c = '#' → dialect = .scss → rest.head? ≠ some '{')
    (h : Reads dialect depth rest ts) : Reads dialect depth (c :: rest) (.glyph c :: ts)

/-! ## The reader follows the rules -/

/-- Not the rest of a source whose last comment, string or interpolation never ends. -/
def Token.isTerminated : Token → Bool
  | .unterminated _ _ => false
  | _ => true

theorem lineComments_ofStatements {dialect : Dialect} :
    (Lexis.ofStatements dialect).lineComments = true ↔ dialect = .scss := by
  cases dialect <;> simp [Lexis.ofStatements]

theorem interpolations_ofStatements {dialect : Dialect} :
    (Lexis.ofStatements dialect).interpolations = true ↔ dialect = .scss := by
  cases dialect <;> simp [Lexis.ofStatements]

theorem lineComments_ofComments {dialect : Dialect} :
    (Lexis.ofComments dialect).lineComments = true ↔ dialect = .scss := by
  cases dialect <;> simp [Lexis.ofComments]

theorem interpolations_ofComments (dialect : Dialect) :
    (Lexis.ofComments dialect).interpolations = false := by
  cases dialect <;> rfl

/-- A block comment, by its inside. -/
theorem isBlockComment_iff {s : Text} : IsBlockComment s ↔
    ∃ inner, s = '/' :: '*' :: inner ++ ['*', '/'] ∧ ¬ ['*', '/'] <:+: inner ++ ['*'] := by
  constructor
  · rintro ⟨body, rfl, hbody⟩
    obtain ⟨inner, rfl, hinner⟩ := closeComment?_self_iff.1 hbody
    exact ⟨inner, rfl, hinner⟩
  · rintro ⟨inner, rfl, hinner⟩
    exact ⟨inner ++ ['*', '/'], rfl, closeComment?_self_iff.2 ⟨inner, rfl, hinner⟩⟩

theorem infix_of_infix_concat {α : Type} {a b c : α} {l : List α} (hc : c ≠ b)
    (h : [a, b] <:+: l ++ [c]) : [a, b] <:+: l := by
  rcases List.infix_concat_iff.1 h with ⟨front, hfront⟩ | h
  · rw [List.append_cons] at hfront
    exact absurd (List.cons.inj (List.append_inj_right' hfront rfl)).1.symm hc
  · exact h

/-- What holds no `*/` can be the inside of a block comment. -/
theorem isBlockComment_of_inner {inner : Text} (hinner : ¬ ['*', '/'] <:+: inner) :
    IsBlockComment ('/' :: '*' :: inner ++ ['*', '/']) :=
  isBlockComment_iff.2 ⟨inner, rfl, fun h => hinner (infix_of_infix_concat (by decide) h)⟩

/-- The same with a blank on both sides. -/
theorem isBlockComment_spaced {inner : Text} (hinner : ¬ ['*', '/'] <:+: inner) :
    IsBlockComment ("/* ".toList ++ inner ++ " */".toList) := by
  have hspaced : ¬ ['*', '/'] <:+: ' ' :: inner ++ [' '] := by
    intro h
    rcases List.infix_cons_iff.1 (infix_of_infix_concat (by decide) h) with hfirst | hrest
    · exact absurd (List.cons_prefix_cons.1 hfirst).1 (by decide)
    · exact hinner hrest
  have htext : "/* ".toList ++ inner ++ " */".toList =
      '/' :: '*' :: (' ' :: inner ++ [' ']) ++ ['*', '/'] := by simp
  rw [htext]
  exact isBlockComment_of_inner hspaced

/-- A string, by its inside. -/
theorem isString_iff {s : Text} : IsString s ↔ ∃ quote inner,
    (quote = '"' ∨ quote = '\'') ∧ s = quote :: inner ++ [quote] ∧ InString quote inner := by
  constructor
  · rintro (⟨body, rfl, hbody⟩ | ⟨body, rfl, hbody⟩)
    · obtain ⟨inner, rfl, hinner⟩ := (closeQuote?_self_iff (by decide)).1 hbody
      exact ⟨'"', inner, Or.inl rfl, rfl, hinner⟩
    · obtain ⟨inner, rfl, hinner⟩ := (closeQuote?_self_iff (by decide)).1 hbody
      exact ⟨'\'', inner, Or.inr rfl, rfl, hinner⟩
  · rintro ⟨quote, inner, rfl | rfl, rfl, hinner⟩
    · exact Or.inl ⟨_, rfl, (closeQuote?_self_iff (by decide)).2 ⟨inner, rfl, hinner⟩⟩
    · exact Or.inr ⟨_, rfl, (closeQuote?_self_iff (by decide)).2 ⟨inner, rfl, hinner⟩⟩

theorem Token.Fits.of_next {t : Token} {depth : Nat} {next next' : Option Char}
    (h : t.Fits (.ofStatements .css) depth next) (ht : t.isTerminated = true)
    (hnext : next' ≠ some '*') : t.Fits (.ofStatements .css) depth next' := by
  cases t with
  | comment s =>
    rcases h with hblock | ⟨hline, -⟩
    · exact Or.inl hblock
    · exact absurd hline Bool.false_ne_true
  | glyph c =>
    obtain ⟨hdouble, hsingle, hstructure, -, -⟩ := h
    exact ⟨hdouble, hsingle, hstructure,
      fun _ => ⟨hnext, fun hline => absurd hline Bool.false_ne_true⟩,
      fun _ hinterpolation => absurd hinterpolation Bool.false_ne_true⟩
  | quoted | interpolation | opening | closing | separator => exact h
  | unterminated => exact absurd ht Bool.false_ne_true

/-- In a plain stylesheet, what follows the tokens matters only for `/*`. -/
theorem FitsAll.of_next {ts : List Token} {depth : Nat} {next next' : Option Char}
    (h : FitsAll (.ofStatements .css) depth next ts) (hts : ∀ t ∈ ts, t.isTerminated = true)
    (hnext : next' ≠ some '*') : FitsAll (.ofStatements .css) depth next' ts := by
  induction ts generalizing depth with
  | nil => trivial
  | cons t ts ih =>
    rw [List.forall_mem_cons] at hts
    refine ⟨?_, ih h.2 hts.2⟩
    have ht := h.1
    cases hs : spelling ts with
    | nil => exact ht.of_next hts.1 hnext
    | cons c s => rwa [hs] at ht

/-- What the rules read fits, rule by rule. -/
theorem Reads.fitsAll {dialect : Dialect} {depth : Nat} {s : Text} {ts : List Token}
    (h : Reads dialect depth s ts) :
    spelling ts = s ∧ FitsAll (.ofStatements dialect) depth none ts ∧
      ∀ t ∈ ts, t.isTerminated = true := by
  induction h with
  | finish => exact ⟨rfl, trivial, by simp⟩
  | blockComment hinner h ih =>
    obtain ⟨rfl, hfits, hall⟩ := ih
    exact ⟨rfl, ⟨Or.inl (isBlockComment_iff.2 ⟨_, rfl, hinner⟩), hfits⟩,
      List.forall_mem_cons.2 ⟨rfl, hall⟩⟩
  | lineComment hdialect hline hrest h ih =>
    obtain ⟨rfl, hfits, hall⟩ := ih
    refine ⟨rfl, ⟨Or.inr ⟨lineComments_ofStatements.2 hdialect, rfl, ⟨_, rfl, hline⟩, ?_⟩, hfits⟩,
      List.forall_mem_cons.2 ⟨rfl, hall⟩⟩
    rw [Option.or_none]
    exact hrest
  | string hquote hinner h ih =>
    obtain ⟨rfl, hfits, hall⟩ := ih
    exact ⟨rfl, ⟨isString_iff.2 ⟨_, _, hquote, rfl, hinner⟩, hfits⟩,
      List.forall_mem_cons.2 ⟨rfl, hall⟩⟩
  | interpolation hdialect hinner h ih =>
    obtain ⟨rfl, hfits, hall⟩ := ih
    exact ⟨rfl, ⟨⟨interpolations_ofStatements.2 hdialect, _, rfl,
      closeInterpolation?_self_iff.2 ⟨_, rfl, hinner⟩⟩, hfits⟩, List.forall_mem_cons.2 ⟨rfl, hall⟩⟩
  | opening h ih | closing h ih | separator h ih =>
    obtain ⟨rfl, hfits, hall⟩ := ih
    exact ⟨rfl, ⟨rfl, hfits⟩, List.forall_mem_cons.2 ⟨rfl, hall⟩⟩
  | deeper h ih | shallower h ih =>
    obtain ⟨rfl, hfits, hall⟩ := ih
    refine ⟨rfl, ⟨⟨by decide, by decide, ?_, ?_, ?_⟩, hfits⟩, List.forall_mem_cons.2 ⟨rfl, hall⟩⟩
    · rintro (h | h | h) <;> exact absurd h (by decide)
    · intro h
      exact absurd h (by decide)
    · intro h
      exact absurd h (by decide)
  | glyph hc hstructure hcomment hinterpolation h ih =>
    obtain ⟨rfl, hfits, hall⟩ := ih
    obtain ⟨hdouble, hsingle, hopen, hclose⟩ := hc
    refine ⟨rfl, ⟨⟨hdouble, hsingle, hstructure, ?_, ?_⟩, ?_⟩, List.forall_mem_cons.2 ⟨rfl, hall⟩⟩
    · rw [lineComments_ofStatements, Option.or_none]
      exact hcomment
    · rw [interpolations_ofStatements, Option.or_none]
      exact hinterpolation
    · rw [Token.depthAfter_of_ne hopen hclose]
      exact hfits

/-- What fits is read by the rules, token by token. -/
theorem reads_of_fitsAll {dialect : Dialect} {depth : Nat} {ts : List Token}
    (hfits : FitsAll (.ofStatements dialect) depth none ts)
    (hts : ∀ t ∈ ts, t.isTerminated = true) : Reads dialect depth (spelling ts) ts := by
  induction ts generalizing depth with
  | nil => exact .finish
  | cons t ts ih =>
    obtain ⟨ht, hrest⟩ := hfits
    rw [List.forall_mem_cons] at hts
    have h := ih hrest hts.2
    rw [Option.or_none] at ht
    cases t with
    | comment s =>
      rcases ht with hblock | ⟨hline, rfl, ⟨line, rfl, hnewline⟩, hnext⟩
      · obtain ⟨inner, rfl, hinner⟩ := isBlockComment_iff.1 hblock
        exact .blockComment hinner h
      · exact .lineComment (lineComments_ofStatements.1 hline) hnewline hnext h
    | quoted s =>
      obtain ⟨quote, inner, hquote, rfl, hinner⟩ := isString_iff.1 ht
      exact .string hquote hinner h
    | interpolation s =>
      obtain ⟨hlexis, body, rfl, hbody⟩ := ht
      obtain ⟨inner, rfl, hinner⟩ := closeInterpolation?_self_iff.1 hbody
      exact .interpolation (interpolations_ofStatements.1 hlexis) hinner h
    | opening =>
      obtain rfl : depth = 0 := ht
      exact .opening h
    | closing =>
      obtain rfl : depth = 0 := ht
      exact .closing h
    | separator =>
      obtain rfl : depth = 0 := ht
      exact .separator h
    | glyph c =>
      obtain ⟨hdouble, hsingle, hstructure, hcomment, hinterpolation⟩ := ht
      rw [lineComments_ofStatements] at hcomment
      rw [interpolations_ofStatements] at hinterpolation
      by_cases hopen : c = '('
      · subst hopen
        exact .deeper h
      by_cases hclose : c = ')'
      · subst hclose
        exact .shallower h
      · rw [Token.depthAfter_of_ne hopen hclose] at h
        exact .glyph ⟨hdouble, hsingle, hopen, hclose⟩ hstructure hcomment hinterpolation h
    | unterminated => exact absurd hts.1 Bool.false_ne_true

/-- **The reader follows the rules**, and where no rule applies it finds something that never
ends. -/
theorem reads_iff {dialect : Dialect} {depth : Nat} {s : Text} {ts : List Token} :
    Reads dialect depth s ts ↔
      tokens (.ofStatements dialect) depth s = ts ∧ ∀ t ∈ ts, t.isTerminated = true := by
  constructor
  · intro h
    obtain ⟨rfl, hfits, hts⟩ := h.fitsAll
    exact ⟨tokens_spelling hfits, hts⟩
  · rintro ⟨rfl, hts⟩
    have h := reads_of_fitsAll (fitsAll_tokens (.ofStatements dialect) depth s) hts
    rwa [spelling_tokens] at h

end StyleLift.Stylesheet
