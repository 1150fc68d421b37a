import StyleLift.Proofs.Stylesheet.Placement
import StyleLift.Proofs.Text.Marks

/-!
# Removing comments byte by byte

Comments are taken out of tokens, and tokens are made of characters.  The same can be done in one
pass over the bytes of the text that knows nothing of characters: it looks for a handful of ASCII
marks, keeps in mind which string is open and how many parentheses, and copies every byte that
belongs to no comment.  In a string a backslash takes the next *byte* with it, which may be only a
part of a character; the rest of that character follows by itself, since it holds no mark.

* `removeComments`: the pass over the bytes.
* `Uncommented.inBytes`: what is left of tokens, in bytes and with offsets of bytes.
* `Copies`: a stretch of bytes that the pass copies, and what is open behind it.
* `removeComments_utf8`: **both are the same,** so the bytes that are left are whole characters.
-/

namespace StyleLift.Stylesheet

open Glob (Byte bytesOf utf8)

/-- What is left of a stretch of bytes without its comments: the bytes, the offset of each of them,
and where the comments stood. -/
structure Remains where
  bytes : List Byte
  offsets : List Nat
  comments : List Span
  deriving DecidableEq, Repr

namespace Remains

/-- The bytes `piece`, which stand at `offset`, are kept in front of what is left. -/
def keep (offset : Nat) (piece : List Byte) (r : Remains) : Remains :=
  ⟨piece ++ r.bytes, List.range' offset piece.length ++ r.offsets, r.comments⟩

/-- A comment of `n` bytes at `offset` is taken out in front of what is left; `gap` takes its
place. -/
def cut (offset n : Nat) (gap : List Byte) (r : Remains) : Remains :=
  { r.keep offset gap with comments := ⟨offset, offset + n⟩ :: r.comments }

theorem keep_append (offset : Nat) (first second : List Byte) (r : Remains) :
    r.keep offset (first ++ second) =
      (r.keep (offset + first.length) second).keep offset first := by
  simp only [keep, List.append_assoc, List.length_append]
  rw [← List.append_assoc (List.range' _ _), List.range'_append_1]

end Remains

/-! ## The pass over the bytes -/

/-- Space, tab, newline, form feed and carriage return. -/
def isBlankByte (b : Byte) : Bool :=
  b == ' '.toUInt8 || b == '\t'.toUInt8 || b == '\n'.toUInt8 || b == '\x0c'.toUInt8 ||
    b == '\r'.toUInt8

/-- A neighbour of a comment that has to stay apart from its other neighbour. -/
def isSolidByte : Option Byte → Bool
  | some b => !isBlankByte b
  | none => false

/-- The space that a comment leaves between `before` and `after`. -/
def gapBytes (before after : Option Byte) : List Byte :=
  if isSolidByte before && isSolidByte after then [' '.toUInt8] else []

/-- What is open: a string, by its quote, and some parentheses. -/
structure Nesting where
  quote : Option Byte := none
  depth : Nat := 0
  deriving DecidableEq, Repr

namespace Nesting

/-- The byte takes the next one with it. -/
def escapes (nesting : Nesting) (b : Byte) : Bool :=
  nesting.quote.isSome && b == '\\'.toUInt8

/-- What is open behind a byte that neither escapes another nor is escaped. -/
def after (nesting : Nesting) (b : Byte) : Nesting :=
  match nesting.quote with
  | some quote => if b = quote then { nesting with quote := none } else nesting
  | none =>
    if b = '"'.toUInt8 ∨ b = '\''.toUInt8 then { nesting with quote := some b }
    else if b = '('.toUInt8 then { nesting with depth := nesting.depth + 1 }
    else if b = ')'.toUInt8 then { nesting with depth := nesting.depth - 1 }
    else nesting

end Nesting

/-- The number of bytes up to and including the first `*/`; all of them if there is none. -/
def blockLength : List Byte → Nat
  | [] => 0
  | b :: rest =>
    if b = '*'.toUInt8 ∧ rest.head? = some '/'.toUInt8 then 2 else 1 + blockLength rest

/-- If `b` starts a comment, the number of bytes behind it that belong to the comment. -/
def commentTail? (dialect : Dialect) (nesting : Nesting) (b : Byte) (rest : List Byte) :
    Option Nat :=
  if nesting.quote = none ∧ b = '/'.toUInt8 then
    if rest.head? = some '*'.toUInt8 then some (1 + blockLength rest.tail)
    else if dialect = .scss ∧ nesting.depth = 0 ∧ rest.head? = some '/'.toUInt8 then
      some (rest.takeWhile (· != '\n'.toUInt8)).length
    else none
  else none

/-- Removes the comments from bytes that start at `offset`, when `before` is the byte kept last. -/
def removeFrom (dialect : Dialect) (nesting : Nesting) (before : Option Byte) (offset : Nat) :
    List Byte → Remains
  | [] => ⟨[], [], []⟩
  | b :: rest =>
    match commentTail? dialect nesting b rest with
    | some n =>
      let gap := gapBytes before (rest.drop n).head?
      (removeFrom dialect nesting (gap.getLast?.or before) (offset + (n + 1)) (rest.drop n)).cut
        offset (n + 1) gap
    | none =>
      if nesting.escapes b then
        let piece := b :: rest.take 1
        (removeFrom dialect nesting piece.getLast? (offset + piece.length) (rest.drop 1)).keep
          offset piece
      else
        (removeFrom dialect (nesting.after b) (some b) (offset + 1) rest).keep offset [b]
termination_by bytes => bytes.length
decreasing_by all_goals simp only [List.length_cons, List.length_drop]; omega

/-- Removes the comments from bytes that start at `base` of the source. -/
def removeComments (dialect : Dialect) (base : Nat) (bytes : List Byte) : Remains :=
  removeFrom dialect {} none base bytes

section

variable {dialect : Dialect} {nesting : Nesting} {before : Option Byte} {offset : Nat} {b : Byte}
  {rest : List Byte}

@[simp] theorem removeFrom_nil : removeFrom dialect nesting before offset [] = ⟨[], [], []⟩ := by
  rw [removeFrom]

theorem removeFrom_comment {n : Nat} (h : commentTail? dialect nesting b rest = some n) :
    removeFrom dialect nesting before offset (b :: rest) =
      (removeFrom dialect nesting ((gapBytes before (rest.drop n).head?).getLast?.or before)
        (offset + (n + 1)) (rest.drop n)).cut offset (n + 1)
          (gapBytes before (rest.drop n).head?) := by
  rw [removeFrom, h]

theorem removeFrom_escape (h : commentTail? dialect nesting b rest = none)
    (hescapes : nesting.escapes b = true) :
    removeFrom dialect nesting before offset (b :: rest) =
      (removeFrom dialect nesting (b :: rest.take 1).getLast?
        (offset + (b :: rest.take 1).length) (rest.drop 1)).keep offset (b :: rest.take 1) := by
  rw [removeFrom, h]
  simp only [hescapes, if_true]

theorem removeFrom_plain (h : commentTail? dialect nesting b rest = none)
    (hescapes : nesting.escapes b = false) :
    removeFrom dialect nesting before offset (b :: rest) =
      (removeFrom dialect (nesting.after b) (some b) (offset + 1) rest).keep offset [b] := by
  rw [removeFrom, h]
  simp only [hescapes, Bool.false_eq_true, if_false]

theorem commentTail?_of_quote (h : nesting.quote ≠ none) :
    commentTail? dialect nesting b rest = none :=
  if_neg fun hslash => h hslash.1

theorem commentTail?_of_ne (h : b ≠ '/'.toUInt8) : commentTail? dialect nesting b rest = none :=
  if_neg fun hslash => h hslash.2

/-- Whether a byte starts a comment depends on the next one. -/
theorem commentTail?_of_head? (hstar : rest.head? ≠ some '*'.toUInt8)
    (hline : dialect = .scss → nesting.depth = 0 → rest.head? ≠ some '/'.toUInt8) :
    commentTail? dialect nesting b rest = none := by
  have hnone : ¬ (dialect = .scss ∧ nesting.depth = 0 ∧ rest.head? = some '/'.toUInt8) :=
    fun h => hline h.1 h.2.1 h.2.2
  rw [commentTail?, if_neg hstar, if_neg hnone, ite_self]

end

/-! ## Bytes that are copied -/

/-- In front of `rest` the bytes `piece` are copied, and behind them `nesting'` is open. -/
def Copies (dialect : Dialect) (nesting : Nesting) (piece : List Byte) (nesting' : Nesting)
    (rest : List Byte) : Prop :=
  ∀ before offset, removeFrom dialect nesting before offset (piece ++ rest) =
    (removeFrom dialect nesting' (piece.getLast?.or before) (offset + piece.length) rest).keep
      offset piece

section

variable {dialect : Dialect} {nesting nesting' nesting'' : Nesting} {rest : List Byte}

theorem Copies.nil : Copies dialect nesting [] nesting rest := fun _ _ => rfl

theorem Copies.append {first second : List Byte}
    (hfirst : Copies dialect nesting first nesting' (second ++ rest))
    (hsecond : Copies dialect nesting' second nesting'' rest) :
    Copies dialect nesting (first ++ second) nesting'' rest := by
  intro before offset
  rw [List.append_assoc, hfirst, hsecond, Remains.keep_append, List.getLast?_append,
    Option.or_assoc, List.length_append, Nat.add_assoc]

/-- At the end it does not matter what is open. -/
theorem Copies.of_end {piece : List Byte} (h : Copies dialect nesting piece nesting' []) :
    Copies dialect nesting piece nesting'' [] := by
  intro before offset
  rw [h, removeFrom_nil, removeFrom_nil]

theorem copies_plain {b : Byte} (h : commentTail? dialect nesting b rest = none)
    (hescapes : nesting.escapes b = false) :
    Copies dialect nesting [b] (nesting.after b) rest := by
  intro before offset
  exact removeFrom_plain h hescapes

theorem Nesting.quote_ne_none_of_escapes {b : Byte} (h : nesting.escapes b = true) :
    nesting.quote ≠ none := by
  intro hquote
  rw [Nesting.escapes, hquote] at h
  exact absurd h Bool.false_ne_true

theorem copies_pair {b : Byte} (h : nesting.escapes b = true) (c : Byte) :
    Copies dialect nesting [b, c] nesting rest := by
  intro before offset
  exact removeFrom_escape (commentTail?_of_quote (Nesting.quote_ne_none_of_escapes h)) h

/-- Nothing is there to escape. -/
theorem copies_escape_at_end {b : Byte} (h : nesting.escapes b = true) :
    Copies dialect nesting [b] nesting [] := by
  intro before offset
  exact removeFrom_escape (commentTail?_of_quote (Nesting.quote_ne_none_of_escapes h)) h

/-- Bytes that mean nothing in `nesting`. -/
structure Inert (nesting : Nesting) (b : Byte) : Prop where
  ne_slash : nesting.quote = none → b ≠ '/'.toUInt8
  escapes_eq : nesting.escapes b = false
  after_eq : nesting.after b = nesting

theorem Inert.commentTail?_eq {b : Byte} (h : Inert nesting b) :
    commentTail? dialect nesting b rest = none :=
  if_neg fun hslash => h.ne_slash hslash.1 hslash.2

theorem copies_of_inert {piece : List Byte} (h : ∀ b ∈ piece, Inert nesting b) :
    Copies dialect nesting piece nesting rest := by
  induction piece with
  | nil => exact .nil
  | cons b piece ih =>
    rw [List.forall_mem_cons] at h
    have hfirst : Copies dialect nesting [b] (nesting.after b) (piece ++ rest) :=
      copies_plain h.1.commentTail?_eq h.1.escapes_eq
    rw [h.1.after_eq] at hfirst
    exact hfirst.append (ih h.2)

end

/-! ## Strings -/

section

variable {dialect : Dialect} {q : Char} {depth : Nat}

theorem inert_in_string {b : Byte} (hquote : b ≠ q.toUInt8) (hback : b ≠ '\\'.toUInt8) :
    Inert ⟨some q.toUInt8, depth⟩ b where
  ne_slash := fun hnone => absurd hnone (Option.some_ne_none _)
  escapes_eq := by rw [Nesting.escapes, beq_eq_false_iff_ne.2 hback, Bool.and_false]
  after_eq := if_neg hquote

/-- In a string a backslash is copied with the first byte of the next character, and the other
bytes of that character are copied because they are no marks. -/
theorem copies_escaped (hq : q.toNat < 128) (c : Char) (rest : List Byte) :
    Copies dialect ⟨some q.toUInt8, depth⟩ (bytesOf '\\' ++ bytesOf c)
      ⟨some q.toUInt8, depth⟩ rest := by
  obtain ⟨x, xs, hc⟩ := List.exists_cons_of_ne_nil (Text.bytesOf_ne_nil c)
  have hpair : Copies dialect ⟨some q.toUInt8, depth⟩ ['\\'.toUInt8, x]
      ⟨some q.toUInt8, depth⟩ (xs ++ rest) := copies_pair rfl x
  have hothers : Copies dialect ⟨some q.toUInt8, depth⟩ xs ⟨some q.toUInt8, depth⟩ rest := by
    refine copies_of_inert fun b hb => inert_in_string ?_ ?_
    · exact Text.ne_of_bytesOf_eq_cons hq hc hb
    · exact Text.ne_of_bytesOf_eq_cons (by decide) hc hb
  rw [hc, Text.bytesOf_of_ascii (by decide)]
  exact hpair.append hothers

theorem copies_in_string (hq : q.toNat < 128) {c : Char} (hquote : c ≠ q) (hback : c ≠ '\\')
    (rest : List Byte) :
    Copies dialect ⟨some q.toUInt8, depth⟩ (bytesOf c) ⟨some q.toUInt8, depth⟩ rest :=
  copies_of_inert fun _ hb =>
    inert_in_string (Text.ne_of_mem_bytesOf hq hquote hb) (Text.ne_of_mem_bytesOf (by decide) hback hb)

/-- A string is copied up to its closing quote. -/
theorem copies_of_closeQuote? (hq : q.toNat < 128) (hback : q ≠ '\\') {s body rest : Text}
    (h : closeQuote? q s = some (body, rest)) :
    Copies dialect ⟨some q.toUInt8, depth⟩ (utf8 body) ⟨none, depth⟩ (utf8 rest) := by
  fun_induction closeQuote? q s generalizing body rest with
  | case1 => simp at h
  | case2 c s ih =>
    obtain ⟨⟨tail, rest'⟩, htail, heq⟩ := Option.map_eq_some_iff.1 h
    simp only [Prod.mk.injEq] at heq
    obtain ⟨rfl, rfl⟩ := heq
    rw [Text.utf8_cons, Text.utf8_cons, ← List.append_assoc]
    exact (copies_escaped hq c _).append (ih htail)
  | case3 s =>
    simp only [Option.some.injEq, Prod.mk.injEq] at h
    obtain ⟨rfl, rfl⟩ := h
    have hescapes : Nesting.escapes ⟨some q.toUInt8, depth⟩ q.toUInt8 = false := by
      rw [Nesting.escapes, Bool.and_eq_false_iff, beq_eq_false_iff_ne]
      refine Or.inr fun heq => hback ?_
      exact Text.eq_of_mem_bytesOf (by decide) (by rw [← heq, Text.bytesOf_of_ascii hq]; simp)
    have hafter : Nesting.after ⟨some q.toUInt8, depth⟩ q.toUInt8 = ⟨none, depth⟩ := if_pos rfl
    rw [Text.utf8_cons, Text.utf8_nil, List.append_nil, Text.bytesOf_of_ascii hq, ← hafter]
    exact copies_plain (commentTail?_of_quote (Option.some_ne_none _)) hescapes
  | case4 c s hpair hne ih =>
    obtain ⟨tail, rfl, htail⟩ := exists_of_map_cons_eq_some h
    have hc : c ≠ '\\' := by
      rintro rfl
      cases s with
      | nil => simp [closeQuote?] at htail
      | cons d s => exact hpair d s rfl rfl
    rw [Text.utf8_cons]
    exact (copies_in_string hq hne hc _).append (ih htail)

/-- A string without an end is copied whole. -/
theorem copies_of_closeQuote?_eq_none (hq : q.toNat < 128) {s : Text}
    (h : closeQuote? q s = none) :
    Copies dialect ⟨some q.toUInt8, depth⟩ (utf8 s) ⟨some q.toUInt8, depth⟩ [] := by
  fun_induction closeQuote? q s with
  | case1 => exact .nil
  | case2 c s ih =>
    rw [Option.map_eq_none_iff] at h
    rw [Text.utf8_cons, Text.utf8_cons, ← List.append_assoc]
    exact (copies_escaped hq c _).append (ih h)
  | case3 => simp at h
  | case4 c s hpair hne ih =>
    rw [Option.map_eq_none_iff] at h
    rw [Text.utf8_cons]
    refine Copies.append ?_ (ih h)
    by_cases hc : c = '\\'
    · -- a backslash with nothing behind it
      obtain rfl : s = [] := by
        cases s with
        | nil => rfl
        | cons d s => exact absurd rfl (hpair d s hc)
      rw [hc, Text.bytesOf_of_ascii (by decide)]
      exact copies_escape_at_end rfl
    · exact copies_in_string hq hne hc _

end

/-! ## Comments -/

theorem blockLength_append {piece : List Byte} (h : '*'.toUInt8 ∉ piece) (rest : List Byte) :
    blockLength (piece ++ rest) = piece.length + blockLength rest := by
  induction piece with
  | nil => rw [List.nil_append, List.length_nil, Nat.zero_add]
  | cons b piece ih =>
    rw [List.mem_cons, not_or] at h
    rw [List.cons_append, blockLength, if_neg fun hstar => h.1 hstar.1.symm, ih h.2,
      List.length_cons]
    omega

/-- The end of a block comment is found in the bytes where it is found in the text. -/
theorem blockLength_utf8 (s : Text) :
    blockLength (utf8 s) =
      ((closeComment? s).elim (utf8 s) fun found => utf8 found.1).length := by
  fun_induction closeComment? s with
  | case1 => rfl
  | case2 rest =>
    rw [Text.utf8_cons, Text.utf8_cons, Text.bytesOf_of_ascii (by decide),
      Text.bytesOf_of_ascii (by decide)]
    rfl
  | case3 c s hend ih =>
    have hcons : blockLength (utf8 (c :: s)) = (bytesOf c).length + blockLength (utf8 s) := by
      by_cases hc : c = '*'
      · have hslash : (utf8 s).head? ≠ some '/'.toUInt8 := by
          rw [Ne, Text.head?_utf8_iff (by decide)]
          intro hs
          obtain ⟨tail, rfl⟩ := List.head?_eq_some_iff.1 hs
          exact hend tail hc rfl
        rw [Text.utf8_cons, hc, Text.bytesOf_of_ascii (by decide)]
        exact if_neg fun hstar => hslash hstar.2
      · exact blockLength_append (fun hmem => hc (Text.eq_of_mem_bytesOf (by decide) hmem)) _
    rw [hcons, ih]
    cases closeComment? s with
    | none => exact (List.length_append).symm
    | some found => exact (List.length_append).symm

section

variable {dialect : Dialect} {depth : Nat} {rest : Text}

theorem commentTail?_block (body : Text) :
    commentTail? dialect ⟨none, depth⟩ '/'.toUInt8 (utf8 ('*' :: body)) =
      some (1 + blockLength (utf8 body)) := by
  rw [Text.utf8_cons, Text.bytesOf_of_ascii (by decide)]
  rfl

/-- What a line comment takes is all of its line. -/
theorem takeWhile_line {line : Text} (hline : '\n' ∉ line)
    (hrest : ∀ c, rest.head? = some c → c = '\n') :
    (line ++ rest).takeWhile (· != '\n') = line := by
  have hall : ∀ c ∈ line, (c != '\n') = true := by
    intro c hc
    rw [bne_iff_ne]
    rintro rfl
    exact hline hc
  rw [List.takeWhile_append_of_pos hall]
  cases rest with
  | nil => exact List.append_nil line
  | cons c rest =>
    obtain rfl := hrest c rfl
    rw [List.takeWhile_cons_of_neg (by decide), List.append_nil]

/-- **A comment is found in the bytes where it is found in the text.** -/
theorem exists_commentTail? {t : Token} (ht : t.isComment = true)
    (h : t.Fits (.ofComments dialect) depth rest.head?) :
    ∃ tail, t.text = '/' :: tail ∧
      commentTail? dialect ⟨none, depth⟩ '/'.toUInt8 (utf8 (tail ++ rest)) =
        some (utf8 tail).length := by
  cases t with
  | comment s =>
    rcases h with ⟨body, rfl, hbody⟩ | ⟨hdialect, rfl, ⟨line, rfl, hline⟩, hnext⟩
    · refine ⟨'*' :: body, rfl, ?_⟩
      rw [List.cons_append, commentTail?_block, blockLength_utf8, closer_comment.append rest hbody,
        Text.utf8_cons, List.length_append, Text.bytesOf_of_ascii (by decide)]
      rfl
    · refine ⟨'/' :: line, rfl, ?_⟩
      have hhead : (utf8 ('/' :: line ++ rest)).head? = some '/'.toUInt8 :=
        (Text.head?_utf8_iff (by decide)).2 rfl
      have hstar : (utf8 ('/' :: line ++ rest)).head? ≠ some '*'.toUInt8 := by
        rw [hhead]
        decide
      have hall : '\n' ∉ '/' :: line := by
        rw [List.mem_cons, not_or]
        exact ⟨by decide, hline⟩
      rw [commentTail?, if_pos ⟨rfl, rfl⟩, if_neg hstar,
        if_pos ⟨lineComments_ofComments.1 hdialect, rfl, hhead⟩,
        Text.takeWhile_utf8 (by decide), takeWhile_line hall hnext]
  | unterminated what s =>
    cases what with
    | comment =>
      obtain ⟨hrest, body, rfl, hbody⟩ := h
      obtain rfl := eq_nil_of_head?_eq_none hrest
      refine ⟨'*' :: body, rfl, ?_⟩
      rw [List.append_nil, commentTail?_block, blockLength_utf8, hbody, Text.utf8_cons,
        List.length_append, Text.bytesOf_of_ascii (by decide)]
      rfl
    | string | interpolation => exact absurd ht Bool.false_ne_true
  | quoted | interpolation | opening | closing | separator | glyph =>
    exact absurd ht Bool.false_ne_true

/-! ## Tokens -/

theorem copies_glyph {c : Char} (hdouble : c ≠ '"') (hsingle : c ≠ '\'')
    (hslash : c = '/' → rest.head? ≠ some '*' ∧
      (dialect = .scss → depth = 0 → rest.head? ≠ some '/')) :
    Copies dialect ⟨none, depth⟩ (bytesOf c) ⟨none, (Token.glyph c).depthAfter depth⟩
      (utf8 rest) := by
  by_cases hmark : c = '(' ∨ c = ')' ∨ c = '/'
  · have hplain : ∀ d : Char, d.toNat < 128 →
        commentTail? dialect ⟨none, depth⟩ d.toUInt8 (utf8 rest) = none →
        Copies dialect ⟨none, depth⟩ (bytesOf d) (Nesting.after ⟨none, depth⟩ d.toUInt8)
          (utf8 rest) := by
      intro d hd htail
      rw [Text.bytesOf_of_ascii hd]
      exact copies_plain htail rfl
    rcases hmark with rfl | rfl | rfl
    · exact hplain '(' (by decide) (commentTail?_of_ne (by decide))
    · exact hplain ')' (by decide) (commentTail?_of_ne (by decide))
    · refine hplain '/' (by decide) ?_
      obtain ⟨hstar, hline⟩ := hslash rfl
      refine commentTail?_of_head? ?_ fun hdialect hdepth => ?_
      · rwa [Ne, Text.head?_utf8_iff (by decide)]
      · rw [Ne, Text.head?_utf8_iff (by decide)]
        exact hline hdialect hdepth
  · simp only [not_or] at hmark
    rw [Token.depthAfter_of_ne hmark.1 hmark.2.1]
    refine copies_of_inert fun b hb => ⟨fun _ => ?_, rfl, ?_⟩
    · exact Text.ne_of_mem_bytesOf (by decide) hmark.2.2 hb
    · have hne : ∀ d : Char, d.toNat < 128 → c ≠ d → b ≠ d.toUInt8 :=
        fun d hd hcd => Text.ne_of_mem_bytesOf hd hcd hb
      simp only [Nesting.after, hne '"' (by decide) hdouble, hne '\'' (by decide) hsingle,
        hne '(' (by decide) hmark.1, hne ')' (by decide) hmark.2.1, or_self, if_false]

theorem copies_quote {q : Char} (hq : q = '"' ∨ q = '\'') (following : List Byte) :
    Copies dialect ⟨none, depth⟩ (bytesOf q) ⟨some q.toUInt8, depth⟩ following := by
  have hplain : q.toUInt8 ≠ '/'.toUInt8 ∧ q.toNat < 128 ∧
      Nesting.after ⟨none, depth⟩ q.toUInt8 = ⟨some q.toUInt8, depth⟩ := by
    rcases hq with rfl | rfl <;> exact ⟨by decide, by decide, rfl⟩
  rw [Text.bytesOf_of_ascii hplain.2.1, ← hplain.2.2]
  exact copies_plain (commentTail?_of_ne hplain.1) rfl

/-- A string is copied with its quotes. -/
theorem copies_string {q : Char} (hq : q = '"' ∨ q = '\'') {s : Text}
    (h : Encloses [q] (closeQuote? q) s) (following : Text) :
    Copies dialect ⟨none, depth⟩ (utf8 s) ⟨none, depth⟩ (utf8 following) := by
  obtain ⟨body, rfl, hbody⟩ := h
  have hmark : q.toNat < 128 ∧ q ≠ '\\' := by
    rcases hq with rfl | rfl <;> decide
  have hwhole := (closer_quote hmark.2).append following hbody
  rw [List.singleton_append, Text.utf8_cons]
  exact (copies_quote hq _).append (copies_of_closeQuote? hmark.1 hmark.2 hwhole)

theorem copies_open_string {q : Char} (hq : q = '"' ∨ q = '\'') {s : Text}
    (h : StaysOpen [q] (closeQuote? q) s) :
    Copies dialect ⟨none, depth⟩ (utf8 s) ⟨none, depth⟩ [] := by
  obtain ⟨body, rfl, hbody⟩ := h
  have hmark : q.toNat < 128 := by
    rcases hq with rfl | rfl <;> decide
  rw [List.singleton_append, Text.utf8_cons]
  exact ((copies_quote hq _).append (copies_of_closeQuote?_eq_none hmark hbody)).of_end

/-- **A token that is no comment is copied.** -/
theorem Token.Fits.copies {t : Token} (h : t.Fits (.ofComments dialect) depth rest.head?)
    (ht : t.isComment = false) :
    Copies dialect ⟨none, depth⟩ (utf8 t.text) ⟨none, t.depthAfter depth⟩ (utf8 rest) := by
  have hstructure : ∀ c : Char, c = '{' ∨ c = '}' ∨ c = ';' →
      Copies dialect ⟨none, depth⟩ (utf8 [c]) ⟨none, depth⟩ (utf8 rest) := by
    intro c hc
    have hne : (c ≠ '"' ∧ c ≠ '\'' ∧ c ≠ '/') ∧ c ≠ '(' ∧ c ≠ ')' := by
      rcases hc with rfl | rfl | rfl <;> decide
    have hglyph : Copies dialect ⟨none, depth⟩ (bytesOf c)
        ⟨none, (Token.glyph c).depthAfter depth⟩ (utf8 rest) :=
      copies_glyph hne.1.1 hne.1.2.1 fun hslash => absurd hslash hne.1.2.2
    rw [Token.depthAfter_of_ne hne.2.1 hne.2.2] at hglyph
    rwa [Text.utf8_cons, Text.utf8_nil, List.append_nil]
  cases t with
  | comment s => exact absurd ht.symm Bool.false_ne_true
  | quoted s =>
    rcases h with h | h
    · exact copies_string (Or.inl rfl) h rest
    · exact copies_string (Or.inr rfl) h rest
  | interpolation s =>
    have hnone := interpolations_ofComments dialect
    rw [h.1] at hnone
    exact absurd hnone.symm Bool.false_ne_true
  | opening => exact hstructure '{' (by decide)
  | closing => exact hstructure '}' (by decide)
  | separator => exact hstructure ';' (by decide)
  | glyph c =>
    obtain ⟨hdouble, hsingle, -, hslash, -⟩ := h
    rw [Token.text_glyph, Text.utf8_cons, Text.utf8_nil, List.append_nil]
    refine copies_glyph hdouble hsingle fun hc => ⟨(hslash hc).1, fun hdialect => ?_⟩
    exact (hslash hc).2 (lineComments_ofComments.2 hdialect)
  | unterminated what s =>
    cases what with
    | comment => exact absurd ht.symm Bool.false_ne_true
    | string =>
      obtain ⟨hrest, h | h⟩ := h
      · obtain rfl := eq_nil_of_head?_eq_none hrest
        exact copies_open_string (Or.inl rfl) h
      · obtain rfl := eq_nil_of_head?_eq_none hrest
        exact copies_open_string (Or.inr rfl) h
    | interpolation =>
      have hnone := interpolations_ofComments dialect
      rw [h.2.1] at hnone
      exact absurd hnone.symm Bool.false_ne_true

end

/-! ## The same in characters -/

theorem isBlankByte_of_mem_bytesOf {c : Char} {b : Byte} (hb : b ∈ bytesOf c) :
    isBlankByte b = Text.isAsciiBlank c := by
  rw [isBlankByte, Text.isAsciiBlank, Text.beq_toUInt8 (by decide) hb,
    Text.beq_toUInt8 (by decide) hb, Text.beq_toUInt8 (by decide) hb,
    Text.beq_toUInt8 (by decide) hb, Text.beq_toUInt8 (by decide) hb]

theorem isSolidByte_of_mem_bytesOf {c : Char} {b : Byte} (hb : b ∈ bytesOf c) :
    isSolidByte (some b) = Uncommented.isSolid (some c) :=
  congrArg not (isBlankByte_of_mem_bytesOf hb)

theorem isSolidByte_head? (s : Text) :
    isSolidByte (utf8 s).head? = Uncommented.isSolid s.head? := by
  cases s with
  | nil => rfl
  | cons c s =>
    obtain ⟨b, bs, hc⟩ := List.exists_cons_of_ne_nil (Text.bytesOf_ne_nil c)
    rw [Text.head?_utf8_cons, hc, List.head?_cons, List.head?_cons]
    exact isSolidByte_of_mem_bytesOf (hc ▸ List.mem_cons_self)

/-- The byte kept last and the character kept last ask for a space alike. -/
theorem isSolidByte_getLast? {b : Option Byte} {before : Option Char}
    (hb : isSolidByte b = Uncommented.isSolid before) (s : Text) :
    isSolidByte ((utf8 s).getLast?.or b) = Uncommented.isSolid (s.getLast?.or before) := by
  rcases List.eq_nil_or_concat' s with rfl | ⟨s, c, rfl⟩
  · exact hb
  · obtain ⟨bs, x, hc⟩ := (List.eq_nil_or_concat' (bytesOf c)).resolve_left (Text.bytesOf_ne_nil c)
    rw [Text.utf8_append, Text.utf8_cons, Text.utf8_nil, List.append_nil, hc, ← List.append_assoc,
      List.getLast?_concat, List.getLast?_concat]
    exact isSolidByte_of_mem_bytesOf (c := c) (hc ▸ List.mem_append_right _ List.mem_cons_self)

/-- The byte at which a position stands, for a text that starts at the position `offset` and at the
byte `base`. -/
def byteOffset (s : Text) (offset base position : Nat) : Nat :=
  base + (Text.bytePosition s (position - offset)).byteIdx

/-- What is left of a text, in bytes, when `place` tells where a position stands. -/
def Uncommented.inBytes (place : Nat → Nat) (u : Uncommented) : Remains where
  bytes := utf8 u.text
  offsets := u.kept.flatMap fun p => List.range' (place p.offset) p.char.utf8Size
  comments := u.comments.map fun span => ⟨place span.start, place span.stop⟩

theorem byteOffset_append (front back : Text) (offset base : Nat) :
    byteOffset (front ++ back) offset base (offset + front.length) = base + front.byteLength := by
  rw [byteOffset, Nat.add_sub_cancel_left, Text.bytePosition, List.take_left]

/-- The offsets of the bytes of a stretch of text are one after the other. -/
theorem flatMap_range'_ofText {s : Text} {front text back : Text} (hs : s = front ++ text ++ back)
    (offset base : Nat) :
    ((Placed.ofText (offset + front.length) text).flatMap fun p =>
        List.range' (byteOffset s offset base p.offset) p.char.utf8Size) =
      List.range' (base + front.byteLength) text.byteLength := by
  induction text generalizing front with
  | nil => rfl
  | cons c text ih =>
    have hrest := @ih (front ++ [c]) (by rw [hs]; simp)
    rw [List.length_append, List.length_singleton, Text.byteLength_append, ← Nat.add_assoc,
      ← Nat.add_assoc] at hrest
    rw [Placed.ofText, List.flatMap_cons, hrest, hs, List.append_assoc, byteOffset_append,
      Text.byteLength]
    exact List.range'_append_1

theorem Token.depthAfter_of_isComment {t : Token} (ht : t.isComment = true) (depth : Nat) :
    t.depthAfter depth = depth := by
  cases t with
  | comment | unterminated => rfl
  | quoted | interpolation | opening | closing | separator | glyph =>
    exact absurd ht Bool.false_ne_true

section

variable {place : Nat → Nat} {before : Option Char} {b : Option Byte} {position n : Nat} {t : Token}
  {ts : List Token}

/-- A comment is taken out of the bytes as it is out of the text. -/
theorem inBytes_of_isComment (ht : t.isComment = true) {after : Option Byte}
    (hb : isSolidByte b = Uncommented.isSolid before)
    (hafter : isSolidByte after = Uncommented.isSolid (firstChar ts))
    (hplace : place (position + t.text.length) = place position + n) :
    ∃ before', isSolidByte ((gapBytes b after).getLast?.or b) = Uncommented.isSolid before' ∧
      (Uncommented.ofTokens before position (t :: ts)).inBytes place =
        ((Uncommented.ofTokens before' (position + t.text.length) ts).inBytes place).cut
          (place position) n (gapBytes b after) := by
  have hcomment : Uncommented.ofTokens before position (t :: ts) =
      let gap := Uncommented.gap position before (firstChar ts)
      let left := Uncommented.ofTokens (if gap.isEmpty then before else some ' ')
        (position + t.text.length) ts
      ⟨gap ++ left.kept, ⟨position, position + t.text.length⟩ :: left.comments⟩ := by
    rw [Uncommented.ofTokens, if_pos ht]
    rfl
  rw [hcomment, Uncommented.gap, gapBytes, hb, hafter]
  cases Uncommented.isSolid before && Uncommented.isSolid (firstChar ts) with
  | true =>
    refine ⟨some ' ', rfl, ?_⟩
    simp only [Uncommented.inBytes, Remains.cut, List.map_cons, hplace]
    rfl
  | false =>
    refine ⟨before, hb, ?_⟩
    simp only [Uncommented.inBytes, Remains.cut, List.map_cons, hplace]
    rfl

theorem inBytes_of_not_isComment (ht : t.isComment = false)
    (hoffsets : ((Placed.ofText position t.text).flatMap fun p =>
      List.range' (place p.offset) p.char.utf8Size) =
        List.range' (place position) t.text.byteLength) :
    (Uncommented.ofTokens before position (t :: ts)).inBytes place =
      ((Uncommented.ofTokens (t.text.getLast?.or before) (position + t.text.length) ts).inBytes
        place).keep (place position) (utf8 t.text) := by
  have hkept : Uncommented.ofTokens before position (t :: ts) =
      let left := Uncommented.ofTokens (t.text.getLast?.or before) (position + t.text.length) ts
      ⟨Placed.ofText position t.text ++ left.kept, left.comments⟩ := by
    rw [Uncommented.ofTokens, if_neg (by rw [ht]; decide)]
  rw [hkept, Uncommented.inBytes, Remains.keep, Uncommented.text, Placed.text_append,
    Placed.text_ofText, Text.utf8_append, List.flatMap_append, hoffsets, Text.length_utf8]
  rfl

end

/-- Over a list of tokens, the pass over the bytes does what is done with the tokens. -/
theorem removeFrom_spelling {dialect : Dialect} {depth : Nat} {ts : List Token}
    (h : FitsAll (.ofComments dialect) depth none ts) {before : Option Char} {b : Option Byte}
    (hb : isSolidByte b = Uncommented.isSolid before) (offset base : Nat) {s front : Text}
    (hs : s = front ++ spelling ts) :
    removeFrom dialect ⟨none, depth⟩ b (base + front.byteLength) (utf8 (spelling ts)) =
      (Uncommented.ofTokens before (offset + front.length) ts).inBytes
        (byteOffset s offset base) := by
  induction ts generalizing depth before b front with
  | nil => exact removeFrom_nil
  | cons t ts ih =>
    obtain ⟨ht, hts⟩ := h
    rw [Option.or_none] at ht
    have hplace : byteOffset s offset base (offset + front.length) = base + front.byteLength := by
      rw [hs, byteOffset_append]
    have hnext : s = front ++ t.text ++ spelling ts := by
      rw [hs, spelling_cons, List.append_assoc]
    have hrest := fun before b hb => @ih _ hts before b hb (front ++ t.text) hnext
    rw [List.length_append, Text.byteLength_append, ← Nat.add_assoc, ← Nat.add_assoc] at hrest
    rw [spelling_cons, Text.utf8_append, ← hplace]
    cases hcomment : t.isComment with
    | true =>
      obtain ⟨tail, htext, htail⟩ := exists_commentTail? hcomment ht
      have hbytes : utf8 t.text = '/'.toUInt8 :: utf8 tail := by
        rw [htext, Text.utf8_cons, Text.bytesOf_of_ascii (by decide), List.singleton_append]
      have hlength : (utf8 tail).length + 1 = t.text.byteLength := by
        rw [← Text.length_utf8, hbytes, List.length_cons]
      have hdrop : (utf8 (tail ++ spelling ts)).drop (utf8 tail).length = utf8 (spelling ts) := by
        rw [Text.utf8_append, List.drop_left]
      have hafter : isSolidByte (utf8 (spelling ts)).head? = Uncommented.isSolid (firstChar ts) := by
        rw [firstChar_eq_head?_spelling hts.text_ne_nil, isSolidByte_head?]
      have hstop : byteOffset s offset base (offset + front.length + t.text.length) =
          byteOffset s offset base (offset + front.length) + t.text.byteLength := by
        rw [hplace, Nat.add_assoc offset, ← List.length_append, hnext, byteOffset_append,
          Text.byteLength_append, Nat.add_assoc]
      obtain ⟨before', hb', hin⟩ := inBytes_of_isComment hcomment hb hafter hstop
      rw [Token.depthAfter_of_isComment hcomment] at hrest
      rw [hin, ← hrest before' _ hb', hbytes, List.cons_append, ← Text.utf8_append,
        removeFrom_comment htail, hdrop, hlength, hplace]
    | false =>
      rw [ht.copies hcomment, inBytes_of_not_isComment hcomment, hplace, Text.length_utf8,
        hrest _ _ (isSolidByte_getLast? hb t.text)]
      rw [hplace]
      exact flatMap_range'_ofText hnext offset base

/-- **Comments are removed from the bytes of a text as they are from the text.** -/
theorem removeComments_utf8 (dialect : Dialect) (offset base : Nat) (s : Text) :
    removeComments dialect base (utf8 s) =
      (Uncommented.ofText dialect offset s).inBytes (byteOffset s offset base) := by
  have hwhole : s = [] ++ spelling (tokens (.ofComments dialect) 0 s) := (text_tokens _ 0 s).symm
  have hstart : isSolidByte none = Uncommented.isSolid none := rfl
  have hremove := removeFrom_spelling (fitsAll_tokens (.ofComments dialect) 0 s) hstart offset base
    hwhole
  rwa [spelling_tokens] at hremove

end StyleLift.Stylesheet
