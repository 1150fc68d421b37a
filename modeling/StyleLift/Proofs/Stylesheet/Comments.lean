import StyleLift.Proofs.Stylesheet.Scanning
import StyleLift.Proofs.Text.Trim
import StyleLift.Stylesheet.Uncommented

/-!
# Tokens without comments

Taking the comments out of a stretch of source is said here of tokens: what remains is a list
of tokens again, with a blank where two words have to stay apart, so it can be asked whether it
is read as it is.  The other half of the file is about positions: every character that is kept
belongs to a token, and cutting the kept characters behind one that is not blank cuts the tokens
as well.

* `bare`, `text_ofTokens`: the tokens that remain, and that their text is the remaining text.
* `commentSpans`: where the comments stand, and what the source holds there.
* `exists_cut_token`, `exists_cut`: a cut between kept characters is a cut between tokens, or goes
  through one of them.
* `fitsAll_bare`: where all comments have two ends, what remains is read as it is.
-/

namespace StyleLift.Stylesheet

open Uncommented (isSolid gap ofTokens)

/-- The first character of a list of tokens. -/
def firstChar (ts : List Token) : Option Char := ts.head?.bind fun t => t.text.head?

theorem firstChar_eq_head?_spelling {ts : List Token} (hts : ∀ t ∈ ts, t.text ≠ []) :
    firstChar ts = (spelling ts).head? := by
  cases ts with
  | nil => rfl
  | cons t ts =>
    rw [firstChar, spelling_cons, List.head?_append_of_ne_nil _ (hts t List.mem_cons_self)]
    rfl

/-- The tokens without comments, when `before` is the character kept last.  A comment between two
words leaves a blank. -/
def bare (before : Option Char) : List Token → List Token
  | [] => []
  | t :: ts =>
    if t.isComment then
      if isSolid before && isSolid (firstChar ts) then .glyph ' ' :: bare (some ' ') ts
      else bare before ts
    else t :: bare (t.text.getLast?.or before) ts

theorem bare_of_isComment {t : Token} (ht : t.isComment = true) (before : Option Char)
    (ts : List Token) : bare before (t :: ts) =
      if isSolid before && isSolid (firstChar ts) then .glyph ' ' :: bare (some ' ') ts
      else bare before ts := by
  rw [bare, if_pos ht]

theorem bare_of_not_isComment {t : Token} (ht : t.isComment = false) (before : Option Char)
    (ts : List Token) : bare before (t :: ts) = t :: bare (t.text.getLast?.or before) ts := by
  rw [bare, if_neg (by rw [ht]; decide)]

/-- Where there are no comments, all tokens remain. -/
theorem bare_eq_self {ts : List Token} (hts : ∀ t ∈ ts, t.isComment = false)
    (before : Option Char) : bare before ts = ts := by
  induction ts generalizing before with
  | nil => rfl
  | cons t ts ih =>
    rw [List.forall_mem_cons] at hts
    rw [bare_of_not_isComment hts.1, ih hts.2]

theorem bare_map_glyph (before : Option Char) (s : Text) :
    bare before (s.map .glyph) = s.map .glyph := by
  refine bare_eq_self ?_ before
  intro t ht
  obtain ⟨c, -, rfl⟩ := List.mem_map.1 ht
  rfl

/-! ## Kept characters -/

@[simp] theorem Placed.text_append (xs ys : List Placed) :
    Placed.text (xs ++ ys) = Placed.text xs ++ Placed.text ys :=
  List.map_append

@[simp] theorem Placed.text_ofText (offset : Nat) (s : Text) :
    Placed.text (Placed.ofText offset s) = s := by
  induction s generalizing offset with
  | nil => rfl
  | cons c s ih => exact congrArg (c :: ·) (ih (offset + 1))

theorem Placed.ofText_append (offset : Nat) (s t : Text) :
    Placed.ofText offset (s ++ t) =
      Placed.ofText offset s ++ Placed.ofText (offset + s.length) t := by
  induction s generalizing offset with
  | nil => rfl
  | cons c s ih =>
    rw [List.cons_append, Placed.ofText, ih, Placed.ofText, List.cons_append, List.length_cons,
      show offset + 1 + s.length = offset + (s.length + 1) by omega]

/-- The offset of the last character is that of the end. -/
theorem Placed.getLast?_ofText {offset : Nat} {s : Text} {p : Placed}
    (h : (Placed.ofText offset s).getLast? = some p) :
    p.offset + 1 = offset + s.length ∧ s.getLast? = some p.char := by
  rcases List.eq_nil_or_concat' s with rfl | ⟨s, c, rfl⟩
  · simp [Placed.ofText] at h
  · rw [Placed.ofText_append, Placed.ofText, Placed.ofText, List.getLast?_concat] at h
    obtain rfl := Option.some.inj h
    simp only [List.length_append, List.length_singleton, List.getLast?_concat]
    exact ⟨by omega, trivial⟩

theorem ofTokens_of_isComment {t : Token} (ht : t.isComment = true) (before : Option Char)
    (offset : Nat) (ts : List Token) :
    (ofTokens before offset (t :: ts)).kept = gap offset before (firstChar ts) ++
      (ofTokens (if (gap offset before (firstChar ts)).isEmpty then before else some ' ')
        (offset + t.text.length) ts).kept := by
  rw [ofTokens, if_pos ht]
  rfl

theorem ofTokens_of_not_isComment {t : Token} (ht : t.isComment = false) (before : Option Char)
    (offset : Nat) (ts : List Token) :
    (ofTokens before offset (t :: ts)).kept = Placed.ofText offset t.text ++
      (ofTokens (t.text.getLast?.or before) (offset + t.text.length) ts).kept := by
  rw [ofTokens, if_neg (by rw [ht]; decide)]

/-- **The remaining text is that of the remaining tokens.** -/
theorem text_ofTokens (before : Option Char) (offset : Nat) (ts : List Token) :
    (ofTokens before offset ts).text = spelling (bare before ts) := by
  induction ts generalizing before offset with
  | nil => rfl
  | cons t ts ih =>
    unfold Uncommented.text at ih ⊢
    cases ht : t.isComment with
    | true =>
      rw [ofTokens_of_isComment ht, bare_of_isComment ht, gap, Placed.text_append]
      split
      · exact congrArg (' ' :: ·) (ih (some ' ') _)
      · exact ih before _
    | false =>
      rw [ofTokens_of_not_isComment ht, bare_of_not_isComment ht, Placed.text_append, ih,
        Placed.text_ofText, spelling_cons]

/-! ## Blanks and comments in front -/

theorem isBlank_of_mem_gap {offset : Nat} {before after : Option Char} {p : Placed}
    (hp : p ∈ gap offset before after) : Text.isBlank p.char = true := by
  unfold gap at hp
  split at hp
  · obtain rfl := List.mem_singleton.1 hp
    exact (by decide : Text.isBlank ' ' = true)
  · simp at hp

/-- Blanks and comments in front leave only blanks. -/
theorem exists_kept_append_of_filler {lead : List Token} (hlead : ∀ t ∈ lead, t.isFiller = true)
    (before : Option Char) (offset : Nat) (ts : List Token) :
    ∃ blanks before', (∀ p ∈ blanks, Text.isBlank p.char = true) ∧
      (ofTokens before offset (lead ++ ts)).kept =
        blanks ++ (ofTokens before' (offset + (spelling lead).length) ts).kept := by
  induction lead generalizing before offset with
  | nil => exact ⟨[], before, by simp, rfl⟩
  | cons t lead ih =>
    rw [List.forall_mem_cons] at hlead
    obtain ⟨ht, hlead⟩ := hlead
    rw [spelling_cons, List.length_append, ← Nat.add_assoc]
    cases t with
    | comment s =>
      obtain ⟨blanks, before', hblanks, heq⟩ := ih hlead
        (if (gap offset before (firstChar (lead ++ ts))).isEmpty then before else some ' ')
        (offset + s.length)
      refine ⟨gap offset before (firstChar (lead ++ ts)) ++ blanks, before', ?_, ?_⟩
      · intro p hp
        rcases List.mem_append.1 hp with hp | hp
        · exact isBlank_of_mem_gap hp
        · exact hblanks p hp
      · rw [List.cons_append, ofTokens_of_isComment rfl, Token.text_comment, heq,
          List.append_assoc]
    | glyph c =>
      obtain ⟨blanks, before', hblanks, heq⟩ := ih hlead (some c) (offset + 1)
      refine ⟨⟨offset, c⟩ :: blanks, before', List.forall_mem_cons.2 ⟨ht, hblanks⟩, ?_⟩
      exact congrArg (_ :: ·) heq
    | quoted | interpolation | opening | closing | separator | unterminated =>
      exact absurd ht Bool.false_ne_true

/-- The same of the text that remains. -/
theorem exists_bare_append_of_filler {lead : List Token} (hlead : ∀ t ∈ lead, t.isFiller = true)
    (before : Option Char) (ts : List Token) :
    ∃ blanks before', Text.isBlankText blanks = true ∧
      spelling (bare before (lead ++ ts)) = blanks ++ spelling (bare before' ts) := by
  obtain ⟨blanks, before', hblanks, heq⟩ := exists_kept_append_of_filler hlead before 0 ts
  refine ⟨Placed.text blanks, before', ?_, ?_⟩
  · rw [Text.isBlankText, Placed.text, List.all_map, List.all_eq_true]
    exact hblanks
  · have htext := congrArg Placed.text heq
    rwa [Placed.text_append, ← Uncommented.text, ← Uncommented.text, text_ofTokens,
      text_ofTokens] at htext

/-- Only the blanks in front depend on the character kept before. -/
theorem exists_bare_eq_append {ts : List Token} (hts : ∀ t ∈ ts, t.text ≠ [])
    (before before' : Option Char) :
    ∃ b b' s, Text.isBlankText b = true ∧ Text.isBlankText b' = true ∧
      spelling (bare before ts) = b ++ s ∧ spelling (bare before' ts) = b' ++ s := by
  induction ts generalizing before before' with
  | nil => exact ⟨[], [], [], rfl, rfl, rfl, rfl⟩
  | cons t ts ih =>
    rw [List.forall_mem_cons] at hts
    cases ht : t.isComment with
    | true =>
      have hstep : ∀ b : Option Char, ∃ x c, Text.isBlankText x = true ∧
          spelling (bare b (t :: ts)) = x ++ spelling (bare c ts) := by
        intro b
        rw [bare_of_isComment ht]
        split
        · exact ⟨[' '], some ' ', by decide, rfl⟩
        · exact ⟨[], b, rfl, rfl⟩
      obtain ⟨x, c, hx, hc⟩ := hstep before
      obtain ⟨x', c', hx', hc'⟩ := hstep before'
      obtain ⟨b, b', s, hb, hb', hs, hs'⟩ := ih hts.2 c c'
      refine ⟨x ++ b, x' ++ b', s, Text.isBlankText_append.2 ⟨hx, hb⟩,
        Text.isBlankText_append.2 ⟨hx', hb'⟩, ?_, ?_⟩
      · rw [hc, hs, List.append_assoc]
      · rw [hc', hs', List.append_assoc]
    | false =>
      obtain ⟨c, hc⟩ := Option.isSome_iff_exists.1 (List.getLast?_isSome.2 hts.1)
      refine ⟨[], [], spelling (bare before (t :: ts)), rfl, rfl, rfl, ?_⟩
      rw [bare_of_not_isComment ht, bare_of_not_isComment ht, hc]
      rfl

/-! ## Positions of comments -/

/-- Where the comments of tokens stand that start at `offset`. -/
def commentSpans (offset : Nat) : List Token → List Span
  | [] => []
  | t :: ts =>
    if t.isComment then
      ⟨offset, offset + t.text.length⟩ :: commentSpans (offset + t.text.length) ts
    else commentSpans (offset + t.text.length) ts

theorem comments_ofTokens (before : Option Char) (offset : Nat) (ts : List Token) :
    (ofTokens before offset ts).comments = commentSpans offset ts := by
  induction ts generalizing before offset with
  | nil => rfl
  | cons t ts ih =>
    rw [ofTokens, commentSpans]
    split
    · exact congrArg (_ :: ·) (ih _ _)
    · exact ih _ _

theorem commentSpans_append (offset : Nat) (ts us : List Token) :
    commentSpans offset (ts ++ us) =
      commentSpans offset ts ++ commentSpans (offset + (spelling ts).length) us := by
  induction ts generalizing offset with
  | nil => rfl
  | cons t ts ih =>
    rw [List.cons_append, commentSpans, commentSpans, ih, spelling_cons, List.length_append,
      Nat.add_assoc]
    split <;> rfl

/-- Comments stand between the ends of the tokens, and none is empty. -/
theorem bounds_of_mem_commentSpans {offset : Nat} {ts : List Token} (hts : ∀ t ∈ ts, t.text ≠ [])
    {span : Span} (h : span ∈ commentSpans offset ts) :
    offset ≤ span.start ∧ span.start < span.stop ∧
      span.stop ≤ offset + (spelling ts).length := by
  induction ts generalizing offset with
  | nil => simp [commentSpans] at h
  | cons t ts ih =>
    rw [List.forall_mem_cons] at hts
    have htext := List.length_pos_iff.2 hts.1
    rw [spelling_cons, List.length_append]
    rw [commentSpans] at h
    split at h
    · rcases List.mem_cons.1 h with rfl | h
      · exact ⟨Nat.le_refl _, by simp only; omega, by simp only; omega⟩
      · have hrest := ih hts.2 h
        omega
    · have hrest := ih hts.2 h
      omega

/-- A source holds a piece where it stands. -/
theorem Span.slice_append (front piece back : Text) :
    Span.slice ⟨front.length, front.length + piece.length⟩ (front ++ piece ++ back) = piece := by
  rw [Span.slice, Nat.add_sub_cancel_left, List.append_assoc, List.drop_left, List.take_left]

/-- The source holds the comments where they stand. -/
theorem map_slice_commentSpans {source front back : Text} {ts : List Token}
    (hsource : source = front ++ spelling ts ++ back) :
    (commentSpans front.length ts).map (·.slice source) =
      (ts.filter Token.isComment).map Token.text := by
  induction ts generalizing front with
  | nil => rfl
  | cons t ts ih =>
    have hrest := @ih (front ++ t.text) (by simpa using hsource)
    rw [List.length_append] at hrest
    rw [commentSpans]
    split
    · rename_i ht
      rw [List.filter_cons_of_pos ht, List.map_cons, List.map_cons, hrest]
      refine congrArg (· :: _) ?_
      rw [hsource, spelling_cons, ← List.append_assoc front, List.append_assoc _ (spelling ts)]
      exact Span.slice_append front t.text (spelling ts ++ back)
    · rename_i ht
      rw [List.filter_cons_of_neg ht, hrest]

/-! ## Cutting between tokens -/

/-- The tokens of a statement that can hold no interpolation: no token is structure, and what is
not a comment is a string or one character. -/
def Token.Simple : Token → Prop
  | comment s => IsBlockComment s
  | quoted s => IsString s
  | glyph _ => True
  | _ => False

theorem IsString.exists_getLast? {s : Text} (h : IsString s) :
    ∃ q, (q = '"' ∨ q = '\'') ∧ s.getLast? = some q := by
  have hlast : ∀ (q : Char) (body : Text), closeQuote? q body = some (body, []) →
      body.getLast? = some q := by
    intro q body hbody
    fun_induction closeQuote? q body with
    | case1 => simp at hbody
    | case2 c s ih =>
      obtain ⟨⟨tail, rest⟩, htail, heq⟩ := Option.map_eq_some_iff.1 hbody
      simp only [Prod.mk.injEq, List.cons.injEq, true_and] at heq
      obtain ⟨rfl, rfl⟩ := heq
      have hs := ih htail
      rw [List.getLast?_cons, List.getLast?_cons, hs]
      rfl
    | case3 s =>
      simp only [Option.some.injEq, Prod.mk.injEq, List.cons.injEq, true_and] at hbody
      rw [hbody.2]
      rfl
    | case4 c s _ _ ih =>
      obtain ⟨tail, heq, htail⟩ := exists_of_map_cons_eq_some hbody
      obtain rfl := (List.cons.inj heq).2
      rw [List.getLast?_cons, ih htail]
      rfl
  rcases h with ⟨body, rfl, hbody⟩ | ⟨body, rfl, hbody⟩
  · exact ⟨'"', Or.inl rfl, by rw [List.getLast?_append, hlast _ _ hbody]; rfl⟩
  · exact ⟨'\'', Or.inr rfl, by rw [List.getLast?_append, hlast _ _ hbody]; rfl⟩

theorem Token.Simple.text_ne_nil {t : Token} (h : t.Simple) : t.text ≠ [] := by
  cases t with
  | comment s =>
    obtain ⟨body, rfl, -⟩ := h
    simp
  | quoted s =>
    obtain ⟨q, -, hq⟩ := IsString.exists_getLast? h
    rintro rfl
    simp at hq
  | glyph c => simp
  | interpolation | opening | closing | separator | unterminated => exact h.elim

/-- What is kept up to a token that is no comment does not depend on what follows. -/
theorem kept_append_cons {t : Token} (ht : t.isComment = false) {c : Char}
    (hc : t.text.getLast? = some c) (before : Option Char) (offset : Nat) (ts us : List Token) :
    (ofTokens before offset (ts ++ t :: us)).kept =
      (ofTokens before offset (ts ++ [t])).kept ++
        (ofTokens (some c) (offset + (spelling (ts ++ [t])).length) us).kept := by
  induction ts generalizing before offset with
  | nil =>
    rw [List.nil_append, List.nil_append, ofTokens_of_not_isComment ht,
      ofTokens_of_not_isComment ht, hc]
    simp [ofTokens]
  | cons u ts ih =>
    have hfirst : firstChar (ts ++ t :: us) = firstChar (ts ++ [t]) := by
      cases ts <;> rfl
    have hlength : offset + (spelling (u :: ts ++ [t])).length =
        offset + u.text.length + (spelling (ts ++ [t])).length := by
      rw [List.cons_append, spelling_cons, List.length_append, Nat.add_assoc]
    rw [hlength, List.cons_append, List.cons_append]
    cases hu : u.isComment with
    | true =>
      rw [ofTokens_of_isComment hu, ofTokens_of_isComment hu, hfirst, ih, List.append_assoc]
    | false =>
      rw [ofTokens_of_not_isComment hu, ofTokens_of_not_isComment hu, ih, List.append_assoc]

/-- The last token that is kept ends what is kept. -/
theorem exists_kept_concat {t : Token} (ht : t.isComment = false) (before : Option Char)
    (offset : Nat) (ts : List Token) :
    ∃ front, (ofTokens before offset (ts ++ [t])).kept =
      front ++ Placed.ofText (offset + (spelling ts).length) t.text := by
  induction ts generalizing before offset with
  | nil =>
    refine ⟨[], ?_⟩
    rw [List.nil_append, ofTokens_of_not_isComment ht]
    simp [ofTokens]
  | cons u ts ih =>
    rw [spelling_cons, List.length_append, ← Nat.add_assoc, List.cons_append]
    cases hu : u.isComment with
    | true =>
      rw [ofTokens_of_isComment hu]
      obtain ⟨front, hfront⟩ := ih (if (gap offset before (firstChar (ts ++ [t]))).isEmpty
        then before else some ' ') (offset + u.text.length)
      exact ⟨gap offset before (firstChar (ts ++ [t])) ++ front,
        by rw [hfront, List.append_assoc]⟩
    | false =>
      rw [ofTokens_of_not_isComment hu]
      obtain ⟨front, hfront⟩ := ih (u.text.getLast?.or before) (offset + u.text.length)
      exact ⟨Placed.ofText offset u.text ++ front, by rw [hfront, List.append_assoc]⟩

/-- **A cut between kept characters goes through one token at most.**  The first part ends in `p`,
which is not blank, so it ends in a token that is no comment, of which it keeps `cut`. -/
theorem exists_cut_token {ts : List Token} {before : Option Char} {offset : Nat}
    {first second : List Placed} {p : Placed}
    (h : (ofTokens before offset ts).kept = first ++ second) (hp : first.getLast? = some p)
    (hblank : Text.isBlank p.char = false) :
    ∃ us t vs cut behind, ts = us ++ t :: vs ∧ t.isComment = false ∧ t.text = cut ++ behind ∧
      cut ≠ [] ∧ behind <+: Placed.text second ∧
      ∀ x : Token, x.isComment = false → x.text = cut →
        (ofTokens before offset (us ++ [x])).kept = first := by
  induction ts generalizing before offset first with
  | nil =>
    rw [(List.append_eq_nil_iff.1 h.symm).1] at hp
    simp at hp
  | cons u ts ih =>
    have hne : first ≠ [] := by
      rintro rfl
      simp at hp
    cases hu : u.isComment with
    | true =>
      rw [ofTokens_of_isComment hu] at h
      -- the gap is blank, so the first part goes beyond it
      obtain ⟨first', hfirst, hp', hrest⟩ : ∃ first',
          first = gap offset before (firstChar ts) ++ first' ∧ first'.getLast? = some p ∧
          (ofTokens (if (gap offset before (firstChar ts)).isEmpty then before else some ' ')
            (offset + u.text.length) ts).kept = first' ++ second := by
        rcases List.append_eq_append_iff.1 h with ⟨first', hfirst, hrest⟩ | ⟨mid, hgap, -⟩
        · rcases List.eq_nil_or_concat' first' with rfl | ⟨xs, q, rfl⟩
          · rw [List.append_nil] at hfirst
            have hmem := List.mem_of_getLast? hp
            rw [hfirst] at hmem
            rw [isBlank_of_mem_gap hmem] at hblank
            exact absurd hblank (by decide)
          · refine ⟨xs ++ [q], hfirst, ?_, hrest⟩
            rw [hfirst, ← List.append_assoc, List.getLast?_concat] at hp
            rw [List.getLast?_concat, hp]
        · have hmem : p ∈ gap offset before (firstChar ts) := by
            rw [hgap]
            exact List.mem_append_left _ (List.mem_of_getLast? hp)
          rw [isBlank_of_mem_gap hmem] at hblank
          exact absurd hblank (by decide)
      obtain ⟨us, t, vs, cut, behind, rfl, ht, htext, hcut, hbehind, hkept⟩ := ih hrest hp'
      refine ⟨u :: us, t, vs, cut, behind, rfl, ht, htext, hcut, hbehind, ?_⟩
      intro x hx hxcut
      have hfirstChar : firstChar (us ++ [x]) = firstChar (us ++ t :: vs) := by
        cases us with
        | nil =>
          show x.text.head? = t.text.head?
          rw [htext, hxcut, List.head?_append_of_ne_nil _ hcut]
        | cons v us => rfl
      rw [List.cons_append, ofTokens_of_isComment hu, hfirstChar, hkept x hx hxcut, hfirst]
    | false =>
      rw [ofTokens_of_not_isComment hu] at h
      rcases List.append_eq_append_iff.1 h with ⟨first', hfirst, hrest⟩ | ⟨mid, htoken, hmid⟩
      · rcases List.eq_nil_or_concat' first' with rfl | ⟨xs, q, rfl⟩
        · rw [List.append_nil] at hfirst
          refine ⟨[], u, ts, u.text, [], rfl, hu, (List.append_nil _).symm, ?_,
            List.nil_prefix, ?_⟩
          · intro hnil
            rw [hfirst, hnil] at hne
            exact hne rfl
          · intro x hx hxcut
            rw [List.nil_append, ofTokens_of_not_isComment hx, hxcut, hfirst]
            exact List.append_nil _
        · rw [hfirst, ← List.append_assoc, List.getLast?_concat] at hp
          obtain ⟨us, t, vs, cut, behind, rfl, ht, htext, hcut, hbehind, hkept⟩ :=
            ih hrest (by rwa [List.getLast?_concat])
          refine ⟨u :: us, t, vs, cut, behind, rfl, ht, htext, hcut, hbehind, ?_⟩
          intro x hx hxcut
          rw [List.cons_append, ofTokens_of_not_isComment hu, hkept x hx hxcut, hfirst]
      · have htext : u.text = Placed.text first ++ Placed.text mid := by
          rw [← Placed.text_append, ← htoken, Placed.text_ofText]
        -- the part of the token in front of the cut stands where the token does
        have hplaced : Placed.ofText offset (Placed.text first) = first := by
          rw [htext, Placed.ofText_append] at htoken
          refine List.append_inj_left htoken ?_
          have hlength := congrArg List.length (Placed.text_ofText offset (Placed.text first))
          simpa [Placed.text] using hlength
        refine ⟨[], u, ts, Placed.text first, Placed.text mid, rfl, hu, htext,
          by simpa [Placed.text] using hne, ?_, ?_⟩
        · rw [hmid, Placed.text_append]
          exact List.prefix_append _ _
        · intro x hx hxcut
          rw [List.nil_append, ofTokens_of_not_isComment hx, hxcut, hplaced]
          exact List.append_nil _

/-- A cut before a text without quotes does not go through a token. -/
theorem Token.Simple.eq_nil_of_cut {t : Token} (ht : t.Simple) (hcomment : t.isComment = false)
    {cut behind : Text} (hcut : cut ≠ []) (hbehind : ∀ c ∈ behind, c ≠ '"' ∧ c ≠ '\'')
    (h : t.text = cut ++ behind) : behind = [] := by
  rcases List.eq_nil_or_concat' behind with rfl | ⟨behind, c, rfl⟩
  · rfl
  exfalso
  have hc := hbehind c (by simp)
  cases t with
  | quoted s =>
    obtain ⟨q, hq, hlast⟩ := IsString.exists_getLast? ht
    rw [show s = _ from h, ← List.append_assoc, List.getLast?_concat, Option.some.injEq] at hlast
    rcases hq with rfl | rfl
    · exact hc.1 hlast
    · exact hc.2 hlast
  | glyph d =>
    have hlength := congrArg List.length h
    have hpos := List.length_pos_iff.2 hcut
    simp at hlength
    omega
  | comment => exact absurd hcomment.symm Bool.false_ne_true
  | interpolation | opening | closing | separator | unterminated => exact ht.elim

/-- **A cut between kept characters is a cut between tokens.**  The first part ends in `p`, which
is not blank; no quote stands in the second. -/
theorem exists_cut {ts : List Token} (hts : ∀ t ∈ ts, t.Simple) {before : Option Char}
    {offset : Nat} {first second : List Placed} {p : Placed}
    (h : (ofTokens before offset ts).kept = first ++ second) (hp : first.getLast? = some p)
    (hblank : Text.isBlank p.char = false)
    (hsecond : ∀ q ∈ second, q.char ≠ '"' ∧ q.char ≠ '\'') :
    ∃ us t vs, ts = us ++ t :: vs ∧ t.isComment = false ∧
      (ofTokens before offset (us ++ [t])).kept = first := by
  obtain ⟨us, t, vs, cut, behind, rfl, ht, htext, hcut, hbehind, hkept⟩ :=
    exists_cut_token h hp hblank
  have hnil : behind = [] := by
    refine (hts t (by simp)).eq_nil_of_cut ht hcut ?_ htext
    intro c hc
    obtain ⟨q, hq, rfl⟩ := List.mem_map.1 (hbehind.subset hc)
    exact hsecond q hq
  exact ⟨us, t, vs, rfl, ht, hkept t ht (by rw [htext, hnil, List.append_nil])⟩

/-! ## Reading what remains

Where every comment has two ends, the only thing that can go wrong when one is taken out is that a
`/` or a `#` before it meets a character behind it that it takes with it. -/

theorem Token.Simple.isTerminated {t : Token} (ht : t.Simple) : t.isTerminated = true := by
  cases t with
  | comment | quoted | glyph => rfl
  | interpolation | opening | closing | separator | unterminated => exact ht.elim

theorem spelling_eq_nil_iff {ts : List Token} (hts : ∀ t ∈ ts, t.Simple) :
    spelling ts = [] ↔ ts = [] := by
  cases ts with
  | nil => exact ⟨fun _ => rfl, fun _ => rfl⟩
  | cons t ts =>
    rw [List.forall_mem_cons] at hts
    simp [hts.1.text_ne_nil]

/-- Behind a character that is not blank, the first thing that remains of a comment and what
follows it is blank. -/
theorem isAsciiBlank_of_bare_comment {before : Option Char} (hbefore : isSolid before = true)
    {t : Token} (ht : t.isComment = true) {ts : List Token} (hts : ∀ t ∈ ts, t.Simple) {c : Char}
    (hc : (spelling (bare before (t :: ts))).head? = some c) : Text.isAsciiBlank c = true := by
  rw [bare_of_isComment ht, hbefore, Bool.true_and] at hc
  split at hc
  · obtain rfl := Option.some.inj hc
    decide
  rename_i hfirst
  cases ts with
  | nil => simp [bare] at hc
  | cons u ts =>
    rw [List.forall_mem_cons] at hts
    have hu : u.isComment = false := by
      cases u with
      | comment s =>
        obtain ⟨body, rfl, -⟩ := hts.1
        exact absurd (by decide : isSolid (some '/') = true) hfirst
      | quoted | glyph => rfl
      | interpolation | opening | closing | separator | unterminated => exact hts.1.elim
    rw [bare_of_not_isComment hu, spelling_cons,
      List.head?_append_of_ne_nil _ hts.1.text_ne_nil] at hc
    rw [firstChar, List.head?_cons, Option.bind_some, hc, isSolid] at hfirst
    simpa using hfirst

/-- A token before a comment still fits when the comment is cut out.  The cases that matter are `/`
and `#`: whatever follows them then starts with no character that they could take with them. -/
theorem Token.Simple.fits_bare_comment {t : Token} (ht : t.Simple) (hkept : t.isComment = false)
    {lexis : Lexis} {depth : Nat} {next next' : Option Char} (h : t.Fits lexis depth next')
    {u : Token} (hu : u.isComment = true) {ts : List Token} (hts : ∀ t ∈ ts, t.Simple)
    (hnext : ∀ c, next = some c → c ≠ '*' ∧ c ≠ '/' ∧ c ≠ '{') (before : Option Char) :
    t.Fits lexis depth
      ((spelling (bare (t.text.getLast?.or before) (u :: ts))).head?.or next) := by
  cases t with
  | glyph c =>
    obtain ⟨hdouble, hsingle, hstructure, -, -⟩ := h
    have hbehind : Text.isAsciiBlank c = false → ∀ d,
        (spelling (bare ((Token.glyph c).text.getLast?.or before) (u :: ts))).head?.or next =
          some d → d ≠ '*' ∧ d ≠ '/' ∧ d ≠ '{' := by
      intro hc d hd
      rcases Option.or_eq_some_iff.1 hd with hd | ⟨-, hd⟩
      · have hblank := isAsciiBlank_of_bare_comment (by simp [isSolid, hc]) hu hts hd
        refine ⟨?_, ?_, ?_⟩ <;> rintro rfl <;> exact absurd hblank (by decide)
      · exact hnext d hd
    refine ⟨hdouble, hsingle, hstructure, ?_, ?_⟩
    · rintro rfl
      exact ⟨fun hd => (hbehind (by decide) _ hd).1 rfl,
        fun _ _ hd => (hbehind (by decide) _ hd).2.1 rfl⟩
    · rintro rfl - hd
      exact (hbehind (by decide) _ hd).2.2 rfl
  | quoted s => exact h
  | comment => exact absurd hkept.symm Bool.false_ne_true
  | interpolation | opening | closing | separator | unterminated => exact ht.elim

/-- **Without its comments a statement is read as what remains of its tokens.** -/
theorem fitsAll_bare {ts : List Token} (hts : ∀ t ∈ ts, t.Simple) {lexis : Lexis} {depth : Nat}
    {next : Option Char} (h : FitsAll lexis depth next ts)
    (hnext : ∀ c, next = some c → c ≠ '*' ∧ c ≠ '/' ∧ c ≠ '{') (before : Option Char) :
    FitsAll lexis depth next (bare before ts) := by
  induction ts generalizing before depth with
  | nil => trivial
  | cons t ts ih =>
    rw [List.forall_mem_cons] at hts
    obtain ⟨ht, hrest⟩ := h
    cases hcomment : t.isComment with
    | true =>
      have hdepth : t.depthAfter depth = depth := by
        cases t with
        | comment => rfl
        | quoted | glyph => exact absurd hcomment Bool.false_ne_true
        | interpolation | opening | closing | separator | unterminated => exact hts.1.elim
      rw [hdepth] at hrest
      rw [bare_of_isComment hcomment]
      split
      · exact ⟨Token.Plain.fits (t := .glyph ' ') (by decide : isPlain ' ' = true) _ _ _,
          ih hts.2 hrest _⟩
      · exact ih hts.2 hrest _
    | false =>
      rw [bare_of_not_isComment hcomment]
      refine ⟨?_, ih hts.2 hrest _⟩
      cases ts with
      | nil => exact ht
      | cons u ts =>
        cases hu : u.isComment with
        | false =>
          rw [bare_of_not_isComment hu]
          rw [List.forall_mem_cons] at hts
          have hne := hts.2.1.text_ne_nil
          rw [spelling_cons, List.head?_append_of_ne_nil _ hne] at ht ⊢
          exact ht
        | true =>
          rw [List.forall_mem_cons] at hts
          exact hts.1.fits_bare_comment hcomment ht hu hts.2.2 hnext before

/-- Comments open and close no parenthesis. -/
theorem finalDepth_bare {ts : List Token} (hts : ∀ t ∈ ts, t.Simple) (depth : Nat)
    (before : Option Char) : finalDepth depth (bare before ts) = finalDepth depth ts := by
  induction ts generalizing before depth with
  | nil => rfl
  | cons t ts ih =>
    rw [List.forall_mem_cons] at hts
    cases t with
    | comment s =>
      rw [bare_of_isComment rfl]
      split
      · exact ih hts.2 depth _
      · exact ih hts.2 depth _
    | quoted | glyph =>
      rw [bare_of_not_isComment rfl, finalDepth_cons, finalDepth_cons, ih hts.2]
    | interpolation | opening | closing | separator | unterminated => exact hts.1.elim

/-- No comment remains. -/
theorem of_mem_bare {ts : List Token} (hts : ∀ t ∈ ts, t.Simple) {before : Option Char}
    {t : Token} (h : t ∈ bare before ts) : t.Simple ∧ t.isComment = false := by
  induction ts generalizing before with
  | nil => simp [bare] at h
  | cons u ts ih =>
    rw [List.forall_mem_cons] at hts
    cases hu : u.isComment with
    | true =>
      rw [bare_of_isComment hu] at h
      split at h
      · rcases List.mem_cons.1 h with rfl | h
        · exact ⟨trivial, rfl⟩
        · exact ih hts.2 h
      · exact ih hts.2 h
    | false =>
      rw [bare_of_not_isComment hu] at h
      rcases List.mem_cons.1 h with rfl | h
      · exact ⟨hts.1, hu⟩
      · exact ih hts.2 h

end StyleLift.Stylesheet
