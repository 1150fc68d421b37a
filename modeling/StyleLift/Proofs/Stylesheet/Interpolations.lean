import StyleLift.Proofs.Stylesheet.Frames
import StyleLift.Proofs.Stylesheet.Placement
import StyleLift.Proofs.Stylesheet.Scanning

/-!
# Where the two readings of a value agree

The reader that looks for the end of a statement skips interpolations, and the reader that looks
for comments does not.  So an interpolation can hold what is a comment, a string or a parenthesis
for the second reader only, and that reader may then run past the brace that ends the
interpolation.  If it does not, for no interpolation of a value, then the second reading is the
first one with each interpolation replaced by its own tokens, and a cut behind the value is a cut
between tokens in both readings.

* `agrees`: the second reading ends every interpolation at its brace.
* `expand`, `fitsAll_expand`: the second reading, from the first one.
* `exists_cut_ofComments`: a cut behind a character that is kept is a cut between tokens of the
  second reading.
* `exists_written`: the tokens behind a colon are a gap, the value as it is written, and flags, in
  both readings.
-/

namespace StyleLift.Stylesheet

open Uncommented (gap ofTokens)

/-- Read for comments alone, an interpolation ends in its own brace, and leaves as many
parentheses open as there are before it. -/
def endsInBrace (depth : Nat) (s : Text) : Bool :=
  finalDepth depth (tokens (.ofComments .scss) depth s) == depth &&
    (tokens (.ofComments .scss) depth s).getLast?.map Token.text == some ['}']

/-- Nothing is unterminated, and every interpolation ends in its brace. -/
def agrees (depth : Nat) : List Token → Bool
  | [] => true
  | .interpolation s :: ts => endsInBrace depth s && agrees depth ts
  | t :: ts => t.isTerminated && agrees (t.depthAfter depth) ts

/-- The tokens with each interpolation replaced by the tokens that the comment reader finds in
it. -/
def expand (depth : Nat) : List Token → List Token
  | [] => []
  | .interpolation s :: ts => tokens (.ofComments .scss) depth s ++ expand depth ts
  | t :: ts => t :: expand (t.depthAfter depth) ts

theorem exists_of_endsInBrace {depth : Nat} {s : Text} (h : endsInBrace depth s = true) :
    finalDepth depth (tokens (.ofComments .scss) depth s) = depth ∧
      ∃ front last, tokens (.ofComments .scss) depth s = front ++ [last] ∧ last.text = ['}'] := by
  rw [endsInBrace, Bool.and_eq_true, beq_iff_eq, beq_iff_eq] at h
  obtain ⟨last, hlast, htext⟩ := Option.map_eq_some_iff.1 h.2
  obtain ⟨front, hfront⟩ := List.getLast?_eq_some_iff.1 hlast
  exact ⟨h.1, front, last, hfront, htext⟩

/-- A token either is an interpolation or stays as it is. -/
theorem agrees_cons {depth : Nat} {t : Token} {ts : List Token} :
    agrees depth (t :: ts) = true ↔
      (∀ s, t = .interpolation s → endsInBrace depth s = true) ∧ t.isTerminated = true ∧
        agrees (t.depthAfter depth) ts = true := by
  cases t with
  | interpolation s => simp [agrees, Token.isTerminated, Token.depthAfter]
  | comment | quoted | opening | closing | separator | glyph | unterminated => simp [agrees]

theorem expand_cons_of_ne {depth : Nat} {t : Token} (ht : ∀ s, t ≠ .interpolation s)
    (ts : List Token) : expand depth (t :: ts) = t :: expand (t.depthAfter depth) ts := by
  cases t with
  | interpolation s => exact absurd rfl (ht s)
  | comment | quoted | opening | closing | separator | glyph | unterminated => rfl

@[simp] theorem spelling_expand (depth : Nat) (ts : List Token) :
    spelling (expand depth ts) = spelling ts := by
  induction ts generalizing depth with
  | nil => rfl
  | cons t ts ih =>
    cases t with
    | interpolation s =>
      rw [expand, spelling_append, spelling_tokens, ih, spelling_cons, Token.text_interpolation]
    | comment | quoted | opening | closing | separator | glyph | unterminated =>
      rw [expand_cons_of_ne (by simp), spelling_cons, spelling_cons, ih]

theorem finalDepth_expand {depth : Nat} {ts : List Token} (h : agrees depth ts = true) :
    finalDepth depth (expand depth ts) = finalDepth depth ts := by
  induction ts generalizing depth with
  | nil => rfl
  | cons t ts ih =>
    rw [agrees_cons] at h
    cases t with
    | interpolation s =>
      rw [expand, finalDepth_append, (exists_of_endsInBrace (h.1 s rfl)).1]
      exact ih h.2.2
    | comment | quoted | opening | closing | separator | glyph | unterminated =>
      rw [expand_cons_of_ne (by simp), finalDepth_cons, finalDepth_cons, ih h.2.2]

/-! ## The second reading -/

section

variable {lexis : Lexis} {depth : Nat} {next : Option Char} {ts : List Token}

/-- A closing brace by itself fits before anything. -/
theorem Token.Fits.of_brace {t : Token} (h : t.Fits lexis depth none) (ht : t.text = ['}'])
    (next : Option Char) : t.Fits lexis depth next ∧ t.isTerminated = true := by
  cases t with
  | comment s =>
    rcases h with ⟨body, rfl, -⟩ | ⟨-, -, ⟨line, rfl, -⟩, -⟩ <;> simp at ht
  | quoted s => rcases h with ⟨body, rfl, -⟩ | ⟨body, rfl, -⟩ <;> simp at ht
  | interpolation s =>
    obtain ⟨-, body, rfl, -⟩ := h
    simp at ht
  | opening | separator => exact absurd ht (by decide)
  | closing => exact ⟨h, rfl⟩
  | glyph c =>
    obtain rfl : c = '}' := by simpa using ht
    obtain ⟨hdouble, hsingle, hstructure, -, -⟩ := h
    exact ⟨⟨hdouble, hsingle, hstructure, by simp, by simp⟩, rfl⟩
  | unterminated what s =>
    exfalso
    cases what with
    | comment =>
      obtain ⟨-, body, rfl, -⟩ := h
      simp at ht
    | string => obtain ⟨-, ⟨body, rfl, -⟩ | ⟨body, rfl, -⟩⟩ := h <;> simp at ht
    | interpolation =>
      obtain ⟨-, -, body, rfl, -⟩ := h
      simp at ht

/-- Only the last token can be unterminated. -/
theorem FitsAll.isTerminated_of_concat {last : Token}
    (h : FitsAll lexis depth next (ts ++ [last])) :
    ∀ t ∈ ts, t.isTerminated = true := by
  induction ts generalizing depth with
  | nil => simp
  | cons t ts ih =>
    refine List.forall_mem_cons.2 ⟨?_, ih h.2⟩
    cases t with
    | unterminated what s => exact absurd h.eq_nil_of_unterminated (by simp)
    | comment | quoted | interpolation | opening | closing | separator | glyph => rfl

end

/-- An interpolation that ends in its brace, as the second reader reads it before anything. -/
theorem fitsAll_of_endsInBrace {depth : Nat} {s : Text} (h : endsInBrace depth s = true)
    (next : Option Char) :
    FitsAll (.ofComments .scss) depth next (tokens (.ofComments .scss) depth s) ∧
      ∀ t ∈ tokens (.ofComments .scss) depth s, t.isTerminated = true := by
  obtain ⟨-, front, last, hread, hlast⟩ := exists_of_endsInBrace h
  have hfits := fitsAll_tokens (.ofComments .scss) depth s
  rw [hread] at hfits ⊢
  obtain ⟨hfront, hend, -⟩ := fitsAll_append.1 hfits
  obtain ⟨hend', hterminated⟩ := Token.Fits.of_brace hend hlast next
  refine ⟨fitsAll_append.2 ⟨?_, hend', trivial⟩, ?_⟩
  · rwa [spelling_cons, hlast] at hfront ⊢
  · exact List.forall_mem_append.2
      ⟨hfits.isTerminated_of_concat, List.forall_mem_singleton.2 hterminated⟩

/-- **The second reading is the first one, expanded.** -/
theorem fitsAll_expand {depth : Nat} {next : Option Char} {ts : List Token}
    (hfits : FitsAll (.ofStatements .scss) depth next ts) (h : agrees depth ts = true) :
    FitsAll (.ofComments .scss) depth next (expand depth ts) ∧
      ∀ t ∈ expand depth ts, t.isTerminated = true := by
  induction ts generalizing depth with
  | nil => exact ⟨trivial, by simp [expand]⟩
  | cons t ts ih =>
    rw [agrees_cons] at h
    obtain ⟨hrest, hall⟩ := ih hfits.2 h.2.2
    cases ht : t.isInterpolation with
    | true =>
      obtain ⟨s, rfl⟩ : ∃ s, t = .interpolation s := by
        cases t with
        | interpolation s => exact ⟨s, rfl⟩
        | unterminated => exact absurd h.2.1 Bool.false_ne_true
        | comment | quoted | opening | closing | separator | glyph =>
          exact absurd ht Bool.false_ne_true
      obtain ⟨hfirst, hfirst'⟩ := fitsAll_of_endsInBrace (h.1 s rfl)
        ((spelling (expand depth ts)).head?.or next)
      rw [expand, fitsAll_append, (exists_of_endsInBrace (h.1 s rfl)).1]
      exact ⟨⟨hfirst, hrest⟩, List.forall_mem_append.2 ⟨hfirst', hall⟩⟩
    | false =>
      have hne : ∀ s, t ≠ .interpolation s := by
        rintro s rfl
        exact absurd ht.symm Bool.false_ne_true
      rw [expand_cons_of_ne hne]
      refine ⟨⟨?_, hrest⟩, List.forall_mem_cons.2 ⟨h.2.1, hall⟩⟩
      rw [spelling_expand]
      exact hfits.1.ofComments ht

/-! ## Cutting the second reading -/

/-- Of a comment nothing is kept that is not blank. -/
theorem offset_of_mem_kept_of_comment {ts us : List Token} {y : Token} (hy : y.isComment = true)
    (htexts : ∀ t ∈ ts ++ y :: us, t.text ≠ []) {before : Option Char} {offset : Nat} {p : Placed}
    (hp : p ∈ (ofTokens before offset (ts ++ y :: us)).kept)
    (hblank : Text.isBlank p.char = false) :
    p.offset < offset + (spelling ts).length ∨
      offset + (spelling ts).length + y.text.length ≤ p.offset := by
  have hgap : ∀ {offset : Nat} {before after : Option Char}, p ∉ gap offset before after := by
    intro offset before after hmem
    exact absurd ((isBlank_of_mem_gap hmem).symm.trans hblank) (by decide)
  induction ts generalizing before offset with
  | nil =>
    rw [List.nil_append, List.forall_mem_cons] at htexts
    rw [List.nil_append, ofTokens_of_isComment hy] at hp
    rcases List.mem_append.1 hp with hp | hp
    · exact absurd hp hgap
    · exact Or.inr (offset_of_mem_kept htexts.2 hp).1
  | cons u ts ih =>
    rw [List.cons_append, List.forall_mem_cons] at htexts
    rw [spelling_cons, List.length_append, ← Nat.add_assoc]
    rw [List.cons_append] at hp
    cases hu : u.isComment with
    | true =>
      rw [ofTokens_of_isComment hu] at hp
      rcases List.mem_append.1 hp with hp | hp
      · exact absurd hp hgap
      · exact ih htexts.2 hp
    | false =>
      rw [ofTokens_of_not_isComment hu] at hp
      rcases List.mem_append.1 hp with hp | hp
      · have hplace := Placed.offset_of_mem_ofText hp
        exact Or.inl (by omega)
      · exact ih htexts.2 hp

/-- A token at the end of a text is read as it is before more text, or it becomes part of a
comment. -/
theorem fits_or_comment {x : Token} {depth : Nat} (h : x.Fits (.ofComments .scss) depth none)
    (hx : x.isTerminated = true) (rest : Text) :
    x.Fits (.ofComments .scss) depth rest.head? ∨
      ∃ y ys, y.isComment = true ∧ x.text.length ≤ y.text.length ∧
        tokens (.ofComments .scss) depth (x.text ++ rest) = y :: ys := by
  cases x with
  | comment s =>
    rcases h with hblock | ⟨-, rfl, ⟨line, rfl, hline⟩, -⟩
    · exact Or.inl (Or.inl hblock)
    · by_cases hrest : ∀ c, rest.head? = some c → c = '\n'
      · exact Or.inl (Or.inr ⟨rfl, rfl, ⟨line, rfl, hline⟩, hrest⟩)
      · refine Or.inr ⟨.comment ('/' :: ('/' :: (line ++ rest)).takeWhile (· != '\n')), _, rfl, ?_,
          by rw [Token.text_comment, List.cons_append, List.cons_append, tokens_cons]; rfl⟩
        have hpos : ∀ c ∈ '/' :: line, (c != '\n') = true := by
          intro c hc
          rw [bne_iff_ne]
          rintro rfl
          rcases List.mem_cons.1 hc with h | h
          · exact absurd h (by decide)
          · exact hline h
        rw [← List.cons_append, List.takeWhile_append_of_pos hpos]
        simp
  | glyph c =>
    obtain ⟨hdouble, hsingle, hstructure, -, -⟩ := h
    by_cases hc : c = '/'
    · subst hc
      cases rest with
      | nil => exact Or.inl ⟨hdouble, hsingle, hstructure, by simp, by simp⟩
      | cons d rest =>
        by_cases hstar : d = '*'
        · subst hstar
          refine Or.inr ⟨(enclosed .comment .comment ['/', '*'] rest closeComment?).1, _, ?_, ?_,
            tokens_cons _ _ _ _⟩
          · unfold enclosed
            split <;> rfl
          · unfold enclosed
            split <;> simp
        by_cases hline : d = '/' ∧ depth = 0
        · obtain ⟨rfl, rfl⟩ := hline
          exact Or.inr ⟨.comment ('/' :: ('/' :: rest).takeWhile (· != '\n')), _, rfl, by simp,
            tokens_cons _ _ _ _⟩
        · refine Or.inl ⟨hdouble, hsingle, hstructure, fun _ => ⟨?_, fun _ hdepth hnext => ?_⟩,
            fun h => absurd h (by decide)⟩
          · exact fun h => hstar (Option.some.inj h)
          · exact hline ⟨Option.some.inj hnext, hdepth⟩
    · exact Or.inl ⟨hdouble, hsingle, hstructure, fun h => absurd h hc,
        fun _ hlexis => absurd hlexis Bool.false_ne_true⟩
  | quoted | interpolation | opening | closing | separator => exact Or.inl h
  | unterminated => exact absurd hx Bool.false_ne_true

/-- Of characters in order, those up to `p` stand up to its place and the others behind it. -/
theorem bounds_of_pairwise_append {first second : List Placed} {p : Placed}
    (h : (first ++ second).Pairwise (·.offset < ·.offset)) (hp : first.getLast? = some p) :
    (∀ q ∈ first, q.offset < p.offset + 1) ∧ ∀ q ∈ second, p.offset + 1 ≤ q.offset := by
  obtain ⟨front, rfl⟩ := List.getLast?_eq_some_iff.1 hp
  obtain ⟨hfirst, -, hacross⟩ := List.pairwise_append.1 h
  obtain ⟨-, -, hlast⟩ := List.pairwise_append.1 hfirst
  refine ⟨?_, fun q hq => hacross p (by simp) q hq⟩
  intro q hq
  rcases List.mem_append.1 hq with hq | hq
  · exact Nat.lt_succ_of_lt (hlast q hq p (by simp))
  · rw [List.mem_singleton.1 hq]
    exact Nat.lt_succ_self _

/-- Characters in order are cut in one way at a place. -/
theorem eq_of_append_eq_append_of_offset {xs ys us vs : List Placed} {stop : Nat}
    (h : xs ++ ys = us ++ vs) (hxs : ∀ p ∈ xs, p.offset < stop) (hys : ∀ p ∈ ys, stop ≤ p.offset)
    (hus : ∀ p ∈ us, p.offset < stop) (hvs : ∀ p ∈ vs, stop ≤ p.offset) : xs = us ∧ ys = vs := by
  have hfilter : ∀ {as bs : List Placed}, (∀ p ∈ as, p.offset < stop) →
      (∀ p ∈ bs, stop ≤ p.offset) → (as ++ bs).filter (fun p => p.offset < stop) = as := by
    intro as bs has hbs
    rw [List.filter_append, List.filter_eq_self.2 (by simpa using has),
      List.filter_eq_nil_iff.2 (by simpa using hbs), List.append_nil]
  have hfirst : xs = us := by
    rw [← hfilter hxs hys, h, hfilter hus hvs]
  subst hfirst
  exact ⟨rfl, List.append_cancel_left h⟩

section

variable {written rest : Text} {start : Nat} {first second : List Placed} {p : Placed}
  (hkept : (ofTokens none start (tokens (.ofComments .scss) 0 (written ++ rest))).kept =
    first ++ second)
  (hp : first.getLast? = some p) (hblank : Text.isBlank p.char = false)
  (hplace : start + written.length = p.offset + 1)
  (hwritten : ∀ t ∈ tokens (.ofComments .scss) 0 written, t.isTerminated = true)
include hkept hp hblank hplace hwritten

/-- The first part of what is kept ends in `p`, which is not blank, and `written` is the text up to
there.  So `written` ends in a token that is no comment, whatever follows it. -/
theorem exists_last_ofComments : ∃ us x, tokens (.ofComments .scss) 0 written = us ++ [x] ∧
    x.isComment = false ∧ FitsAll (.ofComments .scss) 0 rest.head? (us ++ [x]) := by
  have hmem : p ∈ first ++ second := List.mem_append_left _ (List.mem_of_getLast? hp)
  have hne := (fitsAll_tokens (.ofComments .scss) 0 (written ++ rest)).text_ne_nil
  have hbounds := offset_of_mem_kept hne (hkept ▸ hmem)
  rcases List.eq_nil_or_concat' (tokens (.ofComments .scss) 0 written) with hnil | ⟨us, x, hus⟩
  · have hspelling := congrArg spelling hnil
    rw [spelling_tokens] at hspelling
    rw [hspelling] at hplace
    simp only [spelling_nil, List.length_nil] at hplace
    omega
  have hfits := fitsAll_tokens (.ofComments .scss) 0 written
  have hspelling : written = spelling us ++ x.text := by
    have h := congrArg spelling hus
    rw [spelling_tokens] at h
    simpa using h
  rw [hus] at hfits hwritten
  obtain ⟨hfront, hlast, -⟩ := fitsAll_append.1 hfits
  have hx : x.text ≠ [] := hlast.text_ne_nil
  have hread : tokens (.ofComments .scss) 0 (written ++ rest) =
      us ++ tokens (.ofComments .scss) (finalDepth 0 us) (x.text ++ rest) := by
    rw [hspelling, List.append_assoc]
    refine tokens_spelling_append ?_
    rw [List.head?_append_of_ne_nil _ hx]
    simpa using hfront
  -- a comment would take `p` away
  have hsolid : ∀ y ys, tokens (.ofComments .scss) (finalDepth 0 us) (x.text ++ rest) = y :: ys →
      x.text.length ≤ y.text.length → y.isComment = false := by
    intro y ys hy hle
    by_contra hcomment
    rw [hread, hy] at hkept hne
    have hoffset := offset_of_mem_kept_of_comment (by simpa using hcomment) hne (hkept ▸ hmem) hblank
    have hpos := List.length_pos_iff.2 hx
    rw [hspelling, List.length_append] at hplace
    omega
  have hnext : x.Fits (.ofComments .scss) (finalDepth 0 us) rest.head? := by
    rcases fits_or_comment hlast (hwritten x (by simp)) rest with h | ⟨y, ys, hy, hle, hys⟩
    · exact h
    · exact absurd (hy.symm.trans (hsolid y ys hys hle)) (by decide)
  have hall : FitsAll (.ofComments .scss) 0 rest.head? (us ++ [x]) := by
    refine fitsAll_append.2 ⟨?_, hnext, trivial⟩
    rw [spelling_cons, spelling_nil, List.append_nil] at hfront ⊢
    obtain ⟨c, s, hs⟩ := List.exists_cons_of_ne_nil hx
    rwa [hs] at hfront ⊢
  have hwhole := tokens_spelling_append hall
  rw [← hus, spelling_tokens, hus, List.append_assoc, List.singleton_append] at hwhole
  exact ⟨us, x, hus, hsolid x _ (List.append_cancel_left (hread.symm.trans hwhole)) (Nat.le_refl _),
    hall⟩

/-- **A cut behind a kept character is a cut between tokens.** -/
theorem exists_cut_ofComments :
    FitsAll (.ofComments .scss) 0 rest.head? (tokens (.ofComments .scss) 0 written) ∧
    (ofTokens none start (tokens (.ofComments .scss) 0 written)).kept = first ∧
    ∃ c, (ofTokens (some c) (start + written.length) (tokens (.ofComments .scss)
      (finalDepth 0 (tokens (.ofComments .scss) 0 written)) rest)).kept = second := by
  obtain ⟨us, x, hus, hcomment, hall⟩ :=
    exists_last_ofComments hkept hp hblank hplace hwritten
  have hlength := congrArg List.length (spelling_tokens (.ofComments .scss) 0 written)
  have hwhole := tokens_spelling_append hall
  rw [← hus, spelling_tokens] at hwhole
  rw [hus] at hwhole hlength ⊢
  have hx : x.text ≠ [] := hall.text_ne_nil x (by simp)
  obtain ⟨c, hc⟩ := Option.isSome_iff_exists.1 (List.getLast?_isSome.2 hx)
  have hsplit := kept_append_cons hcomment hc none start us
    (tokens (.ofComments .scss) (finalDepth 0 (us ++ [x])) rest)
  rw [List.append_cons, ← hwhole, hkept, hlength] at hsplit
  -- both cuts are at the same place
  have hne := (fitsAll_tokens (.ofComments .scss) 0 (written ++ rest)).text_ne_nil
  have hsorted := pairwise_kept hne none start
  rw [hkept] at hsorted
  obtain ⟨hfirst, hsecond⟩ := bounds_of_pairwise_append hsorted hp
  rw [← hplace] at hfirst hsecond
  have hrestNe := (fitsAll_tokens (.ofComments .scss) (finalDepth 0 (us ++ [x])) rest).text_ne_nil
  obtain ⟨heq, heq'⟩ := eq_of_append_eq_append_of_offset hsplit hfirst hsecond
    (fun q hq => by
      have hq' := (offset_of_mem_kept hall.text_ne_nil hq).2
      rwa [hlength] at hq')
    (fun q hq => (offset_of_mem_kept hrestNe hq).1)
  exact ⟨hall, heq.symm, c, heq'.symm⟩

end

/-! ## Back to the first reading -/

/-- What the second reading takes as it is before `next`, the first one does, unless `next` could
make an interpolation of a `#`. -/
theorem fitsAll_of_expand {depth : Nat} {next : Option Char} {ts : List Token}
    (hend : FitsAll (.ofStatements .scss) depth none ts) (hagrees : agrees depth ts = true)
    (h : FitsAll (.ofComments .scss) depth next (expand depth ts)) (hnext : next ≠ some '{') :
    FitsAll (.ofStatements .scss) depth next ts := by
  induction ts generalizing depth with
  | nil => trivial
  | cons t ts ih =>
    rw [agrees_cons] at hagrees
    rw [fitsAll_cons] at hend ⊢
    cases t with
    | interpolation s =>
      rw [expand, fitsAll_append, (exists_of_endsInBrace (hagrees.1 s rfl)).1] at h
      exact ⟨hend.1, ih hend.2 hagrees.2.2 h.2⟩
    | comment | quoted | opening | closing | separator =>
      rw [expand_cons_of_ne (by simp), fitsAll_cons, spelling_expand] at h
      exact ⟨h.1, ih hend.2 hagrees.2.2 h.2⟩
    | glyph c =>
      rw [expand_cons_of_ne (by simp), fitsAll_cons, spelling_expand] at h
      obtain ⟨⟨hdouble, hsingle, hstructure, hslash, -⟩, hrest⟩ := h
      refine ⟨⟨hdouble, hsingle, hstructure, hslash, fun hc _ hbrace => ?_⟩,
        ih hend.2 hagrees.2.2 hrest⟩
      rcases Option.or_eq_some_iff.1 hbrace with hbrace | ⟨-, hbrace⟩
      · exact hend.1.2.2.2.2 hc rfl (by rw [hbrace]; rfl)
      · exact hnext hbrace
    | unterminated => exact absurd hagrees.2.1 Bool.false_ne_true

/-- Comments, ended or not, and plain characters. -/
def Token.isQuiet : Token → Bool
  | .comment _ => true
  | .unterminated .comment _ => true
  | .glyph c => isPlain c
  | _ => false

section

variable {lexis : Lexis} {depth : Nat} {next : Option Char} {t : Token} {ts : List Token}

/-- A token of which only plain characters are kept is quiet. -/
theorem Token.Fits.isQuiet (hfits : t.Fits lexis depth next) (hlexis : lexis.interpolations = false)
    (h : t.isComment = false → ∀ c ∈ t.text, isPlain c = true) : t.isQuiet = true := by
  have hspecial : ∀ c ∈ t.text, isPlain c = false → t.isComment = true := by
    intro c hc hplain
    by_contra hcomment
    exact absurd (hplain.symm.trans (h (by simpa using hcomment) c hc)) (by decide)
  cases t with
  | comment s => rfl
  | glyph c => exact h rfl c (by simp)
  | quoted s =>
    rcases hfits with ⟨body, rfl, -⟩ | ⟨body, rfl, -⟩
    · exact absurd (hspecial '"' (by simp) (by decide)) Bool.false_ne_true
    · exact absurd (hspecial '\'' (by simp) (by decide)) Bool.false_ne_true
  | interpolation s => exact absurd (hlexis.symm.trans hfits.1) Bool.false_ne_true
  | opening => exact absurd (hspecial '{' (by simp) (by decide)) Bool.false_ne_true
  | closing => exact absurd (hspecial '}' (by simp) (by decide)) Bool.false_ne_true
  | separator => exact absurd (hspecial ';' (by simp) (by decide)) Bool.false_ne_true
  | unterminated what s =>
    cases what with
    | comment => rfl
    | string =>
      obtain ⟨-, ⟨body, rfl, -⟩ | ⟨body, rfl, -⟩⟩ := hfits
      · exact absurd (hspecial '"' (by simp) (by decide)) Bool.false_ne_true
      · exact absurd (hspecial '\'' (by simp) (by decide)) Bool.false_ne_true
    | interpolation => exact absurd (hlexis.symm.trans hfits.2.1) Bool.false_ne_true

/-- Quiet tokens open and close no parenthesis. -/
theorem Token.depthAfter_of_isQuiet (h : t.isQuiet = true) (depth : Nat) :
    t.depthAfter depth = depth := by
  cases t with
  | glyph c => exact Token.Plain.depthAfter_eq (t := .glyph c) h depth
  | comment | quoted | interpolation | opening | closing | separator | unterminated => rfl

/-- Quiet tokens make no interpolation of a `#` before them. -/
theorem head?_spelling_ne_brace (hfits : FitsAll lexis depth next ts)
    (h : ∀ t ∈ ts, t.isQuiet = true) : (spelling ts).head? ≠ some '{' := by
  cases ts with
  | nil => simp
  | cons t ts =>
    intro hbrace
    have ht := hfits.1
    have hquiet := h t List.mem_cons_self
    cases t with
    | comment s =>
      rcases ht with ⟨body, rfl, -⟩ | ⟨-, -, ⟨line, rfl, -⟩, -⟩ <;>
        exact absurd (Option.some.inj hbrace) (by decide)
    | unterminated what s =>
      cases what with
      | comment =>
        obtain ⟨-, body, rfl, -⟩ := ht
        exact absurd (Option.some.inj hbrace) (by decide)
      | string | interpolation => exact absurd hquiet Bool.false_ne_true
    | glyph c =>
      obtain rfl : c = '{' := Option.some.inj hbrace
      exact absurd hquiet (by decide)
    | quoted | interpolation | opening | closing | separator =>
      exact absurd hquiet Bool.false_ne_true

end

/-- **Flags and comments are read alike in both readings.** -/
theorem FitsAll.ofStatements_of_flagTail {depth : Nat} {next : Option Char} {ts : List Token}
    (hfits : FitsAll (.ofComments .scss) depth next ts) {before : Option Char}
    (h : FlagTail (spelling (bare before ts))) :
    FitsAll (.ofStatements .scss) depth next ts ∧ ∀ t ∈ ts, t.isQuiet = true := by
  have hplain : ∀ t ∈ ts, t.isComment = false → ∀ c ∈ t.text, isPlain c = true :=
    fun t ht hcomment c hc => h.isPlain c
      (List.mem_flatMap.2 ⟨t, mem_bare_of_not_isComment ht hcomment before, hc⟩)
  clear h
  induction ts generalizing depth with
  | nil => exact ⟨trivial, by simp⟩
  | cons t ts ih =>
    rw [List.forall_mem_cons] at hplain
    have hquiet := hfits.1.isQuiet rfl hplain.1
    obtain ⟨hrest, hall⟩ := ih hfits.2 hplain.2
    refine ⟨⟨?_, hrest⟩, List.forall_mem_cons.2 ⟨hquiet, hall⟩⟩
    have hfit := hfits.1
    cases t with
    | comment s => exact hfit
    | glyph c => exact Token.Plain.fits (t := .glyph c) hquiet _ _ _
    | unterminated what s =>
      cases what with
      | comment => exact hfit
      | string | interpolation => exact absurd hquiet Bool.false_ne_true
    | quoted | interpolation | opening | closing | separator =>
      exact absurd hquiet Bool.false_ne_true

/-- The first token of the second reading of a value is kept, and starts with no blank. -/
theorem exists_first_ofComments {t : Token} {ts : List Token}
    (hfits : FitsAll (.ofStatements .scss) 0 none (t :: ts)) (ht : t.isFiller = false)
    (hinside : Stop.ofToken? t = none) :
    ∃ u us, tokens (.ofComments .scss) 0 (spelling (t :: ts)) = u :: us ∧ u.isComment = false ∧
      ∃ c s, u.text = c :: s ∧ Text.isBlank c = false := by
  have hsame : t.isInterpolation = false →
      ∃ us, tokens (.ofComments .scss) 0 (spelling (t :: ts)) = t :: us := by
    intro hnone
    have hfit := hfits.1.ofComments hnone
    rw [Option.or_none] at hfit
    have hfit' : FitsAll (.ofComments .scss) 0 (spelling ts).head? [t] := ⟨hfit, trivial⟩
    have hread := tokens_spelling_append hfit'
    rw [← spelling_append, List.singleton_append] at hread
    exact ⟨_, hread⟩
  cases t with
  | interpolation s =>
    obtain ⟨-, body, rfl, -⟩ := hfits.1
    exact ⟨.glyph '#', _, tokens_cons _ _ _ _, rfl, '#', [], rfl, by decide⟩
  | quoted s =>
    obtain ⟨us, hus⟩ := hsame rfl
    rcases hfits.1 with ⟨body, rfl, -⟩ | ⟨body, rfl, -⟩
    · exact ⟨_, us, hus, rfl, '"', body, rfl, by decide⟩
    · exact ⟨_, us, hus, rfl, '\'', body, rfl, by decide⟩
  | glyph c =>
    obtain ⟨us, hus⟩ := hsame rfl
    exact ⟨_, us, hus, rfl, c, [], rfl, ht⟩
  | comment => exact absurd ht.symm Bool.false_ne_true
  | opening | closing | separator | unterminated => simp [Stop.ofToken?] at hinside

/-! ## The value as it is written -/

/-- Behind a colon the two readings start with the same gap, and what is kept of the value starts
behind it. -/
theorem exists_gap {tail : Text} (start : Nat)
    (hinside : ∀ t ∈ tokens (.ofStatements .scss) 0 tail, Stop.ofToken? t = none)
    (hne : keptValue .scss start tail ≠ []) :
    ∃ gap mid, tokens (.ofStatements .scss) 0 tail = gap ++ tokens (.ofStatements .scss) 0 mid ∧
      tokens (.ofComments .scss) 0 tail = gap ++ tokens (.ofComments .scss) 0 mid ∧
      (∀ t ∈ gap, t.isFiller = true) ∧
      keptValue .scss start tail =
        (ofTokens none (start + (spelling gap).length) (tokens (.ofComments .scss) 0 mid)).kept ∧
      ∃ c, mid.head? = some c ∧ Text.isBlank c = false ∧
        (keptValue .scss start tail).head? = some ⟨start + (spelling gap).length, c⟩ := by
  have hfits := fitsAll_tokens (.ofStatements .scss) 0 tail
  have hsplit := List.takeWhile_append_dropWhile (p := Token.isFiller)
    (l := tokens (.ofStatements .scss) 0 tail)
  have hgap : ∀ t ∈ (tokens (.ofStatements .scss) 0 tail).takeWhile Token.isFiller,
      t.isFiller = true := fun t ht => List.mem_takeWhile_imp ht
  rw [← hsplit] at hfits
  have hcomments := tokens_ofComments_filler hgap hfits
  rw [hsplit, spelling_tokens] at hcomments
  obtain ⟨blanks, before, hblanks, hkept⟩ := exists_kept_append_of_filler hgap none start
    (tokens (.ofComments .scss) 0
      (spelling ((tokens (.ofStatements .scss) 0 tail).dropWhile Token.isFiller)))
  rw [← hcomments] at hkept
  rw [keptValue, Uncommented.ofText, hkept, List.dropWhile_append_of_pos hblanks] at hne ⊢
  cases hmid : (tokens (.ofStatements .scss) 0 tail).dropWhile Token.isFiller with
  | nil =>
    rw [hmid] at hne
    exact absurd (by simp [ofTokens]) hne
  | cons t ts =>
    have hfiller := isFiller_of_dropWhile_eq_cons hmid
    rw [hmid] at hfits hcomments hsplit
    have hread := (fitsAll_append.1 hfits).2
    rw [finalDepth_of_filler hgap] at hread
    obtain ⟨u, us, hus, hcomment, c, s, htext, hc⟩ := exists_first_ofComments hread hfiller
      (hinside t (by rw [← hsplit]; simp))
    have hhead : (spelling (t :: ts)).head? = some c := by
      rw [← spelling_tokens (.ofComments .scss) 0 (spelling (t :: ts)), hus, spelling_cons, htext]
      rfl
    refine ⟨_, spelling (t :: ts), ?_, hcomments, hgap, ?_, c, hhead, hc, ?_⟩
    · rw [tokens_spelling hread, hsplit]
    · rw [hus, dropWhile_kept_cons hcomment htext hc]
    · rw [hus, dropWhile_kept_cons hcomment htext hc, head?_kept_cons hcomment htext]

/-- Where the two readings of what is written agree, they agree on what follows it too, if this is
flags. -/
theorem exists_flags {written rest : Text} {start : Nat} {first second : List Placed} {p : Placed}
    (hkept : (ofTokens none start (tokens (.ofComments .scss) 0 (written ++ rest))).kept =
      first ++ second)
    (hp : first.getLast? = some p) (hblank : Text.isBlank p.char = false)
    (hplace : start + written.length = p.offset + 1)
    (hagrees : agrees 0 (tokens (.ofStatements .scss) 0 written) = true)
    (hsecond : FlagTail (Placed.text second)) :
    ∃ flags, tokens (.ofStatements .scss) 0 (written ++ rest) =
        tokens (.ofStatements .scss) 0 written ++ flags ∧
      tokens (.ofComments .scss) 0 (written ++ rest) =
        expand 0 (tokens (.ofStatements .scss) 0 written) ++ flags ∧
      (∀ t ∈ flags, t.isQuiet = true) ∧
      ∃ before, FlagTail (spelling (bare before flags)) := by
  have hend := fitsAll_tokens (.ofStatements .scss) 0 written
  obtain ⟨hexpand, hterminated⟩ := fitsAll_expand hend hagrees
  have hread : tokens (.ofComments .scss) 0 written =
      expand 0 (tokens (.ofStatements .scss) 0 written) := by
    rw [← tokens_spelling hexpand, spelling_expand, spelling_tokens]
  obtain ⟨hfits, -, c, hrest⟩ := exists_cut_ofComments hkept hp hblank hplace
    (by rw [hread]; exact hterminated)
  rw [hread] at hfits hrest
  rw [← hrest, ← Uncommented.text, text_ofTokens] at hsecond
  obtain ⟨hflags, hplain⟩ := (fitsAll_tokens (.ofComments .scss) _ rest).ofStatements_of_flagTail
    hsecond
  have hwhole := tokens_spelling_append hfits
  rw [spelling_expand, spelling_tokens] at hwhole
  have hbrace := head?_spelling_ne_brace hflags hplain
  rw [spelling_tokens] at hbrace
  have hstatements := tokens_spelling_append (fitsAll_of_expand hend hagrees hfits hbrace)
  have hsame := tokens_spelling hflags
  rw [spelling_tokens] at hstatements hsame
  refine ⟨_, ?_, hwhole, hplain, _, hsecond⟩
  rw [hstatements, ← finalDepth_expand hagrees, hsame]

/-- **The tokens behind a colon are a gap, the value as it is written, and flags,** in both
readings. -/
theorem exists_written {source front tail after : Text} (hsource : source = front ++ tail ++ after)
    (hinside : ∀ t ∈ tokens (.ofStatements .scss) 0 tail, Stop.ofToken? t = none) {span : Span}
    (hspan : Placed.span? ((keptValue .scss front.length tail).take
      (withoutFlags (Placed.text (keptValue .scss front.length tail))).length) = some span)
    (hagrees : agrees 0 (tokens (.ofStatements .scss) 0 (span.slice source)) = true) :
    ∃ gap value flags, tokens (.ofStatements .scss) 0 tail = gap ++ value ++ flags ∧
      tokens (.ofComments .scss) 0 tail = gap ++ expand 0 value ++ flags ∧
      (∀ t ∈ gap, t.isFiller = true) ∧
      (∃ c, (spelling value).head? = some c ∧ Text.isBlank c = false) ∧
      agrees 0 value = true ∧
      (∀ t ∈ flags, t.isQuiet = true) ∧ (∃ before, FlagTail (spelling (bare before flags))) ∧
      span = ⟨front.length + (spelling gap).length,
        front.length + (spelling gap).length + (spelling value).length⟩ := by
  obtain ⟨first, second, p, hparts, hfirstSpan, hp, hblank, -, hflags⟩ := exists_cut_of_span? hspan
  have hne : first ≠ [] := by
    rintro rfl
    simp at hp
  obtain ⟨gap, mid, hstatements, hcomments, hgap, hkept, c, hhead, hc, hfirst⟩ :=
    exists_gap front.length hinside (by simp [hparts, hne])
  generalize hstart : front.length + (spelling gap).length = start at *
  rw [hparts] at hkept hfirst
  have hspanEq : span = ⟨start, p.offset + 1⟩ := by
    rw [List.head?_append_of_ne_nil _ hne] at hfirst
    rw [Placed.span?, hfirst, hp] at hfirstSpan
    exact (Option.some.inj hfirstSpan).symm
  -- the value as it is written reaches to the place of `p`
  have hbounds := offset_of_mem_kept (fitsAll_tokens (.ofComments .scss) 0 mid).text_ne_nil
    (hkept ▸ List.mem_append_left _ (List.mem_of_getLast? hp))
  rw [spelling_tokens] at hbounds
  obtain ⟨written, rest, rfl, hlength⟩ : ∃ written rest, mid = written ++ rest ∧
      start + written.length = p.offset + 1 := by
    refine ⟨mid.take (p.offset + 1 - start), mid.drop (p.offset + 1 - start),
      (List.take_append_drop _ _).symm, ?_⟩
    rw [List.length_take]
    omega
  have hslice : span.slice source = written := by
    have htail := congrArg spelling hstatements
    rw [spelling_tokens, spelling_append, spelling_tokens] at htail
    have htext : source = front ++ spelling gap ++ written ++ (rest ++ after) := by
      rw [hsource, htail]
      simp
    rw [hspanEq, ← hlength, ← hstart, ← List.length_append, htext, Span.slice_append]
  rw [hslice] at hagrees
  obtain ⟨flags, hreadStatements, hreadComments, hquiet, hflagTail⟩ :=
    exists_flags hkept.symm hp hblank hlength hagrees hflags
  refine ⟨gap, tokens (.ofStatements .scss) 0 written, flags, ?_, ?_, hgap, ⟨c, ?_, hc⟩, hagrees,
    hquiet, hflagTail, ?_⟩
  · rw [hstatements, hreadStatements, List.append_assoc]
  · rw [hcomments, hreadComments, List.append_assoc]
  · rw [spelling_tokens]
    cases written with
    | nil =>
      simp only [List.length_nil] at hlength
      omega
    | cons d written => exact hhead
  · rw [hspanEq, spelling_tokens, hstart, hlength]

end StyleLift.Stylesheet
