import Mathlib.Data.List.TakeWhile
import StyleLift.Proofs.Stylesheet.Readings

/-!
# The frame of a declaration

A declaration of a plain stylesheet is a value in a frame.  The frame is all the rest of the
statement: blanks and comments, the name, the colon, and the flags behind the value with their
blanks and comments.  Nothing in a frame opens or closes anything, so another value can be put
into it, and the statement is a declaration again, with the new value.

* `Frame`, `Frame.around`: a frame, and the statement that a value makes with it.
* `Frame.meaning?_around`: what that statement says.
* `exists_frame`: every declaration of a plain stylesheet comes about in this way, and its span
  is where its value stands.
-/

namespace StyleLift.Stylesheet

/-- The tokens of a value: it starts with no blank or comment and ends in no comment, blank or
flag. -/
structure IsValue (value : List Token) : Prop where
  simple : ∀ t ∈ value, t.Simple
  first : ∃ t ts, value = t :: ts ∧ t.isFiller = false
  last : ∃ ts t, value = ts ++ [t] ∧ t.isComment = false
  trimEnd_eq : Text.trimEnd (spelling (bare none value)) = spelling (bare none value)
  not_endsInFlag : ¬ EndsInFlag (spelling (bare none value))

/-- All of a declaration but its value. -/
structure Frame where
  lead : List Token
  name : Text
  space : Text
  gap : List Token
  flags : List Token
  lead_filler : ∀ t ∈ lead, t.isFiller = true ∧ t.Plain
  name_ok : isPropertyName name = true
  space_blank : Text.isBlankText space = true
  gap_filler : ∀ t ∈ gap, t.isFiller = true ∧ t.Plain
  flags_plain : ∀ t ∈ flags, t.Plain
  /-- Whatever is kept before them, the flags are flags. -/
  flagTail : ∀ before, FlagTail (spelling (bare before flags))

/-- The tokens before the value. -/
def Frame.front (f : Frame) : List Token :=
  f.lead ++ (f.name ++ f.space ++ [':']).map .glyph ++ f.gap

/-- The statement that a value makes with a frame. -/
def Frame.around (f : Frame) (value : List Token) : List Token := f.front ++ value ++ f.flags

/-! ## Single tokens -/

theorem Token.Simple.plain_of_isFiller {t : Token} (ht : t.Simple) (h : t.isFiller = true) :
    t.Plain := by
  cases t with
  | comment s => exact ht
  | glyph c => exact isPlain_of_isBlank h
  | quoted => exact absurd h Bool.false_ne_true
  | interpolation | opening | closing | separator | unterminated => exact ht.elim

/-- Inside a statement of a plain stylesheet, all tokens are simple. -/
theorem simple_of_fits {t : Token} {depth : Nat} {next : Option Char}
    (h : t.Fits (.ofStatements .css) depth next) (hinside : Stop.ofToken? t = none) :
    t.Simple := by
  cases t with
  | comment s =>
    rcases h with h | ⟨hline, -⟩
    · exact h
    · exact absurd hline Bool.false_ne_true
  | quoted s => exact h
  | glyph c => trivial
  | interpolation s => exact absurd h.1 Bool.false_ne_true
  | opening | closing | separator | unterminated => simp [Stop.ofToken?] at hinside

theorem IsBody.simple {next : Option Char} {body : List Token} (h : IsBody .css next body) :
    ∀ t ∈ body, t.Simple := by
  obtain ⟨hfits, hinside⟩ := h
  generalize (0 : Nat) = depth at hfits
  induction body generalizing depth with
  | nil => simp
  | cons t body ih =>
    rw [List.forall_mem_cons] at hinside ⊢
    exact ⟨simple_of_fits hfits.1 hinside.1, ih hinside.2 _ hfits.2⟩

/-- A token that is no filler does not start with a blank. -/
theorem Token.Simple.isBlank_head {t : Token} (ht : t.Simple) (h : t.isFiller = false) {c : Char}
    (hc : t.text.head? = some c) : Text.isBlank c = false := by
  cases t with
  | glyph d =>
    obtain rfl := Option.some.inj hc
    exact h
  | quoted s =>
    rcases ht with ⟨body, rfl, -⟩ | ⟨body, rfl, -⟩
    · obtain rfl := Option.some.inj hc
      decide
    · obtain rfl := Option.some.inj hc
      decide
  | comment => exact absurd h.symm Bool.false_ne_true
  | interpolation | opening | closing | separator | unterminated => exact ht.elim

theorem isComment_of_isFiller_eq_false {t : Token} (ht : t.Simple) (h : t.isFiller = false) :
    t.isComment = false := by
  cases t with
  | glyph | quoted => rfl
  | comment => exact absurd h.symm Bool.false_ne_true
  | interpolation | opening | closing | separator | unterminated => exact ht.elim

/-! ## Values between other tokens -/

/-- In front of a token that is kept it does not matter what was kept before. -/
theorem kept_cons_eq {t : Token} (ht : t.text ≠ []) (hcomment : t.isComment = false)
    (before before' : Option Char) (offset : Nat) (ts : List Token) :
    (Uncommented.ofTokens before offset (t :: ts)).kept =
      (Uncommented.ofTokens before' offset (t :: ts)).kept := by
  obtain ⟨c, hc⟩ := Option.isSome_iff_exists.1 (List.getLast?_isSome.2 ht)
  rw [ofTokens_of_not_isComment hcomment, ofTokens_of_not_isComment hcomment, hc]
  rfl

/-- A token that starts with no blank is where the kept characters start, with or without blanks in
front. -/
theorem dropWhile_kept_cons {t : Token} (hcomment : t.isComment = false) {c : Char} {s : Text}
    (htext : t.text = c :: s) (hc : Text.isBlank c = false) (before : Option Char) (offset : Nat)
    (ts : List Token) :
    (Uncommented.ofTokens before offset (t :: ts)).kept.dropWhile (fun p => Text.isBlank p.char) =
      (Uncommented.ofTokens none offset (t :: ts)).kept := by
  rw [kept_cons_eq (by simp [htext]) hcomment before none, ofTokens_of_not_isComment hcomment, htext,
    Placed.ofText, List.cons_append, List.dropWhile_cons_of_neg (by simp [hc])]

theorem head?_kept_cons {t : Token} (hcomment : t.isComment = false) {c : Char} {s : Text}
    (htext : t.text = c :: s) (before : Option Char) (offset : Nat) (ts : List Token) :
    (Uncommented.ofTokens before offset (t :: ts)).kept.head? = some ⟨offset, c⟩ := by
  rw [ofTokens_of_not_isComment hcomment, htext]
  rfl

theorem isFiller_of_dropWhile_eq_cons {ts rest : List Token} {t : Token}
    (h : ts.dropWhile Token.isFiller = t :: rest) : t.isFiller = false := by
  have hhead := List.head?_dropWhile_not Token.isFiller ts
  rw [h] at hhead
  simpa using hhead

theorem spelling_bare_cons_eq {t : Token} (ht : t.Simple) (hcomment : t.isComment = false)
    (before before' : Option Char) (ts : List Token) :
    spelling (bare before (t :: ts)) = spelling (bare before' (t :: ts)) := by
  rw [← text_ofTokens before 0, ← text_ofTokens before' 0, Uncommented.text, Uncommented.text,
    kept_cons_eq ht.text_ne_nil hcomment before before']

/-- What remains of a value does not depend on what follows it. -/
theorem IsValue.exists_bare_append {value : List Token} (h : IsValue value) (before : Option Char)
    (ts : List Token) : ∃ before', spelling (bare before (value ++ ts)) =
      spelling (bare none value) ++ spelling (bare before' ts) := by
  obtain ⟨t, rest, hvalue, hfiller⟩ := h.first
  obtain ⟨us, u, hlast, hu⟩ := h.last
  have ht : t.Simple := h.simple t (by rw [hvalue]; exact List.mem_cons_self)
  have husimple : u.Simple := h.simple u (by rw [hlast]; simp)
  obtain ⟨c, hc⟩ := Option.isSome_iff_exists.1 (List.getLast?_isSome.2 husimple.text_ne_nil)
  have hsplit := congrArg Placed.text (kept_append_cons hu hc none 0 us ts)
  rw [Placed.text_append, ← Uncommented.text, ← Uncommented.text, ← Uncommented.text,
    text_ofTokens, text_ofTokens, text_ofTokens, ← hlast] at hsplit
  refine ⟨some c, ?_⟩
  rw [← hsplit, hvalue, List.cons_append,
    spelling_bare_cons_eq ht (isComment_of_isFiller_eq_false ht hfiller) before none]
  congr 2
  rw [← List.cons_append, ← hvalue, hlast, List.append_assoc, List.singleton_append]

theorem IsValue.spelling_bare_ne_nil {value : List Token} (h : IsValue value) :
    spelling (bare none value) ≠ [] ∧
      Text.trimStart (spelling (bare none value)) = spelling (bare none value) := by
  obtain ⟨t, rest, hvalue, hfiller⟩ := h.first
  have ht : t.Simple := h.simple t (by rw [hvalue]; exact List.mem_cons_self)
  rw [hvalue, bare_of_not_isComment (isComment_of_isFiller_eq_false ht hfiller), spelling_cons]
  refine ⟨by simp [ht.text_ne_nil], ?_⟩
  rw [Text.trimStart_eq_self_iff]
  intro c hc
  rw [List.head?_append_of_ne_nil _ ht.text_ne_nil] at hc
  exact ht.isBlank_head hfiller hc

/-! ## Putting a value into a frame -/

namespace Frame

variable (f : Frame) {value : List Token} {next : Option Char}

theorem plain_front : ∀ t ∈ f.front, t.Plain := by
  intro t ht
  simp only [front, List.mem_append] at ht
  rcases ht with (ht | ht) | ht
  · exact (f.lead_filler t ht).2
  · exact plain_of_mem_name f.name_ok f.space_blank ht
  · exact (f.gap_filler t ht).2

/-- A frame around a value is read as it is. -/
theorem isBody_around (hsimple : ∀ t ∈ value, t.Simple) {next' : Option Char}
    (hfits : FitsAll (.ofStatements .css) 0 next' value) (hnext : next ≠ some '*') :
    IsBody .css next (f.around value) where
  fits := by
    rw [around, fitsAll_append, fitsAll_append, finalDepth_of_plain f.plain_front]
    refine ⟨⟨fitsAll_of_plain f.plain_front _ _ _,
      hfits.of_next (fun t ht => (hsimple t ht).isTerminated) ?_⟩,
      fitsAll_of_plain f.flags_plain _ _ _⟩
    rw [Ne, Option.or_eq_some_iff, not_or, not_and]
    exact ⟨head?_spelling_ne_star f.flags_plain, fun _ => hnext⟩
  inside := by
    intro t ht
    simp only [around, List.mem_append] at ht
    rcases ht with (ht | ht) | ht
    · exact (f.plain_front t ht).simple.inside
    · exact (hsimple t ht).inside
    · exact (f.flags_plain t ht).simple.inside

theorem finalDepth_around (depth : Nat) :
    finalDepth depth (f.around value) = finalDepth depth value := by
  rw [around, finalDepth_append, finalDepth_append, finalDepth_of_plain f.plain_front,
    finalDepth_of_plain f.flags_plain]

theorem coreOf_around (value : List Token) : coreOf (f.around value) =
    f.name ++ f.space ++ ':' :: spelling (f.gap ++ value ++ f.flags) := by
  have haround : f.around value = f.lead ++ (f.name ++ f.space ++ [':']).map .glyph ++
      (f.gap ++ value ++ f.flags) := by
    simp [around, front]
  rw [haround, coreOf_name_append (fun t ht => (f.lead_filler t ht).1) f.name_ok]

/-- **A value in a frame is a declaration of that value.** -/
theorem meaning?_around (hvalue : IsValue value)
    (hfits : FitsAll (.ofStatements .css) 0 next value) (blocks : List Text) :
    meaning? .css blocks (coreOf (f.around value)) =
      some ⟨f.name, spelling (bare none value), blocks⟩ := by
  have hgap : ∀ t ∈ f.gap, t.Plain := fun t ht => (f.gap_filler t ht).2
  have hread : tokens (.ofComments .css) 0 (spelling (f.gap ++ value ++ f.flags)) =
      f.gap ++ value ++ f.flags := by
    refine tokens_spelling (fitsAll_append.2 ⟨fitsAll_append.2 ⟨fitsAll_of_plain hgap _ _ _, ?_⟩,
      fitsAll_of_plain f.flags_plain _ _ _⟩)
    rw [finalDepth_of_plain hgap]
    exact hfits.of_next (fun t ht => (hvalue.simple t ht).isTerminated)
      (by rw [Option.or_none]; exact head?_spelling_ne_star f.flags_plain)
  obtain ⟨blanks, before, hblanks, hfront⟩ := exists_bare_append_of_filler
    (fun t ht => (f.gap_filler t ht).1) none (value ++ f.flags)
  obtain ⟨before', hrest⟩ := hvalue.exists_bare_append before f.flags
  obtain ⟨hne, hstart⟩ := hvalue.spelling_bare_ne_nil
  rw [coreOf_around]
  refine meaning?_eq_some f.name_ok f.space_blank ?_ hne hvalue.trimEnd_eq hvalue.not_endsInFlag
    (f.flagTail before')
  rw [hread, List.append_assoc, hfront, hrest, Text.trimStart_append_of_blank hblanks,
    Text.trimStart_append_of_ne_nil hstart hne]

end Frame

/-! ## Finding the frame -/

theorem mem_bare_of_not_isComment {t : Token} {ts : List Token} (ht : t ∈ ts)
    (hcomment : t.isComment = false) (before : Option Char) : t ∈ bare before ts := by
  induction ts generalizing before with
  | nil => simp at ht
  | cons u ts ih =>
    cases hu : u.isComment with
    | true =>
      have hmem : t ∈ ts := by
        rcases List.mem_cons.1 ht with rfl | ht
        · exact absurd (hu.symm.trans hcomment) (by decide)
        · exact ht
      rw [bare_of_isComment hu]
      split
      · exact List.mem_cons_of_mem _ (ih hmem _)
      · exact ih hmem _
    | false =>
      rw [bare_of_not_isComment hu]
      rcases List.mem_cons.1 ht with rfl | ht
      · exact List.mem_cons_self
      · exact List.mem_cons_of_mem _ (ih ht _)

/-- Tokens of which only flags remain are plain. -/
theorem plain_of_flagTail {ts : List Token} (hts : ∀ t ∈ ts, t.Simple) {before : Option Char}
    (h : FlagTail (spelling (bare before ts))) : ∀ t ∈ ts, t.Plain := by
  intro t ht
  have hmem : t.isComment = false → ∀ c ∈ t.text, c ∈ spelling (bare before ts) := by
    intro hcomment c hc
    exact List.mem_flatMap.2 ⟨t, mem_bare_of_not_isComment ht hcomment before, hc⟩
  have hsimple := hts t ht
  cases t with
  | comment s => exact hsimple
  | glyph c =>
    exact h.isPlain c (hmem rfl c (by simp))
  | quoted s =>
    rcases hsimple with ⟨body, rfl, -⟩ | ⟨body, rfl, -⟩
    · exact absurd rfl (h.ne_quote (hmem rfl '"' (by simp))).1
    · exact absurd rfl (h.ne_quote (hmem rfl '\'' (by simp))).2
  | interpolation | opening | closing | separator | unterminated => exact hsimple.elim

/-- What is kept before them does not make flags of other tokens. -/
theorem flagTail_bare {ts : List Token} (hts : ∀ t ∈ ts, t.text ≠ []) {before : Option Char}
    (h : FlagTail (spelling (bare before ts))) (before' : Option Char) :
    FlagTail (spelling (bare before' ts)) := by
  obtain ⟨b, b', s, hb, hb', hs, hs'⟩ := exists_bare_eq_append hts before before'
  rw [hs] at h
  rw [hs']
  exact (FlagTail.of_blank_append hb h).blank_append hb'

/-- What is kept of a value and what follows it starts with the value. -/
theorem exists_keptValue_eq {ts : List Token} (hts : ∀ t ∈ ts, t.Simple) (start : Nat)
    (hne : (Uncommented.ofTokens none start ts).kept.dropWhile
      (fun p => Text.isBlank p.char) ≠ []) :
    ∃ gap t rest, ts = gap ++ t :: rest ∧ (∀ u ∈ gap, u.isFiller = true) ∧ t.isFiller = false ∧
      (Uncommented.ofTokens none start ts).kept.dropWhile (fun p => Text.isBlank p.char) =
        (Uncommented.ofTokens none (start + (spelling gap).length) (t :: rest)).kept := by
  have hgap : ∀ u ∈ ts.takeWhile Token.isFiller, u.isFiller = true :=
    fun u hu => List.mem_takeWhile_imp hu
  have hsplit := List.takeWhile_append_dropWhile (p := Token.isFiller) (l := ts)
  obtain ⟨blanks, before, hblanks, hkept⟩ := exists_kept_append_of_filler hgap none start
    (ts.dropWhile Token.isFiller)
  rw [hsplit] at hkept
  rw [hkept, List.dropWhile_append_of_pos hblanks] at hne ⊢
  cases hrest : ts.dropWhile Token.isFiller with
  | nil =>
    rw [hrest] at hne
    exact absurd rfl hne
  | cons t rest =>
    have hfiller := isFiller_of_dropWhile_eq_cons hrest
    have ht : t.Simple := hts t (by rw [← hsplit, hrest]; simp)
    have hcomment := isComment_of_isFiller_eq_false ht hfiller
    refine ⟨ts.takeWhile Token.isFiller, t, rest, by rw [← hrest, hsplit], hgap, hfiller, ?_⟩
    obtain ⟨c, s, htext⟩ := List.exists_cons_of_ne_nil ht.text_ne_nil
    have hc : Text.isBlank c = false := ht.isBlank_head hfiller (by rw [htext]; rfl)
    rw [dropWhile_kept_cons hcomment htext hc]

/-- The stretch from the first to the last kept character of a value is the value. -/
theorem span_eq_of_tokens {offset : Nat} {us ts : List Token} {u t : Token}
    (hfirst : us ++ [u] = t :: ts) (ht : t.Simple) (hfiller : t.isFiller = false)
    (hsimple : u.Simple) (hu : u.isComment = false) {span : Span}
    (hspan : Placed.span? (Uncommented.ofTokens none offset (us ++ [u])).kept = some span) :
    span = ⟨offset, offset + (spelling (us ++ [u])).length⟩ := by
  have hhead : (Uncommented.ofTokens none offset (us ++ [u])).kept.head? =
      (Placed.ofText offset t.text).head? := by
    rw [hfirst, ofTokens_of_not_isComment (isComment_of_isFiller_eq_false ht hfiller)]
    obtain ⟨c, s, htext⟩ := List.exists_cons_of_ne_nil ht.text_ne_nil
    rw [htext]
    rfl
  obtain ⟨front, hfront⟩ := exists_kept_concat hu none offset us
  have hne : Placed.ofText (offset + (spelling us).length) u.text ≠ [] := by
    obtain ⟨c, s, htext⟩ := List.exists_cons_of_ne_nil hsimple.text_ne_nil
    rw [htext]
    exact List.cons_ne_nil _ _
  obtain ⟨p, hp⟩ := Option.isSome_iff_exists.1 (List.getLast?_isSome.2 hne)
  have hlast : (Uncommented.ofTokens none offset (us ++ [u])).kept.getLast? = some p := by
    rw [hfront, List.getLast?_append, hp]
    rfl
  obtain ⟨c, s, htext⟩ := List.exists_cons_of_ne_nil ht.text_ne_nil
  rw [Placed.span?, hhead, hlast, htext] at hspan
  obtain rfl := Option.some.inj hspan
  have hstop := (Placed.getLast?_ofText hp).1
  rw [hstop, spelling_append, List.length_append, Nat.add_assoc]
  simp

/-- What is kept of a value and its flags is cut behind the value, which ends in no blank. -/
theorem exists_cut_of_span? {kept : List Placed} {span : Span}
    (hspan : Placed.span? (kept.take (withoutFlags (Placed.text kept)).length) = some span) :
    ∃ first second p, kept = first ++ second ∧ Placed.span? first = some span ∧
      first.getLast? = some p ∧ Text.isBlank p.char = false ∧
      Placed.text first = withoutFlags (Placed.text kept) ∧ FlagTail (Placed.text second) := by
  obtain ⟨tail, htail, hflags, htrim, -⟩ := exists_flagTail (Placed.text kept)
  generalize withoutFlags (Placed.text kept) = v at *
  have hnil : kept.take v.length ≠ [] := by
    intro h
    rw [span?_eq_none_iff.2 h] at hspan
    simp at hspan
  have hfirst : Placed.text (kept.take v.length) = v := by
    rw [Placed.text, List.map_take, ← Placed.text, htail, List.take_left]
  have hsecond : Placed.text (kept.drop v.length) = tail := by
    rw [Placed.text, List.map_drop, ← Placed.text, htail, List.drop_left]
  obtain ⟨p, hp⟩ := Option.isSome_iff_exists.1 (List.getLast?_isSome.2 hnil)
  have hlastChar : v.getLast? = some p.char := by
    rw [← hfirst, Placed.text, List.getLast?_map, hp]
    rfl
  exact ⟨_, _, p, (List.take_append_drop _ _).symm, hspan, hp,
    Text.trimEnd_eq_self_iff.1 htrim _ hlastChar, hfirst, by rwa [hsecond]⟩

/-- The tokens behind a colon are a gap, a value and flags, as the span of the value says. -/
theorem exists_value {ts : List Token} (hts : ∀ t ∈ ts, t.Simple) {start : Nat} {span : Span}
    {kept : List Placed} (hkept : (Uncommented.ofTokens none start ts).kept.dropWhile
      (fun p => Text.isBlank p.char) = kept)
    (hspan : Placed.span? (kept.take (withoutFlags (Placed.text kept)).length) = some span) :
    ∃ gap value flags, ts = gap ++ value ++ flags ∧ (∀ t ∈ gap, t.isFiller = true) ∧
      IsValue value ∧ spelling (bare none value) = withoutFlags (Placed.text kept) ∧
      (∃ before, FlagTail (spelling (bare before flags))) ∧
      span = ⟨start + (spelling gap).length,
        start + (spelling gap).length + (spelling value).length⟩ := by
  obtain ⟨-, -, -, htrim, hend⟩ := exists_flagTail (Placed.text kept)
  obtain ⟨first, second, p, hparts, hfirstSpan, hp, hblank, hfirst, hflags⟩ :=
    exists_cut_of_span? hspan
  generalize withoutFlags (Placed.text kept) = v at *
  obtain ⟨gap, t, rest, rfl, hgap, hfiller, hstart⟩ := exists_keptValue_eq hts start (by
    rw [hkept, hparts]
    intro hnil
    rw [(List.append_eq_nil_iff.1 hnil).1] at hp
    simp at hp)
  rw [hkept] at hstart
  have hrest : ∀ u ∈ t :: rest, u.Simple := fun u hu => hts u (List.mem_append_right _ hu)
  obtain ⟨us, u, flags, hcut, hu, husKept⟩ := exists_cut hrest (hstart.symm.trans hparts) hp hblank
    (fun q hq => hflags.ne_quote (List.mem_map_of_mem hq))
  have hvalue : spelling (bare none (us ++ [u])) = v := by
    rw [← text_ofTokens none (start + (spelling gap).length), Uncommented.text, husKept, hfirst]
  have husimple : u.Simple := hrest u (by rw [hcut]; simp)
  obtain ⟨c, hc⟩ := Option.isSome_iff_exists.1 (List.getLast?_isSome.2 husimple.text_ne_nil)
  have hflagsKept : (Uncommented.ofTokens (some c) (start + (spelling gap).length +
      (spelling (us ++ [u])).length) flags).kept = second := by
    have hsplit := kept_append_cons hu hc none (start + (spelling gap).length) us flags
    rw [← hcut, ← hstart, husKept] at hsplit
    exact List.append_cancel_left (hsplit.symm.trans hparts)
  have hfirstToken : ∃ ts, us ++ [u] = t :: ts := by
    cases us with
    | nil => exact ⟨[], by rw [(List.cons.inj hcut).1]; rfl⟩
    | cons w us => exact ⟨us ++ [u], by rw [(List.cons.inj hcut).1]; rfl⟩
  obtain ⟨ts, hts'⟩ := hfirstToken
  refine ⟨gap, us ++ [u], flags, by rw [hcut]; simp, hgap, ⟨?_, ⟨t, ts, hts', hfiller⟩,
    ⟨us, u, rfl, hu⟩, by rw [hvalue, htrim], by rwa [hvalue]⟩, hvalue, ⟨some c, ?_⟩, ?_⟩
  · intro w hw
    refine hrest w ?_
    rw [hcut, ← List.singleton_append, ← List.append_assoc]
    exact List.mem_append_left _ hw
  · rw [← text_ofTokens, Uncommented.text, hflagsKept]
    exact hflags
  · rw [← husKept] at hfirstSpan
    exact span_eq_of_tokens hts' (hrest t List.mem_cons_self) hfiller husimple hu hfirstSpan

/-- Of stretches before, inside and behind a span, those inside it are found. -/
theorem filter_within_eq {span : Span} {early inner later : List Span}
    (hearly : ∀ c ∈ early, c.start < c.stop ∧ c.stop ≤ span.start)
    (hinner : ∀ c ∈ inner, span.start ≤ c.start ∧ c.stop ≤ span.stop)
    (hlater : ∀ c ∈ later, c.start < c.stop ∧ span.stop ≤ c.start) :
    (early ++ inner ++ later).filter (·.within span) = inner := by
  have hbefore : ∀ c ∈ early, ¬ (c.within span = true) := by
    intro c hc
    have hbounds := hearly c hc
    simp only [Span.within, Bool.and_eq_true, decide_eq_true_eq]
    omega
  have hinside : ∀ c ∈ inner, c.within span = true := by
    intro c hc
    have hbounds := hinner c hc
    simp only [Span.within, Bool.and_eq_true, decide_eq_true_eq]
    omega
  have hbehind : ∀ c ∈ later, ¬ (c.within span = true) := by
    intro c hc
    have hbounds := hlater c hc
    simp only [Span.within, Bool.and_eq_true, decide_eq_true_eq]
    omega
  rw [List.filter_append, List.filter_append, List.filter_eq_nil_iff.2 hbefore,
    List.filter_eq_nil_iff.2 hbehind, List.filter_eq_self.2 hinside, List.nil_append,
    List.append_nil]

/-- Of all the comments behind a colon, those inside the span are those of the value. -/
theorem filter_within_commentSpans {gap value flags : List Token}
    (hgap : ∀ t ∈ gap, t.text ≠ []) (hvalue : ∀ t ∈ value, t.text ≠ [])
    (hflags : ∀ t ∈ flags, t.text ≠ []) (start : Nat) :
    (commentSpans start (gap ++ value ++ flags)).filter (·.within
      ⟨start + (spelling gap).length, start + (spelling gap).length + (spelling value).length⟩) =
      commentSpans (start + (spelling gap).length) value := by
  rw [commentSpans_append, commentSpans_append, spelling_append, List.length_append]
  refine filter_within_eq ?_ ?_ ?_
  · intro c hc
    exact (bounds_of_mem_commentSpans hgap hc).2
  · intro c hc
    have hbounds := bounds_of_mem_commentSpans hvalue hc
    exact ⟨hbounds.1, hbounds.2.2⟩
  · intro c hc
    have hbounds := bounds_of_mem_commentSpans hflags hc
    rw [← Nat.add_assoc] at hbounds
    exact ⟨hbounds.2.1, hbounds.1⟩

/-- **Every declaration of a plain stylesheet is a value in a frame,** its span is where the value
stands, and its comments are those of the value. -/
theorem exists_frame {body : List Token} {next : Option Char} (hbody : IsBody .css next body)
    {offset line : Nat} {blocks : List Text} {stop : Stop} {d : Declaration}
    (h : Statement.declaration? .css offset line blocks ⟨body, stop⟩ = some d) :
    ∃ (f : Frame) (value : List Token), body = f.around value ∧ IsValue value ∧
      d.meaning = ⟨f.name, spelling (bare none value), blocks⟩ ∧
      d.span = ⟨offset + (spelling f.front).length,
        offset + (spelling f.front).length + (spelling value).length⟩ ∧
      d.comments = commentSpans (offset + (spelling f.front).length) value := by
  obtain ⟨name, tail, start, hsplit, hname, hstart, hmeaning, hspan, hcomments⟩ :=
    exists_of_declaration? h
  obtain ⟨space, hspace, hparts, hdrop⟩ := exists_tokens_of_name hbody hsplit hname
  have hlead : ∀ t ∈ body.takeWhile Token.isFiller, t.isFiller = true ∧ t.Plain := by
    intro t ht
    have hfiller := List.mem_takeWhile_imp ht
    exact ⟨hfiller,
      (hbody.simple t ((List.takeWhile_sublist _).mem ht)).plain_of_isFiller hfiller⟩
  have hsimple : ∀ t ∈ tokens (.ofStatements .css) 0 tail, t.Simple := by
    intro t ht
    refine hbody.simple t ((List.dropWhile_sublist Token.isFiller).mem ?_)
    rw [hdrop]
    exact List.mem_append_right _ ht
  obtain ⟨gap, value, flags, htokens, hgap, hvalue, htext, ⟨before, hflags⟩, hspanEq⟩ :=
    exists_value hsimple rfl hspan
  rw [htokens] at hsimple
  have hgapSimple : ∀ t ∈ gap, t.Simple := fun t ht => hsimple t (by simp [ht])
  have hflagsSimple : ∀ t ∈ flags, t.Simple := fun t ht => hsimple t (by simp [ht])
  have hfront : start + (spelling gap).length = offset + (spelling (body.takeWhile Token.isFiller ++
      (Text.trim name ++ space ++ [':']).map .glyph ++ gap)).length := by
    have hlength : (Statement.lead ⟨body, stop⟩).length =
      (spelling (body.takeWhile Token.isFiller)).length := rfl
    rw [hstart, hlength, spelling_append, spelling_append, spelling_map_glyph, ← hparts]
    simp only [List.length_append, List.length_singleton]
    omega
  refine ⟨⟨body.takeWhile Token.isFiller, Text.trim name, space, gap, flags, hlead, hname, hspace,
    fun t ht => ⟨hgap t ht, (hgapSimple t ht).plain_of_isFiller (hgap t ht)⟩,
    plain_of_flagTail hflagsSimple hflags,
    flagTail_bare (fun t ht => (hflagsSimple t ht).text_ne_nil) hflags⟩, value, ?_, hvalue, ?_, ?_,
    ?_⟩
  · have hwhole := List.takeWhile_append_dropWhile (p := Token.isFiller) (l := body)
    rw [hdrop, htokens] at hwhole
    refine hwhole.symm.trans ?_
    simp [Frame.around, Frame.front]
  · rw [hmeaning, htext]
    rfl
  · rw [hspanEq, hfront]
    rfl
  · rw [hcomments, hspanEq]
    have hraw : (Uncommented.ofText .css start tail).comments =
        commentSpans start (gap ++ value ++ flags) := by
      rw [← htokens]
      exact comments_ofTokens none start _
    rw [hraw, filter_within_commentSpans (fun t ht => (hgapSimple t ht).text_ne_nil)
      (fun t ht => (hvalue.simple t ht).text_ne_nil)
      (fun t ht => (hflagsSimple t ht).text_ne_nil), hfront]
    rfl

end StyleLift.Stylesheet
