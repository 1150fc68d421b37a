import StyleLift.Proofs.Stylesheet.Frames
import StyleLift.Proofs.Stylesheet.Placement

/-!
# Values as they are written

The place of a value is found in a roundabout way.  The comments behind the colon are taken out,
blanks and flags are cut off from what remains, and the places of the first and the last character
that are left are the ends of the span.  Nothing in this says that the source between these ends,
read by itself, is the value again: a reading that stops at the end of the span could see something
else than one that goes on.

It does not.  The last character of a value is no blank, so it belongs to a token that is no
comment, and no quote stands behind it, so this token is cut only if it is a string without an end;
and what is left of such a string is a string without an end.

* `exists_cut_text`: what is written up to the end of a value, read by itself.
* `exists_mid`: the second reading of a value, from its first character on.
* `comments_of_cut`: the comments of a value, among those behind the colon.
* `exists_tail`: **behind a colon stand a gap, the value as it is written, and a rest.**
-/

namespace StyleLift.Stylesheet

open Uncommented (ofTokens)

/-! ## Parts of a string without an end -/

theorem Closer.eq_none_of_append {close : Text → Option (Text × Text)} (h : Closer close)
    {s t : Text} (hnone : close (s ++ t) = none) : close s = none := by
  cases hs : close s with
  | none => rfl
  | some found =>
    obtain ⟨body, rest⟩ := found
    have hwhole := h.append (rest ++ t) (h.self hs)
    rw [← List.append_assoc, h.append_eq hs, hnone] at hwhole
    exact absurd hwhole (by simp)

/-- What is left of a text without an end has no end. -/
theorem StaysOpen.of_append {c : Char} {close : Text → Option (Text × Text)}
    (hclose : Closer close) {cut behind : Text} (hcut : cut ≠ [])
    (h : StaysOpen [c] close (cut ++ behind)) : StaysOpen [c] close cut := by
  obtain ⟨body, hbody, hnone⟩ := h
  cases cut with
  | nil => exact absurd rfl hcut
  | cons d cut =>
    obtain ⟨rfl, rfl⟩ := List.cons.inj hbody
    exact ⟨cut, rfl, hclose.eq_none_of_append hnone⟩

/-- What a cut leaves of a token is a token at the end of a text, if no quote is cut off. -/
theorem Token.Fits.exists_cut {lexis : Lexis} {depth : Nat} {next : Option Char} {t : Token}
    (h : t.Fits lexis depth next) (hlexis : lexis.interpolations = false)
    (hcomment : t.isComment = false) {cut behind : Text} (htext : t.text = cut ++ behind)
    (hcut : cut ≠ []) (hbehind : ∀ c ∈ behind, c ≠ '"' ∧ c ≠ '\'') :
    ∃ x : Token, x.isComment = false ∧ x.text = cut ∧ x.Fits lexis depth none := by
  by_cases hnil : behind = []
  · exact ⟨t, hcomment, by rw [htext, hnil, List.append_nil], h.atEnd⟩
  have hlength := congrArg List.length htext
  have hpos := List.length_pos_iff.2 hcut
  have hpos' := List.length_pos_iff.2 hnil
  rw [List.length_append] at hlength
  cases t with
  | comment => exact absurd hcomment.symm Bool.false_ne_true
  | quoted s =>
    exact absurd (Token.Simple.eq_nil_of_cut (t := .quoted s) h rfl hcut hbehind htext) hnil
  | interpolation s => exact absurd (hlexis.symm.trans h.1) Bool.false_ne_true
  | opening | closing | separator | glyph =>
    simp at hlength
    omega
  | unterminated what s =>
    obtain rfl : s = cut ++ behind := htext
    cases what with
    | comment => exact absurd hcomment.symm Bool.false_ne_true
    | string =>
      refine ⟨.unterminated .string cut, rfl, rfl, rfl, ?_⟩
      rcases h.2 with hopen | hopen
      · exact Or.inl (.of_append closer_doubleQuote hcut hopen)
      · exact Or.inr (.of_append closer_singleQuote hcut hopen)
    | interpolation => exact absurd (hlexis.symm.trans h.2.1) Bool.false_ne_true

/-- A comment with both its ends. -/
def Token.IsWholeComment (t : Token) : Prop := IsBlockComment t.text ∨ IsLineComment t.text

/-- Comments before a token that is none have both their ends. -/
theorem FitsAll.isWholeComment {lexis : Lexis} {depth : Nat} {next : Option Char}
    {us : List Token} {x : Token} (h : FitsAll lexis depth next (us ++ [x]))
    (hx : x.isComment = false) :
    ∀ t ∈ us ++ [x], t.isComment = true → t.IsWholeComment := by
  induction us generalizing depth with
  | nil =>
    intro t ht hcomment
    rw [List.mem_singleton.1 ht, hx] at hcomment
    exact absurd hcomment Bool.false_ne_true
  | cons u us ih =>
    rw [List.cons_append, fitsAll_cons] at h
    refine List.forall_mem_cons.2 ⟨?_, ih h.2⟩
    intro hcomment
    cases u with
    | comment s =>
      rcases h.1 with hblock | ⟨-, -, hline, -⟩
      · exact Or.inl hblock
      · exact Or.inr hline
    | unterminated what s => exact absurd (FitsAll.eq_nil_of_unterminated h) (by simp)
    | quoted | interpolation | opening | closing | separator | glyph =>
      exact absurd hcomment Bool.false_ne_true

/-- Tokens that end in one that is no comment end where the last character that is kept does. -/
theorem length_of_getLast?_kept {us : List Token} {x : Token} (hx : x.isComment = false)
    (hne : x.text ≠ []) {start : Nat} {p : Placed}
    (hp : (ofTokens none start (us ++ [x])).kept.getLast? = some p) :
    start + (spelling (us ++ [x])).length = p.offset + 1 := by
  obtain ⟨front, hfront⟩ := exists_kept_concat hx none start us
  have hplaced : Placed.ofText (start + (spelling us).length) x.text ≠ [] := by
    obtain ⟨c, s, hs⟩ := List.exists_cons_of_ne_nil hne
    rw [hs]
    exact List.cons_ne_nil _ _
  rw [hfront, List.getLast?_append_of_ne_nil _ hplaced] at hp
  rw [(Placed.getLast?_ofText hp).1]
  simp [Nat.add_assoc]

/-- **What is written up to the end of a value, read by itself, gives the value,** and its comments
are those that stand before its end. -/
theorem exists_cut_text {dialect : Dialect} {start : Nat} {mid : Text}
    {first second : List Placed} {p : Placed}
    (hkept : (Uncommented.ofText dialect start mid).kept = first ++ second)
    (hp : first.getLast? = some p) (hblank : Text.isBlank p.char = false)
    (hsecond : ∀ q ∈ second, q.char ≠ '"' ∧ q.char ≠ '\'') :
    ∃ written rest later, mid = written ++ rest ∧ start + written.length = p.offset + 1 ∧
      (Uncommented.ofText dialect start written).kept = first ∧
      (Uncommented.ofText dialect start mid).comments =
        (Uncommented.ofText dialect start written).comments ++ later ∧
      (∀ c ∈ later, start + written.length ≤ c.start) ∧
      ∀ t ∈ tokens (.ofComments dialect) 0 written, t.isComment = true → t.IsWholeComment := by
  obtain ⟨us, t, vs, cut, behind, hts, ht, htext, hcut, hbehind, hfirst⟩ :=
    exists_cut_token hkept hp hblank
  have hfits := fitsAll_tokens (.ofComments dialect) 0 mid
  have hmid := spelling_tokens (.ofComments dialect) 0 mid
  rw [hts] at hfits hmid
  obtain ⟨hus, htoken, -⟩ := fitsAll_append.1 hfits
  obtain ⟨x, hx, hxtext, hxfits⟩ := htoken.exists_cut (interpolations_ofComments dialect) ht htext
    hcut (by
      intro c hc
      obtain ⟨q, hq, rfl⟩ := List.mem_map.1 (hbehind.subset hc)
      exact hsecond q hq)
  have hall : FitsAll (.ofComments dialect) 0 none (us ++ [x]) := by
    refine fitsAll_append.2 ⟨?_, hxfits, trivial⟩
    rw [spelling_cons, htext, List.append_assoc, List.head?_append_of_ne_nil _ hcut] at hus
    rwa [spelling_cons, hxtext, List.head?_append_of_ne_nil _ hcut]
  have hread : tokens (.ofComments dialect) 0 (spelling (us ++ [x])) = us ++ [x] :=
    tokens_spelling hall
  rw [← hfirst x hx hxtext] at hp
  have hlast := length_of_getLast?_kept hx (hxtext ▸ hcut) hp
  refine ⟨spelling (us ++ [x]), behind ++ spelling vs,
    commentSpans (start + (spelling us).length + t.text.length) vs, ?_, hlast, ?_, ?_, ?_, ?_⟩
  · rw [← hmid]
    simp [htext, hxtext]
  · rw [Uncommented.ofText, hread, hfirst x hx hxtext]
  · rw [Uncommented.ofText, Uncommented.ofText, hread, hts, comments_ofTokens, comments_ofTokens,
      commentSpans_append, commentSpans_append]
    simp [commentSpans, ht, hx]
  · intro c hc
    have hne : ∀ v ∈ vs, v.text ≠ [] := fun v hv => hfits.text_ne_nil v (by simp [hv])
    have hbounds := bounds_of_mem_commentSpans hne hc
    have hlength := congrArg List.length htext
    rw [List.length_append] at hlength
    rw [spelling_append, List.length_append, spelling_cons, hxtext]
    simp only [spelling_nil, List.append_nil]
    omega
  · rw [hread]
    exact hall.isWholeComment hx

/-! ## The start of a value -/

/-- A token that is kept and is no blank does not start with one. -/
theorem Token.Fits.exists_text_cons {lexis : Lexis} {depth : Nat} {next : Option Char} {t : Token}
    (h : t.Fits lexis depth next) (hfiller : t.isFiller = false) :
    ∃ c s, t.text = c :: s ∧ Text.isBlank c = false := by
  cases t with
  | comment => exact absurd hfiller.symm Bool.false_ne_true
  | quoted s =>
    rcases h with ⟨body, rfl, -⟩ | ⟨body, rfl, -⟩
    · exact ⟨'"', body, rfl, by decide⟩
    · exact ⟨'\'', body, rfl, by decide⟩
  | interpolation s =>
    obtain ⟨-, body, rfl, -⟩ := h
    exact ⟨'#', '{' :: body, rfl, by decide⟩
  | opening => exact ⟨'{', [], rfl, by decide⟩
  | closing => exact ⟨'}', [], rfl, by decide⟩
  | separator => exact ⟨';', [], rfl, by decide⟩
  | glyph c => exact ⟨c, [], rfl, hfiller⟩
  | unterminated what s =>
    cases what with
    | comment =>
      obtain ⟨-, body, rfl, -⟩ := h
      exact ⟨'/', '*' :: body, rfl, by decide⟩
    | string =>
      obtain ⟨-, ⟨body, rfl, -⟩ | ⟨body, rfl, -⟩⟩ := h
      · exact ⟨'"', body, rfl, by decide⟩
      · exact ⟨'\'', body, rfl, by decide⟩
    | interpolation =>
      obtain ⟨-, -, body, rfl, -⟩ := h
      exact ⟨'#', '{' :: body, rfl, by decide⟩

/-- **What is kept of a value starts where the second reading has left the blanks and comments
behind the colon,** and is what this reading keeps from there on. -/
theorem exists_mid {dialect : Dialect} {start : Nat} {tail : Text} {p : Placed}
    (hp : (keptValue dialect start tail).head? = some p) :
    ∃ gap mid, tail = spelling gap ++ mid ∧ (∀ t ∈ gap, t.isFiller = true) ∧
      tokens (.ofComments dialect) 0 tail = gap ++ tokens (.ofComments dialect) 0 mid ∧
      p.offset = start + (spelling gap).length ∧ Text.isBlank p.char = false ∧
      keptValue dialect start tail =
        (Uncommented.ofText dialect (start + (spelling gap).length) mid).kept := by
  have hfits := fitsAll_tokens (.ofComments dialect) 0 tail
  have hsplit := List.takeWhile_append_dropWhile (p := Token.isFiller)
    (l := tokens (.ofComments dialect) 0 tail)
  have hgap : ∀ t ∈ (tokens (.ofComments dialect) 0 tail).takeWhile Token.isFiller,
      t.isFiller = true := fun t ht => List.mem_takeWhile_imp ht
  obtain ⟨blanks, before, hblanks, hkept⟩ := exists_kept_append_of_filler hgap none start
    ((tokens (.ofComments dialect) 0 tail).dropWhile Token.isFiller)
  rw [hsplit] at hkept
  rw [keptValue, Uncommented.ofText, hkept, List.dropWhile_append_of_pos hblanks] at hp ⊢
  have htail := congrArg spelling hsplit
  rw [spelling_append, spelling_tokens] at htail
  rw [← hsplit, fitsAll_append, finalDepth_of_filler hgap] at hfits
  have hmid := tokens_spelling hfits.2
  refine ⟨_, _, htail.symm, hgap, by rw [hmid, hsplit], ?_⟩
  rw [Uncommented.ofText, hmid]
  cases hrest : (tokens (.ofComments dialect) 0 tail).dropWhile Token.isFiller with
  | nil =>
    rw [hrest] at hp
    exact absurd hp (by simp [ofTokens])
  | cons u us =>
    have hfiller := isFiller_of_dropWhile_eq_cons hrest
    rw [hrest] at hp hfits
    have hcomment : u.isComment = false := by
      cases u with
      | comment => exact absurd hfiller.symm Bool.false_ne_true
      | unterminated what s =>
        -- of a comment without an end nothing is kept
        cases what with
        | comment =>
          obtain rfl := hfits.2.eq_nil_of_unterminated
          rw [ofTokens_of_isComment rfl] at hp
          cases before <;> simp [ofTokens, Uncommented.gap, Uncommented.isSolid, firstChar] at hp
        | string | interpolation => rfl
      | quoted | interpolation | opening | closing | separator | glyph => rfl
    obtain ⟨c, s, htext, hc⟩ := hfits.2.1.exists_text_cons hfiller
    rw [dropWhile_kept_cons hcomment htext hc] at hp ⊢
    rw [head?_kept_cons hcomment htext] at hp
    rw [← Option.some.inj hp]
    exact ⟨rfl, hc, rfl⟩

theorem exists_head?_of_span? {chars : List Placed} {span : Span}
    (h : Placed.span? chars = some span) : ∃ p, chars.head? = some p ∧ span.start = p.offset := by
  cases chars with
  | nil => simp [Placed.span?] at h
  | cons p chars =>
    obtain ⟨q, hq⟩ := Option.isSome_iff_exists.1
      (List.getLast?_isSome.2 (List.cons_ne_nil p chars))
    rw [Placed.span?, hq] at h
    exact ⟨p, rfl, (congrArg Span.start (Option.some.inj h)).symm⟩

/-! ## The comments behind a colon -/

/-- The border of `outer` goes through the stretch. -/
def Span.Crosses (span outer : Span) : Prop :=
  span.start < outer.start ∧ outer.start < span.stop ∨
    span.start < outer.stop ∧ outer.stop < span.stop

section

variable {dialect : Dialect} {start : Nat} {gap : List Token} {written rest : Text}
  {later : List Span} {span : Span}
  (hspan : span =
    ⟨start + (spelling gap).length, start + (spelling gap).length + written.length⟩)
  (hread : tokens (.ofComments dialect) 0 (spelling gap ++ (written ++ rest)) =
    gap ++ tokens (.ofComments dialect) 0 (written ++ rest))
  (hall : (Uncommented.ofText dialect (start + (spelling gap).length) (written ++ rest)).comments =
    (Uncommented.ofText dialect (start + (spelling gap).length) written).comments ++ later)
  (hlater : ∀ c ∈ later, start + (spelling gap).length + written.length ≤ c.start)
include hspan hread hall hlater

/-- The comments behind a colon are those before the value, those of the value and those behind
it. -/
theorem exists_comments_tail : ∃ early,
    (Uncommented.ofText dialect start (spelling gap ++ (written ++ rest))).comments =
      early ++ (Uncommented.ofText dialect span.start written).comments ++ later ∧
    (∀ c ∈ early, c.start < c.stop ∧ c.stop ≤ span.start) ∧
    (∀ c ∈ (Uncommented.ofText dialect span.start written).comments,
      span.start ≤ c.start ∧ c.start < c.stop ∧ c.stop ≤ span.stop) ∧
    ∀ c ∈ later, c.start < c.stop ∧ span.stop ≤ c.start := by
  subst hspan
  have hne := (fitsAll_tokens (.ofComments dialect) 0 (spelling gap ++ (written ++ rest))).text_ne_nil
  have hwhole : (Uncommented.ofText dialect start (spelling gap ++ (written ++ rest))).comments =
      commentSpans start gap ++
        (Uncommented.ofText dialect (start + (spelling gap).length) (written ++ rest)).comments := by
    rw [Uncommented.ofText, hread, comments_ofTokens, commentSpans_append, Uncommented.ofText,
      comments_ofTokens]
  rw [hread, List.forall_mem_append] at hne
  refine ⟨commentSpans start gap, ?_, ?_, ?_, ?_⟩
  · rw [hwhole, hall, List.append_assoc]
  · intro c hc
    exact (bounds_of_mem_commentSpans hne.1 hc).2
  · intro c hc
    rw [Uncommented.ofText, comments_ofTokens] at hc
    have hbounds := bounds_of_mem_commentSpans
      (fitsAll_tokens (.ofComments dialect) 0 written).text_ne_nil hc
    rwa [spelling_tokens] at hbounds
  · intro c hc
    have hmem : c ∈ commentSpans (start + (spelling gap).length)
        (tokens (.ofComments dialect) 0 (written ++ rest)) := by
      rw [← comments_ofTokens none, ← Uncommented.ofText, hall]
      exact List.mem_append_right _ hc
    exact ⟨(bounds_of_mem_commentSpans hne.2 hmem).2.1, hlater c hc⟩

/-- Those inside the span are those of the value, and no other comment reaches into it. -/
theorem comments_of_cut :
    (Uncommented.ofText dialect start (spelling gap ++ (written ++ rest))).comments.filter
        (·.within span) = (Uncommented.ofText dialect span.start written).comments ∧
    ∀ c ∈ (Uncommented.ofText dialect start (spelling gap ++ (written ++ rest))).comments,
      ¬ c.Crosses span := by
  obtain ⟨early, hparts, hearly, hvalue, hbehind⟩ := exists_comments_tail hspan hread hall hlater
  have hle : span.start ≤ span.stop := by
    rw [hspan]
    exact Nat.le_add_right _ _
  rw [hparts]
  refine ⟨filter_within_eq hearly (fun c hc => ⟨(hvalue c hc).1, (hvalue c hc).2.2⟩) hbehind, ?_⟩
  intro c hc
  unfold Span.Crosses
  simp only [List.mem_append] at hc
  rcases hc with (hc | hc) | hc
  · have hbounds := hearly c hc
    omega
  · have hbounds := hvalue c hc
    omega
  · have hbounds := hbehind c hc
    omega

end

/-- **Behind a colon stand a gap, the value as it is written, and a rest.**  The value as it is
written, read by itself, gives the value and the comments of the declaration. -/
theorem exists_tail {dialect : Dialect} {start : Nat} {tail value : Text} {span : Span}
    (hvalue : withoutFlags (Placed.text (keptValue dialect start tail)) = value)
    (hspan : Placed.span? ((keptValue dialect start tail).take value.length) = some span) :
    ∃ gap written rest, tail = gap ++ written ++ rest ∧ written ≠ [] ∧
      span = ⟨start + gap.length, start + gap.length + written.length⟩ ∧
      (Uncommented.ofText dialect span.start written).text = value ∧
      (Uncommented.ofText dialect start tail).comments.filter (·.within span) =
        (Uncommented.ofText dialect span.start written).comments ∧
      (∀ c ∈ (Uncommented.ofText dialect start tail).comments, ¬ c.Crosses span) ∧
      (∀ t ∈ tokens (.ofComments dialect) 0 gap, t.isFiller = true) ∧
      (∀ t ∈ tokens (.ofComments dialect) 0 written, t.isComment = true → t.IsWholeComment) ∧
      Text.trim value = value ∧ ¬ EndsInFlag value := by
  subst hvalue
  obtain ⟨-, -, -, htrim, hend⟩ := exists_flagTail (Placed.text (keptValue dialect start tail))
  obtain ⟨first, second, p, hkept, hfirstSpan, hp, hblank, hfirst, hflags⟩ :=
    exists_cut_of_span? hspan
  rw [← hfirst] at htrim hend ⊢
  obtain ⟨q, hq, -⟩ := exists_head?_of_span? hfirstSpan
  have hhead : (keptValue dialect start tail).head? = some q := by
    rw [hkept, List.head?_append, hq]
    rfl
  obtain ⟨gap, mid, rfl, hgap, hread, hoffset, hqblank, hmid⟩ := exists_mid hhead
  obtain ⟨written, rest, later, rfl, hlength, hwritten, hall, hlater, hwhole⟩ :=
    exists_cut_text (hmid.symm.trans hkept) hp hblank
      fun q hq => hflags.ne_quote (List.mem_map_of_mem hq)
  have hspanEq : span =
      ⟨start + (spelling gap).length, start + (spelling gap).length + written.length⟩ := by
    rw [Placed.span?, hq, hp] at hfirstSpan
    rw [← Option.some.inj hfirstSpan, hoffset, hlength]
  obtain ⟨hinside, hcross⟩ := comments_of_cut hspanEq hread hall hlater
  refine ⟨spelling gap, written, rest, (List.append_assoc _ _ _).symm, ?_, hspanEq, ?_, hinside,
    hcross, ?_, hwhole, ?_, hend⟩
  · rintro rfl
    rw [← hwritten] at hp
    exact absurd hp (by simp [Uncommented.ofText, ofTokens])
  · rw [hspanEq, Uncommented.text, hwritten]
  · have hfits := fitsAll_tokens (.ofComments dialect) 0 (spelling gap ++ (written ++ rest))
    rw [hread] at hfits
    rw [tokens_spelling (fitsAll_append.1 hfits).1.atEnd]
    exact hgap
  · rw [Text.trim_eq_self_iff, Text.trimStart_eq_self_iff]
    refine ⟨?_, htrim⟩
    intro c hc
    rw [Placed.text, List.head?_map, hq] at hc
    rw [← Option.some.inj hc, hqblank]

end StyleLift.Stylesheet
