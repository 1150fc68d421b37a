import StyleLift.Proofs.Stylesheet.Interpolations
import StyleLift.Proofs.Stylesheet.Locations

/-!
# Comments across the ends of a value

No comment that the reader of a value finds goes beyond the span of the value.  The source can have
other comments: the reader that looks for the end of a statement skips interpolations, the one that
looks for comments does not, and a quote inside an interpolation hides from it a comment that stands
behind.  If the value ends inside that comment, a new value takes one half of it away.

This cannot happen where the two readings of the value agree, and without interpolations they do.

* `Declaration.ReadsAlike`: the two readings of the value agree.
* `StandsAt.not_crosses_of_readsAlike`: **then no comment of the source crosses the span.**
* `comment_crosses_interpolated_value`: a comment that does, where they do not agree.
* `StandsAt.readsAlike`: they agree if nothing behind the colon is an interpolation.
-/

namespace StyleLift.Stylesheet

/-! ## Values without interpolations -/

theorem FitsAll.isInterpolation_eq_false {lexis : Lexis} (hlexis : lexis.interpolations = false)
    {depth : Nat} {next : Option Char} {ts : List Token} (h : FitsAll lexis depth next ts) :
    ∀ t ∈ ts, t.isInterpolation = false := by
  induction ts generalizing depth with
  | nil => simp
  | cons t ts ih =>
    refine List.forall_mem_cons.2 ⟨?_, ih h.2⟩
    cases t with
    | interpolation s => exact absurd (hlexis.symm.trans h.1.1) Bool.false_ne_true
    | unterminated what s =>
      cases what with
      | comment | string => rfl
      | interpolation => exact absurd (hlexis.symm.trans h.1.2.1) Bool.false_ne_true
    | comment | quoted | opening | closing | separator | glyph => rfl

/-- Inside a statement, what is no comment and no interpolation is a string or one character. -/
theorem Token.Fits.simple_of_inside {lexis : Lexis} {depth : Nat} {next : Option Char} {t : Token}
    (h : t.Fits lexis depth next) (hinside : Stop.ofToken? t = none)
    (hcomment : t.isComment = false) (hnone : t.isInterpolation = false) : t.Simple := by
  cases t with
  | quoted s => exact h
  | glyph c => trivial
  | comment s => exact absurd hcomment.symm Bool.false_ne_true
  | interpolation s => exact absurd hnone.symm Bool.false_ne_true
  | opening | closing | separator | unterminated => exact absurd hinside (by simp [Stop.ofToken?])

/-- Where nothing behind a colon is an interpolation, the tokens there are a gap, the value as it is
written, and the rest. -/
theorem exists_value_of_isInterpolation_eq_false {dialect : Dialect} {start : Nat} {tail : Text}
    (hinside : ∀ t ∈ tokens (.ofStatements dialect) 0 tail, Stop.ofToken? t = none)
    (hnone : ∀ t ∈ tokens (.ofStatements dialect) 0 tail, t.isInterpolation = false) {span : Span}
    (hspan : Placed.span? ((keptValue dialect start tail).take
      (withoutFlags (Placed.text (keptValue dialect start tail))).length) = some span) :
    ∃ gap value rest, tokens (.ofStatements dialect) 0 tail = gap ++ value ++ rest ∧
      (∀ t ∈ gap, t.isFiller = true) ∧
      span = ⟨start + (spelling gap).length,
        start + (spelling gap).length + (spelling value).length⟩ := by
  have hfits := fitsAll_tokens (.ofStatements dialect) 0 tail
  have hsame := tokens_spelling (hfits.ofComments hnone)
  rw [spelling_tokens] at hsame
  obtain ⟨first, second, p, hkept, hfirstSpan, hp, hblank, -, hflags⟩ := exists_cut_of_span? hspan
  obtain ⟨q, hq, -⟩ := exists_head?_of_span? hfirstSpan
  obtain ⟨gap, mid, -, hgap, hread, hoffset, -, hmid⟩ :=
    exists_mid (by rw [hkept, List.head?_append, hq]; rfl)
  obtain ⟨us, t, vs, cut, behind, hts, ht, htext, hcut, hbehind, hfirst⟩ :=
    exists_cut_token (hmid.symm.trans hkept) hp hblank
  rw [← hsame, hread, hts] at hinside hnone hfits
  have hmem : t ∈ gap ++ (us ++ t :: vs) := by simp
  have htoken : t.Fits _ _ _ := (fitsAll_append.1 (fitsAll_append.1 hfits).2).2.1
  -- the token at the end of the value is not cut
  obtain rfl : behind = [] := by
    refine (htoken.simple_of_inside (hinside t hmem) ht (hnone t hmem)).eq_nil_of_cut ht hcut ?_
      htext
    intro c hc
    obtain ⟨r, hr, rfl⟩ := List.mem_map.1 (hbehind.subset hc)
    exact hflags.ne_quote (List.mem_map_of_mem hr)
  rw [List.append_nil] at htext
  refine ⟨gap, us ++ [t], vs, ?_, hgap, ?_⟩
  · rw [← hsame, hread, hts]
    simp
  · have hlast := hp
    rw [← hfirst t ht htext] at hlast
    rw [length_of_getLast?_kept ht (htext ▸ hcut) hlast, ← hoffset]
    rw [Placed.span?, hq, hp] at hfirstSpan
    exact (Option.some.inj hfirstSpan).symm

/-! ## Values that are read alike -/

/-- The two readings of the value as it is written agree: nothing in it is left open, and the reader
that looks for comments ends every interpolation at its brace.  A plain stylesheet is read in one way
only. -/
def Declaration.ReadsAlike (dialect : Dialect) (source : Text) (d : Declaration) : Prop :=
  dialect = .scss → agrees 0 (tokens (.ofStatements .scss) 0 (d.span.slice source)) = true

instance (dialect : Dialect) (source : Text) (d : Declaration) :
    Decidable (d.ReadsAlike dialect source) :=
  inferInstanceAs (Decidable (_ → _))

/-- Where the two readings of a value agree, the first one sees a gap, the value as it is written, and
the rest behind the colon. -/
theorem StandsAt.exists_value {dialect : Dialect} {d : Declaration} {site : Site}
    (h : StandsAt dialect d site) (halike : d.ReadsAlike dialect site.text) :
    ∃ gap value rest, tokens (.ofStatements dialect) 0 site.tail = gap ++ value ++ rest ∧
      d.span = ⟨site.head.length + (spelling gap).length,
        site.head.length + (spelling gap).length + (spelling value).length⟩ := by
  have hspan := h.span?_eq
  rw [← h.withoutFlags_eq] at hspan
  cases dialect with
  | css =>
    have hnone := (fitsAll_tokens (.ofStatements .css) 0 site.tail).isInterpolation_eq_false rfl
    obtain ⟨gap, value, rest, hread, -, hspanEq⟩ :=
      exists_value_of_isInterpolation_eq_false h.inside hnone hspan
    exact ⟨gap, value, rest, hread, hspanEq⟩
  | scss =>
    have hsource : site.text = site.head ++ site.tail ++ site.after := rfl
    obtain ⟨gap, value, rest, hread, -, -, -, -, -, -, hspanEq⟩ :=
      exists_written hsource h.inside hspan (halike rfl)
    exact ⟨gap, value, rest, hread, hspanEq⟩

/-- **Where the two readings of a value agree, no comment of the source crosses its span.** -/
theorem StandsAt.not_crosses_of_readsAlike {dialect : Dialect} {d : Declaration} {site : Site}
    (h : StandsAt dialect d site) (halike : d.ReadsAlike dialect site.text) :
    ∀ c ∈ commentSpans 0 (tokens (.ofStatements dialect) 0 site.text), ¬ c.Crosses d.span := by
  intro c hc hcrosses
  obtain ⟨gap, value, rest, hread, hspan⟩ := h.exists_value halike
  -- the comment is one of the gap, of the value or of the rest
  have hmem := h.mem_tail_of_crosses c hc hcrosses
  have hne := (fitsAll_tokens (.ofStatements dialect) 0 site.tail).text_ne_nil
  rw [hread] at hmem hne
  rw [commentSpans_append, commentSpans_append, spelling_append, List.length_append,
    List.mem_append, List.mem_append] at hmem
  rw [List.forall_mem_append, List.forall_mem_append] at hne
  rw [hspan, Span.Crosses] at hcrosses
  dsimp only at hcrosses
  rcases hmem with (hgap | hvalue) | hrest
  · have hbounds := bounds_of_mem_commentSpans hne.1.1 hgap
    omega
  · have hbounds := bounds_of_mem_commentSpans hne.1.2 hvalue
    omega
  · have hbounds := bounds_of_mem_commentSpans hne.2 hrest
    omega

/-- A quote inside an interpolation, and a comment with a quote and a flag behind it.  For the reader
that looks for comments, a string goes from one quote to the other, so it takes the start of the
comment for a part of the value, and the end of it for a flag.  A new value leaves only the flag,
which is no comment any more. -/
theorem comment_crosses_interpolated_value :
    ∃ doc d, Document.parse .scss "a\x7bcolor: #\x7b'\x7d x // ' !important\n\x7d".toList = .ok doc ∧
      doc.declarations = [d] ∧ d.value = "#\x7b'\x7d x // '".toList ∧ d.span = ⟨9, 20⟩ ∧
      d.comments = [] ∧
      ⟨16, 31⟩ ∈ commentSpans 0 (tokens (.ofStatements .scss) 0
        "a\x7bcolor: #\x7b'\x7d x // ' !important\n\x7d".toList) ∧
      Span.Crosses ⟨16, 31⟩ d.span ∧
      ¬ d.ReadsAlike .scss "a\x7bcolor: #\x7b'\x7d x // ' !important\n\x7d".toList ∧
      (doc.setValue 0 "red".toList).render = "a\x7bcolor: red !important\n\x7d".toList := by
  have hdoc : Document.parse .scss "a\x7bcolor: #\x7b'\x7d x // ' !important\n\x7d".toList = .ok
      ⟨"a\x7bcolor: #\x7b'\x7d x // ' !important\n\x7d".toList,
        [{ declaration := ⟨"color".toList, "#\x7b'\x7d x // '".toList, 1, ["a".toList], ⟨9, 20⟩,
            []⟩ }]⟩ := by
    decide +kernel
  refine ⟨_, _, hdoc, rfl, rfl, rfl, rfl, ?_, ?_, ?_, ?_⟩
  · decide +kernel
  · exact Or.inr (by decide)
  · decide +kernel
  · decide +kernel

/-- Tokens with both their ends, none of them an interpolation, are read alike. -/
theorem agrees_of_isInterpolation_eq_false {ts : List Token}
    (hts : ∀ t ∈ ts, t.isTerminated = true ∧ t.isInterpolation = false) (depth : Nat) :
    agrees depth ts = true := by
  induction ts generalizing depth with
  | nil => rfl
  | cons t ts ih =>
    rw [List.forall_mem_cons] at hts
    refine agrees_cons.2 ⟨?_, hts.1.1, ih hts.2 _⟩
    rintro s rfl
    exact absurd hts.1.2.symm Bool.false_ne_true

/-- **Where nothing behind the colon is an interpolation, the two readings agree.** -/
theorem StandsAt.readsAlike {dialect : Dialect} {d : Declaration} {site : Site}
    (h : StandsAt dialect d site)
    (hnone : ∀ t ∈ tokens (.ofStatements dialect) 0 site.tail, t.isInterpolation = false) :
    d.ReadsAlike dialect site.text := by
  rintro rfl
  have hspan := h.span?_eq
  rw [← h.withoutFlags_eq] at hspan
  obtain ⟨gap, value, rest, hread, hgap, hspanEq⟩ :=
    exists_value_of_isInterpolation_eq_false h.inside hnone hspan
  have hslice : d.span.slice site.text = spelling value := by
    have htext : site.text = (site.head ++ spelling gap) ++ spelling value ++
        (spelling rest ++ site.after) := by
      have htail := spelling_tokens (.ofStatements .scss) 0 site.tail
      rw [hread] at htail
      rw [Site.text, ← htail]
      simp
    rw [hspanEq, htext, ← List.length_append, Span.slice_append]
  have hfits := fitsAll_tokens (.ofStatements .scss) 0 site.tail
  rw [hread] at hfits
  have hvalue := (fitsAll_append.1 (fitsAll_append.1 hfits).1).2
  rw [finalDepth_of_filler hgap] at hvalue
  rw [hslice, tokens_spelling hvalue.atEnd]
  refine agrees_of_isInterpolation_eq_false (fun t ht => ?_) 0
  have hmem : t ∈ tokens (.ofStatements .scss) 0 site.tail := by
    rw [hread]
    exact List.mem_append_left _ (List.mem_append_right _ ht)
  exact ⟨Token.isTerminated_of_inside (h.inside t hmem), hnone t hmem⟩

end StyleLift.Stylesheet
