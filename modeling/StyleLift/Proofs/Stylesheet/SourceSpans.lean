import StyleLift.Proofs.Stylesheet.Crossings
import StyleLift.Proofs.Stylesheet.SourceMap
import StyleLift.Proofs.Text.Bytes

/-!
# Spans in the bytes of the source

Whoever cuts a source where a declaration says has its bytes in hand.  The ends of a span come from
the bytes, too: when the comments behind the colon are taken out, the offset of every byte that is
left is known, and a value stands from the offset of its first byte to behind that of its last one.
These bytes belong to characters that were kept whole, so neither end lies inside a character; and
the last character of a value is not blank, so it is no space that a comment has left.

* `Remains.valueSpan?`: the ends of a value, from the offsets of the bytes that are left.
* `StandsAt.valueSpan?_eq`, `StandsAt.filter_comments_eq`: **the span and the comments of a
  declaration, in bytes, are what these offsets give.**
* `Span.Holds`: bytes that can be cut out of a source.
* `declarations_located`: **every declaration is where it is said to be.**
-/

namespace StyleLift.Stylesheet

open Glob (Byte utf8)

/-! ## Bytes of the source -/

/-- A stretch of characters of a source, in bytes. -/
def Span.inBytes (source : Text) (span : Span) : Span :=
  ⟨(Text.bytePosition source span.start).byteIdx, (Text.bytePosition source span.stop).byteIdx⟩

/-- A stretch of bytes of a source is not empty, begins and ends between two characters, and holds
`piece`. -/
structure Span.Holds (bytes : Span) (source piece : Text) : Prop where
  lt : bytes.start < bytes.stop
  le : bytes.stop ≤ source.byteLength
  start_valid : String.Pos.Raw.IsValid (String.ofList source) ⟨bytes.start⟩
  stop_valid : String.Pos.Raw.IsValid (String.ofList source) ⟨bytes.stop⟩
  extract_eq : String.Pos.Raw.extract (String.ofList source) ⟨bytes.start⟩ ⟨bytes.stop⟩ =
    String.ofList piece

theorem Span.holds_inBytes {source : Text} {span : Span} (hlt : span.start < span.stop)
    (hle : span.stop ≤ source.length) : (span.inBytes source).Holds source (span.slice source) where
  lt := Text.bytePosition_lt hlt hle
  le := Text.bytePosition_le_byteLength source span.stop
  start_valid := Text.isValid_bytePosition source span.start
  stop_valid := Text.isValid_bytePosition source span.stop
  extract_eq := Text.extract_bytePosition hlt.le

/-- One stretch lies inside another if its bytes do. -/
theorem Span.within_inBytes {source : Text} {inner outer : Span}
    (hinner : inner.start ≤ source.length ∧ inner.stop ≤ source.length)
    (houter : outer.start ≤ source.length ∧ outer.stop ≤ source.length) :
    (inner.inBytes source).within (outer.inBytes source) = inner.within outer := by
  rw [Span.within, Span.within, Bool.eq_iff_iff]
  simp only [Bool.and_eq_true, decide_eq_true_eq]
  exact and_congr (Text.bytePosition_le_iff houter.1 hinner.1)
    (Text.bytePosition_le_iff hinner.2 houter.2)

/-! ## The span of a value, from the offsets of bytes -/

/-- The stretch of the source from which `value` is left, when `text` is all that is left, and `value`
starts behind the blanks in front of it: from the offset of its first byte to behind that of its last
one. -/
def Remains.valueSpan? (r : Remains) (text value : Text) : Option Span := do
  let lead := text.byteLength - (Text.trimStart text).byteLength
  let first ← r.offsets[lead]?
  let last ← r.offsets[lead + value.byteLength - 1]?
  some ⟨first, last + 1⟩

/-- Every character has as many offsets as it has bytes. -/
theorem length_flatMap_range' (place : Nat → Nat) (chars : List Placed) :
    (chars.flatMap fun p => List.range' (place p.offset) p.char.utf8Size).length =
      (Placed.text chars).byteLength := by
  induction chars with
  | nil => rfl
  | cons p chars ih =>
    rw [List.flatMap_cons, List.length_append, List.length_range', ih]
    rfl

/-- The offset of a byte of a character. -/
theorem getElem?_flatMap_range' (place : Nat → Nat) (front back : List Placed) {p : Placed} {k : Nat}
    (hk : k < p.char.utf8Size) :
    ((front ++ p :: back).flatMap fun p => List.range' (place p.offset) p.char.utf8Size)[
      (Placed.text front).byteLength + k]? = some (place p.offset + k) := by
  have hfront := length_flatMap_range' place front
  rw [List.flatMap_append, List.flatMap_cons, List.getElem?_append_right (by omega), hfront,
    Nat.add_sub_cancel_left, List.getElem?_append_left (by rwa [List.length_range']),
    List.getElem?_range' hk, Nat.one_mul]

/-- The offsets of the first and the last byte of some characters in the middle. -/
theorem valueSpan?_inBytes {place : Nat → Nat} {u : Uncommented} {blanks first second : List Placed}
    {p q : Placed} (hkept : u.kept = blanks ++ (first ++ second))
    (htrim : Text.trimStart u.text = Placed.text (first ++ second)) (hp : first.head? = some p)
    (hq : first.getLast? = some q) :
    (u.inBytes place).valueSpan? u.text (Placed.text first) =
      some ⟨place p.offset, place q.offset + q.char.utf8Size⟩ := by
  have htext : u.text = Placed.text blanks ++ Placed.text (first ++ second) := by
    rw [Uncommented.text, hkept, Placed.text_append]
  have hlead : u.text.byteLength - (Text.trimStart u.text).byteLength =
      (Placed.text blanks).byteLength := by
    rw [htrim, htext, Text.byteLength_append, Nat.add_sub_cancel]
  have hfirst : (u.inBytes place).offsets[(Placed.text blanks).byteLength]? =
      some (place p.offset) := by
    obtain ⟨rest, rfl⟩ := List.head?_eq_some_iff.1 hp
    rw [Uncommented.inBytes, hkept, List.cons_append]
    exact getElem?_flatMap_range' place blanks (rest ++ second) p.char.utf8Size_pos
  have hsize := q.char.utf8Size_pos
  have hlast : (u.inBytes place).offsets[
      (Placed.text blanks).byteLength + (Placed.text first).byteLength - 1]? =
        some (place q.offset + (q.char.utf8Size - 1)) := by
    obtain ⟨front, rfl⟩ := List.getLast?_eq_some_iff.1 hq
    have hindex : (Placed.text blanks).byteLength + (Placed.text (front ++ [q])).byteLength - 1 =
        (Placed.text (blanks ++ front)).byteLength + (q.char.utf8Size - 1) := by
      have hq : (Placed.text [q]).byteLength = q.char.utf8Size := rfl
      rw [Placed.text_append, Placed.text_append, Text.byteLength_append, Text.byteLength_append, hq]
      omega
    rw [hindex, Uncommented.inBytes, hkept, List.append_assoc, ← List.append_assoc blanks]
    exact getElem?_flatMap_range' place (blanks ++ front) second (Nat.sub_one_lt_of_lt hsize)
  rw [Remains.valueSpan?, hlead, hfirst, hlast]
  simp only [Option.bind_eq_bind, Option.bind_some, Option.some.injEq, Span.mk.injEq, true_and]
  omega

theorem Placed.getElem?_of_mem_ofText {offset : Nat} {s : Text} {p : Placed}
    (hp : p ∈ Placed.ofText offset s) : s[p.offset - offset]? = some p.char := by
  induction s generalizing offset with
  | nil => exact absurd hp List.not_mem_nil
  | cons c s ih =>
    rcases List.mem_cons.1 hp with rfl | hp
    · simp
    · have hbounds := Placed.offset_of_mem_ofText hp
      have hplace : p.offset - offset = (p.offset - (offset + 1)) + 1 := by omega
      rw [hplace, List.getElem?_cons_succ]
      exact ih hp

/-- A character that is kept and is not blank is the one of the source at its place. -/
theorem getElem?_of_mem_kept {ts : List Token} {before : Option Char} {offset : Nat} {p : Placed}
    (hts : ∀ t ∈ ts, t.text ≠ []) (hp : p ∈ (Uncommented.ofTokens before offset ts).kept)
    (hblank : Text.isBlank p.char = false) : (spelling ts)[p.offset - offset]? = some p.char := by
  induction ts generalizing before offset with
  | nil => exact absurd hp List.not_mem_nil
  | cons t ts ih =>
    rw [List.forall_mem_cons] at hts
    have hrest : ∀ {before}, p ∈ (Uncommented.ofTokens before (offset + t.text.length) ts).kept →
        (spelling (t :: ts))[p.offset - offset]? = some p.char := by
      intro before hp
      have hbounds := offset_of_mem_kept hts.2 hp
      rw [spelling_cons, List.getElem?_append_right (by omega), Nat.sub_sub]
      exact ih hts.2 hp
    cases ht : t.isComment with
    | true =>
      rw [ofTokens_of_isComment ht] at hp
      rcases List.mem_append.1 hp with hgap | hp
      · exact absurd ((isBlank_of_mem_gap hgap).symm.trans hblank) (by decide)
      · exact hrest hp
    | false =>
      rw [ofTokens_of_not_isComment ht] at hp
      rcases List.mem_append.1 hp with hp | hp
      · have hbounds := Placed.offset_of_mem_ofText hp
        rw [spelling_cons, List.getElem?_append_left (by omega)]
        exact Placed.getElem?_of_mem_ofText hp
      · exact hrest hp

/-! ## What is found behind a colon -/

namespace Site

/-- What is left of the text behind the colon without its comments. -/
def remaining (dialect : Dialect) (site : Site) : Text :=
  (Uncommented.ofText dialect site.head.length site.tail).text

/-- What is left of the bytes behind the colon without their comments. -/
def remains (dialect : Dialect) (site : Site) : Remains :=
  removeComments dialect site.head.byteLength (utf8 site.tail)

/-- Behind the colon the bytes are those of the source. -/
theorem byteOffset_tail (site : Site) {n : Nat} (hle : site.head.length ≤ n)
    (hle' : n ≤ site.head.length + site.tail.length) :
    byteOffset site.tail site.head.length site.head.byteLength n =
      (Text.bytePosition site.text n).byteIdx := by
  have htake : site.text.take n = site.head ++ site.tail.take (n - site.head.length) := by
    have hn : n = site.head.length + (n - site.head.length) := by omega
    rw [Site.text, List.append_assoc, hn, List.take_length_add_append, Nat.add_sub_cancel_left,
      List.take_append_of_le_length (by omega)]
  show _ = Text.byteLength (site.text.take n)
  rw [htake, Text.byteLength_append]
  rfl

end Site

/-- The declaration describes what is left of the bytes behind the colon of a site. -/
structure StandsInBytes (dialect : Dialect) (d : Declaration) (site : Site) : Prop where
  /-- The bytes are those of a text. -/
  bytes_eq : (site.remains dialect).bytes = utf8 (site.remaining dialect)
  /-- The text is the value, with blanks before it and flags behind it. -/
  withoutFlags_eq : withoutFlags (Text.trimStart (site.remaining dialect)) = d.value
  /-- The span is what the offsets of the bytes of the value give, -/
  span_eq : (site.remains dialect).valueSpan? (site.remaining dialect) d.value =
    some (d.span.inBytes site.text)
  /-- and the comments are those inside it. -/
  comments_eq : (site.remains dialect).comments.filter (·.within (d.span.inBytes site.text)) =
    d.comments.map (·.inBytes site.text)
  /-- From the bytes of the span alone, the bytes of the value are left. -/
  written_eq : (removeComments dialect 0 (utf8 (d.span.slice site.text))).bytes = utf8 d.value

section

variable {dialect : Dialect} {d : Declaration} {site : Site}

/-- The ends of the span are offsets of bytes that are left. -/
theorem StandsAt.valueSpan?_eq (h : StandsAt dialect d site) :
    (site.remains dialect).valueSpan? (site.remaining dialect) d.value =
      some (d.span.inBytes site.text) := by
  have hspan := h.span?_eq
  rw [← h.withoutFlags_eq] at hspan ⊢
  obtain ⟨first, second, q, hvalue, hfirstSpan, hq, hblank, hfirst, -⟩ := exists_cut_of_span? hspan
  obtain ⟨p, hp, hstart⟩ := exists_head?_of_span? hfirstSpan
  have hspanEq : d.span = ⟨p.offset, q.offset + 1⟩ := by
    rw [Placed.span?, hp, hq] at hfirstSpan
    exact (Option.some.inj hfirstSpan).symm
  obtain ⟨blanks, hkept⟩ : ∃ blanks, (Uncommented.ofText dialect site.head.length site.tail).kept =
      blanks ++ (first ++ second) := by
    refine ⟨(Uncommented.ofText dialect site.head.length site.tail).kept.takeWhile
      fun p => Text.isBlank p.char, ?_⟩
    rw [← hvalue, keptValue, List.takeWhile_append_dropWhile]
  have htrim : Text.trimStart (Uncommented.ofText dialect site.head.length site.tail).text =
      Placed.text (first ++ second) := by
    rw [← hvalue, text_keptValue, Uncommented.ofText, text_ofTokens]
  rw [Site.remains, removeComments_utf8 dialect site.head.length, Site.remaining, ← hfirst,
    valueSpan?_inBytes hkept htrim hp hq, hspanEq]
  -- both characters stand behind the colon, the second as it does in the source
  have hne := (fitsAll_tokens (.ofComments dialect) 0 site.tail).text_ne_nil
  have hmem : ∀ r ∈ first, r ∈ (Uncommented.ofText dialect site.head.length site.tail).kept := by
    intro r hr
    rw [hkept]
    exact List.mem_append_right _ (List.mem_append_left _ hr)
  have hpPlace := offset_of_mem_kept hne (hmem p (List.mem_of_head? hp))
  have hqPlace := offset_of_mem_kept hne (hmem q (List.mem_of_getLast? hq))
  have hqChar := getElem?_of_mem_kept hne (hmem q (List.mem_of_getLast? hq)) hblank
  rw [spelling_tokens] at hpPlace hqPlace hqChar
  have hchar : site.text[q.offset]? = some q.char := by
    rw [Site.text, List.append_assoc, List.getElem?_append_right hqPlace.1,
      List.getElem?_append_left (by omega), hqChar]
  rw [site.byteOffset_tail hpPlace.1 hpPlace.2.le, site.byteOffset_tail hqPlace.1 hqPlace.2.le,
    ← Text.bytePosition_succ hchar]
  rfl

/-- The comments of the value are those of the bytes inside the span. -/
theorem StandsAt.filter_comments_eq (h : StandsAt dialect d site) :
    (site.remains dialect).comments.filter (·.within (d.span.inBytes site.text)) =
      d.comments.map (·.inBytes site.text) := by
  have hbounds : ∀ c ∈ (Uncommented.ofText dialect site.head.length site.tail).comments,
      site.head.length ≤ c.start ∧ c.start < c.stop ∧
        c.stop ≤ site.head.length + site.tail.length := by
    intro c hc
    have hne := (fitsAll_tokens (.ofComments dialect) 0 site.tail).text_ne_nil
    rw [Uncommented.ofText, comments_ofTokens] at hc
    have hbounds := bounds_of_mem_commentSpans hne hc
    rwa [spelling_tokens] at hbounds
  have hcomments : (site.remains dialect).comments =
      (Uncommented.ofText dialect site.head.length site.tail).comments.map
        (·.inBytes site.text) := by
    rw [Site.remains, removeComments_utf8 dialect site.head.length]
    refine List.map_congr_left fun c hc => ?_
    have hc := hbounds c hc
    rw [site.byteOffset_tail hc.1 (by omega), site.byteOffset_tail (by omega) hc.2.2]
    rfl
  have hspan := h.isLocated.bounds
  have hlength : site.head.length + site.tail.length ≤ site.text.length := by
    rw [Site.text, List.length_append, List.length_append]
    omega
  rw [hcomments, List.filter_map, ← h.filter_eq]
  refine congrArg (List.map _) (List.filter_congr fun c hc => ?_)
  have hc := hbounds c hc
  exact Span.within_inBytes (by omega) (by omega)

/-- **A declaration describes its site in bytes as it does in characters.** -/
theorem StandsAt.standsInBytes (h : StandsAt dialect d site) : StandsInBytes dialect d site where
  bytes_eq :=
    congrArg Remains.bytes (removeComments_utf8 dialect site.head.length site.head.byteLength _)
  withoutFlags_eq := by
    rw [Site.remaining, Uncommented.ofText, text_ofTokens, ← text_keptValue, h.withoutFlags_eq]
  span_eq := h.valueSpan?_eq
  comments_eq := h.filter_comments_eq
  written_eq := by
    have hremoved := congrArg Remains.bytes
      (removeComments_utf8 dialect 0 0 (d.span.slice site.text))
    rw [hremoved, ← h.isLocated.uncommented_eq]
    rfl

end

/-! ## Every declaration is where it is said to be -/

/-- The text of the source around the value of a declaration. -/
structure IsSiteOf (dialect : Dialect) (source : Text) (d : Declaration) (site : Site) : Prop where
  text_eq : site.text = source
  stands : StandsAt dialect d site
  standsInBytes : StandsInBytes dialect d site
  /-- Where nothing behind the colon is an interpolation, the two readings of the value agree. -/
  readsAlike : (∀ t ∈ tokens (.ofStatements dialect) 0 site.tail, t.isInterpolation = false) →
    d.ReadsAlike dialect source

/-- The declaration is where it is said to be, in characters and in bytes. -/
structure IsLocatedInBytes (dialect : Dialect) (source : Text) (d : Declaration) : Prop
    extends IsLocated dialect source d where
  /-- The property stands in the line that is given; behind it come blanks, the colon, blanks and
  comments, and then the span, whose ends are offsets of the bytes that are left behind the colon. -/
  site : ∃ site, IsSiteOf dialect source d site
  /-- The span can be cut out of the bytes of the source, and so can its comments. -/
  holds : (d.span.inBytes source).Holds source (d.span.slice source)
  comments_hold : ∀ c ∈ d.comments, (c.inBytes source).Holds source (c.slice source)
  /-- No comment of the source crosses the span, if both readers see the same value. -/
  not_crosses : d.ReadsAlike dialect source →
    ∀ c ∈ commentSpans 0 (tokens (.ofStatements dialect) 0 source), ¬ c.Crosses d.span

theorem StandsAt.isLocatedInBytes {dialect : Dialect} {d : Declaration} {site : Site}
    (h : StandsAt dialect d site) : IsLocatedInBytes dialect site.text d where
  toIsLocated := h.isLocated
  site := ⟨site, rfl, h, h.standsInBytes, h.readsAlike⟩
  holds := Span.holds_inBytes h.isLocated.bounds.1 h.isLocated.bounds.2
  comments_hold := by
    intro c hc
    obtain ⟨-, hlt, hle⟩ := h.isLocated.comments_inside c hc
    exact Span.holds_inBytes hlt (hle.trans h.isLocated.bounds.2)
  not_crosses := h.not_crosses_of_readsAlike

/-- **Every declaration is where it is said to be.**  In every source that is read without a fault,
in either dialect, the values stand one behind the other, and each of them can be cut out of the
bytes of the source where its span says. -/
theorem declarations_located {dialect : Dialect} {source : Text} {doc : Document}
    (h : Document.parse dialect source = .ok doc) :
    doc.declarations.Pairwise (fun d e => d.span.stop < e.span.start ∧
        (d.span.inBytes source).stop < (e.span.inBytes source).start) ∧
      ∀ d ∈ doc.declarations, IsLocatedInBytes dialect source d := by
  obtain ⟨-, -, hreading⟩ := reading_of_parse h
  refine ⟨(pairwise_spans hreading).2.imp_of_mem fun _ he hlt => ⟨hlt, ?_⟩, fun d hd => ?_⟩
  · have hbounds := (isLocated_of_parse h he).bounds
    exact Text.bytePosition_lt hlt (hbounds.1.le.trans hbounds.2)
  · obtain ⟨site, rfl, hsite⟩ := exists_site (declaredIn_of_parse h hd)
    exact hsite.isLocatedInBytes

/-- Characters of several bytes before and inside a value, with a comment inside it and one before
its flag; and a declaration in the second line with its value, an interpolation, in the third. -/
theorem declarations_located_with_comments :
    ∃ doc, Document.parse .scss
        "/*é*/a\x7bb:é/*ü*/y /**/!important;\n$c:// d\n #\x7b\"ß\"\x7d\x7d".toList = .ok doc ∧
      doc.declarations.map (fun d => (d.value, d.line, d.span)) =
        [("é y".toList, 1, ⟨9, 16⟩), ("#\x7b\"ß\"\x7d".toList, 2, ⟨42, 48⟩)] ∧
      doc.declarations.map (fun d => d.span.inBytes
        "/*é*/a\x7bb:é/*ü*/y /**/!important;\n$c:// d\n #\x7b\"ß\"\x7d\x7d".toList) =
        [⟨10, 19⟩, ⟨45, 52⟩] ∧
      ∀ d ∈ doc.declarations, d.ReadsAlike .scss
          "/*é*/a\x7bb:é/*ü*/y /**/!important;\n$c:// d\n #\x7b\"ß\"\x7d\x7d".toList ∧
        IsLocatedInBytes .scss
          "/*é*/a\x7bb:é/*ü*/y /**/!important;\n$c:// d\n #\x7b\"ß\"\x7d\x7d".toList d := by
  have hdoc : Document.parse .scss
      "/*é*/a\x7bb:é/*ü*/y /**/!important;\n$c:// d\n #\x7b\"ß\"\x7d\x7d".toList = .ok
      ⟨"/*é*/a\x7bb:é/*ü*/y /**/!important;\n$c:// d\n #\x7b\"ß\"\x7d\x7d".toList,
        [{ declaration :=
            ⟨"b".toList, "é y".toList, 1, ["a".toList], ⟨9, 16⟩, [⟨10, 15⟩]⟩ },
          { declaration := ⟨"$c".toList, "#\x7b\"ß\"\x7d".toList, 2, ["a".toList], ⟨42, 48⟩,
            []⟩ }]⟩ := by
    decide +kernel
  refine ⟨_, hdoc, rfl, by decide +kernel, fun d hd => ⟨?_, (declarations_located hdoc).2 d hd⟩⟩
  revert d
  decide +kernel

end StyleLift.Stylesheet
