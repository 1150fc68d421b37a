import StyleLift.Proofs.Stylesheet.WrittenValues

/-!
# Where declarations stand

A declaration says in which line its property stands, where its value stands and where the comments
of this value are.  All three are counted while the source is taken apart: statement by statement,
and inside a statement from its colon on.  Here they are found again in the whole source, so that
whoever cuts the source where a declaration says gets what the declaration says.

* `DeclaredIn`, `declaredIn_of_parse`: every declaration is that of a statement, and the line in
  which this starts.
* `Site`, `StandsAt`, `exists_site`: the text around a value, and how a declaration describes it.
* `pairwise_spans`: values stand one behind the other.
* `isLocated_of_parse`: **every declaration is where it is said to be.**
-/

namespace StyleLift.Stylesheet

/-! ## The statement of a declaration -/

/-- The declaration is that of a statement among the tokens, which start at `offset` in line
`line`; the statement ends at a separator, at a closing brace or with the source. -/
def DeclaredIn (dialect : Dialect) (offset line : Nat) (ts : List Token) (d : Declaration) : Prop :=
  ∃ front body back next blocks stop, ts = front ++ body ++ back ∧ IsBody dialect next body ∧
    (∀ c, (spelling back).head? = some c → c = ';' ∨ c = '}') ∧
    Statement.declaration? dialect (offset + (spelling front).length)
      (line + (spelling front).count '\n') blocks ⟨body, stop⟩ = some d

section

variable {dialect : Dialect} {offset line : Nat} {ts : List Token} {d : Declaration}

/-- The first statement. -/
theorem DeclaredIn.of_mem {body back : List Token} {next : Option Char} {blocks : List Text}
    {stop : Stop} (hbody : IsBody dialect next body)
    (hd : d ∈ (Statement.declaration? dialect offset line blocks ⟨body, stop⟩).toList)
    (hback : ∀ c, (spelling back).head? = some c → c = ';' ∨ c = '}') :
    DeclaredIn dialect offset line (body ++ back) d :=
  ⟨[], body, back, next, blocks, stop, rfl, hbody, hback, Option.mem_toList.1 hd⟩

/-- Behind a statement and the structural token `t`. -/
theorem DeclaredIn.behind {body : List Token} {stop : Stop} {t : Token} (htext : t.text.length = 1)
    (hcount : t.text.count '\n' = 0)
    (h : DeclaredIn dialect (offset + Statement.length ⟨body, stop⟩ + 1)
      (line + Statement.newlines ⟨body, stop⟩) ts d) :
    DeclaredIn dialect offset line (body ++ t :: ts) d := by
  obtain ⟨front, inner, back, next, blocks, stop', rfl, hinner, hback, hd⟩ := h
  refine ⟨body ++ t :: front, inner, back, next, blocks, stop', by simp, hinner, hback, ?_⟩
  rw [length_statement, newlines_statement] at hd
  rw [← hd, spelling_append, spelling_cons, List.length_append, List.length_append, htext,
    List.count_append, List.count_append, hcount]
  congr 1 <;> omega

/-- **Every declaration that is read is that of a statement.** -/
theorem declaredIn_of_eq_ok {blocks : List Text} {ds : List Declaration}
    (hfits : FitsAll (.ofStatements dialect) 0 none ts)
    (h : declarations dialect offset line blocks (Statement.ofTokens ts) = .ok ds) (hd : d ∈ ds) :
    DeclaredIn dialect offset line ts d := by
  induction ts using statement_induction generalizing offset line blocks ds with
  | finish body hinside =>
    rw [ofTokens_of_inside hinside, declarations] at h
    dsimp only at h
    split at h
    · exact absurd h (by intro h; cases h)
    · obtain rfl := Except.ok.inj h
      rw [← List.append_nil body]
      exact .of_mem ⟨hfits, hinside⟩ hd (by simp)
  | step body t stop rest hinside hstop ih =>
    rw [ofTokens_append_cons hinside hstop, declarations] at h
    obtain ⟨hbody, htoken, hrest⟩ := fitsAll_append.1 hfits
    cases t with
    | separator =>
      obtain rfl := Option.some.inj hstop
      rw [show finalDepth 0 body = 0 from htoken] at hrest
      obtain ⟨later, hlater, rfl⟩ := exists_of_map_eq_ok h
      rcases List.mem_append.1 hd with hd | hd
      · exact .of_mem ⟨hbody, hinside⟩ hd (by simp)
      · exact (ih hrest hlater hd).behind rfl rfl
    | closing =>
      obtain rfl := Option.some.inj hstop
      rw [show finalDepth 0 body = 0 from htoken] at hrest
      dsimp only at h
      split at h
      · exact absurd h (by intro h; cases h)
      · obtain ⟨later, hlater, rfl⟩ := exists_of_map_eq_ok h
        rcases List.mem_append.1 hd with hd | hd
        · exact .of_mem ⟨hbody, hinside⟩ hd (by simp)
        · exact (ih hrest hlater hd).behind rfl rfl
    | opening =>
      obtain rfl := Option.some.inj hstop
      rw [show finalDepth 0 body = 0 from htoken] at hrest
      exact (ih hrest h hd).behind rfl rfl
    | unterminated what s =>
      obtain rfl := Option.some.inj hstop
      exact absurd h (by intro h; cases h)
    | comment | quoted | interpolation | glyph => exact absurd hstop (by simp [Stop.ofToken?])

end

theorem declaredIn_of_parse {dialect : Dialect} {source : Text} {doc : Document}
    (h : Document.parse dialect source = .ok doc) {d : Declaration} (hd : d ∈ doc.declarations) :
    DeclaredIn dialect 0 1 (tokens (.ofStatements dialect) 0 source) d := by
  obtain ⟨ds, hds, rfl⟩ := exists_of_map_eq_ok h
  refine declaredIn_of_eq_ok (fitsAll_tokens _ _ _) hds ?_
  simpa [Document.declarations, Function.comp_def] using hd

/-! ## Sites -/

/-- The text of a source around the value of a declaration. -/
structure Site where
  /-- The source before the property. -/
  before : Text
  property : Text
  /-- Blanks before the colon. -/
  space : Text
  /-- Blanks and comments behind the colon. -/
  gap : Text
  /-- The value with its comments. -/
  written : Text
  /-- Flags, blanks and comments behind the value. -/
  rest : Text
  /-- The source from the end of the statement on. -/
  after : Text

namespace Site

/-- The text up to the colon. -/
def head (site : Site) : Text := site.before ++ site.property ++ site.space ++ [':']

/-- The text between the colon and the end of the statement. -/
def tail (site : Site) : Text := site.gap ++ site.written ++ site.rest

/-- The text before the value. -/
def front (site : Site) : Text := site.head ++ site.gap

/-- The whole source. -/
def text (site : Site) : Text := site.head ++ site.tail ++ site.after

end Site

/-- The declaration describes the value at a site. -/
structure StandsAt (dialect : Dialect) (d : Declaration) (site : Site) : Prop where
  property_eq : d.property = site.property
  space_blank : Text.isBlankText site.space = true
  gap_filler : ∀ t ∈ tokens (.ofComments dialect) 0 site.gap, t.isFiller = true
  line_eq : d.line = 1 + site.before.count '\n'
  /-- Up to the end of the statement no token ends one. -/
  inside : ∀ t ∈ tokens (.ofStatements dialect) 0 site.tail, Stop.ofToken? t = none
  /-- The value, its span and its comments are found in what is left behind the colon. -/
  withoutFlags_eq : withoutFlags (Placed.text (keptValue dialect site.head.length site.tail)) =
    d.value
  span?_eq : Placed.span? ((keptValue dialect site.head.length site.tail).take d.value.length) =
    some d.span
  filter_eq : (Uncommented.ofText dialect site.head.length site.tail).comments.filter
    (·.within d.span) = d.comments
  /-- They are found in the value as it is written, too. -/
  span_eq : d.span = ⟨site.front.length, site.front.length + site.written.length⟩
  written_ne_nil : site.written ≠ []
  value_eq : (Uncommented.ofText dialect site.front.length site.written).text = d.value
  comments_eq : (Uncommented.ofText dialect site.front.length site.written).comments = d.comments
  whole_comments : ∀ t ∈ tokens (.ofComments dialect) 0 site.written,
    t.isComment = true → t.IsWholeComment
  trim_eq : Text.trim d.value = d.value
  not_endsInFlag : ¬ EndsInFlag d.value
  /-- No comment behind the colon goes beyond the value. -/
  not_crosses : ∀ c ∈ (Uncommented.ofText dialect site.head.length site.tail).comments,
    ¬ c.Crosses d.span
  /-- A comment of the source that goes beyond the value stands behind the colon. -/
  mem_tail_of_crosses : ∀ c ∈ commentSpans 0 (tokens (.ofStatements dialect) 0 site.text),
    c.Crosses d.span →
      c ∈ commentSpans site.head.length (tokens (.ofStatements dialect) 0 site.tail)

theorem commentSpans_map_glyph (offset : Nat) (s : Text) :
    commentSpans offset (s.map .glyph) = [] := by
  induction s generalizing offset with
  | nil => rfl
  | cons c s ih => exact ih (offset + 1)

/-- A comment of a source stands before the colon, behind it in the same statement, or behind the
statement. -/
theorem mem_commentSpans_cases {lead rest back : List Token} {name : Text}
    (hne : ∀ t ∈ lead ++ name.map .glyph ++ rest ++ back, t.text ≠ []) {c : Span}
    (hc : c ∈ commentSpans 0 (lead ++ name.map .glyph ++ rest ++ back)) :
    c.start < c.stop ∧ (c.stop ≤ (spelling lead ++ name).length ∨
      c ∈ commentSpans (spelling lead ++ name).length rest ∨
      (spelling lead ++ name).length + (spelling rest).length ≤ c.start) := by
  refine ⟨(bounds_of_mem_commentSpans hne hc).2.1, ?_⟩
  have hhead : spelling (lead ++ name.map .glyph) = spelling lead ++ name := by
    rw [spelling_append, spelling_map_glyph]
  simp only [List.forall_mem_append] at hne
  obtain ⟨⟨⟨hlead, -⟩, -⟩, hback⟩ := hne
  rw [commentSpans_append, commentSpans_append, commentSpans_append, commentSpans_map_glyph,
    List.append_nil, spelling_append _ rest, hhead, Nat.zero_add, Nat.zero_add] at hc
  simp only [List.mem_append] at hc
  rcases hc with (hc | hc) | hc
  · have hbounds := bounds_of_mem_commentSpans hlead hc
    rw [List.length_append]
    exact Or.inl (by omega)
  · exact Or.inr (Or.inl hc)
  · have hbounds := bounds_of_mem_commentSpans hback hc
    rw [List.length_append] at hbounds
    exact Or.inr (Or.inr hbounds.1)

/-- **Every declaration has its site.** -/
theorem exists_site {dialect : Dialect} {source : Text} {d : Declaration}
    (h : DeclaredIn dialect 0 1 (tokens (.ofStatements dialect) 0 source) d) :
    ∃ site : Site, site.text = source ∧ StandsAt dialect d site := by
  obtain ⟨front, body, back, next, blocks, stop, hts, hbody, -, hd⟩ := h
  obtain ⟨name, tail, start, hsplit, hname, hstart, hmeaning, hspan, hcomments⟩ :=
    exists_of_declaration? hd
  obtain ⟨space, hspace, hparts, hdrop⟩ := exists_tokens_of_name hbody hsplit hname
  have hmeant : d.value = withoutFlags (Placed.text (keptValue dialect start tail)) :=
    congrArg Meaning.value hmeaning
  rw [← hmeant] at hspan
  obtain ⟨gap, written, rest, rfl, hwritten, hspanEq, hvalue, hinside, hcross, hgap, hcomment,
    htrim, hend⟩ := exists_tail hmeant.symm hspan
  have hlead : Statement.lead ⟨body, stop⟩ = spelling (body.takeWhile Token.isFiller) := rfl
  -- the tokens of the source, cut at the colon
  have hwhole : tokens (.ofStatements dialect) 0 source =
      (front ++ body.takeWhile Token.isFiller) ++ (Text.trim name ++ space ++ [':']).map .glyph ++
        tokens (.ofStatements dialect) 0 (gap ++ written ++ rest) ++ back := by
    conv_lhs => rw [hts, ← List.takeWhile_append_dropWhile (p := Token.isFiller) (l := body), hdrop]
    simp only [List.append_assoc]
  let site : Site := ⟨spelling (front ++ body.takeWhile Token.isFiller), Text.trim name, space,
    gap, written, rest, spelling back⟩
  have hhead : site.head = spelling (front ++ body.takeWhile Token.isFiller) ++
      (Text.trim name ++ space ++ [':']) := by
    simp only [Site.head, site, List.append_assoc]
  have hheadLength : site.head.length = start := by
    rw [hhead, hstart, hlead, spelling_append, ← hparts, Nat.zero_add]
    simp only [List.length_append, List.length_singleton]
    omega
  have hfront : site.front.length = start + gap.length := by
    rw [Site.front, List.length_append, hheadLength]
  have htext : site.text = source := by
    have hsource := congrArg spelling hwhole
    rw [spelling_tokens, spelling_append, spelling_append, spelling_append, spelling_map_glyph,
      spelling_tokens] at hsource
    rw [hsource, Site.text, hhead]
    rfl
  have hstartEq : d.span.start = site.front.length := by
    rw [hspanEq, hfront]
  refine ⟨site, htext, ?_⟩
  constructor
  · exact congrArg Meaning.property hmeaning
  · exact hspace
  · exact hgap
  · rw [line_of_declaration? hd, hlead, Nat.add_assoc, ← List.count_append, ← spelling_append]
  · intro t ht
    refine hbody.inside t ((List.dropWhile_sublist Token.isFiller).mem ?_)
    rw [hdrop]
    exact List.mem_append_right _ ht
  · rw [hheadLength]
    exact hmeant.symm
  · rw [hheadLength]
    exact hspan
  · rw [hheadLength]
    exact hcomments.symm
  · rw [hspanEq, hfront]
  · exact hwritten
  · rw [← hstartEq]
    exact hvalue
  · rw [← hstartEq, hcomments]
    exact hinside.symm
  · exact hcomment
  · exact htrim
  · exact hend
  · rw [hheadLength]
    exact hcross
  · intro c hc hcrosses
    rw [htext, hwhole] at hc
    have hne := (fitsAll_tokens (.ofStatements dialect) 0 source).text_ne_nil
    rw [hwhole] at hne
    obtain ⟨hlt, hcases⟩ := mem_commentSpans_cases hne hc
    rw [← hhead, hheadLength, spelling_tokens] at hcases
    rw [hheadLength]
    rw [hspanEq, Span.Crosses] at hcrosses
    simp only [List.length_append] at hcases hcrosses
    rcases hcases with hbefore | hmem | hbehind
    · omega
    · exact hmem
    · omega

/-! ## Order -/

/-- Comments stand one behind the other. -/
theorem pairwise_commentSpans {ts : List Token} (hts : ∀ t ∈ ts, t.text ≠ []) (offset : Nat) :
    (commentSpans offset ts).Pairwise (·.stop ≤ ·.start) := by
  induction ts generalizing offset with
  | nil => exact List.Pairwise.nil
  | cons t ts ih =>
    rw [List.forall_mem_cons] at hts
    rw [commentSpans]
    split
    · refine List.pairwise_cons.2 ⟨?_, ih hts.2 _⟩
      intro c hc
      exact (bounds_of_mem_commentSpans hts.2 hc).1
    · exact ih hts.2 _

/-- A statement that is a declaration stands before what is declared behind it. -/
theorem ordered_append {dialect : Dialect} {offset line : Nat} {blocks : List Text}
    {body : List Token} {stop : Stop} {later : List Declaration}
    (hbehind : ∀ d ∈ later, offset + (spelling body).length + 1 < d.span.start)
    (hlater : later.Pairwise (·.span.stop < ·.span.start)) :
    (∀ d ∈ (Statement.declaration? dialect offset line blocks ⟨body, stop⟩).toList ++ later,
      offset < d.span.start) ∧
    ((Statement.declaration? dialect offset line blocks ⟨body, stop⟩).toList ++ later).Pairwise
      (·.span.stop < ·.span.start) := by
  cases hd : Statement.declaration? dialect offset line blocks ⟨body, stop⟩ with
  | none =>
    refine ⟨?_, hlater⟩
    intro d hd
    have hplace := hbehind d hd
    omega
  | some first =>
    have hbounds := bounds_of_declaration? hd
    refine ⟨?_, List.pairwise_cons.2 ⟨?_, hlater⟩⟩
    · rintro d (_ | ⟨_, hd⟩)
      · exact hbounds.1
      · have hplace := hbehind d hd
        omega
    · intro d hd
      have hplace := hbehind d hd
      omega

/-- **Values stand one behind the other,** with something in between. -/
theorem pairwise_spans {dialect : Dialect} {offset : Nat} {blocks : List Text} {ts : List Token}
    {ds : List Declaration} (h : Reading dialect offset blocks ts ds) :
    (∀ d ∈ ds, offset < d.span.start) ∧ ds.Pairwise (·.span.stop < ·.span.start) := by
  induction h with
  | finish hbody =>
    rw [← List.append_nil (Option.toList _)]
    exact ordered_append (by simp) List.Pairwise.nil
  | separator hbody hdepth h ih => exact ordered_append ih.1 ih.2
  | closing hbody hdepth h ih => exact ordered_append ih.1 ih.2
  | opening hbody hdepth h ih =>
    refine ⟨?_, ih.2⟩
    intro d hd
    have hplace := ih.1 d hd
    omega

/-! ## Every declaration is where it is said to be -/

theorem isComment_eq_false_of_commentSpans {offset : Nat} {ts : List Token}
    (h : commentSpans offset ts = []) : ∀ t ∈ ts, t.isComment = false := by
  induction ts generalizing offset with
  | nil => simp
  | cons t ts ih =>
    rw [commentSpans] at h
    split at h
    · exact absurd h (List.cons_ne_nil _ _)
    · rename_i ht
      exact List.forall_mem_cons.2 ⟨by simpa using ht, ih h⟩

/-- Where there is no comment, the text stays as it is. -/
theorem text_ofText_of_comments_eq_nil {dialect : Dialect} {offset : Nat} {s : Text}
    (h : (Uncommented.ofText dialect offset s).comments = []) :
    (Uncommented.ofText dialect offset s).text = s := by
  rw [Uncommented.ofText, comments_ofTokens] at h
  rw [Uncommented.ofText, text_ofTokens, bare_eq_self (isComment_eq_false_of_commentSpans h),
    spelling_tokens]

/-- The declaration is where it is said to be. -/
structure IsLocated (dialect : Dialect) (source : Text) (d : Declaration) : Prop where
  /-- The span is not empty and inside the source. -/
  bounds : d.span.start < d.span.stop ∧ d.span.stop ≤ source.length
  /-- The comments are not empty and inside the span, -/
  comments_inside : ∀ c ∈ d.comments,
    d.span.start ≤ c.start ∧ c.start < c.stop ∧ c.stop ≤ d.span.stop
  /-- one behind the other. -/
  comments_pairwise : d.comments.Pairwise (·.stop ≤ ·.start)
  /-- The text in the span, by itself and without its comments, is the value, -/
  uncommented_eq : (Uncommented.ofText dialect 0 (d.span.slice source)).text = d.value
  /-- so without comments it is the value as it stands. -/
  slice_eq : d.comments = [] → d.span.slice source = d.value
  /-- The value has no blanks around it and no flag at its end. -/
  trim_eq : Text.trim d.value = d.value
  not_endsInFlag : ¬ EndsInFlag d.value

theorem Site.text_eq (site : Site) :
    site.text = site.front ++ site.written ++ (site.rest ++ site.after) := by
  simp only [Site.text, Site.front, Site.tail, List.append_assoc]

/-- The text in the span is the value as it is written. -/
theorem StandsAt.slice_eq {dialect : Dialect} {d : Declaration} {site : Site}
    (h : StandsAt dialect d site) : d.span.slice site.text = site.written := by
  rw [h.span_eq, site.text_eq, Span.slice_append]

theorem StandsAt.comments_eq_commentSpans {dialect : Dialect} {d : Declaration} {site : Site}
    (h : StandsAt dialect d site) : d.comments =
      commentSpans site.front.length (tokens (.ofComments dialect) 0 site.written) := by
  rw [← h.comments_eq, Uncommented.ofText, comments_ofTokens]

/-- A declaration that describes its site is where it is said to be. -/
theorem StandsAt.isLocated {dialect : Dialect} {d : Declaration} {site : Site}
    (h : StandsAt dialect d site) : IsLocated dialect site.text d := by
  have hstart : d.span.start = site.front.length := by rw [h.span_eq]
  have hstop : d.span.stop = d.span.start + site.written.length := by rw [h.span_eq]
  have hpos := List.length_pos_iff.2 h.written_ne_nil
  have hlength := congrArg List.length site.text_eq
  simp only [List.length_append] at hlength
  have hne := (fitsAll_tokens (.ofComments dialect) 0 site.written).text_ne_nil
  have hcomments := h.comments_eq_commentSpans
  constructor
  · constructor <;> omega
  · intro c hc
    rw [hcomments] at hc
    have hbounds := bounds_of_mem_commentSpans hne hc
    rwa [spelling_tokens, ← hstart, ← hstop] at hbounds
  · rw [hcomments]
    exact pairwise_commentSpans hne _
  · rw [h.slice_eq, ← h.value_eq, Uncommented.ofText, Uncommented.ofText, text_ofTokens,
      text_ofTokens]
  · intro hnil
    rw [h.slice_eq, ← h.value_eq]
    exact (text_ofText_of_comments_eq_nil (h.comments_eq.trans hnil)).symm
  · exact h.trim_eq
  · exact h.not_endsInFlag

/-- **Every declaration is where it is said to be.** -/
theorem isLocated_of_parse {dialect : Dialect} {source : Text} {doc : Document}
    (h : Document.parse dialect source = .ok doc) {d : Declaration} (hd : d ∈ doc.declarations) :
    IsLocated dialect source d := by
  obtain ⟨site, rfl, hsite⟩ := exists_site (declaredIn_of_parse h hd)
  exact hsite.isLocated

end StyleLift.Stylesheet
