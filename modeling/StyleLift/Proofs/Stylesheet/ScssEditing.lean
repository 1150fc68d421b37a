import StyleLift.Proofs.Stylesheet.Editing
import StyleLift.Proofs.Stylesheet.Interpolations

/-!
# Printing new values in preprocessor stylesheets

With line comments and interpolations two more things happen when a value is replaced.  A line
comment of the old value becomes a block comment, which goes wrong if its line holds the end of a
block comment.  And the comments of the old value are those that the second reading finds, which
may take the text of an interpolation for a comment.  Where neither is the case, what is printed is
read back as edited, as in a plain stylesheet.

The frame of a value is not made of plain tokens here, since it can hold line comments; but a line
comment before a value ends in a line end before that value, and one behind it is behind the new
value as well.

* `Declaration.IsReplaceable`: neither of the two things happens.
* `isBlockComment_keptComment`: what is kept of a comment is a comment.
* `LineFrame`: the frame of a value, which may hold line comments.
* `WrittenParts`, `WrittenParts.frame`: a declaration taken apart, and the frame of its value.
* `parse_render_setAll_of_isReplaceable`: **what is printed is read back as edited.**
-/

namespace StyleLift.Stylesheet

/-- The two readings of the value agree, and no line comment in it holds the end of a block
comment. -/
def Declaration.IsReplaceable (source : Text) (d : Declaration) : Prop :=
  agrees 0 (tokens (.ofStatements .scss) 0 (d.span.slice source)) = true ∧
    ∀ span ∈ d.comments, ['/', '/'] <+: span.slice source → ¬ ['*', '/'] <:+: span.slice source

instance (source : Text) (d : Declaration) : Decidable (d.IsReplaceable source) :=
  inferInstanceAs (Decidable (_ ∧ _))

/-! ## Comments behind a new value -/

theorem keptComment_eq_cons (s : Text) :
    Document.keptComment s = ' ' :: (Document.keptComment s).tail := by
  unfold Document.keptComment
  split <;> rfl

/-- A block comment is kept as it is, and a line comment becomes one. -/
theorem isBlockComment_keptComment {s : Text}
    (h : IsBlockComment s ∨ IsLineComment s ∧ ¬ ['*', '/'] <:+: s) :
    IsBlockComment (Document.keptComment s).tail := by
  rcases h with h | ⟨⟨line, rfl, -⟩, hend⟩
  · rwa [keptComment_of_isBlockComment h]
  · have hkept : (Document.keptComment ('/' :: '/' :: line)).tail =
        "/* ".toList ++ Text.trim line ++ " */".toList := by
      simp [Document.keptComment, Text.after?]
    rw [hkept]
    refine isBlockComment_spaced fun hline => hend (hline.trans ?_)
    obtain ⟨b, b', -, -, hparts⟩ := Text.exists_trim line
    refine ⟨'/' :: '/' :: b, b', ?_⟩
    rw [List.cons_append, List.cons_append, List.cons_append, List.cons_append, ← hparts]

/-- The comments of a value as they follow its replacement. -/
def keptComments (ts : List Token) : List Token :=
  (ts.filter Token.isComment).flatMap fun t =>
    [.glyph ' ', .comment (Document.keptComment t.text).tail]

theorem spelling_keptComments (ts : List Token) : spelling (keptComments ts) =
    (ts.filter Token.isComment).flatMap fun t => Document.keptComment t.text := by
  rw [keptComments, spelling, List.flatMap_assoc]
  refine List.flatMap_congr fun t _ => ?_
  rw [keptComment_eq_cons t.text]
  simp

/-- Comments that are whole are kept as block comments. -/
theorem filler_of_mem_keptComments {depth : Nat} {next : Option Char} {ts : List Token}
    (hfits : FitsAll (.ofComments .scss) depth next ts)
    (hterminated : ∀ t ∈ ts, t.isTerminated = true)
    (hlines : ∀ s ∈ (ts.filter Token.isComment).map Token.text,
      ['/', '/'] <+: s → ¬ ['*', '/'] <:+: s)
    {t : Token} (ht : t ∈ keptComments ts) : t.isFiller = true ∧ t.Plain := by
  obtain ⟨u, hu, ht⟩ := List.mem_flatMap.1 ht
  simp only [List.mem_cons, List.not_mem_nil, or_false] at ht
  rcases ht with rfl | rfl
  · exact ⟨by decide, (by decide : isPlain ' ' = true)⟩
  · refine ⟨rfl, isBlockComment_keptComment ?_⟩
    have hline := hlines _ (List.mem_map_of_mem hu)
    obtain ⟨hmem, hcomment⟩ := List.mem_filter.1 hu
    obtain ⟨front, back, hsplit⟩ := List.append_of_mem hmem
    rw [hsplit] at hfits
    have hfit := (fitsAll_append.1 hfits).2.1
    cases u with
    | comment s =>
      rcases hfit with hblock | ⟨-, -, hlineComment, -⟩
      · exact Or.inl hblock
      · refine Or.inr ⟨hlineComment, hline ?_⟩
        obtain ⟨line, rfl, -⟩ := hlineComment
        exact ⟨line, rfl⟩
    | unterminated => exact absurd (hterminated _ hmem) Bool.false_ne_true
    | quoted | interpolation | opening | closing | separator | glyph =>
      exact absurd hcomment Bool.false_ne_true

/-! ## Blanks and comments around a value -/

/-- Blanks and comments before a character that is not blank are read as they are before anything:
every line comment among them has its line end. -/
theorem fitsAll_of_filler {lexis : Lexis} {depth : Nat} {c : Char} (hc : Text.isBlank c = false)
    {ts : List Token} (hts : ∀ t ∈ ts, t.isFiller = true) (h : FitsAll lexis depth (some c) ts)
    (next : Option Char) : FitsAll lexis depth next ts := by
  induction ts generalizing depth with
  | nil => trivial
  | cons t ts ih =>
    rw [List.forall_mem_cons] at hts
    refine ⟨?_, ih hts.2 h.2⟩
    have ht := h.1
    cases hs : spelling ts with
    | cons d s => rwa [hs] at ht
    | nil =>
      cases t with
      | comment s =>
        rw [hs] at ht
        rcases ht with hblock | ⟨-, -, -, hnext⟩
        · exact Or.inl hblock
        · rw [hnext c rfl] at hc
          exact absurd hc (by decide)
      | glyph d => exact Token.Plain.fits (t := .glyph d) (isPlain_of_isBlank hts.1) _ _ _
      | quoted | interpolation | opening | closing | separator | unterminated =>
        exact absurd hts.1 Bool.false_ne_true

/-- Quiet tokens are read outside parentheses as they are inside. -/
theorem fitsAll_of_isQuiet {lexis : Lexis} {depth : Nat} {next : Option Char} {ts : List Token}
    (hts : ∀ t ∈ ts, t.isQuiet = true) (h : FitsAll lexis depth next ts) :
    FitsAll lexis 0 next ts := by
  induction ts with
  | nil => trivial
  | cons t ts ih =>
    rw [List.forall_mem_cons] at hts
    rw [fitsAll_cons, Token.depthAfter_of_isQuiet hts.1] at h ⊢
    refine ⟨?_, ih hts.2 h.2⟩
    cases t with
    | comment s =>
      rcases h.1 with hblock | ⟨hlexis, -, hline⟩
      · exact Or.inl hblock
      · exact Or.inr ⟨hlexis, rfl, hline⟩
    | glyph c => exact Token.Plain.fits (t := .glyph c) hts.1 _ _ _
    | unterminated what s =>
      cases what with
      | comment => exact h.1
      | string | interpolation => exact absurd hts.1 Bool.false_ne_true
    | quoted | interpolation | opening | closing | separator =>
      exact absurd hts.1 Bool.false_ne_true

theorem finalDepth_of_isQuiet {ts : List Token} (hts : ∀ t ∈ ts, t.isQuiet = true) (depth : Nat) :
    finalDepth depth ts = depth := by
  induction ts with
  | nil => rfl
  | cons t ts ih =>
    rw [List.forall_mem_cons] at hts
    rw [finalDepth_cons, Token.depthAfter_of_isQuiet hts.1, ih hts.2]

theorem Token.inside_of_isFiller {t : Token} (ht : t.isFiller = true) :
    Stop.ofToken? t = none := by
  cases t with
  | comment | glyph => rfl
  | quoted | interpolation | opening | closing | separator | unterminated =>
    exact absurd ht Bool.false_ne_true

theorem Token.Plain.isQuiet {t : Token} (ht : t.Plain) : t.isQuiet = true := by
  cases t with
  | comment => rfl
  | glyph c => exact ht
  | quoted | interpolation | opening | closing | separator | unterminated => exact ht.elim

/-! ## The frame of a value -/

/-- All of a declaration before `next` but its value. -/
structure LineFrame (next : Option Char) where
  lead : List Token
  name : Text
  space : Text
  gap : List Token
  flags : List Token
  lead_filler : ∀ t ∈ lead, t.isFiller = true
  lead_fits : ∀ next', FitsAll (.ofStatements .scss) 0 next' lead
  name_ok : isPropertyName name = true
  space_blank : Text.isBlankText space = true
  gap_filler : ∀ t ∈ gap, t.isFiller = true
  gap_fits : ∀ next', FitsAll (.ofStatements .scss) 0 next' gap
  flags_quiet : ∀ t ∈ flags, t.isQuiet = true
  flags_inside : ∀ t ∈ flags, Stop.ofToken? t = none
  flags_fits : FitsAll (.ofStatements .scss) 0 next flags
  flagTail : ∀ before, FlagTail (spelling (bare before flags))

namespace LineFrame

variable {next : Option Char} (f : LineFrame next) {new : Text}

/-- The tokens before the value. -/
def front : List Token := f.lead ++ (f.name ++ f.space ++ [':']).map .glyph ++ f.gap

/-- The statement that a new value makes with a frame. -/
def around (new : Text) : List Token := f.front ++ new.map .glyph ++ f.flags

theorem around_eq (new : Text) : f.around new =
    f.lead ++ (f.name ++ f.space ++ [':']).map .glyph ++ (f.gap ++ new.map .glyph ++ f.flags) := by
  simp [around, front]

theorem finalDepth_name : finalDepth 0 (f.lead ++ (f.name ++ f.space ++ [':']).map .glyph) = 0 := by
  rw [finalDepth_append, finalDepth_of_filler f.lead_filler,
    finalDepth_of_plain fun t ht => plain_of_mem_name f.name_ok f.space_blank ht]

section

variable (hnew : IsReference new)
include hnew

/-- What stands behind the colon is read as it is. -/
theorem fitsAll_behind :
    FitsAll (.ofStatements .scss) 0 next (f.gap ++ new.map .glyph ++ f.flags) := by
  rw [fitsAll_append, fitsAll_append, finalDepth_append, finalDepth_of_filler f.gap_filler,
    hnew.finalDepth_eq]
  exact ⟨⟨f.gap_fits _, hnew.fitsAll _ _⟩, f.flags_fits⟩

theorem isBody_around : IsBody .scss next (f.around new) where
  fits := by
    rw [around_eq, fitsAll_append, f.finalDepth_name, fitsAll_append]
    exact ⟨⟨f.lead_fits _, fitsAll_of_plain
      (fun t ht => plain_of_mem_name f.name_ok f.space_blank ht) _ _ _⟩, f.fitsAll_behind hnew⟩
  inside := by
    intro t ht
    simp only [around_eq, List.mem_append, List.mem_map] at ht
    rcases ht with (ht | ⟨c, -, rfl⟩) | (ht | ⟨c, -, rfl⟩) | ht
    · exact Token.inside_of_isFiller (f.lead_filler t ht)
    · rfl
    · exact Token.inside_of_isFiller (f.gap_filler t ht)
    · rfl
    · exact f.flags_inside t ht

theorem finalDepth_around : finalDepth 0 (f.around new) = 0 := by
  rw [around_eq, finalDepth_append, f.finalDepth_name, finalDepth_append, finalDepth_append,
    finalDepth_of_filler f.gap_filler, hnew.finalDepth_eq, finalDepth_of_isQuiet f.flags_quiet]

/-- **A reference in a frame is a declaration of that reference.** -/
theorem meaning?_around (blocks : List Text) :
    meaning? .scss blocks (coreOf (f.around new)) = some ⟨f.name, new, blocks⟩ := by
  have hinterpolations : ∀ t ∈ f.gap ++ new.map .glyph ++ f.flags,
      t.isInterpolation = false := by
    intro t ht
    simp only [List.mem_append, List.mem_map] at ht
    rcases ht with (ht | ⟨c, -, rfl⟩) | ht
    · exact Token.isInterpolation_of_isFiller (f.gap_filler t ht)
    · rfl
    · have hquiet := f.flags_quiet t ht
      cases t with
      | interpolation => exact absurd hquiet Bool.false_ne_true
      | unterminated what =>
        cases what with
        | interpolation => exact absurd hquiet Bool.false_ne_true
        | comment | string => rfl
      | comment | quoted | opening | closing | separator | glyph => rfl
  have hread := tokens_spelling ((f.fitsAll_behind hnew).atEnd.ofComments hinterpolations)
  obtain ⟨blanks, before, hblanks, hfront⟩ := exists_bare_append_of_filler f.gap_filler none
    (new.map .glyph ++ f.flags)
  obtain ⟨before', hrest⟩ := hnew.isValue.exists_bare_append before f.flags
  obtain ⟨hne, hstart⟩ := hnew.isValue.spelling_bare_ne_nil
  have htrim := hnew.isValue.trimEnd_eq
  have hend := hnew.isValue.not_endsInFlag
  rw [bare_map_glyph, spelling_map_glyph] at hrest hne hstart htrim hend
  rw [around_eq, coreOf_name_append f.lead_filler f.name_ok]
  refine meaning?_eq_some f.name_ok f.space_blank ?_ hne htrim hend (f.flagTail before')
  rw [hread, List.append_assoc, hfront, hrest, Text.trimStart_append_of_blank hblanks,
    Text.trimStart_append_of_ne_nil hstart hne]

end

end LineFrame

/-- Blanks and comments before a name are read as they are before anything. -/
theorem fitsAll_lead {lexis : Lexis} {depth : Nat} {next : Option Char} {lead : List Token}
    (hlead : ∀ t ∈ lead, t.isFiller = true) {name : Text} (hname : isPropertyName name = true)
    {s : Text} (h : FitsAll lexis depth ((name ++ s).head?.or next) lead) (next' : Option Char) :
    FitsAll lexis depth next' lead := by
  obtain ⟨c, rest, rfl⟩ := List.exists_cons_of_ne_nil (propertyName_ne_nil hname)
  exact fitsAll_of_filler (isBlank_of_mem_propertyName hname List.mem_cons_self) hlead h next'

/-- The comments of a declaration are those of its value, as the second reading has it. -/
theorem comments_eq_commentSpans {tail : Text} {start : Nat} {gap value flags : List Token}
    (hread : tokens (.ofComments .scss) 0 tail = gap ++ expand 0 value ++ flags) :
    (Uncommented.ofText .scss start tail).comments.filter (·.within
      ⟨start + (spelling gap).length, start + (spelling gap).length + (spelling value).length⟩) =
      commentSpans (start + (spelling gap).length) (expand 0 value) := by
  have hraw : (Uncommented.ofText .scss start tail).comments =
      commentSpans start (gap ++ expand 0 value ++ flags) := by
    rw [← hread]
    exact comments_ofTokens none start _
  have hne := (fitsAll_tokens (.ofComments .scss) 0 tail).text_ne_nil
  rw [hread] at hne
  rw [hraw, ← spelling_expand 0 value]
  exact filter_within_commentSpans (fun t ht => hne t (by simp [ht]))
    (fun t ht => hne t (by simp [ht])) (fun t ht => hne t (by simp [ht])) start

/-- A declaration as it is written at `offset`: what stands before its value, the value, in which
the two readings agree, and flags. -/
structure WrittenParts (offset : Nat) (body : List Token) (d : Declaration) where
  lead : List Token
  name : Text
  space : Text
  gap : List Token
  value : List Token
  flags : List Token
  body_eq : body = lead ++ (name ++ space ++ [':']).map .glyph ++ gap ++ value ++ flags
  lead_filler : ∀ t ∈ lead, t.isFiller = true
  name_ok : isPropertyName name = true
  space_blank : Text.isBlankText space = true
  gap_filler : ∀ t ∈ gap, t.isFiller = true
  value_starts : ∃ c, (spelling value).head? = some c ∧ Text.isBlank c = false
  value_agrees : agrees 0 value = true
  flags_quiet : ∀ t ∈ flags, t.isQuiet = true
  flagTail : ∃ before, FlagTail (spelling (bare before flags))
  property_eq : d.property = name
  span_eq : d.span =
    ⟨offset + (spelling (lead ++ (name ++ space ++ [':']).map .glyph ++ gap)).length,
      offset + (spelling (lead ++ (name ++ space ++ [':']).map .glyph ++ gap)).length +
        (spelling value).length⟩
  comments_eq : d.comments = commentSpans
    (offset + (spelling (lead ++ (name ++ space ++ [':']).map .glyph ++ gap)).length)
      (expand 0 value)

/-- **A declaration whose value can be replaced is written in parts.** -/
theorem exists_writtenParts {body : List Token} {next : Option Char}
    (hbody : IsBody .scss next body) {source front after : Text}
    (hsource : source = front ++ spelling body ++ after) {line : Nat} {blocks : List Text}
    {stop : Stop} {d : Declaration}
    (hd : Statement.declaration? .scss front.length line blocks ⟨body, stop⟩ = some d)
    (hagrees : agrees 0 (tokens (.ofStatements .scss) 0 (d.span.slice source)) = true) :
    Nonempty (WrittenParts front.length body d) := by
  obtain ⟨name, tail, start, hsplit, hname, hstart, hmeaning, hspan, hcomments⟩ :=
    exists_of_declaration? hd
  obtain ⟨space, hspace, hparts, hdrop⟩ := exists_tokens_of_name hbody hsplit hname
  have hlead : ∀ t ∈ body.takeWhile Token.isFiller, t.isFiller = true :=
    fun t ht => List.mem_takeWhile_imp ht
  have hleadText : Statement.lead ⟨body, stop⟩ = spelling (body.takeWhile Token.isFiller) := rfl
  have hwhole := (List.takeWhile_append_dropWhile (p := Token.isFiller) (l := body)).symm
  rw [hdrop] at hwhole
  rw [hleadText] at hstart
  generalize body.takeWhile Token.isFiller = lead at hlead hwhole hstart
  have htail : source = (front ++ spelling lead ++ name ++ [':']) ++ tail ++ after := by
    rw [hsource, hwhole, spelling_append, spelling_append, spelling_map_glyph, spelling_tokens,
      ← hparts]
    simp
  have hlength : (front ++ spelling lead ++ name ++ [':']).length = start := by
    rw [hstart]
    simp only [List.length_append, List.length_singleton]
  rw [← hlength] at hspan
  obtain ⟨gap, value, flags, hread, hreadComments, hgap, hstarts, hvalue, hquiet, hflags,
      hspanEq⟩ := exists_written htail
    (fun t ht => hbody.inside t (by rw [hwhole]; simp [ht])) hspan hagrees
  rw [hlength] at hspanEq
  have hbegin : start + (spelling gap).length = front.length + (spelling (lead ++
      (Text.trim name ++ space ++ [':']).map .glyph ++ gap)).length := by
    rw [hstart, spelling_append, spelling_append, spelling_map_glyph, ← hparts]
    simp only [List.length_append, List.length_singleton]
    omega
  refine ⟨{
    lead, name := Text.trim name, space, gap, value, flags
    body_eq := by
      rw [hwhole, hread]
      simp only [List.append_assoc]
    lead_filler := hlead
    name_ok := hname
    space_blank := hspace
    gap_filler := hgap
    value_starts := hstarts
    value_agrees := hvalue
    flags_quiet := hquiet
    flagTail := hflags
    property_eq := congrArg Meaning.property hmeaning
    span_eq := by rw [hspanEq, hbegin]
    comments_eq := by rw [hcomments, hspanEq, comments_eq_commentSpans hreadComments, hbegin] }⟩

namespace WrittenParts

variable {offset : Nat} {body : List Token} {d : Declaration} (w : WrittenParts offset body d)
  {next : Option Char} (hbody : IsBody .scss next body)
include hbody

/-- Each part is read as it is; what stands before the value can be read before anything. -/
theorem fits : (∀ next', FitsAll (.ofStatements .scss) 0 next' w.lead) ∧
    (∀ next', FitsAll (.ofStatements .scss) 0 next' w.gap) ∧
    (∃ next', FitsAll (.ofStatements .scss) 0 next' w.value) ∧
    FitsAll (.ofStatements .scss) 0 next w.flags := by
  have hname : ∀ t ∈ (w.name ++ w.space ++ [':']).map Token.glyph, t.Plain :=
    fun t ht => plain_of_mem_name w.name_ok w.space_blank ht
  obtain ⟨c, hc, hblank⟩ := w.value_starts
  have hfits := hbody.fits
  rw [w.body_eq, fitsAll_append, fitsAll_append, fitsAll_append, fitsAll_append] at hfits
  obtain ⟨⟨⟨⟨hlead, -⟩, hgap⟩, hvalue⟩, hflags⟩ := hfits
  rw [spelling_map_glyph, List.append_assoc] at hlead
  rw [finalDepth_append, finalDepth_of_filler w.lead_filler, finalDepth_of_plain hname, hc] at hgap
  rw [finalDepth_append, finalDepth_append, finalDepth_of_filler w.lead_filler,
    finalDepth_of_plain hname, finalDepth_of_filler w.gap_filler] at hvalue
  exact ⟨fitsAll_lead w.lead_filler w.name_ok hlead, fitsAll_of_filler hblank w.gap_filler hgap,
    ⟨_, hvalue⟩, fitsAll_of_isQuiet w.flags_quiet hflags⟩

/-- The comments of the value can follow a new one, if each line comment can become a block
comment. -/
theorem filler_of_mem_keptComments {source front after : Text} (hoffset : front.length = offset)
    (hsource : source = front ++ spelling body ++ after)
    (hlines : ∀ span ∈ d.comments, ['/', '/'] <+: span.slice source →
      ¬ ['*', '/'] <:+: span.slice source) :
    ∀ t ∈ keptComments (expand 0 w.value), t.isFiller = true ∧ t.Plain := by
  obtain ⟨-, -, ⟨next', hvalue⟩, -⟩ := w.fits hbody
  obtain ⟨hexpand, hterminated⟩ := fitsAll_expand hvalue w.value_agrees
  have hslices : source = (front ++ spelling (w.lead ++
      (w.name ++ w.space ++ [':']).map .glyph ++ w.gap)) ++ spelling (expand 0 w.value) ++
        (spelling w.flags ++ after) := by
    rw [hsource, congrArg spelling w.body_eq, spelling_expand]
    simp
  intro t ht
  refine Stylesheet.filler_of_mem_keptComments hexpand hterminated ?_ ht
  rw [← map_slice_commentSpans hslices, List.length_append, hoffset, ← w.comments_eq]
  intro s hs
  obtain ⟨span, hmem, rfl⟩ := List.mem_map.1 hs
  exact hlines span hmem

/-- The frame that is left when the comments of the value stay behind it. -/
def frame (hkept : ∀ t ∈ keptComments (expand 0 w.value), t.isFiller = true ∧ t.Plain) :
    LineFrame next where
  lead := w.lead
  name := w.name
  space := w.space
  gap := w.gap
  flags := keptComments (expand 0 w.value) ++ w.flags
  lead_filler := w.lead_filler
  lead_fits := (w.fits hbody).1
  name_ok := w.name_ok
  space_blank := w.space_blank
  gap_filler := w.gap_filler
  gap_fits := (w.fits hbody).2.1
  flags_quiet := List.forall_mem_append.2 ⟨fun t ht => (hkept t ht).2.isQuiet, w.flags_quiet⟩
  flags_inside := List.forall_mem_append.2 ⟨fun t ht => (hkept t ht).2.simple.inside,
    fun t ht => hbody.inside t (by rw [w.body_eq]; simp [ht])⟩
  flags_fits := by
    have hplain : ∀ t ∈ keptComments (expand 0 w.value), t.Plain := fun t ht => (hkept t ht).2
    rw [fitsAll_append, finalDepth_of_plain hplain]
    exact ⟨fitsAll_of_plain hplain _ _ _, (w.fits hbody).2.2.2⟩
  flagTail := by
    intro before
    obtain ⟨blanks, before', hblanks, heq⟩ := exists_bare_append_of_filler
      (fun t ht => (hkept t ht).1) before w.flags
    obtain ⟨start, hflags⟩ := w.flagTail
    rw [heq]
    exact (flagTail_bare (w.fits hbody).2.2.2.text_ne_nil hflags before').blank_append hblanks

end WrittenParts

/-- **A value that can be replaced stands in a frame,** and its comments can become part of the
frame. -/
theorem exists_lineFrame {body : List Token} {next : Option Char} (hbody : IsBody .scss next body)
    {source front after : Text} (hsource : source = front ++ spelling body ++ after) {line : Nat}
    {blocks : List Text} {stop : Stop} {d : Declaration}
    (hd : Statement.declaration? .scss front.length line blocks ⟨body, stop⟩ = some d)
    (hreplaceable : d.IsReplaceable source) :
    ∃ (f : LineFrame next) (value flags : List Token), body = f.front ++ value ++ flags ∧
      f.flags = keptComments (expand 0 value) ++ flags ∧
      d.property = f.name ∧ d.selectors = blocks ∧
      d.span = ⟨front.length + (spelling f.front).length,
        front.length + (spelling f.front).length + (spelling value).length⟩ ∧
      d.comments = commentSpans (front.length + (spelling f.front).length) (expand 0 value) := by
  obtain ⟨w⟩ := exists_writtenParts hbody hsource hd hreplaceable.1
  have hkept := w.filler_of_mem_keptComments hbody rfl hsource hreplaceable.2
  obtain ⟨_, _, _, _, _, _, hmeaning, _⟩ := exists_of_declaration? hd
  exact ⟨w.frame hbody hkept, w.value, w.flags, w.body_eq, rfl, w.property_eq,
    congrArg Meaning.selectors hmeaning, w.span_eq, w.comments_eq⟩

/-! ## Printing -/

/-- **One statement, printed with its new value, is one statement again.** -/
theorem exists_edited_of_isReplaceable {body : List Token} {next : Option Char}
    (hbody : IsBody .scss next body) {source front after : Text}
    (hsource : source = front ++ spelling body ++ after) {line : Nat} {blocks : List Text}
    {stop : Stop} {edited : List Entry}
    (hedited : edited.map Entry.declaration =
      (Statement.declaration? .scss front.length line blocks ⟨body, stop⟩).toList)
    (hgood : ∀ e ∈ edited, ∀ v, e.replacement = some v →
      IsReference v ∧ e.declaration.IsReplaceable source) :
    Edited .scss next source front after blocks body edited := by
  refine edited_of_replaced hbody hedited ?_
  intro e he new hreplacement hd
  obtain ⟨hnew, hreplaceable⟩ := hgood e he new hreplacement
  obtain ⟨f, value, flags, hbodyEq, hflags, hproperty, hselectors, hspan, hcomments⟩ :=
    exists_lineFrame hbody hsource hd hreplaceable
  have hbounds := bounds_of_declaration? hd
  refine ⟨?_, f.around new, f.isBody_around hnew, fun _ => f.finalDepth_around hnew, ?_, ?_⟩
  · rw [List.forall_mem_singleton]
    exact ⟨hbounds.1.le, hbounds.2.1.le⟩
  · rw [f.meaning?_around hnew, List.map_singleton, Entry.meaning, Declaration.meaning,
      hreplacement, hproperty, hselectors]
    rfl
  · intro entries hentries
    have htext : spelling body ++ after =
        spelling f.front ++ (spelling value ++ (spelling flags ++ after)) := by
      rw [hbodyEq]
      simp
    have hplace : source = (front ++ spelling f.front) ++ spelling (expand 0 value) ++
        (spelling flags ++ after) := by
      rw [hsource, List.append_assoc, htext, spelling_expand]
      simp
    have hlength : front.length + (spelling body).length = front.length +
        (spelling f.front).length + (spelling value).length + (spelling flags).length := by
      rw [hbodyEq]
      simp only [spelling_append, List.length_append]
      omega
    rw [hlength] at hentries ⊢
    rw [List.singleton_append, splice_cons_eq hreplacement hspan htext,
      replacementText_eq_flatMap hplace (by rw [hcomments, List.length_append]),
      splice_append hentries, ← spelling_keptComments, LineFrame.around, hflags]
    simp

/-- **What is printed is read back as edited,** as far as the values that are replaced can be. -/
theorem parse_render_setAll_of_isReplaceable {source : Text} {doc : Document}
    (hdoc : Document.parse .scss source = .ok doc) {edits : List (Nat × Text)}
    (hedits : ∀ edit ∈ edits, IsReference edit.2)
    (hreplaceable : ∀ i d, doc.declarations[i]? = some d → (lastEdit? edits i).isSome = true →
      d.IsReplaceable source) :
    ∃ doc', Document.parse .scss (doc.setAll edits).render = .ok doc' ∧
      doc'.declarations.map Declaration.meaning = doc.declarations.mapIdx fun i d =>
        { d.meaning with value := (lastEdit? edits i).getD d.value } := by
  obtain ⟨rfl, hnone, hreading⟩ := reading_of_parse hdoc
  have hgood : ∀ e ∈ (doc.setAll edits).entries, ∀ v, e.replacement = some v →
      IsReference v ∧ e.declaration.IsReplaceable doc.source := by
    intro e he v hv
    refine ⟨Document.isReference_setAll hnone hedits e he v hv, ?_⟩
    rw [Document.setAll_eq] at he
    obtain ⟨i, hi, rfl⟩ := List.mem_mapIdx.1 he
    rw [hnone _ (List.getElem_mem hi), Option.or_none] at hv
    refine hreplaceable i _ ?_ (Option.isSome_iff_exists.2 ⟨v, hv⟩)
    rw [Document.declarations, List.getElem?_map, List.getElem?_eq_getElem hi]
    rfl
  have hsource : doc.source = [] ++ spelling (tokens (.ofStatements .scss) 0 doc.source) :=
    (spelling_tokens _ _ _).symm
  obtain ⟨-, hsays⟩ := says_splice_of_edited (fun hbody _ hwhole hedited hgood =>
    exists_edited_of_isReplaceable hbody hwhole hedited hgood) hreading hsource rfl
      (doc.declarations_setAll edits) hgood
  rw [spelling_tokens, Document.map_meaning_setAll edits hnone] at hsays
  have hrender : (doc.setAll edits).render =
      Document.splice doc.source 0 doc.source (doc.setAll edits).entries := by
    rw [Document.render, Document.setAll_eq]
  rw [hrender]
  exact hsays.exists_parse

/-- A line comment inside a replaced value, and a replaced interpolation. -/
theorem parse_render_setAll_with_line_comment :
    ∃ doc doc', Document.parse .scss
        ".a \x7b\n  color: red // old\n    blue;\n  width: #\x7b$w\x7dpx;\n\x7d\n".toList = .ok doc ∧
      (doc.setAll [(0, Lifter.reference "--p".toList),
        (1, Lifter.reference "--q".toList)]).render =
        ".a \x7b\n  color: var(--p) /* old */;\n  width: var(--q);\n\x7d\n".toList ∧
      Document.parse .scss (doc.setAll [(0, Lifter.reference "--p".toList),
        (1, Lifter.reference "--q".toList)]).render = .ok doc' ∧
      doc'.declarations.map Declaration.meaning =
        [⟨"color".toList, "var(--p)".toList, [".a".toList]⟩,
          ⟨"width".toList, "var(--q)".toList, [".a".toList]⟩] := by
  have hdoc : Document.parse .scss
      ".a \x7b\n  color: red // old\n    blue;\n  width: #\x7b$w\x7dpx;\n\x7d\n".toList = .ok
      ⟨".a \x7b\n  color: red // old\n    blue;\n  width: #\x7b$w\x7dpx;\n\x7d\n".toList,
        [{ declaration := ⟨"color".toList, "red \n    blue".toList, 2, [".a".toList], ⟨14, 33⟩,
            [⟨18, 24⟩]⟩ },
          { declaration := ⟨"width".toList, "#\x7b$w\x7dpx".toList, 4, [".a".toList], ⟨44, 51⟩,
            []⟩ }]⟩ := by
    decide +kernel
  have hedits : ∀ edit ∈ [(0, Lifter.reference "--p".toList), (1, Lifter.reference "--q".toList)],
      IsReference edit.2 := by
    intro edit hedit
    simp only [List.mem_cons, List.not_mem_nil, or_false] at hedit
    rcases hedit with rfl | rfl
    · exact ⟨"--p".toList, by decide, by simp, rfl⟩
    · exact ⟨"--q".toList, by decide, by simp, rfl⟩
  obtain ⟨doc', hparse, hmeanings⟩ := parse_render_setAll_of_isReplaceable hdoc hedits (by
    intro i d hd _
    match i with
    | 0 =>
      obtain rfl := Option.some.inj hd
      decide +kernel
    | 1 =>
      obtain rfl := Option.some.inj hd
      decide +kernel
    | i + 2 => simp [Document.declarations] at hd)
  exact ⟨_, doc', hdoc, by decide +kernel, hparse, hmeanings.trans (by decide +kernel)⟩

/-- Both conditions are needed.  The end of a block comment in a line comment ends what is kept of
it, and what stood behind it becomes a declaration.  A `//` inside an interpolation is a comment for
the second reading only, so the value ends before it; without its interpolation it is one for the
first reading too, and hides the brace that closes the block. -/
theorem edits_lost_to_comments :
    (∃ doc doc', Document.parse .scss ".a \x7bcolor: red // */; color: blue\n green\x7d".toList =
        .ok doc ∧
      doc.declarations.map Declaration.meaning =
        [⟨"color".toList, "red \n green".toList, [".a".toList]⟩] ∧
      Document.parse .scss (doc.setAll [(0, Lifter.reference "--p".toList)]).render = .ok doc' ∧
      doc'.declarations.map Declaration.meaning =
        [⟨"color".toList, "var(--p)".toList, [".a".toList]⟩,
          ⟨"color".toList, "blue */".toList, [".a".toList]⟩]) ∧
    ∃ doc, Document.parse .scss ".a \x7bcolor: #\x7ba//b\x7d\x7d".toList = .ok doc ∧
      (doc.setAll [(0, Lifter.reference "--p".toList)]).render =
        ".a \x7bcolor: var(--p)//b\x7d\x7d".toList ∧
      Document.parse .scss (doc.setAll [(0, Lifter.reference "--p".toList)]).render =
        .error (.unclosedBlock ".a".toList) :=
  ⟨⟨⟨".a \x7bcolor: red // */; color: blue\n green\x7d".toList,
      [{ declaration := ⟨"color".toList, "red \n green".toList, 1, [".a".toList], ⟨11, 40⟩,
          [⟨15, 33⟩]⟩ }]⟩,
    ⟨".a \x7bcolor: var(--p) /* */; color: blue */\x7d".toList,
      [{ declaration := ⟨"color".toList, "var(--p)".toList, 1, [".a".toList], ⟨11, 19⟩, []⟩ },
        { declaration := ⟨"color".toList, "blue */".toList, 1, [".a".toList], ⟨34, 41⟩, []⟩ }]⟩,
    by decide +kernel, by decide +kernel, by decide +kernel, by decide +kernel⟩,
    ⟨".a \x7bcolor: #\x7ba//b\x7d\x7d".toList,
      [{ declaration := ⟨"color".toList, "#\x7ba".toList, 1, [".a".toList], ⟨11, 14⟩, []⟩ }]⟩,
    by decide +kernel, by decide +kernel, by decide +kernel⟩

end StyleLift.Stylesheet
