import StyleLift.Proofs.Stylesheet.Placement
import StyleLift.Proofs.Stylesheet.Reuse

/-!
# Values that both dialects read alike

The value of a declaration in a file with preprocessor constructs is written into a plain
stylesheet.  Line comments do no harm there: they are cut out of the value like all comments, so
for the value it does not matter whether a comment was a line comment or an empty block comment.
With all comments made empty block comments, the statement is one of a plain stylesheet and has
the same value.

This leaves interpolations.  If the value has none, its statement has none behind the colon,
because the comment reader takes `#` and `{` for characters and cuts neither of them off.

* `Token.emptied`: a token, or an empty comment in the place of a comment.
* `exists_interpolation_of_mem`: an interpolation behind the colon leaves one in the value.
* `isReadable_css_of_reading`: every value inside a block without interpolations.
-/

namespace StyleLift.Stylesheet

/-! ## Empty comments -/

/-- The token, without its content if it is a comment. -/
def Token.emptied : Token → Token
  | .comment _ => .comment ['/', '*', '*', '/']
  | t => t

theorem Token.depthAfter_emptied (t : Token) (depth : Nat) :
    t.emptied.depthAfter depth = t.depthAfter depth := by
  cases t <;> rfl

theorem finalDepth_map_emptied (ts : List Token) (depth : Nat) :
    finalDepth depth (ts.map Token.emptied) = finalDepth depth ts := by
  induction ts generalizing depth with
  | nil => rfl
  | cons t ts ih => rw [List.map_cons, finalDepth_cons, finalDepth_cons, ih, t.depthAfter_emptied]

theorem Token.Fits.head?_emptied {lexis : Lexis} {depth : Nat} {next : Option Char} {t : Token}
    (h : t.Fits lexis depth next) : t.emptied.text.head? = t.text.head? := by
  cases t with
  | comment s => rcases h with ⟨body, rfl, -⟩ | ⟨-, -, ⟨line, rfl, -⟩, -⟩ <;> rfl
  | quoted | interpolation | opening | closing | separator | glyph | unterminated => rfl

/-- The first character stays. -/
theorem FitsAll.head?_emptied {lexis : Lexis} {depth : Nat} {next : Option Char}
    {ts : List Token} (h : FitsAll lexis depth next ts) :
    (spelling (ts.map Token.emptied)).head? = (spelling ts).head? := by
  cases ts with
  | nil => rfl
  | cons t ts =>
    have hne := h.1.text_ne_nil
    have hne' : t.emptied.text ≠ [] := by
      intro hnil
      have hhead := h.1.head?_emptied
      rw [hnil] at hhead
      exact hne (List.head?_eq_none_iff.1 hhead.symm)
    rw [List.map_cons, spelling_cons, spelling_cons, List.head?_append_of_ne_nil _ hne,
      List.head?_append_of_ne_nil _ hne', h.1.head?_emptied]

section

variable {dialect : Dialect} {depth : Nat} {next : Option Char} {t : Token} {ts : List Token}

theorem Token.Fits.emptied (h : t.Fits (.ofStatements .scss) depth next)
    (ht : t.isInterpolation = false) : t.emptied.Fits (.ofStatements dialect) depth next := by
  cases t with
  | comment s => exact Or.inl ⟨['*', '/'], rfl, rfl⟩
  | glyph c =>
    obtain ⟨hdouble, hsingle, hstructure, hslash, hhash⟩ := h
    exact ⟨hdouble, hsingle, hstructure,
      fun hc => ⟨(hslash hc).1, fun _ hdepth => (hslash hc).2 rfl hdepth⟩, fun hc _ => hhash hc rfl⟩
  | quoted | opening | closing | separator => exact h
  | interpolation => exact absurd ht.symm Bool.false_ne_true
  | unterminated what s =>
    cases what with
    | comment | string => exact h
    | interpolation => exact absurd ht.symm Bool.false_ne_true

/-- Without interpolations, and with empty comments, a statement is one in either dialect. -/
theorem FitsAll.emptied (dialect : Dialect) (h : FitsAll (.ofStatements .scss) depth next ts)
    (hts : ∀ t ∈ ts, t.isInterpolation = false) :
    FitsAll (.ofStatements dialect) depth next (ts.map Token.emptied) := by
  induction ts generalizing depth with
  | nil => trivial
  | cons t ts ih =>
    rw [List.forall_mem_cons] at hts
    refine ⟨?_, ?_⟩
    · rw [h.2.head?_emptied]
      exact h.1.emptied hts.1
    · rw [t.depthAfter_emptied]
      exact ih h.2 hts.2

theorem Token.Fits.simple_emptied (h : t.Fits (.ofStatements .scss) depth next)
    (ht : t.isInterpolation = false) (hinside : Stop.ofToken? t = none) : t.emptied.Simple := by
  cases t with
  | comment s => exact ⟨['*', '/'], rfl, rfl⟩
  | quoted s => exact h
  | glyph c => trivial
  | interpolation => exact absurd ht.symm Bool.false_ne_true
  | opening | closing | separator | unterminated => simp [Stop.ofToken?] at hinside

theorem FitsAll.simple_emptied (h : FitsAll (.ofStatements .scss) depth next ts)
    (hts : ∀ t ∈ ts, t.isInterpolation = false) (hinside : ∀ t ∈ ts, Stop.ofToken? t = none) :
    ∀ t ∈ ts.map Token.emptied, t.Simple := by
  induction ts generalizing depth with
  | nil => simp
  | cons t ts ih =>
    rw [List.forall_mem_cons] at hts hinside
    exact List.forall_mem_cons.2 ⟨h.1.simple_emptied hts.1 hinside.1, ih h.2 hts.2 hinside.2⟩

end

/-- **What remains of the tokens does not depend on what the comments say.** -/
theorem FitsAll.bare_emptied {lexis : Lexis} {depth : Nat} {next : Option Char} {ts : List Token}
    (h : FitsAll lexis depth next ts) (before : Option Char) :
    bare before (ts.map Token.emptied) = bare before ts := by
  induction ts generalizing before depth with
  | nil => rfl
  | cons t ts ih =>
    have hfirst : firstChar (ts.map Token.emptied) = firstChar ts := by
      cases ts with
      | nil => rfl
      | cons u ts => exact h.2.1.head?_emptied
    rw [List.map_cons]
    cases ht : t.isComment with
    | true =>
      have hcomment : t.emptied.isComment = true := by
        cases t with
        | comment => rfl
        | quoted | interpolation | opening | closing | separator | glyph | unterminated => exact ht
      rw [bare_of_isComment hcomment, bare_of_isComment ht, hfirst, ih h.2, ih h.2]
    | false =>
      have hsame : t.emptied = t := by
        cases t with
        | comment => exact absurd ht.symm Bool.false_ne_true
        | quoted | interpolation | opening | closing | separator | glyph | unterminated => rfl
      rw [hsame, bare_of_not_isComment ht, bare_of_not_isComment ht, ih h.2]

/-! ## Interpolations in a value -/

/-- What remains up to a token that is no comment does not depend on what follows. -/
theorem spelling_bare_append_cons {t : Token} (ht : t.isComment = false) {c : Char}
    (hc : t.text.getLast? = some c) (before : Option Char) (ts us : List Token) :
    spelling (bare before (ts ++ t :: us)) =
      spelling (bare before (ts ++ [t])) ++ spelling (bare (some c) us) := by
  have h := congrArg Placed.text (kept_append_cons ht hc before 0 ts us)
  rwa [Placed.text_append, ← Uncommented.text, ← Uncommented.text, ← Uncommented.text,
    text_ofTokens, text_ofTokens, text_ofTokens] at h

/-- The last token that is kept ends what remains. -/
theorem exists_bare_concat {t : Token} (ht : t.isComment = false) (before : Option Char)
    (ts : List Token) : ∃ front, bare before (ts ++ [t]) = front ++ [t] := by
  induction ts generalizing before with
  | nil => exact ⟨[], by rw [List.nil_append, bare_of_not_isComment ht]; rfl⟩
  | cons u ts ih =>
    rw [List.cons_append]
    cases hu : u.isComment with
    | true =>
      rw [bare_of_isComment hu]
      split
      · obtain ⟨front, hfront⟩ := ih (some ' ')
        exact ⟨.glyph ' ' :: front, by rw [hfront, List.cons_append]⟩
      · exact ih before
    | false =>
      obtain ⟨front, hfront⟩ := ih (u.text.getLast?.or before)
      exact ⟨u :: front, by rw [bare_of_not_isComment hu, hfront, List.cons_append]⟩

/-- Blanks are cut off up to a token that is none. -/
theorem trimStart_spelling_append {ts : List Token} (hts : ∀ t ∈ ts, t.Simple ∧ t.isComment = false)
    {c : Char} (hc : Text.isBlank c = false) (rest : Text) :
    Text.trimStart (spelling ts ++ c :: rest) =
      spelling (ts.dropWhile Token.isFiller) ++ c :: rest := by
  induction ts with
  | nil => exact List.dropWhile_cons_of_neg (by simp [hc])
  | cons t ts ih =>
    rw [List.forall_mem_cons] at hts
    obtain ⟨⟨hsimple, hcomment⟩, hts⟩ := hts
    cases ht : t.isFiller with
    | true =>
      have hblank : Text.isBlankText t.text = true := by
        cases t with
        | glyph d => simpa [Text.isBlankText, Token.isFiller] using ht
        | comment => exact absurd hcomment.symm Bool.false_ne_true
        | quoted => exact absurd ht Bool.false_ne_true
        | interpolation | opening | closing | separator | unterminated => exact hsimple.elim
      rw [List.dropWhile_cons_of_pos ht, spelling_cons, List.append_assoc,
        Text.trimStart_append_of_blank hblank, ih hts]
    | false =>
      rw [List.dropWhile_cons_of_neg (by simp [ht]), Text.trimStart_eq_self_iff]
      intro d hd
      rw [spelling_cons, List.append_assoc, List.head?_append_of_ne_nil _ hsimple.text_ne_nil] at hd
      exact hsimple.isBlank_head ht hd

/-- The first interpolation of a statement, with what stands before it. -/
theorem exists_first_interpolation {ts : List Token} {depth : Nat} {next : Option Char}
    (hfits : FitsAll (.ofStatements .scss) depth next ts)
    (hinside : ∀ t ∈ ts, Stop.ofToken? t = none) {t : Token} (hmem : t ∈ ts)
    (ht : t.isInterpolation = true) :
    ∃ us body vs, ts = us ++ .interpolation ('#' :: '{' :: body) :: vs ∧
      ∀ u ∈ us, u.isInterpolation = false := by
  cases hfind : ts.find? Token.isInterpolation with
  | none => exact absurd ht (List.find?_eq_none.1 hfind t hmem)
  | some u =>
    obtain ⟨hu, us, vs, rfl, hus⟩ := List.find?_eq_some_iff_append.1 hfind
    have hnone := hinside u (by simp)
    have hfit := (fitsAll_append.1 hfits).2.1
    cases u with
    | interpolation s =>
      obtain ⟨-, body, rfl, -⟩ := hfit
      exact ⟨us, body, vs, rfl, fun u hu => by simpa using hus u hu⟩
    | unterminated => simp [Stop.ofToken?] at hnone
    | comment | quoted | opening | closing | separator | glyph =>
      exact absurd hu Bool.false_ne_true

/-- The comment reader takes the first two characters of an interpolation for what they are. -/
theorem exists_tokens_ofComments_hash {us : List Token}
    (hfits : FitsAll (.ofStatements .scss) 0 (some '#') us)
    (hus : ∀ u ∈ us, u.isInterpolation = false) (rest : Text) :
    ∃ u later, u.isComment = false ∧ u.text = ['{'] ∧
      tokens (.ofComments .scss) 0 (spelling us ++ '#' :: '{' :: rest) =
        us ++ .glyph '#' :: u :: later := by
  have hfront : FitsAll (.ofComments .scss) 0 ('#' :: '{' :: rest).head? us := hfits.ofComments hus
  refine ⟨structural (finalDepth 0 us) .opening '{', tokens (.ofComments .scss)
    ((structural (finalDepth 0 us) .opening '{').depthAfter (finalDepth 0 us)) rest, ?_,
    text_structural rfl _, ?_⟩
  · unfold structural
    split <;> rfl
  · rw [tokens_spelling_append hfront, tokens_cons,
      show nextToken (.ofComments .scss) (finalDepth 0 us) '#' ('{' :: rest) =
        (.glyph '#', '{' :: rest) from rfl, tokens_cons]
    rfl

/-- What remains of the tokens before a `#` is read as it is before a `#`. -/
theorem exists_remains_before_hash {us : List Token}
    (hfits : FitsAll (.ofStatements .scss) 0 (some '#') us)
    (hus : ∀ u ∈ us, u.isInterpolation = false) (hinside : ∀ u ∈ us, Stop.ofToken? u = none) :
    ∃ front, bare none (us ++ [.glyph '#']) = front ++ [.glyph '#'] ∧
      FitsAll (.ofStatements .scss) 0 (some '#') front ∧
      ∀ t ∈ front, t.Simple ∧ t.isComment = false := by
  have hfits' : FitsAll (.ofStatements .scss) 0 none (us ++ [.glyph '#']) :=
    fitsAll_append.2 ⟨hfits, ⟨by decide, by decide, by simp, by simp, by simp⟩, trivial⟩
  have hus' : ∀ u ∈ us ++ [.glyph '#'], u.isInterpolation = false :=
    List.forall_mem_append.2 ⟨hus, List.forall_mem_singleton.2 rfl⟩
  have hsimple := hfits'.simple_emptied hus'
    (List.forall_mem_append.2 ⟨hinside, List.forall_mem_singleton.2 rfl⟩)
  obtain ⟨front, hremains⟩ := exists_bare_concat (t := .glyph '#') rfl none us
  have hremains' := (hfits'.bare_emptied none).trans hremains
  refine ⟨front, hremains, ?_, ?_⟩
  · have h := fitsAll_bare hsimple (hfits'.emptied .scss hus') (by simp) none
    rw [hremains'] at h
    exact (fitsAll_append.1 h).1
  · intro t ht
    have hbare := List.mem_append_left [Token.glyph '#'] ht
    rw [← hremains'] at hbare
    exact of_mem_bare hsimple hbare

/-- What a text ends in cannot take away a character that it does not have. -/
theorem exists_of_append_eq_append {s rest value flags : Text} {c : Char} (hc : c ∉ flags)
    (h : s ++ c :: rest = value ++ flags) : ∃ rest', value = s ++ c :: rest' := by
  rcases List.append_eq_append_iff.1 h with ⟨mid, hvalue, hrest⟩ | ⟨mid, -, hflags⟩
  · cases mid with
    | nil =>
      rw [List.nil_append] at hrest
      exact absurd (hrest ▸ List.mem_cons_self) hc
    | cons d mid =>
      obtain ⟨rfl, -⟩ := List.cons.inj hrest
      exact ⟨mid, hvalue⟩
  · exact absurd (hflags ▸ List.mem_append_right _ List.mem_cons_self) hc

/-- Where `#{` is reached, an interpolation is read. -/
theorem exists_interpolation_hash {ts : List Token}
    (hts : FitsAll (.ofStatements .scss) 0 (some '#') ts) (rest : Text) :
    ∃ u ∈ tokens (.ofStatements .scss) 0 (spelling ts ++ '#' :: '{' :: rest),
      u.isInterpolation = true := by
  have hfits : FitsAll (.ofStatements .scss) 0 ('#' :: '{' :: rest).head? ts := hts
  rw [tokens_spelling_append hfits, tokens_cons]
  refine ⟨_, List.mem_append_right _ List.mem_cons_self, ?_⟩
  change Token.isInterpolation
    (enclosed .interpolation .interpolation ['#', '{'] rest (closeInterpolation? 0)).1 = true
  unfold enclosed
  split <;> rfl

/-- **An interpolation behind the colon is one in the value.**  The comment reader keeps its first
two characters, and flags have neither of them. -/
theorem exists_interpolation_of_mem {tail : Text}
    (hinside : ∀ t ∈ tokens (.ofStatements .scss) 0 tail, Stop.ofToken? t = none) {t : Token}
    (hmem : t ∈ tokens (.ofStatements .scss) 0 tail) (ht : t.isInterpolation = true) :
    ∃ u ∈ tokens (.ofStatements .scss) 0 (valueOf .scss tail), u.isInterpolation = true := by
  have hfits := fitsAll_tokens (.ofStatements .scss) 0 tail
  obtain ⟨us, body, vs, hsplit, hus⟩ := exists_first_interpolation hfits hinside hmem ht
  rw [hsplit, fitsAll_append] at hfits
  have hbefore : FitsAll (.ofStatements .scss) 0 (some '#') us := hfits.1
  have htail : tail = spelling us ++ '#' :: '{' :: (body ++ spelling vs) := by
    have h := congrArg spelling hsplit
    rw [spelling_tokens] at h
    simpa using h
  obtain ⟨u, later, hu, hutext, hread⟩ := exists_tokens_ofComments_hash hbefore hus
    (body ++ spelling vs)
  obtain ⟨front, hremains, hfront, hsimple⟩ := exists_remains_before_hash hbefore hus
    fun u hu => hinside u (by rw [hsplit]; exact List.mem_append_left _ hu)
  -- the value with its flags starts with what remains, and goes on with the two characters
  obtain ⟨w, hw⟩ : ∃ w, Text.trimStart (spelling (bare none (tokens (.ofComments .scss) 0 tail))) =
      spelling (front.dropWhile Token.isFiller) ++ '#' :: '{' :: w := by
    refine ⟨spelling (bare (some '{') later), ?_⟩
    rw [htail, hread, spelling_bare_append_cons (t := .glyph '#') rfl rfl, hremains,
      bare_of_not_isComment hu, spelling_cons, hutext, spelling_append, List.append_assoc]
    exact trimStart_spelling_append hsimple (by decide) _
  obtain ⟨flags, hvalue, hflags, -, -⟩ := exists_flagTail
    (Text.trimStart (spelling (bare none (tokens (.ofComments .scss) 0 tail))))
  rw [← valueOf, hw] at hvalue
  obtain ⟨w', hw'⟩ : ∃ w', valueOf .scss tail =
      spelling (front.dropWhile Token.isFiller) ++ ['#'] ++ '{' :: w' := by
    have hbrace : '{' ∉ flags := fun h => absurd (hflags.isPlain '{' h) (by decide)
    have hsplit' : spelling (front.dropWhile Token.isFiller) ++ ['#'] ++ '{' :: w =
        valueOf .scss tail ++ flags := by simpa using hvalue
    exact exists_of_append_eq_append hbrace hsplit'
  rw [← List.takeWhile_append_dropWhile (p := Token.isFiller) (l := front), fitsAll_append,
    finalDepth_of_filler fun t ht => List.mem_takeWhile_imp ht] at hfront
  rw [hw', List.append_assoc]
  exact exists_interpolation_hash hfront.2 w'

/-! ## Values inside blocks -/

/-- Behind the colon, empty comments in the place of comments make the value of a plain
stylesheet. -/
theorem valueOf_emptied {tail : Text}
    (hnone : ∀ t ∈ tokens (.ofStatements .scss) 0 tail, t.isInterpolation = false) :
    valueOf .css (spelling ((tokens (.ofStatements .scss) 0 tail).map Token.emptied)) =
      valueOf .scss tail := by
  have hfits := fitsAll_tokens (.ofStatements .scss) 0 tail
  have hplain : tokens (.ofComments .css) 0
      (spelling ((tokens (.ofStatements .scss) 0 tail).map Token.emptied)) =
        (tokens (.ofStatements .scss) 0 tail).map Token.emptied :=
    tokens_spelling (hfits.emptied .css hnone)
  have hread := tokens_spelling (hfits.ofComments hnone)
  rw [spelling_tokens] at hread
  rw [valueOf, valueOf, hplain, hfits.bare_emptied, hread]

/-- With the same name before the colon and the same value behind it, a statement says the same
in both dialects. -/
theorem meaning?_append_cons_congr {dialect dialect' : Dialect} {blocks : List Text}
    {name tail tail' : Text} (hcolon : ':' ∉ name)
    (hvalue : valueOf dialect tail = valueOf dialect' tail') :
    meaning? dialect blocks (name ++ ':' :: tail) =
      meaning? dialect' blocks (name ++ ':' :: tail') := by
  rw [meaning?, meaning?, splitFirst?_append_cons hcolon, splitFirst?_append_cons hcolon]
  simp only [hvalue]

/-- A name and a colon before tokens of a plain stylesheet make a statement. -/
theorem isBody_name_append {name space : Text} (hname : isPropertyName name = true)
    (hspace : Text.isBlankText space = true) {ts : List Token} (hts : ∀ t ∈ ts, t.Simple)
    (hfits : FitsAll (.ofStatements .css) 0 none ts) :
    IsBody .css none ((name ++ space ++ [':']).map .glyph ++ ts) := by
  have hplain : ∀ t ∈ (name ++ space ++ [':']).map Token.glyph, t.Plain :=
    fun t ht => plain_of_mem_name hname hspace ht
  refine ⟨?_, ?_⟩
  · rw [fitsAll_append, finalDepth_of_plain hplain]
    exact ⟨fitsAll_of_plain hplain _ _ _, hfits⟩
  · intro t ht
    rcases List.mem_append.1 ht with ht | ht
    · exact (hplain t ht).simple.inside
    · exact (hts t ht).inside

/-- The declaration of a statement that closes its parentheses has a property name, and its value
can be written into a plain stylesheet if it has no interpolation. -/
theorem isReadable_css_of_declaration? {body : List Token} {next : Option Char}
    (hbody : IsBody .scss next body) (hdepth : finalDepth 0 body = 0) {offset line : Nat}
    {blocks : List Text} {stop : Stop} {d : Declaration}
    (h : Statement.declaration? .scss offset line blocks ⟨body, stop⟩ = some d)
    (hvalue : ∀ t ∈ tokens (.ofStatements .scss) 0 d.value, t.isInterpolation = false) :
    isPropertyName d.property = true ∧ IsReadable .css d.value := by
  obtain ⟨name, tail, start, hsplit, hname, -, hmeaning, -, -⟩ := exists_of_declaration? h
  rw [text_keptValue, ← valueOf] at hmeaning
  obtain ⟨space, hspace, hparts, hdrop⟩ := exists_tokens_of_name hbody hsplit hname
  have hdvalue : d.value = valueOf .scss tail := congrArg Meaning.value hmeaning
  have hinside : ∀ t ∈ tokens (.ofStatements .scss) 0 tail, Stop.ofToken? t = none := by
    intro t ht
    refine hbody.inside t ((List.dropWhile_sublist Token.isFiller).mem ?_)
    rw [hdrop]
    exact List.mem_append_right _ ht
  have hnone : ∀ t ∈ tokens (.ofStatements .scss) 0 tail, t.isInterpolation = false := by
    intro t ht
    by_contra hinterpolation
    obtain ⟨u, hu, hu'⟩ := exists_interpolation_of_mem hinside ht (by simpa using hinterpolation)
    rw [← hdvalue] at hu
    exact absurd (hu'.symm.trans (hvalue u hu)) (by decide)
  have hclosed : finalDepth 0 (tokens (.ofStatements .scss) 0 tail) = 0 := by
    rwa [← List.takeWhile_append_dropWhile (p := Token.isFiller) (l := body), finalDepth_append,
      finalDepth_of_filler (fun t ht => List.mem_takeWhile_imp ht), hdrop, finalDepth_append,
      finalDepth_of_plain fun t ht => plain_of_mem_name hname hspace ht] at hdepth
  -- the same declaration, as a statement of a plain stylesheet
  have hfits := fitsAll_tokens (.ofStatements .scss) 0 tail
  have hbody' := isBody_name_append hname hspace (hfits.simple_emptied hnone hinside)
    (hfits.emptied .css hnone)
  have hcore' : coreOf ([] ++ (Text.trim name ++ space ++ [':']).map .glyph ++
      (tokens (.ofStatements .scss) 0 tail).map Token.emptied) = _ :=
    coreOf_name_append (by simp) hname _
  rw [List.nil_append, ← hparts] at hcore'
  rw [← hparts] at hbody'
  obtain ⟨hcore, hcolon⟩ := eq_append_of_splitFirst? hsplit
  have hsays : meaning? .css blocks (coreOf ((name ++ [':']).map .glyph ++
      (tokens (.ofStatements .scss) 0 tail).map Token.emptied)) = some d.meaning := by
    rw [hcore', meaning?_append_cons_congr hcolon (valueOf_emptied hnone), ← hcore,
      ← map_meaning_declaration? .scss offset line, h]
    rfl
  obtain ⟨d', hd', hsame⟩ := Option.map_eq_some_iff.1
    ((map_meaning_declaration? .css 0 1 blocks ⟨_, .finish⟩).trans hsays)
  have hplain : ∀ t ∈ (name ++ [':']).map Token.glyph, t.Plain := by
    rw [hparts]
    exact fun t ht => plain_of_mem_name hname hspace ht
  obtain ⟨hproperty, hreadable⟩ := isReadable_of_declaration? hbody' (by
    rw [finalDepth_append, finalDepth_of_plain hplain, finalDepth_map_emptied, hclosed]) hd'
  rw [← show d'.property = d.property from congrArg Meaning.property hsame,
    ← show d'.value = d.value from congrArg Meaning.value hsame]
  exact ⟨hproperty, hreadable⟩

/-- **Inside a block, every value without interpolations can be written into a plain
stylesheet.** -/
theorem isReadable_css_of_reading {offset : Nat} {blocks : List Text} {ts : List Token}
    {ds : List Declaration} (h : Reading .scss offset blocks ts ds) {d : Declaration}
    (hd : d ∈ ds) (hblock : d.selectors ≠ [])
    (hvalue : ∀ t ∈ tokens (.ofStatements .scss) 0 d.value, t.isInterpolation = false) :
    isPropertyName d.property = true ∧ IsReadable .css d.value := by
  obtain ⟨body, next, offset, line, blocks, stop, hbody, hdepth, hfound⟩ :=
    h.exists_closed hd hblock
  exact isReadable_css_of_declaration? hbody hdepth hfound hvalue

end StyleLift.Stylesheet
