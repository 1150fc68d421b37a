import StyleLift.Proofs.Stylesheet.Blocks
import StyleLift.Proofs.Stylesheet.Headers
import StyleLift.Proofs.Stylesheet.PlainValues

/-!
# Comments put into a source

A comment is put between two tokens of a plain stylesheet.  It lands in one statement, and the
tokens around it are read as before.  What the statement says is read off from its tokens without
comments, and a comment at a blank leaves no trace there (`bare_insert`).  Only the name of a
declaration is taken from the text with its comments, so a comment between the name and the colon
makes the statement something else.

* `AdmitsComment`: the places beside a blank, outside comments, strings and headers.
* `exists_meanings_insert`: a comment changes what its statement says, and nothing else.
* `parse_insert_comment`: **at these places a comment changes nothing.**
* `parse_insert_behind_property`: **behind the name of a property a comment hides the
  declaration,** and only this one.
-/

namespace StyleLift.Stylesheet

open Uncommented (isSolid)

/-- A comment with its delimiters. -/
def blockComment (inner : Text) : Text := '/' :: '*' :: inner ++ ['*', '/']

/-! ## Places for a comment -/

/-- The tokens that hold more than one character: comments and strings, and interpolations where
there are any. -/
def Token.isOpaque : Token → Bool
  | .opening | .closing | .separator | .glyph _ => false
  | _ => true

/-- Where comments and strings stand among tokens that start at `offset`. -/
def opaqueSpans (offset : Nat) : List Token → List Span
  | [] => []
  | t :: ts =>
    if t.isOpaque then
      ⟨offset, offset + t.text.length⟩ :: opaqueSpans (offset + t.text.length) ts
    else opaqueSpans (offset + t.text.length) ts

/-- A comment may stand between `front` and `back`, the two parts of a source. -/
structure AdmitsComment (front back : Text) : Prop where
  beside_blank : ∃ c, Text.isAsciiBlank c = true ∧
    (front.getLast? = some c ∨ back.head? = some c)
  outside : ∀ span ∈ opaqueSpans 0 (tokens (.ofStatements .css) 0 (front ++ back)),
    ¬ (span.start < front.length ∧ front.length < span.stop)
  not_behind : ∀ span ∈ commentSpans 0 (tokens (.ofStatements .css) 0 (front ++ back)),
    span.stop ≠ front.length
  not_in_header : ∀ header ∈ headers .css 0 (statementsOf .css (front ++ back)),
    ¬ (header.start < front.length ∧ front.length ≤ header.stop)

/-- A place that is inside no comment and no string is between two tokens. -/
theorem exists_cut_of_outside {offset : Nat} {ts : List Token} {front back : Text}
    (hts : spelling ts = front ++ back)
    (houtside : ∀ span ∈ opaqueSpans offset ts,
      ¬ (span.start < offset + front.length ∧ offset + front.length < span.stop)) :
    ∃ us vs, ts = us ++ vs ∧ spelling us = front ∧ spelling vs = back := by
  induction ts generalizing offset front with
  | nil =>
    obtain ⟨rfl, rfl⟩ := List.append_eq_nil_iff.1 hts.symm
    exact ⟨[], [], rfl, rfl, rfl⟩
  | cons t ts ih =>
    cases front with
    | nil => exact ⟨[], t :: ts, rfl, rfl, hts⟩
    | cons c front =>
      have hrest : ∀ span ∈ opaqueSpans (offset + t.text.length) ts,
          span ∈ opaqueSpans offset (t :: ts) := by
        intro span hspan
        rw [opaqueSpans]
        split
        · exact List.mem_cons_of_mem _ hspan
        · exact hspan
      rcases List.append_eq_append_iff.1 hts with ⟨mid, hmid, hback⟩ | ⟨mid, htext, hback⟩
      · obtain ⟨us, vs, rfl, rfl, rfl⟩ := ih hback (by
          intro span hspan
          have h := houtside span (hrest span hspan)
          rw [hmid, List.length_append] at h
          omega)
        exact ⟨t :: us, vs, rfl, by rw [spelling_cons, hmid], rfl⟩
      · -- the place is inside the first token or right behind it
        cases mid with
        | nil =>
          rw [List.append_nil] at htext
          exact ⟨[t], ts, rfl, by simp [htext], hback.symm⟩
        | cons d mid =>
          have hlength := congrArg List.length htext
          simp only [List.length_append, List.length_cons] at hlength
          have hopaque : t.isOpaque = true := by
            cases t with
            | opening | closing | separator | glyph =>
              simp only [Token.text_opening, Token.text_closing, Token.text_separator,
                Token.text_glyph, List.length_singleton] at hlength
              omega
            | comment | quoted | interpolation | unterminated => rfl
          have hspan : (⟨offset, offset + t.text.length⟩ : Span) ∈
              opaqueSpans offset (t :: ts) := by
            rw [opaqueSpans, if_pos hopaque]
            exact List.mem_cons_self
          have h := houtside _ hspan
          simp only [List.length_cons] at h
          omega

/-- A place that is not right behind a comment is between tokens of which the first is none. -/
theorem not_isComment_of_not_behind {us vs : List Token}
    (h : ∀ span ∈ commentSpans 0 (us ++ vs), span.stop ≠ (spelling us).length) {t : Token}
    (ht : us.getLast? = some t) : t.isComment = false := by
  obtain ⟨us, rfl⟩ := List.getLast?_eq_some_iff.1 ht
  by_contra hcomment
  rw [Bool.not_eq_false] at hcomment
  refine h ⟨(spelling us).length, (spelling us).length + t.text.length⟩ ?_ ?_
  · rw [List.append_assoc, commentSpans_append, List.singleton_append, commentSpans,
      if_pos hcomment, Nat.zero_add]
    exact List.mem_append_right _ List.mem_cons_self
  · simp

/-! ## Tokens around a comment -/

/-- The tokens around a comment are read as before. -/
theorem fitsAll_insert {us vs : List Token} {inner : Text} {depth : Nat} {next : Option Char}
    (hinner : ¬ ['*', '/'] <:+: inner)
    (h : FitsAll (.ofStatements .css) depth next (us ++ vs))
    (hus : ∀ t ∈ us, t.isTerminated = true) :
    FitsAll (.ofStatements .css) depth next (us ++ .comment (blockComment inner) :: vs) := by
  obtain ⟨hfront, hback⟩ := fitsAll_append.1 h
  refine fitsAll_append.2 ⟨hfront.of_next hus ?_, Or.inl (isBlockComment_of_inner hinner), hback⟩
  rw [spelling_cons, Token.text_comment, blockComment]
  exact fun h => absurd (Option.some.inj h) (by decide)

/-- Neither does a comment beside a blank leave anything behind, nor does it change what other
comments leave. -/
theorem bare_insert {before : Option Char} {us vs : List Token} {comment : Token}
    (hcomment : comment.isComment = true) (hne : ∀ t ∈ us ++ vs, t.text ≠ [])
    (hlast : ∀ t, us.getLast? = some t → t.isComment = false)
    (hapart : (isSolid ((spelling us).getLast?.or before) && isSolid (spelling vs).head?) = false) :
    bare before (us ++ comment :: vs) = bare before (us ++ vs) := by
  induction us generalizing before with
  | nil =>
    rw [List.nil_append] at hne ⊢
    rw [spelling_nil, List.getLast?_nil, Option.none_or] at hapart
    rw [bare_of_isComment hcomment, firstChar_eq_head?_spelling hne, hapart]
    rfl
  | cons t us ih =>
    rw [List.cons_append, List.forall_mem_cons] at hne
    rw [spelling_cons, List.getLast?_append, Option.or_assoc] at hapart
    have hlater : ∀ u, us.getLast? = some u → u.isComment = false := by
      intro u hu
      refine hlast u ?_
      rw [List.getLast?_cons, hu]
      rfl
    rw [List.cons_append, List.cons_append]
    cases ht : t.isComment with
    | false => rw [bare_of_not_isComment ht, bare_of_not_isComment ht, ih hne.2 hlater hapart]
    | true =>
      cases us with
      | nil => exact absurd (ht.symm.trans (hlast t rfl)) (by decide)
      | cons u us =>
        -- what is kept before the other tokens does not matter, since one of them is kept
        obtain ⟨c, hc⟩ : ∃ c, (spelling (u :: us)).getLast? = some c := by
          refine Option.isSome_iff_exists.1 (List.getLast?_isSome.2 ?_)
          rw [spelling_cons]
          exact List.append_ne_nil_of_left_ne_nil (hne.2 u (by simp)) _
        have hrest : ∀ other : Option Char,
            bare other (u :: us ++ comment :: vs) = bare other (u :: us ++ vs) := by
          intro other
          refine ih hne.2 hlater ?_
          rw [hc] at hapart ⊢
          exact hapart
        rw [bare_of_isComment ht, bare_of_isComment ht, hrest, hrest]
        rfl

/-! ## A comment in a statement -/

section

variable {left right : List Token} {inner : Text} {next : Option Char} {stop : Stop}

theorem IsBody.insert (hinner : ¬ ['*', '/'] <:+: inner)
    (hbody : IsBody .css next (left ++ right)) :
    IsBody .css next (left ++ .comment (blockComment inner) :: right) := by
  have hinside := hbody.inside
  rw [List.forall_mem_append] at hinside
  exact ⟨fitsAll_insert hinner hbody.fits fun t ht => Token.isTerminated_of_inside (hinside.1 t ht),
    List.forall_mem_append.2 ⟨hinside.1, List.forall_mem_cons.2 ⟨rfl, hinside.2⟩⟩⟩

/-- The comment stands beside a blank and not right behind another comment. -/
structure Separates (left right : List Token) : Prop where
  not_behind : ∀ t, left.getLast? = some t → t.isComment = false
  apart : (isSolid (spelling left).getLast? && isSolid (spelling right).head?) = false

theorem Separates.bare_eq (h : Separates left right) (hne : ∀ t ∈ left ++ right, t.text ≠ []) :
    bare none (left ++ .comment (blockComment inner) :: right) = bare none (left ++ right) := by
  refine bare_insert rfl hne h.not_behind ?_
  rw [Option.or_none]
  exact h.apart

/-- What stands further away does not matter. -/
theorem Separates.of_append {front back : List Token}
    (h : Separates (front ++ left) (right ++ back)) : Separates left right := by
  refine ⟨?_, ?_⟩
  · intro t ht
    refine h.not_behind t ?_
    rw [List.getLast?_append, ht]
    rfl
  · have hapart := h.apart
    rw [spelling_append, spelling_append, List.getLast?_append, List.head?_append] at hapart
    cases hleft : (spelling left).getLast? with
    | none => rfl
    | some c =>
      cases hright : (spelling right).head? with
      | none => exact Bool.and_false _
      | some d => rwa [hleft, hright] at hapart

/-- The text of a statement without its comments, as it is read. -/
theorem text_ofText_spelling {body : List Token}
    (hbody : FitsAll (.ofStatements .css) 0 next body) :
    (Uncommented.ofText .css 0 (spelling body)).text = spelling (bare none body) := by
  have hread : tokens (.ofComments .css) 0 (spelling body) = body := tokens_spelling hbody.atEnd
  rw [Uncommented.ofText, hread, text_ofTokens]

theorem Separates.prelude_eq (h : Separates left right) (hinner : ¬ ['*', '/'] <:+: inner)
    (hbody : IsBody .css next (left ++ right)) :
    Statement.prelude .css ⟨left ++ .comment (blockComment inner) :: right, stop⟩ =
      Statement.prelude .css ⟨left ++ right, stop⟩ := by
  have hbody' := hbody.insert hinner
  have hprelude := trim_uncommented_coreOf hbody.fits
  rw [text_ofText_spelling hbody.fits] at hprelude
  have hprelude' := trim_uncommented_coreOf hbody'.fits
  rw [text_ofText_spelling hbody'.fits, h.bare_eq hbody.fits.text_ne_nil] at hprelude'
  exact hprelude'.trans hprelude.symm

/-- A statement begins with the first token that is neither blank nor a comment. -/
theorem coreOf_append_cons {lead more : List Token} {t : Token}
    (hlead : ∀ u ∈ lead, u.isFiller = true) (ht : t.isFiller = false) :
    coreOf (lead ++ t :: more) = spelling (t :: more) := by
  rw [coreOf, List.dropWhile_append_of_pos hlead, List.dropWhile_cons_of_neg (by simp [ht])]

/-- The header of a declaration reaches from the first token of the statement to the colon, so it
covers every cut between them. -/
theorem covers_of_header? {lead more : List Token} {t : Token}
    (hlead : ∀ u ∈ lead, u.isFiller = true) (ht : t.isFiller = false) (htext : t.text ≠ [])
    (hcolon : ':' ∉ spelling (t :: more)) {offset : Nat} {header : Span}
    (h : Statement.header? .css offset ⟨lead ++ t :: more ++ right, stop⟩ = some header) :
    header.start < offset + (spelling (lead ++ t :: more)).length ∧
      offset + (spelling (lead ++ t :: more)).length ≤ header.stop := by
  obtain ⟨-, name, tail, hsplit, -, -, rfl⟩ := header?_eq_some_iff.1 h
  have hcore : Statement.core ⟨lead ++ t :: more ++ right, stop⟩ =
      spelling (t :: more) ++ spelling right := by
    have hcore : coreOf (lead ++ t :: (more ++ right)) = spelling (t :: (more ++ right)) :=
      coreOf_append_cons hlead ht
    rw [← List.cons_append, ← List.append_assoc, spelling_append] at hcore
    exact hcore
  have hwhole := congrArg List.length (lead_append_core (lead ++ t :: more ++ right) stop)
  have hpos := List.length_pos_iff.2 htext
  rw [hcore] at hsplit hwhole
  simp only [List.length_append, spelling_append, spelling_cons] at hwhole
  obtain ⟨hparts, -⟩ := eq_append_of_splitFirst? hsplit
  -- the colon is not among the tokens before the cut
  rcases List.append_eq_append_iff.1 hparts with ⟨mid, hname, -⟩ | ⟨mid, hname, hrest⟩
  · have hlength := congrArg List.length hname
    simp only [List.length_append, spelling_cons] at hlength
    simp only [spelling_append, spelling_cons, List.length_append]
    omega
  · cases mid with
    | nil =>
      have hlength := congrArg List.length hname
      simp only [List.length_append, spelling_cons, List.length_nil] at hlength
      simp only [spelling_append, spelling_cons, List.length_append]
      omega
    | cons d mid =>
      obtain ⟨rfl, -⟩ := List.cons.inj hrest
      rw [hname] at hcolon
      simp at hcolon

theorem Separates.valueOf_eq (h : Separates left right) (hinner : ¬ ['*', '/'] <:+: inner)
    (hfits : FitsAll (.ofStatements .css) 0 next (left ++ right))
    (hleft : ∀ t ∈ left, t.isTerminated = true) :
    valueOf .css (spelling (left ++ .comment (blockComment inner) :: right)) =
      valueOf .css (spelling (left ++ right)) := by
  have hread : tokens (.ofComments .css) 0 (spelling (left ++ right)) = left ++ right :=
    tokens_spelling hfits.atEnd
  have hread' : tokens (.ofComments .css) 0
      (spelling (left ++ .comment (blockComment inner) :: right)) =
        left ++ .comment (blockComment inner) :: right :=
    tokens_spelling (fitsAll_insert hinner hfits hleft).atEnd
  rw [valueOf, valueOf, hread, hread', h.bare_eq hfits.text_ne_nil]

/-- Behind the colon a comment does not change the value. -/
theorem Separates.meaning?_eq (h : Separates left right) (hinner : ¬ ['*', '/'] <:+: inner)
    (hbody : IsBody .css next (left ++ right)) (hcolon : ':' ∈ coreOf left) (blocks : List Text) :
    meaning? .css blocks (coreOf left ++ spelling (.comment (blockComment inner) :: right)) =
      meaning? .css blocks (coreOf left ++ spelling right) := by
  obtain ⟨name, tail, hparts, hname⟩ := List.eq_append_cons_of_mem hcolon
  have hsplit : Text.splitFirst? ':' (coreOf left) = some (name, tail) := by
    rw [hparts, splitFirst?_append_cons hname]
  rw [hparts, List.append_assoc, List.append_assoc, List.cons_append, List.cons_append]
  cases hproperty : isPropertyName (Text.trim name) with
  | false =>
    rw [meaning?, meaning?, splitFirst?_append_cons hname, splitFirst?_append_cons hname]
    simp [hproperty]
  | true =>
    have hleft : IsBody .css ((spelling right).head?.or next) left :=
      ⟨(fitsAll_append.1 hbody.fits).1, (List.forall_mem_append.1 hbody.inside).1⟩
    obtain ⟨space, hspace, -, htokens⟩ := exists_tokens_of_name hleft hsplit hproperty
    -- the tokens behind the colon, up to the comment
    have hfront := List.takeWhile_append_dropWhile (p := Token.isFiller) (l := left)
    rw [htokens, ← List.append_assoc] at hfront
    have hinside := List.forall_mem_append.1 hbody.inside
    rw [← hfront] at h hinside
    have hfits := hbody.fits
    rw [← hfront, List.append_assoc, fitsAll_append, finalDepth_append,
      finalDepth_of_filler fun t ht => List.mem_takeWhile_imp ht,
      finalDepth_of_plain fun t ht => plain_of_mem_name hproperty hspace ht] at hfits
    have hseparates : Separates (tokens (.ofStatements .css) 0 tail) right := by
      rw [← List.append_nil right] at h
      exact h.of_append
    have hvalue := hseparates.valueOf_eq hinner hfits.2 fun t ht =>
      Token.isTerminated_of_inside (hinside.1 t (List.mem_append_right _ ht))
    rw [spelling_append, spelling_append, spelling_tokens] at hvalue
    exact meaning?_append_cons_congr hname hvalue

/-- **A comment that does not stand in a header changes nothing.** -/
theorem Separates.meanings_eq (h : Separates left right) (hinner : ¬ ['*', '/'] <:+: inner)
    (hbody : IsBody .css next (left ++ right)) {offset : Nat}
    (hheader : ∀ header, Statement.header? .css offset ⟨left ++ right, stop⟩ = some header →
      ¬ (header.start < offset + (spelling left).length ∧
        offset + (spelling left).length ≤ header.stop)) (blocks : List Text) :
    Statement.meanings .css blocks ⟨left ++ .comment (blockComment inner) :: right, stop⟩ =
      Statement.meanings .css blocks ⟨left ++ right, stop⟩ := by
  have hlead : ∀ t ∈ left.takeWhile Token.isFiller, t.isFiller = true :=
    fun t ht => List.mem_takeWhile_imp ht
  have hsplit := List.takeWhile_append_dropWhile (p := Token.isFiller) (l := left)
  cases hmore : left.dropWhile Token.isFiller with
  | nil =>
    -- the comment stands before the statement
    rw [hmore, List.append_nil] at hsplit
    rw [hsplit] at hlead
    have hcore : Statement.core ⟨left ++ .comment (blockComment inner) :: right, stop⟩ =
        Statement.core ⟨left ++ right, stop⟩ := by
      simp only [Statement.core]
      rw [List.dropWhile_append_of_pos hlead, List.dropWhile_append_of_pos hlead,
        List.dropWhile_cons_of_pos rfl]
    rw [Statement.meanings, Statement.meanings, hcore]
  | cons t more =>
    have ht := isFiller_of_dropWhile_eq_cons hmore
    rw [hmore] at hsplit
    have hcore : ∀ rest : List Token, Statement.core ⟨left ++ rest, stop⟩ =
        coreOf left ++ spelling rest := by
      intro rest
      rw [← hsplit, coreOf_append_cons hlead ht, List.append_assoc, List.cons_append,
        ← spelling_append]
      exact coreOf_append_cons hlead ht
    by_cases hcolon : ':' ∈ coreOf left
    · rw [Statement.meanings, Statement.meanings, hcore, hcore,
        h.meaning?_eq hinner hbody hcolon]
    · -- the comment stands before the colon, and the statement is no declaration
      have hnew : meaning? .css blocks
          (coreOf left ++ spelling (.comment (blockComment inner) :: right)) = none :=
        meaning?_eq_none hcolon (by decide) (by decide) (by decide) (by decide)
      have hold : Statement.header? .css offset ⟨left ++ right, stop⟩ = none := by
        rw [Option.eq_none_iff_forall_ne_some]
        intro header hsome
        have htext : t.text ≠ [] := by
          refine hbody.fits.text_ne_nil t ?_
          rw [← hsplit]
          simp
        rw [← hsplit, coreOf_append_cons hlead ht] at hcolon
        rw [← hsplit] at hsome hheader
        exact hheader header hsome (covers_of_header? hlead ht htext hcolon hsome)
      have hlength : (Statement.meanings .css blocks ⟨left ++ right, stop⟩).length = _ :=
        length_meanings blocks offset _
      rw [hold] at hlength
      rw [List.length_eq_zero_iff.1 hlength, Statement.meanings, hcore, hnew]
      split <;> rfl

/-- A comment behind the name makes the statement something else. -/
theorem meanings_insert_behind_name {lead : List Token} {name : Text}
    (hlead : ∀ t ∈ lead, t.isFiller = true) (hname : isPropertyName name = true)
    (blocks : List Text) : Statement.meanings .css blocks
      ⟨lead ++ name.map .glyph ++ .comment (blockComment inner) :: right, stop⟩ = [] := by
  have hcore : Statement.core
      ⟨lead ++ name.map .glyph ++ .comment (blockComment inner) :: right, stop⟩ =
        name ++ spelling (.comment (blockComment inner) :: right) := by
    cases name with
    | nil => exact absurd rfl (propertyName_ne_nil hname)
    | cons c name =>
      have hc : Token.isFiller (.glyph c) = false :=
        isBlank_of_mem_propertyName hname List.mem_cons_self
      rw [List.append_assoc, Statement.core, ← spelling, ← coreOf]
      exact (coreOf_append_cons hlead hc).trans (by simp)
  have hnone : meaning? .css blocks
      (name ++ spelling (.comment (blockComment inner) :: right)) = none :=
    meaning?_eq_none (colon_notMem_propertyName hname) (by decide) (by decide) (by decide)
      (by decide)
  rw [Statement.meanings, hcore, hnone]
  split <;> rfl

end

/-! ## A comment in a source -/

/-- The tokens of an accepted source are whole, and its statements say what is declared. -/
theorem exists_tokens_of_parse {source : Text} {doc : Document}
    (h : Document.parse .css source = .ok doc) :
    ∃ ts, tokens (.ofStatements .css) 0 source = ts ∧ spelling ts = source ∧
      FitsAll (.ofStatements .css) 0 none ts ∧ (∀ t ∈ ts, t.isTerminated = true) ∧
      meanings? .css [] (Statement.ofTokens ts) =
        some (doc.declarations.map Declaration.meaning) := by
  obtain ⟨ts, hreads, -⟩ := exists_parse_iff.1 ⟨doc, h⟩
  have hms := exists_parse_iff_meanings.1 ⟨doc, h, rfl⟩
  obtain ⟨rfl, hterminated⟩ := reads_iff.1 hreads
  exact ⟨_, rfl, spelling_tokens _ 0 source, fitsAll_tokens _ 0 source, hterminated, hms⟩

/-- **A comment changes what its statement says, and nothing else.** -/
theorem exists_meanings_insert {ts : List Token} (hfits : FitsAll (.ofStatements .css) 0 none ts)
    (hterminated : ∀ t ∈ ts, t.isTerminated = true) {ms : List Meaning}
    (h : meanings? .css [] (Statement.ofTokens ts) = some ms) (place : Place ts)
    {left right : List Token} (hbody : place.statement.body = left ++ right) {inner : Text}
    (hinner : ¬ ['*', '/'] <:+: inner) :
    ∃ early blocks later, early.length = (headers .css 0 place.front).length ∧
      ms = early ++ place.statement.meanings .css blocks ++ later ∧
      ((place.statement.stop = .opening →
          Statement.prelude .css
              ⟨left ++ .comment (blockComment inner) :: right, place.statement.stop⟩ =
            place.statement.prelude .css) →
        meanings? .css [] (statementsOf .css (spelling (place.before ++ left) ++
            blockComment inner ++ spelling (right ++ place.after))) =
          some (early ++ Statement.meanings .css blocks
            ⟨left ++ .comment (blockComment inner) :: right, place.statement.stop⟩ ++ later)) := by
  rw [place.ofTokens_eq] at h
  obtain ⟨early, blocks, later, hlength, hms, hexchange⟩ :=
    exists_meanings_exchange place.not_finish h 0
  refine ⟨early, blocks, later, hlength, hms, ?_⟩
  intro hprelude
  have htokens := place.tokens_eq
  rw [hbody] at htokens
  have hcut : place.before ++ left ++ (right ++ place.after) = ts := by simpa using htokens
  rw [← hcut] at hfits hterminated
  have hread := tokens_spelling
    (fitsAll_insert hinner hfits (List.forall_mem_append.1 hterminated).1)
  have hinside := place.inside
  rw [hbody, List.forall_mem_append] at hinside
  have hstatements := place.exchange (left ++ .comment (blockComment inner) :: right)
    (List.forall_mem_append.2 ⟨hinside.1, List.forall_mem_cons.2 ⟨rfl, hinside.2⟩⟩)
  have hsource : spelling (place.before ++ left) ++ blockComment inner ++
      spelling (right ++ place.after) =
        spelling (place.before ++ left ++ .comment (blockComment inner) ::
          (right ++ place.after)) := by
    simp
  have hinserted : place.before ++ left ++ .comment (blockComment inner) :: (right ++ place.after) =
      place.before ++ (left ++ .comment (blockComment inner) :: right) ++ place.after := by
    simp
  rw [hsource, statementsOf, hread, hinserted, hstatements]
  exact hexchange _ rfl hprelude

/-- **At a blank, outside comments, strings and headers, a comment changes nothing.** -/
theorem parse_insert_comment {front back : Text} {doc : Document}
    (h : Document.parse .css (front ++ back) = .ok doc) (hplace : AdmitsComment front back)
    {inner : Text} (hinner : ¬ ['*', '/'] <:+: inner) :
    ∃ doc', Document.parse .css (front ++ blockComment inner ++ back) = .ok doc' ∧
      doc'.declarations.map Declaration.meaning = doc.declarations.map Declaration.meaning := by
  obtain ⟨ts, htokens, hspelling, hfits, hterminated, hms⟩ := exists_tokens_of_parse h
  obtain ⟨hblank, houtside, hbehind, hheader⟩ := hplace
  rw [statementsOf, htokens] at hheader
  rw [htokens] at houtside hbehind
  rw [← Nat.zero_add front.length] at houtside
  obtain ⟨us, vs, hcut, rfl, rfl⟩ := exists_cut_of_outside hspelling houtside
  have hseparates : Separates us vs := by
    rw [hcut] at hbehind
    refine ⟨fun t => not_isComment_of_not_behind hbehind, ?_⟩
    obtain ⟨c, hc, hlast | hfirst⟩ := hblank
    · rw [hlast, isSolid, hc]
      rfl
    · rw [hfirst, isSolid, hc]
      exact Bool.and_false _
  obtain ⟨place, left, right, rfl, rfl, hbody⟩ := exists_place_append hcut hfits hterminated
  have hstatement : place.statement = ⟨left ++ right, place.statement.stop⟩ := by rw [← hbody]
  have hisBody := place.isBody hfits
  rw [hbody] at hisBody
  have hfree : ∀ header, Statement.header? .css (extent place.front)
      ⟨left ++ right, place.statement.stop⟩ = some header →
        ¬ (header.start < extent place.front + (spelling left).length ∧
          extent place.front + (spelling left).length ≤ header.stop) := by
    intro header hsome
    rw [← hstatement, ← Nat.zero_add (extent place.front)] at hsome
    have h := hheader header (List.mem_of_getElem? (place.getElem?_headers hsome))
    rwa [spelling_append, List.length_append, ← place.extent_eq] at h
  have hinsert := hseparates.of_append
  obtain ⟨early, blocks, later, -, hsaid, hexchange⟩ :=
    exists_meanings_insert hfits hterminated hms place hbody hinner
  refine exists_parse_iff_meanings.2 ?_
  rw [hexchange, hinsert.meanings_eq hinner hisBody hfree, ← hstatement, hsaid]
  intro _
  rw [hinsert.prelude_eq hinner hisBody, ← hstatement]

/-- The same list, whatever the comment holds: here inside parentheses, with a quote, a brace and a
colon in it. -/
theorem parse_insert_comment_in_parentheses :
    ∃ doc, Document.parse .css
        ("a \x7b --b: c( ".toList ++ blockComment "'\x7d:".toList ++
          "d;e) !important \x7d".toList) = .ok doc ∧
      doc.declarations.map Declaration.meaning =
        [⟨"--b".toList, "c( d;e)".toList, ["a".toList]⟩] := by
  have hdoc : Document.parse .css ("a \x7b --b: c( ".toList ++ "d;e) !important \x7d".toList) =
      .ok ⟨"a \x7b --b: c( d;e) !important \x7d".toList,
        [{ declaration :=
            ⟨"--b".toList, "c( d;e)".toList, 1, ["a".toList], ⟨9, 16⟩, []⟩ }]⟩ := by
    decide +kernel
  have hplace : AdmitsComment "a \x7b --b: c( ".toList "d;e) !important \x7d".toList :=
    ⟨⟨' ', rfl, Or.inl rfl⟩, by decide +kernel, by decide +kernel, by decide +kernel⟩
  exact parse_insert_comment hdoc hplace (by decide)

/-- **A comment behind the name of a property hides the declaration,** and only this one. -/
theorem parse_insert_behind_property {source : Text} {doc : Document}
    (h : Document.parse .css source = .ok doc) {i : Nat} {d : Declaration}
    (hd : doc.declarations[i]? = some d) {inner : Text} (hinner : ¬ ['*', '/'] <:+: inner) :
    ∃ front space back header, source = front ++ d.property ++ (space ++ ':' :: back) ∧
      Text.isBlankText space = true ∧
      (headers .css 0 (statementsOf .css source))[i]? = some header ∧
      header.start = front.length ∧ header.stop = (front ++ d.property ++ space).length ∧
      ∃ doc', Document.parse .css
          (front ++ d.property ++ blockComment inner ++ (space ++ ':' :: back)) = .ok doc' ∧
        doc'.declarations.map Declaration.meaning =
          (doc.declarations.map Declaration.meaning).eraseIdx i := by
  obtain ⟨ts, htokens, hspelling, hfits, hterminated, hms⟩ := exists_tokens_of_parse h
  rw [statementsOf, htokens]
  have hi : i < (doc.declarations.map Declaration.meaning).length := by
    rw [List.length_map]
    exact (List.getElem?_eq_some_iff.1 hd).1
  obtain ⟨place, hindex, header, hheader⟩ := exists_place_of_lt hfits hterminated hms hi 0
  obtain ⟨hstop, name, tail, hsplit, hname, hvalue, hspan⟩ := header?_eq_some_iff.1 hheader
  obtain ⟨space, hspace, hspaced, hparts⟩ := exists_tokens_of_name (place.isBody hfits) hsplit hname
  have hlead : ∀ t ∈ place.statement.body.takeWhile Token.isFiller, t.isFiller = true :=
    fun t ht => List.mem_takeWhile_imp ht
  have hbody : place.statement.body.takeWhile Token.isFiller ++ (Text.trim name).map .glyph ++
      ((space ++ [':']).map .glyph ++ tokens (.ofStatements .css) 0 tail) =
        place.statement.body := by
    have hwhole := List.takeWhile_append_dropWhile (p := Token.isFiller)
      (l := place.statement.body)
    rw [hparts] at hwhole
    simpa using hwhole
  have hfront : place.statement.lead = spelling (place.statement.body.takeWhile Token.isFiller) :=
    rfl
  generalize place.statement.body.takeWhile Token.isFiller = lead at hlead hbody hfront
  obtain ⟨early, blocks, later, hlength, hsaid, hexchange⟩ :=
    exists_meanings_insert hfits hterminated hms place hbody.symm hinner
  -- the declaration is what the statement says
  have hold : place.statement.meanings .css blocks =
      [⟨Text.trim name, valueOf .css tail, blocks⟩] := by
    rw [Statement.meanings, if_neg hstop,
      meaning?_eq_some_iff.2 ⟨name, tail, hsplit, hname, hvalue, rfl⟩]
    rfl
  rw [hold, List.append_assoc, List.singleton_append] at hsaid
  rw [hindex] at hlength
  have hproperty : Text.trim name = d.property := by
    have hmeaning : (doc.declarations.map Declaration.meaning)[i]? = some d.meaning := by
      rw [List.getElem?_map, hd]
      rfl
    rw [hsaid, List.getElem?_append_right (by omega), hlength, Nat.sub_self] at hmeaning
    exact congrArg Meaning.property (Option.some.inj hmeaning)
  rw [hproperty] at hname hspaced hbody hexchange
  refine ⟨spelling (place.before ++ lead), space, tail ++ spelling place.after, header, ?_, hspace,
    ?_, ?_, ?_, ?_⟩
  · have hsource : spelling (place.before ++ place.statement.body ++ place.after) = source := by
      rw [place.tokens_eq, hspelling]
    rw [← hbody] at hsource
    simpa using hsource.symm
  · rw [← hindex]
    exact place.getElem?_headers hheader
  · rw [← hspan, hfront, place.extent_eq, spelling_append, List.length_append, Nat.zero_add]
  · rw [← hspan, hfront, place.extent_eq, hspaced]
    simp only [spelling_append, List.length_append]
    omega
  · refine exists_parse_iff_meanings.2 ?_
    have hms' := hexchange fun hopening => absurd hopening hstop
    rw [meanings_insert_behind_name hlead hname, List.append_nil] at hms'
    rw [hsaid, List.eraseIdx_append_of_length_le (by omega), hlength, Nat.sub_self]
    simpa using hms'

/-- The second of two declarations is hidden, and the first stays. -/
theorem parse_insert_behind_second_property :
    ∃ front space back header,
      "a \x7b b: c; d : e \x7d".toList = front ++ "d".toList ++ (space ++ ':' :: back) ∧
      Text.isBlankText space = true ∧
      (headers .css 0 (statementsOf .css "a \x7b b: c; d : e \x7d".toList))[1]? = some header ∧
      header.start = front.length ∧ header.stop = (front ++ "d".toList ++ space).length ∧
      ∃ doc, Document.parse .css
          (front ++ "d".toList ++ blockComment " : ".toList ++ (space ++ ':' :: back)) = .ok doc ∧
        doc.declarations.map Declaration.meaning =
          [⟨"b".toList, "c".toList, ["a".toList]⟩] := by
  have hdoc : Document.parse .css "a \x7b b: c; d : e \x7d".toList =
      .ok ⟨"a \x7b b: c; d : e \x7d".toList,
        [{ declaration := ⟨"b".toList, "c".toList, 1, ["a".toList], ⟨7, 8⟩, []⟩ },
          { declaration := ⟨"d".toList, "e".toList, 1, ["a".toList], ⟨14, 15⟩, []⟩ }]⟩ := by
    decide +kernel
  exact parse_insert_behind_property (i := 1) hdoc rfl (by decide)

/-- A declaration is read with the header from 2 to 7, and with a comment at 7 nothing is read. -/
theorem declaration_hidden_by_comment :
    ∃ doc doc', Document.parse .css ("a\x7bcolor".toList ++ ": red\x7d".toList) = .ok doc ∧
      headers .css 0 (statementsOf .css ("a\x7bcolor".toList ++ ": red\x7d".toList)) = [⟨2, 7⟩] ∧
      doc.declarations.map Declaration.meaning =
        [⟨"color".toList, "red".toList, ["a".toList]⟩] ∧
      Document.parse .css ("a\x7bcolor".toList ++ blockComment "c".toList ++ ": red\x7d".toList) =
        .ok doc' ∧
      doc'.declarations.map Declaration.meaning = [] :=
  ⟨⟨"a\x7bcolor: red\x7d".toList,
      [{ declaration := ⟨"color".toList, "red".toList, 1, ["a".toList], ⟨9, 12⟩, []⟩ }]⟩,
    ⟨"a\x7bcolor/*c*/: red\x7d".toList, []⟩, by decide +kernel, by decide +kernel, rfl,
    by decide +kernel, rfl⟩

end StyleLift.Stylesheet
