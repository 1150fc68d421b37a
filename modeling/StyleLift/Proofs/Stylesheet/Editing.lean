import StyleLift.Lifting
import StyleLift.Proofs.Stylesheet.Frames
import StyleLift.Proofs.Stylesheet.Placement

/-!
# Printing new values and reading them back

A document prints its source with new values in the place of old ones.  In a plain stylesheet the
printed text says what the source says, with the new values: the new value takes the place of the
old one in its frame, the comments of the old value move behind it and become part of the frame,
and every statement ends where it ended before.

* `Frame.withComments`: the frame that has taken in the comments of a value.
* `splice_append`: printing leaves the text before the first new value as it is.
* `Edited`, `exists_edited`: one statement, with a new value or without.
* `says_splice_of_edited`: all statements, in every dialect in which one statement is as it should
  be; `says_splice` for plain stylesheets.
* `parse_render_setAll`: **what is printed is read back as edited.**
-/

namespace StyleLift.Stylesheet

/-! ## References as values -/

/-- A reference to a custom property whose name has no character that could end it. -/
def IsReference (value : Text) : Prop :=
  ∃ name, name ≠ [] ∧ (∀ c ∈ name, c ∉ [';', '{', '}', '(', ')', '"', '\'', '/']) ∧
    value = Lifter.reference name

theorem reference_eq (name : Text) :
    Lifter.reference name = ['v', 'a', 'r', '('] ++ name ++ [')'] := rfl

/-- Characters outside comments, strings and structure fit before all but an opening brace. -/
theorem fitsAll_map_glyph {s : Text} (h : ∀ c ∈ s, c ∉ [';', '{', '}', '"', '\'', '/'])
    (lexis : Lexis) (depth : Nat) {next : Option Char} (hnext : next ≠ some '{') :
    FitsAll lexis depth next (s.map .glyph) := by
  induction s generalizing depth with
  | nil => trivial
  | cons c s ih =>
    rw [List.forall_mem_cons] at h
    simp only [List.mem_cons, List.not_mem_nil, or_false, not_or] at h
    refine ⟨⟨h.1.2.2.2.1, h.1.2.2.2.2.1, ?_, fun hc => absurd hc h.1.2.2.2.2.2, fun _ _ => ?_⟩,
      ih (by simpa using h.2) _⟩
    · rintro (hc | hc | hc)
      · exact absurd hc h.1.2.1
      · exact absurd hc h.1.2.2.1
      · exact absurd hc h.1.1
    · rw [spelling_map_glyph, Ne, Option.or_eq_some_iff, not_or, not_and]
      exact ⟨fun hbrace => (h.2 '{' (List.mem_of_head? hbrace)).2.1 rfl, fun _ => hnext⟩

theorem finalDepth_map_glyph {s : Text} (h : ∀ c ∈ s, c ≠ '(' ∧ c ≠ ')') (depth : Nat) :
    finalDepth depth (s.map .glyph) = depth := by
  induction s with
  | nil => rfl
  | cons c s ih =>
    rw [List.forall_mem_cons] at h
    rw [List.map_cons, finalDepth_cons, Token.depthAfter_of_ne h.1.1 h.1.2, ih h.2]

namespace IsReference

variable {value : Text} (h : IsReference value)
include h

theorem fitsAll {lexis : Lexis} (depth : Nat) (next : Option Char) :
    FitsAll lexis depth next (value.map .glyph) := by
  obtain ⟨name, -, hchars, rfl⟩ := h
  -- the parenthesis at the end fits before anything
  rw [reference_eq, List.map_append, fitsAll_append]
  refine ⟨fitsAll_map_glyph ?_ lexis depth (by simp),
    ⟨by decide, by decide, by simp, by simp, by simp⟩, trivial⟩
  intro c hc
  rcases List.mem_append.1 hc with hc | hc
  · simp only [List.mem_cons, List.not_mem_nil, or_false] at hc
    rcases hc with rfl | rfl | rfl | rfl <;> decide
  · have hnot := hchars c hc
    simp only [List.mem_cons, List.not_mem_nil, or_false, not_or] at hnot ⊢
    exact ⟨hnot.1, hnot.2.1, hnot.2.2.1, hnot.2.2.2.2.2.1, hnot.2.2.2.2.2.2⟩

theorem finalDepth_eq (depth : Nat) : finalDepth depth (value.map .glyph) = depth := by
  obtain ⟨name, -, hchars, rfl⟩ := h
  have hname : ∀ c ∈ name, c ≠ '(' ∧ c ≠ ')' := by
    intro c hc
    have hnot := hchars c hc
    simp only [List.mem_cons, List.not_mem_nil, or_false, not_or] at hnot
    exact ⟨hnot.2.2.2.1, hnot.2.2.2.2.1⟩
  rw [reference_eq, List.map_append, List.map_append, finalDepth_append, finalDepth_append,
    finalDepth_map_glyph hname]
  rfl

/-- A reference ends in its parenthesis, so in no flag. -/
theorem isValue : IsValue (value.map .glyph) := by
  obtain ⟨name, -, hchars, rfl⟩ := h
  have hbare : spelling (bare none ((Lifter.reference name).map .glyph)) =
      ['v', 'a', 'r', '('] ++ name ++ [')'] := by
    rw [bare_map_glyph, spelling_map_glyph, reference_eq]
  refine ⟨?_, ⟨.glyph 'v', _, rfl, by decide⟩,
    ⟨(['v', 'a', 'r', '('] ++ name).map .glyph, .glyph ')', List.map_append, rfl⟩, ?_, ?_⟩
  · intro t ht
    obtain ⟨c, -, rfl⟩ := List.mem_map.1 ht
    trivial
  · rw [hbare]
    exact Text.trimEnd_append_of_ne_nil (by decide) (by decide) _
  · intro hflag
    rw [hbare] at hflag
    obtain ⟨c, hc, halpha⟩ := hflag.exists_getLast?
    rw [List.getLast?_concat, Option.some.injEq] at hc
    rw [← hc] at halpha
    exact absurd halpha (by decide)

end IsReference

/-! ## Comments that move into the frame -/

/-- The comments of a value as they follow its replacement. -/
def trailingComments (value : List Token) : List Token :=
  (value.filter Token.isComment).flatMap fun t => [.glyph ' ', t]

theorem filler_of_mem_trailingComments {value : List Token} (hvalue : ∀ t ∈ value, t.Simple)
    {t : Token} (ht : t ∈ trailingComments value) : t.isFiller = true ∧ t.Plain := by
  obtain ⟨u, hu, ht⟩ := List.mem_flatMap.1 ht
  obtain ⟨hmem, hcomment⟩ := List.mem_filter.1 hu
  simp only [List.mem_cons, List.not_mem_nil, or_false] at ht
  rcases ht with rfl | rfl
  · exact ⟨by decide, (by decide : isPlain ' ' = true)⟩
  · have hsimple := hvalue t hmem
    cases t with
    | comment s => exact ⟨rfl, hsimple⟩
    | quoted | glyph => exact absurd hcomment Bool.false_ne_true
    | interpolation | opening | closing | separator | unterminated => exact hsimple.elim

/-- A frame that has taken in the comments of a value. -/
def Frame.withComments (f : Frame) (value : List Token) (hvalue : ∀ t ∈ value, t.Simple) :
    Frame where
  lead := f.lead
  name := f.name
  space := f.space
  gap := f.gap
  flags := trailingComments value ++ f.flags
  lead_filler := f.lead_filler
  name_ok := f.name_ok
  space_blank := f.space_blank
  gap_filler := f.gap_filler
  flags_plain := by
    intro t ht
    rcases List.mem_append.1 ht with ht | ht
    · exact (filler_of_mem_trailingComments hvalue ht).2
    · exact f.flags_plain t ht
  flagTail := by
    intro before
    obtain ⟨blanks, before', hblanks, heq⟩ := exists_bare_append_of_filler
      (fun t ht => (filler_of_mem_trailingComments hvalue ht).1) before f.flags
    rw [heq]
    exact (f.flagTail before').blank_append hblanks

/-- A block comment follows the new value as it is. -/
theorem keptComment_of_isBlockComment {s : Text} (hs : IsBlockComment s) :
    Document.keptComment s = ' ' :: s := by
  obtain ⟨body, rfl, -⟩ := hs
  rfl

/-- What is printed for a value: the new one and what is kept of the comments of the old one. -/
theorem replacementText_eq_flatMap {source front back : Text} {value : List Token}
    (hsource : source = front ++ spelling value ++ back) {d : Declaration}
    (hcomments : d.comments = commentSpans front.length value) (new : Text) :
    Document.replacementText source d new =
      new ++ (value.filter Token.isComment).flatMap fun t => Document.keptComment t.text := by
  rw [Document.replacementText, hcomments, ← List.flatMap_map, map_slice_commentSpans hsource,
    List.flatMap_map]

/-- Block comments follow the new value as they are. -/
theorem replacementText_eq {source front back : Text} {value : List Token}
    (hvalue : ∀ t ∈ value, t.Simple) (hsource : source = front ++ spelling value ++ back)
    {d : Declaration} (hcomments : d.comments = commentSpans front.length value) (new : Text) :
    Document.replacementText source d new = new ++ spelling (trailingComments value) := by
  rw [replacementText_eq_flatMap hsource hcomments, trailingComments, spelling,
    List.flatMap_assoc]
  congr 1
  refine List.flatMap_congr ?_
  intro t ht
  obtain ⟨hmem, hcomment⟩ := List.mem_filter.1 ht
  have hsimple := hvalue t hmem
  cases t with
  | comment s => simp [keptComment_of_isBlockComment hsimple, Token.text]
  | quoted | glyph => exact absurd hcomment Bool.false_ne_true
  | interpolation | opening | closing | separator | unterminated => exact hsimple.elim

/-! ## Printing -/

/-- The declaration stands behind `offset`. -/
def Declaration.StandsAfter (offset : Nat) (d : Declaration) : Prop :=
  offset ≤ d.span.start ∧ d.span.start ≤ d.span.stop

/-- Printing leaves the text before the first new value as it is. -/
theorem splice_append {source lead rest : Text} {offset : Nat} {entries : List Entry}
    (h : ∀ e ∈ entries, e.declaration.StandsAfter (offset + lead.length)) :
    Document.splice source offset (lead ++ rest) entries =
      lead ++ Document.splice source (offset + lead.length) rest entries := by
  induction entries with
  | nil => rfl
  | cons e entries ih =>
    rw [List.forall_mem_cons] at h
    rw [Document.splice, Document.splice]
    cases e.replacement with
    | none => exact ih h.2
    | some value =>
      obtain ⟨hstart, hstop⟩ := h.1
      dsimp only
      rw [List.take_append, List.take_of_length_le (by omega), List.drop_append,
        List.drop_of_length_le (by omega), List.nil_append, Nat.sub_sub, Nat.sub_sub]
      simp only [List.append_assoc]

/-- Without new values nothing is printed but the source. -/
theorem Document.render_eq_source {doc : Document} (h : ∀ e ∈ doc.entries, e.replacement = none) :
    doc.render = doc.source := by
  have hsplice : ∀ {entries : List Entry}, (∀ e ∈ entries, e.replacement = none) →
      ∀ source offset rest, Document.splice source offset rest entries = rest := by
    intro entries hnone source offset rest
    induction entries with
    | nil => rfl
    | cons e entries ih =>
      rw [List.forall_mem_cons] at hnone
      rw [Document.splice, hnone.1]
      exact ih hnone.2
  exact hsplice h _ _ _

theorem Document.isModified_eq_false {doc : Document}
    (h : ∀ e ∈ doc.entries, e.replacement = none) : doc.isModified = false := by
  rw [Document.isModified, List.any_eq_false]
  intro e he
  rw [h e he]
  exact Bool.false_ne_true

/-- Printing puts a new value in the place of `value`. -/
theorem splice_cons_eq {source front value rest text new : Text} {offset : Nat} {e : Entry}
    {entries : List Entry} (hnew : e.replacement = some new)
    (hspan : e.declaration.span =
      ⟨offset + front.length, offset + front.length + value.length⟩)
    (htext : text = front ++ (value ++ rest)) :
    Document.splice source offset text (e :: entries) =
      front ++ Document.replacementText source e.declaration new ++
        Document.splice source (offset + front.length + value.length) rest entries := by
  rw [Document.splice, hnew]
  dsimp only
  rw [hspan, htext, Nat.add_sub_cancel_left, List.take_left,
    show offset + front.length + value.length - offset = front.length + value.length by omega,
    List.drop_append, List.drop_of_length_le (by omega), Nat.add_sub_cancel_left, List.drop_left,
    List.nil_append]

/-- Printing puts a new value into the frame of the old one, with the comments of the old one
behind it. -/
theorem splice_around {f : Frame} {value : List Token} (hvalue : ∀ t ∈ value, t.Simple)
    {source front after new : Text}
    (hsource : source = front ++ spelling (f.around value) ++ after) {e : Entry}
    {entries : List Entry} (hnew : e.replacement = some new)
    (hspan : e.declaration.span = ⟨front.length + (spelling f.front).length,
      front.length + (spelling f.front).length + (spelling value).length⟩)
    (hcomments : e.declaration.comments =
      commentSpans (front.length + (spelling f.front).length) value)
    (hentries : ∀ e ∈ entries,
      e.declaration.StandsAfter (front.length + (spelling (f.around value)).length)) :
    Document.splice source front.length (spelling (f.around value) ++ after) (e :: entries) =
      spelling ((f.withComments value hvalue).around (new.map .glyph)) ++
        Document.splice source (front.length + (spelling (f.around value)).length) after
          entries := by
  have hlength : front.length + (spelling (f.around value)).length =
      front.length + (spelling f.front).length + (spelling value).length +
        (spelling f.flags).length := by
    simp only [Frame.around, spelling_append, List.length_append]
    omega
  rw [hlength] at hentries ⊢
  have hfront : source = (front ++ spelling f.front) ++ spelling value ++
      (spelling f.flags ++ after) := by
    rw [hsource, Frame.around]
    simp
  have htext : spelling (f.around value) ++ after =
      spelling f.front ++ (spelling value ++ (spelling f.flags ++ after)) := by
    simp [Frame.around]
  rw [splice_cons_eq hnew hspan htext,
    replacementText_eq hvalue hfront (by rw [hcomments, List.length_append]),
    splice_append hentries]
  simp [Frame.around, Frame.front, Frame.withComments]

/-- What an entry says: its new value, or the old one. -/
def Entry.meaning (e : Entry) : Meaning :=
  { e.declaration.meaning with value := e.replacement.getD e.declaration.value }

/-- The statement `body` between `front` and `after`, printed with the new values of `edited`, is
one statement again and says what `edited` says. -/
def Edited (dialect : Dialect) (next : Option Char) (source front after : Text)
    (blocks : List Text) (body : List Token) (edited : List Entry) : Prop :=
  (∀ e ∈ edited, e.declaration.StandsAfter front.length) ∧
  ∃ body', IsBody dialect next body' ∧ (finalDepth 0 body = 0 → finalDepth 0 body' = 0) ∧
    (meaning? dialect blocks (coreOf body')).toList = edited.map Entry.meaning ∧
    ∀ entries : List Entry,
      (∀ e ∈ entries, e.declaration.StandsAfter (front.length + (spelling body).length)) →
      Document.splice source front.length (spelling body ++ after) (edited ++ entries) =
        spelling body' ++
          Document.splice source (front.length + (spelling body).length) after entries

/-- A statement without a new value is printed as it is, so only a new value needs an argument. -/
theorem edited_of_replaced {dialect : Dialect} {next : Option Char} {source front after : Text}
    {blocks : List Text} {body : List Token} {edited : List Entry} {line : Nat} {stop : Stop}
    (hbody : IsBody dialect next body)
    (hedited : edited.map Entry.declaration =
      (Statement.declaration? dialect front.length line blocks ⟨body, stop⟩).toList)
    (hreplaced : ∀ e ∈ edited, ∀ new, e.replacement = some new →
      Statement.declaration? dialect front.length line blocks ⟨body, stop⟩ =
        some e.declaration → Edited dialect next source front after blocks body [e]) :
    Edited dialect next source front after blocks body edited := by
  cases hd : Statement.declaration? dialect front.length line blocks ⟨body, stop⟩ with
  | none =>
    rw [hd] at hedited
    obtain rfl := List.map_eq_nil_iff.1 hedited
    refine ⟨by simp, body, hbody, id, ?_, fun entries hentries => splice_append hentries⟩
    rw [← map_meaning_toList front.length line stop, hd]
    rfl
  | some d =>
    rw [hd] at hedited
    obtain ⟨e, rfl, rfl⟩ := List.map_eq_singleton_iff.1 hedited
    cases hreplacement : e.replacement with
    | none =>
      have hbounds := bounds_of_declaration? hd
      refine ⟨?_, body, hbody, id, ?_, fun entries hentries => ?_⟩
      · rw [List.forall_mem_singleton]
        exact ⟨hbounds.1.le, hbounds.2.1.le⟩
      · rw [← map_meaning_toList front.length line stop, hd]
        simp [Entry.meaning, hreplacement, Declaration.meaning]
      · rw [List.singleton_append, Document.splice, hreplacement]
        exact splice_append hentries
    | some new => exact hreplaced e (by simp) new hreplacement hd

/-- **One statement, printed with its new value, is one statement again.** -/
theorem exists_edited {body : List Token} {next : Option Char} (hbody : IsBody .css next body)
    (hnext : next ≠ some '*') {source front after : Text}
    (hsource : source = front ++ spelling body ++ after) {line : Nat} {blocks : List Text}
    {stop : Stop} {edited : List Entry}
    (hedited : edited.map Entry.declaration =
      (Statement.declaration? .css front.length line blocks ⟨body, stop⟩).toList)
    (hreferences : ∀ e ∈ edited, ∀ v, e.replacement = some v → IsReference v) :
    Edited .css next source front after blocks body edited := by
  refine edited_of_replaced hbody hedited ?_
  intro e he new hreplacement hd
  have hnew : IsReference new := hreferences e he new hreplacement
  obtain ⟨f, value, rfl, hvalue, hmeaning, hspan, hcomments⟩ := exists_frame hbody hd
  have hmeaning' := (f.withComments value hvalue.simple).meaning?_around hnew.isValue
    (hnew.fitsAll 0 next) blocks
  refine ⟨?_, (f.withComments value hvalue.simple).around (new.map .glyph),
    Frame.isBody_around _ hnew.isValue.simple (hnew.fitsAll 0 next) hnext, ?_, ?_, ?_⟩
  · rw [List.forall_mem_singleton, Declaration.StandsAfter, hspan]
    exact ⟨Nat.le_add_right _ _, Nat.le_add_right _ _⟩
  · intro _
    rw [Frame.finalDepth_around, hnew.finalDepth_eq]
  · rw [hmeaning', List.map_singleton, Entry.meaning, hreplacement, hmeaning, bare_map_glyph,
      spelling_map_glyph]
    rfl
  · intro entries hentries
    exact splice_around hvalue.simple hsource hreplacement hspan hcomments hentries

/-! ## All statements -/

/-- A declaration that stands behind a point stands behind every point before it. -/
theorem Declaration.StandsAfter.mono {offset offset' : Nat} {d : Declaration}
    (h : d.StandsAfter offset) (hle : offset' ≤ offset) : d.StandsAfter offset' :=
  ⟨Nat.le_trans hle h.1, h.2⟩

/-- One statement and the structural character `c` behind it, printed. -/
theorem Edited.cons {dialect : Dialect} {c : Char} {source front after : Text} {blocks : List Text}
    {body : List Token} {edited later : List Entry}
    (h : Edited dialect (some c) source front (c :: after) blocks body edited)
    (hlater : ∀ e ∈ later,
      e.declaration.StandsAfter (front ++ spelling body ++ [c]).length) :
    (∀ e ∈ edited ++ later, e.declaration.StandsAfter front.length) ∧
    ∃ body', IsBody dialect (some c) body' ∧ (finalDepth 0 body = 0 → finalDepth 0 body' = 0) ∧
      (meaning? dialect blocks (coreOf body')).toList = edited.map Entry.meaning ∧
      Document.splice source front.length (spelling body ++ c :: after) (edited ++ later) =
        spelling body' ++
          c :: Document.splice source (front ++ spelling body ++ [c]).length after later := by
  have hlength : (front ++ spelling body ++ [c]).length =
      front.length + (spelling body).length + [c].length := by
    rw [List.length_append, List.length_append]
  obtain ⟨hstands, body', hbody', hdepth, hmeaning, hsplice⟩ := h
  rw [hlength] at hlater ⊢
  refine ⟨?_, body', hbody', hdepth, hmeaning, ?_⟩
  · intro e he
    rcases List.mem_append.1 he with he | he
    · exact hstands e he
    · exact (hlater e he).mono (by omega)
  · rw [hsplice later fun e he => (hlater e he).mono (by omega), ← List.singleton_append,
      splice_append hlater, List.singleton_append]

/-- **Printed statements say what the statements say, with the new values.**  All that is needed
is that one statement does, if its entries are good. -/
theorem says_splice_of_edited {dialect : Dialect} {source : Text} {good : Entry → Prop}
    (hone : ∀ {body : List Token} {next : Option Char} {front after : Text} {line : Nat}
      {blocks : List Text} {stop : Stop} {edited : List Entry}, IsBody dialect next body →
      next ≠ some '*' → source = front ++ spelling body ++ after →
      edited.map Entry.declaration =
        (Statement.declaration? dialect front.length line blocks ⟨body, stop⟩).toList →
      (∀ e ∈ edited, good e) → Edited dialect next source front after blocks body edited)
    {front : Text} {ts : List Token} {offset : Nat} {blocks : List Text} {ds : List Declaration}
    {entries : List Entry} (h : Reading dialect offset blocks ts ds)
    (hsource : source = front ++ spelling ts) (hoffset : offset = front.length)
    (hentries : entries.map Entry.declaration = ds) (hgood : ∀ e ∈ entries, good e) :
    (∀ e ∈ entries, e.declaration.StandsAfter front.length) ∧
      Says dialect blocks (Document.splice source front.length (spelling ts) entries)
        (entries.map Entry.meaning) := by
  induction h generalizing front entries with
  | finish hbody =>
    subst hoffset
    rename_i line body
    have hnil : source = front ++ spelling body ++ [] := by
      rw [List.append_nil]
      exact hsource
    obtain ⟨hstands, body', hbody', -, hmeaning, hsplice⟩ :=
      hone hbody (by simp) hnil hentries hgood
    have hprinted := hsplice [] (by simp)
    rw [List.append_nil, List.append_nil] at hprinted
    refine ⟨hstands, ?_⟩
    rw [hprinted, ← hmeaning, Document.splice, List.append_nil]
    exact Says.finish hbody'
  | separator hbody hdepth h ih =>
    subst hoffset
    rename_i line blocks body rest later
    have hwhole : source = front ++ spelling body ++ ';' :: spelling rest := by
      simpa using hsource
    obtain ⟨edited, later, rfl, hedited, rfl⟩ := List.map_eq_append_iff.1 hentries
    rw [List.forall_mem_append] at hgood
    obtain ⟨hstands, hsays⟩ := @ih (front ++ spelling body ++ [';']) later (by simpa using hwhole)
      (by simp [Nat.add_assoc]) rfl hgood.2
    obtain ⟨hall, body', hbody', hdepth', hmeaning, hprinted⟩ :=
      (hone hbody (by decide) hwhole hedited hgood.1).cons hstands
    refine ⟨hall, ?_⟩
    rw [spelling_append, spelling_cons, Token.text_separator, List.singleton_append, hprinted,
      List.map_append, ← hmeaning]
    exact Says.separator hbody' (hdepth' hdepth) hsays
  | closing hbody hdepth h ih =>
    subst hoffset
    rename_i line outer prelude body rest later
    have hwhole : source = front ++ spelling body ++ '}' :: spelling rest := by
      simpa using hsource
    obtain ⟨edited, later, rfl, hedited, rfl⟩ := List.map_eq_append_iff.1 hentries
    rw [List.forall_mem_append] at hgood
    obtain ⟨hstands, hsays⟩ := @ih (front ++ spelling body ++ ['}']) later (by simpa using hwhole)
      (by simp [Nat.add_assoc]) rfl hgood.2
    obtain ⟨hall, body', hbody', hdepth', hmeaning, hprinted⟩ :=
      (hone hbody (by decide) hwhole hedited hgood.1).cons hstands
    refine ⟨hall, ?_⟩
    rw [spelling_append, spelling_cons, Token.text_closing, List.singleton_append, hprinted,
      List.map_append, ← hmeaning]
    exact Says.closing hbody' (hdepth' hdepth) hsays
  | opening hbody hdepth h ih =>
    subst hoffset
    rename_i blocks body rest later
    have hwhole : source = front ++ spelling body ++ '{' :: spelling rest := by
      simpa using hsource
    obtain ⟨hstands, hsays⟩ := @ih (front ++ spelling body ++ ['{']) entries
      (by simpa using hwhole) (by simp [Nat.add_assoc]) hentries hgood
    rw [List.append_assoc, List.length_append] at hstands hsays
    refine ⟨fun e he => (hstands e he).mono (Nat.le_add_right _ _), ?_⟩
    rw [spelling_append, spelling_cons, Token.text_opening, ← List.append_assoc,
      splice_append hstands, List.append_assoc]
    exact Says.opening hbody hdepth hsays

/-- In a plain stylesheet, references are good. -/
theorem says_splice {source front : Text} {ts : List Token} {offset : Nat} {blocks : List Text}
    {ds : List Declaration} {entries : List Entry} (h : Reading .css offset blocks ts ds)
    (hsource : source = front ++ spelling ts) (hoffset : offset = front.length)
    (hentries : entries.map Entry.declaration = ds)
    (hreferences : ∀ e ∈ entries, ∀ v, e.replacement = some v → IsReference v) :
    (∀ e ∈ entries, e.declaration.StandsAfter front.length) ∧
      Says .css blocks (Document.splice source front.length (spelling ts) entries)
        (entries.map Entry.meaning) :=
  says_splice_of_edited (fun hbody hnext hwhole hedited hgood =>
    exists_edited hbody hnext hwhole hedited hgood) h hsource hoffset hentries hreferences

/-- **A printed document is read back as its entries say.** -/
theorem exists_parse_render {source : Text} {doc edited : Document}
    (hdoc : Document.parse .css source = .ok doc) (hsource : edited.source = doc.source)
    (hentries : edited.declarations = doc.declarations)
    (hreferences : ∀ e ∈ edited.entries, ∀ v, e.replacement = some v → IsReference v) :
    ∃ again, Document.parse .css edited.render = .ok again ∧
      again.declarations.map Declaration.meaning = edited.entries.map Entry.meaning := by
  obtain ⟨rfl, -, hreading⟩ := reading_of_parse hdoc
  have hwhole : edited.source = [] ++ spelling (tokens (.ofStatements .css) 0 doc.source) := by
    rw [spelling_tokens, hsource, List.nil_append]
  obtain ⟨-, hsays⟩ := says_splice hreading hwhole rfl hentries hreferences
  rw [spelling_tokens, ← hsource] at hsays
  exact hsays.exists_parse

/-! ## Sequences of new values -/

/-- The values of `edits`, given one after the other. -/
def Document.setAll (doc : Document) (edits : List (Nat × Text)) : Document :=
  edits.foldl (fun doc edit => doc.setValue edit.1 edit.2) doc

/-- The value that is given last to the declaration at `index`, if any is. -/
def lastEdit? (edits : List (Nat × Text)) (index : Nat) : Option Text :=
  (edits.reverse.find? fun edit => edit.1 == index).map Prod.snd

theorem Document.setAll_concat (doc : Document) (edits : List (Nat × Text))
    (edit : Nat × Text) :
    doc.setAll (edits ++ [edit]) = (doc.setAll edits).setValue edit.1 edit.2 :=
  List.foldl_concat ..

theorem lastEdit?_concat (edits : List (Nat × Text)) (edit : Nat × Text) (index : Nat) :
    lastEdit? (edits ++ [edit]) index =
      if edit.1 = index then some edit.2 else lastEdit? edits index := by
  rw [lastEdit?, List.reverse_append, List.reverse_singleton, List.singleton_append]
  by_cases h : edit.1 = index
  · rw [List.find?_cons_of_pos (by simpa using h), if_pos h]
    rfl
  · rw [List.find?_cons_of_neg (by simpa using h), if_neg h, lastEdit?]

/-- Each entry has the value it was given last. -/
theorem Document.setAll_eq (doc : Document) (edits : List (Nat × Text)) :
    doc.setAll edits = { doc with
      entries := doc.entries.mapIdx fun i e =>
        { e with replacement := (lastEdit? edits i).or e.replacement } } := by
  induction edits using List.reverseRecOn with
  | nil =>
    have hid : (fun (i : Nat) (e : Entry) =>
        { e with replacement := (lastEdit? [] i).or e.replacement }) = fun _ e => e := rfl
    rw [hid, List.mapIdx_eq_zipIdx_map]
    simp [setAll]
  | append_singleton edits edit ih =>
    rw [setAll_concat, ih, setValue]
    congr 1
    refine List.ext_getElem? fun i => ?_
    rw [List.getElem?_modify, List.getElem?_mapIdx, List.getElem?_mapIdx, lastEdit?_concat]
    by_cases h : edit.1 = i
    · cases doc.entries[i]? with
      | none => simp
      | some e => simp [h]
    · cases doc.entries[i]? with
      | none => simp
      | some e => simp [h]

/-- New values do not change what is declared. -/
theorem Document.declarations_setAll (doc : Document) (edits : List (Nat × Text)) :
    (doc.setAll edits).entries.map Entry.declaration = doc.declarations := by
  rw [setAll_eq, declarations]
  refine List.ext_getElem? fun i => ?_
  rw [List.getElem?_map, List.getElem?_map, List.getElem?_mapIdx, Option.map_map]
  rfl

/-- What the entries say after `edits`, if nothing was given before. -/
theorem Document.map_meaning_setAll {doc : Document} (edits : List (Nat × Text))
    (hnone : ∀ e ∈ doc.entries, e.replacement = none) :
    (doc.setAll edits).entries.map Entry.meaning = doc.declarations.mapIdx fun i d =>
      { d.meaning with value := (lastEdit? edits i).getD d.value } := by
  rw [setAll_eq, declarations]
  refine List.ext_getElem? fun i => ?_
  rw [List.getElem?_map, List.getElem?_mapIdx, List.getElem?_mapIdx, List.getElem?_map,
    Option.map_map, Option.map_map]
  cases he : doc.entries[i]? with
  | none => rfl
  | some e =>
    simp only [Option.map_some, Function.comp_apply, Entry.meaning,
      hnone e (List.mem_of_getElem? he), Option.or_none]

/-- A value given last was given. -/
theorem mem_of_lastEdit? {edits : List (Nat × Text)} {index : Nat} {value : Text}
    (h : lastEdit? edits index = some value) : (index, value) ∈ edits := by
  obtain ⟨edit, hedit, rfl⟩ := Option.map_eq_some_iff.1 h
  have hindex : edit.1 = index := by simpa using List.find?_some hedit
  rw [← hindex]
  exact List.mem_reverse.1 (List.mem_of_find?_eq_some hedit)

/-- References stay references. -/
theorem Document.isReference_setAll {doc : Document} {edits : List (Nat × Text)}
    (hnone : ∀ e ∈ doc.entries, e.replacement = none)
    (hedits : ∀ edit ∈ edits, IsReference edit.2) :
    ∀ e ∈ (doc.setAll edits).entries, ∀ v, e.replacement = some v → IsReference v := by
  intro e he v hv
  rw [setAll_eq] at he
  obtain ⟨i, hi, rfl⟩ := List.mem_mapIdx.1 he
  rw [hnone _ (List.getElem_mem hi), Option.or_none] at hv
  exact hedits _ (mem_of_lastEdit? hv)

/-- **What is printed is read back as edited.**  In a plain stylesheet, references given as values
one after the other are found where the last of them were put, and nothing else changes: not the
number of declarations, their order, their properties, the blocks around them, nor the other
values. -/
theorem parse_render_setAll {source : Text} {doc : Document}
    (hdoc : Document.parse .css source = .ok doc) {edits : List (Nat × Text)}
    (hedits : ∀ edit ∈ edits, IsReference edit.2) :
    ∃ doc', Document.parse .css (doc.setAll edits).render = .ok doc' ∧
      doc'.declarations.map Declaration.meaning = doc.declarations.mapIdx fun i d =>
        { d.meaning with value := (lastEdit? edits i).getD d.value } := by
  obtain ⟨rfl, hnone, hreading⟩ := reading_of_parse hdoc
  have hsource : doc.source = [] ++ spelling (tokens (.ofStatements .css) 0 doc.source) :=
    (spelling_tokens _ _ _).symm
  obtain ⟨-, hsays⟩ := says_splice hreading hsource rfl (doc.declarations_setAll edits)
    (Document.isReference_setAll hnone hedits)
  rw [spelling_tokens, Document.map_meaning_setAll edits hnone] at hsays
  have hrender : (doc.setAll edits).render =
      Document.splice doc.source 0 doc.source (doc.setAll edits).entries := by
    rw [Document.render, Document.setAll_eq]
  rw [hrender]
  exact hsays.exists_parse

/-- Two new values for a value with a comment and a flag, one for a declaration that is not there;
a string and an open parenthesis stay as they are. -/
theorem parse_render_setAll_twice :
    ∃ doc doc', Document.parse .css
        "a\x7bb:x/*;*/y!important;c:\"\x7d\"\x7dd:(;".toList = .ok doc ∧
      Document.parse .css (doc.setAll [(0, Lifter.reference "--p".toList),
        (0, Lifter.reference "--q".toList), (7, Lifter.reference "--r".toList)]).render =
          .ok doc' ∧
      doc'.declarations.map Declaration.meaning =
        [⟨"b".toList, "var(--q)".toList, ["a".toList]⟩,
          ⟨"c".toList, "\"\x7d\"".toList, ["a".toList]⟩, ⟨"d".toList, "(;".toList, []⟩] := by
  have hdoc : Document.parse .css "a\x7bb:x/*;*/y!important;c:\"\x7d\"\x7dd:(;".toList = .ok
      ⟨"a\x7bb:x/*;*/y!important;c:\"\x7d\"\x7dd:(;".toList,
        [{ declaration :=
            ⟨"b".toList, "x y".toList, 1, ["a".toList], ⟨4, 11⟩, [⟨5, 10⟩]⟩ },
          { declaration := ⟨"c".toList, "\"\x7d\"".toList, 1, ["a".toList], ⟨24, 27⟩, []⟩ },
          { declaration := ⟨"d".toList, "(;".toList, 1, [], ⟨30, 32⟩, []⟩ }]⟩ := by
    decide +kernel
  have hedits : ∀ edit ∈ [(0, Lifter.reference "--p".toList),
      (0, Lifter.reference "--q".toList), (7, Lifter.reference "--r".toList)],
      IsReference edit.2 := by
    intro edit hedit
    simp only [List.mem_cons, List.not_mem_nil, or_false] at hedit
    rcases hedit with rfl | rfl | rfl
    · exact ⟨"--p".toList, by decide, by simp, rfl⟩
    · exact ⟨"--q".toList, by decide, by simp, rfl⟩
    · exact ⟨"--r".toList, by decide, by simp, rfl⟩
  obtain ⟨doc', hparse, hmeanings⟩ := parse_render_setAll hdoc hedits
  exact ⟨_, doc', hdoc, hparse, hmeanings.trans (by decide +kernel)⟩

end StyleLift.Stylesheet
