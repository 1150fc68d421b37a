import Mathlib.Data.List.TakeWhile
import StyleLift.Proofs.Stylesheet.Comments
import StyleLift.Proofs.Stylesheet.Flags
import StyleLift.Stylesheet.Document

/-!
# What a stylesheet says

Two stylesheets that differ in layout can say the same.  This file names what a declaration says
apart from where it stands, and reads a source statement by statement: when the tokens of the
first statement fit, what the source says is what that statement says and then what the rest
says.  Every later result about a whole source is put together from these four steps, one for
each way a statement can end.

* `Declaration.meaning`, `meaning?`: what a declaration and the text of a statement say.
* `Reading`: how a source is read without a fault, one constructor for each way a statement can
  end.
* `Says`: a source is read without a fault and says a list of meanings.
* `Says.filler`: blanks and comments in front of a source say nothing.
* `Says.opening`, `Says.separator`, `Says.closing`, `Says.finish`: the four steps.
* `meaning?_eq_some`: when the text of a statement is a declaration.
-/

namespace StyleLift.Stylesheet

/-- What a declaration says, wherever it stands. -/
structure Meaning where
  property : Text
  value : Text
  /-- The preludes of the blocks around it, outermost first. -/
  selectors : List Text
  deriving DecidableEq, Repr

/-- A declaration without its positions. -/
def Declaration.meaning (d : Declaration) : Meaning := ⟨d.property, d.value, d.selectors⟩

/-- The value in the text behind a colon. -/
def valueOf (dialect : Dialect) (tail : Text) : Text :=
  withoutFlags (Text.trimStart (spelling (bare none (tokens (.ofComments dialect) 0 tail))))

/-- What the text of a statement says, if it is a declaration inside `blocks`. -/
def meaning? (dialect : Dialect) (blocks : List Text) (core : Text) : Option Meaning :=
  match Text.splitFirst? ':' core with
  | none => none
  | some (name, tail) =>
    if isPropertyName (Text.trim name) && !(valueOf dialect tail).isEmpty then
      some ⟨Text.trim name, valueOf dialect tail, blocks⟩
    else none

/-! ## Positions do not matter -/

/-- The characters of a value and what stands behind it, with their places. -/
def keptValue (dialect : Dialect) (offset : Nat) (tail : Text) : List Placed :=
  (Uncommented.ofText dialect offset tail).kept.dropWhile fun p => Text.isBlank p.char

theorem text_keptValue (dialect : Dialect) (offset : Nat) (tail : Text) :
    Placed.text (keptValue dialect offset tail) =
      Text.trimStart (spelling (bare none (tokens (.ofComments dialect) 0 tail))) := by
  rw [← text_ofTokens none offset, Uncommented.text, Text.trimStart, Placed.text, Placed.text,
    List.dropWhile_map]
  rfl

theorem span?_eq_none_iff {chars : List Placed} : Placed.span? chars = none ↔ chars = [] := by
  cases chars with
  | nil => exact ⟨fun _ => rfl, fun _ => rfl⟩
  | cons p chars =>
    simp [Placed.span?, List.getLast?_cons]

/-- What is without flags is an initial part of the text. -/
theorem length_withoutFlags_le (s : Text) : (withoutFlags s).length ≤ s.length := by
  obtain ⟨t, ht, -⟩ := exists_flagTail s
  have hlength := congrArg List.length ht
  rw [List.length_append] at hlength
  omega

/-- The declaration that a statement is, by its parts. -/
theorem declaration?_eq (dialect : Dialect) (offset line : Nat) (blocks : List Text)
    (s : Statement) : s.declaration? dialect offset line blocks =
      match Text.splitFirst? ':' s.core with
      | none => none
      | some (name, tail) =>
        if isPropertyName (Text.trim name) then
          let start := offset + s.lead.length + name.length + 1
          let value := withoutFlags (Placed.text (keptValue dialect start tail))
          (Placed.span? ((keptValue dialect start tail).take value.length)).map fun span =>
            { property := Text.trim name, value, selectors := blocks, span
              line := line + s.lead.count '\n'
              comments := (Uncommented.ofText dialect start tail).comments.filter
                (·.within span) }
        else none := by
  rw [Statement.declaration?]
  cases Text.splitFirst? ':' s.core with
  | none => rfl
  | some parts =>
    obtain ⟨name, tail⟩ := parts
    cases hname : isPropertyName (Text.trim name) with
    | false =>
      simp [hname]
    | true =>
      simp only [Option.bind_eq_bind, Option.bind_some, hname, Bool.not_true, Bool.false_eq_true,
        if_false, if_true]
      rw [← keptValue]
      cases Placed.span? _ with
      | none => rfl
      | some span => rfl

/-- What is known of a declaration that a statement is. -/
theorem exists_of_declaration? {dialect : Dialect} {offset line : Nat} {blocks : List Text}
    {s : Statement} {d : Declaration} (h : s.declaration? dialect offset line blocks = some d) :
    ∃ name tail start, Text.splitFirst? ':' s.core = some (name, tail) ∧
      isPropertyName (Text.trim name) = true ∧
      start = offset + s.lead.length + name.length + 1 ∧
      d.meaning = ⟨Text.trim name,
        withoutFlags (Placed.text (keptValue dialect start tail)), blocks⟩ ∧
      Placed.span? ((keptValue dialect start tail).take (withoutFlags
        (Placed.text (keptValue dialect start tail))).length) = some d.span ∧
      d.comments =
        (Uncommented.ofText dialect start tail).comments.filter (·.within d.span) := by
  rw [declaration?_eq] at h
  cases hsplit : Text.splitFirst? ':' s.core with
  | none =>
    rw [hsplit] at h
    simp at h
  | some parts =>
    obtain ⟨name, tail⟩ := parts
    rw [hsplit] at h
    dsimp only at h
    split at h
    · rename_i hname
      obtain ⟨span, hspan, rfl⟩ := Option.map_eq_some_iff.1 h
      exact ⟨name, tail, _, rfl, hname, rfl, rfl, hspan, rfl⟩
    · simp at h

/-- The line of a declaration is that of its property. -/
theorem line_of_declaration? {dialect : Dialect} {offset line : Nat} {blocks : List Text}
    {s : Statement} {d : Declaration} (h : s.declaration? dialect offset line blocks = some d) :
    d.line = line + s.lead.count '\n' := by
  rw [declaration?_eq] at h
  split at h
  · exact absurd h (by simp)
  · split at h
    · obtain ⟨span, -, rfl⟩ := Option.map_eq_some_iff.1 h
      rfl
    · exact absurd h (by simp)

/-- **What a declaration says depends on the text of its statement only.** -/
theorem map_meaning_declaration? (dialect : Dialect) (offset line : Nat) (blocks : List Text)
    (s : Statement) :
    (s.declaration? dialect offset line blocks).map Declaration.meaning =
      meaning? dialect blocks s.core := by
  rw [declaration?_eq, meaning?]
  cases Text.splitFirst? ':' s.core with
  | none => rfl
  | some parts =>
    obtain ⟨name, tail⟩ := parts
    cases hname : isPropertyName (Text.trim name) with
    | false => simp [hname]
    | true =>
      simp only [hname, if_true, text_keptValue, Bool.true_and]
      rw [← valueOf, Option.map_map]
      cases hvalue : valueOf dialect tail with
      | nil => simp [Placed.span?]
      | cons c value =>
        cases hspan : Placed.span? ((keptValue dialect (offset + s.lead.length + name.length + 1)
            tail).take (c :: value).length) with
        | some span => simp [Declaration.meaning]
        | none =>
          -- the value is not longer than the characters it is taken from
          have hkept := span?_eq_none_iff.1 hspan
          have hle := length_withoutFlags_le (Placed.text
            (keptValue dialect (offset + s.lead.length + name.length + 1) tail))
          rw [text_keptValue, ← valueOf, hvalue, ← text_keptValue dialect
            (offset + s.lead.length + name.length + 1), Placed.text, List.length_map] at hle
          rw [List.take_eq_nil_iff] at hkept
          rcases hkept with h | h
          · simp at h
          · rw [h] at hle
            simp at hle

/-! ## Taking a source apart -/

/-- The statements of a source. -/
def statementsOf (dialect : Dialect) (source : Text) : List Statement :=
  Statement.ofTokens (tokens (.ofStatements dialect) 0 source)

/-- Tokens that are one statement before the character `next`. -/
structure IsBody (dialect : Dialect) (next : Option Char) (body : List Token) : Prop where
  fits : FitsAll (.ofStatements dialect) 0 next body
  inside : ∀ t ∈ body, Stop.ofToken? t = none

theorem Token.Plain.simple {t : Token} (ht : t.Plain) : t.Simple := by
  cases t with
  | comment s => exact ht
  | glyph c => trivial
  | quoted | interpolation | opening | closing | separator | unterminated => exact ht.elim

theorem Token.Simple.inside {t : Token} (ht : t.Simple) : Stop.ofToken? t = none := by
  cases t with
  | comment | glyph | quoted => rfl
  | interpolation | opening | closing | separator | unterminated => exact ht.elim

theorem Token.isTerminated_of_inside {t : Token} (h : Stop.ofToken? t = none) :
    t.isTerminated = true := by
  cases t with
  | comment | quoted | interpolation | glyph => rfl
  | opening | closing | separator | unterminated => exact absurd h (by simp [Stop.ofToken?])

/-- The text of a statement without the blanks and comments before it. -/
def coreOf (body : List Token) : Text := spelling (body.dropWhile Token.isFiller)

theorem ofTokens_append_cons {body : List Token} (hbody : ∀ t ∈ body, Stop.ofToken? t = none)
    {t : Token} {stop : Stop} (ht : Stop.ofToken? t = some stop) (ts : List Token) :
    Statement.ofTokens (body ++ t :: ts) = ⟨body, stop⟩ :: Statement.ofTokens ts := by
  induction body with
  | nil => rw [List.nil_append, Statement.ofTokens, ht]
  | cons u body ih =>
    rw [List.forall_mem_cons] at hbody
    rw [List.cons_append, Statement.ofTokens, hbody.1, ih hbody.2, Statement.cons]

theorem ofTokens_of_inside {body : List Token} (hbody : ∀ t ∈ body, Stop.ofToken? t = none) :
    Statement.ofTokens body = [⟨body, .finish⟩] := by
  induction body with
  | nil => rfl
  | cons u body ih =>
    rw [List.forall_mem_cons] at hbody
    rw [Statement.ofTokens, hbody.1, ih hbody.2, Statement.cons]

/-- There is always a last statement. -/
theorem ofTokens_ne_nil (ts : List Token) : Statement.ofTokens ts ≠ [] := by
  induction ts with
  | nil => exact List.cons_ne_nil _ _
  | cons t ts ih =>
    rw [Statement.ofTokens]
    split
    · exact List.cons_ne_nil _ _
    · cases hts : Statement.ofTokens ts with
      | nil => exact absurd hts ih
      | cons s rest => exact List.cons_ne_nil _ _

/-- A statement and the structural character `c` behind it are read first. -/
theorem statementsOf_append_cons {dialect : Dialect} {c : Char} {body : List Token}
    (hbody : IsBody dialect (some c) body) (hdepth : finalDepth 0 body = 0) {token : Token}
    {stop : Stop} {rest : Text} (hread : nextToken (.ofStatements dialect) 0 c rest = (token, rest))
    (htoken : token.depthAfter 0 = 0) (hstop : Stop.ofToken? token = some stop) :
    statementsOf dialect (spelling body ++ c :: rest) =
      ⟨body, stop⟩ :: statementsOf dialect rest := by
  have hfits : FitsAll (.ofStatements dialect) 0 (c :: rest).head? body := hbody.fits
  rw [statementsOf, tokens_spelling_append hfits, hdepth, tokens_cons, hread, htoken,
    ofTokens_append_cons hbody.inside hstop, statementsOf]

theorem statementsOf_spelling {dialect : Dialect} {body : List Token}
    (hbody : IsBody dialect none body) :
    statementsOf dialect (spelling body) = [⟨body, .finish⟩] := by
  rw [statementsOf, tokens_spelling hbody.fits, ofTokens_of_inside hbody.inside]

/-- Tokens are taken apart statement by statement. -/
theorem statement_induction {P : List Token → Prop}
    (finish : ∀ body : List Token, (∀ t ∈ body, Stop.ofToken? t = none) → P body)
    (step : ∀ (body : List Token) (t : Token) (stop : Stop) (rest : List Token),
      (∀ u ∈ body, Stop.ofToken? u = none) → Stop.ofToken? t = some stop → P rest →
        P (body ++ t :: rest))
    (ts : List Token) : P ts := by
  induction hlength : ts.length using Nat.strong_induction_on generalizing ts with
  | _ n ih =>
    have hbody : ∀ u ∈ ts.takeWhile (fun t => (Stop.ofToken? t).isNone),
        Stop.ofToken? u = none := by
      intro u hu
      have h := List.mem_takeWhile_imp hu
      simpa using h
    have hsplit := List.takeWhile_append_dropWhile (p := fun t => (Stop.ofToken? t).isNone)
      (l := ts)
    cases hrest : ts.dropWhile (fun t => (Stop.ofToken? t).isNone) with
    | nil =>
      rw [hrest, List.append_nil] at hsplit
      rw [← hsplit]
      exact finish _ hbody
    | cons t rest =>
      have hhead := List.head?_dropWhile_not (fun t => (Stop.ofToken? t).isNone) ts
      rw [hrest] at hhead
      obtain ⟨stop, hstop⟩ : ∃ stop, Stop.ofToken? t = some stop := by
        cases h : Stop.ofToken? t with
        | none => simp [h] at hhead
        | some stop => exact ⟨stop, rfl⟩
      rw [← hsplit, hrest]
      refine step _ t stop rest hbody hstop (ih rest.length ?_ rest rfl)
      rw [← hlength, ← hsplit, hrest, List.length_append, List.length_cons]
      omega

/-- A statement is what stands before it and the rest of it. -/
theorem lead_append_core (body : List Token) (stop : Stop) :
    Statement.lead ⟨body, stop⟩ ++ Statement.core ⟨body, stop⟩ = spelling body := by
  have hsplit := congrArg spelling
    (List.takeWhile_append_dropWhile (p := Token.isFiller) (l := body))
  rw [spelling_append] at hsplit
  exact hsplit

theorem length_statement (body : List Token) (stop : Stop) :
    Statement.length ⟨body, stop⟩ = (spelling body).length := by
  rw [← lead_append_core body stop, List.length_append, Statement.length]

theorem newlines_statement (body : List Token) (stop : Stop) :
    Statement.newlines ⟨body, stop⟩ = (spelling body).count '\n' := by
  rw [← lead_append_core body stop, List.count_append, Statement.newlines]

theorem exists_of_map_eq_ok {ε α β : Type} {f : α → β} {x : Except ε α} {b : β}
    (h : f <$> x = .ok b) : ∃ a, x = .ok a ∧ f a = b := by
  cases x with
  | error e => exact absurd h (by intro h; cases h)
  | ok a => exact ⟨a, rfl, Except.ok.inj h⟩

/-- How tokens that start at `offset` inside `blocks` are read without a fault: statement by
statement, and every statement but the last ends outside parentheses. -/
inductive Reading (dialect : Dialect) :
    Nat → List Text → List Token → List Declaration → Prop
  | finish {offset line : Nat} {body : List Token} (hbody : IsBody dialect none body) :
    Reading dialect offset [] body
      (Statement.declaration? dialect offset line [] ⟨body, .finish⟩).toList
  | separator {offset line : Nat} {blocks : List Text} {body rest : List Token}
    {later : List Declaration} (hbody : IsBody dialect (some ';') body)
    (hdepth : finalDepth 0 body = 0)
    (h : Reading dialect (offset + (spelling body).length + 1) blocks rest later) :
    Reading dialect offset blocks (body ++ .separator :: rest)
      ((Statement.declaration? dialect offset line blocks ⟨body, .separator⟩).toList ++ later)
  | closing {offset line : Nat} {outer : List Text} {prelude : Text} {body rest : List Token}
    {later : List Declaration} (hbody : IsBody dialect (some '}') body)
    (hdepth : finalDepth 0 body = 0)
    (h : Reading dialect (offset + (spelling body).length + 1) outer rest later) :
    Reading dialect offset (outer ++ [prelude]) (body ++ .closing :: rest)
      ((Statement.declaration? dialect offset line (outer ++ [prelude])
        ⟨body, .closing⟩).toList ++ later)
  | opening {offset : Nat} {blocks : List Text} {body rest : List Token}
    {later : List Declaration} (hbody : IsBody dialect (some '{') body)
    (hdepth : finalDepth 0 body = 0)
    (h : Reading dialect (offset + (spelling body).length + 1)
      (blocks ++ [Text.trim (Uncommented.ofText dialect 0 (coreOf body)).text]) rest later) :
    Reading dialect offset blocks (body ++ .opening :: rest) later

/-- **What is read without a fault is read in this way.** -/
theorem reading_of_eq_ok {dialect : Dialect} {ts : List Token} {offset line : Nat}
    {blocks : List Text} {ds : List Declaration}
    (hfits : FitsAll (.ofStatements dialect) 0 none ts)
    (h : declarations dialect offset line blocks (Statement.ofTokens ts) = .ok ds) :
    Reading dialect offset blocks ts ds := by
  induction ts using statement_induction generalizing offset line blocks ds with
  | finish body hinside =>
    rw [ofTokens_of_inside hinside, declarations] at h
    dsimp only at h
    split at h
    · exact absurd h (by intro h; cases h)
    · rename_i hblocks
      obtain rfl := List.getLast?_eq_none_iff.1 hblocks
      obtain rfl := Except.ok.inj h
      exact .finish ⟨hfits, hinside⟩
  | step body t stop rest hinside hstop ih =>
    rw [ofTokens_append_cons hinside hstop, declarations, length_statement] at h
    obtain ⟨hbody, htoken, hrest⟩ := fitsAll_append.1 hfits
    cases t with
    | separator =>
      obtain rfl := Option.some.inj hstop
      have hdepth : finalDepth 0 body = 0 := htoken
      rw [hdepth] at hrest
      obtain ⟨later, hlater, rfl⟩ := exists_of_map_eq_ok h
      exact .separator ⟨hbody, hinside⟩ hdepth (ih hrest hlater)
    | closing =>
      obtain rfl := Option.some.inj hstop
      have hdepth : finalDepth 0 body = 0 := htoken
      rw [hdepth] at hrest
      dsimp only at h
      split at h
      · exact absurd h (by intro h; cases h)
      · rename_i hblocks
        obtain ⟨later, hlater, rfl⟩ := exists_of_map_eq_ok h
        rcases List.eq_nil_or_concat' blocks with rfl | ⟨outer, prelude, rfl⟩
        · exact absurd rfl hblocks
        · rw [List.dropLast_concat] at hlater
          exact .closing ⟨hbody, hinside⟩ hdepth (ih hrest hlater)
    | opening =>
      obtain rfl := Option.some.inj hstop
      have hdepth : finalDepth 0 body = 0 := htoken
      rw [hdepth] at hrest
      exact .opening ⟨hbody, hinside⟩ hdepth (ih hrest h)
    | unterminated what s =>
      obtain rfl := Option.some.inj hstop
      exact absurd h (by intro h; cases h)
    | comment | quoted | interpolation | glyph => exact absurd hstop (by simp [Stop.ofToken?])

/-- A document is its source, with its declarations as they are read and no new values. -/
theorem reading_of_parse {dialect : Dialect} {source : Text} {doc : Document}
    (h : Document.parse dialect source = .ok doc) :
    doc.source = source ∧ (∀ e ∈ doc.entries, e.replacement = none) ∧
      Reading dialect 0 [] (tokens (.ofStatements dialect) 0 source) doc.declarations := by
  rw [Document.parse] at h
  obtain ⟨ds, hds, rfl⟩ := exists_of_map_eq_ok h
  have hdeclarations : List.map Entry.declaration (ds.map fun d => { declaration := d }) = ds := by
    simp [Function.comp_def]
  refine ⟨rfl, by simp, ?_⟩
  rw [Document.declarations, hdeclarations]
  exact reading_of_eq_ok (fitsAll_tokens _ _ _) hds

/-- What is declared is declared of a property. -/
theorem isPropertyName_of_reading {dialect : Dialect} {offset : Nat} {blocks : List Text}
    {ts : List Token} {ds : List Declaration} (h : Reading dialect offset blocks ts ds)
    {d : Declaration} (hd : d ∈ ds) : isPropertyName d.property = true := by
  have hfound : ∀ {offset line : Nat} {blocks : List Text} {s : Statement},
      d ∈ (s.declaration? dialect offset line blocks).toList → isPropertyName d.property = true := by
    intro offset line blocks s hfound
    obtain ⟨name, _, _, _, hname, _, hmeaning, _⟩ :=
      exists_of_declaration? (Option.mem_toList.1 hfound)
    rw [show d.property = Text.trim name from congrArg Meaning.property hmeaning]
    exact hname
  induction h with
  | finish hbody => exact hfound hd
  | separator hbody hdepth h ih => exact (List.mem_append.1 hd).elim hfound ih
  | closing hbody hdepth h ih => exact (List.mem_append.1 hd).elim hfound ih
  | opening hbody hdepth h ih => exact ih hd

/-! ## What a source says -/

/-- The source is read without a fault inside `blocks` and says `meanings`, in this order. -/
def Says (dialect : Dialect) (blocks : List Text) (source : Text) (meanings : List Meaning) :
    Prop :=
  ∀ offset line, ∃ ds, declarations dialect offset line blocks (statementsOf dialect source) =
    .ok ds ∧ ds.map Declaration.meaning = meanings

/-- Outside all blocks, what a source says is what its document declares. -/
theorem Says.exists_parse {dialect : Dialect} {source : Text} {meanings : List Meaning}
    (h : Says dialect [] source meanings) :
    ∃ doc, Document.parse dialect source = .ok doc ∧
      doc.declarations.map Declaration.meaning = meanings := by
  obtain ⟨ds, hds, hmeanings⟩ := h 0 1
  rw [statementsOf] at hds
  refine ⟨⟨source, ds.map fun d => { declaration := d }⟩, by rw [Document.parse, hds]; rfl, ?_⟩
  rw [← hmeanings]
  simp [Document.declarations, Function.comp_def]

section

variable {dialect : Dialect} {blocks : List Text} {body : List Token} {rest : Text}
  {meanings : List Meaning}

theorem map_meaning_toList (offset line : Nat) (stop : Stop) :
    (Statement.declaration? dialect offset line blocks ⟨body, stop⟩).toList.map
        Declaration.meaning = (meaning? dialect blocks (coreOf body)).toList := by
  rw [← Option.toList_map, map_meaning_declaration?]
  rfl

/-- A blank or a comment in front of a statement only moves it. -/
theorem declarations_cons_filler {t : Token} (ht : t.isFiller = true) (offset line : Nat)
    (s : Statement) (rest : List Statement) :
    declarations dialect offset line blocks (⟨t :: s.body, s.stop⟩ :: rest) =
      declarations dialect (offset + t.text.length) (line + t.text.count '\n') blocks
        (s :: rest) := by
  have hlead : Statement.lead ⟨t :: s.body, s.stop⟩ = t.text ++ s.lead := by
    rw [Statement.lead, List.takeWhile_cons_of_pos ht, List.flatMap_cons]
    rfl
  have hcore : Statement.core ⟨t :: s.body, s.stop⟩ = s.core := by
    rw [Statement.core, List.dropWhile_cons_of_pos ht]
    rfl
  have hfound : Statement.declaration? dialect offset line blocks ⟨t :: s.body, s.stop⟩ =
      s.declaration? dialect (offset + t.text.length) (line + t.text.count '\n') blocks := by
    rw [declaration?_eq, declaration?_eq, hlead, hcore, List.length_append, List.count_append]
    simp only [Nat.add_assoc]
  rw [declarations, declarations, hfound, Statement.length, Statement.newlines, Statement.prelude,
    Statement.length, Statement.newlines, hlead, hcore, List.length_append, List.count_append]
  simp only [Nat.add_assoc]
  rfl

/-- Blanks and comments say nothing. -/
theorem Says.filler {lead : List Token} (hlead : ∀ t ∈ lead, t.isFiller = true ∧ t.Plain)
    (h : Says dialect blocks rest meanings) :
    Says dialect blocks (spelling lead ++ rest) meanings := by
  have hread : statementsOf dialect (spelling lead ++ rest) =
      Statement.ofTokens (lead ++ tokens (.ofStatements dialect) 0 rest) := by
    have hplain : ∀ t ∈ lead, t.Plain := fun t ht => (hlead t ht).2
    rw [statementsOf, tokens_spelling_append (fitsAll_of_plain hplain _ _ _),
      finalDepth_of_plain hplain]
  intro offset line
  rw [hread]
  clear hread
  induction lead generalizing offset line with
  | nil => exact h offset line
  | cons t lead ih =>
    rw [List.forall_mem_cons] at hlead
    obtain ⟨ds, hds, hmeanings⟩ := ih hlead.2 (offset + t.text.length) (line + t.text.count '\n')
    refine ⟨ds, ?_, hmeanings⟩
    rw [List.cons_append, Statement.ofTokens, hlead.1.2.simple.inside]
    cases hstatements : Statement.ofTokens (lead ++ tokens (.ofStatements dialect) 0 rest) with
    | nil => exact absurd hstatements (ofTokens_ne_nil _)
    | cons s later =>
      rw [Statement.cons, declarations_cons_filler hlead.1.1, ← hstatements, hds]

/-- A block is opened: the statement is its prelude. -/
theorem Says.opening (hbody : IsBody dialect (some '{') body) (hdepth : finalDepth 0 body = 0)
    (h : Says dialect (blocks ++ [Text.trim (Uncommented.ofText dialect 0 (coreOf body)).text])
      rest meanings) :
    Says dialect blocks (spelling body ++ '{' :: rest) meanings := by
  intro offset line
  rw [statementsOf_append_cons hbody hdepth nextToken_structural.1 rfl rfl]
  exact h _ _

/-- A statement ends in a semicolon. -/
theorem Says.separator (hbody : IsBody dialect (some ';') body) (hdepth : finalDepth 0 body = 0)
    (h : Says dialect blocks rest meanings) :
    Says dialect blocks (spelling body ++ ';' :: rest)
      ((meaning? dialect blocks (coreOf body)).toList ++ meanings) := by
  intro offset line
  rw [statementsOf_append_cons hbody hdepth nextToken_structural.2.2 rfl rfl, declarations]
  obtain ⟨ds, hds, hmeanings⟩ := h (offset + Statement.length ⟨body, .separator⟩ + 1)
    (line + Statement.newlines ⟨body, .separator⟩)
  dsimp only
  rw [hds]
  refine ⟨_, rfl, ?_⟩
  rw [List.map_append, hmeanings, map_meaning_toList]

/-- A block is closed, and with it its last statement. -/
theorem Says.closing {prelude : Text} (hbody : IsBody dialect (some '}') body)
    (hdepth : finalDepth 0 body = 0) (h : Says dialect blocks rest meanings) :
    Says dialect (blocks ++ [prelude]) (spelling body ++ '}' :: rest)
      ((meaning? dialect (blocks ++ [prelude]) (coreOf body)).toList ++ meanings) := by
  intro offset line
  rw [statementsOf_append_cons hbody hdepth nextToken_structural.2.1 rfl rfl, declarations]
  obtain ⟨ds, hds, hmeanings⟩ := h (offset + Statement.length ⟨body, .closing⟩ + 1)
    (line + Statement.newlines ⟨body, .closing⟩)
  have hblocks : (blocks ++ [prelude]).isEmpty = false := by simp
  simp only [hblocks, Bool.false_eq_true, if_false, List.dropLast_concat]
  rw [hds]
  refine ⟨_, rfl, ?_⟩
  rw [List.map_append, hmeanings, map_meaning_toList]

/-- The source ends. -/
theorem Says.finish (hbody : IsBody dialect none body) :
    Says dialect [] (spelling body) (meaning? dialect [] (coreOf body)).toList := by
  intro offset line
  rw [statementsOf_spelling hbody, declarations]
  exact ⟨_, rfl, map_meaning_toList offset line .finish⟩

end

/-! ## Names and statements that are no declarations -/

theorem splitFirst?_append_cons {sep : Char} {name : Text} (hname : sep ∉ name) (tail : Text) :
    Text.splitFirst? sep (name ++ sep :: tail) = some (name, tail) := by
  induction name with
  | nil => simp [Text.splitFirst?]
  | cons c name ih =>
    rw [List.mem_cons, not_or] at hname
    rw [List.cons_append, Text.splitFirst?, if_neg (Ne.symm hname.1), ih hname.2]
    rfl

theorem eq_append_of_splitFirst? {sep : Char} {s name tail : Text}
    (h : Text.splitFirst? sep s = some (name, tail)) :
    s = name ++ sep :: tail ∧ sep ∉ name := by
  induction s generalizing name with
  | nil => simp [Text.splitFirst?] at h
  | cons c s ih =>
    rw [Text.splitFirst?] at h
    split at h
    · rename_i hc
      simp only [Option.some.injEq, Prod.mk.injEq] at h
      obtain ⟨rfl, rfl⟩ := h
      exact ⟨by rw [hc]; rfl, by simp⟩
    · rename_i hc
      obtain ⟨name', rfl, hrest⟩ := exists_of_map_cons_eq_some h
      obtain ⟨rfl, hname⟩ := ih hrest
      refine ⟨rfl, ?_⟩
      rw [List.mem_cons, not_or]
      exact ⟨Ne.symm hc, hname⟩

/-- The characters of a property name: only the first can be other than a word character or a
hyphen. -/
theorem isWordOrHyphen_of_mem_propertyName {name : Text} (h : isPropertyName name = true)
    {c : Char} (hc : c ∈ name) :
    Text.isWordOrHyphen c = true ∨ c = '$' ∧ name.head? = some '$' := by
  have hidentifier : ∀ s, isIdentifier s = true → ∀ d ∈ s, Text.isWordOrHyphen d = true := by
    intro s hs d hd
    cases s with
    | nil => simp at hd
    | cons e s =>
      rw [isIdentifier, Bool.and_eq_true, List.all_eq_true] at hs
      rcases List.mem_cons.1 hd with rfl | hd
      · exact Text.isWordOrHyphen_of_isNameStart hs.1
      · exact hs.2 d hd
  unfold isPropertyName at h
  split at h
  · rw [Bool.and_eq_true, List.all_eq_true] at h
    rcases List.mem_cons.1 hc with rfl | hc
    · exact Or.inr ⟨rfl, rfl⟩
    · exact Or.inl (h.2 c hc)
  · simp only [List.mem_cons] at hc
    rcases hc with rfl | rfl | hc
    · exact Or.inl (by decide)
    · exact Or.inl (by decide)
    · exact Or.inl (hidentifier _ h c hc)
  · rcases List.mem_cons.1 hc with rfl | hc
    · exact Or.inl (by decide)
    · exact Or.inl (hidentifier _ h c hc)
  · exact Or.inl (hidentifier _ h c hc)

theorem isPlain_of_isBlank {c : Char} (h : Text.isBlank c = true) : isPlain c = true :=
  isPlain_of_class (by decide) h

theorem isPlain_of_isBlankText {b : Text} (hb : Text.isBlankText b = true) :
    ∀ c ∈ b, isPlain c = true :=
  fun _ hc => isPlain_of_isBlank (Text.isBlank_of_mem hb hc)

theorem FlagTail.isPlain {s : Text} (hs : FlagTail s) : ∀ c ∈ s, isPlain c = true := by
  intro c hc
  rcases hs.mem hc with h | rfl | h
  · exact isPlain_of_isBlank h
  · decide
  · exact isPlain_of_class (by decide) h

theorem isPlain_of_isWordOrHyphen {c : Char} (h : Text.isWordOrHyphen c = true) :
    isPlain c = true :=
  isPlain_of_class (by decide) h

section

variable {name : Text} (hname : isPropertyName name = true)
include hname

theorem isPlain_of_mem_propertyName {c : Char} (hc : c ∈ name) : isPlain c = true := by
  rcases isWordOrHyphen_of_mem_propertyName hname hc with h | ⟨rfl, -⟩
  · exact isPlain_of_isWordOrHyphen h
  · decide

theorem isBlank_of_mem_propertyName {c : Char} (hc : c ∈ name) : Text.isBlank c = false := by
  rcases isWordOrHyphen_of_mem_propertyName hname hc with h | ⟨rfl, -⟩
  · exact Text.isBlank_eq_false_of_isWordOrHyphen h
  · decide

theorem colon_notMem_propertyName : ':' ∉ name := by
  intro hc
  rcases isWordOrHyphen_of_mem_propertyName hname hc with h | ⟨h, -⟩
  · exact absurd h (by decide)
  · exact absurd h (by decide)

theorem propertyName_ne_nil : name ≠ [] := by
  rintro rfl
  exact absurd hname (by decide)

theorem trim_propertyName : Text.trim name = name := by
  rw [Text.trim_eq_self_iff, Text.trimStart_eq_self_iff, Text.trimEnd_eq_self_iff]
  exact ⟨fun c hc => isBlank_of_mem_propertyName hname (List.mem_of_head? hc),
    fun c hc => isBlank_of_mem_propertyName hname (List.mem_of_getLast? hc)⟩

end

/-- **A declaration is what it looks like:** a name, a colon, a value, flags. -/
theorem meaning?_eq_some {dialect : Dialect} {blocks : List Text} {name space tail value flags : Text}
    (hname : isPropertyName name = true) (hspace : Text.isBlankText space = true)
    (htail : Text.trimStart (spelling (bare none (tokens (.ofComments dialect) 0 tail))) =
      value ++ flags)
    (hvalue : value ≠ []) (htrim : Text.trimEnd value = value) (hend : ¬ EndsInFlag value)
    (hflags : FlagTail flags) :
    meaning? dialect blocks (name ++ space ++ ':' :: tail) = some ⟨name, value, blocks⟩ := by
  have hcolon : ':' ∉ name ++ space := by
    rw [List.mem_append, not_or]
    exact ⟨colon_notMem_propertyName hname,
      fun h => absurd (Text.isBlank_of_mem hspace h) (by decide)⟩
  have htrimmed : Text.trim (name ++ space) = name := by
    have h : Text.trim ([] ++ name ++ space) = name :=
      Text.trim_append_append rfl hspace (trim_propertyName hname)
    rwa [List.nil_append] at h
  have hread : valueOf dialect tail = value := by
    rw [valueOf, htail, withoutFlags_append htrim hend hflags]
  rw [meaning?, splitFirst?_append_cons hcolon]
  simp [htrimmed, hread, hname, hvalue]

/-- What has a character before its first colon that is in no name is no declaration. -/
theorem meaning?_eq_none {dialect : Dialect} {blocks : List Text} {front rest : Text} {c : Char}
    (hfront : ':' ∉ front) (hcolon : c ≠ ':') (hblank : Text.isBlank c = false)
    (hword : Text.isWordOrHyphen c = false) (hsigil : c ≠ '$') :
    meaning? dialect blocks (front ++ c :: rest) = none := by
  rw [meaning?]
  cases hsplit : Text.splitFirst? ':' (front ++ c :: rest) with
  | none => rfl
  | some parts =>
    obtain ⟨name, tail⟩ := parts
    obtain ⟨hparts, -⟩ := eq_append_of_splitFirst? hsplit
    have hmem : c ∈ name := by
      rcases List.append_eq_append_iff.1 hparts with ⟨mid, rfl, hrest⟩ | ⟨mid, rfl, hrest⟩
      · cases mid with
        | nil => exact absurd (List.cons.inj hrest).1 hcolon
        | cons d mid =>
          obtain ⟨rfl, -⟩ := List.cons.inj hrest
          simp
      · cases mid with
        | nil => exact absurd (List.cons.inj hrest).1.symm hcolon
        | cons d mid =>
          obtain ⟨rfl, -⟩ := List.cons.inj hrest
          simp at hfront
    have hname : isPropertyName (Text.trim name) = false := by
      rw [← Bool.not_eq_true]
      intro hname
      have htrim : c ∈ Text.trim name := by
        obtain ⟨b, b', hb, hb', hparts⟩ := Text.exists_trim name
        rw [hparts] at hmem
        simp only [List.mem_append] at hmem
        rcases hmem with (h | h) | h
        · exact absurd (Text.isBlank_of_mem hb h) (by simp [hblank])
        · exact h
        · exact absurd (Text.isBlank_of_mem hb' h) (by simp [hblank])
      rcases isWordOrHyphen_of_mem_propertyName hname htrim with h | ⟨h, -⟩
      · exact absurd (h.symm.trans hword) (by decide)
      · exact hsigil h
    simp [hname]

/-- What starts with `@` is no declaration. -/
theorem meaning?_at (dialect : Dialect) (blocks : List Text) (s : Text) :
    meaning? dialect blocks ('@' :: s) = none := by
  have hnone : ':' ∉ ([] : Text) := by simp
  exact meaning?_eq_none hnone (by decide) (by decide) (by decide) (by decide)

end StyleLift.Stylesheet
