import StyleLift.Proofs.Stylesheet.Scanning
import StyleLift.Proofs.Stylesheet.Statements

/-!
# Statements at their places

A change inside one statement of a source moves everything behind it, and can open or close
blocks for it.  So the question what such a change does has two halves.  What the statements of a
source say depends on them one by one and not on where they stand: from one to the next only the
stack of open blocks is handed on.  And a place in the source belongs to one statement, which can
be exchanged for another one without touching its neighbours.

The header of a declaration is the stretch from the first character of its property up to its
colon.  A declaration does not record it, and it cannot be read off from the text around a value,
since a comment may hold the same text once more; it is counted here from the statements before.

* `meanings?`, `meanings_parse`: what statements say, without places.
* `headers`: the header of every declaration, in order.
* `exists_meanings_exchange`: **a statement is exchanged,** and only what it says changes.
* `Place`: a statement with what stands around it.
* `exists_place_append`, `exists_place_of_lt`: **every cut goes through one statement, and
  everything that is said is said by one.**
-/

namespace StyleLift.Stylesheet

variable {dialect : Dialect}

/-! ## What statements say -/

/-- What a statement inside `blocks` says.  The prelude of a block says nothing. -/
def Statement.meanings (dialect : Dialect) (blocks : List Text) (s : Statement) : List Meaning :=
  if s.stop = .opening then [] else (meaning? dialect blocks s.core).toList

/-- The blocks around what follows a statement inside `blocks`, if the reading goes on. -/
def Statement.blocksBehind? (dialect : Dialect) (blocks : List Text) (s : Statement) :
    Option (List Text) :=
  match s.stop with
  | .opening => some (blocks ++ [s.prelude dialect])
  | .separator => some blocks
  | .closing => if blocks.isEmpty then none else some blocks.dropLast
  | .unterminated _ => none
  | .finish => none

/-- What statements inside `blocks` say, one after the other, unless there is a fault. -/
def meanings? (dialect : Dialect) (blocks : List Text) : List Statement → Option (List Meaning)
  | [] => some []
  | s :: rest =>
    if s.stop = .finish then
      if blocks.isEmpty then some (s.meanings dialect blocks) else none
    else
      (s.blocksBehind? dialect blocks).bind fun inner =>
        (meanings? dialect inner rest).map (s.meanings dialect blocks ++ ·)

theorem toOption_map {ε α β : Type} (f : α → β) (x : Except ε α) :
    (f <$> x).toOption = x.toOption.map f := by
  cases x <;> rfl

/-- **What is declared does not depend on where it stands.** -/
theorem meanings_declarations (offset line : Nat) (blocks : List Text) (ss : List Statement) :
    (declarations dialect offset line blocks ss).toOption.map (List.map Declaration.meaning) =
      meanings? dialect blocks ss := by
  induction ss generalizing offset line blocks with
  | nil => rfl
  | cons s ss ih =>
    obtain ⟨body, stop⟩ := s
    have hmeanings : (Statement.declaration? dialect offset line blocks ⟨body, stop⟩).toList.map
        Declaration.meaning = (meaning? dialect blocks (coreOf body)).toList :=
      map_meaning_toList offset line stop
    have hlater : ∀ offset' line' inner,
        ((((Statement.declaration? dialect offset line blocks ⟨body, stop⟩).toList ++ ·) <$>
            declarations dialect offset' line' inner ss).toOption.map
              (List.map Declaration.meaning)) =
          (meanings? dialect inner ss).map
            ((meaning? dialect blocks (coreOf body)).toList ++ ·) := by
      intro offset' line' inner
      rw [toOption_map, Option.map_map, ← ih offset' line' inner, Option.map_map, ← hmeanings]
      congr 1
      funext later
      exact List.map_append
    rw [declarations, meanings?]
    cases stop with
    | opening =>
      simp only [Statement.blocksBehind?, Statement.meanings, reduceCtorEq, if_false, if_true,
        Option.bind_some, List.nil_append, Option.map_id']
      exact ih _ _ _
    | separator =>
      simp only [Statement.blocksBehind?, Statement.meanings, reduceCtorEq, if_false,
        Option.bind_some]
      exact hlater _ _ _
    | closing =>
      simp only [Statement.blocksBehind?, Statement.meanings, reduceCtorEq, if_false]
      split
      · rfl
      · exact hlater _ _ _
    | unterminated what => rfl
    | finish =>
      rcases List.eq_nil_or_concat' blocks with rfl | ⟨outer, prelude, rfl⟩
      · exact congrArg some hmeanings
      · simp [Except.toOption]

theorem meanings_parse (source : Text) :
    (Document.parse dialect source).toOption.map (·.declarations.map Declaration.meaning) =
      meanings? dialect [] (statementsOf dialect source) := by
  rw [← meanings_declarations 0 1, Document.parse, statementsOf]
  cases declarations dialect 0 1 [] (Statement.ofTokens (tokens (.ofStatements dialect) 0 source))
    with
  | error fault => rfl
  | ok ds => simp [Except.map, Except.toOption, Document.declarations, Function.comp_def]

theorem exists_parse_iff_meanings {source : Text} {ms : List Meaning} :
    (∃ doc, Document.parse dialect source = .ok doc ∧
      doc.declarations.map Declaration.meaning = ms) ↔
      meanings? dialect [] (statementsOf dialect source) = some ms := by
  rw [← meanings_parse]
  cases Document.parse dialect source with
  | error fault => simp [Except.toOption]
  | ok doc => simp [Except.toOption]

/-! ## Headers -/

/-- The stretch from the first character of a statement up to its colon, if the statement, which
starts at `offset`, is a declaration. -/
def Statement.header? (dialect : Dialect) (offset : Nat) (s : Statement) : Option Span :=
  if s.stop = .opening then none else do
    let _ ← s.declaration? dialect offset 1 []
    let (name, _) ← Text.splitFirst? ':' s.core
    some ⟨offset + s.lead.length, offset + s.lead.length + name.length⟩

/-- The headers of the declarations among statements that start at `offset`, in order. -/
def headers (dialect : Dialect) (offset : Nat) : List Statement → List Span
  | [] => []
  | s :: rest =>
    (s.header? dialect offset).toList ++ headers dialect (offset + s.length + 1) rest

/-- The number of characters that statements and their ends take up. -/
def extent : List Statement → Nat
  | [] => 0
  | s :: rest => s.length + 1 + extent rest

theorem headers_append (offset : Nat) (ss later : List Statement) :
    headers dialect offset (ss ++ later) =
      headers dialect offset ss ++ headers dialect (offset + extent ss) later := by
  induction ss generalizing offset with
  | nil => rfl
  | cons s ss ih =>
    simp only [List.cons_append, headers, ih, extent, List.append_assoc, Nat.add_assoc]

/-- The text of a statement is a declaration: a name, a colon and a value. -/
theorem meaning?_eq_some_iff {blocks : List Text} {core : Text} {m : Meaning} :
    meaning? dialect blocks core = some m ↔ ∃ name tail,
      Text.splitFirst? ':' core = some (name, tail) ∧ isPropertyName (Text.trim name) = true ∧
      valueOf dialect tail ≠ [] ∧ ⟨Text.trim name, valueOf dialect tail, blocks⟩ = m := by
  rw [meaning?]
  cases Text.splitFirst? ':' core with
  | none => simp
  | some parts =>
    obtain ⟨name, tail⟩ := parts
    cases hname : isPropertyName (Text.trim name) <;> cases hvalue : valueOf dialect tail <;>
      simp [hname, hvalue]

theorem header?_eq_some_iff {offset : Nat} {s : Statement} {header : Span} :
    s.header? dialect offset = some header ↔ s.stop ≠ .opening ∧ ∃ name tail,
      Text.splitFirst? ':' s.core = some (name, tail) ∧ isPropertyName (Text.trim name) = true ∧
      valueOf dialect tail ≠ [] ∧
      ⟨offset + s.lead.length, offset + s.lead.length + name.length⟩ = header := by
  have hmeaning := map_meaning_declaration? dialect offset 1 [] s
  by_cases hstop : s.stop = .opening
  · simp [Statement.header?, hstop]
  · simp only [Statement.header?, hstop, if_false, ne_eq, not_false_iff, true_and]
    constructor
    · intro h
      obtain ⟨d, hd, h⟩ := Option.bind_eq_some_iff.1 h
      obtain ⟨⟨name, tail⟩, hsplit, h⟩ := Option.bind_eq_some_iff.1 h
      rw [hd, Option.map_some, eq_comm, meaning?_eq_some_iff] at hmeaning
      obtain ⟨name', tail', hsplit', hname, hvalue, -⟩ := hmeaning
      obtain ⟨rfl, rfl⟩ := Prod.mk.inj (Option.some.inj (hsplit.symm.trans hsplit'))
      exact ⟨name, tail, hsplit, hname, hvalue, Option.some.inj h⟩
    · rintro ⟨name, tail, hsplit, hname, hvalue, rfl⟩
      rw [meaning?_eq_some_iff.2 ⟨name, tail, hsplit, hname, hvalue, rfl⟩] at hmeaning
      obtain ⟨d, hd, -⟩ := Option.map_eq_some_iff.1 hmeaning
      rw [hd, hsplit]
      rfl

/-- A statement has a header exactly if it says something, whatever the blocks around it. -/
theorem length_meanings (blocks : List Text) (offset : Nat) (s : Statement) :
    (s.meanings dialect blocks).length = (s.header? dialect offset).toList.length := by
  cases hheader : s.header? dialect offset with
  | some header =>
    obtain ⟨hstop, name, tail, hsplit, hname, hvalue, -⟩ := header?_eq_some_iff.1 hheader
    rw [Statement.meanings, if_neg hstop,
      meaning?_eq_some_iff.2 ⟨name, tail, hsplit, hname, hvalue, rfl⟩]
    rfl
  | none =>
    rw [Statement.meanings]
    split
    · rfl
    · rename_i hstop
      cases hmeaning : meaning? dialect blocks s.core with
      | none => rfl
      | some m =>
        obtain ⟨name, tail, hsplit, hname, hvalue, -⟩ := meaning?_eq_some_iff.1 hmeaning
        have hsome : s.header? dialect offset = some ⟨_, _⟩ :=
          header?_eq_some_iff.2 ⟨hstop, name, tail, hsplit, hname, hvalue, rfl⟩
        exact absurd (hheader.symm.trans hsome) (by simp)

/-! ## Exchanging a statement -/

/-- **A statement is exchanged,** and only what it says changes, as long as it ends in the same
way and is the same prelude. -/
theorem exists_meanings_exchange {blocks : List Text} {front back : List Statement}
    {s : Statement} {ms : List Meaning} (hfront : ∀ a ∈ front, a.stop ≠ .finish)
    (h : meanings? dialect blocks (front ++ s :: back) = some ms) (offset : Nat) :
    ∃ early inner later, early.length = (headers dialect offset front).length ∧
      ms = early ++ s.meanings dialect inner ++ later ∧
      ∀ s' : Statement, s'.stop = s.stop →
        (s.stop = .opening → s'.prelude dialect = s.prelude dialect) →
        meanings? dialect blocks (front ++ s' :: back) =
          some (early ++ s'.meanings dialect inner ++ later) := by
  induction front generalizing blocks ms offset with
  | nil =>
    rw [List.nil_append, meanings?] at h
    refine ⟨[], blocks, ?_⟩
    split at h
    · rename_i hstop
      split at h
      · rename_i hblocks
        obtain rfl := Option.some.inj h
        refine ⟨[], rfl, by simp, ?_⟩
        intro s' hstop' _
        rw [List.nil_append, meanings?, if_pos (hstop'.trans hstop), if_pos hblocks]
        simp
      · exact absurd h (by simp)
    · rename_i hstop
      obtain ⟨inner, hinner, h⟩ := Option.bind_eq_some_iff.1 h
      obtain ⟨later, hlater, rfl⟩ := Option.map_eq_some_iff.1 h
      refine ⟨later, rfl, rfl, ?_⟩
      intro s' hstop' hprelude
      have hinner' : s'.blocksBehind? dialect blocks = some inner := by
        rw [← hinner, Statement.blocksBehind?, Statement.blocksBehind?, hstop']
        cases hopening : s.stop with
        | opening => simp only [hprelude hopening]
        | separator | closing | unterminated | finish => rfl
      rw [List.nil_append, meanings?, if_neg (hstop' ▸ hstop), hinner', Option.bind_some, hlater]
      rfl
  | cons a front ih =>
    rw [List.forall_mem_cons] at hfront
    rw [List.cons_append, meanings?, if_neg hfront.1] at h
    obtain ⟨between, hbetween, h⟩ := Option.bind_eq_some_iff.1 h
    obtain ⟨ms, hms, rfl⟩ := Option.map_eq_some_iff.1 h
    obtain ⟨early, inner, later, hlength, rfl, hexchange⟩ :=
      ih hfront.2 hms (offset + a.length + 1)
    refine ⟨a.meanings dialect blocks ++ early, inner, later, ?_, by simp, ?_⟩
    · rw [headers, List.length_append, List.length_append, hlength, length_meanings blocks offset]
    · intro s' hstop' hprelude
      rw [List.cons_append, meanings?, if_neg hfront.1, hbetween, Option.bind_some,
        hexchange s' hstop' hprelude, Option.map_some]
      simp

/-! ## The statement at a place -/

/-- A statement among tokens: the statements and the tokens around it. -/
structure Place (ts : List Token) where
  front : List Statement
  statement : Statement
  back : List Statement
  before : List Token
  after : List Token
  tokens_eq : before ++ statement.body ++ after = ts
  inside : ∀ t ∈ statement.body, Stop.ofToken? t = none
  /-- The tokens before it are the statements before it. -/
  extent_eq : extent front = (spelling before).length
  depth_eq : finalDepth 0 before = 0
  not_finish : ∀ s ∈ front, s.stop ≠ .finish
  /-- Other tokens can stand in its place. -/
  exchange : ∀ body : List Token, (∀ t ∈ body, Stop.ofToken? t = none) →
    Statement.ofTokens (before ++ body ++ after) = front ++ ⟨body, statement.stop⟩ :: back

namespace Place

/-- The first statement. -/
def first {ts body after : List Token} {stop : Stop} {back : List Statement}
    (htokens : body ++ after = ts) (hbody : ∀ t ∈ body, Stop.ofToken? t = none)
    (hafter : ∀ body : List Token, (∀ t ∈ body, Stop.ofToken? t = none) →
      Statement.ofTokens (body ++ after) = ⟨body, stop⟩ :: back) : Place ts where
  front := []
  statement := ⟨body, stop⟩
  back := back
  before := []
  after := after
  tokens_eq := htokens
  inside := hbody
  extent_eq := rfl
  depth_eq := rfl
  not_finish := by simp
  exchange := hafter

/-- A statement with one more statement before it. -/
def behind {ts : List Token} (place : Place ts) {body : List Token} {t : Token} {stop : Stop}
    (hbody : ∀ t ∈ body, Stop.ofToken? t = none) (hstop : Stop.ofToken? t = some stop)
    (hfinish : stop ≠ .finish) (htext : t.text.length = 1)
    (hdepth : t.depthAfter (finalDepth 0 body) = 0) : Place (body ++ t :: ts) where
  front := ⟨body, stop⟩ :: place.front
  statement := place.statement
  back := place.back
  before := body ++ t :: place.before
  after := place.after
  tokens_eq := by simp [← place.tokens_eq]
  inside := place.inside
  extent_eq := by
    have hextent := place.extent_eq
    simp only [extent, length_statement, spelling_append, spelling_cons, List.length_append,
      htext] at hextent ⊢
    omega
  depth_eq := by rw [finalDepth_append, finalDepth_cons, hdepth, place.depth_eq]
  not_finish := List.forall_mem_cons.2 ⟨hfinish, place.not_finish⟩
  exchange := by
    intro other hother
    have hrest := place.exchange other hother
    have happend : body ++ t :: place.before ++ other ++ place.after =
        body ++ t :: (place.before ++ other ++ place.after) := by simp
    rw [happend, ofTokens_append_cons hbody hstop, hrest]
    rfl

variable {ts : List Token} (place : Place ts)

theorem ofTokens_eq : Statement.ofTokens ts = place.front ++ place.statement :: place.back := by
  have h := place.exchange place.statement.body place.inside
  rwa [place.tokens_eq] at h

/-- The header of the statement has the number of headers before it. -/
theorem getElem?_headers {offset : Nat} {header : Span}
    (h : place.statement.header? dialect (offset + extent place.front) = some header) :
    (headers dialect offset (Statement.ofTokens ts))[(headers dialect offset place.front).length]? =
      some header := by
  rw [place.ofTokens_eq, headers_append, headers, h, List.getElem?_append_right (Nat.le_refl _),
    Nat.sub_self]
  rfl

/-- What fits as a whole fits at the place. -/
theorem isBody (hfits : FitsAll (.ofStatements dialect) 0 none ts) :
    IsBody dialect (spelling place.after).head? place.statement.body := by
  rw [← place.tokens_eq] at hfits
  have hfront := (fitsAll_append.1 hfits).1
  rw [fitsAll_append, place.depth_eq, Option.or_none] at hfront
  exact ⟨hfront.2, place.inside⟩

end Place

/-- A stop that is not the rest of the source is one character outside parentheses. -/
theorem stop_of_fits {t : Token} {stop : Stop} {depth : Nat} {next : Option Char}
    (hstop : Stop.ofToken? t = some stop) (hterminated : t.isTerminated = true)
    (hfits : t.Fits (.ofStatements dialect) depth next) :
    stop ≠ .finish ∧ t.text.length = 1 ∧ t.depthAfter depth = 0 := by
  cases t with
  | opening | closing | separator =>
    obtain rfl := Option.some.inj hstop
    exact ⟨by simp, rfl, hfits⟩
  | unterminated => exact absurd hterminated Bool.false_ne_true
  | comment | quoted | interpolation | glyph => exact absurd hstop (by simp [Stop.ofToken?])

/-- What stands before the first stop of tokens can be exchanged. -/
theorem exists_first (ts : List Token) : ∃ (body after : List Token) (stop : Stop)
    (back : List Statement), body ++ after = ts ∧ (∀ t ∈ body, Stop.ofToken? t = none) ∧
      ∀ other : List Token, (∀ t ∈ other, Stop.ofToken? t = none) →
        Statement.ofTokens (other ++ after) = ⟨other, stop⟩ :: back := by
  induction ts using statement_induction with
  | finish body hbody =>
    refine ⟨body, [], .finish, [], List.append_nil body, hbody, ?_⟩
    intro other hother
    rw [List.append_nil, ofTokens_of_inside hother]
  | step body t stop rest hbody hstop _ =>
    exact ⟨body, t :: rest, stop, Statement.ofTokens rest, rfl, hbody,
      fun other hother => ofTokens_append_cons hother hstop rest⟩

/-- **Every cut between two tokens goes through one statement,** perhaps at one of its ends. -/
theorem exists_place_append {us vs ts : List Token} (hts : ts = us ++ vs)
    (hfits : FitsAll (.ofStatements dialect) 0 none ts)
    (hterminated : ∀ t ∈ ts, t.isTerminated = true) :
    ∃ (place : Place ts) (left right : List Token), us = place.before ++ left ∧
      vs = right ++ place.after ∧ place.statement.body = left ++ right := by
  induction us using statement_induction generalizing ts with
  | finish left hleft =>
    obtain ⟨right, after, stop, back, rfl, hright, hafter⟩ := exists_first vs
    have htokens : left ++ right ++ after = ts := by rw [hts, List.append_assoc]
    have hinside := List.forall_mem_append.2 ⟨hleft, hright⟩
    exact ⟨.first htokens hinside hafter, left, right, rfl, rfl, rfl⟩
  | step body t stop rest hbody hstop ih =>
    rw [List.append_assoc, List.cons_append] at hts
    subst hts
    obtain ⟨-, ht, hrest⟩ := fitsAll_append.1 hfits
    rw [List.forall_mem_append, List.forall_mem_cons] at hterminated
    obtain ⟨hfinish, htext, hdepth⟩ := stop_of_fits hstop hterminated.2.1 ht
    rw [hdepth] at hrest
    obtain ⟨place, left, right, hleft, hright, hmid⟩ := ih rfl hrest hterminated.2.2
    refine ⟨place.behind hbody hstop hfinish htext hdepth, left, right, ?_, hright, hmid⟩
    simp [Place.behind, hleft]

/-- **Everything that is said is said by one statement,** and as many declarations stand before it
as there are headers. -/
theorem exists_place_of_lt {ts : List Token} {blocks : List Text} {ms : List Meaning} {i : Nat}
    (hfits : FitsAll (.ofStatements dialect) 0 none ts)
    (hterminated : ∀ t ∈ ts, t.isTerminated = true)
    (h : meanings? dialect blocks (Statement.ofTokens ts) = some ms) (hi : i < ms.length)
    (offset : Nat) :
    ∃ place : Place ts, (headers dialect offset place.front).length = i ∧
      ∃ header, place.statement.header? dialect (offset + extent place.front) = some header := by
  have hsome : ∀ {blocks : List Text} {s : Statement} {offset i : Nat},
      i < (s.meanings dialect blocks).length →
        i = 0 ∧ ∃ header, s.header? dialect offset = some header := by
    intro blocks s offset i hi
    rw [length_meanings blocks offset] at hi
    cases hheader : s.header? dialect offset with
    | none => simp [hheader] at hi
    | some header =>
      rw [hheader, Option.toList_some, List.length_singleton] at hi
      exact ⟨by omega, header, rfl⟩
  induction ts using statement_induction generalizing blocks ms i offset with
  | finish body hbody =>
    rw [ofTokens_of_inside hbody, meanings?, if_pos rfl] at h
    split at h
    · obtain rfl := Option.some.inj h
      obtain ⟨rfl, hheader⟩ := hsome hi
      exact ⟨.first (List.append_nil body) hbody fun other hother => by
        rw [List.append_nil, ofTokens_of_inside hother], rfl, hheader⟩
    · exact absurd h (by simp)
  | step body t stop rest hbody hstop ih =>
    obtain ⟨-, ht, hrest⟩ := fitsAll_append.1 hfits
    rw [List.forall_mem_append, List.forall_mem_cons] at hterminated
    obtain ⟨hfinish, htext, hdepth⟩ := stop_of_fits hstop hterminated.2.1 ht
    rw [hdepth] at hrest
    rw [ofTokens_append_cons hbody hstop, meanings?, if_neg hfinish] at h
    obtain ⟨inner, -, h⟩ := Option.bind_eq_some_iff.1 h
    obtain ⟨later, hlater, rfl⟩ := Option.map_eq_some_iff.1 h
    rw [List.length_append] at hi
    by_cases hfirst : i < (Statement.meanings dialect blocks ⟨body, stop⟩).length
    · obtain ⟨rfl, hheader⟩ := hsome hfirst
      exact ⟨.first rfl hbody fun other hother => ofTokens_append_cons hother hstop rest, rfl,
        hheader⟩
    · obtain ⟨place, hlength, hheader⟩ := ih hrest hterminated.2.2 hlater
        (i := i - (Statement.meanings dialect blocks ⟨body, stop⟩).length) (by omega)
        (offset + Statement.length ⟨body, stop⟩ + 1)
      refine ⟨place.behind hbody hstop hfinish htext hdepth, ?_, ?_⟩
      · simp only [Place.behind, headers, List.length_append, hlength]
        rw [← length_meanings blocks offset]
        omega
      · obtain ⟨header, hheader⟩ := hheader
        refine ⟨header, ?_⟩
        rw [← hheader]
        simp only [Place.behind, extent, Nat.add_assoc]

end StyleLift.Stylesheet
