import Mathlib.Data.List.DropRight
import StyleLift.Proofs.Stylesheet.Placement
import StyleLift.Proofs.Stylesheet.Readings
import StyleLift.Proofs.Stylesheet.Scanning

/-!
# Blocks

The parser walks through a source with a stack of preludes: `{` pushes one, `}` drops the last
one, and a declaration takes a copy of the stack.  Which blocks stand around a declaration can be
said without a stack.  A block is open at some place when its `{` stands before it and no stretch
of tokens behind that brace closes more than it opens.  That the two agree is not a fact about the
stack alone, since a brace inside a comment, a string, an interpolation or parentheses is none,
and a stray `(` hides all braces behind it; so both sides are said of the tokens that
`Reads` gives to a source.

* `IsOpen`, `OpenBlocks`: the blocks that are open behind some tokens, outermost first.
* `preludeOf`: what stands between a brace and the structure before it.
* `Nested`: tokens cut at the braces that are open behind them.  It is what every statement
  keeps, and it determines the open blocks (`Nested.openBlocks`).
* `parse_iff_balanced`: **the accepted sources are the balanced ones, and the selectors of a
  declaration are the preludes of the blocks that are open around it.**
-/

namespace StyleLift.Stylesheet

/-- The tokens that separate statements. -/
def Token.isStructure : Token → Bool
  | .opening | .closing | .separator => true
  | _ => false

theorem Token.isStructure_eq_false {t : Token} (h : Stop.ofToken? t = none) :
    t.isStructure = false := by
  cases t with
  | comment | quoted | interpolation | glyph => rfl
  | opening | closing | separator | unterminated => exact absurd h (by simp [Stop.ofToken?])

/-- A statement opens and closes nothing. -/
theorem closes_of_inside {body : List Token} (hbody : ∀ t ∈ body, Stop.ofToken? t = none) :
    Closes Token.opening .closing 0 body := by
  refine closes_of_ne ?_
  intro t ht
  have hstop := hbody t ht
  constructor
  · rintro rfl
    exact absurd hstop (by simp [Stop.ofToken?])
  · rintro rfl
    exact absurd hstop (by simp [Stop.ofToken?])

/-! ## Which sources are accepted -/

theorem exists_map_eq_ok_iff {ε α β : Type} {f : α → β} {x : Except ε α} :
    (∃ b, f <$> x = .ok b) ↔ ∃ a, x = .ok a := by
  constructor
  · rintro ⟨b, hb⟩
    obtain ⟨a, ha, -⟩ := exists_of_map_eq_ok hb
    exact ⟨a, ha⟩
  · rintro ⟨a, rfl⟩
    exact ⟨f a, rfl⟩

/-- Tokens are read without a fault inside some blocks exactly when nothing in them is
unterminated and they close just these blocks and what they open themselves. -/
theorem exists_declarations_iff (dialect : Dialect) (offset line : Nat) (blocks : List Text)
    (ts : List Token) :
    (∃ ds, declarations dialect offset line blocks (Statement.ofTokens ts) = .ok ds) ↔
      (∀ t ∈ ts, t.isTerminated = true) ∧ Closes Token.opening .closing blocks.length ts := by
  have hne : Token.opening ≠ Token.closing := by decide
  induction ts using statement_induction generalizing offset line blocks with
  | finish body hinside =>
    have hterminated : ∀ t ∈ body, t.isTerminated = true :=
      fun t ht => Token.isTerminated_of_inside (hinside t ht)
    have hcloses : Closes Token.opening .closing blocks.length body ↔ blocks.length = 0 := by
      have h := (closes_of_inside hinside).append_iff (n := blocks.length) (l := [])
      rwa [List.append_nil, closes_nil] at h
    rw [ofTokens_of_inside hinside, declarations, hcloses]
    rcases List.eq_nil_or_concat' blocks with rfl | ⟨outer, prelude, rfl⟩
    · exact ⟨fun _ => ⟨hterminated, rfl⟩, fun _ => ⟨_, rfl⟩⟩
    · simp
  | step body t stop rest hinside hstop ih =>
    have hterminated : t.isTerminated = true → ((∀ u ∈ body ++ t :: rest, u.isTerminated = true) ↔
        ∀ u ∈ rest, u.isTerminated = true) := by
      intro ht
      rw [List.forall_mem_append, List.forall_mem_cons]
      exact ⟨fun h => h.2.2,
        fun h => ⟨fun u hu => Token.isTerminated_of_inside (hinside u hu), ht, h⟩⟩
    rw [ofTokens_append_cons hinside hstop, declarations, (closes_of_inside hinside).append_iff]
    cases t with
    | separator =>
      obtain rfl := Option.some.inj hstop
      rw [hterminated rfl, closes_cons_of_ne (by decide) (by decide)]
      exact exists_map_eq_ok_iff.trans (ih _ _ _)
    | closing =>
      obtain rfl := Option.some.inj hstop
      rw [hterminated rfl, closes_cons_closing hne]
      rcases List.eq_nil_or_concat' blocks with rfl | ⟨outer, prelude, rfl⟩
      · simp
      · have hblocks : (outer ++ [prelude]).isEmpty = false := by simp
        simp only [hblocks, Bool.false_eq_true, if_false, List.dropLast_concat,
          List.length_append, List.length_singleton, Nat.add_right_cancel_iff, exists_eq_left']
        exact exists_map_eq_ok_iff.trans (ih _ _ _)
    | opening =>
      obtain rfl := Option.some.inj hstop
      have h := ih (offset + Statement.length ⟨body, .opening⟩ + 1)
        (line + Statement.newlines ⟨body, .opening⟩)
        (blocks ++ [Statement.prelude dialect ⟨body, .opening⟩])
      rw [List.length_append, List.length_singleton] at h
      rw [hterminated rfl, closes_cons_opening hne]
      exact h
    | unterminated what s =>
      obtain rfl := Option.some.inj hstop
      refine ⟨?_, fun h => absurd (h.1 (.unterminated what s) (by simp)) Bool.false_ne_true⟩
      rintro ⟨ds, hds⟩
      cases hds
    | comment | quoted | interpolation | glyph => exact absurd hstop (by simp [Stop.ofToken?])

/-- A source is accepted exactly when it is read by the rules and its braces are balanced. -/
theorem exists_parse_iff {dialect : Dialect} {source : Text} :
    (∃ doc, Document.parse dialect source = .ok doc) ↔
      ∃ ts, Reads dialect 0 source ts ∧ Closes Token.opening .closing 0 ts := by
  have hdeclarations := exists_declarations_iff dialect 0 1 []
    (tokens (.ofStatements dialect) 0 source)
  rw [Document.parse]
  constructor
  · rintro ⟨doc, hdoc⟩
    obtain ⟨ds, hds, -⟩ := exists_of_map_eq_ok hdoc
    obtain ⟨hterminated, hcloses⟩ := hdeclarations.1 ⟨ds, hds⟩
    exact ⟨_, reads_iff.2 ⟨rfl, hterminated⟩, hcloses⟩
  · rintro ⟨ts, hreads, hcloses⟩
    obtain ⟨rfl, hterminated⟩ := reads_iff.1 hreads
    obtain ⟨ds, hds⟩ := hdeclarations.2 ⟨hterminated, hcloses⟩
    rw [hds]
    exact ⟨_, rfl⟩

/-! ## Open blocks -/

/-- The block whose brace stands right behind `front` is open behind `before`: nothing that
follows the brace closes it. -/
def IsOpen (before front : List Token) : Prop :=
  ∃ inside, before = front ++ .opening :: inside ∧
    ∀ part, part <+: inside → part.count .closing ≤ part.count .opening

/-- The blocks that are open behind `before`, each given by what stands before its brace,
outermost first. -/
structure OpenBlocks (before : List Token) (fronts : List (List Token)) : Prop where
  mem_iff : ∀ front, front ∈ fronts ↔ IsOpen before front
  outermostFirst : fronts.Pairwise (·.length < ·.length)

/-- Tokens cut at the braces of the blocks `fronts`: between two of these braces, and behind the
last one, everything that is opened is closed. -/
inductive Nested : List Token → List (List Token) → Prop
  | outside {before : List Token} (h : Closes .opening .closing 0 before) : Nested before []
  | inside {front inside : List Token} {fronts : List (List Token)} (houter : Nested front fronts)
    (h : Closes .opening .closing 0 inside) :
    Nested (front ++ .opening :: inside) (fronts ++ [front])

/-- What is closed again leaves the same blocks open. -/
theorem Nested.append {before : List Token} {fronts : List (List Token)}
    (h : Nested before fronts) {part : List Token} (hpart : Closes .opening .closing 0 part) :
    Nested (before ++ part) fronts := by
  cases h with
  | outside h => exact .outside (h.append_iff.2 hpart)
  | inside houter h =>
    rw [List.append_assoc, List.cons_append]
    exact .inside houter (h.append_iff.2 hpart)

/-- A brace opens a block. -/
theorem Nested.concat_opening {before : List Token} {fronts : List (List Token)}
    (h : Nested before fronts) : Nested (before ++ [.opening]) (fronts ++ [before]) :=
  .inside h (closes_nil.2 rfl)

/-- A brace closes the innermost block. -/
theorem Nested.concat_closing {before front : List Token} {fronts : List (List Token)}
    (h : Nested before (fronts ++ [front])) : Nested (before ++ [.closing]) fronts := by
  have hne : Token.opening ≠ Token.closing := by decide
  generalize hlist : fronts ++ [front] = list at h
  cases h with
  | outside h => simp at hlist
  | @inside front' inside fronts' houter h =>
    obtain ⟨rfl, hfront⟩ := List.append_inj' hlist rfl
    obtain rfl := List.singleton_inj.1 hfront
    rw [List.append_assoc]
    refine houter.append ?_
    rw [List.cons_append, closes_cons_opening hne, h.append_iff, closes_cons_closing hne]
    exact ⟨0, rfl, closes_nil.2 rfl⟩

/-- No brace inside what is closed again is open behind it. -/
theorem not_isOpen_of_closes {part front : List Token} (hpart : Closes .opening .closing 0 part) :
    ¬ IsOpen part front := by
  rintro ⟨inside, rfl, hinside⟩
  have hfront := hpart.bound front (List.prefix_append _ _)
  have hrest := hinside inside (List.prefix_refl _)
  have htotal := hpart.total
  rw [List.count_append, List.count_append, List.count_cons_self,
    List.count_cons_of_ne (by decide)] at htotal
  omega

/-- A brace behind which everything that is opened is closed adds one open block. -/
theorem isOpen_append_cons_iff {outer inside front : List Token}
    (hinside : Closes .opening .closing 0 inside) :
    IsOpen (outer ++ .opening :: inside) front ↔ IsOpen outer front ∨ front = outer := by
  constructor
  · rintro ⟨rest, heq, hrest⟩
    rcases List.append_eq_append_iff.1 heq with ⟨mid, rfl, hmid⟩ | ⟨mid, rfl, hmid⟩
    · cases mid with
      | nil => exact Or.inr (List.append_nil outer)
      | cons t mid =>
        obtain ⟨rfl, rfl⟩ := List.cons.inj hmid
        exact absurd ⟨rest, rfl, hrest⟩ (not_isOpen_of_closes hinside)
    · cases mid with
      | nil => exact Or.inr (List.append_nil front).symm
      | cons t mid =>
        obtain ⟨rfl, rfl⟩ := List.cons.inj hmid
        exact Or.inl ⟨mid, rfl, fun part hpart => hrest part (hpart.trans (List.prefix_append _ _))⟩
  · rintro (⟨mid, rfl, hmid⟩ | rfl)
    · refine ⟨mid ++ .opening :: inside, by simp, ?_⟩
      rintro part ⟨rest, hpart⟩
      rcases List.append_eq_append_iff.1 hpart with ⟨more, hmore, -⟩ | ⟨more, rfl, hmore⟩
      · exact hmid part ⟨more, hmore.symm⟩
      · -- beyond `mid` the new brace and the rest open at least what they close
        have hbound := hmid mid (List.prefix_refl _)
        cases more with
        | nil => rwa [List.append_nil]
        | cons t more =>
          obtain ⟨rfl, hsplit⟩ := List.cons.inj hmore
          have hinner := hinside.bound more ⟨rest, hsplit.symm⟩
          rw [List.count_append, List.count_append, List.count_cons_self,
            List.count_cons_of_ne (by decide)]
          omega
    · exact ⟨inside, rfl, hinside.bound⟩

/-- **The cuts are the open blocks.** -/
theorem Nested.openBlocks {before : List Token} {fronts : List (List Token)}
    (h : Nested before fronts) : OpenBlocks before fronts := by
  induction h with
  | outside h =>
    refine ⟨fun front => ?_, List.Pairwise.nil⟩
    exact ⟨fun hmem => absurd hmem List.not_mem_nil,
      fun hopen => absurd hopen (not_isOpen_of_closes h)⟩
  | @inside front inside fronts houter h ih =>
    constructor
    · intro other
      rw [isOpen_append_cons_iff h, List.mem_append, List.mem_singleton, ih.mem_iff]
    · refine List.pairwise_append.2 ⟨ih.outermostFirst, List.pairwise_singleton _ _, ?_⟩
      intro other hother last hlast
      obtain rfl := List.mem_singleton.1 hlast
      obtain ⟨rest, rfl, -⟩ := (ih.mem_iff other).1 hother
      simp only [List.length_append, List.length_cons]
      omega

/-! ## Preludes -/

/-- The prelude of the block whose brace stands right behind `front`: what stands between that
brace and the structure before it, without comments and trimmed. -/
def preludeOf (dialect : Dialect) (front : List Token) : Text :=
  Text.trim (Uncommented.ofText dialect 0
    (spelling (front.rtakeWhile fun t => !t.isStructure))).text

/-- The statement `body` between `before` and `after` goes from one structural token, or the start
of the source, to the next one, or the end of the source. -/
structure IsStatement (before body after : List Token) : Prop where
  starts : ∀ t, before.getLast? = some t → t.isStructure = true
  inside : ∀ t ∈ body, t.isStructure = false
  ends : ∀ t, after.head? = some t → t.isStructure = true

theorem rtakeWhile_eq_of_starts {before body : List Token}
    (hbefore : ∀ t, before.getLast? = some t → t.isStructure = true)
    (hbody : ∀ t ∈ body, t.isStructure = false) :
    (before ++ body).rtakeWhile (fun t => !t.isStructure) = body := by
  rw [List.rtakeWhile, List.reverse_append, List.takeWhile_append_of_pos]
  · have hnil : before.reverse.takeWhile (fun t => !t.isStructure) = [] := by
      rcases List.eq_nil_or_concat' before with rfl | ⟨front, t, rfl⟩
      · rfl
      · rw [List.reverse_append, List.reverse_singleton, List.singleton_append,
          List.takeWhile_cons_of_neg]
        simp [hbefore t List.getLast?_concat]
    rw [hnil, List.append_nil, List.reverse_reverse]
  · intro t ht
    simp [hbody t (List.mem_reverse.1 ht)]

/-- The blanks and comments in front of a prelude do not show in it. -/
theorem trim_uncommented_coreOf {dialect : Dialect} {next : Option Char} {body : List Token}
    (h : FitsAll (.ofStatements dialect) 0 next body) :
    Text.trim (Uncommented.ofText dialect 0 (coreOf body)).text =
      Text.trim (Uncommented.ofText dialect 0 (spelling body)).text := by
  have hsplit := List.takeWhile_append_dropWhile (p := Token.isFiller) (l := body)
  rw [← hsplit] at h
  have hlead : ∀ t ∈ body.takeWhile Token.isFiller, t.isFiller = true :=
    fun t ht => List.mem_takeWhile_imp ht
  have hread : tokens (.ofComments dialect) 0 (spelling body) =
      body.takeWhile Token.isFiller ++ tokens (.ofComments dialect) 0 (coreOf body) := by
    conv_lhs => rw [← hsplit, tokens_ofComments_filler hlead h]
    rfl
  rw [Uncommented.ofText, Uncommented.ofText, text_ofTokens, text_ofTokens, hread]
  -- the tokens in front leave blanks, and so does what depends on the character before
  obtain ⟨blanks, before, hblanks, hkept⟩ := exists_bare_append_of_filler hlead none
    (tokens (.ofComments dialect) 0 (coreOf body))
  obtain ⟨b, b', s, hb, hb', hnone, hbefore⟩ := exists_bare_eq_append
    (fitsAll_tokens (.ofComments dialect) 0 (coreOf body)).text_ne_nil none before
  rw [hkept, hnone, hbefore, Text.trim_append_of_blank hblanks, Text.trim_append_of_blank hb,
    Text.trim_append_of_blank hb']

theorem preludeOf_append {dialect : Dialect} {next : Option Char} {before body : List Token}
    (hbefore : ∀ t, before.getLast? = some t → t.isStructure = true)
    (hbody : IsBody dialect next body) :
    preludeOf dialect (before ++ body) =
      Text.trim (Uncommented.ofText dialect 0 (coreOf body)).text := by
  rw [preludeOf, rtakeWhile_eq_of_starts hbefore
    fun t ht => Token.isStructure_eq_false (hbody.inside t ht), trim_uncommented_coreOf hbody.fits]

/-! ## Declarations inside their blocks -/

/-- The declaration stands in one statement of the tokens, and its selectors are the preludes of
the blocks that are open before that statement. -/
def Declaration.InBlocks (dialect : Dialect) (ts : List Token) (d : Declaration) : Prop :=
  ∃ before body after fronts, ts = before ++ body ++ after ∧ IsStatement before body after ∧
    (spelling before).length < d.span.start ∧ d.span.start < d.span.stop ∧
    d.span.stop ≤ (spelling (before ++ body)).length ∧
    OpenBlocks before fronts ∧ d.selectors = fronts.map (preludeOf dialect)

/-- What holds before each statement: the source up to it is `before`, and the stack holds the
preludes of the blocks that are open there. -/
structure Reached (dialect : Dialect) (before : List Token) (offset : Nat) (blocks : List Text) :
    Prop where
  offset_eq : offset = (spelling before).length
  starts : ∀ t, before.getLast? = some t → t.isStructure = true
  nested : ∃ fronts, Nested before fronts ∧ blocks = fronts.map (preludeOf dialect)

namespace Reached

theorem start (dialect : Dialect) : Reached dialect [] 0 [] :=
  ⟨rfl, by simp, [], .outside (closes_nil.2 rfl), rfl⟩

variable {dialect : Dialect} {before body : List Token} {offset : Nat} {blocks : List Text}
  {next : Option Char}

theorem length_concat (before body : List Token) {t : Token} (ht : t.text.length = 1) :
    (spelling before).length + (spelling body).length + 1 =
      (spelling (before ++ body ++ [t])).length := by
  rw [spelling_append, spelling_append, spelling_cons, spelling_nil, List.append_nil,
    List.length_append, List.length_append, ht]

theorem separator (h : Reached dialect before offset blocks) (hbody : IsBody dialect next body) :
    Reached dialect (before ++ body ++ [.separator]) (offset + (spelling body).length + 1)
      blocks := by
  obtain ⟨fronts, hnested, hblocks⟩ := h.nested
  refine ⟨?_, by simp [Token.isStructure], fronts, ?_, hblocks⟩
  · rw [h.offset_eq]
    exact length_concat before body rfl
  · exact (hnested.append (closes_of_inside hbody.inside)).append (closes_of_ne (by simp))

theorem closing {prelude : Text} (h : Reached dialect before offset (blocks ++ [prelude]))
    (hbody : IsBody dialect next body) :
    Reached dialect (before ++ body ++ [.closing]) (offset + (spelling body).length + 1)
      blocks := by
  obtain ⟨fronts, hnested, hblocks⟩ := h.nested
  obtain ⟨outer, front, rfl, hmap⟩ : ∃ outer front, fronts = outer ++ [front] ∧
      outer.map (preludeOf dialect) = blocks := by
    rcases List.eq_nil_or_concat' fronts with rfl | ⟨outer, front, rfl⟩
    · simp at hblocks
    · rw [List.map_append, List.map_singleton] at hblocks
      exact ⟨outer, front, rfl, (List.append_inj' hblocks rfl).1.symm⟩
  refine ⟨?_, by simp [Token.isStructure], outer, ?_, hmap.symm⟩
  · rw [h.offset_eq]
    exact length_concat before body rfl
  · exact (hnested.append (closes_of_inside hbody.inside)).concat_closing

theorem opening (h : Reached dialect before offset blocks) (hbody : IsBody dialect next body) :
    Reached dialect (before ++ body ++ [.opening]) (offset + (spelling body).length + 1)
      (blocks ++ [Text.trim (Uncommented.ofText dialect 0 (coreOf body)).text]) := by
  obtain ⟨fronts, hnested, hblocks⟩ := h.nested
  refine ⟨?_, by simp [Token.isStructure], fronts ++ [before ++ body], ?_, ?_⟩
  · rw [h.offset_eq]
    exact length_concat before body rfl
  · exact (hnested.append (closes_of_inside hbody.inside)).concat_opening
  · rw [List.map_append, List.map_singleton, preludeOf_append h.starts hbody, hblocks]

/-- A statement that is a declaration is one inside the blocks it is read in. -/
theorem inBlocks (h : Reached dialect before offset blocks) (hbody : IsBody dialect next body)
    {after : List Token} (hafter : ∀ t, after.head? = some t → t.isStructure = true)
    {line : Nat} {stop : Stop} {d : Declaration}
    (hd : d ∈ (Statement.declaration? dialect offset line blocks ⟨body, stop⟩).toList) :
    d.InBlocks dialect (before ++ body ++ after) := by
  obtain ⟨fronts, hnested, hblocks⟩ := h.nested
  obtain ⟨hstart, hlt, hstop⟩ := bounds_of_declaration? (Option.mem_toList.1 hd)
  obtain ⟨_, _, _, _, _, _, hmeaning, _⟩ := exists_of_declaration? (Option.mem_toList.1 hd)
  have hinside := fun t ht => Token.isStructure_eq_false (hbody.inside t ht)
  rw [h.offset_eq] at hstart hstop
  refine ⟨before, body, after, fronts, rfl, ⟨h.starts, hinside, hafter⟩, hstart, hlt, ?_,
    hnested.openBlocks, ?_⟩
  · rwa [spelling_append, List.length_append]
  · rw [← hblocks]
    exact congrArg Meaning.selectors hmeaning

end Reached

/-- **Every declaration is inside its blocks.**  The induction goes along the statements of the
source. -/
theorem inBlocks_of_reading {dialect : Dialect} {offset : Nat} {blocks : List Text}
    {ts : List Token} {ds : List Declaration} (h : Reading dialect offset blocks ts ds)
    {before : List Token} (hreached : Reached dialect before offset blocks) :
    ∀ d ∈ ds, d.InBlocks dialect (before ++ ts) := by
  induction h generalizing before with
  | finish hbody =>
    intro d hd
    rw [← List.append_nil (_ ++ _)]
    exact hreached.inBlocks hbody (by simp) hd
  | separator hbody hdepth h ih =>
    intro d hd
    rcases List.mem_append.1 hd with hd | hd
    · rw [← List.append_assoc]
      exact hreached.inBlocks hbody (by simp [Token.isStructure]) hd
    · have hrest := ih (hreached.separator hbody) d hd
      rwa [List.append_assoc, List.append_assoc] at hrest
  | closing hbody hdepth h ih =>
    intro d hd
    rcases List.mem_append.1 hd with hd | hd
    · rw [← List.append_assoc]
      exact hreached.inBlocks hbody (by simp [Token.isStructure]) hd
    · have hrest := ih (hreached.closing hbody) d hd
      rwa [List.append_assoc, List.append_assoc] at hrest
  | opening hbody hdepth h ih =>
    intro d hd
    have hrest := ih (hreached.opening hbody) d hd
    rwa [List.append_assoc, List.append_assoc] at hrest

/-- **The accepted sources are the balanced ones, and the parser knows the blocks.**  A source is
accepted exactly when the rules read it, so that every comment, string and interpolation in it
ends, and the braces outside parentheses are balanced.  Each declaration of an accepted source
stands in one of its statements, and its selectors are the preludes of exactly the blocks that are
open there, outermost first. -/
theorem parse_iff_balanced (dialect : Dialect) (source : Text) :
    ((∃ doc, Document.parse dialect source = .ok doc) ↔
      ∃ ts, Reads dialect 0 source ts ∧ Closes Token.opening .closing 0 ts) ∧
    ∀ doc ts, Document.parse dialect source = .ok doc → Reads dialect 0 source ts →
      ∀ d ∈ doc.declarations, d.InBlocks dialect ts := by
  refine ⟨exists_parse_iff, ?_⟩
  intro doc ts hdoc hreads d hd
  obtain ⟨rfl, -⟩ := reads_iff.1 hreads
  obtain ⟨-, -, hreading⟩ := reading_of_parse hdoc
  exact inBlocks_of_reading hreading (Reached.start dialect) d hd

/-- Braces in a comment, a string, an interpolation or parentheses are no blocks. -/
theorem parse_iff_balanced_nested : ∃ source doc ts,
    source =
      "@media (w\x7b) \x7b /*\x7d*/ .a#\x7bb\x7d //\x7d\n c \x7b d: \"\x7d\" \x7d e: f \x7d".toList ∧
    Document.parse .scss source = .ok doc ∧ Reads .scss 0 source ts ∧
    doc.declarations.map Declaration.selectors =
      [["@media (w\x7b)".toList, ".a#\x7bb\x7d \n c".toList], ["@media (w\x7b)".toList]] ∧
    ∀ d ∈ doc.declarations, d.InBlocks .scss ts := by
  have hdoc : Document.parse .scss
      "@media (w\x7b) \x7b /*\x7d*/ .a#\x7bb\x7d //\x7d\n c \x7b d: \"\x7d\" \x7d e: f \x7d".toList = .ok
      ⟨"@media (w\x7b) \x7b /*\x7d*/ .a#\x7bb\x7d //\x7d\n c \x7b d: \"\x7d\" \x7d e: f \x7d".toList,
        [{ declaration := ⟨"d".toList, "\"\x7d\"".toList, 2,
            ["@media (w\x7b)".toList, ".a#\x7bb\x7d \n c".toList], ⟨39, 42⟩, []⟩ },
          { declaration :=
            ⟨"e".toList, "f".toList, 2, ["@media (w\x7b)".toList], ⟨48, 49⟩, []⟩ }]⟩ := by
    decide +kernel
  obtain ⟨haccepted, hblocks⟩ := parse_iff_balanced .scss
    "@media (w\x7b) \x7b /*\x7d*/ .a#\x7bb\x7d //\x7d\n c \x7b d: \"\x7d\" \x7d e: f \x7d".toList
  obtain ⟨ts, hreads, -⟩ := haccepted.1 ⟨_, hdoc⟩
  exact ⟨_, _, ts, rfl, hdoc, hreads, rfl, hblocks _ ts hdoc hreads⟩

end StyleLift.Stylesheet
