import StyleLift.Proofs.Stylesheet.ClosedText

/-!
# The grammar of stylesheets

A stylesheet is a list of items: declarations, statements that start with `@`, and rules with
items of their own.  This file says how such a tree is written, with blanks wherever blanks may
stand, and that reading what is written gives the declarations of the tree in the order in which
they stand, each with its property, its value and the preludes around it.

The parts of an item carry what makes them readable: a name is a property name, a value is
closed, trimmed, not empty and without a flag at its end, and so on.

* `Item`, `Item.meanings`: the trees, and what they say.
* `Prints`: how a list of items is written.
* `Says.declaration`, `Says.block`, `Says.blanks_closing`: reading one item.
* `says_of_prints`: reading all items, whatever follows.
-/

namespace StyleLift.Stylesheet

/-! ## Statements without comments -/

section

variable {dialect : Dialect} {ts : List Token} {lead trail : Text} {next : Option Char}

/-- Settled tokens between plain characters are a statement. -/
theorem Settled.isBody (h : Settled dialect 0 ts) (hlead : ∀ c ∈ lead, isPlain c = true)
    (htrail : ∀ c ∈ trail, isPlain c = true) (hstar : next ≠ some '*') (hslash : next ≠ some '/')
    (hhash : dialect = .scss → next = some '{' → (spelling ts).getLast? ≠ some '#') :
    IsBody dialect next (lead.map .glyph ++ ts ++ trail.map .glyph) := by
  have hleadPlain : ∀ t ∈ lead.map Token.glyph, t.Plain := fun _ => plain_of_mem_map_glyph hlead
  have htrailPlain : ∀ t ∈ trail.map Token.glyph, t.Plain := fun _ => plain_of_mem_map_glyph htrail
  have hnext : ∀ c, isPlain c = false → next ≠ some c → trail.head?.or next ≠ some c := by
    intro c hc hne heq
    rcases Option.or_eq_some_iff.1 heq with heq | ⟨-, heq⟩
    · rw [htrail c (List.mem_of_head? heq)] at hc
      exact absurd hc (by decide)
    · exact hne heq
  refine ⟨?_, ?_⟩
  · rw [fitsAll_append, fitsAll_append, finalDepth_of_plain hleadPlain, spelling_map_glyph]
    refine ⟨⟨fitsAll_of_plain hleadPlain _ _ _, fitsAll_before h.simple h.fits
      (hnext _ (by decide) hstar) (hnext _ (by decide) hslash) ?_⟩,
      fitsAll_of_plain htrailPlain _ _ _⟩
    cases dialect with
    | css => exact fun hlexis => absurd hlexis Bool.false_ne_true
    | scss =>
      intro _ hbrace
      refine hhash rfl (Classical.byContradiction fun hne => ?_)
      exact hnext _ (by decide) hne hbrace
  · intro t ht
    simp only [List.mem_append] at ht
    rcases ht with (ht | ht) | ht
    · exact (hleadPlain t ht).simple.inside
    · exact (h.simple t ht).1.inside
    · exact (htrailPlain t ht).simple.inside

theorem Settled.finalDepth_eq (h : Settled dialect 0 ts) (hlead : ∀ c ∈ lead, isPlain c = true)
    (htrail : ∀ c ∈ trail, isPlain c = true) :
    finalDepth 0 (lead.map .glyph ++ ts ++ trail.map .glyph) = 0 := by
  rw [finalDepth_append, finalDepth_append,
    finalDepth_of_plain fun _ => plain_of_mem_map_glyph hlead, h.closed,
    finalDepth_of_plain fun _ => plain_of_mem_map_glyph htrail]

theorem Settled.simple_between (h : Settled dialect 0 ts) (lead trail : Text) :
    ∀ t ∈ lead.map .glyph ++ ts ++ trail.map .glyph, t.Simple ∧ t.isComment = false := by
  intro t ht
  simp only [List.mem_append, List.mem_map] at ht
  rcases ht with (⟨c, -, rfl⟩ | ht) | ⟨c, -, rfl⟩
  · exact ⟨trivial, rfl⟩
  · exact h.simple t ht
  · exact ⟨trivial, rfl⟩

/-- Looking for comments finds none in them. -/
theorem Settled.spelling_bare_tokens (h : Settled dialect 0 ts)
    (hlead : ∀ c ∈ lead, isPlain c = true) (htrail : ∀ c ∈ trail, isPlain c = true) :
    spelling (bare none (tokens (.ofComments dialect) 0 (lead ++ spelling ts ++ trail))) =
      lead ++ spelling ts ++ trail := by
  have hsimple := h.simple_between lead trail
  have hbody : IsBody dialect none (lead.map .glyph ++ ts ++ trail.map .glyph) :=
    h.isBody hlead htrail (by simp) (by simp) fun _ hbrace => absurd hbrace (by simp)
  have hread := tokens_spelling (fitsAll_ofComments hsimple hbody.fits)
  rw [spelling_append, spelling_append, spelling_map_glyph, spelling_map_glyph] at hread
  rw [hread, bare_eq_self fun t ht => (hsimple t ht).2, spelling_append, spelling_append,
    spelling_map_glyph, spelling_map_glyph]

end

/-- Blanks in front of a statement do not belong to it. -/
theorem coreOf_append_of_blank {b : Text} (hb : Text.isBlankText b = true) (ts : List Token) :
    coreOf (b.map .glyph ++ ts) = coreOf ts := by
  rw [coreOf, coreOf, List.dropWhile_append_of_pos]
  intro t ht
  obtain ⟨c, hc, rfl⟩ := List.mem_map.1 ht
  exact Text.isBlank_of_mem hb hc

/-- A statement that starts with no blank and has no comment is all there is. -/
theorem coreOf_eq_spelling {ts : List Token} (hts : ∀ t ∈ ts, t.Simple ∧ t.isComment = false)
    (h : ∀ c, (spelling ts).head? = some c → Text.isBlank c = false) :
    coreOf ts = spelling ts := by
  cases ts with
  | nil => rfl
  | cons t ts =>
    rw [List.forall_mem_cons] at hts
    rw [coreOf, List.dropWhile_cons_of_neg]
    cases t with
    | glyph c =>
      rw [Token.isFiller, h c rfl]
      exact Bool.false_ne_true
    | quoted s => exact Bool.false_ne_true
    | comment => exact absurd hts.1.2.symm Bool.false_ne_true
    | interpolation | opening | closing | separator | unterminated => exact hts.1.1.elim

/-- Settled tokens behind blanks, up to the end of the statement. -/
theorem Settled.coreOf_eq {dialect : Dialect} {ts : List Token} (h : Settled dialect 0 ts)
    {b trail : Text} (hb : Text.isBlankText b = true)
    (hstart : ∀ c, (spelling ts ++ trail).head? = some c → Text.isBlank c = false) :
    coreOf (b.map .glyph ++ ts ++ trail.map .glyph) = spelling ts ++ trail := by
  have hsimple : ∀ t ∈ ts ++ trail.map .glyph, t.Simple ∧ t.isComment = false :=
    h.simple_between [] trail
  rw [List.append_assoc, coreOf_append_of_blank hb, coreOf_eq_spelling hsimple, spelling_append,
    spelling_map_glyph]
  rwa [spelling_append, spelling_map_glyph]

theorem coreOf_map_glyph_of_blank {b : Text} (hb : Text.isBlankText b = true) :
    coreOf (b.map .glyph) = [] := by
  have h := coreOf_append_of_blank hb []
  rwa [List.append_nil] at h

/-- Blanks are a statement that says nothing. -/
theorem isBody_map_glyph_of_blank {b : Text} (hb : Text.isBlankText b = true) (dialect : Dialect)
    (next : Option Char) : IsBody dialect next (b.map .glyph) ∧ finalDepth 0 (b.map .glyph) = 0 := by
  have hplain : ∀ t ∈ b.map Token.glyph, t.Plain :=
    fun _ => plain_of_mem_map_glyph (isPlain_of_isBlankText hb)
  exact ⟨⟨fitsAll_of_plain hplain _ _ _, fun t ht => (hplain t ht).simple.inside⟩,
    finalDepth_of_plain hplain 0⟩

/-! ## Reading one item -/

/-- A value as it can be written before flags. -/
structure IsReadable (dialect : Dialect) (value : Text) : Prop where
  settles : Settles dialect none 0 value
  trim_eq : Text.trim value = value
  ne_nil : value ≠ []
  not_endsInFlag : ¬ EndsInFlag value

section

variable {dialect : Dialect} {blocks : List Text} {b₀ b₁ b₂ rest : Text}
  {meanings : List Meaning} {ts : List Token}

/-- A declaration, with blanks around its parts and flags behind its value. -/
theorem Says.declaration {name value flags : Text} (hname : isPropertyName name = true)
    (h₀ : Text.isBlankText b₀ = true) (h₁ : Text.isBlankText b₁ = true)
    (h₂ : Text.isBlankText b₂ = true) (hvalue : IsReadable dialect value)
    (hflags : FlagTail flags) (hrest : Says dialect blocks rest meanings) :
    Says dialect blocks (b₀ ++ name ++ b₁ ++ ':' :: (b₂ ++ value ++ flags ++ ';' :: rest))
      (⟨name, value, blocks⟩ :: meanings) := by
  obtain ⟨⟨ts, rfl, hts⟩, htrim, hne, hend⟩ := hvalue
  obtain ⟨hstart, hstop⟩ := Text.trim_eq_self_iff.1 htrim
  obtain ⟨c, name', rfl⟩ := List.exists_cons_of_ne_nil (propertyName_ne_nil hname)
  have hc : Text.isBlank c = false := isBlank_of_mem_propertyName hname List.mem_cons_self
  have hlead : ∀ d ∈ b₀ ++ (c :: (name' ++ b₁ ++ [':'] ++ b₂)), isPlain d = true := by
    intro d hd
    have hmem : d ∈ b₀ ∨ d ∈ c :: name' ∨ d ∈ b₁ ∨ d = ':' ∨ d ∈ b₂ := by
      simpa [or_assoc] using hd
    rcases hmem with hd | hd | hd | rfl | hd
    · exact isPlain_of_isBlankText h₀ d hd
    · exact isPlain_of_mem_propertyName hname hd
    · exact isPlain_of_isBlankText h₁ d hd
    · decide
    · exact isPlain_of_isBlankText h₂ d hd
  have hcore : coreOf ((b₀ ++ (c :: (name' ++ b₁ ++ [':'] ++ b₂))).map .glyph ++ ts ++
      flags.map .glyph) = c :: name' ++ b₁ ++ ':' :: (b₂ ++ spelling ts ++ flags) := by
    rw [List.map_append, List.append_assoc, List.append_assoc, coreOf_append_of_blank h₀,
      ← List.append_assoc, coreOf_eq_spelling (hts.simple_between _ _)]
    · simp
    · intro d hd
      obtain rfl := Option.some.inj hd
      exact hc
  have hmeaning : meaning? dialect blocks
      (c :: name' ++ b₁ ++ ':' :: (b₂ ++ spelling ts ++ flags)) =
        some ⟨c :: name', spelling ts, blocks⟩ := by
    refine meaning?_eq_some hname h₁ ?_ hne hstop hend hflags
    rw [hts.spelling_bare_tokens (isPlain_of_isBlankText h₂) hflags.isPlain, List.append_assoc,
      Text.trimStart_append_of_blank h₂, Text.trimStart_append_of_ne_nil hstart hne]
  have hsays := Says.separator (hts.isBody hlead hflags.isPlain (by simp) (by simp)
    fun _ hbrace => absurd hbrace (by simp)) (hts.finalDepth_eq hlead hflags.isPlain) hrest
  rw [hcore, hmeaning] at hsays
  simpa using hsays

/-- A statement that starts with `@` says nothing. -/
theorem Says.atStatement {s : Text} (h₀ : Text.isBlankText b₀ = true)
    (h₁ : Text.isBlankText b₁ = true) (hts : Settled dialect 0 ts) (hs : spelling ts = '@' :: s)
    (hrest : Says dialect blocks rest meanings) :
    Says dialect blocks (b₀ ++ spelling ts ++ b₁ ++ ';' :: rest) meanings := by
  have hlead := isPlain_of_isBlankText h₀
  have htrail := isPlain_of_isBlankText h₁
  have hcore : coreOf (b₀.map .glyph ++ ts ++ b₁.map .glyph) = '@' :: (s ++ b₁) := by
    rw [hts.coreOf_eq h₀, hs, List.cons_append]
    intro c hc
    rw [hs] at hc
    obtain rfl := Option.some.inj hc
    decide
  have hsays := Says.separator (hts.isBody hlead htrail (by simp) (by simp)
    fun _ hbrace => absurd hbrace (by simp)) (hts.finalDepth_eq hlead htrail) hrest
  rw [hcore, meaning?_at] at hsays
  simpa using hsays

/-- Blanks before the end of a block say nothing. -/
theorem Says.blanks_closing {prelude : Text} (h₀ : Text.isBlankText b₀ = true)
    (hrest : Says dialect blocks rest meanings) :
    Says dialect (blocks ++ [prelude]) (b₀ ++ '}' :: rest) meanings := by
  obtain ⟨hbody, hdepth⟩ := isBody_map_glyph_of_blank h₀ dialect (some '}')
  have hsays : Says dialect (blocks ++ [prelude]) _ _ := Says.closing hbody hdepth hrest
  rwa [coreOf_map_glyph_of_blank h₀, spelling_map_glyph] at hsays

/-- Blanks before the end of a source say nothing. -/
theorem Says.blanks_finish (h₀ : Text.isBlankText b₀ = true) : Says dialect [] b₀ [] := by
  have hsays := Says.finish (isBody_map_glyph_of_blank h₀ dialect none).1
  rwa [coreOf_map_glyph_of_blank h₀, spelling_map_glyph] at hsays

/-- A block is opened: what stands before the brace is its prelude. -/
theorem Says.block (h₀ : Text.isBlankText b₀ = true) (h₁ : Text.isBlankText b₁ = true)
    (hts : Settled dialect 0 ts) (htrim : Text.trim (spelling ts) = spelling ts)
    (hhash : dialect = .scss → (spelling ts).getLast? ≠ some '#')
    (hrest : Says dialect (blocks ++ [spelling ts]) rest meanings) :
    Says dialect blocks (b₀ ++ spelling ts ++ b₁ ++ '{' :: rest) meanings := by
  have hlead := isPlain_of_isBlankText h₀
  have htrail := isPlain_of_isBlankText h₁
  have hprelude : Text.trim (Uncommented.ofText dialect 0
      (coreOf (b₀.map .glyph ++ ts ++ b₁.map .glyph))).text = spelling ts := by
    by_cases hne : spelling ts = []
    · have hnil : ts = [] := (spelling_eq_nil_iff fun t ht => (hts.simple t ht).1).1 hne
      rw [hnil, List.append_nil, coreOf_append_of_blank h₀, coreOf_map_glyph_of_blank h₁]
      rw [Uncommented.ofText, tokens_nil]
      rfl
    · have hstart := (Text.trim_eq_self_iff.1 htrim).1
      rw [hts.coreOf_eq h₀, Uncommented.ofText, text_ofTokens]
      · have hbare : spelling (bare none (tokens (.ofComments dialect) 0
            ([] ++ spelling ts ++ b₁))) = [] ++ spelling ts ++ b₁ :=
          hts.spelling_bare_tokens (by simp) htrail
        rw [List.nil_append] at hbare
        rw [hbare]
        exact Text.trim_append_append (b := []) rfl h₁ htrim
      · rw [List.head?_append_of_ne_nil _ hne]
        exact Text.trimStart_eq_self_iff.1 hstart
  have hsays := Says.opening (hts.isBody hlead htrail (by simp) (by simp)
    fun hscss _ => hhash hscss) (hts.finalDepth_eq hlead htrail) (by rw [hprelude]; exact hrest)
  simpa using hsays

end

/-! ## Trees of items -/

/-- A property name. -/
structure PropertyName where
  text : Text
  ok : isPropertyName text = true

/-- A closed value. -/
structure ValueText (dialect : Dialect) where
  text : Text
  closed : isClosed dialect none 0 text = true
  trimmed : Text.trim text = text
  ne_nil : text ≠ []
  not_endsInFlag : ¬ EndsInFlag text

/-- A statement that starts with `@`. -/
structure AtText (dialect : Dialect) where
  text : Text
  closed : isClosed dialect none 0 text = true
  head_eq : text.head? = some '@'

/-- The prelude of a rule. -/
structure PreludeText (dialect : Dialect) where
  text : Text
  closed : isClosed dialect none 0 text = true
  trimmed : Text.trim text = text
  not_hash : dialect = .scss → text.getLast? ≠ some '#'

/-- What a stylesheet is made of. -/
inductive Item (dialect : Dialect) where
  | declaration (name : PropertyName) (value : ValueText dialect) (flags : List Flag)
  | statement (text : AtText dialect)
  | rule (prelude : PreludeText dialect) (items : List (Item dialect))

mutual

/-- What an item inside `blocks` says. -/
def Item.meanings {dialect : Dialect} (blocks : List Text) : Item dialect → List Meaning
  | .declaration name value _ => [⟨name.text, value.text, blocks⟩]
  | .statement _ => []
  | .rule prelude items => meaningsOf (blocks ++ [prelude.text]) items

/-- What items inside `blocks` say, one after the other. -/
def meaningsOf {dialect : Dialect} (blocks : List Text) : List (Item dialect) → List Meaning
  | [] => []
  | item :: items => item.meanings blocks ++ meaningsOf blocks items

end

/-- How items are written: every declaration and statement before a semicolon, every rule around
its items in braces, and blanks wherever they may stand. -/
inductive Prints {dialect : Dialect} : List (Item dialect) → Text → Prop
  | nil {b : Text} (hb : Text.isBlankText b = true) : Prints [] b
  | declaration {name : PropertyName} {value : ValueText dialect} {flags : List Flag}
    {items : List (Item dialect)} {b₀ b₁ b₂ b₃ s : Text} (h₀ : Text.isBlankText b₀ = true)
    (h₁ : Text.isBlankText b₁ = true) (h₂ : Text.isBlankText b₂ = true)
    (h₃ : Text.isBlankText b₃ = true) (h : Prints items s) :
    Prints (.declaration name value flags :: items) (b₀ ++ name.text ++ b₁ ++
      ':' :: (b₂ ++ value.text ++ (flags.flatMap Flag.text ++ b₃) ++ ';' :: s))
  | statement {text : AtText dialect} {items : List (Item dialect)} {b₀ b₁ s : Text}
    (h₀ : Text.isBlankText b₀ = true) (h₁ : Text.isBlankText b₁ = true) (h : Prints items s) :
    Prints (.statement text :: items) (b₀ ++ text.text ++ b₁ ++ ';' :: s)
  | rule {prelude : PreludeText dialect} {inner items : List (Item dialect)} {b₀ b₁ s t : Text}
    (h₀ : Text.isBlankText b₀ = true) (h₁ : Text.isBlankText b₁ = true) (hinner : Prints inner s)
    (h : Prints items t) :
    Prints (.rule prelude inner :: items) (b₀ ++ prelude.text ++ b₁ ++ '{' :: (s ++ '}' :: t))

/-- **What is written is read, whatever follows.**  The text behind the items may start with the
blanks that end them. -/
theorem says_of_prints {dialect : Dialect} {items : List (Item dialect)} {s : Text}
    (h : Prints items s) {blocks : List Text} {rest : Text} {meanings : List Meaning}
    (hrest : ∀ b, Text.isBlankText b = true → Says dialect blocks (b ++ rest) meanings) :
    Says dialect blocks (s ++ rest) (meaningsOf blocks items ++ meanings) := by
  induction h generalizing blocks rest meanings with
  | nil hb => exact hrest _ hb
  | declaration h₀ h₁ h₂ h₃ h ih =>
    rename_i name value flags items b₀ b₁ b₂ b₃ s
    have hvalue : IsReadable dialect value.text :=
      ⟨settles_of_isClosed value.closed, value.trimmed, value.ne_nil, value.not_endsInFlag⟩
    have hflags : FlagTail (flags.flatMap Flag.text ++ b₃) := ⟨flags, b₃, h₃, rfl⟩
    have hsays := Says.declaration name.ok h₀ h₁ h₂ hvalue hflags (ih hrest)
    simpa [meaningsOf, Item.meanings] using hsays
  | statement h₀ h₁ h ih =>
    rename_i text items b₀ b₁ s
    obtain ⟨ts, hts, hsettled⟩ := settles_of_isClosed text.closed
    obtain ⟨tail, htail⟩ := List.head?_eq_some_iff.1 text.head_eq
    have hsays := Says.atStatement h₀ h₁ hsettled (hts ▸ htail) (ih hrest)
    rw [← hts] at hsays
    simpa [meaningsOf, Item.meanings] using hsays
  | rule h₀ h₁ hinner h ihinner ih =>
    rename_i prelude inner items b₀ b₁ s t
    obtain ⟨ts, hts, hsettled⟩ := settles_of_isClosed prelude.closed
    have hbody : Says dialect (blocks ++ [prelude.text]) (s ++ '}' :: (t ++ rest))
        (meaningsOf (blocks ++ [prelude.text]) inner ++ (meaningsOf blocks items ++ meanings)) :=
      ihinner fun b hb => Says.blanks_closing hb (ih hrest)
    rw [hts] at hbody
    have hsays := Says.block h₀ h₁ hsettled (hts ▸ prelude.trimmed) (hts ▸ prelude.not_hash) hbody
    rw [← hts] at hsays
    simpa [meaningsOf, Item.meanings] using hsays

/-- **The grammar round trip.**  A tree of items, written in any layout, is a stylesheet, and its
declarations are those of the tree in the order in which they stand. -/
theorem parse_of_prints {dialect : Dialect} {items : List (Item dialect)} {s : Text}
    (h : Prints items s) :
    ∃ doc, Document.parse dialect s = .ok doc ∧
      doc.declarations.map Declaration.meaning = meaningsOf [] items := by
  have hfinish : ∀ b, Text.isBlankText b = true → Says dialect [] (b ++ []) [] := by
    intro b hb
    rw [List.append_nil]
    exact Says.blanks_finish hb
  have hsays := says_of_prints h hfinish
  rw [List.append_nil, List.append_nil] at hsays
  exact hsays.exists_parse

/-- Braces in a string, a flag in capitals, a semicolon and a line comment in parentheses, and a
colon in a prelude. -/
theorem parse_nested_rules :
    ∃ doc, Document.parse .scss
        "$w :\"\x7d;\" !DEFAULT;\na:hover\x7b@include m(;) ;& > b\x7bc:url(//x;\x7b);\x7d\x7d\n".toList =
          .ok doc ∧
      doc.declarations.map Declaration.meaning =
        [⟨"$w".toList, "\"\x7d;\"".toList, []⟩,
          ⟨"c".toList, "url(//x;\x7b)".toList, ["a:hover".toList, "& > b".toList]⟩] := by
  have hinner := @Prints.rule .scss ⟨"& > b".toList, by decide, by decide, by decide⟩ _ _ [] [] _ _
    rfl rfl (@Prints.declaration .scss ⟨"c".toList, by decide⟩
      ⟨"url(//x;\x7b)".toList, by decide, by decide, by decide, by decide⟩ [] _ [] [] [] [] _
      rfl rfl rfl rfl (.nil (b := []) rfl)) (.nil (b := []) rfl)
  have hitems := @Prints.declaration .scss ⟨"$w".toList, by decide⟩
    ⟨"\"\x7d;\"".toList, by decide, by decide, by decide, by decide⟩
    [⟨[' '], [], "DEFAULT".toList, rfl, rfl, by decide⟩] _ [] [' '] [] [] _ rfl rfl rfl rfl
    (@Prints.rule .scss ⟨"a:hover".toList, by decide, by decide, by decide⟩ _ _ ['\n'] [] _ _ rfl
      rfl (@Prints.statement .scss ⟨"@include m(;)".toList, by decide, rfl⟩ _ [] [' '] _ rfl rfl
        hinner) (.nil (b := ['\n']) rfl))
  exact parse_of_prints hitems

end StyleLift.Stylesheet
