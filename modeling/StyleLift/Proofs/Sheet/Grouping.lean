import StyleLift.Proofs.Sheet.Loading
import StyleLift.Proofs.Sheet.Sections
import StyleLift.Proofs.Stylesheet.Headers
import StyleLift.Proofs.Stylesheet.Locations
import StyleLift.Proofs.Stylesheet.Reuse

/-!
# Grouping is presentation

Suppose that a flat sheet is read back as its definitions.  Nothing is known of the names and
values it was made of, but each of them has been read, and what has been read is a name or a value
without structure of its own.  A value could still have left a parenthesis open.  It has not: no
line of the sheet opens or closes a block, at whatever depth it is read, so the brace at the end of
the sheet closes the rule, everything before it stands inside the rule, and inside a rule every
value closes its parentheses.

So the definitions can be read wherever they are written, in particular in sections.  The only new
text of a grouped sheet are the labels, which stand in comments.

* `FitsAll.deeper`: deeper inside parentheses the same tokens are read.
* `IsUnstructured`, `exists_tokens_lines`: lines that neither open nor close a block.
* `loads_of_parse_render`: **what is read back from a flat sheet can be written anywhere.**
* `says_sections`: sections are read one after the other.
* `grouped_sheet_loads_back`: **a grouped sheet says what the flat sheet says, if no label ends
  its comment.**
-/

namespace StyleLift.Stylesheet

/-! ## Tokens at a greater depth -/

theorem Token.depthAfter_le {t : Token} {depth depth' : Nat} (h : depth ≤ depth') :
    t.depthAfter depth ≤ t.depthAfter depth' := by
  unfold Token.depthAfter
  split <;> omega

theorem Token.Simple.fits_deeper {t : Token} (ht : t.Simple) {depth depth' : Nat}
    {next : Option Char} (hle : depth ≤ depth') (h : t.Fits (.ofStatements .css) depth next) :
    t.Fits (.ofStatements .css) depth' next := by
  cases t with
  | comment s => exact Or.inl ht
  | quoted s => exact h
  | glyph c =>
    obtain ⟨hdouble, hsingle, hstructure, hslash, hhash⟩ := h
    refine ⟨hdouble, hsingle, ?_, ?_, hhash⟩
    · intro hc
      have hdepth := hstructure hc
      omega
    · intro hc
      exact ⟨(hslash hc).1, fun hlexis => absurd hlexis Bool.false_ne_true⟩
  | interpolation | opening | closing | separator | unterminated => exact ht.elim

/-- Deeper inside parentheses the same tokens are read. -/
theorem FitsAll.deeper {ts : List Token} (hts : ∀ t ∈ ts, t.Simple) {depth depth' : Nat}
    {next : Option Char} (hle : depth ≤ depth')
    (h : FitsAll (.ofStatements .css) depth next ts) :
    FitsAll (.ofStatements .css) depth' next ts := by
  induction ts generalizing depth depth' with
  | nil => trivial
  | cons t ts ih =>
    rw [List.forall_mem_cons] at hts
    exact ⟨hts.1.fits_deeper hle h.1, ih hts.2 (Token.depthAfter_le hle) h.2⟩

/-! ## Values that have been read -/

/-- A text without structure outside parentheses, which may leave parentheses open. -/
def IsUnstructured (s : Text) : Prop :=
  ∃ ts, s = spelling ts ∧ (∀ t ∈ ts, t.Simple) ∧ FitsAll (.ofStatements .css) 0 none ts

theorem isUnstructured_of_parse {source : Text} {doc : Document}
    (h : Document.parse .css source = .ok doc) {d : Declaration} (hd : d ∈ doc.declarations) :
    isPropertyName d.property = true ∧ IsUnstructured d.value := by
  obtain ⟨front, body, back, next, blocks, stop, -, hbody, -, hfound⟩ := declaredIn_of_parse h hd
  obtain ⟨hproperty, value, hvalue, hdvalue, hfits, -⟩ :=
    exists_isValue_of_declaration? hbody hfound
  exact ⟨hproperty, bare none value, hdvalue, fun t ht => (of_mem_bare hvalue.simple ht).1,
    fitsAll_bare hvalue.simple hfits (by simp) none⟩

/-! ## Tokens that stay inside a block -/

/-- The token neither opens nor closes a block. -/
def Token.StaysInside (t : Token) : Prop := Stop.ofToken? t = none ∨ t = .separator

variable {dialect : Dialect} {blocks : List Text}

theorem selectors_of_mem_meanings {s : Statement} {m : Meaning}
    (hm : m ∈ s.meanings dialect blocks) : m.selectors = blocks := by
  rw [Statement.meanings] at hm
  split at hm
  · simp at hm
  · obtain ⟨name, tail, -, -, -, rfl⟩ := meaning?_eq_some_iff.1 (Option.mem_toList.1 hm)
    rfl

/-- The one stop that stays inside a block. -/
theorem eq_separator_of_staysInside {t : Token} {stop : Stop} (ht : t.StaysInside)
    (hstop : Stop.ofToken? t = some stop) : t = .separator ∧ stop = .separator := by
  rcases ht with hnone | rfl
  · exact absurd (hnone.symm.trans hstop) (by simp)
  · exact ⟨rfl, (Option.some.inj hstop).symm⟩

/-- A source that ends inside a block is refused. -/
theorem meanings_of_staysInside {ts : List Token} (hts : ∀ t ∈ ts, t.StaysInside)
    (hblocks : blocks ≠ []) : meanings? dialect blocks (Statement.ofTokens ts) = none := by
  induction ts using statement_induction with
  | finish body hbody =>
    rw [ofTokens_of_inside hbody, meanings?, if_pos rfl, if_neg (by simpa using hblocks)]
  | step body t stop rest hbody hstop ih =>
    rw [List.forall_mem_append, List.forall_mem_cons] at hts
    obtain ⟨rfl, rfl⟩ := eq_separator_of_staysInside hts.2.1 hstop
    rw [ofTokens_append_cons hbody hstop, meanings?, if_neg (by simp)]
    simp only [Statement.blocksBehind?, Option.bind_some, ih hts.2.2, Option.map_none]

/-- Everything up to the brace that closes a block is said inside it. -/
theorem selectors_of_meanings {ts rest : List Token} (hts : ∀ t ∈ ts, t.StaysInside)
    {ms : List Meaning}
    (h : meanings? dialect blocks (Statement.ofTokens (ts ++ .closing :: rest)) = some ms) :
    ∃ early later, ms = early ++ later ∧ (∀ m ∈ early, m.selectors = blocks) ∧
      meanings? dialect blocks.dropLast (Statement.ofTokens rest) = some later := by
  induction ts using statement_induction generalizing ms with
  | finish body hbody =>
    rw [ofTokens_append_cons hbody rfl, meanings?, if_neg (by simp)] at h
    obtain ⟨inner, hinner, h⟩ := Option.bind_eq_some_iff.1 h
    obtain ⟨later, hlater, rfl⟩ := Option.map_eq_some_iff.1 h
    simp only [Statement.blocksBehind?] at hinner
    split at hinner
    · exact absurd hinner (by simp)
    · obtain rfl := Option.some.inj hinner
      exact ⟨_, later, rfl, fun m hm => selectors_of_mem_meanings hm, hlater⟩
  | step body t stop more hbody hstop ih =>
    rw [List.forall_mem_append, List.forall_mem_cons] at hts
    obtain ⟨rfl, rfl⟩ := eq_separator_of_staysInside hts.2.1 hstop
    rw [List.append_assoc, List.cons_append, ofTokens_append_cons hbody hstop, meanings?,
      if_neg (by simp)] at h
    simp only [Statement.blocksBehind?, Option.bind_some] at h
    obtain ⟨ms, hms, rfl⟩ := Option.map_eq_some_iff.1 h
    obtain ⟨early, later, rfl, hearly, hlater⟩ := ih hts.2.2 hms
    refine ⟨_ ++ early, later, (List.append_assoc _ _ _).symm, ?_, hlater⟩
    exact List.forall_mem_append.2 ⟨fun m hm => selectors_of_mem_meanings hm, hearly⟩

end StyleLift.Stylesheet

namespace StyleLift.Sheet

open Stylesheet

/-! ## The lines of a sheet -/

/-- At whatever depth it is read, a line of a sheet neither opens nor closes a block. -/
theorem exists_tokens_line {d : Definition} (hname : isPropertyName d.name = true)
    (hvalue : IsUnstructured d.value) (depth : Nat) :
    ∃ ts, spelling ts = definitionLine d ∧ (∀ next, FitsAll (.ofStatements .css) depth next ts) ∧
      ∀ t ∈ ts, t.StaysInside := by
  obtain ⟨value, hvalue, hsimple, hfits⟩ := hvalue
  have hplain : ∀ t ∈ ("  ".toList ++ d.name ++ ": ".toList).map Token.glyph, t.Plain := by
    have hindent : "  ".toList.all isPlain = true := by decide
    have hcolon : ": ".toList.all isPlain = true := by decide
    refine fun t => plain_of_mem_map_glyph ?_
    simp only [List.forall_mem_append]
    exact ⟨⟨List.all_eq_true.1 hindent, fun c hc => isPlain_of_mem_propertyName hname hc⟩,
      List.all_eq_true.1 hcolon⟩
  have hnewline : (Token.glyph '\n').Plain := isPlain_of_isBlank (by decide)
  -- inside parentheses the semicolon is a character like any other
  let stop := structural (finalDepth depth value) .separator ';'
  have htext : stop.text = [';'] := text_structural rfl _
  have hstop : stop.StaysInside := by
    unfold stop structural
    split
    · exact Or.inr rfl
    · exact Or.inl rfl
  refine ⟨("  ".toList ++ d.name ++ ": ".toList).map .glyph ++ (value ++ [stop, .glyph '\n']), ?_,
    ?_, ?_⟩
  · rw [definitionLine, hvalue]
    simp [htext]
  · intro next
    rw [fitsAll_append, fitsAll_append, finalDepth_of_plain hplain]
    refine ⟨fitsAll_of_plain hplain _ _ _, ?_, fits_structural id (by simp), hnewline.fits _ _ _,
      trivial⟩
    refine (hfits.deeper hsimple (Nat.zero_le depth)).of_next
      (fun t ht => (hsimple t ht).isTerminated) ?_
    simp [htext]
  · simp only [List.forall_mem_append, List.forall_mem_cons]
    exact ⟨fun t ht => Or.inl (hplain t ht).simple.inside, fun t ht => Or.inl (hsimple t ht).inside,
      hstop, Or.inl rfl, by simp⟩

theorem exists_tokens_lines {ds : List Definition}
    (hds : ∀ d ∈ ds, isPropertyName d.name = true ∧ IsUnstructured d.value) (depth : Nat)
    (next : Option Char) :
    ∃ ts, spelling ts = lines ds ∧ FitsAll (.ofStatements .css) depth next ts ∧
      ∀ t ∈ ts, t.StaysInside := by
  induction ds generalizing depth with
  | nil => exact ⟨[], rfl, trivial, by simp⟩
  | cons d ds ih =>
    rw [List.forall_mem_cons] at hds
    obtain ⟨line, hline, hfits, hinside⟩ := exists_tokens_line hds.1.1 hds.1.2 depth
    obtain ⟨ts, hts, hrest, hall⟩ := ih hds.2 (finalDepth depth line)
    refine ⟨line ++ ts, ?_, fitsAll_append.2 ⟨hfits _, hrest⟩,
      List.forall_mem_append.2 ⟨hinside, hall⟩⟩
    rw [spelling_append, hline, hts]
    rfl

/-- The prelude of the rule is read first. -/
theorem statementsOf_rootRule (body : Text) :
    statementsOf .css (rootRule body) =
      ⟨":root ".toList.map .glyph, .opening⟩ ::
        statementsOf .css ('\n' :: (body ++ ['}', '\n'])) := by
  have hplain : ":root ".toList.all isPlain = true := by decide
  have hchars : ∀ c ∈ ":root ".toList, isPlain c = true := List.all_eq_true.1 hplain
  have htokens : ∀ t ∈ ":root ".toList.map Token.glyph, t.Plain :=
    fun _ => plain_of_mem_map_glyph hchars
  have hbody : IsBody .css (some '{') (":root ".toList.map .glyph) :=
    ⟨fitsAll_of_plain htokens _ _ _, fun t ht => (htokens t ht).simple.inside⟩
  have htext : rootRule body = spelling (":root ".toList.map .glyph) ++
      '{' :: '\n' :: (body ++ ['}', '\n']) := by
    unfold rootRule
    simp
  rw [htext]
  exact statementsOf_append_cons hbody (finalDepth_of_plain htokens 0) nextToken_structural.1 rfl
    rfl

/-- **Everything that a flat sheet says, it says inside its rule.** -/
theorem selectors_of_parse {ds : List Definition}
    (hds : ∀ d ∈ ds, isPropertyName d.name = true ∧ IsUnstructured d.value) {doc : Document}
    (h : Document.parse .css (rootRule (lines ds)) = .ok doc) :
    ∀ m ∈ doc.declarations.map Declaration.meaning, m.selectors = [":root".toList] := by
  obtain ⟨ts, hts, hfits, hinside⟩ := exists_tokens_lines hds 0 (some '}')
  have hms := exists_parse_iff_meanings.1 ⟨doc, h, rfl⟩
  have hprelude : Statement.prelude .css ⟨":root ".toList.map .glyph, .opening⟩ =
      ":root".toList := by
    decide +kernel
  rw [statementsOf_rootRule, meanings?, if_neg (by simp)] at hms
  simp only [Statement.blocksBehind?, Statement.meanings, hprelude, if_true, List.nil_append,
    Option.bind_some, Option.map_id'] at hms
  have hnewline : (Token.glyph '\n').Plain := isPlain_of_isBlank (by decide)
  have hbrace : (structural (finalDepth 0 ts) .closing '}').text = ['}'] := text_structural rfl _
  have htokens : tokens (.ofStatements .css) 0 ('\n' :: (lines ds ++ ['}', '\n'])) =
      .glyph '\n' :: (ts ++ [structural (finalDepth 0 ts) .closing '}', .glyph '\n']) := by
    have htext : '\n' :: (lines ds ++ ['}', '\n']) = spelling (.glyph '\n' ::
        (ts ++ [structural (finalDepth 0 ts) .closing '}', .glyph '\n'])) := by
      simp [hts, hbrace]
    rw [htext]
    refine tokens_spelling ⟨hnewline.fits _ _ _, ?_⟩
    rw [hnewline.depthAfter_eq, fitsAll_append]
    refine ⟨?_, fits_structural id (by simp), hnewline.fits _ _ _, trivial⟩
    simpa [hbrace] using hfits
  have hall : ∀ t ∈ .glyph '\n' :: ts, t.StaysInside := List.forall_mem_cons.2 ⟨Or.inl rfl, hinside⟩
  rw [statementsOf, htokens] at hms
  by_cases hdepth : finalDepth 0 ts = 0
  · rw [structural, if_pos hdepth, ← List.cons_append] at hms
    obtain ⟨early, later, heq, hearly, hlater⟩ := selectors_of_meanings hall hms
    have hnothing : meanings? .css [] (Statement.ofTokens [.glyph '\n']) = some [] := by
      decide +kernel
    obtain rfl := Option.some.inj (hnothing.symm.trans hlater)
    rw [heq, List.append_nil]
    exact hearly
  · -- the brace stands inside a parenthesis, and the rule is never closed
    rw [structural, if_neg hdepth, ← List.cons_append, meanings_of_staysInside] at hms
    · exact absurd hms (by simp)
    · refine List.forall_mem_append.2 ⟨hall, ?_⟩
      simp [Token.StaysInside, Stop.ofToken?]
    · simp

/-- **What is read back from a flat sheet can be written anywhere.** -/
theorem loads_of_parse_render {entries : List Variable} {root : Path} {doc : Document}
    (h : Document.parse .css (render entries root false) = .ok doc)
    (hpairs : doc.declarations.map (fun d => (d.property, d.value)) =
      (definitions (fun _ => []) entries).map fun d => (d.name, d.value)) :
    ∀ d ∈ definitions (fun _ => []) entries, d.Loads .css := by
  have hread : ∀ d ∈ definitions (fun _ => []) entries,
      ∃ e ∈ doc.declarations, e.property = d.name ∧ e.value = d.value := by
    intro d hd
    have hpair := List.mem_map_of_mem (f := fun d : Definition => (d.name, d.value)) hd
    rw [← hpairs] at hpair
    obtain ⟨e, he, heq⟩ := List.mem_map.1 hpair
    exact ⟨e, he, Prod.mk.inj heq⟩
  have hunstructured : ∀ d ∈ definitions (fun _ => []) entries,
      isPropertyName d.name = true ∧ IsUnstructured d.value := by
    intro d hd
    obtain ⟨e, he, hproperty, hvalue⟩ := hread d hd
    rw [← hproperty, ← hvalue]
    exact isUnstructured_of_parse h he
  have hselectors := selectors_of_parse hunstructured h
  intro d hd
  obtain ⟨e, he, hproperty, hvalue⟩ := hread d hd
  have hblock : e.selectors ≠ [] := by
    rw [show e.selectors = [":root".toList] from hselectors _ (List.mem_map_of_mem he)]
    simp
  obtain ⟨hname, hreadable⟩ := isReadable_of_reading (reading_of_parse h).2.2 he hblock
  rw [hproperty] at hname
  rw [hvalue] at hreadable
  exact ⟨hname, hreadable⟩

/-! ## Sections -/

variable {dialect : Dialect} {blocks : List Text} {rest : Text} {meanings : List Meaning}

/-- A section says what its lines say. -/
theorem says_section {ds : List Definition} (hds : ∀ d ∈ ds, d.Loads dialect) {label : Text}
    (hlabel : ¬ ['*', '/'] <:+: label)
    (hrest : ∀ b, Text.isBlankText b = true → Says dialect blocks (b ++ rest) meanings) {b : Text}
    (hb : Text.isBlankText b = true) :
    Says dialect blocks (b ++ (sectionText ds label ++ rest))
      ((ds.filter fun d => d.group == label).map (Definition.meaning blocks) ++ meanings) := by
  have hfilter : ∀ d ∈ ds.filter (fun d => d.group == label), d.Loads dialect :=
    fun d hd => hds d (List.mem_filter.1 hd).1
  have hlines := says_lines hfilter hrest isBlankText_newline
  rw [List.singleton_append] at hlines
  rw [sectionText, List.append_assoc]
  exact says_commentLine hlabel hlines hb

/-- Sections are read one after the other, and the empty line between them is blank. -/
theorem says_sections {ds : List Definition} (hds : ∀ d ∈ ds, d.Loads dialect)
    {labels : List Text} (hlabels : ∀ label ∈ labels, ¬ ['*', '/'] <:+: label)
    (hrest : ∀ b, Text.isBlankText b = true → Says dialect blocks (b ++ rest) meanings) {b : Text}
    (hb : Text.isBlankText b = true) :
    Says dialect blocks (b ++ (Text.joined ['\n'] (labels.map (sectionText ds)) ++ rest))
      ((labels.flatMap fun label => ds.filter fun d => d.group == label).map
        (Definition.meaning blocks) ++ meanings) := by
  induction labels generalizing b with
  | nil => exact hrest b hb
  | cons label labels ih =>
    rw [List.forall_mem_cons] at hlabels
    rw [List.flatMap_cons, List.map_append, List.append_assoc]
    cases labels with
    | nil => exact says_section hds hlabels.1 hrest hb
    | cons second labels =>
      have htext : Text.joined ['\n'] ((label :: second :: labels).map (sectionText ds)) ++ rest =
          sectionText ds label ++ ('\n' ::
            (Text.joined ['\n'] ((second :: labels).map (sectionText ds)) ++ rest)) := by
        simp [Text.joined]
      rw [htext]
      refine says_section hds hlabels.1 ?_ hb
      intro b hb
      have hline : Text.isBlankText (b ++ ['\n']) = true :=
        Text.isBlankText_append.2 ⟨hb, isBlankText_newline⟩
      have hlater := ih hlabels.2 hline
      rwa [List.append_assoc, List.singleton_append] at hlater

/-- The definitions differ from those of the flat sheet only in their groups. -/
theorem meanings_definitions (groupOf groupOf' : Variable → Text) (entries : List Variable) :
    (definitions groupOf entries).map (Definition.meaning blocks) =
      (definitions groupOf' entries).map (Definition.meaning blocks) := by
  rw [definitions_eq, definitions_eq, List.map_map, List.map_map]
  rfl

theorem loads_definitions {groupOf : Variable → Text} {entries : List Variable}
    (h : ∀ d ∈ definitions groupOf entries, d.Loads dialect) (groupOf' : Variable → Text) :
    ∀ d ∈ definitions groupOf' entries, d.Loads dialect := by
  intro d hd
  rw [definitions_eq] at hd
  obtain ⟨name, hname, rfl⟩ := List.mem_map.1 hd
  have hsame : ⟨name, lastValue entries name, firstGroup groupOf entries name⟩ ∈
      (names entries).map fun name => (⟨name, lastValue entries name,
        firstGroup groupOf entries name⟩ : Definition) :=
    List.mem_map_of_mem hname
  rw [← definitions_eq] at hsame
  exact ⟨(h _ hsame).name, (h _ hsame).value⟩

/-- **A grouped sheet says what the flat sheet says, if no label ends its comment.** -/
theorem grouped_sheet_loads_back {entries : List Variable} {root : Path} {doc : Document}
    (h : Document.parse .css (render entries root false) = .ok doc)
    (hpairs : doc.declarations.map (fun d => (d.property, d.value)) =
      (definitions (fun _ => []) entries).map fun d => (d.name, d.value))
    (hlabels : ∀ label ∈ groups (definitions (fun v => folderGroup v.path root) entries),
      ¬ ['*', '/'] <:+: label) :
    ∃ doc', Document.parse .css (render entries root true) = .ok doc' ∧
      (doc'.declarations.map Declaration.meaning).Perm
        ((definitions (fun _ => []) entries).map (Definition.meaning [":root".toList])) := by
  have hloads := loads_definitions (loads_of_parse_render h hpairs)
    fun v => folderGroup v.path root
  have hsections := says_sections hloads hlabels (fun _ hb => says_end ":root".toList hb)
    isBlankText_newline
  rw [List.append_nil, List.singleton_append] at hsections
  obtain ⟨doc', hdoc', hmeanings⟩ := (says_rootRule hsections).exists_parse
  have hnodup : (groups (definitions (fun v => folderGroup v.path root) entries)).Nodup := by
    rw [groups_eq]
    exact nodup_eraseDups _
  refine ⟨doc', hdoc', ?_⟩
  rw [hmeanings, meanings_definitions (fun _ => []) fun v => folderGroup v.path root]
  exact (perm_flatMap_filter hnodup fun d hd => mem_groups hd).map _

/-- A value with a semicolon in parentheses and one with a brace in a string, from two folders. -/
theorem grouped_sheet_loads_back_from_folders :
    ∃ doc, Document.parse .css (render
        [⟨"color".toList, "a(;)".toList, "--x".toList, ⟨"/p/f/1.css".toList⟩, 1⟩,
          ⟨"color".toList, "'\x7d'".toList, "--y".toList, ⟨"/p/1.css".toList⟩, 1⟩]
        ⟨"/p".toList⟩ true) = .ok doc ∧
      (doc.declarations.map Declaration.meaning).Perm
        [⟨"--x".toList, "a(;)".toList, [":root".toList]⟩,
          ⟨"--y".toList, "'\x7d'".toList, [":root".toList]⟩] := by
  have hflat : Document.parse .css (render
      [⟨"color".toList, "a(;)".toList, "--x".toList, ⟨"/p/f/1.css".toList⟩, 1⟩,
        ⟨"color".toList, "'\x7d'".toList, "--y".toList, ⟨"/p/1.css".toList⟩, 1⟩]
      ⟨"/p".toList⟩ false) =
        .ok ⟨":root \x7b\n  --x: a(;);\n  --y: '\x7d';\n\x7d\n".toList,
          [{ declaration :=
              ⟨"--x".toList, "a(;)".toList, 2, [":root".toList], ⟨15, 19⟩, []⟩ },
            { declaration :=
              ⟨"--y".toList, "'\x7d'".toList, 3, [":root".toList], ⟨28, 31⟩, []⟩ }]⟩ := by
    decide +kernel
  exact grouped_sheet_loads_back hflat rfl (by decide +kernel)

/-- A folder whose name ends in `*` and a folder in it: the label ends its comment, and the
definition behind it is lost. -/
theorem definition_lost_to_label :
    ∃ doc doc', Document.parse .css (render
        [⟨"color".toList, "red".toList, "--x".toList, ⟨"/p/a*/b/1.css".toList⟩, 1⟩]
        ⟨"/p".toList⟩ false) = .ok doc ∧
      doc.declarations.map (fun d => (d.property, d.value)) =
        (definitions (fun _ => [])
          [⟨"color".toList, "red".toList, "--x".toList, ⟨"/p/a*/b/1.css".toList⟩, 1⟩]).map
            (fun d => (d.name, d.value)) ∧
      Document.parse .css (render
        [⟨"color".toList, "red".toList, "--x".toList, ⟨"/p/a*/b/1.css".toList⟩, 1⟩]
        ⟨"/p".toList⟩ true) = .ok doc' ∧
      ¬ (doc'.declarations.map Declaration.meaning).Perm
        ((definitions (fun _ => [])
          [⟨"color".toList, "red".toList, "--x".toList, ⟨"/p/a*/b/1.css".toList⟩, 1⟩]).map
            (Definition.meaning [":root".toList])) :=
  ⟨⟨":root \x7b\n  --x: red;\n\x7d\n".toList,
      [{ declaration := ⟨"--x".toList, "red".toList, 2, [":root".toList], ⟨15, 18⟩, []⟩ }]⟩,
    ⟨":root \x7b\n  /* a*/b */\n  --x: red;\n\x7d\n".toList, []⟩,
    by decide +kernel, rfl, by decide +kernel, by simp [definitions, define, Document.declarations]⟩

end StyleLift.Sheet
