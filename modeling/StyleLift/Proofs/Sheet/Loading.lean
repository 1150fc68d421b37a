import StyleLift.Proofs.Sheet.Definitions
import StyleLift.Proofs.Stylesheet.Grammar

/-!
# Sheets load back

A sheet is itself a stylesheet: one rule for `:root` with a line for every definition.  If the
names are property names and the values can be written, then reading the sheet gives the
definitions again, in their order and each inside `:root`.  The comment at the head of a sheet of
images says nothing.

Both sheets are read from the inside out: `says_lines` reads the lines of any definitions,
whatever follows, and `says_rootRule` puts the rule around them.
-/

namespace StyleLift.Sheet

open Stylesheet

variable {dialect : Dialect}

theorem isBlankText_nil : Text.isBlankText [] = true := rfl

theorem isBlankText_space : Text.isBlankText [' '] = true := by decide

theorem isBlankText_newline : Text.isBlankText ['\n'] = true := by decide

/-- What a definition says inside `blocks`. -/
def Definition.meaning (blocks : List Text) (d : Definition) : Meaning := ⟨d.name, d.value, blocks⟩

/-- A definition that can be read where it is written. -/
structure Definition.Loads (dialect : Dialect) (d : Definition) : Prop where
  name : isPropertyName d.name = true
  value : IsReadable dialect d.value

/-- The lines of definitions are read one after the other.  The line end of each line is a blank
before the next one, so there may be blanks in front. -/
theorem says_lines {ds : List Definition} (hds : ∀ d ∈ ds, d.Loads dialect) {blocks : List Text}
    {rest : Text} {meanings : List Meaning}
    (hrest : ∀ b, Text.isBlankText b = true → Says dialect blocks (b ++ rest) meanings) {b : Text}
    (hb : Text.isBlankText b = true) :
    Says dialect blocks (b ++ (lines ds ++ rest))
      (ds.map (Definition.meaning blocks) ++ meanings) := by
  induction ds generalizing b with
  | nil => exact hrest b hb
  | cons d ds ih =>
    rw [List.forall_mem_cons] at hds
    have hlater := ih hds.2 isBlankText_newline
    have hindent : Text.isBlankText (b ++ [' ', ' ']) = true :=
      Text.isBlankText_append.2 ⟨hb, by decide⟩
    have hline := Says.declaration hds.1.name hindent isBlankText_nil isBlankText_space
      hds.1.value (.of_blank isBlankText_nil) hlater
    have htext : b ++ (lines (d :: ds) ++ rest) = b ++ [' ', ' '] ++ d.name ++ [] ++
        ':' :: ([' '] ++ d.value ++ [] ++ ';' :: (['\n'] ++ (lines ds ++ rest))) := by
      rw [lines, List.flatMap_cons, ← lines]
      unfold definitionLine
      simp
    rw [htext]
    exact hline

/-- A line that holds a comment says nothing. -/
theorem says_commentLine {comment : Text} (hcomment : ¬ ['*', '/'] <:+: comment)
    {blocks : List Text} {rest : Text} {meanings : List Meaning}
    (h : Says dialect blocks ('\n' :: rest) meanings) {b : Text}
    (hb : Text.isBlankText b = true) :
    Says dialect blocks (b ++ (commentLine comment ++ rest)) meanings := by
  have hlead : ∀ t ∈ (b ++ [' ', ' ']).map Token.glyph ++
      [.comment ("/* ".toList ++ comment ++ " */".toList)], t.isFiller = true ∧ t.Plain := by
    refine List.forall_mem_append.2 ⟨?_, ?_⟩
    · intro t ht
      obtain ⟨c, hc, rfl⟩ := List.mem_map.1 ht
      have hblank : Text.isBlank c = true :=
        Text.isBlank_of_mem (Text.isBlankText_append.2 ⟨hb, by decide⟩) hc
      exact ⟨hblank, isPlain_of_isBlank hblank⟩
    · intro t ht
      obtain rfl := List.mem_singleton.1 ht
      exact ⟨rfl, isBlockComment_spaced hcomment⟩
  have htext : b ++ (commentLine comment ++ rest) =
      spelling ((b ++ [' ', ' ']).map Token.glyph ++
        [.comment ("/* ".toList ++ comment ++ " */".toList)]) ++ '\n' :: rest := by
    unfold commentLine
    simp
  rw [htext]
  exact Says.filler hlead h

/-- The rule around the lines. -/
theorem says_rootRule {body : Text} {meanings : List Meaning}
    (h : Says dialect [":root".toList] ('\n' :: (body ++ ['}', '\n'])) meanings) :
    Says dialect [] (rootRule body) meanings := by
  have hplain : ":root".toList.all isPlain = true := by decide
  have hsettled : Settled dialect 0 (":root".toList.map .glyph) :=
    Settled.of_plain (List.all_eq_true.1 hplain)
  have htrim : Text.trim ":root".toList = ":root".toList := by decide
  have hrule : Says dialect [] _ meanings := Says.block isBlankText_nil isBlankText_space hsettled
    (by rwa [spelling_map_glyph]) (fun _ => by rw [spelling_map_glyph]; decide)
    (by rw [spelling_map_glyph]; exact h)
  have htext : rootRule body = [] ++ ":root".toList ++ [' '] ++
      '{' :: '\n' :: (body ++ ['}', '\n']) := by
    unfold rootRule
    simp
  rw [spelling_map_glyph] at hrule
  rw [htext]
  exact hrule

/-- The end of a rule that stands alone. -/
theorem says_end (prelude : Text) {b : Text} (hb : Text.isBlankText b = true) :
    Says dialect [prelude] (b ++ ['}', '\n']) [] := by
  have hfinish : Says dialect [] ['\n'] [] := Says.blanks_finish isBlankText_newline
  exact Says.blanks_closing hb hfinish

/-- All lines up to the end of the rule. -/
theorem says_body {ds : List Definition} (hds : ∀ d ∈ ds, d.Loads dialect) (prelude : Text) :
    Says dialect [prelude] (['\n'] ++ (lines ds ++ ['}', '\n']))
      (ds.map (Definition.meaning [prelude])) := by
  have hlines := says_lines hds (fun _ hb => says_end prelude hb) isBlankText_newline
  rwa [List.append_nil] at hlines

section

variable {entries : List Variable}
  (h : ∀ d ∈ definitions (fun _ => []) entries, d.Loads dialect)

include h

/-- **A sheet loads back.** -/
theorem exists_parse_render (root : Path) :
    ∃ sheet, Document.parse dialect (render entries root false) = .ok sheet ∧
      sheet.declarations.map Declaration.meaning =
        (definitions (fun _ => []) entries).map (Definition.meaning [":root".toList]) :=
  (says_rootRule (says_body h ":root".toList)).exists_parse

/-- **A sheet of images loads back.** -/
theorem exists_parse_renderAssets :
    ∃ sheet, Document.parse dialect (renderAssets entries) = .ok sheet ∧
      sheet.declarations.map Declaration.meaning =
        (definitions (fun _ => []) entries).map (Definition.meaning [":root".toList]) := by
  have hcomment : ¬ ['*', '/'] <:+: assetsComment := by decide +kernel
  have hlines := says_body h ":root".toList
  rw [List.singleton_append] at hlines
  have hbody := says_commentLine hcomment hlines isBlankText_newline
  rw [List.singleton_append, ← List.append_assoc] at hbody
  exact (says_rootRule hbody).exists_parse

end

end StyleLift.Sheet
