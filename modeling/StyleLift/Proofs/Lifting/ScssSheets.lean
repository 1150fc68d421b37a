import StyleLift.Proofs.Lifting.LoadBack
import StyleLift.Proofs.Stylesheet.PlainValues

/-!
# Sheets of values from preprocessor files

The sheet of a run is a plain stylesheet, whatever the dialect of the files its values come from.
A value that holds the sigil is never lifted when images are not inlined, so that no unresolved
variable gets into the sheet.  Line comments are cut out of every value, and a `//` that is left,
inside parentheses, means nothing in the sheet.

Interpolations are the exception.  Only the sigil inside one is looked for, and an interpolation
without a sigil is lifted as it stands; the sheet then has a block where the definition should be,
and the definition is lost (`definition_lost_to_interpolation`).  Values without interpolations
load back, which is what `sheet_of_scss_loads_back` says.
-/

namespace StyleLift.Lifter

open Stylesheet

variable {lifter : Lifter} {disk : Disk} {path : Path} {d : Declaration} {shared : Text}

/-- Without images, only the value itself is lifted. -/
theorem Lifts.eq_value (hassets : lifter.settings.exportAssets = false)
    (h : lifter.Lifts disk path d shared) : shared = d.value := by
  rcases h with ⟨-, rfl⟩ | h
  · rfl
  · have hverdict := verdict_select lifter disk path d
    rw [h] at hverdict
    cases hverdict with
    | inlined hadmits hneeds =>
      exact absurd (hassets.symm.trans hneeds.1) Bool.false_ne_true

/-- **The sheet of values from preprocessor files loads back.**

After a run by the default scheme and without images, if all rewritten declarations stand inside
blocks and no rewritten value has an interpolation, the sheet is a plain stylesheet.  Its
declarations are the names and values that the run collected, each pair where it first comes, and
all inside `:root`. -/
theorem sheet_of_scss_loads_back (root : Path) (hscheme : lifter.strategy = none)
    (hassets : lifter.settings.exportAssets = false) (hsettings : lifter.settings.Nameable)
    {files : List SourceFile} (hdialect : ∀ file ∈ files, file.dialect = .scss)
    (hrewritten : ∀ doc ∈ (lifter.liftAll disk {} files).1, ∀ e ∈ doc.entries,
      e.replacement.isSome = true → e.declaration.selectors ≠ [] ∧
        ∀ t ∈ tokens (.ofStatements .scss) 0 e.declaration.value, t.isInterpolation = false) :
    ∃ sheet, Document.parse .css
        (Sheet.render (lifter.liftAll disk {} files).2.plain root false) = .ok sheet ∧
      sheet.declarations.map Declaration.meaning =
        ((lifter.liftAll disk {} files).2.plain.map fun v => (v.name, v.value)).eraseDups.map
          fun pair => ⟨pair.1, pair.2, [":root".toList]⟩ := by
  have hnamed : (lifter.liftAll disk {} files).2.Named :=
    named_liftAll hscheme files Journal.Named.empty
  have hloads : (lifter.liftAll disk {} files).2.Loads := by
    refine liftAll_journal (fun _ _ _ hj => ⟨hj.names, hj.entries⟩) ?_ Journal.Loads.empty
    intro file hfile e he j hj
    refine loads_visit_of_isReadable hscheme hsettings ?_ hj
    intro shared hlifts
    obtain ⟨doc, hdoc, e', he', heq, hsome⟩ := exists_rewritten {} hfile he hlifts
    obtain ⟨hblock, hvalue⟩ := hrewritten doc hdoc e' he' hsome
    rw [heq] at hblock hvalue
    have hparse := file.parsed
    rw [hdialect file hfile] at hparse
    rw [hlifts.eq_value hassets]
    exact isReadable_css_of_reading (reading_of_parse hparse).2.2 (Document.mem_declarations he)
      hblock hvalue
  have hplain : ∀ v ∈ (lifter.liftAll disk {} files).2.plain,
      v ∈ (lifter.liftAll disk {} files).2.plain ++ (lifter.liftAll disk {} files).2.assets :=
    fun v hv => List.mem_append_left _ hv
  rw [← Sheet.pairs_definitions (fun _ => []) fun v hv w hw =>
    hnamed.value_eq (hplain v hv) (hplain w hw), List.map_map]
  exact Sheet.exists_parse_render (hloads.definitions hplain) root

/-- A file with a line comment inside a value, `//` inside parentheses, `#` and a brace inside a
string, and a value with the sigil. -/
def fileWithLineComment : SourceFile where
  path := Path.ofString "s.scss"
  dialect := .scss
  source := ".a\x7bcolor:x//y\n z;background:f(//h)\"#\x7bq\x7d\";border-color:$c\x7d".toList
  document := ⟨".a\x7bcolor:x//y\n z;background:f(//h)\"#\x7bq\x7d\";border-color:$c\x7d".toList,
    [{ declaration :=
        ⟨"color".toList, "x\n z".toList, 1, [".a".toList], ⟨9, 16⟩, [⟨10, 13⟩]⟩ },
      { declaration :=
        ⟨"background".toList, "f(//h)\"#\x7bq\x7d\"".toList, 2, [".a".toList], ⟨28, 40⟩, []⟩ },
      { declaration :=
        ⟨"border-color".toList, "$c".toList, 2, [".a".toList], ⟨54, 56⟩, []⟩ }]⟩
  parsed := by decide +kernel

theorem sheet_of_scss_loads_back_with_line_comment :
    ∃ sheet,
      let lifter : Lifter := { root := ⟨[]⟩, settings := Settings.default }
      Document.parse .css
        (Sheet.render (lifter.liftAll { nodes := [] } {} [fileWithLineComment]).2.plain ⟨[]⟩
          false) = .ok sheet ∧
      sheet.declarations.map Declaration.meaning =
        [⟨"--var-a-xz-color".toList, "x\n z".toList, [":root".toList]⟩,
          ⟨"--var-a-fhq-bg".toList, "f(//h)\"#\x7bq\x7d\"".toList, [":root".toList]⟩] := by
  have haliases : ∀ a ∈ Settings.default.aliases, a.2.all Text.isWordOrHyphen = true := by
    decide +kernel
  have hsettings : Settings.default.Nameable :=
    ⟨by decide +kernel, fun a ha => List.all_eq_true.1 (haliases a ha), by decide +kernel⟩
  have hdialect : ∀ file ∈ [fileWithLineComment], file.dialect = .scss := by decide +kernel
  obtain ⟨sheet, hsheet, hmeanings⟩ := @sheet_of_scss_loads_back
    { root := ⟨[]⟩, settings := Settings.default } { nodes := [] } ⟨[]⟩ rfl rfl hsettings _ hdialect
    (by decide +kernel)
  exact ⟨sheet, hsheet, hmeanings.trans (by decide +kernel)⟩

/-- A file with an interpolation that holds no sigil. -/
def fileWithInterpolation : SourceFile where
  path := Path.ofString "s.scss"
  dialect := .scss
  source := ".a\x7bcolor:#\x7bred\x7d\x7d".toList
  document := ⟨".a\x7bcolor:#\x7bred\x7d\x7d".toList,
    [{ declaration :=
        ⟨"color".toList, "#\x7bred\x7d".toList, 1, [".a".toList], ⟨9, 15⟩, []⟩ }]⟩
  parsed := by decide +kernel

/-- The interpolation is lifted as it stands, from inside a block, and the sheet declares
nothing. -/
theorem definition_lost_to_interpolation :
    let lifter : Lifter := { root := ⟨[]⟩, settings := Settings.default }
    let run := lifter.liftAll { nodes := [] } {} [fileWithInterpolation]
    (∀ doc ∈ run.1, ∀ e ∈ doc.entries,
        e.replacement.isSome = true → e.declaration.selectors ≠ []) ∧
      (run.2.plain.map fun v => (v.name, v.value)) =
        [("--var-a-red-color".toList, "#\x7bred\x7d".toList)] ∧
      ∃ sheet, Document.parse .css (Sheet.render run.2.plain ⟨[]⟩ false) = .ok sheet ∧
        sheet.declarations = [] := by
  refine ⟨by decide +kernel, by decide +kernel,
    ⟨":root \x7b\n  --var-a-red-color: #\x7bred\x7d;\n\x7d\n".toList, []⟩, by decide +kernel, rfl⟩

end StyleLift.Lifter
