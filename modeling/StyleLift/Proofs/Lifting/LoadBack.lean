import StyleLift.Proofs.Image.DataUrl
import StyleLift.Proofs.Lifting.Restoration
import StyleLift.Proofs.Naming.Characters
import StyleLift.Proofs.Sheet.Loading
import StyleLift.Proofs.Stylesheet.Reuse
import StyleLift.Proofs.Value.UrlForms

/-!
# The sheets of a run load back

A run writes two stylesheets of its own, and what reads stylesheets must be able to read these.
Every name in them is made by the default scheme, and is a custom property if the settings put
nothing else into names; every value is either one that was read inside a block, or the data URL
of an image.  Both can be written again, so the sheets are read as what they define.

* `Settings.Nameable`: the settings under which all names are custom properties.
* `Journal.Loads`: the invariant of the run, kept by every visit (`loads_visit`).
* `sheets_load_back`: the result.
-/

namespace StyleLift

open Stylesheet

/-- The label is an identifier, aliases are made of name characters, and the properties that are
lifted are no preprocessor variables. -/
structure Settings.Nameable (settings : Settings) : Prop where
  label : isIdentifier settings.label = true
  aliases : ∀ a ∈ settings.aliases, IsNamePart a.2
  properties : ∀ p ∈ settings.properties, p.head? ≠ some sigil

/-! ## One declaration -/

namespace Lifter

variable {lifter : Lifter} {disk : Disk} {path : Path} {d : Declaration} {shared : Text}

/-- What is lifted has a property that the settings list. -/
theorem Lifts.targets (h : lifter.Lifts disk path d shared) :
    lifter.settings.targets d.property = true := by
  by_contra htargets
  have hleave : lifter.select disk path d = .leave := by
    rw [select, if_pos (by simpa using htargets)]
  rcases h with ⟨h, -⟩ | h
  · simp [hleave] at h
  · simp [hleave] at h

/-- What is lifted can be written into a sheet. -/
theorem Lifts.isReadable (hencoder : lifter.encoder = Image.base64)
    (h : lifter.Lifts disk path d shared) (hvalue : IsReadable .css d.value) :
    IsReadable .css shared := by
  rcases h with ⟨-, rfl⟩ | h
  · exact hvalue
  · obtain ⟨reference, encoded, hkind, -, hencoded, rfl⟩ := resolves_of_select h
    refine isReadable_dataUrl path (Value.isImagePath_of_kind hkind) ?_
    rw [hencoder, Image.base64] at hencoded
    split at hencoded
    · obtain rfl := Except.ok.inj hencoded
      exact fun c hc => Text.mem_base64 hc
    · cases hencoded

/-- The base name of what is lifted is a custom property. -/
theorem Lifts.isCustomProperty_baseName (hsettings : lifter.settings.Nameable)
    (h : lifter.Lifts disk path d shared) (hname : isPropertyName d.property = true)
    (known : List Variable) :
    IsCustomProperty (Naming.baseName (lifter.context path d known)) :=
  StyleLift.isCustomProperty_baseName hsettings.label (isNamePart_token _ _ _)
    (Settings.isNamePart_aliasFor hsettings.aliases hsettings.properties hname h.targets)

end Lifter

/-! ## The run -/

/-- All names are custom properties, and all values can be written into a sheet. -/
structure Journal.Loads (journal : Journal) : Prop where
  names : ∀ record ∈ journal.names.assigned, IsCustomProperty record.2
  entries : ∀ v ∈ journal.plain ++ journal.assets,
    IsCustomProperty v.name ∧ IsReadable .css v.value

theorem Journal.Loads.empty : Journal.Loads {} := ⟨by simp, by simp⟩

/-- The definitions of some variables of such a journal can be read where they are written. -/
theorem Journal.Loads.definitions {journal : Journal} (h : journal.Loads) {entries : List Variable}
    (hentries : ∀ v ∈ entries, v ∈ journal.plain ++ journal.assets) :
    ∀ d ∈ Sheet.definitions (fun _ => []) entries, d.Loads .css := by
  intro d hd
  obtain ⟨v, hv, hname, hvalue⟩ := Sheet.exists_mem_of_mem_definitions hd
  obtain ⟨hcustom, hreadable⟩ := h.entries v (hentries v hv)
  rw [hname] at hcustom
  rw [hvalue] at hreadable
  exact ⟨hcustom.isPropertyName, hreadable⟩

namespace Lifter

variable {lifter : Lifter} {disk : Disk}

/-- **Visits keep the invariant**, if what they lift can be written again. -/
theorem loads_visit_of_isReadable (hscheme : lifter.strategy = none)
    (hsettings : lifter.settings.Nameable) {path : Path} {d : Declaration}
    (hd : ∀ shared, lifter.Lifts disk path d shared →
      isPropertyName d.property = true ∧ IsReadable .css shared)
    {journal : Journal} (h : journal.Loads) : (lifter.visit disk path d journal).2.Loads := by
  rcases visit_cases hscheme with ⟨hnames, hplain, hassets⟩ | ⟨shared, hlifts, hnames, hnew⟩
  · refine ⟨?_, ?_⟩
    · rw [hnames]
      exact h.names
    · rw [hplain, hassets]
      exact h.entries
  · obtain ⟨hname, hreadable⟩ := hd shared hlifts
    have hbase := hlifts.isCustomProperty_baseName hsettings hname journal.references
    have hrecords := Naming.Registry.forall_assigned_assign h.names
      (isCustomProperty_nextFree journal.names.taken hbase) (Text.lower d.property) shared
    refine ⟨by rwa [hnames], ?_⟩
    intro v hv
    rcases hnew v hv with hold | ⟨hshared, hanswer⟩
    · exact h.entries v hold
    · rw [hshared, hanswer]
      exact ⟨hrecords _ (Naming.Registry.mem_assigned_assign _ _ _ _), hreadable⟩

/-- Values that can be written again may be lifted, and so may the images they refer to. -/
theorem loads_visit (hscheme : lifter.strategy = none) (hencoder : lifter.encoder = Image.base64)
    (hsettings : lifter.settings.Nameable) {path : Path} {d : Declaration}
    (hd : ∀ shared, lifter.Lifts disk path d shared →
      isPropertyName d.property = true ∧ IsReadable .css d.value)
    {journal : Journal} (h : journal.Loads) : (lifter.visit disk path d journal).2.Loads :=
  loads_visit_of_isReadable hscheme hsettings
    (fun shared hlifts =>
      ⟨(hd shared hlifts).1, hlifts.isReadable hencoder (hd shared hlifts).2⟩) h

/-- A declaration that is lifted in a run is found in one of the documents after the run. -/
theorem exists_rewritten (journal : Journal) {files : List SourceFile} {file : SourceFile}
    (hfile : file ∈ files) {e : Entry} (he : e ∈ file.document.entries) {shared : Text}
    (h : lifter.Lifts disk file.path e.declaration shared) :
    ∃ doc ∈ (lifter.liftAll disk journal files).1, ∃ e' ∈ doc.entries,
      e'.declaration = e.declaration ∧ e'.replacement.isSome = true := by
  have hrun := forall₂_accounted_liftAll files
    (Journal.Extends.refl (lifter.liftAll disk journal files).2)
  obtain ⟨doc, hdoc, hentries⟩ := exists_mem_of_forall₂ hrun hfile
  obtain ⟨e', he', haccounted⟩ := exists_mem_of_forall₂ hentries he
  refine ⟨doc, hdoc, e', he', ?_⟩
  rcases h with ⟨hselect, -⟩ | hselect
  · simp only [Accounted, hselect] at haccounted
    obtain ⟨name, rfl, -⟩ := haccounted
    exact ⟨rfl, rfl⟩
  · simp only [Accounted, hselect] at haccounted
    obtain ⟨name, rfl, -⟩ := haccounted
    exact ⟨rfl, rfl⟩

/-- **The sheets of a run load back.**

After a run by the default scheme over plain stylesheets in which all rewritten declarations stand
inside blocks, both sheets are stylesheets.  Their declarations are the names and values that the
run collected, each pair where it first comes, and all inside `:root`. -/
theorem sheets_load_back (root : Path) {settings : Settings} (hsettings : settings.Nameable)
    (disk : Disk) {files : List SourceFile} (hdialect : ∀ file ∈ files, file.dialect = .css)
    (hblocks : ∀ doc ∈ (({ root, settings } : Lifter).liftAll disk {} files).1,
      ∀ e ∈ doc.entries, e.replacement.isSome = true → e.declaration.selectors ≠ []) :
    let journal := (({ root, settings } : Lifter).liftAll disk {} files).2
    (∃ sheet, Document.parse .css (Sheet.render journal.plain root false) = .ok sheet ∧
      sheet.declarations.map Declaration.meaning =
        (journal.plain.map fun v => (v.name, v.value)).eraseDups.map
          fun pair => ⟨pair.1, pair.2, [":root".toList]⟩) ∧
    ∃ sheet, Document.parse .css (Sheet.renderAssets journal.assets) = .ok sheet ∧
      sheet.declarations.map Declaration.meaning =
        (journal.assets.map fun v => (v.name, v.value)).eraseDups.map
          fun pair => ⟨pair.1, pair.2, [":root".toList]⟩ := by
  intro journal
  have hnamed : journal.Named := named_liftAll rfl files Journal.Named.empty
  have hloads : journal.Loads := by
    refine liftAll_journal (fun _ _ _ hj => ⟨hj.names, hj.entries⟩) ?_ Journal.Loads.empty
    intro file hfile e he j hj
    refine loads_visit rfl rfl hsettings ?_ hj
    intro shared hlifts
    obtain ⟨doc, hdoc, e', he', heq, hsome⟩ := exists_rewritten {} hfile he hlifts
    have hblock : e.declaration.selectors ≠ [] := heq ▸ hblocks doc hdoc e' he' hsome
    have hparse := file.parsed
    rw [hdialect file hfile] at hparse
    exact isReadable_of_reading (reading_of_parse hparse).2.2 (Document.mem_declarations he) hblock
  have hplain : ∀ v ∈ journal.plain, v ∈ journal.plain ++ journal.assets :=
    fun v hv => List.mem_append_left _ hv
  have hassets : ∀ v ∈ journal.assets, v ∈ journal.plain ++ journal.assets :=
    fun v hv => List.mem_append_right _ hv
  refine ⟨?_, ?_⟩
  · rw [← Sheet.pairs_definitions (fun _ => []) fun v hv w hw =>
      hnamed.value_eq (hplain v hv) (hplain w hw), List.map_map]
    exact Sheet.exists_parse_render (hloads.definitions hplain) root
  · rw [← Sheet.pairs_definitions (fun _ => []) fun v hv w hw =>
      hnamed.value_eq (hassets v hv) (hassets w hw), List.map_map]
    exact Sheet.exists_parse_renderAssets (hloads.definitions hassets)

/-- A file with a comment and a flag behind a string, an image, and one value twice, the first time
with a comment inside. -/
def fileWithImage : SourceFile where
  path := Path.ofString "s.css"
  dialect := .css
  source := ("a\x7bcolor:\"\x7d;\"/*x*/!important;background:url(i.png)\x7d" ++
    ".b\x7bcolor:x/**/y;color:x y\x7d").toList
  document := ⟨("a\x7bcolor:\"\x7d;\"/*x*/!important;background:url(i.png)\x7d" ++
    ".b\x7bcolor:x/**/y;color:x y\x7d").toList,
    [{ declaration := ⟨"color".toList, "\"\x7d;\"".toList, 1, ["a".toList], ⟨8, 12⟩, []⟩ },
      { declaration := ⟨"background".toList, "url(i.png)".toList, 1, ["a".toList], ⟨39, 49⟩, []⟩ },
      { declaration := ⟨"color".toList, "x y".toList, 1, [".b".toList], ⟨59, 65⟩, [⟨60, 64⟩]⟩ },
      { declaration := ⟨"color".toList, "x y".toList, 1, [".b".toList], ⟨72, 75⟩, []⟩ }]⟩
  parsed := by decide +kernel

theorem sheets_load_back_with_image :
    ∃ sheet images,
      let lifter : Lifter :=
        { root := ⟨[]⟩, settings := { Settings.default with exportAssets := true } }
      let disk : Disk := { nodes := [(["i.png".toList], .file ⟨#[105, 183, 29, 248]⟩)] }
      let journal := (lifter.liftAll disk {} [fileWithImage]).2
      Document.parse .css (Sheet.render journal.plain ⟨[]⟩ false) = .ok sheet ∧
      Document.parse .css (Sheet.renderAssets journal.assets) = .ok images ∧
      sheet.declarations.map Declaration.meaning =
        [⟨"--var----color".toList, "\"\x7d;\"".toList, [":root".toList]⟩,
          ⟨"--var-b-xy-color".toList, "x y".toList, [":root".toList]⟩] ∧
      images.declarations.map Declaration.meaning =
        [⟨"--var-i-bg".toList, "url(data:image/png;base64,abcd+A==)".toList,
          [":root".toList]⟩] := by
  have haliases : ∀ a ∈ Settings.default.aliases, a.2.all Text.isWordOrHyphen = true := by
    decide +kernel
  have hsettings : Settings.Nameable { Settings.default with exportAssets := true } :=
    ⟨by decide +kernel, fun a ha => List.all_eq_true.1 (haliases a ha), by decide +kernel⟩
  have hdialect : ∀ file ∈ [fileWithImage], file.dialect = .css := by decide +kernel
  obtain ⟨⟨sheet, hsheet, hmeanings⟩, images, himages, hmeanings'⟩ := sheets_load_back ⟨[]⟩ hsettings
    { nodes := [(["i.png".toList], .file ⟨#[105, 183, 29, 248]⟩)] } hdialect (by decide +kernel)
  exact ⟨sheet, images, hsheet, himages, hmeanings.trans (by decide +kernel),
    hmeanings'.trans (by decide +kernel)⟩

end Lifter

end StyleLift
