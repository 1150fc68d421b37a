import StyleLift.Outputs
import StyleLift.Proofs.Disk.Writing
import StyleLift.Proofs.Sheet.Definitions
import StyleLift.Proofs.Text.Ascii

/-!
# Outputs are read back

Up to three files are written one after the other, and their paths come about in three ways: the
sheet gets the name from the settings or a numbered alternative, the usage map the stem of the
sheet, and the sheet of images a fixed name.  A later file must not take the place of an earlier
one.  All three are told apart by the last part of their paths, with one exception: nothing keeps
the sheet from being called like the sheet of images.

* `Run.exists_of_bind`: a run of two steps that succeeds is two runs that succeed.
* `Step`, `Steps`, `exists_steps`: what one output does to the disk, and what all of them do.
* `getLast?_pieces_mapPath`, `availablePath_cases`: how the paths end.
* `outputs_read_back`: every output is read back, unless the settings call the sheet like the sheet
  of images.  Then the images win (`sheet_lost_to_assets`).
-/

namespace StyleLift

/-! ## Runs that succeed -/

namespace Run

variable {α β : Type} {before after : Disk}

theorem bind_apply (x : Run α) (f : α → Run β) (disk : Disk) :
    (x >>= f) disk = ExceptT.bindCont f (x disk).1 (x disk).2 := rfl

theorem bind_of_ok {x : Run α} {f : α → Run β} {a : α} {middle : Disk}
    (h : x before = (.ok a, middle)) : (x >>= f) before = f a middle := by
  rw [bind_apply, h]
  rfl

theorem bind_of_error {x : Run α} {f : α → Run β} {failure : Failure} {middle : Disk}
    (h : x before = (.error failure, middle)) : (x >>= f) before = (.error failure, middle) := by
  rw [bind_apply, h]
  rfl

theorem exists_of_bind {x : Run α} {f : α → Run β} {b : β}
    (h : (x >>= f) before = (.ok b, after)) :
    ∃ a middle, x before = (.ok a, middle) ∧ f a middle = (.ok b, after) := by
  cases hx : x before with
  | mk result middle =>
    rw [bind_apply, hx] at h
    cases result with
    | ok a => exact ⟨a, middle, rfl, h⟩
    | error failure => cases h

/-- Looking leaves the disk as it is. -/
theorem observe_apply (look : Disk → Except Failure α) (disk : Disk) :
    observe look disk = (look disk, disk) := by
  have hget : (get : Run Disk) disk = (.ok disk, disk) := rfl
  rw [observe, bind_of_ok hget]
  cases look disk with
  | ok value => rfl
  | error failure => rfl

theorem of_change {act : Disk → Except IoFault Disk} {wrap : IoFault → Failure} {u : Unit}
    (h : change act wrap before = (.ok u, after)) : act before = .ok after := by
  have hget : (get : Run Disk) before = (.ok before, before) := rfl
  rw [change, bind_of_ok hget] at h
  cases hact : act before with
  | ok changed =>
    rw [hact] at h
    cases h
    rfl
  | error fault =>
    rw [hact] at h
    cases h

theorem change_of_ok {act : Disk → Except IoFault Disk} {wrap : IoFault → Failure}
    (h : act before = .ok after) : change act wrap before = (.ok (), after) := by
  have hget : (get : Run Disk) before = (.ok before, before) := rfl
  rw [change, bind_of_ok hget, h]
  rfl

theorem of_attempt {act : Disk → Disk.Attempt} {wrap : IoFault → Failure} {u : Unit}
    (h : attempt act wrap before = (.ok u, after)) : act before = (after, none) := by
  have hget : (get : Run Disk) before = (.ok before, before) := rfl
  rw [attempt, bind_of_ok hget] at h
  cases hact : act before with
  | mk changed fault? =>
    rw [hact] at h
    cases fault? with
    | none =>
      cases h
      rfl
    | some fault => cases h

/-- A run succeeds if it comes to a result. -/
theorem eq_of_toOption {run : Except Failure α × Disk} {a : α} (h : run.1.toOption = some a) :
    run = (.ok a, run.2) := by
  obtain ⟨result, disk⟩ := run
  cases result with
  | ok b => rw [Option.some.inj h]
  | error failure => cases h

end Run

namespace Outputs

open Disk (Stores Shows)

/-! ## One output -/

/-- What an output does to the disk: nothing if it is not wanted, and else it is stored at its
path. -/
inductive Step (wanted : Bool) (path : Path) (content : Text) (before : Disk) :
    Option Path → Disk → Prop
  | skipped (h : wanted = false) : Step wanted path content before none before
  | stored {middle after : Disk} {place : Location} (h : wanted = true)
      (hstores : Stores before middle path content place after) :
      Step wanted path content before (some path) after

namespace Step

variable {wanted : Bool} {path : Path} {content : Text} {before after : Disk}
  {path? : Option Path}

theorem isSome_eq (h : Step wanted path content before path? after) : path?.isSome = wanted := by
  cases h with
  | skipped h => exact h.symm
  | stored h hstores => exact h.symm

theorem exists_stores (h : Step wanted path content before path? after) {p : Path}
    (hp : p ∈ path?) :
    p = path ∧ ∃ middle place, Stores before middle path content place after := by
  cases h with
  | skipped h => cases hp
  | stored h hstores => exact ⟨(Option.some.inj hp).symm, _, _, hstores⟩

theorem keepsDirectories (h : Step wanted path content before path? after) :
    before.KeepsDirectories after := by
  cases h with
  | skipped h => exact .refl before
  | stored h hstores => exact hstores.keepsDirectories

/-- What was shown is shown after an output that is stored elsewhere. -/
theorem shows_of_ne (h : Step wanted path content before path? after) {q : Path}
    {place : Location} {s : Text} (hshows : before.Shows q place s)
    (hne : ∀ p ∈ path?, after.locate p ≠ .ok place) : after.Shows q place s := by
  cases h with
  | skipped h => exact hshows
  | stored h hstores =>
    refine hstores.shows_of_ne hshows ?_
    rintro rfl
    exact hne _ rfl hstores.shows.locate

/-- A file stays where an output is stored elsewhere. -/
theorem hasFile_or (h : Step wanted path content before path? after) {place : Location}
    {bytes : ByteArray} (hfile : before.HasFile place bytes) :
    after.HasFile place bytes ∨ ∃ p ∈ path?, after.locate p = .ok place := by
  cases h with
  | skipped h => exact Or.inl hfile
  | @stored _ _ target h hstores =>
    by_cases hplace : place = target
    · subst hplace
      exact Or.inr ⟨path, rfl, hstores.shows.locate⟩
    · exact Or.inl (hstores.hasFile_of_ne hfile hplace)

end Step

theorem exists_stores_of_writeFile {path : Path} {content : Text} {before after : Disk} {u : Unit}
    (h : writeFile path content before = (.ok u, after)) :
    ∃ middle place, Stores before middle path content place after := by
  have hwrite : ∃ middle, before.Grows middle ∧ middle.write path content = .ok after := by
    rw [writeFile] at h
    cases hparent : path.parent? with
    | none =>
      rw [hparent] at h
      exact ⟨before, .refl before, Run.of_change h⟩
    | some parent =>
      rw [hparent] at h
      obtain ⟨u, middle, hdirs, h⟩ := Run.exists_of_bind h
      have hgrows := before.grows_makeDirectories parent
      rw [Run.of_attempt hdirs] at hgrows
      exact ⟨middle, hgrows, Run.of_change h⟩
  obtain ⟨middle, hgrows, hwrite⟩ := hwrite
  obtain ⟨place, hstores⟩ := Stores.of_write hgrows hwrite
  exact ⟨middle, place, hstores⟩

/-- An output that is written only if it is wanted. -/
theorem step_of_run {wanted : Bool} {path : Path} {content : Text} {before after : Disk}
    {path? : Option Path}
    (h : (if !wanted then pure none else do writeFile path content; pure (some path) :
      Run (Option Path)) before = (.ok path?, after)) :
    Step wanted path content before path? after := by
  cases wanted with
  | false =>
    cases h
    exact .skipped rfl
  | true =>
    obtain ⟨u, middle, hwrite, h⟩ := Run.exists_of_bind h
    obtain ⟨grown, place, hstores⟩ := exists_stores_of_writeFile hwrite
    cases h
    exact .stored rfl hstores

/-! ## All outputs -/

variable {root : Path} {settings : Settings} {journal : Journal} {before after : Disk}

/-- What all outputs do, one after the other. -/
structure Steps (root : Path) (settings : Settings) (journal : Journal)
    (before first second after : Disk) (written : Written) : Prop where
  sheet : Step (!journal.plain.isEmpty) (availablePath before root settings.output)
    (Sheet.render journal.plain root settings.groupByFolder) before written.sheet first
  map : Step settings.exportMap (mapPath (written.sheet.getD (root.join settings.output)))
    journal.ledger.usageMap first written.map second
  assets : Step (settings.exportAssets && !journal.assets.isEmpty) (root.join assetsFileName)
    (Sheet.renderAssets journal.assets) second written.assets after

theorem step_of_writeSheet {sheet : Option Path}
    (h : writeSheet root settings journal before = (.ok sheet, after)) :
    Step (!journal.plain.isEmpty) (availablePath before root settings.output)
      (Sheet.render journal.plain root settings.groupByFolder) before sheet after := by
  refine step_of_run ?_
  rw [Bool.not_not]
  rw [writeSheet] at h
  split_ifs at h ⊢
  · exact h
  · obtain ⟨disk, middle, hget, h⟩ := Run.exists_of_bind h
    cases hget
    exact h

theorem step_of_writeMap {sheet map : Option Path}
    (h : writeMap root settings journal sheet before = (.ok map, after)) :
    Step settings.exportMap (mapPath (sheet.getD (root.join settings.output)))
      journal.ledger.usageMap before map after :=
  step_of_run h

theorem step_of_writeAssets {assets : Option Path}
    (h : writeAssets root settings journal before = (.ok assets, after)) :
    Step (settings.exportAssets && !journal.assets.isEmpty) (root.join assetsFileName)
      (Sheet.renderAssets journal.assets) before assets after := by
  refine step_of_run ?_
  rw [Bool.not_and, Bool.not_not]
  exact h

/-- **The outputs are stored one after the other.** -/
theorem exists_steps {written : Written}
    (h : write root settings journal before = (.ok written, after)) :
    ∃ first second, Steps root settings journal before first second after written := by
  obtain ⟨sheet, first, hsheet, h⟩ := Run.exists_of_bind h
  obtain ⟨map, second, hmap, h⟩ := Run.exists_of_bind h
  obtain ⟨assets, third, hassets, h⟩ := Run.exists_of_bind h
  cases h
  exact ⟨first, second, step_of_writeSheet hsheet, step_of_writeMap hmap,
    step_of_writeAssets hassets⟩

/-! ## How the paths end -/

/-- The name of the usage map that belongs to a sheet. -/
def mapName (sheet : Path) : Text := sheet.fileStem?.getD [] ++ ".map.json".toList

theorem slash_notMem_mapName (sheet : Path) : '/' ∉ mapName sheet := by
  rw [mapName, List.mem_append, not_or]
  exact ⟨sheet.slash_notMem_fileStem, by decide⟩

theorem mapName_ne_assets (sheet : Path) : mapName sheet ≠ assetsFileName := by
  intro heq
  have hends := congrArg List.getLast? heq
  rw [mapName, List.getLast?_append_of_ne_nil _ (by decide)] at hends
  exact absurd hends (by decide)

/-- The path of the usage map ends in this name. -/
theorem getLast?_pieces_mapPath (sheet : Path) :
    (Text.pieces '/' (mapPath sheet).text).getLast? = some (mapName sheet) := by
  rw [mapPath, Path.withFileName]
  split
  · exact Path.getLast?_pieces_join_name _ (slash_notMem_mapName sheet)
  · exact Path.getLast?_pieces_join_name _ (slash_notMem_mapName sheet)

theorem getLast?_pieces_assets (root : Path) :
    (Text.pieces '/' (root.join assetsFileName).text).getLast? = some assetsFileName :=
  root.getLast?_pieces_join_name (by decide)

/-- The name of the `n`-th alternative. -/
def numberedName (name : Text) (n : Nat) : Text :=
  let requested : Path := ⟨name⟩
  requested.fileStem?.getD [] ++ '-' :: Text.decimal n ++
    (requested.extension?.map fun e => '.' :: e).getD []

theorem slash_notMem_numberedName (name : Text) (n : Nat) : '/' ∉ numberedName name n := by
  have hdigits : '/' ∉ Text.decimal n := fun hmem =>
    absurd (Text.isAlphanum_of_mem_decimal hmem) (by decide)
  have hextension := (⟨name⟩ : Path).slash_notMem_extension
  have hending : '/' ∉ ((⟨name⟩ : Path).extension?.map fun e => '.' :: e).getD [] := by
    cases hext : (⟨name⟩ : Path).extension? with
    | none => exact List.not_mem_nil
    | some e =>
      rw [hext] at hextension
      simpa using hextension
  simp only [numberedName, List.mem_append, List.mem_cons, not_or]
  exact ⟨⟨(⟨name⟩ : Path).slash_notMem_fileStem, by decide, hdigits⟩, hending⟩

theorem getLast?_pieces_numbered (dir : Path) (name : Text) (n : Nat) :
    (Text.pieces '/' (numbered dir name n).text).getLast? = some (numberedName name n) :=
  Path.getLast?_pieces_join_name _ (slash_notMem_numberedName name n)

/-- The sheet has the requested path or that of an alternative. -/
theorem availablePath_cases (disk : Disk) (dir : Path) (name : Text) :
    availablePath disk dir name = dir.join name ∨
      ∃ n, availablePath disk dir name = numbered dir name n := by
  rw [availablePath]
  split
  · exact Or.inl rfl
  · cases hfind : ((List.range (disk.nodes.length + 2)).map fun n => numbered dir name (n + 1)).find?
        fun p => !disk.pathExists p with
    | none => exact Or.inl rfl
    | some p =>
      obtain ⟨n, -, rfl⟩ := List.mem_map.1 (List.mem_of_find?_eq_some hfind)
      exact Or.inr ⟨n + 1, rfl⟩

/-! ## Which outputs can clash -/

section

variable {sheet : Path} {s t : Text} {place other : Location}
  {middle before' middle' after' : Disk}

/-- The usage map never takes the place of its sheet. -/
theorem sheet_ne_map (hsheet : Stores before middle sheet s place after)
    (hmap : Stores before' middle' (mapPath sheet) t other after') : place ≠ other := by
  refine hsheet.place_ne hmap ?_
  obtain ⟨name, hfile, hlast, -⟩ := hsheet.name
  rw [hlast, getLast?_pieces_mapPath]
  intro heq
  have hdot : '.' ∈ "map.json".toList := by decide
  exact Path.fileStem_append_ne (hfile.fileName? hlast) hdot (Option.some.inj heq).symm

/-- The sheet of images never takes the place of the usage map. -/
theorem map_ne_assets (hmap : Stores before middle (mapPath sheet) s place after)
    (hassets : Stores before' middle' (root.join assetsFileName) t other after') :
    place ≠ other := by
  refine hmap.place_ne hassets ?_
  rw [getLast?_pieces_mapPath, getLast?_pieces_assets]
  exact fun heq => mapName_ne_assets sheet (Option.some.inj heq)

/-- The sheet of images takes the place of the sheet only if the settings call the sheet so: an
alternative has a hyphen in its name. -/
theorem fileName?_output_of_clash {output : Text}
    (hsheet : Stores before middle (availablePath before root output) s place after)
    (hassets : Stores before' middle' (root.join assetsFileName) t place after') :
    (⟨output⟩ : Path).fileName? = some assetsFileName := by
  have hlast : (Text.pieces '/' (availablePath before root output).text).getLast? =
      some assetsFileName := by
    by_contra hne
    rw [← getLast?_pieces_assets root] at hne
    exact hsheet.place_ne hassets hne rfl
  rcases availablePath_cases before root output with hpath | ⟨n, hpath⟩
  · rw [hpath, Path.getLast?_pieces_join] at hlast
    exact Path.fileName?_of_getLast?_pieces hlast (by decide) (by decide)
  · rw [hpath, getLast?_pieces_numbered] at hlast
    have hhyphen : '-' ∈ numberedName output n := by simp [numberedName]
    rw [Option.some.inj hlast] at hhyphen
    exact absurd hhyphen (by decide)

end

/-! ## The result -/

namespace Steps

variable {first second : Disk} {written : Written}
  (h : Steps root settings journal before first second after written)

include h

theorem keeps_first : first.KeepsDirectories after :=
  h.map.keepsDirectories.trans h.assets.keepsDirectories

theorem locate_sheet_ne_map {p q : Path} (hp : p ∈ written.sheet) (hq : q ∈ written.map) :
    after.locate p ≠ after.locate q := by
  obtain ⟨rfl, _, place, hsheet⟩ := h.sheet.exists_stores hp
  obtain ⟨rfl, _, other, hmap⟩ := h.map.exists_stores hq
  rw [h.keeps_first.locate hsheet.shows.locate,
    h.assets.keepsDirectories.locate hmap.shows.locate]
  rw [Option.mem_def.1 hp, Option.getD_some] at hmap
  exact fun heq => sheet_ne_map hsheet hmap (Except.ok.inj heq)

theorem locate_map_ne_assets {p q : Path} (hp : p ∈ written.map) (hq : q ∈ written.assets) :
    after.locate p ≠ after.locate q := by
  obtain ⟨rfl, _, place, hmap⟩ := h.map.exists_stores hp
  obtain ⟨rfl, _, other, hassets⟩ := h.assets.exists_stores hq
  rw [h.assets.keepsDirectories.locate hmap.shows.locate, hassets.shows.locate]
  exact fun heq => map_ne_assets hmap hassets (Except.ok.inj heq)

theorem readText_assets {p : Path} (hp : p ∈ written.assets) :
    after.readText p = .ok (Sheet.renderAssets journal.assets) := by
  obtain ⟨rfl, _, place, hassets⟩ := h.assets.exists_stores hp
  exact hassets.shows.readText

theorem readText_map {p : Path} (hp : p ∈ written.map) :
    after.readText p = .ok journal.ledger.usageMap := by
  obtain ⟨rfl, _, place, hmap⟩ := h.map.exists_stores hp
  refine (h.assets.shows_of_ne hmap.shows fun q hq heq => ?_).readText
  have hne := h.locate_map_ne_assets hp hq
  rw [h.assets.keepsDirectories.locate hmap.shows.locate] at hne
  exact hne heq.symm

/-- The sheet is read back if the sheet of images has not taken its place. -/
theorem readText_sheet {p : Path} (hp : p ∈ written.sheet)
    (hne : ∀ q ∈ written.assets, after.locate p ≠ after.locate q) :
    after.readText p = .ok (Sheet.render journal.plain root settings.groupByFolder) := by
  obtain ⟨rfl, _, place, hsheet⟩ := h.sheet.exists_stores hp
  have hlocate := h.keeps_first.locate hsheet.shows.locate
  have hsecond := h.map.shows_of_ne hsheet.shows fun q hq heq =>
    h.locate_sheet_ne_map hp hq (by rw [hlocate, h.assets.keepsDirectories.locate heq])
  have hafter := h.assets.shows_of_ne hsecond fun q hq heq => hne q hq (by rw [hlocate, heq])
  exact hafter.readText

theorem fileName?_output_of_locate_eq {p q : Path} (hp : p ∈ written.sheet)
    (hq : q ∈ written.assets) (heq : after.locate p = after.locate q) :
    (⟨settings.output⟩ : Path).fileName? = some assetsFileName := by
  obtain ⟨rfl, _, place, hsheet⟩ := h.sheet.exists_stores hp
  obtain ⟨rfl, _, other, hassets⟩ := h.assets.exists_stores hq
  rw [h.keeps_first.locate hsheet.shows.locate, hassets.shows.locate] at heq
  obtain rfl := Except.ok.inj heq
  exact fileName?_output_of_clash hsheet hassets

end Steps

/-- Some output of a run, read from the disk, defines a name. -/
def DefinedIn (disk : Disk) (path? : Option Path) (name : Text) : Prop :=
  ∃ p ∈ path?, ∃ s, disk.readText p = .ok s ∧ Sheet.Defines s name

/-- **Every output is read back.**  If the outputs can be written, each wanted one is; the usage map
and the sheet of images are read back as they were rendered, every image has its definition on the
disk, and the usage map shares its place with no other output.  The sheet is read back as well and
every lifted value has its definition on the disk, unless the sheet of images has taken the place
of the sheet, which happens only if the settings call the sheet `assets.css` too. -/
theorem outputs_read_back {written : Written}
    (h : write root settings journal before = (.ok written, after)) :
    (written.sheet.isSome = !journal.plain.isEmpty ∧
      written.map.isSome = settings.exportMap ∧
      written.assets.isSome = (settings.exportAssets && !journal.assets.isEmpty)) ∧
    (∀ p ∈ written.map, after.readText p = .ok journal.ledger.usageMap) ∧
    (∀ p ∈ written.assets, after.readText p = .ok (Sheet.renderAssets journal.assets)) ∧
    (settings.exportAssets = true →
      ∀ v ∈ journal.assets, DefinedIn after written.assets v.name) ∧
    (∀ p ∈ written.sheet, ∀ q ∈ written.map, after.locate p ≠ after.locate q) ∧
    (∀ p ∈ written.map, ∀ q ∈ written.assets, after.locate p ≠ after.locate q) ∧
    (((∀ p ∈ written.sheet,
          after.readText p = .ok (Sheet.render journal.plain root settings.groupByFolder) ∧
          ∀ q ∈ written.assets, after.locate p ≠ after.locate q) ∧
        ∀ v ∈ journal.plain, DefinedIn after written.sheet v.name) ∨
      (∃ p ∈ written.sheet, ∃ q ∈ written.assets, after.locate p = after.locate q) ∧
        (⟨settings.output⟩ : Path).fileName? = some assetsFileName) := by
  obtain ⟨first, second, hsteps⟩ := exists_steps h
  refine ⟨⟨hsteps.sheet.isSome_eq, hsteps.map.isSome_eq, hsteps.assets.isSome_eq⟩,
    fun p => hsteps.readText_map, fun p => hsteps.readText_assets, ?_,
    fun p hp q => hsteps.locate_sheet_ne_map hp, fun p hp q => hsteps.locate_map_ne_assets hp, ?_⟩
  · intro hexport v hv
    have hsome : written.assets.isSome = true := by
      rw [hsteps.assets.isSome_eq, hexport]
      simpa using List.ne_nil_of_mem hv
    obtain ⟨p, hp⟩ := Option.isSome_iff_exists.1 hsome
    exact ⟨p, hp, _, hsteps.readText_assets hp, Sheet.defines_renderAssets hv⟩
  · by_cases hclash : ∃ p ∈ written.sheet, ∃ q ∈ written.assets, after.locate p = after.locate q
    · obtain ⟨p, hp, q, hq, heq⟩ := hclash
      exact Or.inr ⟨⟨p, hp, q, hq, heq⟩, hsteps.fileName?_output_of_locate_eq hp hq heq⟩
    · have hapart : ∀ p ∈ written.sheet, ∀ q ∈ written.assets, after.locate p ≠ after.locate q :=
        fun p hp q hq heq => hclash ⟨p, hp, q, hq, heq⟩
      have hread := fun p hp => hsteps.readText_sheet hp (hapart p hp)
      refine Or.inl ⟨fun p hp => ⟨hread p hp, hapart p hp⟩, fun v hv => ?_⟩
      have hsome : written.sheet.isSome = true := by
        rw [hsteps.sheet.isSome_eq]
        simpa using List.ne_nil_of_mem hv
      obtain ⟨p, hp⟩ := Option.isSome_iff_exists.1 hsome
      exact ⟨p, hp, _, hread p hp, Sheet.defines_render hv root settings.groupByFolder⟩

/-- A journal with one lifted value and one inlined image. -/
def mixedJournal : Journal where
  plain := [⟨"color".toList, "red".toList, "--a".toList, .ofString "/a.css", 1⟩]
  assets := [⟨"background".toList, "url(data:image/png;base64,AA==)".toList, "--b".toList,
    .ofString "/a.css", 1⟩]

/-- Settings that ask for all outputs, with a name for the sheet. -/
def allOutputs (output : String) : Settings :=
  { Settings.default with output := output.toList, exportMap := true, exportAssets := true }

/-- All outputs on a disk that has a sheet from before. -/
theorem outputs_read_back_beside_sheet :
    ∃ written after,
      write (.ofString "/") (allOutputs "variables.css") mixedJournal
        ⟨[(["variables.css".toList], .file .empty)], []⟩ = (.ok written, after) ∧
      written.sheet = some (.ofString "/variables-1.css") ∧
      DefinedIn after written.sheet "--a".toList ∧ DefinedIn after written.assets "--b".toList := by
  have hpaths : (write (.ofString "/") (allOutputs "variables.css") mixedJournal
      ⟨[(["variables.css".toList], .file .empty)], []⟩).1.toOption =
        some ⟨some (.ofString "/variables-1.css"), some (.ofString "/variables-1.map.json"),
          some (.ofString "/assets.css"), []⟩ := by decide +kernel
  have hwrite := Run.eq_of_toOption hpaths
  obtain ⟨-, -, -, hassets, -, -, ⟨-, hplain⟩ | ⟨-, hname⟩⟩ := outputs_read_back hwrite
  · exact ⟨_, _, hwrite, rfl, hplain _ List.mem_cons_self, hassets rfl _ List.mem_cons_self⟩
  · exact absurd hname (by decide)

/-- A sheet that is called like the sheet of images is lost: both are written to the same path,
and what is read there is not the sheet. -/
theorem sheet_lost_to_assets :
    ∃ written after,
      write (.ofString "/") (allOutputs "assets.css") mixedJournal {} = (.ok written, after) ∧
      written.sheet = some (.ofString "/assets.css") ∧
      written.assets = some (.ofString "/assets.css") ∧
      after.readText (.ofString "/assets.css") ≠
        .ok (Sheet.render mixedJournal.plain (.ofString "/") false) := by
  have hpaths : (write (.ofString "/") (allOutputs "assets.css") mixedJournal {}).1.toOption =
      some ⟨some (.ofString "/assets.css"), some (.ofString "/assets.map.json"),
        some (.ofString "/assets.css"), []⟩ := by decide +kernel
  have hlost : ((write (.ofString "/") (allOutputs "assets.css") mixedJournal {}).2.readText
      (.ofString "/assets.css")).toOption ≠
        some (Sheet.render mixedJournal.plain (.ofString "/") false) := by decide +kernel
  refine ⟨_, _, Run.eq_of_toOption hpaths, rfl, rfl, fun hread => ?_⟩
  exact hlost (congrArg Except.toOption hread)

end Outputs

end StyleLift
