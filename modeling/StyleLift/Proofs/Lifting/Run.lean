import Mathlib.Data.List.Forall2
import StyleLift.Lifting
import StyleLift.Proofs.Text.Cuts

/-!
# Lifting many documents

A run lifts the documents of its files one after the other and carries the journal along.  What a
run does to its documents and to its journal follows from what one visit does, and this file is
where the passage from the visit to the run is made, once for all statements about runs.

* `Admits`, `Needs`: what a declaration has to be for its value to be lifted, and when an image decides.
* `Verdict`, `verdict_select`: the selections, each with the reason it is made for.
* `visit_of_leave`, `visit_of_warn`, `visit_of_lift`, `visit_of_inline`: the four visits.
* `visit_cases`: what a visit does to names and variables.
* `liftAll_journal`: what every visit and every collection of references keeps, a run keeps.
* `Journal.Extends`: the journal only grows.
* `Accounted`: what becomes of an entry, and under which conditions on the name and value of its
  variable; `forall₂_accounted_liftAll` says it of all entries of a run and of its last journal.
-/

namespace StyleLift

open Stylesheet (Declaration Document Entry)

/-- A file that has been read as a stylesheet. -/
structure SourceFile where
  path : Path
  dialect : Dialect
  source : Text
  document : Document
  parsed : Document.parse dialect source = .ok document

/-- The declarations of a document are those of its entries. -/
theorem Stylesheet.Document.mem_declarations {doc : Document} {e : Entry} (h : e ∈ doc.entries) :
    e.declaration ∈ doc.declarations :=
  List.mem_map_of_mem h

namespace Lifter

/-- Lifts the documents of files in order: the documents after, and the last journal. -/
def liftAll (lifter : Lifter) (disk : Disk) (journal : Journal) :
    List SourceFile → List Document × Journal
  | [] => ([], journal)
  | file :: files =>
    let result := lifter.lift disk file.path file.dialect file.document journal
    let rest := lifter.liftAll disk result.journal files
    (result.document :: rest.1, rest.2)

variable {lifter : Lifter} {disk : Disk} {path : Path} {d : Declaration} {journal : Journal}

/-! ## What is selected -/

/-- The property is listed, and the value is neither a reference to a custom property nor the name
of one, has no preprocessor variable in it unless images are inlined, and is not `transparent`. -/
structure Admits (lifter : Lifter) (d : Declaration) : Prop where
  property : ∃ p ∈ lifter.settings.properties, Text.lower p = Text.lower d.property
  not_reference : ¬ "var(".toList <+: d.value
  not_name : ¬ "--".toList <+: d.value
  no_sigil : sigil ∈ d.value → lifter.settings.exportAssets = true
  not_transparent : Value.kind d.value ≠ .transparent

/-- Images are inlined, and the value refers to the image at `asset`. -/
def Needs (lifter : Lifter) (path : Path) (d : Declaration) (asset : Path) : Prop :=
  lifter.settings.exportAssets = true ∧
    ∃ reference, Value.kind d.value = .image reference ∧ asset = Image.assetPath path reference

/-- The selections and the rules they come from. -/
inductive Verdict (lifter : Lifter) (disk : Disk) (path : Path) (d : Declaration) :
    Selection → Prop
  | excluded (h : ¬ lifter.Admits d) : Verdict lifter disk path d .leave
  | plain (h : lifter.Admits d) (hneeds : ∀ asset, ¬ lifter.Needs path d asset) :
      Verdict lifter disk path d .lift
  | missing {asset : Path} (h : lifter.Admits d) (hneeds : lifter.Needs path d asset)
      (hexists : disk.pathExists asset = false) :
      Verdict lifter disk path d (.warn (.missingAsset path d.line asset))
  | unreadable {asset : Path} {cause : Image.Fault} (h : lifter.Admits d)
      (hneeds : lifter.Needs path d asset) (hexists : disk.pathExists asset = true)
      (hencoder : lifter.encoder disk asset = .error cause) :
      Verdict lifter disk path d (.warn (.unreadableAsset path d.line asset cause))
  | inlined {asset : Path} {encoded : Text} (h : lifter.Admits d)
      (hneeds : lifter.Needs path d asset) (hexists : disk.pathExists asset = true)
      (hencoder : lifter.encoder disk asset = .ok encoded) :
      Verdict lifter disk path d (.inline (Image.dataUrl asset encoded))

theorem targets_iff : lifter.settings.targets d.property = true ↔
    ∃ p ∈ lifter.settings.properties, Text.lower p = Text.lower d.property := by
  simp [Settings.targets, Text.sameIgnoringCase]

/-- An image that is needed decides. -/
theorem verdict_selectImage {reference : Text} (h : lifter.Admits d)
    (hassets : lifter.settings.exportAssets = true)
    (hkind : Value.kind d.value = .image reference) :
    lifter.Verdict disk path d (lifter.selectImage disk path d reference) := by
  have hneeds : lifter.Needs path d (Image.assetPath path reference) :=
    ⟨hassets, reference, hkind, rfl⟩
  simp only [selectImage]
  split
  · rename_i hexists
    exact .missing h hneeds (by simpa using hexists)
  · rename_i hexists
    have hthere : disk.pathExists (Image.assetPath path reference) = true := by simpa using hexists
    cases hencoder : lifter.encoder disk (Image.assetPath path reference) with
    | ok encoded => exact .inlined h hneeds hthere hencoder
    | error cause => exact .unreadable h hneeds hthere hencoder

/-- **Every selection comes from a rule.** -/
theorem verdict_select (lifter : Lifter) (disk : Disk) (path : Path) (d : Declaration) :
    lifter.Verdict disk path d (lifter.select disk path d) := by
  -- the exits in their order; what is left behind the last of them is admitted
  rw [select]
  by_cases htargets : lifter.settings.targets d.property = true
  swap
  · rw [if_pos (by simpa using htargets)]
    exact .excluded fun h => htargets (targets_iff.2 h.property)
  rw [if_neg (by simpa using htargets)]
  simp only [Bool.or_eq_true, Text.isSome_after?_iff]
  by_cases hstart : "var(".toList <+: d.value ∨ "--".toList <+: d.value
  · rw [if_pos hstart]
    exact .excluded fun h => hstart.elim h.not_reference h.not_name
  rw [if_neg hstart]
  by_cases hsigil : sigil ∈ d.value → lifter.settings.exportAssets = true
  swap
  · rw [if_pos (by simpa using hsigil)]
    exact .excluded fun h => hsigil h.no_sigil
  rw [if_neg (by simpa using hsigil)]
  rw [not_or] at hstart
  have hadmits : Value.kind d.value ≠ .transparent → lifter.Admits d := fun hkind =>
    ⟨targets_iff.1 htargets, hstart.1, hstart.2, hsigil, hkind⟩
  cases hkind : Value.kind d.value with
  | transparent => exact .excluded fun h => h.not_transparent hkind
  | image reference =>
    have h := hadmits (by simp [hkind])
    dsimp only
    split_ifs with hassets
    · exact verdict_selectImage h hassets hkind
    · exact .plain h fun asset hneeds => hassets hneeds.1
  | quoted | reference | gradient | plain =>
    refine .plain (hadmits (by simp [hkind])) ?_
    rintro asset ⟨-, reference, himage, -⟩
    rw [hkind] at himage
    cases himage

/-! ## One visit -/

theorem visit_of_leave (h : lifter.select disk path d = .leave) :
    lifter.visit disk path d journal = (none, journal) := by
  rw [visit, h]

theorem visit_of_warn {warning : Warning} (h : lifter.select disk path d = .warn warning) :
    lifter.visit disk path d journal =
      (none, { journal with warnings := journal.warnings ++ [warning] }) := by
  rw [visit, h]

theorem visit_of_lift (h : lifter.select disk path d = .lift) :
    lifter.visit disk path d journal =
      (some (lifter.name path d d.value journal).1,
        { journal with
          plain := journal.plain ++
            [⟨d.property, d.value, (lifter.name path d d.value journal).1, path, d.line⟩]
          names := (lifter.name path d d.value journal).2
          ledger := journal.ledger.record (lifter.name path d d.value journal).1
            (lifter.usage path d) }) := by
  rw [visit, h]

theorem visit_of_inline {url : Text} (h : lifter.select disk path d = .inline url) :
    lifter.visit disk path d journal =
      (some (lifter.name path d url journal).1,
        { journal with
          assets := journal.assets ++
            [⟨d.property, url, (lifter.name path d url journal).1, path, d.line⟩]
          names := (lifter.name path d url journal).2
          ledger := journal.ledger.record (lifter.name path d url journal).1
            (lifter.usage path d) }) := by
  rw [visit, h]

/-- By the default scheme the registry is asked for the name. -/
theorem name_of_default (h : lifter.strategy = none) (shared : Text) :
    lifter.name path d shared journal =
      journal.names.assign (Text.lower d.property) shared
        (lifter.context path d journal.references) := by
  rw [name, h]

/-- An image that is inlined is there and can be encoded, and its data URL is lifted. -/
def Resolves (lifter : Lifter) (disk : Disk) (path : Path) (d : Declaration) (url : Text) :
    Prop :=
  ∃ reference encoded, Value.kind d.value = .image reference ∧
    disk.pathExists (Image.assetPath path reference) = true ∧
    lifter.encoder disk (Image.assetPath path reference) = .ok encoded ∧
    url = Image.dataUrl (Image.assetPath path reference) encoded

theorem resolves_of_select {url : Text} (h : lifter.select disk path d = .inline url) :
    lifter.Resolves disk path d url := by
  have hverdict := verdict_select lifter disk path d
  rw [h] at hverdict
  cases hverdict with
  | inlined hadmits hneeds hexists hencoder =>
    obtain ⟨-, reference, hkind, rfl⟩ := hneeds
    exact ⟨reference, _, hkind, hexists, hencoder, rfl⟩

/-- The value `shared` is lifted from a declaration: its own value, or the data URL of its
image. -/
def Lifts (lifter : Lifter) (disk : Disk) (path : Path) (d : Declaration) (shared : Text) : Prop :=
  lifter.select disk path d = .lift ∧ shared = d.value ∨ lifter.select disk path d = .inline shared

/-- **What a visit does to names and variables.**  By the default scheme it does nothing, or it
makes one request and puts one variable into the journal, with the lifted value and the answer to
the request. -/
theorem visit_cases (hscheme : lifter.strategy = none) :
    ((lifter.visit disk path d journal).2.names = journal.names ∧
      (lifter.visit disk path d journal).2.plain = journal.plain ∧
      (lifter.visit disk path d journal).2.assets = journal.assets) ∨
    ∃ shared, lifter.Lifts disk path d shared ∧
      (lifter.visit disk path d journal).2.names = (journal.names.assign
        (Text.lower d.property) shared (lifter.context path d journal.references)).2 ∧
      ∀ v ∈ (lifter.visit disk path d journal).2.plain ++
        (lifter.visit disk path d journal).2.assets,
        v ∈ journal.plain ++ journal.assets ∨ v.value = shared ∧
          v.name = (journal.names.assign (Text.lower d.property) shared
            (lifter.context path d journal.references)).1 := by
  cases hselect : lifter.select disk path d with
  | leave =>
    rw [visit_of_leave hselect]
    exact Or.inl ⟨rfl, rfl, rfl⟩
  | warn warning =>
    rw [visit_of_warn hselect]
    exact Or.inl ⟨rfl, rfl, rfl⟩
  | lift =>
    rw [visit_of_lift hselect, name_of_default hscheme]
    refine Or.inr ⟨d.value, Or.inl ⟨hselect, rfl⟩, rfl, ?_⟩
    intro v hv
    simp only [List.append_assoc, List.mem_append, List.mem_singleton] at hv ⊢
    rcases hv with hv | rfl | hv
    · exact Or.inl (Or.inl hv)
    · exact Or.inr ⟨rfl, rfl⟩
    · exact Or.inl (Or.inr hv)
  | inline url =>
    rw [visit_of_inline hselect, name_of_default hscheme]
    refine Or.inr ⟨url, Or.inr hselect, rfl, ?_⟩
    intro v hv
    simp only [List.mem_append, List.mem_singleton] at hv ⊢
    rcases hv with hv | hv | rfl
    · exact Or.inl (Or.inl hv)
    · exact Or.inl (Or.inr hv)
    · exact Or.inr ⟨rfl, rfl⟩

/-! ## The visits of one document -/

/-- An entry after its visit. -/
def marked (e : Entry) : Option Text → Entry
  | none => e
  | some name => { e with replacement := some (reference name) }

@[simp] theorem visitAll_nil : lifter.visitAll disk path journal [] = ([], 0, journal) := rfl

theorem entries_visitAll_cons (e : Entry) (rest : List Entry) :
    (lifter.visitAll disk path journal (e :: rest)).1 =
      marked e (lifter.visit disk path e.declaration journal).1 ::
        (lifter.visitAll disk path (lifter.visit disk path e.declaration journal).2 rest).1 := by
  rw [visitAll]
  split <;> rename_i hvisit <;> rw [hvisit] <;> rfl

theorem journal_visitAll_cons (e : Entry) (rest : List Entry) :
    (lifter.visitAll disk path journal (e :: rest)).2.2 =
      (lifter.visitAll disk path (lifter.visit disk path e.declaration journal).2 rest).2.2 := by
  rw [visitAll]
  split <;> rename_i hvisit <;> rw [hvisit]

/-- What every visit keeps, the visits of a document keep. -/
theorem visitAll_journal {P : Journal → Prop} {entries : List Entry}
    (hvisit : ∀ e ∈ entries, ∀ journal, P journal →
      P (lifter.visit disk path e.declaration journal).2) (h : P journal) :
    P (lifter.visitAll disk path journal entries).2.2 := by
  induction entries generalizing journal with
  | nil => exact h
  | cons e rest ih =>
    rw [journal_visitAll_cons]
    exact ih (fun e' he' => hvisit e' (List.mem_cons_of_mem _ he'))
      (hvisit e List.mem_cons_self journal h)

/-! ## The documents of a run -/

/-- The journal at the first visit of a document. -/
def opened (journal : Journal) (file : SourceFile) : Journal :=
  match file.dialect with
  | .scss => journal.addReferences file.path file.document.declarations
  | .css => journal

theorem lift_eq (file : SourceFile) :
    lifter.lift disk file.path file.dialect file.document journal =
      ⟨{ file.document with
          entries := (lifter.visitAll disk file.path (opened journal file)
            file.document.entries).1 },
        (lifter.visitAll disk file.path (opened journal file) file.document.entries).2.1,
        (lifter.visitAll disk file.path (opened journal file) file.document.entries).2.2⟩ := rfl

theorem opened_journal {P : Journal → Prop} {file : SourceFile}
    (hrefs : ∀ journal, P journal →
      P (journal.addReferences file.path file.document.declarations)) (h : P journal) :
    P (opened journal file) := by
  unfold opened
  split
  · exact hrefs journal h
  · exact h

/-- **From the visit to the run.**  What the collection of references and every visit keep, a
run keeps. -/
theorem liftAll_journal {P : Journal → Prop} {files : List SourceFile}
    (hrefs : ∀ file ∈ files, ∀ journal, P journal →
      P (journal.addReferences file.path file.document.declarations))
    (hvisit : ∀ file ∈ files, ∀ e ∈ file.document.entries, ∀ journal, P journal →
      P (lifter.visit disk file.path e.declaration journal).2) (h : P journal) :
    P (lifter.liftAll disk journal files).2 := by
  induction files generalizing journal with
  | nil => exact h
  | cons file files ih =>
    rw [liftAll]
    refine ih (fun f hf => hrefs f (List.mem_cons_of_mem _ hf))
      (fun f hf => hvisit f (List.mem_cons_of_mem _ hf)) ?_
    rw [lift_eq]
    exact visitAll_journal (hvisit file List.mem_cons_self)
      (opened_journal (hrefs file List.mem_cons_self) h)

/-! ## The journal grows -/

end Lifter

/-- A later journal has all variables of an earlier one. -/
structure Journal.Extends (later earlier : Journal) : Prop where
  plain : earlier.plain <+: later.plain
  assets : earlier.assets <+: later.assets

theorem Journal.Extends.refl (journal : Journal) : journal.Extends journal :=
  ⟨List.prefix_rfl, List.prefix_rfl⟩

theorem Journal.Extends.trans {j₁ j₂ j₃ : Journal} (h₂₃ : j₃.Extends j₂) (h₁₂ : j₂.Extends j₁) :
    j₃.Extends j₁ :=
  ⟨h₁₂.plain.trans h₂₃.plain, h₁₂.assets.trans h₂₃.assets⟩

namespace Lifter

variable {lifter : Lifter} {disk : Disk} {path : Path} {journal : Journal}

theorem extends_visit (d : Declaration) :
    (lifter.visit disk path d journal).2.Extends journal := by
  cases hselect : lifter.select disk path d with
  | leave =>
    rw [visit_of_leave hselect]
    exact Journal.Extends.refl journal
  | warn warning =>
    rw [visit_of_warn hselect]
    exact ⟨List.prefix_rfl, List.prefix_rfl⟩
  | lift =>
    rw [visit_of_lift hselect]
    exact ⟨List.prefix_append _ _, List.prefix_rfl⟩
  | inline url =>
    rw [visit_of_inline hselect]
    exact ⟨List.prefix_rfl, List.prefix_append _ _⟩

theorem extends_visitAll (entries : List Entry) :
    (lifter.visitAll disk path journal entries).2.2.Extends journal :=
  visitAll_journal (P := fun later => later.Extends journal)
    (fun e _ _ h => (extends_visit e.declaration).trans h) (Journal.Extends.refl journal)

theorem extends_liftAll (files : List SourceFile) :
    (lifter.liftAll disk journal files).2.Extends journal :=
  liftAll_journal (P := fun later => later.Extends journal)
    (fun _ _ _ h => ⟨h.plain, h.assets⟩)
    (fun _ _ e _ _ h => (extends_visit e.declaration).trans h) (Journal.Extends.refl journal)

/-! ## What becomes of an entry -/

theorem exists_mem_of_forall₂ {α β : Type} {R : α → β → Prop} {l : List α} {m : List β}
    (h : List.Forall₂ R l m) {a : α} (ha : a ∈ l) : ∃ b ∈ m, R a b := by
  induction h with
  | nil => simp at ha
  | cons hab _ ih =>
    rcases List.mem_cons.1 ha with rfl | ha
    · exact ⟨_, List.mem_cons_self, hab⟩
    · obtain ⟨b, hb, hrel⟩ := ih ha
      exact ⟨b, List.mem_cons_of_mem _ hb, hrel⟩

/-- The entry `e'` is what becomes of `e`.  A declaration that is left alone keeps its entry.
One that is lifted gets a reference to a name, and `plain` holds of the name and the value; one
whose image is inlined gets a reference to a name, and `assets` holds of the name and the data
URL of that image. -/
def Accounted (lifter : Lifter) (disk : Disk) (path : Path) (plain assets : Text → Text → Prop)
    (e e' : Entry) : Prop :=
  match lifter.select disk path e.declaration with
  | .leave => e' = e
  | .warn _ => e' = e
  | .lift => ∃ name, e' = marked e (some name) ∧ plain name e.declaration.value
  | .inline url => ∃ name, e' = marked e (some name) ∧
      lifter.Resolves disk path e.declaration url ∧ assets name url

theorem Accounted.mono {plain plain' assets assets' : Text → Text → Prop}
    (hplain : ∀ name value, plain name value → plain' name value)
    (hassets : ∀ name value, assets name value → assets' name value) {e e' : Entry}
    (h : lifter.Accounted disk path plain assets e e') :
    lifter.Accounted disk path plain' assets' e e' := by
  unfold Accounted at h ⊢
  split
  · simpa [*] using h
  · simpa [*] using h
  · rename_i hselect
    rw [hselect] at h
    obtain ⟨name, he, hname⟩ := h
    exact ⟨name, he, hplain _ _ hname⟩
  · rename_i hselect
    rw [hselect] at h
    obtain ⟨name, he, hurl, hname⟩ := h
    exact ⟨name, he, hurl, hassets _ _ hname⟩

/-- A name stands for a value in a list of variables. -/
def Holds (entries : List Variable) (name value : Text) : Prop :=
  ∃ v ∈ entries, v.name = name ∧ v.value = value

theorem Holds.mono {entries entries' : List Variable} (h : entries <+: entries')
    {name value : Text} (hv : Holds entries name value) : Holds entries' name value := by
  obtain ⟨v, hmem, hname, hvalue⟩ := hv
  exact ⟨v, h.subset hmem, hname, hvalue⟩

/-- An entry is accounted for in the journal right after its visit. -/
theorem accounted_visit (e : Entry) :
    lifter.Accounted disk path
      (Holds (lifter.visit disk path e.declaration journal).2.plain)
      (Holds (lifter.visit disk path e.declaration journal).2.assets) e
      (marked e (lifter.visit disk path e.declaration journal).1) := by
  cases hselect : lifter.select disk path e.declaration with
  | leave => simp only [Accounted, hselect, visit_of_leave hselect, marked]
  | warn warning => simp only [Accounted, hselect, visit_of_warn hselect, marked]
  | lift =>
    simp only [Accounted, hselect, visit_of_lift hselect]
    exact ⟨_, rfl, _, List.mem_append_right _ List.mem_cons_self, rfl, rfl⟩
  | inline url =>
    simp only [Accounted, hselect, visit_of_inline hselect]
    exact ⟨_, rfl, resolves_of_select hselect, _, List.mem_append_right _ List.mem_cons_self,
      rfl, rfl⟩

/-- Every entry of a document is accounted for in every later journal. -/
theorem forall₂_accounted_visitAll (entries : List Entry) {later : Journal}
    (hlater : later.Extends (lifter.visitAll disk path journal entries).2.2) :
    List.Forall₂ (lifter.Accounted disk path (Holds later.plain) (Holds later.assets)) entries
      (lifter.visitAll disk path journal entries).1 := by
  induction entries generalizing journal with
  | nil => exact List.Forall₂.nil
  | cons e rest ih =>
    rw [entries_visitAll_cons]
    rw [journal_visitAll_cons] at hlater
    refine List.Forall₂.cons ?_ (ih hlater)
    have hnow := hlater.trans (extends_visitAll rest)
    exact (accounted_visit e).mono (fun _ _ h => h.mono hnow.plain)
      (fun _ _ h => h.mono hnow.assets)

/-- **Every entry of a run is accounted for in its last journal.** -/
theorem forall₂_accounted_liftAll (files : List SourceFile) {later : Journal}
    (hlater : later.Extends (lifter.liftAll disk journal files).2) :
    List.Forall₂ (fun file doc =>
        List.Forall₂ (lifter.Accounted disk file.path (Holds later.plain) (Holds later.assets))
          file.document.entries doc.entries)
      files (lifter.liftAll disk journal files).1 := by
  induction files generalizing journal with
  | nil => exact List.Forall₂.nil
  | cons file files ih =>
    rw [liftAll] at hlater ⊢
    refine List.Forall₂.cons ?_ (ih hlater)
    have hnow := hlater.trans (extends_liftAll files)
    rw [lift_eq] at hnow ⊢
    exact forall₂_accounted_visitAll file.document.entries hnow

end Lifter

end StyleLift
