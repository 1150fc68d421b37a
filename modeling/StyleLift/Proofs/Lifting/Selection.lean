import StyleLift.Proofs.Lifting.Idempotence
import StyleLift.Proofs.Lifting.Postings

/-!
# Which declarations are lifted

Whether a declaration is lifted is decided on the way to its variable, by a row of early exits, and
the last of them is behind a look at the disk.  The rules are few nevertheless, and none of them
asks for the journal: the property is one of the listed ones, the value is of a form that can be
lifted, and where images are inlined its image is there and can be encoded.  A declaration that
breaks a rule leaves the journal alone, except that the last rule is worth a warning.

* `Qualifies`: the rules.  `LacksImage`: what the warnings are about.
* `isLifted_select_iff`, `select_eq_warn_iff`: the selections, by the rules.
* `treated_visit`: one visit, to the entry and to the journal.
* `journalAfter`, `exists_treated_visitAll`, `countP_visitAll`: the visits of a document, one by
  one.
* `lift_replaces_exactly`: the result.
-/

namespace StyleLift.Lifter

open Stylesheet (Declaration Document Entry)

variable {lifter : Lifter} {disk : Disk} {path : Path} {d : Declaration} {journal : Journal}

/-! ## The rules -/

/-- The declaration is one to lift: it is admitted, and an image that it needs is there and can be
encoded. -/
structure Qualifies (lifter : Lifter) (disk : Disk) (path : Path) (d : Declaration) : Prop
    extends lifter.Admits d where
  image : ∀ asset, lifter.Needs path d asset →
    disk.pathExists asset = true ∧ ∃ encoded, lifter.encoder disk asset = .ok encoded

/-- The declaration has everything but its image, and the warning says what is wrong with that: it
is missing, or it is there and cannot be encoded. -/
def LacksImage (lifter : Lifter) (disk : Disk) (path : Path) (d : Declaration)
    (warning : Warning) : Prop :=
  lifter.Admits d ∧ ∃ asset, lifter.Needs path d asset ∧
    (disk.pathExists asset = false ∧ warning = .missingAsset path d.line asset ∨
      disk.pathExists asset = true ∧ ∃ cause, lifter.encoder disk asset = .error cause ∧
        warning = .unreadableAsset path d.line asset cause)

/-- A declaration needs one image at most. -/
theorem Needs.unique {asset asset' : Path} (h : lifter.Needs path d asset)
    (h' : lifter.Needs path d asset') : asset = asset' := by
  obtain ⟨-, reference, hkind, rfl⟩ := h
  obtain ⟨-, reference', hkind', rfl⟩ := h'
  rw [hkind] at hkind'
  rw [Value.Kind.image.inj hkind']

/-! ## The selections -/

/-- **What is lifted.** -/
theorem isLifted_select_iff :
    (lifter.select disk path d).isLifted = true ↔ lifter.Qualifies disk path d := by
  generalize hselect : lifter.select disk path d = selection
  have hverdict := verdict_select lifter disk path d
  rw [hselect] at hverdict
  cases hverdict with
  | excluded h => exact ⟨nofun, fun hq => absurd hq.toAdmits h⟩
  | plain h hneeds =>
    exact ⟨fun _ => ⟨h, fun asset hasset => absurd hasset (hneeds asset)⟩, fun _ => rfl⟩
  | missing h hneeds hexists =>
    refine ⟨nofun, fun hq => ?_⟩
    rw [(hq.image _ hneeds).1] at hexists
    cases hexists
  | unreadable h hneeds hexists hencoder =>
    refine ⟨nofun, fun hq => ?_⟩
    obtain ⟨-, encoded, hencoded⟩ := hq.image _ hneeds
    rw [hencoded] at hencoder
    cases hencoder
  | inlined h hneeds hexists hencoder =>
    refine ⟨fun _ => ⟨h, fun asset hasset => ?_⟩, fun _ => rfl⟩
    rw [hasset.unique hneeds]
    exact ⟨hexists, _, hencoder⟩

/-- **What is warned about.** -/
theorem select_eq_warn_iff {warning : Warning} :
    lifter.select disk path d = .warn warning ↔ lifter.LacksImage disk path d warning := by
  generalize hselect : lifter.select disk path d = selection
  have hverdict := verdict_select lifter disk path d
  rw [hselect] at hverdict
  cases hverdict with
  | excluded h => exact ⟨nofun, fun hlacks => absurd hlacks.1 h⟩
  | plain h hneeds =>
    refine ⟨nofun, ?_⟩
    rintro ⟨-, asset, hasset, -⟩
    exact absurd hasset (hneeds asset)
  | missing h hneeds hexists =>
    rw [Selection.warn.injEq]
    constructor
    · rintro rfl
      exact ⟨h, _, hneeds, Or.inl ⟨hexists, rfl⟩⟩
    · rintro ⟨-, asset, hasset, ⟨-, rfl⟩ | ⟨hthere, -⟩⟩
      · rw [hasset.unique hneeds]
      · rw [hasset.unique hneeds, hexists] at hthere
        cases hthere
  | unreadable h hneeds hexists hencoder =>
    rw [Selection.warn.injEq]
    constructor
    · rintro rfl
      exact ⟨h, _, hneeds, Or.inr ⟨hexists, _, hencoder, rfl⟩⟩
    · rintro ⟨-, asset, hasset, ⟨hgone, -⟩ | ⟨-, cause, hcause, rfl⟩⟩
      · rw [hasset.unique hneeds, hexists] at hgone
        cases hgone
      · rw [hasset.unique hneeds, hencoder] at hcause
        rw [hasset.unique hneeds, Except.error.inj hcause]
  | inlined h hneeds hexists hencoder =>
    refine ⟨nofun, ?_⟩
    rintro ⟨-, asset, hasset, ⟨hgone, -⟩ | ⟨-, cause, hcause, -⟩⟩
    · rw [hasset.unique hneeds, hexists] at hgone
      cases hgone
    · rw [hasset.unique hneeds, hencoder] at hcause
      cases hcause

instance (lifter : Lifter) (disk : Disk) (path : Path) (d : Declaration) :
    Decidable (lifter.Qualifies disk path d) :=
  decidable_of_iff _ isLifted_select_iff

/-! ## One visit -/

/-- What a visit makes of an entry and of the journal it finds.  A declaration that qualifies gets a
reference to the name that was asked for, and one lifting goes into the journal.  Any other keeps
its entry, and leaves the journal as it was but for one warning if it lacks its image. -/
structure Treated (lifter : Lifter) (disk : Disk) (path : Path) (before : Journal) (e e' : Entry)
    (after : Journal) : Prop where
  lifted : lifter.Qualifies disk path e.declaration → ∃ lifting : Lifting,
    lifting.path = path ∧ lifting.declaration = e.declaration ∧
    lifting.name = (lifter.name path e.declaration lifting.value before).1 ∧
    e' = { e with replacement := some (reference lifting.name) } ∧
    lifter.Posted before [lifting] after ∧ after.warnings = before.warnings
  kept : ¬ lifter.Qualifies disk path e.declaration → e' = e
  warned : ∀ warning, lifter.LacksImage disk path e.declaration warning →
    after = { before with warnings := before.warnings ++ [warning] }
  left : ¬ lifter.Qualifies disk path e.declaration →
    (∀ warning, ¬ lifter.LacksImage disk path e.declaration warning) → after = before

/-- **What a visit does.** -/
theorem treated_visit (lifter : Lifter) (disk : Disk) (path : Path) (journal : Journal)
    (e : Entry) :
    lifter.Treated disk path journal e (marked e (lifter.visit disk path e.declaration journal).1)
      (lifter.visit disk path e.declaration journal).2 := by
  have hlifted : (lifter.select disk path e.declaration).isLifted = true ↔
    lifter.Qualifies disk path e.declaration := isLifted_select_iff
  have hwarn : ∀ warning, lifter.select disk path e.declaration = .warn warning ↔
    lifter.LacksImage disk path e.declaration warning := fun _ => select_eq_warn_iff
  cases hselect : lifter.select disk path e.declaration with
  | leave =>
    rw [hselect] at hlifted hwarn
    rw [visit_of_leave hselect]
    exact ⟨fun h => absurd (hlifted.2 h) Bool.false_ne_true, fun _ => rfl,
      fun w h => absurd ((hwarn w).2 h) nofun, fun _ _ => rfl⟩
  | warn warning =>
    rw [hselect] at hlifted hwarn
    rw [visit_of_warn hselect]
    refine ⟨fun h => absurd (hlifted.2 h) Bool.false_ne_true, fun _ => rfl, ?_,
      fun _ hnone => absurd ((hwarn warning).1 rfl) (hnone warning)⟩
    intro w h
    rw [Selection.warn.inj ((hwarn w).2 h)]
  | lift =>
    rw [hselect] at hlifted hwarn
    have hq := hlifted.1 rfl
    rw [visit_of_lift hselect]
    refine ⟨fun _ => ?_, absurd hq, fun w h => absurd ((hwarn w).2 h) nofun, absurd hq⟩
    exact ⟨⟨path, e.declaration, none, _⟩, rfl, rfl, rfl, rfl,
      ⟨rfl, (List.append_nil _).symm, rfl, List.prefix_rfl, List.prefix_rfl⟩, rfl⟩
  | inline url =>
    rw [hselect] at hlifted hwarn
    have hq := hlifted.1 rfl
    rw [visit_of_inline hselect]
    refine ⟨fun _ => ?_, absurd hq, fun w h => absurd ((hwarn w).2 h) nofun, absurd hq⟩
    exact ⟨⟨path, e.declaration, some url, _⟩, rfl, rfl, rfl, rfl,
      ⟨(List.append_nil _).symm, rfl, rfl, List.prefix_rfl, List.prefix_rfl⟩, rfl⟩

/-! ## The visits of a document -/

/-- The journal after the visits of the first `n` entries. -/
def journalAfter (lifter : Lifter) (disk : Disk) (path : Path) (journal : Journal)
    (entries : List Entry) (n : Nat) : Journal :=
  (lifter.visitAll disk path journal (entries.take n)).2.2

@[simp] theorem journalAfter_zero (entries : List Entry) :
    lifter.journalAfter disk path journal entries 0 = journal := rfl

theorem journalAfter_cons_succ (e : Entry) (rest : List Entry) (n : Nat) :
    lifter.journalAfter disk path journal (e :: rest) (n + 1) =
      lifter.journalAfter disk path (lifter.visit disk path e.declaration journal).2 rest n := by
  rw [journalAfter, List.take_succ_cons, journal_visitAll_cons, journalAfter]

theorem journalAfter_length (entries : List Entry) :
    lifter.journalAfter disk path journal entries entries.length =
      (lifter.visitAll disk path journal entries).2.2 := by
  rw [journalAfter, List.take_length]

/-- **What becomes of every entry**, in the journal that its visit finds. -/
theorem exists_treated_visitAll {entries : List Entry} {i : Nat} {e : Entry}
    (h : entries[i]? = some e) :
    ∃ e', (lifter.visitAll disk path journal entries).1[i]? = some e' ∧
      lifter.Treated disk path (lifter.journalAfter disk path journal entries i) e e'
        (lifter.journalAfter disk path journal entries (i + 1)) := by
  induction entries generalizing journal i with
  | nil => cases h
  | cons first rest ih =>
    rw [entries_visitAll_cons, journalAfter_cons_succ]
    cases i with
    | zero =>
      obtain rfl : first = e := Option.some.inj h
      rw [journalAfter_zero, journalAfter_zero]
      exact ⟨_, rfl, treated_visit lifter disk path journal first⟩
    | succ i =>
      rw [journalAfter_cons_succ]
      exact ih h

theorem length_visitAll (entries : List Entry) :
    (lifter.visitAll disk path journal entries).1.length = entries.length := by
  induction entries generalizing journal with
  | nil => rfl
  | cons e rest ih => rw [entries_visitAll_cons, List.length_cons, List.length_cons, ih]

/-- A visit gives a name exactly where a value is lifted. -/
theorem isSome_visit (journal : Journal) :
    (lifter.visit disk path d journal).1.isSome = (lifter.select disk path d).isLifted := by
  cases hselect : lifter.select disk path d with
  | leave => rw [visit_of_leave hselect]; rfl
  | warn warning => rw [visit_of_warn hselect]; rfl
  | lift => rw [visit_of_lift hselect]; rfl
  | inline url => rw [visit_of_inline hselect]; rfl

/-- **The number of the declarations that are lifted.** -/
theorem countP_visitAll (entries : List Entry) :
    (lifter.visitAll disk path journal entries).2.1 =
      (entries.map Entry.declaration).countP fun d => lifter.Qualifies disk path d := by
  induction entries generalizing journal with
  | nil => rfl
  | cons e rest ih =>
    have hfirst : (lifter.visit disk path e.declaration journal).1.toList.length =
        if lifter.Qualifies disk path e.declaration then 1 else 0 := by
      rw [Option.length_toList]
      simp only [isSome_visit, isLifted_select_iff]
    rw [count_visitAll_cons, ih, hfirst, List.map_cons, List.countP_cons, Nat.add_comm]
    simp only [decide_eq_true_eq]

/-- **Exactly the declarations that qualify are lifted.**

A document is lifted in any journal.  Its text stays, and so do its entries, but for those whose
declarations qualify: they get references to the names of their liftings.  The visits lead from the
journal, with the preprocessor variables of the document added, to the journal of the result; that
of a declaration that does not qualify changes nothing, or adds the one warning about its image. -/
theorem lift_replaces_exactly (lifter : Lifter) (disk : Disk) (path : Path) (dialect : Dialect)
    (doc : Document) (journal : Journal) :
    let result := lifter.lift disk path dialect doc journal
    let state := lifter.journalAfter disk path (openedFor journal ⟨disk, path, dialect, doc⟩)
      doc.entries
    result.document.source = doc.source ∧
      result.document.entries.length = doc.entries.length ∧
      (∀ i e, doc.entries[i]? = some e → ∃ e', result.document.entries[i]? = some e' ∧
        lifter.Treated disk path (state i) e e' (state (i + 1))) ∧
      result.count = doc.declarations.countP (fun d => lifter.Qualifies disk path d) ∧
      state 0 = { journal with references := (state 0).references } ∧
      state doc.entries.length = result.journal ∧
      ∀ d known, (lifter.context path d known).kind = Value.kind d.value := by
  intro result state
  refine ⟨rfl, length_visitAll _, fun i e h => exists_treated_visitAll h, countP_visitAll _, ?_,
    journalAfter_length _, fun _ _ => rfl⟩
  cases dialect with
  | css => rfl
  | scss => rfl

/-- Where images are inlined, a preprocessor variable is lifted and an image that is not there is
not. -/
example :
    let lifter : Lifter :=
      { root := ⟨[]⟩, settings := { Settings.default with exportAssets := true } }
    [("Color", "red"), ("color", "$red"), ("color", "Transparent"), ("color", "var(--red)"),
      ("background", "url(i.png)")].map (fun (property, value) =>
        decide (lifter.Qualifies {} (Path.ofString "s.css")
          ⟨property.toList, value.toList, 1, [], ⟨0, 0⟩, []⟩)) =
      [true, true, false, false, false] := by
  decide +kernel

end StyleLift.Lifter
