import StyleLift.Proofs.Lifting.Run
import StyleLift.Proofs.Naming.Registry
import StyleLift.Proofs.Sheet.Definitions

/-!
# A run can be undone

By the default scheme a name is handed out for one key, and the key holds the very value that is
put into the journal: the value itself where it is lifted as it is, and the data URL where an
image is inlined.  So a name stands for one value throughout a run.  The sheets give every name
one definition, and no other value of the same name can have overwritten it, because there is
none.

`Journal.Named` is the invariant that ties the registry to both lists of variables;
`references_defined` is the result.
-/

namespace StyleLift

open Stylesheet (Declaration Entry)

/-- The registry is sound, and has a record for every variable of the journal. -/
structure Journal.Named (journal : Journal) : Prop where
  sound : journal.names.Sound
  recorded : ∀ v ∈ journal.plain ++ journal.assets, ∃ property base,
    (⟨property, v.value, base⟩, v.name) ∈ journal.names.assigned

namespace Journal.Named

theorem empty : Journal.Named {} :=
  ⟨Naming.Registry.Sound.empty, by simp⟩

/-- **A name stands for one value.** -/
theorem value_eq {journal : Journal} (h : journal.Named) {v w : Variable}
    (hv : v ∈ journal.plain ++ journal.assets) (hw : w ∈ journal.plain ++ journal.assets)
    (hname : v.name = w.name) : v.value = w.value := by
  obtain ⟨property, base, hrecord⟩ := h.recorded v hv
  obtain ⟨property', base', hrecord'⟩ := h.recorded w hw
  rw [← hname] at hrecord'
  exact congrArg Naming.Key.value (h.sound.key_eq hrecord hrecord')

/-- A request keeps the invariant, also when the variable it was made for joins the journal. -/
theorem of_assign {journal later : Journal} (h : journal.Named) {property shared : Text}
    {ctx : Naming.Context} (hnames : later.names = (journal.names.assign property shared ctx).2)
    (hnew : ∀ v ∈ later.plain ++ later.assets, v ∈ journal.plain ++ journal.assets ∨
      v.value = shared ∧ v.name = (journal.names.assign property shared ctx).1) :
    later.Named := by
  refine ⟨?_, ?_⟩
  · rw [hnames]
    exact h.sound.assign property shared ctx
  · intro v hv
    rw [hnames]
    rcases hnew v hv with hold | ⟨hvalue, hname⟩
    · obtain ⟨property', base, hrecord⟩ := h.recorded v hold
      exact ⟨property', base, Naming.Registry.assigned_subset_assign _ _ _ _ hrecord⟩
    · rw [hvalue, hname]
      exact ⟨property, _, Naming.Registry.mem_assigned_assign _ _ _ _⟩

end Journal.Named

namespace Lifter

variable {lifter : Lifter} {disk : Disk}

/-- **Visits keep the invariant.** -/
theorem named_visit (hscheme : lifter.strategy = none) (path : Path) (d : Declaration)
    {journal : Journal} (h : journal.Named) : (lifter.visit disk path d journal).2.Named := by
  rcases visit_cases hscheme with ⟨hnames, hplain, hassets⟩ | ⟨shared, -, hnames, hnew⟩
  · refine ⟨?_, ?_⟩
    · rw [hnames]
      exact h.sound
    · rw [hnames, hplain, hassets]
      exact h.recorded
  · exact h.of_assign hnames hnew

/-- Runs keep the invariant. -/
theorem named_liftAll (hscheme : lifter.strategy = none) (files : List SourceFile)
    {journal : Journal} (h : journal.Named) : (lifter.liftAll disk journal files).2.Named :=
  liftAll_journal (fun _ _ _ hj => ⟨hj.sound, hj.recorded⟩)
    (fun file _ e _ _ hj => named_visit hscheme file.path e.declaration hj) h

/-- **Every reference that a run leaves behind is defined, once, by the value it replaced.**

In a run by the default scheme over any documents, any two variables of one name, plain or
inlined, have one value.  An entry is either as before, or refers to a name that the sheet of
plain variables defines once and by the entry's own value, or refers to a name that the sheet of
images defines once and by the data URL of the image its value resolves to. -/
theorem references_defined (root : Path) (settings : Settings) (encoder : Image.Encoder)
    (disk : Disk) (files : List SourceFile) :
    let lifter : Lifter := { root, settings, encoder }
    let run := lifter.liftAll disk {} files
    (∀ v ∈ run.2.plain ++ run.2.assets, ∀ w ∈ run.2.plain ++ run.2.assets,
      v.name = w.name → v.value = w.value) ∧
    List.Forall₂ (fun file doc =>
        List.Forall₂ (lifter.Accounted disk file.path
            (fun name value => ∀ groupOf,
              Sheet.valuesOf name (Sheet.definitions groupOf run.2.plain) = [value])
            (fun name url => ∀ groupOf,
              Sheet.valuesOf name (Sheet.definitions groupOf run.2.assets) = [url]))
          file.document.entries doc.entries)
      files run.1 := by
  intro lifter run
  have hnamed : run.2.Named := named_liftAll rfl files Journal.Named.empty
  refine ⟨fun v hv w hw => hnamed.value_eq hv hw, ?_⟩
  have hplain : ∀ name value, Holds run.2.plain name value → ∀ groupOf,
      Sheet.valuesOf name (Sheet.definitions groupOf run.2.plain) = [value] := by
    rintro name value ⟨v, hv, rfl, rfl⟩ groupOf
    refine Sheet.valuesOf_definitions_of_mem groupOf ?_ hv
    intro v hv w hw
    exact hnamed.value_eq (List.mem_append_left _ hv) (List.mem_append_left _ hw)
  have hassets : ∀ name url, Holds run.2.assets name url → ∀ groupOf,
      Sheet.valuesOf name (Sheet.definitions groupOf run.2.assets) = [url] := by
    rintro name url ⟨v, hv, rfl, rfl⟩ groupOf
    refine Sheet.valuesOf_definitions_of_mem groupOf ?_ hv
    intro v hv w hw
    exact hnamed.value_eq (List.mem_append_right _ hv) (List.mem_append_right _ hw)
  refine (forall₂_accounted_liftAll files (Journal.Extends.refl run.2)).imp ?_
  intro file doc hfile
  exact hfile.imp fun e e' he => he.mono hplain hassets

end Lifter

end StyleLift
