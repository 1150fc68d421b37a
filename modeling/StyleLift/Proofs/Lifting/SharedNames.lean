import StyleLift.Proofs.Lifting.Postings
import StyleLift.Proofs.Naming.Registry

/-!
# Who shares a name

The registry and the ledger have keys of their own.  A name is handed out for a property in lower
case and a lifted value, which is a data URL where an image was inlined; a usage is filed under the
property and the value as they are written.  So two reports can have one name: `color: red` and
`COLOR: red`, or two ways to write the path of one image.  This file says that there is no other
way.

* `Journal.Keyed`: every variable has its record in the registry.
* `names_shared`: the result.
* `reports_share_names`: both ways.
-/

namespace StyleLift

open Stylesheet (Declaration)

/-- The registry is sound, and has a record for every variable of the journal, by its property in
lower case and its value. -/
structure Journal.Keyed (journal : Journal) : Prop where
  sound : journal.names.Sound
  recorded : ∀ v ∈ journal.plain ++ journal.assets, ∃ base,
    (⟨Text.lower v.property, v.value, base⟩, v.name) ∈ journal.names.assigned

namespace Journal.Keyed

theorem empty : Journal.Keyed {} :=
  ⟨Naming.Registry.Sound.empty, by simp⟩

/-- **A name stands for one property and one value.** -/
theorem eq_of_name_eq {journal : Journal} (h : journal.Keyed) {v w : Variable}
    (hv : v ∈ journal.plain ++ journal.assets) (hw : w ∈ journal.plain ++ journal.assets)
    (hname : v.name = w.name) :
    Text.lower v.property = Text.lower w.property ∧ v.value = w.value := by
  obtain ⟨base, hrecord⟩ := h.recorded v hv
  obtain ⟨base', hrecord'⟩ := h.recorded w hw
  rw [← hname] at hrecord'
  have hkey := h.sound.key_eq hrecord hrecord'
  exact ⟨congrArg Naming.Key.property hkey, congrArg Naming.Key.value hkey⟩

/-- A request keeps the invariant, also when the variable it was made for joins the journal. -/
theorem of_assign {journal later : Journal} (h : journal.Keyed) {property shared : Text}
    {ctx : Naming.Context}
    (hnames : later.names = (journal.names.assign (Text.lower property) shared ctx).2)
    (hnew : ∀ v ∈ later.plain ++ later.assets, v ∈ journal.plain ++ journal.assets ∨
      v.property = property ∧ v.value = shared ∧
        v.name = (journal.names.assign (Text.lower property) shared ctx).1) :
    later.Keyed := by
  refine ⟨?_, ?_⟩
  · rw [hnames]
    exact h.sound.assign _ shared ctx
  · intro v hv
    rw [hnames]
    rcases hnew v hv with hold | ⟨hproperty, hvalue, hname⟩
    · obtain ⟨base, hrecord⟩ := h.recorded v hold
      exact ⟨base, Naming.Registry.assigned_subset_assign _ _ _ _ hrecord⟩
    · rw [hproperty, hvalue, hname]
      exact ⟨_, Naming.Registry.mem_assigned_assign _ _ _ _⟩

end Journal.Keyed

/-- The variable of a lifting is in one of the lists. -/
theorem Lifting.toVariable_mem {liftings : List Lifting} {lifting : Lifting}
    (h : lifting ∈ liftings) :
    lifting.toVariable ∈ Lifting.plain liftings ++ Lifting.assets liftings := by
  rw [List.mem_append]
  cases hurl : lifting.url? with
  | none => exact Or.inl (List.mem_map_of_mem (List.mem_filter.2 ⟨h, by rw [hurl]; rfl⟩))
  | some url => exact Or.inr (List.mem_map_of_mem (List.mem_filter.2 ⟨h, by rw [hurl]; rfl⟩))

namespace Lifter

variable {lifter : Lifter}

/-- **Visits keep the invariant.** -/
theorem keyed_visit (hscheme : lifter.strategy = none) (disk : Disk) (path : Path)
    (d : Declaration) {journal : Journal} (h : journal.Keyed) :
    (lifter.visit disk path d journal).2.Keyed := by
  cases hselect : lifter.select disk path d with
  | leave =>
    rw [visit_of_leave hselect]
    exact h
  | warn warning =>
    rw [visit_of_warn hselect]
    exact ⟨h.sound, h.recorded⟩
  | lift =>
    rw [visit_of_lift hselect, name_of_default hscheme]
    refine h.of_assign rfl fun v hv => ?_
    simp only [List.append_assoc, List.mem_append, List.mem_singleton] at hv ⊢
    rcases hv with hv | rfl | hv
    · exact Or.inl (Or.inl hv)
    · exact Or.inr ⟨rfl, rfl, rfl⟩
    · exact Or.inl (Or.inr hv)
  | inline url =>
    rw [visit_of_inline hselect, name_of_default hscheme]
    refine h.of_assign rfl fun v hv => ?_
    simp only [List.mem_append, List.mem_singleton] at hv ⊢
    rcases hv with hv | hv | rfl
    · exact Or.inl (Or.inl hv)
    · exact Or.inl (Or.inr hv)
    · exact Or.inr ⟨rfl, rfl, rfl⟩

/-- Runs keep the invariant. -/
theorem keyed_liftTasks (hscheme : lifter.strategy = none) (tasks : List Task) {journal : Journal}
    (h : journal.Keyed) : (lifter.liftTasks journal tasks).2.Keyed :=
  liftTasks_journal tasks (fun _ hj _ _ => ⟨hj.sound, hj.recorded⟩)
    (fun disk path d _ hj => keyed_visit hscheme disk path d hj) h

/-- **A name is shared by one property and one value only.**

In a run by the default scheme over any documents, two liftings have different names unless their
properties are the same up to the case of letters and their lifted values are the same.  The reports
of the ledger have different keys, and each has the key and the name of a lifting; so two reports of
one name come from two such liftings. -/
theorem names_shared (root : Path) (settings : Settings) (encoder : Image.Encoder)
    (tasks : List Task) :
    let lifter : Lifter := { root, settings, encoder }
    let run := lifter.liftTasks {} tasks
    (run.2.ledger.reports.map Prod.fst).Nodup ∧
    ∃ calls : List (List Lifting × Result),
      run.1 = calls.map Prod.snd ∧
      List.Forall₂ (fun task call =>
        lifter.Rewritten task.disk task.path task.document.entries call.1
          call.2.document.entries) tasks calls ∧
      lifter.Posted {} (calls.flatMap Prod.fst) run.2 ∧
      (∀ a ∈ calls.flatMap Prod.fst, ∀ b ∈ calls.flatMap Prod.fst, a.name = b.name →
        Text.lower a.declaration.property = Text.lower b.declaration.property ∧
          a.value = b.value) ∧
      ∀ entry ∈ run.2.ledger.reports, ∀ entry' ∈ run.2.ledger.reports,
        entry.2.name = entry'.2.name →
        ∃ a ∈ calls.flatMap Prod.fst, ∃ b ∈ calls.flatMap Prod.fst,
          entry.1 = Ledger.key a.declaration.property a.declaration.value ∧
          entry'.1 = Ledger.key b.declaration.property b.declaration.value ∧
          a.name = entry.2.name ∧ b.name = entry.2.name ∧
          Text.lower a.declaration.property = Text.lower b.declaration.property ∧
          a.value = b.value := by
  intro lifter run
  obtain ⟨calls, hresults, hrewritten, -, hposted⟩ := exists_posted_liftTasks lifter {} tasks
  have hkeyed : run.2.Keyed := keyed_liftTasks rfl tasks Journal.Keyed.empty
  have hshared : ∀ a ∈ calls.flatMap Prod.fst, ∀ b ∈ calls.flatMap Prod.fst, a.name = b.name →
      Text.lower a.declaration.property = Text.lower b.declaration.property ∧
        a.value = b.value := by
    intro a ha b hb hname
    have hmem : ∀ lifting ∈ calls.flatMap Prod.fst,
        lifting.toVariable ∈ run.2.plain ++ run.2.assets := by
      intro lifting hlifting
      rw [hposted.plain, hposted.assets]
      exact Lifting.toVariable_mem hlifting
    exact hkeyed.eq_of_name_eq (hmem a ha) (hmem b hb) hname
  have horigin : ∀ entry ∈ run.2.ledger.reports, ∃ a ∈ calls.flatMap Prod.fst,
      entry.1 = Ledger.key a.declaration.property a.declaration.value ∧
        a.name = entry.2.name := by
    rintro ⟨k, report⟩ hentry
    rw [hposted.ledger] at hentry
    obtain ⟨record, hrecord, hkey, hname⟩ := Ledger.exists_record_of_mem hentry
    obtain ⟨a, ha, rfl⟩ := List.mem_map.1 hrecord
    exact ⟨a, ha, hkey, hname.symm⟩
  refine ⟨?_, calls, hresults, hrewritten, hposted, hshared, ?_⟩
  · exact run.2.ledger.inStep.nodup
  · intro entry hentry entry' hentry' hname
    obtain ⟨a, ha, hkey, haname⟩ := horigin entry hentry
    obtain ⟨b, hb, hkey', hbname⟩ := horigin entry' hentry'
    obtain ⟨hproperty, hvalue⟩ := hshared a ha b hb (by rw [haname, hbname, hname])
    exact ⟨a, ha, b, hb, hkey, hkey', haname, by rw [hbname, hname], hproperty, hvalue⟩

/-- A file with one value for two spellings of a property, and with one image by two spellings of
its path. -/
def spellings : Task where
  disk := { nodes := [(["i.png".toList], .file ⟨#[105, 183, 29, 248]⟩)] }
  path := .ofString "s.css"
  dialect := .css
  document :=
    ⟨(".a\x7bcolor:red;COLOR:red\x7d" ++
      ".b\x7bbackground:url(i.png);background:url(\"i.png\")\x7d").toList,
      [{ declaration := ⟨"color".toList, "red".toList, 1, [".a".toList], ⟨9, 12⟩, []⟩ },
        { declaration := ⟨"COLOR".toList, "red".toList, 1, [".a".toList], ⟨19, 22⟩, []⟩ },
        { declaration :=
            ⟨"background".toList, "url(i.png)".toList, 1, [".b".toList], ⟨37, 47⟩, []⟩ },
        { declaration :=
            ⟨"background".toList, "url(\"i.png\")".toList, 1, [".b".toList], ⟨59, 71⟩, []⟩ }]⟩

-- the document is that of its source
example : Stylesheet.Document.parse .css spellings.document.source = .ok spellings.document := by
  decide +kernel

/-- A run that inlines images. -/
def inlining : Lifter where
  root := ⟨[]⟩
  settings := { Settings.default with exportAssets := true }

theorem reports_spellings :
    (inlining.liftTasks {} [spellings]).2.ledger.reports =
      [("color:red".toList, ⟨"--var-a-red-color".toList, "red".toList, 1,
          [⟨"s.css".toList, 1, "color".toList, "red".toList⟩]⟩),
        ("COLOR:red".toList, ⟨"--var-a-red-color".toList, "red".toList, 1,
          [⟨"s.css".toList, 1, "COLOR".toList, "red".toList⟩]⟩),
        ("background:url(i.png)".toList, ⟨"--var-b-i-bg".toList, "url(i.png)".toList, 1,
          [⟨"s.css".toList, 1, "background".toList, "url(i.png)".toList⟩]⟩),
        ("background:url(\"i.png\")".toList, ⟨"--var-b-i-bg".toList, "url(\"i.png\")".toList, 1,
          [⟨"s.css".toList, 1, "background".toList, "url(\"i.png\")".toList⟩]⟩)] := by
  decide +kernel

/-- The two reports of the value come from two liftings of one property and one value. -/
theorem names_shared_by_spellings :
    ∃ a b : Lifting, Ledger.key a.declaration.property a.declaration.value = "color:red".toList ∧
      Ledger.key b.declaration.property b.declaration.value = "COLOR:red".toList ∧
      a.name = b.name ∧
      Text.lower a.declaration.property = Text.lower b.declaration.property ∧
      a.value = b.value := by
  have hlower : ("color:red".toList, ⟨"--var-a-red-color".toList, "red".toList, 1,
      [⟨"s.css".toList, 1, "color".toList, "red".toList⟩]⟩) ∈
      (inlining.liftTasks {} [spellings]).2.ledger.reports := by
    rw [reports_spellings]
    exact List.mem_cons_self
  have hupper : ("COLOR:red".toList, ⟨"--var-a-red-color".toList, "red".toList, 1,
      [⟨"s.css".toList, 1, "COLOR".toList, "red".toList⟩]⟩) ∈
      (inlining.liftTasks {} [spellings]).2.ledger.reports := by
    rw [reports_spellings]
    exact List.mem_cons_of_mem _ List.mem_cons_self
  obtain ⟨-, calls, -, -, -, -, hreports⟩ :=
    names_shared ⟨[]⟩ { Settings.default with exportAssets := true } Image.base64 [spellings]
  obtain ⟨a, -, b, -, hkey, hkey', haname, hbname, hproperty, hvalue⟩ :=
    hreports _ hlower _ hupper rfl
  exact ⟨a, b, hkey.symm, hkey'.symm, haname.trans hbname.symm, hproperty, hvalue⟩

/-- Reports with different keys share a name, where the case of a property differs and where one
image is written in two ways. -/
theorem reports_share_names :
    ((inlining.liftTasks {} [spellings]).2.ledger.reports.map fun entry =>
      (entry.1, entry.2.name)) =
      [("color:red".toList, "--var-a-red-color".toList),
        ("COLOR:red".toList, "--var-a-red-color".toList),
        ("background:url(i.png)".toList, "--var-b-i-bg".toList),
        ("background:url(\"i.png\")".toList, "--var-b-i-bg".toList)] := by
  rw [reports_spellings]
  rfl

end Lifter

end StyleLift
