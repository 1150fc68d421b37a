import StyleLift.Proofs.Ledger.Records
import StyleLift.Proofs.Lifting.Run

/-!
# Postings

Each declaration that is lifted leaves three traces: a reference in its document, a variable in one
of the two lists of the journal and a usage in the ledger.  The lists know the lifted value, the
ledger the value as written, and each has an order of its own.  What the three have in common is the
list of the liftings, in the order in which they were made; it is in none of them, and all of them
can be told from it.

* `Lifting`: a declaration that was lifted, with its name.
* `Rewritten`: a document after lifting, by its liftings.
* `Posted`: a journal after lifting, by the liftings.
* `exists_posted_lift`, `exists_posted_liftTasks`: one call, and any number of calls.
-/

namespace StyleLift

open Stylesheet (Declaration Document Entry)

/-- A declaration that was lifted, and the name it got. -/
structure Lifting where
  path : Path
  declaration : Declaration
  /-- The data URL that was lifted in place of the value, where an image was inlined. -/
  url? : Option Text
  name : Text

namespace Lifting

/-- The value that was lifted. -/
def value (lifting : Lifting) : Text := lifting.url?.getD lifting.declaration.value

/-- The variable that goes into the journal. -/
def toVariable (lifting : Lifting) : Variable :=
  ⟨lifting.declaration.property, lifting.value, lifting.name, lifting.path,
    lifting.declaration.line⟩

/-- The variables of the values that were lifted as they are. -/
def plain (liftings : List Lifting) : List Variable :=
  (liftings.filter fun lifting => lifting.url?.isNone).map toVariable

/-- The variables of the images that were inlined. -/
def assets (liftings : List Lifting) : List Variable :=
  (liftings.filter fun lifting => lifting.url?.isSome).map toVariable

@[simp] theorem plain_append (front tail : List Lifting) :
    plain (front ++ tail) = plain front ++ plain tail := by
  simp [plain]

@[simp] theorem assets_append (front tail : List Lifting) :
    assets (front ++ tail) = assets front ++ assets tail := by
  simp [assets]

end Lifting

/-- A document that is to be lifted, and the disk at that time. -/
structure Task where
  disk : Disk
  path : Path
  dialect : Dialect
  document : Document

namespace Lifter

variable {lifter : Lifter} {disk : Disk} {path : Path} {before middle after journal : Journal}
  {front tail liftings : List Lifting}

/-- Lifts the values of a document. -/
def liftTask (lifter : Lifter) (journal : Journal) (task : Task) : Result :=
  lifter.lift task.disk task.path task.dialect task.document journal

/-- Lifts the values of documents in order: what became of each, and the last journal. -/
def liftTasks (lifter : Lifter) (journal : Journal) : List Task → List Result × Journal
  | [] => ([], journal)
  | task :: tasks =>
    let result := lifter.liftTask journal task
    let rest := lifter.liftTasks result.journal tasks
    (result :: rest.1, rest.2)

/-! ## What liftings say -/

/-- What goes into the ledger. -/
def records (lifter : Lifter) (liftings : List Lifting) : List (Text × Usage) :=
  liftings.map fun lifting => (lifting.name, lifter.usage lifting.path lifting.declaration)

/-- The entries of a document after its visits.  Those whose declarations are left alone are as
before; the others refer to the names of the liftings, in order, and each lifting is of the
declaration of its entry. -/
inductive Rewritten (lifter : Lifter) (disk : Disk) (path : Path) :
    List Entry → List Lifting → List Entry → Prop
  | nil : Rewritten lifter disk path [] [] []
  | leave {e : Entry} {entries entries' : List Entry} {liftings : List Lifting}
      (h : lifter.select disk path e.declaration = .leave)
      (rest : Rewritten lifter disk path entries liftings entries') :
      Rewritten lifter disk path (e :: entries) liftings (e :: entries')
  | warn {e : Entry} {entries entries' : List Entry} {liftings : List Lifting} {warning : Warning}
      (h : lifter.select disk path e.declaration = .warn warning)
      (rest : Rewritten lifter disk path entries liftings entries') :
      Rewritten lifter disk path (e :: entries) liftings (e :: entries')
  | lift {e : Entry} {entries entries' : List Entry} {liftings : List Lifting} (name : Text)
      (h : lifter.select disk path e.declaration = .lift)
      (rest : Rewritten lifter disk path entries liftings entries') :
      Rewritten lifter disk path (e :: entries) (⟨path, e.declaration, none, name⟩ :: liftings)
        (marked e (some name) :: entries')
  | inline {e : Entry} {entries entries' : List Entry} {liftings : List Lifting} (name : Text)
      {url : Text} (h : lifter.select disk path e.declaration = .inline url)
      (rest : Rewritten lifter disk path entries liftings entries') :
      Rewritten lifter disk path (e :: entries) (⟨path, e.declaration, some url, name⟩ :: liftings)
        (marked e (some name) :: entries')

/-- The journal `after` has the variables and the usages of the liftings behind those of `before`,
and nothing was taken out of it. -/
structure Posted (lifter : Lifter) (before : Journal) (liftings : List Lifting) (after : Journal) :
    Prop where
  plain : after.plain = before.plain ++ Lifting.plain liftings
  assets : after.assets = before.assets ++ Lifting.assets liftings
  ledger : after.ledger = before.ledger.recordAll (lifter.records liftings)
  references : before.references <+: after.references
  warnings : before.warnings <+: after.warnings

namespace Posted

theorem refl (journal : Journal) : lifter.Posted journal [] journal :=
  ⟨(List.append_nil _).symm, (List.append_nil _).symm, rfl, List.prefix_rfl, List.prefix_rfl⟩

theorem trans (h : lifter.Posted before front middle) (h' : lifter.Posted middle tail after) :
    lifter.Posted before (front ++ tail) after where
  plain := by rw [h'.plain, h.plain, Lifting.plain_append, List.append_assoc]
  assets := by rw [h'.assets, h.assets, Lifting.assets_append, List.append_assoc]
  ledger := by rw [h'.ledger, h.ledger, records, records, records, List.map_append,
    Ledger.recordAll_append]
  references := h.references.trans h'.references
  warnings := h.warnings.trans h'.warnings

end Posted

/-! ## From the visit to the run -/

theorem count_visitAll_cons (e : Entry) (rest : List Entry) :
    (lifter.visitAll disk path journal (e :: rest)).2.1 =
      (lifter.visit disk path e.declaration journal).1.toList.length +
        (lifter.visitAll disk path (lifter.visit disk path e.declaration journal).2 rest).2.1 := by
  rw [visitAll]
  split <;> rename_i hvisit <;> rw [hvisit]
  · simp
  · simp [Nat.add_comm]

/-- **What a visit posts:** nothing, or one lifting. -/
theorem exists_posted_visit (lifter : Lifter) (disk : Disk) (path : Path) (journal : Journal)
    (e : Entry) :
    ∃ liftings, (lifter.visit disk path e.declaration journal).1.toList.length = liftings.length ∧
      lifter.Posted journal liftings (lifter.visit disk path e.declaration journal).2 ∧
      ∀ {entries later entries'}, lifter.Rewritten disk path entries later entries' →
        lifter.Rewritten disk path (e :: entries) (liftings ++ later)
          (marked e (lifter.visit disk path e.declaration journal).1 :: entries') := by
  cases hselect : lifter.select disk path e.declaration with
  | leave =>
    rw [visit_of_leave hselect]
    exact ⟨[], rfl, .refl journal, .leave hselect⟩
  | warn warning =>
    rw [visit_of_warn hselect]
    refine ⟨[], rfl, ?_, .warn hselect⟩
    exact { Posted.refl journal with warnings := List.prefix_append _ _ }
  | lift =>
    rw [visit_of_lift hselect]
    refine ⟨[⟨path, e.declaration, none, (lifter.name path e.declaration e.declaration.value
      journal).1⟩], rfl, ?_, .lift _ hselect⟩
    exact ⟨rfl, (List.append_nil _).symm, rfl, List.prefix_rfl, List.prefix_rfl⟩
  | inline url =>
    rw [visit_of_inline hselect]
    refine ⟨[⟨path, e.declaration, some url, (lifter.name path e.declaration url journal).1⟩], rfl,
      ?_, .inline _ hselect⟩
    exact ⟨(List.append_nil _).symm, rfl, rfl, List.prefix_rfl, List.prefix_rfl⟩

/-- What the visits of a document post. -/
theorem exists_posted_visitAll (lifter : Lifter) (disk : Disk) (path : Path) (journal : Journal)
    (entries : List Entry) :
    ∃ liftings,
      lifter.Rewritten disk path entries liftings
        (lifter.visitAll disk path journal entries).1 ∧
      (lifter.visitAll disk path journal entries).2.1 = liftings.length ∧
      lifter.Posted journal liftings (lifter.visitAll disk path journal entries).2.2 := by
  induction entries generalizing journal with
  | nil => exact ⟨[], .nil, rfl, .refl journal⟩
  | cons e rest ih =>
    obtain ⟨first, hlength, hfirst, hrewritten⟩ :=
      exists_posted_visit lifter disk path journal e
    obtain ⟨others, hothers, hcount, hrest⟩ :=
      ih (lifter.visit disk path e.declaration journal).2
    rw [entries_visitAll_cons, count_visitAll_cons, journal_visitAll_cons]
    exact ⟨first ++ others, hrewritten hothers, by rw [hlength, hcount, List.length_append],
      hfirst.trans hrest⟩

/-- The journal at the first visit of a document. -/
def openedFor (journal : Journal) (task : Task) : Journal :=
  match task.dialect with
  | .scss => journal.addReferences task.path task.document.declarations
  | .css => journal

theorem liftTask_eq (lifter : Lifter) (journal : Journal) (task : Task) :
    lifter.liftTask journal task =
      ⟨{ task.document with
          entries := (lifter.visitAll task.disk task.path (openedFor journal task)
            task.document.entries).1 },
        (lifter.visitAll task.disk task.path (openedFor journal task) task.document.entries).2.1,
        (lifter.visitAll task.disk task.path (openedFor journal task)
          task.document.entries).2.2⟩ := rfl

/-- What the collection of references keeps, a journal keeps when a document is opened. -/
theorem openedFor_journal {P : Journal → Prop} {task : Task} (h : P journal)
    (hrefs : ∀ path ds, P (journal.addReferences path ds)) : P (openedFor journal task) := by
  rw [openedFor]
  split
  · exact hrefs _ _
  · exact h

/-- **What the collection of references and every visit keep, a run keeps.** -/
theorem liftTasks_journal {P : Journal → Prop} (tasks : List Task)
    (hrefs : ∀ journal, P journal → ∀ path ds, P (journal.addReferences path ds))
    (hvisit : ∀ disk path d journal, P journal → P (lifter.visit disk path d journal).2)
    (h : P journal) : P (lifter.liftTasks journal tasks).2 := by
  induction tasks generalizing journal with
  | nil => exact h
  | cons task tasks ih =>
    rw [liftTasks]
    refine ih ?_
    rw [liftTask_eq]
    exact visitAll_journal (fun e _ journal h => hvisit task.disk task.path e.declaration journal h)
      (openedFor_journal h (hrefs journal h))

/-- The result of a call, by its liftings: the document, the number and the journal. -/
structure Accounts (lifter : Lifter) (journal : Journal) (task : Task) (liftings : List Lifting)
    (result : Result) : Prop where
  rewritten : lifter.Rewritten task.disk task.path task.document.entries liftings
    result.document.entries
  count : result.count = liftings.length
  posted : lifter.Posted journal liftings result.journal

/-- **What a call posts.** -/
theorem exists_accounts_liftTask (lifter : Lifter) (journal : Journal) (task : Task) :
    ∃ liftings, lifter.Accounts journal task liftings (lifter.liftTask journal task) := by
  have hopened : lifter.Posted journal [] (openedFor journal task) :=
    openedFor_journal (.refl journal) fun _ _ =>
      { Posted.refl journal with references := List.prefix_append _ _ }
  obtain ⟨liftings, hrewritten, hcount, hposted⟩ := exists_posted_visitAll lifter task.disk
    task.path (openedFor journal task) task.document.entries
  exact ⟨liftings, hrewritten, hcount, hopened.trans hposted⟩

/-- **What a run posts.** -/
theorem exists_posted_liftTasks (lifter : Lifter) (journal : Journal) (tasks : List Task) :
    ∃ calls : List (List Lifting × Result),
      (lifter.liftTasks journal tasks).1 = calls.map Prod.snd ∧
      List.Forall₂ (fun task call =>
        lifter.Rewritten task.disk task.path task.document.entries call.1
          call.2.document.entries) tasks calls ∧
      ((lifter.liftTasks journal tasks).1.map Result.count).sum =
        (calls.flatMap Prod.fst).length ∧
      lifter.Posted journal (calls.flatMap Prod.fst) (lifter.liftTasks journal tasks).2 := by
  induction tasks generalizing journal with
  | nil => exact ⟨[], rfl, .nil, rfl, .refl journal⟩
  | cons task tasks ih =>
    obtain ⟨liftings, haccounts⟩ := exists_accounts_liftTask lifter journal task
    obtain ⟨calls, hresults, hrewritten, hcounts, hposted⟩ :=
      ih (lifter.liftTask journal task).journal
    rw [liftTasks]
    refine ⟨(liftings, lifter.liftTask journal task) :: calls, ?_, .cons haccounts.rewritten
      hrewritten, ?_, haccounts.posted.trans hposted⟩
    · rw [List.map_cons, hresults]
    · rw [List.map_cons, List.sum_cons, haccounts.count, hcounts, List.flatMap_cons,
        List.length_append]

end Lifter

end StyleLift
