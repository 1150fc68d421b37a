import StyleLift.Proofs.Json.Parsing
import StyleLift.Proofs.Ledger.Records

/-!
# The usage map loses nothing

A reader of the usage map looks up the fields of its objects by their names.  What it finds is the
ledger: one report for each member, under the same key and in the same order, with all its usages.
This holds whatever the texts hold, since a key, a name or a value is a string of JSON and comes back
as it was.

* `Usage.ofJson?`, `Report.ofJson?`: the readers; `Usage.ofJson?_toJson`, `Report.ofJson?_toJson`:
  they undo the writers.
* `Ledger.usageMap_decodes`: the law for the text.
-/

namespace StyleLift

/-! ## Fields -/

namespace Json

/-- The member of an object with the given name. -/
def member? (name : Text) : Json → Option Json
  | .object members => members.lookup name
  | _ => none

/-- The content of a string. -/
def text? : Json → Option Text
  | .string s => some s
  | _ => none

def number? : Json → Option Nat
  | .number n => some n
  | _ => none

def items? : Json → Option (List Json)
  | .array items => some items
  | _ => none

end Json

/-! ## Usages and reports -/

/-- The usage that a JSON value describes. -/
def Usage.ofJson? (v : Json) : Option Usage := do
  let path ← (v.member? "sourcePath".toList).bind Json.text?
  let line ← (v.member? "sourceLine".toList).bind Json.number?
  let property ← (v.member? "property".toList).bind Json.text?
  let value ← (v.member? "rawValue".toList).bind Json.text?
  some ⟨path, line, property, value⟩

/-- The report that a JSON value describes. -/
def Report.ofJson? (v : Json) : Option Report := do
  let name ← (v.member? "variableName".toList).bind Json.text?
  let value ← (v.member? "rawValue".toList).bind Json.text?
  let count ← (v.member? "usageCount".toList).bind Json.number?
  let items ← (v.member? "usages".toList).bind Json.items?
  let usages ← items.mapM Usage.ofJson?
  some ⟨name, value, count, usages⟩

theorem Usage.ofJson?_toJson (usage : Usage) : Usage.ofJson? usage.toJson = some usage := rfl

theorem Usage.mapM_ofJson?_toJson (usages : List Usage) :
    (usages.map Usage.toJson).mapM Usage.ofJson? = some usages := by
  induction usages with
  | nil => rfl
  | cons usage usages ih =>
    rw [List.map_cons, List.mapM_cons, Usage.ofJson?_toJson, ih]
    rfl

/-- **A report comes back.** -/
theorem Report.ofJson?_toJson (report : Report) : Report.ofJson? report.toJson = some report := by
  have husages : Report.ofJson? report.toJson =
      ((report.usages.map Usage.toJson).mapM Usage.ofJson?).bind fun usages =>
        some ⟨report.name, report.value, report.usageCount, usages⟩ := rfl
  rw [husages, Usage.mapM_ofJson?_toJson]
  rfl

namespace Ledger

/-- **The usage map loses nothing.**  Its text spells one JSON value, which the parser finds.  It is
an object with one member for each report of the ledger, in their order and under their keys, which
are all different; and each member describes its report: the name, the value, the number of usages
and the usages themselves. -/
theorem usageMap_decodes (records : List (Text × Usage)) :
    ∃ members : List (Text × Json),
      Json.IsText (.object members) (recordAll {} records).usageMap ∧
      (∀ v, Json.IsText v (recordAll {} records).usageMap → v = .object members) ∧
      Json.parse? (recordAll {} records).usageMap = some (.object members) ∧
      members.map Prod.fst = (recordAll {} records).reports.map Prod.fst ∧
      (members.map Prod.fst).Nodup ∧
      members.map (fun member => Report.ofJson? member.2) =
        (recordAll {} records).reports.map (fun entry => some entry.2) ∧
      ∀ entry ∈ (recordAll {} records).reports, entry.2.usageCount = entry.2.usages.length := by
  have htext := Json.isText_pretty (recordAll {} records).toJson
  have hkeys : ((recordAll {} records).reports.map fun entry => (entry.1, entry.2.toJson)).map
      Prod.fst = (recordAll {} records).reports.map Prod.fst := by
    rw [List.map_map]
    rfl
  refine ⟨_, htext, fun v hv => Json.eq_of_isText hv htext, Json.parse?_pretty _, hkeys, ?_, ?_,
    (recordAll {} records).inStep.isCounted⟩
  · rw [hkeys]
    exact (recordAll {} records).inStep.nodup
  · rw [List.map_map]
    exact List.map_congr_left fun entry _ => Report.ofJson?_toJson entry.2

end Ledger

end StyleLift
