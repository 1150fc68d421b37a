import StyleLift.Proofs.Ledger.Records
import StyleLift.Proofs.Stylesheet.Statements

/-!
# A ledger is the grouping of its records

A ledger is filled one record at a time and finds the report of a record by one text, the property
and the value with a colon in between.  Here it is described by the records alone: which pairs of a
property and a value come, in which order, and which records are about each of them.

The text stands for the pair as long as no property holds a colon, whatever the value holds: the
first colon is the one in between.  So two pairs never meet in one report, and a pair that was never
recorded is not found under the key of another.

* `pairs`, `recordsOf`, `reportOf`: what matters of a list of records.
* `key_inj`: pairs are told apart by their keys.
* `insertUsage_map`, `reports_recordAll`: **the reports are the pairs with their records,** one record
  and then all of them.
* `reports_of_history`: the law, with what `get?` finds.
-/

namespace StyleLift

/-- The property and the value that a usage is about. -/
def Usage.pair (usage : Usage) : Text × Text := (usage.property, usage.value)

namespace Ledger

/-! ## Pairs and their records -/

/-- The pairs that records are about, each where it first comes. -/
def pairs (records : List (Text × Usage)) : List (Text × Text) :=
  (records.map fun record => record.2.pair).eraseDups

/-- The records of one pair in order. -/
def recordsOf (records : List (Text × Usage)) (pair : Text × Text) : List (Text × Usage) :=
  records.filter fun record => record.2.pair == pair

/-- The report of a pair: the name of its first record, the number of all and their usages. -/
def reportOf (records : List (Text × Usage)) (pair : Text × Text) : Report where
  name := ((recordsOf records pair).head?.map Prod.fst).getD []
  value := pair.2
  usageCount := (recordsOf records pair).length
  usages := (recordsOf records pair).map Prod.snd

theorem mem_pairs {records : List (Text × Usage)} {pair : Text × Text} :
    pair ∈ pairs records ↔ ∃ record ∈ records, record.2.pair = pair := by
  rw [pairs, List.mem_eraseDups, List.mem_map]

theorem pairs_concat (records : List (Text × Usage)) (record : Text × Usage) :
    pairs (records ++ [record]) =
      if record.2.pair ∈ pairs records then pairs records
      else pairs records ++ [record.2.pair] := by
  rw [pairs, List.map_append, List.map_singleton, eraseDups_concat]
  rfl

theorem recordsOf_ne_nil {records : List (Text × Usage)} {pair : Text × Text}
    (h : pair ∈ pairs records) : recordsOf records pair ≠ [] := by
  obtain ⟨record, hmem, hpair⟩ := mem_pairs.1 h
  exact List.ne_nil_of_mem (List.mem_filter.2 ⟨hmem, by simp [hpair]⟩)

/-- A record of another pair leaves a report as it is. -/
theorem reportOf_concat_of_ne {record : Text × Usage} {pair : Text × Text}
    (h : record.2.pair ≠ pair) (records : List (Text × Usage)) :
    reportOf (records ++ [record]) pair = reportOf records pair := by
  have hrecords : recordsOf (records ++ [record]) pair = recordsOf records pair := by
    simp [recordsOf, h]
  rw [reportOf, hrecords, reportOf]

theorem recordsOf_concat_self (records : List (Text × Usage)) (record : Text × Usage) :
    recordsOf (records ++ [record]) record.2.pair =
      recordsOf records record.2.pair ++ [record] := by
  simp [recordsOf]

/-- A further record of a pair adds its usage to the report. -/
theorem reportOf_concat_of_mem {records : List (Text × Usage)} {record : Text × Usage}
    (h : record.2.pair ∈ pairs records) :
    reportOf (records ++ [record]) record.2.pair =
      (reportOf records record.2.pair).add record.2 := by
  rw [reportOf, recordsOf_concat_self, List.head?_append_of_ne_nil _ (recordsOf_ne_nil h),
    List.map_append, List.length_append]
  rfl

/-- The first record of a pair makes its report. -/
theorem reportOf_concat_of_notMem {records : List (Text × Usage)} {record : Text × Usage}
    (h : record.2.pair ∉ pairs records) :
    reportOf (records ++ [record]) record.2.pair =
      (Report.blank record.1 record.2.value).add record.2 := by
  have hnone : recordsOf records record.2.pair = [] := by
    rw [recordsOf, List.filter_eq_nil_iff]
    intro other hother hpair
    exact h (mem_pairs.2 ⟨other, hother, by simpa using hpair⟩)
  rw [reportOf, recordsOf_concat_self, hnone]
  rfl

/-! ## Keys -/

/-- **Pairs are told apart by their keys,** if the properties hold no colon. -/
theorem key_inj {p q : Text × Text} (hp : ':' ∉ p.1) (hq : ':' ∉ q.1) :
    key p.1 p.2 = key q.1 q.2 ↔ p = q := by
  refine ⟨fun heq => ?_, fun heq => by rw [heq]⟩
  -- the first colon is the one in between
  have hsplit := congrArg (Text.splitFirst? ':') heq
  rw [key, key, Stylesheet.splitFirst?_append_cons hp,
    Stylesheet.splitFirst?_append_cons hq] at hsplit
  exact Option.some.inj hsplit

/-- Recording a usage among reports that are one for each of some pairs. -/
theorem insertUsage_map {report : Text × Text → Report} {ps : List (Text × Text)} (hps : ps.Nodup)
    {usage : Usage} (hcolon : ∀ pair ∈ ps, ':' ∉ pair.1) (husage : ':' ∉ usage.property)
    (name : Text) :
    insertUsage (key usage.property usage.value) name usage
        (ps.map fun pair => (key pair.1 pair.2, report pair)) =
      if usage.pair ∈ ps then ps.map fun pair => (key pair.1 pair.2,
        if pair = usage.pair then (report pair).add usage else report pair)
      else ps.map (fun pair => (key pair.1 pair.2, report pair)) ++
        [(key usage.property usage.value, (Report.blank name usage.value).add usage)] := by
  rw [insertUsage]
  induction ps with
  | nil => rfl
  | cons pair ps ih =>
    rw [List.nodup_cons] at hps
    rw [List.forall_mem_cons] at hcolon
    have hkey : key pair.1 pair.2 = key usage.property usage.value ↔ pair = usage.pair :=
      key_inj (q := usage.pair) hcolon.1 husage
    rw [List.map_cons, upsert]
    by_cases hpair : pair = usage.pair
    · -- no later pair is the same
      have hlater : ∀ other ∈ ps, ¬ other = usage.pair := fun other hother heq =>
        hps.1 (hpair.trans heq.symm ▸ hother)
      rw [if_pos (hkey.2 hpair), if_pos (hpair ▸ List.mem_cons_self), List.map_cons, if_pos hpair]
      refine congrArg (_ :: ·) (List.map_congr_left fun other hother => ?_)
      rw [if_neg (hlater other hother)]
    · rw [if_neg (mt hkey.1 hpair), ih hps.2 hcolon.2]
      simp only [List.mem_cons, Ne.symm hpair, false_or]
      split
      · rw [List.map_cons, if_neg hpair]
      · rfl

/-! ## Reports -/

variable {records : List (Text × Usage)}

theorem colon_notMem_pairs (h : ∀ record ∈ records, ':' ∉ record.2.property) :
    ∀ pair ∈ pairs records, ':' ∉ pair.1 := by
  intro pair hpair
  obtain ⟨record, hrecord, rfl⟩ := mem_pairs.1 hpair
  exact h record hrecord

/-- **The reports are the pairs with their records.** -/
theorem reports_recordAll (h : ∀ record ∈ records, ':' ∉ record.2.property) :
    (recordAll {} records).reports =
      (pairs records).map fun pair => (key pair.1 pair.2, reportOf records pair) := by
  induction records using List.reverseRecOn with
  | nil => rfl
  | append_singleton records record ih =>
    rw [List.forall_mem_append, List.forall_mem_singleton] at h
    have hstep : (recordAll {} (records ++ [record])).reports =
        insertUsage (key record.2.property record.2.value) record.1 record.2
          (recordAll {} records).reports := by
      rw [recordAll_append]
      exact reports_record _ _ _
    have hnodup : (pairs records).Nodup := nodup_eraseDups _
    rw [hstep, ih h.1, insertUsage_map hnodup (colon_notMem_pairs h.1) h.2, pairs_concat]
    split
    · rename_i hmem
      refine List.map_congr_left fun pair _ => ?_
      by_cases hpair : pair = record.2.pair
      · rw [if_pos hpair, hpair, reportOf_concat_of_mem hmem]
      · rw [if_neg hpair, reportOf_concat_of_ne (Ne.symm hpair)]
    · rename_i hnew
      rw [List.map_append, List.map_singleton, reportOf_concat_of_notMem hnew]
      congr 1
      refine List.map_congr_left fun pair hpair => ?_
      have hne : record.2.pair ≠ pair := fun heq => hnew (heq ▸ hpair)
      rw [reportOf_concat_of_ne hne]

/-- What is found among reports that are one for each of some pairs. -/
theorem lookup_map {report : Text × Text → Report} {ps : List (Text × Text)}
    (hcolon : ∀ pair ∈ ps, ':' ∉ pair.1) {p : Text × Text} (hp : ':' ∉ p.1) :
    (ps.map fun pair => (key pair.1 pair.2, report pair)).lookup (key p.1 p.2) =
      if p ∈ ps then some (report p) else none := by
  induction ps with
  | nil => rfl
  | cons other ps ih =>
    rw [List.forall_mem_cons] at hcolon
    rw [List.map_cons, List.lookup_cons]
    by_cases heq : p = other
    · simp [heq]
    · have hkey : (key p.1 p.2 == key other.1 other.2) = false :=
        beq_false_of_ne fun h => heq ((key_inj hp hcolon.1).1 h)
      rw [hkey, ih hcolon.2]
      simp [heq]

theorem get?_recordAll (h : ∀ record ∈ records, ':' ∉ record.2.property) {property : Text}
    (hproperty : ':' ∉ property) (value : Text) :
    (recordAll {} records).get? property value =
      if (property, value) ∈ pairs records then some (reportOf records (property, value))
      else none := by
  rw [get?_eq_lookup, reports_recordAll h]
  exact lookup_map (colon_notMem_pairs h) (p := (property, value)) hproperty

/-- No declaration has a property with a colon. -/
theorem colon_notMem_of_parse {dialect : Dialect} {source : Text}
    {doc : Stylesheet.Document} (h : Stylesheet.Document.parse dialect source = .ok doc)
    {d : Stylesheet.Declaration} (hd : d ∈ doc.declarations) : ':' ∉ d.property :=
  Stylesheet.colon_notMem_propertyName
    (Stylesheet.isPropertyName_of_reading (Stylesheet.reading_of_parse h).2.2 hd)

/-- **A ledger is the grouping of its records.**  Let the properties that are recorded hold no colon,
as those of all declarations do.  Then there is one report for each pair of a property and a value
that was recorded, in the order of first records, and a report has the key of its pair, the name of
its first record and all its records as usages, in order and counted.  The report of a recorded pair
is found, and no other pair finds one. -/
theorem reports_of_history (h : ∀ record ∈ records, ':' ∉ record.2.property) :
    (recordAll {} records).reports =
      (pairs records).map (fun pair => (key pair.1 pair.2, reportOf records pair)) ∧
    (pairs records).Nodup ∧
    (∀ pair ∈ pairs records, ∃ first later, recordsOf records pair = first :: later ∧
      (reportOf records pair).name = first.1 ∧ (reportOf records pair).value = pair.2 ∧
      (reportOf records pair).usages = (first :: later).map Prod.snd ∧
      (reportOf records pair).usageCount = (recordsOf records pair).length) ∧
    (∀ record ∈ records, (recordAll {} records).get? record.2.property record.2.value =
      some (reportOf records record.2.pair)) ∧
    (∀ property value, ':' ∉ property →
      (∀ record ∈ records, record.2.pair ≠ (property, value)) →
      (recordAll {} records).get? property value = none) ∧
    ∀ (dialect : Dialect) (source : Text) (doc : Stylesheet.Document),
      Stylesheet.Document.parse dialect source = .ok doc →
        ∀ d ∈ doc.declarations, ':' ∉ d.property := by
  refine ⟨reports_recordAll h, nodup_eraseDups _, ?_, ?_, ?_, fun _ _ _ hparse _ hd =>
    colon_notMem_of_parse hparse hd⟩
  · intro pair hpair
    obtain ⟨first, later, hrecords⟩ := List.exists_cons_of_ne_nil (recordsOf_ne_nil hpair)
    refine ⟨first, later, hrecords, ?_, rfl, ?_, ?_⟩
    · rw [reportOf, hrecords]
      rfl
    · rw [reportOf, hrecords]
    · rfl
  · intro record hrecord
    rw [get?_recordAll h (h record hrecord), if_pos]
    · rfl
    · exact mem_pairs.2 ⟨record, hrecord, rfl⟩
  · intro property value hproperty hother
    rw [get?_recordAll h hproperty, if_neg]
    intro hmem
    obtain ⟨record, hrecord, hpair⟩ := mem_pairs.1 hmem
    exact hother record hrecord hpair

/-- Two values that come twice, one of them with a colon in it and under two names, and a pair whose
colon stands elsewhere. -/
theorem reports_of_history_with_colons :
    let records : List (Text × Usage) :=
      [("--a".toList, ⟨"1.css".toList, 1, "src".toList, "a:b".toList⟩),
        ("--b".toList, ⟨"2.css".toList, 7, "color".toList, "red".toList⟩),
        ("--c".toList, ⟨"2.css".toList, 9, "src".toList, "a:b".toList⟩)]
    (recordAll {} records).reports.map (fun entry => (entry.1, entry.2.name, entry.2.usageCount)) =
        [("src:a:b".toList, "--a".toList, 2), ("color:red".toList, "--b".toList, 1)] ∧
      (recordAll {} records).get? "color".toList "a:b".toList = none := by
  intro records
  have hcolon : ∀ record ∈ records, ':' ∉ record.2.property := by decide
  have hlaw := reports_of_history hcolon
  refine ⟨?_, hlaw.2.2.2.2.1 "color".toList "a:b".toList (by decide) (by decide)⟩
  rw [hlaw.1]
  decide

end Ledger

end StyleLift
