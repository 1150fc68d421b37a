import StyleLift.Json.Value

/-!
# The usage ledger

The ledger keeps, for every property and value that was replaced, the name of its variable and
every place where it was used.  Reports stand in the order in which their key was first
recorded, and a report keeps the name of its first record.

A report counts its usages, and an index says for every key where its report stands.  Both could be
told from the reports, so they have to be kept in step with them.  `InStep` says so, and every ledger
comes with the proof of it: none can be made in which a key is looked up at a wrong place.

The usage map is the ledger as JSON: one member per report, keyed by property and value, in the
order of the ledger.
-/

namespace StyleLift

/-- One place where a value was replaced. -/
structure Usage where
  /-- The file, relative to the directory of the run. -/
  path : Text
  line : Nat
  property : Text
  value : Text
  deriving DecidableEq, Repr

/-- All usages of one property and value. -/
structure Report where
  /-- The name given at the first usage. -/
  name : Text
  value : Text
  /-- The number of usages. -/
  usageCount : Nat
  usages : List Usage
  deriving DecidableEq, Repr

namespace Report

/-- A report without usages. -/
def blank (name value : Text) : Report := ⟨name, value, 0, []⟩

/-- Adds a usage and counts it. -/
def add (r : Report) (usage : Usage) : Report :=
  { r with usageCount := r.usageCount + 1, usages := r.usages ++ [usage] }

/-- The count is right. -/
def IsCounted (r : Report) : Prop := r.usageCount = r.usages.length

theorem isCounted_blank (name value : Text) : (blank name value).IsCounted := rfl

theorem IsCounted.add {r : Report} (h : r.IsCounted) (usage : Usage) : (r.add usage).IsCounted := by
  rw [IsCounted, Report.add, List.length_append, h]
  rfl

end Report

/-! ## Places of keys -/

/-- The index says for every key where it first stands among `keys`. -/
def IsIndex (index : List (Text × Nat)) (keys : List Text) : Prop :=
  ∀ key, index.lookup key = keys.idxOf? key

theorem isIndex_nil : IsIndex [] [] := fun _ => rfl

/-- A key that comes last is entered with its place. -/
theorem IsIndex.concat {index : List (Text × Nat)} {keys : List Text} (h : IsIndex index keys)
    (key : Text) : IsIndex (index ++ [(key, keys.length)]) (keys ++ [key]) := by
  intro other
  rw [List.lookup_append, h other, List.idxOf?, List.findIdx?_append]
  by_cases hkey : other = key
  · simp [hkey]
  · have hne : (other == key) = false := beq_false_of_ne hkey
    have hne' : (key == other) = false := beq_false_of_ne (Ne.symm hkey)
    simp [List.lookup_cons, hne, hne', List.findIdx?_cons]

/-! ## Ledgers -/

namespace Ledger

/-- The index of reports by key and their counts are right. -/
structure InStep (index : List (Text × Nat)) (reports : List (Text × Report)) : Prop where
  isIndex : IsIndex index (reports.map Prod.fst)
  /-- No key has two reports. -/
  nodup : (reports.map Prod.fst).Nodup
  isCounted : ∀ entry ∈ reports, entry.2.IsCounted

/-- Adds a usage to what stands under a key. -/
def addUsage (usage : Usage) (entry : Text × Report) : Text × Report :=
  (entry.1, entry.2.add usage)

theorem keys_modify (place : Nat) (usage : Usage) (reports : List (Text × Report)) :
    (reports.modify place (addUsage usage)).map Prod.fst = reports.map Prod.fst := by
  induction reports generalizing place with
  | nil => simp
  | cons entry reports ih =>
    rw [List.modify_cons]
    split
    · rfl
    · rw [List.map_cons, ih, List.map_cons]

theorem isCounted_modify {reports : List (Text × Report)}
    (h : ∀ entry ∈ reports, entry.2.IsCounted) (place : Nat) (usage : Usage) :
    ∀ entry ∈ reports.modify place (addUsage usage), entry.2.IsCounted := by
  induction reports generalizing place with
  | nil => simp
  | cons entry reports ih =>
    rw [List.forall_mem_cons] at h
    rw [List.modify_cons]
    split
    · exact List.forall_mem_cons.2 ⟨h.1.add usage, h.2⟩
    · exact List.forall_mem_cons.2 ⟨h.1, ih h.2 _⟩

namespace InStep

variable {index : List (Text × Nat)} {reports : List (Text × Report)}

theorem nil : InStep [] [] := ⟨isIndex_nil, List.nodup_nil, fun _ h => absurd h List.not_mem_nil⟩

/-- A blank report comes last under a new key. -/
theorem concat (h : InStep index reports) {key : Text} (hkey : index.lookup key = none)
    (name value : Text) : InStep (index ++ [(key, reports.length)])
      (reports ++ [(key, Report.blank name value)]) := by
  have hnew : key ∉ reports.map Prod.fst := by
    rwa [h.isIndex key, List.idxOf?_eq_none_iff] at hkey
  refine ⟨?_, ?_, ?_⟩
  · have hindex := h.isIndex.concat key
    rw [List.length_map] at hindex
    rwa [List.map_append, List.map_singleton]
  · rw [List.map_append, List.map_singleton, List.nodup_append]
    refine ⟨h.nodup, by simp, ?_⟩
    intro other hother last hlast heq
    rw [heq, List.mem_singleton.1 hlast] at hother
    exact hnew hother
  · intro entry hentry
    rcases List.mem_append.1 hentry with hentry | hentry
    · exact h.isCounted entry hentry
    · rw [List.mem_singleton.1 hentry]
      exact Report.isCounted_blank name value

/-- A further usage is counted, and its report stays where it is. -/
theorem modify (h : InStep index reports) (place : Nat) (usage : Usage) :
    InStep index (reports.modify place (addUsage usage)) :=
  ⟨(keys_modify place usage reports).symm ▸ h.isIndex,
    (keys_modify place usage reports).symm ▸ h.nodup, isCounted_modify h.isCounted place usage⟩

end InStep

end Ledger

/-- Reports by key, in the order of first record, and where to find them. -/
structure Ledger where
  /-- The place of the report of every key. -/
  index : List (Text × Nat) := []
  reports : List (Text × Report) := []
  inStep : Ledger.InStep index reports := by exact .nil
  deriving DecidableEq, Repr

namespace Ledger

/-- The key of a property and value. -/
def key (property value : Text) : Text := property ++ ':' :: value

/-- The place of the report of `key`, in a ledger that has one: if there was none, a blank one. -/
def reserve (ledger : Ledger) (key name value : Text) : Nat × Ledger :=
  match h : ledger.index.lookup key with
  | some place => (place, ledger)
  | none => (ledger.reports.length, {
      index := ledger.index ++ [(key, ledger.reports.length)]
      reports := ledger.reports ++ [(key, .blank name value)]
      inStep := ledger.inStep.concat h name value })

theorem reserve_of_lookup {ledger : Ledger} {key : Text} {place : Nat}
    (h : ledger.index.lookup key = some place) (name value : Text) :
    ledger.reserve key name value = (place, ledger) := by
  rw [reserve]
  split
  · rename_i other hother
    rw [Option.some.inj (hother.symm.trans h)]
  · rename_i hnone
    exact absurd (h.symm.trans hnone) (Option.some_ne_none place)

theorem reserve_of_lookup_eq_none {ledger : Ledger} {key : Text}
    (h : ledger.index.lookup key = none) (name value : Text) :
    ledger.reserve key name value = (ledger.reports.length, {
      index := ledger.index ++ [(key, ledger.reports.length)]
      reports := ledger.reports ++ [(key, .blank name value)]
      inStep := ledger.inStep.concat h name value }) := by
  rw [reserve]
  split
  · rename_i place hplace
    exact absurd (hplace.symm.trans h) (Option.some_ne_none place)
  · rfl

/-- Adds a usage to the report at a place. -/
def addAt (ledger : Ledger) (place : Nat) (usage : Usage) : Ledger where
  index := ledger.index
  reports := ledger.reports.modify place (addUsage usage)
  inStep := ledger.inStep.modify place usage

/-- Records one usage: adds it to the report of its property and value, which is made with `name` if
there is none yet. -/
def record (ledger : Ledger) (name : Text) (usage : Usage) : Ledger :=
  let (place, ledger) := ledger.reserve (key usage.property usage.value) name usage.value
  ledger.addAt place usage

/-- The report of a property and value. -/
def get? (ledger : Ledger) (property value : Text) : Option Report :=
  (ledger.index.lookup (key property value)).bind fun place =>
    ledger.reports[place]?.map Prod.snd

/-- The number of reports. -/
def size (ledger : Ledger) : Nat := ledger.reports.length

end Ledger

/-! ## The usage map -/

/-- A usage as JSON. -/
def Usage.toJson (u : Usage) : Json :=
  .object [("sourcePath".toList, .string u.path), ("sourceLine".toList, .number u.line),
    ("property".toList, .string u.property), ("rawValue".toList, .string u.value)]

/-- A report as JSON. -/
def Report.toJson (r : Report) : Json :=
  .object [("variableName".toList, .string r.name), ("rawValue".toList, .string r.value),
    ("usageCount".toList, .number r.usageCount),
    ("usages".toList, .array (r.usages.map (·.toJson)))]

/-- A ledger as JSON. -/
def Ledger.toJson (ledger : Ledger) : Json :=
  .object (ledger.reports.map fun (key, report) => (key, report.toJson))

/-- The text of the usage map. -/
def Ledger.usageMap (ledger : Ledger) : Text := ledger.toJson.pretty ++ ['\n']

end StyleLift
