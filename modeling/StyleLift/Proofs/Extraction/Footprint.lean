import Mathlib.Data.List.Pairwise
import StyleLift.Proofs.Disk.Tree
import StyleLift.Proofs.Extraction.Untouched
import StyleLift.Proofs.Lifting.Run
import StyleLift.Proofs.Stylesheet.Changes

/-!
# The footprint of a run

Lifting goes from file to file, each time on the disk and in the journal that the files before have
left behind, and it may stop at any file.  What this comes to can be said from the disk at the
start.  Different files lie at different places, so a file is read as it was at the start, and a
file that has had its turn is not touched again.  And a file from which something was lifted does
not hold what it held, so counting such files counts the files that have changed.

* `Course`, `course`: lifting documents in turn, without a file being read or a write that fails.
* `Ready`: the files are read from a tree, and lie apart.
* `Footprint`, `footprint_course`: what a course has done to the disk.
* `liftFiles_of_ready`, `liftFiles_append`: a run over the files is their course.
* `extract_footprint`: **a run changes the files from which something is lifted before it ends, and
  nothing else.**
-/

namespace StyleLift

open Stylesheet (Document Entry Declaration)

namespace Disk

/-! ## Where paths lead after files have changed -/

theorem follow_congr {before after : Disk}
    (h : ∀ place, after.needDirectory place = before.needDirectory place) (place : Location)
    (parts : List Text) : after.follow place parts = before.follow place parts := by
  induction parts generalizing place with
  | nil => rfl
  | cons part rest ih =>
    rw [follow, follow, h]
    simp only [ih]

/-- Reading looks at the place that a path leads to. -/
theorem read_congr {before after : Disk} {p : Path} (hlocate : after.locate p = before.locate p)
    (hnode : ∀ place, before.locate p = .ok place → after.node? place = before.node? place) :
    after.read p = before.read p := by
  rw [read, read, stat, stat, hlocate]
  cases hplace : before.locate p with
  | error fault => rfl
  | ok place => simp only [bind, Except.bind, hnode place hplace]

theorem read_of_node? {disk : Disk} {p : Path} {place : Location} {content : ByteArray}
    (hlocate : disk.locate p = .ok place) (hnode : disk.node? place = some (.file content)) :
    disk.read p = .ok content := by
  rw [read, stat_of_node? hlocate hnode]
  rfl

namespace Rewrites

variable {paths : List Path} {before after : Disk}

/-- **A path leads where it led,** or fails as it did. -/
theorem locate_eq (h : Rewrites paths before after) (p : Path) :
    after.locate p = before.locate p := by
  have hneed : ∀ place, after.needDirectory place = before.needDirectory place := by
    intro place
    rw [needDirectory, needDirectory]
    rcases h.node place with heq | ⟨⟨old, new, hold, hnew⟩, -⟩
    · rw [heq]
    · rw [hold, hnew]
  rw [locate, locate, h.keepsDirectories.start]
  simp only [follow_congr hneed]

/-- A path that leads elsewhere reads what it read. -/
theorem read_eq (h : Rewrites paths before after) {p : Path}
    (hp : ∀ q ∈ paths, before.Apart q p) : after.read p = before.read p := by
  refine read_congr (h.locate_eq p) fun place hlocate => ?_
  rcases h.node place with heq | ⟨-, q, hq, hplace⟩
  · exact heq
  · exact absurd hlocate (hp q hq place hplace)

end Rewrites

end Disk

namespace Lifter

variable {lifter : Lifter} {disk : Disk} {journal : Journal}

/-! ## Reading -/

/-- Reading a document looks at the bytes of its file only. -/
theorem readDocument_congr {before after : Disk} {path : Path}
    (h : after.read path = before.read path) :
    readDocument after path = readDocument before path := by
  rw [readDocument, readDocument, Disk.readText, Disk.readText, h]

theorem exists_of_readDocument {path : Path} {doc : Document}
    (h : readDocument disk path = .ok doc) :
    ∃ content source, disk.stat path = .ok (.file content) ∧ Disk.decode? content = some source ∧
      Document.parse (.ofPath path) source = .ok doc := by
  obtain ⟨content, hstat⟩ := exists_stat_of_readDocument h
  have hread : disk.read path = .ok content := by
    rw [Disk.read, hstat]
    rfl
  rw [readDocument, Disk.readText, hread] at h
  cases hdecode : Disk.decode? content with
  | none =>
    simp [hdecode, bind, Except.bind, Except.mapError] at h
  | some source =>
    simp only [hdecode, bind, Except.bind, Except.mapError] at h
    refine ⟨content, source, hstat, hdecode, ?_⟩
    cases hparse : Document.parse (.ofPath path) source with
    | error fault =>
      rw [hparse] at h
      cases h
    | ok doc' =>
      rw [hparse] at h
      rw [Except.ok.inj h]

/-! ## Lifting one document -/

/-- A value that starts like a reference is left alone. -/
theorem after?_of_visit {path : Path} {d : Declaration} {name : Text}
    (h : (lifter.visit disk path d journal).1 = some name) :
    (Text.after? "var(".toList d.value).isSome = false := by
  by_contra hstart
  have hleave : lifter.select disk path d = .leave := by
    rw [select, eq_true_of_ne_false hstart, Bool.true_or, if_pos rfl, ite_self]
  rw [visit_of_leave hleave] at h
  cases h

/-- Visits leave declarations as they are. -/
theorem declarations_visitAll (path : Path) (entries : List Entry) :
    (lifter.visitAll disk path journal entries).1.map Entry.declaration =
      entries.map Entry.declaration := by
  induction entries generalizing journal with
  | nil => rfl
  | cons e rest ih =>
    rw [entries_visitAll_cons, List.map_cons, List.map_cons, ih]
    cases (lifter.visit disk path e.declaration journal).1 <;> rfl

/-- Visits put references only where a value does not start like one. -/
theorem replacement_visitAll {path : Path} {entries : List Entry}
    (hnone : ∀ e ∈ entries, e.replacement = none) :
    ∀ e ∈ (lifter.visitAll disk path journal entries).1, ∀ v, e.replacement = some v →
      (∃ name, v = reference name) ∧
        (Text.after? "var(".toList e.declaration.value).isSome = false := by
  induction entries generalizing journal with
  | nil => simp
  | cons e rest ih =>
    rw [List.forall_mem_cons] at hnone
    rw [entries_visitAll_cons, List.forall_mem_cons]
    refine ⟨fun v hv => ?_, ih hnone.2⟩
    cases hvisit : (lifter.visit disk path e.declaration journal).1 with
    | none =>
      rw [hvisit, marked, hnone.1] at hv
      cases hv
    | some name =>
      rw [hvisit] at hv
      exact ⟨⟨name, (Option.some.inj hv).symm⟩, after?_of_visit hvisit⟩

/-- The entries that get a new value are counted. -/
theorem count_visitAll {path : Path} {entries : List Entry}
    (hnone : ∀ e ∈ entries, e.replacement = none) :
    (lifter.visitAll disk path journal entries).2.1 =
      (lifter.visitAll disk path journal entries).1.countP fun e => e.replacement.isSome := by
  induction entries generalizing journal with
  | nil => rfl
  | cons e rest ih =>
    rw [List.forall_mem_cons] at hnone
    rw [visitAll]
    split
    · rename_i journal' hvisit
      rw [List.countP_cons_of_neg (by simp [hnone.1])]
      exact ih hnone.2
    · rename_i name journal' hvisit
      rw [List.countP_cons_of_pos (by simp)]
      exact congrArg (· + 1) (ih hnone.2)

section

variable (lifter : Lifter) (disk : Disk) (path : Path) (journal : Journal) {dialect : Dialect}
  {source : Text} {doc : Document} (hdoc : Document.parse dialect source = .ok doc)
include hdoc

/-- A document has a new value exactly if something was lifted. -/
theorem isModified_lift :
    (lifter.lift disk path dialect doc journal).document.isModified =
      decide (0 < (lifter.lift disk path dialect doc journal).count) := by
  obtain ⟨-, hnone, -⟩ := Stylesheet.reading_of_parse hdoc
  have hlift : lifter.lift disk path dialect doc journal = _ :=
    lift_eq ⟨path, dialect, source, doc, hdoc⟩
  rw [hlift, Document.isModified, count_visitAll hnone, Bool.eq_iff_iff, List.any_eq_true,
    decide_eq_true_iff, List.countP_pos_iff]

/-- **What is printed after lifting something is not what was read.** -/
theorem render_lift_ne (hcount : 0 < (lifter.lift disk path dialect doc journal).count) :
    (lifter.lift disk path dialect doc journal).document.render ≠ source := by
  have hmodified := isModified_lift lifter disk path journal hdoc
  rw [decide_eq_true hcount] at hmodified
  obtain ⟨-, hnone, -⟩ := Stylesheet.reading_of_parse hdoc
  have hlift : lifter.lift disk path dialect doc journal = _ :=
    lift_eq ⟨path, dialect, source, doc, hdoc⟩
  rw [hlift] at hmodified ⊢
  exact Document.render_ne_source hdoc rfl (declarations_visitAll path doc.entries) hmodified
    (replacement_visitAll hnone)

end

/-! ## The course of a run -/

/-- The disk after a file has had its turn: if something was lifted from it, it holds what is
printed. -/
def Result.store (result : Result) (path : Path) (disk : Disk) : Disk :=
  match disk.locate path with
  | .ok place =>
    if 0 < result.count then disk.put place (.file (Disk.encode result.document.render)) else disk
  | .error _ => disk

/-- What lifting makes of files in turn. -/
structure Course where
  /-- The files in order, each with what was made of its document. -/
  turns : List (Path × Result)
  /-- The journal after. -/
  journal : Journal
  /-- The disk after. -/
  disk : Disk

/-- Lifts documents in turn, each on the disk and in the journal that those before it leave
behind. -/
def course (lifter : Lifter) (disk : Disk) (journal : Journal) :
    List (Path × Document) → Course
  | [] => ⟨[], journal, disk⟩
  | (path, doc) :: rest =>
    let result := lifter.lift disk path (.ofPath path) doc journal
    let later := lifter.course (result.store path disk) result.journal rest
    ⟨(path, result) :: later.turns, later.journal, later.disk⟩

theorem paths_course (lifter : Lifter) (disk : Disk) (journal : Journal)
    (files : List (Path × Document)) :
    (lifter.course disk journal files).turns.map Prod.fst = files.map Prod.fst := by
  induction files generalizing disk journal with
  | nil => rfl
  | cons file rest ih => exact congrArg (file.1 :: ·) (ih _ _)

/-- The files are read from a tree, and lie at different places. -/
structure Ready (disk : Disk) (files : List (Path × Document)) : Prop where
  tree : disk.IsTree
  apart : (files.map Prod.fst).Pairwise disk.Apart
  readable : ∀ file ∈ files, readDocument disk file.1 = .ok file.2

/-! ## One turn -/

/-- What the turn of one file has done: the file at `place` held `old`, and now holds what is
printed, which is something else, if something was lifted from it. -/
structure Turn (before : Disk) (path : Path) (result : Result) (place : Location) (old : ByteArray)
    (after : Disk) : Prop where
  locate : before.locate path = .ok place
  node : before.node? place = some (.file old)
  changed : 0 < result.count → Disk.encode result.document.render ≠ old
  eq_put : after = if 0 < result.count then
    before.put place (.file (Disk.encode result.document.render)) else before

namespace Turn

variable {before after : Disk} {path : Path} {result : Result} {place : Location} {old : ByteArray}
  (h : Turn before path result place old after)
include h

theorem node?_of_pos (hcount : 0 < result.count) :
    after.node? place = some (.file (Disk.encode result.document.render)) := by
  have hplace : place ≠ [] := by
    rintro rfl
    cases h.node
  rw [h.eq_put, if_pos hcount, Disk.node?_put hplace, if_pos rfl]

theorem node?_of_ne {q : Location} (hq : 0 < result.count → q ≠ place) :
    after.node? q = before.node? q := by
  have hplace : place ≠ [] := by
    rintro rfl
    cases h.node
  rw [h.eq_put]
  split
  · rename_i hcount
    rw [Disk.node?_put hplace, if_neg (hq hcount)]
  · rfl

theorem isTree (htree : before.IsTree) : after.IsTree := by
  rw [h.eq_put]
  split
  · exact htree.put_file h.node _
  · exact htree

theorem rewrites : before.Rewrites [path] after := by
  refine ⟨by rw [h.eq_put]; split <;> rfl, fun q => ?_⟩
  by_cases hq : 0 < result.count → q ≠ place
  · exact Or.inl (h.node?_of_ne hq)
  · rw [Classical.not_imp, not_not] at hq
    obtain ⟨hcount, rfl⟩ := hq
    exact Or.inr ⟨⟨old, _, h.node, h.node?_of_pos hcount⟩, path, List.mem_singleton_self path,
      h.locate⟩

end Turn

/-- **A file that is read takes its turn,** and nothing stops it. -/
theorem exists_turn (lifter : Lifter) (journal : Journal) (htree : disk.IsTree) {path : Path}
    {doc : Document}
    (hread : readDocument disk path = .ok doc) {result : Result}
    (hresult : lifter.lift disk path (.ofPath path) doc journal = result) :
    (∃ place old, Turn disk path result place old (result.store path disk)) ∧
      lifter.liftFile path journal disk =
        (.ok (result.count, result.journal), result.store path disk) := by
  obtain ⟨content, source, hstat, hdecode, hparse⟩ := exists_of_readDocument hread
  have hmodified := isModified_lift lifter disk path journal hparse
  have hchanged := render_lift_ne lifter disk path journal hparse
  rw [hresult] at hmodified hchanged
  obtain ⟨place, hlocate, hnode, hwrite⟩ := htree.write_of_stat hstat result.document.render
  have hstore : result.store path disk = if 0 < result.count then
      disk.put place (.file (Disk.encode result.document.render)) else disk := by
    rw [Result.store, hlocate]
  refine ⟨⟨place, content, hlocate, hnode, fun hcount heq => ?_, hstore⟩, ?_⟩
  · refine hchanged hcount ?_
    rw [← heq, Disk.decode?_encode] at hdecode
    exact Option.some.inj hdecode
  · have hobserve : Run.observe (fun disk => readDocument disk path) disk = (.ok doc, disk) := by
      rw [Run.observe_apply, hread]
    have hget : (get : Run Disk) disk = (.ok disk, disk) := rfl
    rw [liftFile, Run.bind_of_ok hobserve, Run.bind_of_ok hget, hstore]
    dsimp only
    rw [hresult, hmodified]
    by_cases hcount : 0 < result.count
    · have hchange : Run.change (·.write path result.document.render) (.unwritableFile path) disk =
          (.ok (), disk.put place (.file (Disk.encode result.document.render))) :=
        Run.change_of_ok hwrite
      simp only [hcount, decide_true, if_true]
      exact Run.bind_of_ok hchange
    · simp only [hcount, decide_false, if_false]
      rfl

/-- What is ready stays ready for the files behind the first one. -/
theorem Ready.tail {path : Path} {doc : Document} {rest : List (Path × Document)}
    (h : Ready disk ((path, doc) :: rest)) {result : Result} {place : Location} {old : ByteArray}
    {after : Disk} (hturn : Turn disk path result place old after) : Ready after rest where
  tree := hturn.isTree h.tree
  apart := by
    refine (List.pairwise_cons.1 h.apart).2.imp ?_
    intro p q hpq place
    rw [hturn.rewrites.locate_eq, hturn.rewrites.locate_eq]
    exact hpq place
  readable := by
    intro file hfile
    rw [readDocument_congr (hturn.rewrites.read_eq ?_)]
    · exact h.readable file (List.mem_cons_of_mem _ hfile)
    · intro q hq
      rw [List.mem_singleton.1 hq]
      exact (List.pairwise_cons.1 h.apart).1 _ (List.mem_map_of_mem hfile)

/-! ## All turns -/

/-- What a course has done to the disk. -/
structure Footprint (before : Disk) (course : Course) : Prop where
  cwd : course.disk.cwd = before.cwd
  /-- A file from which something was lifted holds what is printed, which is not what it held. -/
  rewritten : ∀ turn ∈ course.turns, 0 < turn.2.count → ∃ place old,
    before.locate turn.1 = .ok place ∧ before.node? place = some (.file old) ∧
      course.disk.node? place = some (.file (Disk.encode turn.2.document.render)) ∧
      Disk.encode turn.2.document.render ≠ old
  /-- All other places stay. -/
  kept : ∀ place, (∀ turn ∈ course.turns, 0 < turn.2.count →
    before.locate turn.1 ≠ .ok place) → course.disk.node? place = before.node? place

/-- **The footprint of a course.**  The turn of the first file comes first; the others leave its
place alone and find theirs as it was. -/
theorem footprint_course (lifter : Lifter) (journal : Journal) {files : List (Path × Document)}
    (h : Ready disk files) :
    Footprint disk (lifter.course disk journal files) := by
  induction files generalizing disk journal with
  | nil => exact ⟨rfl, by simp [course], fun _ _ => rfl⟩
  | cons file rest ih =>
    obtain ⟨path, doc⟩ := file
    obtain ⟨⟨place, old, hturn⟩, -⟩ := exists_turn lifter journal h.tree
      (h.readable (path, doc) List.mem_cons_self) rfl
    have hlater := ih (lifter.lift disk path (.ofPath path) doc journal).journal (h.tail hturn)
    have happart : ∀ turn ∈ (lifter.course ((lifter.lift disk path (.ofPath path) doc
        journal).store path disk) (lifter.lift disk path (.ofPath path) doc journal).journal
          rest).turns, disk.locate turn.1 ≠ .ok place := by
      intro turn hmem
      refine (List.pairwise_cons.1 h.apart).1 turn.1 ?_ place hturn.locate
      rw [← paths_course lifter]
      exact List.mem_map_of_mem hmem
    have hlocate := hturn.rewrites.locate_eq
    rw [course]
    generalize lifter.lift disk path (.ofPath path) doc journal = result at *
    generalize lifter.course (result.store path disk) result.journal rest = later at *
    refine ⟨hlater.cwd.trans hturn.rewrites.cwd, ?_, ?_⟩
    · refine List.forall_mem_cons.2 ⟨fun hcount => ?_, fun turn hmem hcount => ?_⟩
      · refine ⟨place, old, hturn.locate, hturn.node, ?_, hturn.changed hcount⟩
        rw [hlater.kept place fun turn hmem _ => by rw [hlocate]; exact happart turn hmem]
        exact hturn.node?_of_pos hcount
      · obtain ⟨place', old', hplace', hnode', hnew, hchanged⟩ := hlater.rewritten turn hmem hcount
        rw [hlocate] at hplace'
        refine ⟨place', old', hplace', ?_, hnew, hchanged⟩
        rw [← hturn.node?_of_ne, hnode']
        rintro - rfl
        exact happart turn hmem hplace'
    · intro q hq
      rw [List.forall_mem_cons] at hq
      rw [hlater.kept q fun turn hmem hcount => by rw [hlocate]; exact hq.2 turn hmem hcount]
      exact hturn.node?_of_ne fun hcount heq => hq.1 hcount (heq ▸ hturn.locate)

/-- **A run over files that are ready is their course.** -/
theorem liftFiles_of_ready (lifter : Lifter) (journal : Journal) {files : List (Path × Document)}
    (h : Ready disk files) :
    lifter.liftFiles journal (files.map Prod.fst) disk =
      (.ok ((lifter.course disk journal files).turns.map fun turn => (turn.1, turn.2.count),
        (lifter.course disk journal files).journal), (lifter.course disk journal files).disk) := by
  induction files generalizing disk journal with
  | nil => rfl
  | cons file rest ih =>
    obtain ⟨path, doc⟩ := file
    obtain ⟨⟨place, old, hturn⟩, hlift⟩ := exists_turn lifter journal h.tree
      (h.readable (path, doc) List.mem_cons_self) rfl
    rw [List.map_cons, liftFiles, Run.bind_of_ok hlift]
    dsimp only
    rw [Run.bind_of_ok (ih _ (h.tail hturn))]
    rfl

/-- A run stops at the first file that fails. -/
theorem liftFiles_append {front later : List Path} {path : Path} {middle : Disk}
    {outcomes : List (Path × Nat)} {journal' : Journal} {failure : Failure}
    (hfront : lifter.liftFiles journal front disk = (.ok (outcomes, journal'), middle))
    (hread : readDocument middle path = .error failure) :
    lifter.liftFiles journal (front ++ path :: later) disk = (.error failure, middle) := by
  induction front generalizing disk journal outcomes with
  | nil =>
    cases hfront
    have hobserve : Run.observe (fun disk => readDocument disk path) middle =
        (.error failure, middle) := by
      rw [Run.observe_apply, hread]
    have hfile : lifter.liftFile path journal' middle = (.error failure, middle) :=
      Run.bind_of_error hobserve
    exact Run.bind_of_error hfile
  | cons first front ih =>
    obtain ⟨⟨count, next⟩, disk', hfirst, hrest⟩ := Run.exists_of_bind hfront
    obtain ⟨⟨others, last⟩, disk'', hothers, hend⟩ := Run.exists_of_bind hrest
    cases hend
    rw [List.cons_append, liftFiles, Run.bind_of_ok hfirst]
    exact Run.bind_of_error (ih hothers)

/-! ## What can be seen of a footprint -/

namespace Footprint

variable {before : Disk} {course : Course} (h : Footprint before course)
include h

theorem rewrites : before.Rewrites (course.turns.map Prod.fst) course.disk := by
  refine ⟨h.cwd, fun place => ?_⟩
  by_cases hplace : ∀ turn ∈ course.turns, 0 < turn.2.count → before.locate turn.1 ≠ .ok place
  · exact Or.inl (h.kept place hplace)
  · simp only [not_forall, not_not] at hplace
    obtain ⟨turn, hmem, hcount, hlocate⟩ := hplace
    obtain ⟨place', old, hlocate', hold, hnew, -⟩ := h.rewritten turn hmem hcount
    obtain rfl : place' = place := Except.ok.inj (hlocate'.symm.trans hlocate)
    exact Or.inr ⟨⟨old, _, hold, hnew⟩, turn.1, List.mem_map_of_mem hmem, hlocate⟩

/-- Where nothing was, nothing is. -/
theorem node?_eq_none {place : Location} (hnone : before.node? place = none) :
    course.disk.node? place = none := by
  rcases h.rewrites.node place with heq | ⟨⟨old, new, hold, -⟩, -⟩
  · rw [heq, hnone]
  · rw [hnone] at hold
    cases hold

/-- **A file has other bytes exactly if something was lifted from it.** -/
theorem read_ne_iff (hapart : (course.turns.map Prod.fst).Pairwise before.Apart)
    {turn : Path × Result} (hturn : turn ∈ course.turns) :
    before.read turn.1 ≠ course.disk.read turn.1 ↔ 0 < turn.2.count := by
  have hlocate := h.rewrites.locate_eq
  constructor
  · intro hread
    by_contra hcount
    -- no other turn is at the same place
    refine hread (Disk.read_congr (hlocate turn.1) fun place hplace => h.kept place ?_).symm
    intro other hother hpos hplace'
    have hne : other ≠ turn := by
      rintro rfl
      exact hcount hpos
    have : Std.Symm fun p q : Path × Result => before.Apart p.1 q.1 := ⟨fun _ _ => Disk.Apart.symm⟩
    exact (List.pairwise_map.1 hapart).forall hother hturn hne place hplace' hplace
  · intro hcount
    obtain ⟨place, old, hplace, hold, hnew, hchanged⟩ := h.rewritten turn hturn hcount
    rw [Disk.read_of_node? hplace hold,
      Disk.read_of_node? ((hlocate turn.1).trans hplace) hnew]
    exact fun heq => hchanged (Except.ok.inj heq).symm

end Footprint

/-! ## Runs -/

/-- The files of a run lie at different places. -/
theorem pairwise_files (htree : disk.IsTree) {paths : List Path}
    (h : lifter.files disk = .ok paths) : paths.Pairwise disk.Apart := by
  obtain ⟨wanted, -, h⟩ := Disk.exists_of_bind_eq_ok h
  obtain ⟨unwanted, -, h⟩ := Disk.exists_of_bind_eq_ok h
  obtain ⟨found, hfound, h⟩ := Disk.exists_of_bind_eq_ok h
  cases hpaths : disk.filePaths lifter.root with
  | error fault =>
    rw [hpaths] at hfound
    cases hfound
  | ok all =>
    rw [hpaths] at hfound
    obtain rfl : all = found := Except.ok.inj hfound
    obtain rfl := Except.ok.inj h
    exact (htree.pairwise_filePaths hpaths).filter _

section

variable {files : List (Path × Document)}
  (hreadable : ∀ file ∈ files, readDocument disk file.1 = .ok file.2)
include hreadable

/-- The files of a run are ready as far as they can be read. -/
theorem ready_of_files (htree : disk.IsTree) (others : List Path)
    (hfiles : lifter.files disk = .ok (files.map Prod.fst ++ others)) : Ready disk files where
  tree := htree
  apart := (List.pairwise_append.1 (pairwise_files htree hfiles)).1
  readable := hreadable

/-- **A run whose files can all be read** lifts from them in turn, and then writes its outputs. -/
theorem extract_of_readable (htree : disk.IsTree)
    (hfiles : lifter.files disk = .ok (files.map Prod.fst)) {course : Course}
    (hcourse : lifter.course disk {} files = course) :
    Footprint disk course ∧
      lifter.extract disk = (do
        let written ← Outputs.write lifter.root lifter.settings course.journal
        return ⟨course.turns.map fun turn => (turn.1, turn.2.count), course.journal, written⟩ :
          Run Summary) course.disk := by
  have hready : Ready disk files :=
    ready_of_files hreadable htree [] (by rw [hfiles, List.append_nil])
  subst hcourse
  refine ⟨footprint_course lifter {} hready, ?_⟩
  rw [extract_of_files hfiles, Run.bind_of_ok (liftFiles_of_ready lifter {} hready)]

/-- **A run that comes to a file that cannot be read** ends there.  It finds the file as it was,
since the files before it lie elsewhere. -/
theorem extract_of_unreadable (htree : disk.IsTree) {path : Path} {later : List Path}
    {failure : Failure} (hfiles : lifter.files disk = .ok (files.map Prod.fst ++ path :: later))
    (hfailure : readDocument disk path = .error failure) {course : Course}
    (hcourse : lifter.course disk {} files = course) :
    Footprint disk course ∧
      lifter.extract disk = (.error failure, course.disk) ∧
      ∀ p ∈ path :: later, course.disk.read p = disk.read p := by
  have hready := ready_of_files hreadable htree (path :: later) hfiles
  have hlift := liftFiles_of_ready lifter {} hready
  have hpaths := paths_course lifter disk {} files
  have hfootprint := footprint_course lifter {} hready
  rw [hcourse] at hlift hpaths hfootprint
  have hlater : ∀ p ∈ path :: later, course.disk.read p = disk.read p := by
    intro p hp
    refine hfootprint.rewrites.read_eq fun q hq => ?_
    rw [hpaths] at hq
    exact (List.pairwise_append.1 (pairwise_files htree hfiles)).2.2 q hq p hp
  refine ⟨hfootprint, ?_, hlater⟩
  have hread : readDocument course.disk path = .error failure := by
    rw [readDocument_congr (hlater path List.mem_cons_self), hfailure]
  rw [extract_of_files hfiles]
  exact Run.bind_of_error (liftFiles_append hlift hread)

end

/-- The files that are counted are those with other bytes. -/
theorem Footprint.filesModified_eq {course : Course} (h : Footprint disk course)
    (hapart : (course.turns.map Prod.fst).Pairwise disk.Apart) {summary : Summary}
    (hsummary : summary.files = course.turns.map fun turn => (turn.1, turn.2.count))
    [DecidablePred fun p => disk.read p ≠ course.disk.read p] :
    summary.filesModified =
      (course.turns.map Prod.fst).countP fun p => disk.read p ≠ course.disk.read p := by
  rw [Summary.filesModified, hsummary, ← List.countP_eq_length_filter, List.countP_map,
    List.countP_map]
  refine List.countP_congr fun turn hturn => ?_
  simpa using (h.read_ne_iff hapart hturn).symm

/-- **The footprint of a run.**  If the files cannot be found, nothing changes.  If all of them can
be read, then up to the outputs a run changes those from which something is lifted, and nothing
else; and the summary says how many these are.  If one of them cannot be read, then a run fails
there, with the files before it as a run over these leaves them, and everything else as it was. -/
theorem extract_footprint (lifter : Lifter) {disk : Disk} (htree : disk.IsTree) :
    (∀ failure, lifter.files disk = .error failure →
      lifter.extract disk = (.error failure, disk)) ∧
    (∀ files : List (Path × Document), lifter.files disk = .ok (files.map Prod.fst) →
      (∀ file ∈ files, readDocument disk file.1 = .ok file.2) →
      ∀ course, lifter.course disk {} files = course →
        Footprint disk course ∧
        lifter.extract disk = (do
          let written ← Outputs.write lifter.root lifter.settings course.journal
          return ⟨course.turns.map fun turn => (turn.1, turn.2.count), course.journal, written⟩ :
            Run Summary) course.disk ∧
        ∀ [DecidablePred fun p => disk.read p ≠ course.disk.read p] (summary : Summary)
          (after : Disk), lifter.extract disk = (.ok summary, after) → summary.filesModified =
            (files.map Prod.fst).countP fun p => disk.read p ≠ course.disk.read p) ∧
    (∀ (files : List (Path × Document)) (path : Path) (later : List Path) (failure : Failure),
      lifter.files disk = .ok (files.map Prod.fst ++ path :: later) →
      (∀ file ∈ files, readDocument disk file.1 = .ok file.2) →
      readDocument disk path = .error failure →
      ∀ course, lifter.course disk {} files = course →
        Footprint disk course ∧
        lifter.liftFiles {} (files.map Prod.fst) disk =
          (.ok (course.turns.map fun turn => (turn.1, turn.2.count), course.journal),
            course.disk) ∧
        lifter.extract disk = (.error failure, course.disk) ∧
        (∀ p ∈ path :: later, course.disk.read p = disk.read p) ∧
        ∀ place, disk.node? place = none → course.disk.node? place = none) := by
  refine ⟨?_, ?_, ?_⟩
  · intro failure hfiles
    have hobserve : Run.observe lifter.files disk = (.error failure, disk) := by
      rw [Run.observe_apply, hfiles]
    exact Run.bind_of_error hobserve
  · intro files hfiles hreadable course hcourse
    obtain ⟨hfootprint, hextract⟩ := extract_of_readable hreadable htree hfiles hcourse
    have hpaths := paths_course lifter disk {} files
    rw [hcourse] at hpaths
    refine ⟨hfootprint, hextract, ?_⟩
    intro hdecidable summary after hok
    rw [hextract] at hok
    obtain ⟨written, last, -, hend⟩ := Run.exists_of_bind hok
    cases hend
    rw [← hpaths] at hfiles ⊢
    exact hfootprint.filesModified_eq (pairwise_files htree hfiles) rfl
  · intro files path later failure hfiles hreadable hfailure course hcourse
    obtain ⟨hfootprint, hextract, hlater⟩ :=
      extract_of_unreadable hreadable htree hfiles hfailure hcourse
    subst hcourse
    have hready := ready_of_files hreadable htree (path :: later) hfiles
    exact ⟨hfootprint, liftFiles_of_ready lifter {} hready, hextract, hlater,
      fun place => hfootprint.node?_eq_none⟩

/-- A disk with three sheets, of which the second one does not end. -/
def brokenDisk : Disk where
  nodes := [
    (["a.css".toList], .file (Disk.encode "a { color: red; }".toList)),
    (["b.css".toList], .file (Disk.encode "b \x7b color: blue;".toList)),
    (["c.css".toList], .file (Disk.encode "c { color: green; }".toList))]

theorem files_brokenDisk :
    rerun.files brokenDisk = .ok [.ofString "/a.css", .ofString "/b.css", .ofString "/c.css"] := by
  have hbelow : brokenDisk.filesBelow [] = [["a.css".toList], ["b.css".toList],
      ["c.css".toList]] := List.mergeSort_of_pairwise (by decide)
  have hpaths : brokenDisk.filePaths rerun.root =
      .ok ((brokenDisk.filesBelow []).map rerun.root.below) := rfl
  rw [hbelow] at hpaths
  rw [files, scan_of_filePaths hpaths]
  decide +kernel

theorem exists_readDocument (disk : Disk) (path : Path)
    (h : (readDocument disk path).toOption.isSome) :
    ∃ doc, readDocument disk path = .ok doc := by
  cases hread : readDocument disk path with
  | ok doc => exact ⟨doc, rfl⟩
  | error failure =>
    rw [hread] at h
    cases h

/-- A run that fails at its second file has changed the first one; and a run that does not fail has
counted the one file that it changed. -/
theorem extract_footprint_of_broken_sheet :
    (∃ failure after, rerun.extract brokenDisk = (.error failure, after) ∧
      after.read (.ofString "/a.css") =
        .ok (Disk.encode "a \x7b color: var(--var-red-color); \x7d".toList) ∧
      after.read (.ofString "/b.css") = .ok (Disk.encode "b \x7b color: blue;".toList) ∧
      after.read (.ofString "/c.css") = .ok (Disk.encode "c { color: green; }".toList) ∧
      after.node? ["variables.css".toList] = none) ∧
    (∃ summary after, rerun.extract rerunDisk = (.ok summary, after) ∧
      summary.filesModified = 1) := by
  constructor
  · obtain ⟨doc, hdoc⟩ := exists_readDocument brokenDisk (.ofString "/a.css")
      (by decide +kernel)
    have htree : brokenDisk.IsTree := by decide +kernel
    have hbroken : (readDocument brokenDisk (.ofString "/b.css")).toOption.isNone := by
      decide +kernel
    cases hfailure : readDocument brokenDisk (.ofString "/b.css") with
    | ok doc' =>
      rw [hfailure] at hbroken
      cases hbroken
    | error failure =>
      have hreadable : ∀ file ∈ [(Path.ofString "/a.css", doc)],
          readDocument brokenDisk file.1 = .ok file.2 := by simpa using hdoc
      obtain ⟨-, hlift, hextract, hlater, hnone⟩ :=
        (extract_footprint rerun htree).2.2 [(.ofString "/a.css", doc)] (.ofString "/b.css")
          [.ofString "/c.css"] failure files_brokenDisk hreadable hfailure _ rfl
      generalize rerun.course brokenDisk {} [(.ofString "/a.css", doc)] = course at *
      have hdisk : course.disk = (rerun.liftFiles {} [.ofString "/a.css"] brokenDisk).2 :=
        (congrArg Prod.snd hlift).symm
      refine ⟨failure, _, hextract, ?_, ?_, ?_, ?_⟩
      · rw [hdisk]
        decide +kernel
      · rw [hlater _ (by decide)]
        decide +kernel
      · rw [hlater _ (by decide)]
        decide +kernel
      · exact hnone _ (by decide +kernel)
  · obtain ⟨summary, hextract, -⟩ := exists_rerun
    obtain ⟨doc, hdoc⟩ := exists_readDocument rerunDisk (.ofString "/a.css")
      (by decide +kernel)
    have hreadable : ∀ file ∈ [(Path.ofString "/a.css", doc)],
        readDocument rerunDisk file.1 = .ok file.2 := by simpa using hdoc
    have htree : rerunDisk.IsTree := by decide +kernel
    obtain ⟨-, -, hcount⟩ := (extract_footprint rerun htree).2.1 [(.ofString "/a.css", doc)]
      files_rerun hreadable _ rfl
    have hlift := liftFiles_of_ready rerun {} (ready_of_files hreadable htree [] files_rerun)
    generalize rerun.course rerunDisk {} [(.ofString "/a.css", doc)] = course at *
    have hdisk : course.disk = (rerun.liftFiles {} [.ofString "/a.css"] rerunDisk).2 :=
      (congrArg Prod.snd hlift).symm
    refine ⟨summary, _, hextract, ?_⟩
    rw [hcount summary _ hextract, hdisk]
    change [Path.ofString "/a.css"].countP _ = 1
    decide +kernel

end Lifter

end StyleLift
