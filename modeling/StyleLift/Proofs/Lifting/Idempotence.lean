import StyleLift.Proofs.Lifting.Run
import StyleLift.Proofs.Naming.Characters
import StyleLift.Proofs.Naming.Registry
import StyleLift.Proofs.Stylesheet.Editing

/-!
# Lifting twice

A second run over the files of a first one must find nothing to do.  Two things have to come
together for that.  The text that the first run printed must be read as it was meant: every
declaration that was lifted has a reference as its value now, whatever comments and flags stand
around it, and all others are as before.  And the decision about a declaration must not depend on
what was lifted before: it looks at the property, the value, the file and the disk only, so what was
left alone once is left alone again.

The names are where the first could fail.  A label or an alias comes from the settings and may hold
any character, and a name with a parenthesis or a semicolon would end its reference too early.  All
other parts of a name are made of harmless characters.

* `IsReferable`: without the characters that end a reference; `isReferableName_nextFree`.
* `Lifter.Reachable`, `Journal.Referable`: the journals of runs, and what holds of their names.
* `isLifted_select_congr`: what is lifted is decided by the property and the value alone.
* `Settles`: what a lifting makes of an entry, so that a second one leaves it alone.
* `lift_idempotent`: the result.
-/

namespace StyleLift

open Stylesheet

/-! ## Names that can be referred to -/

/-- Without a character that could end a reference or the statement around it. -/
def IsReferable (s : Text) : Prop := ∀ c ∈ s, c ∉ [';', '{', '}', '(', ')', '"', '\'', '/']

theorem notMem_of_isWordOrHyphen {c : Char} (h : Text.isWordOrHyphen c = true) :
    c ∉ [';', '{', '}', '(', ')', '"', '\'', '/'] := by
  intro hc
  have hnone : [';', '{', '}', '(', ')', '"', '\'', '/'].any Text.isWordOrHyphen = false := by
    decide
  exact List.any_eq_false.1 hnone c hc h

theorem IsNamePart.isReferable {s : Text} (h : IsNamePart s) : IsReferable s :=
  fun c hc => notMem_of_isWordOrHyphen (h c hc)

theorem IsReferable.append {s t : Text} (hs : IsReferable s) (ht : IsReferable t) :
    IsReferable (s ++ t) :=
  List.forall_mem_append.2 ⟨hs, ht⟩

theorem isReferable_hyphen : IsReferable ['-'] := by
  simp [IsReferable]

theorem isReferable_joined {parts : List Text} (h : ∀ s ∈ parts, IsReferable s) :
    IsReferable (Text.joined ['-'] parts) := by
  fun_induction Text.joined ['-'] parts with
  | case1 => simp [IsReferable]
  | case2 s => exact h s List.mem_cons_self
  | case3 s rest hne ih =>
    rw [List.forall_mem_cons] at h
    exact (h.1.append isReferable_hyphen).append (ih h.2)

/-- A property in lower case can be referred to. -/
theorem isReferable_lower {name : Text} (h : isPropertyName name = true) :
    IsReferable (Text.lower name) := by
  intro c hc
  obtain ⟨d, hd, rfl⟩ := List.mem_map.1 hc
  rcases isWordOrHyphen_of_mem_propertyName h hd with hword | ⟨rfl, -⟩
  · exact notMem_of_isWordOrHyphen (Text.isWordOrHyphen_toLower hword)
  · decide

/-- The label and the aliases can stand in references. -/
structure Settings.Referable (settings : Settings) : Prop where
  label : IsReferable settings.label
  aliases : ∀ a ∈ settings.aliases, IsReferable a.2

theorem Settings.Referable.aliasFor {settings : Settings} (h : settings.Referable)
    {property : Text} (hname : isPropertyName property = true) :
    IsReferable (settings.aliasFor (Text.lower property)) := by
  rw [Settings.aliasFor]
  cases hlookup : settings.aliases.lookup (Text.lower property) with
  | none => exact isReferable_lower hname
  | some shortName =>
    obtain ⟨front, back, heq, -⟩ := List.lookup_eq_some_iff.1 hlookup
    exact h.aliases (Text.lower property, shortName) (by rw [heq]; simp)

/-- A name that can be referred to: not empty, and without a character that could end its
reference. -/
def IsReferableName (name : Text) : Prop := name ≠ [] ∧ IsReferable name

theorem IsReferableName.isReference {name : Text} (h : IsReferableName name) :
    IsReference (Lifter.reference name) :=
  ⟨name, h.1, h.2, rfl⟩

theorem isReferableName_baseName {ctx : Naming.Context} (hlabel : IsReferable ctx.label)
    (htoken : IsNamePart ctx.token) (hshort : IsReferable ctx.shortName) :
    IsReferableName (Naming.baseName ctx) := by
  refine ⟨List.cons_ne_nil _ _, ?_⟩
  have hparts : ∀ s ∈ Naming.segments ctx, IsReferable s := by
    intro s hs
    have hmem := (List.mem_filter.1 hs).1
    simp only [List.mem_cons, List.not_mem_nil, or_false] at hmem
    rcases hmem with rfl | rfl | rfl | rfl | rfl
    · exact hlabel
    · exact (isNamePart_folderSegment _ _).isReferable
    · exact (isNamePart_nearestClass? _).isReferable
    · exact htoken.isReferable
    · exact hshort
  exact (isReferable_hyphen.append isReferable_hyphen).append (isReferable_joined hparts)

/-- The name that is found can be referred to when the base name can. -/
theorem isReferableName_nextFree (taken : List Text) {base : Text} (h : IsReferableName base) :
    IsReferableName (Naming.Registry.nextFree taken base) := by
  unfold Naming.Registry.nextFree
  split
  · exact h
  · cases hfind : ((List.range (taken.length + 1)).map
        fun n => Naming.Registry.numbered base (n + 1)).find? fun name => !taken.contains name with
    | none => exact h
    | some name =>
      obtain ⟨n, -, rfl⟩ := List.mem_map.1 (List.mem_of_find?_eq_some hfind)
      refine ⟨by simp [Naming.Registry.numbered], h.2.append ?_⟩
      have hdigits : IsNamePart (Text.decimal (n + 1)) := fun c hc =>
        Text.isWordOrHyphen_of_isAlphanum (Text.isAlphanum_of_mem_decimal hc)
      exact isReferable_hyphen.append hdigits.isReferable

/-! ## The journals of runs -/

/-- All names that were handed out can be referred to. -/
structure Journal.Referable (journal : Journal) : Prop where
  names : ∀ record ∈ journal.names.assigned, IsReferableName record.2
  entries : ∀ v ∈ journal.plain ++ journal.assets, IsReferableName v.name

theorem Journal.Referable.empty : Journal.Referable {} := ⟨by simp, by simp⟩

namespace Lifter

/-- The journals that lifting documents leads to, one after the other and from any file. -/
inductive Reachable (lifter : Lifter) (disk : Disk) : Journal → Prop
  | start : Reachable lifter disk {}
  | lift {journal : Journal} (h : Reachable lifter disk journal) (path : Path)
      (dialect : Dialect) {source : Text} {doc : Document}
      (hdoc : Document.parse dialect source = .ok doc) :
      Reachable lifter disk (lifter.lift disk path dialect doc journal).journal

variable {lifter : Lifter} {disk : Disk} {path : Path} {d : Declaration} {journal : Journal}

/-- **Visits keep the names referable.** -/
theorem referable_visit (hscheme : lifter.strategy = none) (hsettings : lifter.settings.Referable)
    (hname : isPropertyName d.property = true) (h : journal.Referable) :
    (lifter.visit disk path d journal).2.Referable := by
  rcases visit_cases hscheme with ⟨hnames, hplain, hassets⟩ | ⟨shared, -, hnames, hnew⟩
  · refine ⟨?_, ?_⟩
    · rw [hnames]
      exact h.names
    · rw [hplain, hassets]
      exact h.entries
  · have hbase : IsReferableName (Naming.baseName (lifter.context path d journal.references)) :=
      isReferableName_baseName hsettings.label (isNamePart_token _ _ _) (hsettings.aliasFor hname)
    have hrecords := Naming.Registry.forall_assigned_assign h.names
      (isReferableName_nextFree journal.names.taken hbase) (Text.lower d.property) shared
    refine ⟨by rwa [hnames], ?_⟩
    intro v hv
    rcases hnew v hv with hold | ⟨-, hanswer⟩
    · exact h.entries v hold
    · rw [hanswer]
      exact hrecords _ (Naming.Registry.mem_assigned_assign _ _ _ _)

/-- Lifting a document keeps the names referable. -/
theorem referable_lift (hscheme : lifter.strategy = none) (hsettings : lifter.settings.Referable)
    {dialect dialect' : Dialect} {source : Text} {doc : Document}
    (hdoc : Document.parse dialect' source = .ok doc) (h : journal.Referable) :
    (lifter.lift disk path dialect doc journal).journal.Referable := by
  obtain ⟨-, -, hreading⟩ := reading_of_parse hdoc
  have hvisits : ∀ {j : Journal}, j.Referable →
      (lifter.visitAll disk path j doc.entries).2.2.Referable :=
    visitAll_journal fun e he _ hj => referable_visit hscheme hsettings
      (isPropertyName_of_reading hreading (Document.mem_declarations he)) hj
  cases dialect with
  | css => exact hvisits h
  | scss => exact hvisits (j := journal.addReferences path doc.declarations) ⟨h.names, h.entries⟩

/-- In every journal of a run, the names can be referred to. -/
theorem Reachable.referable (hscheme : lifter.strategy = none)
    (hsettings : lifter.settings.Referable) (h : lifter.Reachable disk journal) :
    journal.Referable := by
  induction h with
  | start => exact .empty
  | lift h path dialect hdoc ih => exact referable_lift hscheme hsettings hdoc ih

/-! ## What is not lifted -/

end Lifter

/-- Whether the declaration is lifted, as it is or inlined. -/
def Selection.isLifted : Selection → Bool
  | .leave | .warn _ => false
  | .lift | .inline _ => true

namespace Lifter

variable {lifter : Lifter} {disk : Disk} {path : Path} {d : Declaration}

/-- A reference is left alone. -/
theorem isLifted_of_reference {name : Text} (h : d.value = reference name) :
    (lifter.select disk path d).isLifted = false := by
  have hvar : Text.after? "var(".toList d.value = some (name ++ ")".toList) := by
    rw [h]
    rfl
  rw [select, hvar, Option.isSome_some, Bool.true_or, if_pos rfl, ite_self]
  rfl

/-- The line of a declaration is part of the warning about its image, and of nothing else. -/
theorem isLifted_selectImage_congr (d d' : Declaration) (reference : Text) :
    (lifter.selectImage disk path d' reference).isLifted =
      (lifter.selectImage disk path d reference).isLifted := by
  simp only [selectImage]
  split
  · rfl
  · cases lifter.encoder disk (Image.assetPath path reference) with
    | ok encoded => rfl
    | error cause => rfl

/-- **What is lifted is decided by the property and the value.**  The line of a declaration, the
blocks around it and the place of its value do not matter. -/
theorem isLifted_select_congr {d' : Declaration} (hproperty : d'.property = d.property)
    (hvalue : d'.value = d.value) :
    (lifter.select disk path d').isLifted = (lifter.select disk path d).isLifted := by
  simp only [select, hproperty, hvalue, apply_ite Selection.isLifted]
  cases Value.kind d.value with
  | image reference =>
    simp only [apply_ite Selection.isLifted, isLifted_selectImage_congr d d']
  | quoted | reference | gradient | transparent | plain => rfl

/-- The visit of a declaration that is not lifted leaves at most a warning. -/
theorem visit_of_not_isLifted (h : (lifter.select disk path d).isLifted = false)
    (journal : Journal) :
    ∃ warnings, lifter.visit disk path d journal =
      (none, { journal with warnings := journal.warnings ++ warnings }) := by
  cases hselect : lifter.select disk path d with
  | leave => exact ⟨[], by rw [visit_of_leave hselect, List.append_nil]⟩
  | warn warning => exact ⟨[warning], visit_of_warn hselect⟩
  | lift =>
    rw [hselect] at h
    cases h
  | inline url =>
    rw [hselect] at h
    cases h

/-- Where nothing is lifted, nothing but warnings comes of the visits. -/
theorem visitAll_of_not_isLifted {entries : List Entry}
    (h : ∀ e ∈ entries, (lifter.select disk path e.declaration).isLifted = false)
    (journal : Journal) :
    ∃ warnings, lifter.visitAll disk path journal entries =
      (entries, 0, { journal with warnings := journal.warnings ++ warnings }) := by
  induction entries generalizing journal with
  | nil => exact ⟨[], by rw [visitAll, List.append_nil]⟩
  | cons e rest ih =>
    rw [List.forall_mem_cons] at h
    obtain ⟨first, hfirst⟩ := visit_of_not_isLifted h.1 journal
    obtain ⟨later, hlater⟩ := ih h.2 { journal with warnings := journal.warnings ++ first }
    refine ⟨first ++ later, ?_⟩
    rw [visitAll, hfirst]
    dsimp only
    rw [hlater, List.append_assoc]

/-! ## What becomes of a document -/

/-- The entry `e'` is what a lifting makes of `e`: it refers to a name, or it was not lifted and is
as before. -/
def Settles (lifter : Lifter) (disk : Disk) (path : Path) (e e' : Entry) : Prop :=
  (∃ name, IsReferableName name ∧ e' = marked e (some name)) ∨
    e' = e ∧ (lifter.select disk path e.declaration).isLifted = false

theorem Accounted.settles {entries assets : List Variable} {e e' : Entry}
    (h : lifter.Accounted disk path (Holds entries) (Holds assets) e e')
    (hnames : ∀ v ∈ entries ++ assets, IsReferableName v.name) :
    lifter.Settles disk path e e' := by
  unfold Accounted at h
  split at h
  · rename_i hselect
    exact Or.inr ⟨h, by rw [hselect]; rfl⟩
  · rename_i hselect
    exact Or.inr ⟨h, by rw [hselect]; rfl⟩
  · obtain ⟨name, he, v, hv, rfl, -⟩ := h
    exact Or.inl ⟨v.name, hnames v (List.mem_append_left _ hv), he⟩
  · obtain ⟨name, he, -, v, hv, rfl, -⟩ := h
    exact Or.inl ⟨v.name, hnames v (List.mem_append_right _ hv), he⟩

namespace Settles

variable {e e' : Entry}

theorem declaration_eq (h : lifter.Settles disk path e e') : e'.declaration = e.declaration := by
  rcases h with ⟨name, -, rfl⟩ | ⟨rfl, -⟩
  · rfl
  · rfl

theorem isReference (h : lifter.Settles disk path e e') (hnone : e.replacement = none) {v : Text}
    (hv : e'.replacement = some v) : IsReference v := by
  rcases h with ⟨name, hname, rfl⟩ | ⟨rfl, -⟩
  · obtain rfl := Option.some.inj hv
    exact hname.isReference
  · rw [hnone] at hv
    cases hv

/-- A declaration that says what the entry says is not lifted. -/
theorem isLifted_eq_false (h : lifter.Settles disk path e e') (hnone : e.replacement = none)
    {d : Declaration} (hd : d.meaning = e'.meaning) :
    (lifter.select disk path d).isLifted = false := by
  have hproperty : d.property = e'.declaration.property := congrArg Meaning.property hd
  have hvalue : d.value = e'.replacement.getD e'.declaration.value := congrArg Meaning.value hd
  rcases h with ⟨name, -, rfl⟩ | ⟨rfl, hstays⟩
  · exact isLifted_of_reference hvalue
  · rw [hnone] at hvalue
    rw [isLifted_select_congr hproperty hvalue]
    exact hstays

end Settles

/-- All entries of a document that is lifted settle. -/
theorem forall₂_settles_lift {doc : Document} {journal : Journal}
    (h : (lifter.lift disk path .css doc journal).journal.Referable) :
    List.Forall₂ (lifter.Settles disk path) doc.entries
      (lifter.lift disk path .css doc journal).document.entries :=
  (forall₂_accounted_visitAll doc.entries (Journal.Extends.refl _)).imp
    fun _ _ haccounted => haccounted.settles h.entries

/-- A document whose declarations are not lifted is left as it is. -/
theorem lift_of_not_isLifted {doc : Document}
    (h : ∀ e ∈ doc.entries, (lifter.select disk path e.declaration).isLifted = false)
    (journal : Journal) :
    ∃ warnings, lifter.lift disk path .css doc journal =
      ⟨doc, 0, { journal with warnings := journal.warnings ++ warnings }⟩ := by
  obtain ⟨warnings, hvisits⟩ := visitAll_of_not_isLifted h journal
  exact ⟨warnings, by rw [lift]; dsimp only; rw [hvisits]⟩

/-- **A second lifting finds nothing to do.**

A plain stylesheet is lifted in any journal of a run by the default scheme, printed and read again.
Lifting what was read leaves it as it is, in whatever journal, and adds at most warnings. -/
theorem lift_idempotent (root : Path) {settings : Settings} (hsettings : settings.Referable)
    (encoder : Image.Encoder) (disk : Disk) (path : Path) {source : Text} {doc : Document}
    (hdoc : Document.parse .css source = .ok doc) {journal : Journal}
    (hjournal : ({ root, settings, encoder } : Lifter).Reachable disk journal)
    (later : Journal) :
    let lifter : Lifter := { root, settings, encoder }
    let printed := (lifter.lift disk path .css doc journal).document.render
    ∃ again, Document.parse .css printed = .ok again ∧
      (lifter.lift disk path .css again later).count = 0 ∧
      (lifter.lift disk path .css again later).document = again ∧
      again.isModified = false ∧ again.render = printed ∧
      ∃ warnings, (lifter.lift disk path .css again later).journal =
        { later with warnings := later.warnings ++ warnings } := by
  intro lifter printed
  obtain ⟨-, hnone, -⟩ := reading_of_parse hdoc
  have hsettles : List.Forall₂ (lifter.Settles disk path) doc.entries
      (lifter.lift disk path .css doc journal).document.entries :=
    forall₂_settles_lift (referable_lift rfl hsettings hdoc (hjournal.referable rfl hsettings))
  -- every entry of the lifted document comes from one of the document, which has no new value
  have hpartner : ∀ e' ∈ (lifter.lift disk path .css doc journal).document.entries,
      ∃ e, e.replacement = none ∧ lifter.Settles disk path e e' := by
    intro e' he'
    obtain ⟨e, he, hsettled⟩ := exists_mem_of_forall₂ hsettles.flip he'
    exact ⟨e, hnone e he, hsettled⟩
  have hsame : (lifter.lift disk path .css doc journal).document.declarations =
      doc.declarations := by
    have hmaps : List.Forall₂ Eq (doc.entries.map Entry.declaration)
        ((lifter.lift disk path .css doc journal).document.entries.map Entry.declaration) := by
      rw [List.forall₂_map_left_iff, List.forall₂_map_right_iff]
      exact hsettles.imp fun _ _ h => h.declaration_eq.symm
    exact (List.forall₂_eq_eq_eq ▸ hmaps : _ = _).symm
  have hreferences : ∀ e' ∈ (lifter.lift disk path .css doc journal).document.entries,
      ∀ v, e'.replacement = some v → IsReference v := by
    intro e' he' v hv
    obtain ⟨e, he, hsettled⟩ := hpartner e' he'
    exact hsettled.isReference he hv
  have hkept : (lifter.lift disk path .css doc journal).document.source = doc.source := rfl
  obtain ⟨again, hagain, hmeanings⟩ := exists_parse_render hdoc hkept hsame hreferences
  obtain ⟨hsource, hclean, -⟩ := reading_of_parse hagain
  have hleft : ∀ e ∈ again.entries,
      (lifter.select disk path e.declaration).isLifted = false := by
    intro a ha
    have hmem := List.mem_map_of_mem (f := Declaration.meaning) (Document.mem_declarations ha)
    rw [hmeanings] at hmem
    obtain ⟨e', he', hsays⟩ := List.mem_map.1 hmem
    obtain ⟨e, he, hsettled⟩ := hpartner e' he'
    exact hsettled.isLifted_eq_false he hsays.symm
  obtain ⟨warnings, hlift⟩ := lift_of_not_isLifted hleft later
  refine ⟨again, hagain, ?_, ?_, ?_, ?_, warnings, ?_⟩
  · rw [hlift]
  · rw [hlift]
  · exact Document.isModified_eq_false hclean
  · rw [Document.render_eq_source hclean, hsource]
  · rw [hlift]

/-- A value with a comment inside and a flag behind it, a colour that is left alone, an image that
is not there, and a string. -/
def mixedDocument : Document :=
  ⟨("a\x7bcolor:x/*;*/y!important;color:TRANSPARENT;background:url(i.png)\x7d" ++
    ".b\x7bcolor:\"\x7d\"\x7d").toList,
    [{ declaration := ⟨"color".toList, "x y".toList, 1, ["a".toList], ⟨8, 15⟩, [⟨9, 14⟩]⟩ },
      { declaration := ⟨"color".toList, "TRANSPARENT".toList, 1, ["a".toList], ⟨32, 43⟩, []⟩ },
      { declaration := ⟨"background".toList, "url(i.png)".toList, 1, ["a".toList], ⟨55, 65⟩, []⟩ },
      { declaration := ⟨"color".toList, "\"\x7d\"".toList, 1, [".b".toList], ⟨75, 78⟩, []⟩ }]⟩

/-- The document is lifted in the journal that lifting it once leads to, and its image is missing
both times. -/
theorem lift_idempotent_with_comment :
    ∃ again warnings,
      let lifter : Lifter :=
        { root := ⟨[]⟩, settings := { Settings.default with exportAssets := true } }
      let path := Path.ofString "s.css"
      let first := (lifter.lift {} path .css mixedDocument {}).journal
      Document.parse .css ("a\x7bcolor:var(--var-xy-color) /*;*/!important;color:TRANSPARENT;" ++
        "background:url(i.png)\x7d.b\x7bcolor:var(--var-b---color)\x7d").toList = .ok again ∧
      (lifter.lift {} path .css again first).count = 0 ∧
      (lifter.lift {} path .css again first).document = again ∧
      (lifter.lift {} path .css again first).journal =
        { first with warnings := first.warnings ++ warnings } := by
  have haliases : ∀ a ∈ Settings.default.aliases, a.2.all Text.isWordOrHyphen = true := by
    decide +kernel
  have hlabel : IsNamePart Settings.default.label :=
    List.all_eq_true.1 (by decide +kernel : Settings.default.label.all Text.isWordOrHyphen = true)
  have hsettings : Settings.Referable { Settings.default with exportAssets := true } :=
    ⟨hlabel.isReferable, fun a ha => IsNamePart.isReferable (List.all_eq_true.1 (haliases a ha))⟩
  have hdoc : Document.parse .css mixedDocument.source = .ok mixedDocument := by decide +kernel
  have hprinted : (({ root := ⟨[]⟩, settings := { Settings.default with exportAssets := true } } :
        Lifter).lift {} (Path.ofString "s.css") .css mixedDocument
        (({ root := ⟨[]⟩, settings := { Settings.default with exportAssets := true } } :
          Lifter).lift {} (Path.ofString "s.css") .css mixedDocument {}).journal).document.render =
      ("a\x7bcolor:var(--var-xy-color) /*;*/!important;color:TRANSPARENT;" ++
        "background:url(i.png)\x7d.b\x7bcolor:var(--var-b---color)\x7d").toList := by
    decide +kernel
  obtain ⟨again, hagain, hcount, hsame, -, -, warnings, hjournal⟩ := lift_idempotent ⟨[]⟩ hsettings
    Image.base64 {} (Path.ofString "s.css") hdoc (.lift .start (Path.ofString "s.css") .css hdoc)
    (({ root := ⟨[]⟩, settings := { Settings.default with exportAssets := true } } :
      Lifter).lift {} (Path.ofString "s.css") .css mixedDocument {}).journal
  exact ⟨again, warnings, hprinted ▸ hagain, hcount, hsame, hjournal⟩

end Lifter

end StyleLift
