import StyleLift.Proofs.Stylesheet.Editing
import StyleLift.Proofs.Stylesheet.Locations

/-!
# A new value changes the text

A document with new values could still print its source: a reference could be put where the same
reference stands already.  It takes two facts to rule this out.  The value of a declaration starts
where its span starts, so if the source reads `var(` there, so does the value; and what follows a
statement is no part of a reference, so the four characters stand inside the statement.  A
declaration whose value does not start with `var(` therefore shows a new one.

* `isSome_after?_value`: **a source that reads `var(` at a span has a value that does.**
* `render_ne_source`: a document with a new value prints something else than its source.
-/

namespace StyleLift.Stylesheet

/-! ## References -/

/-- A text that starts like a reference. -/
theorem after?_reference (s : Text) :
    Text.after? "var(".toList (['v', 'a', 'r', '('] ++ s) = some s := rfl

/-- Flags take nothing from a parenthesis. -/
theorem exists_withoutFlags {s : Text} :
    ∃ rest, withoutFlags (['v', 'a', 'r', '('] ++ s) = ['v', 'a', 'r', '('] ++ rest := by
  obtain ⟨tail, htail, hflags, -⟩ := exists_flagTail (['v', 'a', 'r', '('] ++ s)
  rcases List.append_eq_append_iff.1 htail with ⟨rest, hrest, -⟩ | ⟨cut, hcut, rfl⟩
  · exact ⟨rest, hrest⟩
  · rcases List.eq_nil_or_concat' cut with rfl | ⟨front, c, rfl⟩
    · exact ⟨[], by rw [List.append_nil] at hcut ⊢; exact hcut.symm⟩
    · -- the parenthesis would be part of the flags
      have hlast := congrArg List.getLast? hcut
      rw [← List.append_assoc, List.getLast?_concat] at hlast
      obtain rfl : '(' = c := Option.some.inj hlast
      have hclass := hflags.mem (c := '(') (by simp)
      exact absurd hclass (by decide)

/-- A value that is written like a reference starts like one. -/
theorem exists_valueOf {dialect : Dialect} {tail m : Text} {gap : List Token}
    (hgap : ∀ t ∈ gap, t.isFiller = true)
    (hread : tokens (.ofComments dialect) 0 tail =
      gap ++ tokens (.ofComments dialect) 0 (['v', 'a', 'r', '('] ++ m)) :
    ∃ rest, valueOf dialect tail = ['v', 'a', 'r', '('] ++ rest := by
  have hglyphs : tokens (.ofComments dialect) 0 (['v', 'a', 'r', '('] ++ m) =
      ['v', 'a', 'r', '('].map .glyph ++ tokens (.ofComments dialect) 1 m := by
    have hletters : ['v', 'a', 'r'].all isPlain = true := by decide
    have hplain := tokens_append_of_plain (List.all_eq_true.1 hletters) (.ofComments dialect) 0
      ('(' :: m)
    rw [tokens_cons] at hplain
    exact hplain
  obtain ⟨blanks, before, hblanks, hbare⟩ := exists_bare_append_of_filler hgap none
    (['v', 'a', 'r', '('].map .glyph ++ tokens (.ofComments dialect) 1 m)
  have hvalue : spelling (bare before
      (['v', 'a', 'r', '('].map .glyph ++ tokens (.ofComments dialect) 1 m)) =
      ['v', 'a', 'r', '('] ++ spelling (bare (some '(') (tokens (.ofComments dialect) 1 m)) := rfl
  rw [valueOf, hread, hglyphs, hbare, Text.trimStart_append_of_blank hblanks, hvalue,
    Text.trimStart_append_of_ne_nil (by decide) (by decide)]
  exact exists_withoutFlags

/-- **A source that reads `var(` where a value starts has a value that does.** -/
theorem isSome_after?_value {dialect : Dialect} {source : Text} {d : Declaration}
    (h : DeclaredIn dialect 0 1 (tokens (.ofStatements dialect) 0 source) d) {rest : Text}
    (hsource : source.drop d.span.start = ['v', 'a', 'r', '('] ++ rest) :
    (Text.after? "var(".toList d.value).isSome = true := by
  obtain ⟨front, body, back, next, blocks, stop, hts, -, hback, hd⟩ := h
  obtain ⟨name, tail, start, hsplit, -, hstart, hmeaning, hspan, -⟩ := exists_of_declaration? hd
  obtain ⟨p, hp, hplace⟩ := exists_head?_of_span? hspan
  rw [List.head?_take] at hp
  obtain ⟨gap, mid, rfl, hgap, hread, hoffset, -, -⟩ :=
    exists_mid (Option.ite_none_left_eq_some.1 hp).2
  have htext : source = (spelling front ++ Statement.lead ⟨body, stop⟩ ++ name ++ [':'] ++
      spelling gap) ++ (mid ++ spelling back) := by
    rw [← spelling_tokens (.ofStatements dialect) 0 source, hts, spelling_append, spelling_append,
      ← lead_append_core body stop, (eq_append_of_splitFirst? hsplit).1]
    simp
  -- the four characters stand before the end of the statement
  have hdrop : mid ++ spelling back = ['v', 'a', 'r', '('] ++ rest := by
    have hlength : d.span.start = (spelling front ++ Statement.lead ⟨body, stop⟩ ++ name ++ [':'] ++
        spelling gap).length := by
      rw [hplace, hoffset, hstart]
      simp only [List.length_append, List.length_singleton]
      omega
    rw [← hsource, htext, hlength, List.drop_left]
  obtain ⟨m, rfl⟩ : ∃ m, mid = ['v', 'a', 'r', '('] ++ m := by
    rcases List.append_eq_append_iff.1 hdrop with ⟨cut, hcut, hrest⟩ | ⟨m, hm, -⟩
    · cases cut with
      | nil => exact ⟨[], by rw [List.append_nil] at hcut ⊢; exact hcut.symm⟩
      | cons c cut =>
        have hc : c ∈ ['v', 'a', 'r', '('] := by
          rw [hcut]
          simp
        rcases hback c (by rw [hrest]; rfl) with rfl | rfl
        · exact absurd hc (by decide)
        · exact absurd hc (by decide)
    · exact ⟨m, hm⟩
  obtain ⟨rest', hrest'⟩ := exists_valueOf hgap hread
  have hvalue : d.value = ['v', 'a', 'r', '('] ++ rest' := by
    rw [← hrest', valueOf, ← text_keptValue dialect start]
    exact congrArg Meaning.value hmeaning
  rw [hvalue, after?_reference]
  rfl

/-- Behind the text before the first new value, that value is printed. -/
theorem drop_splice (source : Text) {rest : Text} {entries : List Entry}
    (h : ∃ e ∈ entries, e.replacement.isSome = true)
    (hbounds : ∀ e ∈ entries, e.declaration.span.start ≤ rest.length) :
    ∃ e ∈ entries, ∃ new, e.replacement = some new ∧
      new <+: (Document.splice source 0 rest entries).drop e.declaration.span.start := by
  induction entries with
  | nil => simp at h
  | cons e entries ih =>
    rw [List.forall_mem_cons] at hbounds
    cases hnew : e.replacement with
    | none =>
      have hrest : ∃ e ∈ entries, e.replacement.isSome = true := by
        obtain ⟨e', he', hsome⟩ := h
        rcases List.mem_cons.1 he' with rfl | he'
        · rw [hnew] at hsome
          exact absurd hsome Bool.false_ne_true
        · exact ⟨e', he', hsome⟩
      obtain ⟨e', he', new, hnew', hpart⟩ := ih hrest hbounds.2
      refine ⟨e', List.mem_cons_of_mem _ he', new, hnew', ?_⟩
      rwa [Document.splice, hnew]
    | some new =>
      refine ⟨e, List.mem_cons_self, new, hnew, ?_⟩
      have hlength : (rest.take e.declaration.span.start).length = e.declaration.span.start :=
        List.length_take_of_le hbounds.1
      rw [Document.splice, hnew]
      dsimp only
      rw [Nat.sub_zero, List.append_assoc, List.drop_append_of_le_length hlength.ge,
        List.drop_of_length_le hlength.le, List.nil_append, Document.replacementText,
        List.append_assoc]
      exact List.prefix_append _ _

/-- **A document with a new value prints something else than its source,** if references are put
only in the place of values that do not start like one. -/
theorem Document.render_ne_source {dialect : Dialect} {source : Text} {doc edited : Document}
    (hdoc : Document.parse dialect source = .ok doc) (hsource : edited.source = doc.source)
    (hentries : edited.declarations = doc.declarations) (hmodified : edited.isModified = true)
    (hreferences : ∀ e ∈ edited.entries, ∀ v, e.replacement = some v →
      (∃ name, v = Lifter.reference name) ∧
        (Text.after? "var(".toList e.declaration.value).isSome = false) :
    edited.render ≠ source := by
  obtain ⟨rfl, -, -⟩ := reading_of_parse hdoc
  have hdeclared : ∀ e ∈ edited.entries,
      DeclaredIn dialect 0 1 (tokens (.ofStatements dialect) 0 doc.source) e.declaration := by
    intro e he
    exact declaredIn_of_parse hdoc (hentries ▸ List.mem_map_of_mem he)
  have hbounds : ∀ e ∈ edited.entries, e.declaration.span.start ≤ doc.source.length := by
    intro e he
    have hmem : e.declaration ∈ doc.declarations := hentries ▸ List.mem_map_of_mem he
    have hbounds := (isLocated_of_parse hdoc hmem).bounds
    exact hbounds.1.le.trans hbounds.2
  rw [Document.isModified, List.any_eq_true] at hmodified
  intro hrender
  rw [Document.render, hsource] at hrender
  obtain ⟨e, he, new, hnew, rest, hrest⟩ := drop_splice doc.source hmodified hbounds
  obtain ⟨⟨name, rfl⟩, hvalue⟩ := hreferences e he new hnew
  rw [hrender, reference_eq, List.append_assoc, List.append_assoc] at hrest
  exact absurd ((isSome_after?_value (hdeclared e he) hrest.symm).symm.trans hvalue) (by decide)

end StyleLift.Stylesheet
