import StyleLift.Proofs.Stylesheet.Editing
import StyleLift.Proofs.Stylesheet.Locations

/-!
# Printing changes nothing but the replaced values

A document is printed in one walk over its source, from one new value to the next.  What the walk
leaves alone is easy to say of all values at once, with a new text or without: the source is made
of pieces outside the spans and of fillings inside them, and printing exchanges fillings.  The
pieces are cut once, from the spans of all declarations, so they are the same for every sequence of
new values; that they can be cut at all is what is known about the places of declarations.

* `outside`, `weave`: the pieces of a source outside of spans, and how fillings go between them.
* `splice_eq_weave`: the walk puts the fillings of all entries between the pieces.
* `Document.setAll_congr`, `lastEdit?_swap`, `lastEdit?_filter`: which new values count.
* `PrintsEdits`, `printsEdits_of_parse`: **printing changes nothing but the replaced values.**
-/

namespace StyleLift.Stylesheet

/-! ## Pieces and fillings -/

/-- What a source holds outside of spans, from `offset` on: before the first, between neighbours,
and behind the last. -/
def outside (source : Text) (offset : Nat) : List Span → List Text
  | [] => [source.drop offset]
  | span :: spans => Span.slice ⟨offset, span.start⟩ source :: outside source span.stop spans

/-- The pieces in order, with a filling behind each but the last. -/
def weave : List Text → List Text → Text
  | piece :: pieces, filling :: fillings => piece ++ filling ++ weave pieces fillings
  | pieces, _ => pieces.flatten

/-- What is printed in the place of a value: the new text, with the comments of the old value behind
it, or the old value as it stands. -/
def Entry.printed (source : Text) (e : Entry) : Text :=
  match e.replacement with
  | none => e.declaration.span.slice source
  | some text => Document.replacementText source e.declaration text

theorem drop_eq_slice_append (source : Text) {m n : Nat} (hle : m ≤ n) :
    source.drop m = Span.slice ⟨m, n⟩ source ++ source.drop n := by
  have hdrop : (source.drop m).drop (n - m) = source.drop n := by
    rw [List.drop_drop, Nat.add_sub_cancel' hle]
  rw [Span.slice, ← hdrop, List.take_append_drop]

theorem length_slice {source : Text} {m n : Nat} (hn : n ≤ source.length) :
    (Span.slice ⟨m, n⟩ source).length = n - m := by
  show ((source.drop m).take (n - m)).length = n - m
  rw [List.length_take, List.length_drop]
  omega

theorem slice_append_slice (source : Text) {k m n : Nat} (hkm : k ≤ m) (hmn : m ≤ n) :
    Span.slice ⟨k, m⟩ source ++ Span.slice ⟨m, n⟩ source = Span.slice ⟨k, n⟩ source := by
  have hparts := drop_eq_slice_append source hkm
  rw [drop_eq_slice_append source hmn, drop_eq_slice_append source (hkm.trans hmn),
    ← List.append_assoc] at hparts
  exact (List.append_cancel_right hparts).symm

/-- **The walk puts the fillings of all entries between the pieces of the source.** -/
theorem splice_eq_weave {source : Text} {offset : Nat} {entries : List Entry}
    (hstands : ∀ e ∈ entries, e.declaration.StandsAfter offset)
    (hinside : ∀ e ∈ entries, e.declaration.span.stop ≤ source.length)
    (hsorted : entries.Pairwise fun e e' => e.declaration.span.stop ≤ e'.declaration.span.start) :
    Document.splice source offset (source.drop offset) entries =
      weave (outside source offset (entries.map (·.declaration.span)))
        (entries.map (Entry.printed source)) := by
  induction entries generalizing offset with
  | nil =>
    show source.drop offset = [source.drop offset].flatten
    rw [List.flatten_singleton]
  | cons e entries ih =>
    rw [List.forall_mem_cons] at hstands hinside
    rw [List.pairwise_cons] at hsorted
    obtain ⟨hstart, hstop⟩ := hstands.1
    have hbehind : ∀ e' ∈ entries, e'.declaration.StandsAfter e.declaration.span.stop :=
      fun e' he' => ⟨hsorted.1 e' he', (hstands.2 e' he').2⟩
    have hrest := ih hbehind hinside.2 hsorted.2
    show _ = Span.slice ⟨offset, e.declaration.span.start⟩ source ++ e.printed source ++
      weave (outside source e.declaration.span.stop (entries.map (·.declaration.span)))
        (entries.map (Entry.printed source))
    rw [← hrest, Document.splice, Entry.printed]
    cases e.replacement with
    | none =>
      -- the text up to the end of the span is passed over
      have hlength : offset + (Span.slice ⟨offset, e.declaration.span.stop⟩ source).length =
          e.declaration.span.stop := by
        rw [length_slice hinside.1]
        omega
      have hpass : Document.splice source offset (Span.slice ⟨offset, e.declaration.span.stop⟩
          source ++ source.drop e.declaration.span.stop) entries =
          Span.slice ⟨offset, e.declaration.span.stop⟩ source ++ Document.splice source
            (offset + (Span.slice ⟨offset, e.declaration.span.stop⟩ source).length)
            (source.drop e.declaration.span.stop) entries :=
        splice_append (by rwa [hlength])
      rw [hlength, ← drop_eq_slice_append source (hstart.trans hstop)] at hpass
      dsimp only
      rw [hpass, ← slice_append_slice source hstart hstop]
    | some text =>
      have hdrop : (source.drop offset).drop (e.declaration.span.stop - offset) =
          source.drop e.declaration.span.stop := by
        rw [List.drop_drop, Nat.add_sub_cancel' (hstart.trans hstop)]
      dsimp only
      rw [hdrop]
      rfl

/-! ## Which new values count -/

theorem isSome_lastEdit?_iff {edits : List (Nat × Text)} {index : Nat} :
    (lastEdit? edits index).isSome = true ↔ ∃ edit ∈ edits, edit.1 = index := by
  rw [lastEdit?, Option.isSome_map, List.find?_isSome]
  simp

/-- Only the last value for each declaration counts. -/
theorem Document.setAll_congr {doc : Document} {edits edits' : List (Nat × Text)}
    (h : ∀ i < doc.entries.length, lastEdit? edits i = lastEdit? edits' i) :
    doc.setAll edits = doc.setAll edits' := by
  rw [setAll_eq, setAll_eq]
  congr 1
  refine List.ext_getElem? fun i => ?_
  rw [List.getElem?_mapIdx, List.getElem?_mapIdx]
  by_cases hi : i < doc.entries.length
  · rw [h i hi]
  · rw [List.getElem?_eq_none (by omega)]
    rfl

/-- The order of two values for different declarations does not matter. -/
theorem lastEdit?_swap {edit edit' : Nat × Text} (hne : edit.1 ≠ edit'.1)
    (front back : List (Nat × Text)) (index : Nat) :
    lastEdit? (front ++ edit :: edit' :: back) index =
      lastEdit? (front ++ edit' :: edit :: back) index := by
  induction back using List.reverseRecOn with
  | nil =>
    have hlast : ∀ x y : Nat × Text, lastEdit? (front ++ [x, y]) index =
        if y.1 = index then some y.2 else if x.1 = index then some x.2
          else lastEdit? front index := by
      intro x y
      rw [← lastEdit?_concat, ← lastEdit?_concat, List.append_assoc]
      rfl
    rw [hlast, hlast]
    by_cases h : edit.1 = index
    · rw [if_pos h, if_neg (fun h' => hne (h.trans h'.symm)), if_pos h]
    · rw [if_neg h, if_neg h]
  | append_singleton back last ih =>
    have hassoc : ∀ x y : Nat × Text, front ++ x :: y :: (back ++ [last]) =
        (front ++ x :: y :: back) ++ [last] := by simp
    rw [hassoc, hassoc, lastEdit?_concat, lastEdit?_concat, ih]

/-- Values for declarations that are not there do not matter. -/
theorem lastEdit?_filter {n index : Nat} (hindex : index < n) (edits : List (Nat × Text)) :
    lastEdit? (edits.filter fun edit => edit.1 < n) index = lastEdit? edits index := by
  induction edits using List.reverseRecOn with
  | nil => rfl
  | append_singleton edits edit ih =>
    rw [List.filter_append, lastEdit?_concat]
    by_cases hedit : edit.1 < n
    · rw [List.filter_cons_of_pos (by simpa using hedit), List.filter_nil, lastEdit?_concat, ih]
    · rw [List.filter_cons_of_neg (by simpa using hedit), List.filter_nil, List.append_nil, ih,
        if_neg (by omega)]

/-- A document is modified just if a declaration that is there was given a value. -/
theorem isModified_setAll_iff {doc : Document} (hnone : ∀ e ∈ doc.entries, e.replacement = none)
    (edits : List (Nat × Text)) :
    (doc.setAll edits).isModified = true ↔ ∃ edit ∈ edits, edit.1 < doc.entries.length := by
  rw [Document.isModified, Document.setAll_eq, List.any_eq_true]
  constructor
  · rintro ⟨e, he, hsome⟩
    obtain ⟨i, hi, rfl⟩ := List.mem_mapIdx.1 he
    rw [hnone _ (List.getElem_mem hi), Option.or_none, isSome_lastEdit?_iff] at hsome
    obtain ⟨edit, hedit, rfl⟩ := hsome
    exact ⟨edit, hedit, hi⟩
  · rintro ⟨edit, hedit, hlt⟩
    refine ⟨_, List.mem_mapIdx.2 ⟨edit.1, hlt, rfl⟩, ?_⟩
    rw [hnone _ (List.getElem_mem hlt), Option.or_none, isSome_lastEdit?_iff]
    exact ⟨edit, hedit, rfl⟩

/-! ## Comments behind a new value -/

/-- How a comment is kept behind a new value: a block comment as it is, behind one blank, and a line
comment as a block comment around its trimmed text. -/
def IsKeptAs (comment kept : Text) : Prop :=
  IsBlockComment comment ∧ kept = ' ' :: comment ∨
    ∃ line, comment = "//".toList ++ line ∧ '\n' ∉ line ∧
      kept = " /* ".toList ++ Text.trim line ++ " */".toList

/-- **The comments of a value are whole,** so each of them is kept in one of the two ways. -/
theorem StandsAt.isKeptAs {dialect : Dialect} {d : Declaration} {site : Site}
    (h : StandsAt dialect d site) {c : Span} (hc : c ∈ d.comments) :
    IsKeptAs (c.slice site.text) (Document.keptComment (c.slice site.text)) := by
  have hsource : site.text = site.front ++ spelling (tokens (.ofComments dialect) 0 site.written) ++
      (site.rest ++ site.after) := by
    rw [spelling_tokens]
    exact site.text_eq
  have hmem : c.slice site.text ∈ d.comments.map (·.slice site.text) := List.mem_map_of_mem hc
  rw [h.comments_eq_commentSpans, map_slice_commentSpans hsource] at hmem
  obtain ⟨t, ht, htext⟩ := List.mem_map.1 hmem
  obtain ⟨htoken, hcomment⟩ := List.mem_filter.1 ht
  rw [← htext]
  rcases h.whole_comments t htoken hcomment with hblock | ⟨line, hline, hnewline⟩
  · exact Or.inl ⟨hblock, keptComment_of_isBlockComment hblock⟩
  · rw [hline]
    exact Or.inr ⟨line, rfl, hnewline, rfl⟩

/-! ## Printing -/

/-- What is printed in the place of the declaration at `index` after `edits`: its value as it is
written, or the text it was given last and then the comments of its value. -/
def fillingAt (source : Text) (edits : List (Nat × Text)) (index : Nat) (d : Declaration) : Text :=
  match lastEdit? edits index with
  | none => d.span.slice source
  | some text => text ++ d.comments.flatMap fun c => Document.keptComment (c.slice source)

/-- What the document `doc` of `source` does after `edits`. -/
structure PrintsEdits (source : Text) (doc : Document) (edits : List (Nat × Text)) : Prop where
  /-- Only the last text for each declaration that is there counts, -/
  last_only : ∀ edits', (∀ i < doc.declarations.length, lastEdit? edits' i = lastEdit? edits i) →
    doc.setAll edits' = doc.setAll edits
  /-- so the order of texts for different declarations does not matter, -/
  order : ∀ front back edit edit', edits = front ++ edit :: edit' :: back → edit.1 ≠ edit'.1 →
    doc.setAll (front ++ edit' :: edit :: back) = doc.setAll edits
  /-- nor do texts for declarations that are not there. -/
  in_range : doc.setAll (edits.filter fun edit => edit.1 < doc.declarations.length) =
    doc.setAll edits
  isModified_iff : (doc.setAll edits).isModified = true ↔
    ∃ edit ∈ edits, edit.1 < doc.declarations.length
  /-- The source is made of its pieces outside the spans and of what the spans hold, -/
  source_eq : source = weave (outside source 0 (doc.declarations.map Declaration.span))
    (doc.declarations.map fun d => d.span.slice source)
  /-- and what is printed has the same pieces. -/
  render_eq : (doc.setAll edits).render =
    weave (outside source 0 (doc.declarations.map Declaration.span))
      (doc.declarations.mapIdx (fillingAt source edits))
  /-- Every comment of a value is kept. -/
  comments_kept : ∀ d ∈ doc.declarations, ∀ c ∈ d.comments,
    IsKeptAs (c.slice source) (Document.keptComment (c.slice source))
  /-- Without a text for a declaration that is there, the source is printed, -/
  unedited : (∀ edit ∈ edits, doc.declarations.length ≤ edit.1) →
    (doc.setAll edits).render = source
  /-- and also when declarations without comments get their own values. -/
  own_values : (∀ edit ∈ edits, ∀ d, doc.declarations[edit.1]? = some d →
    d.comments = [] ∧ edit.2 = d.value) → (doc.setAll edits).render = source

section

variable {dialect : Dialect} {source : Text} {doc : Document}

/-- A document that was read is printed piece by piece, whatever values it is given. -/
theorem render_eq_weave (h : Document.parse dialect source = .ok doc) {edited : Document}
    (hsource : edited.source = source) (hentries : edited.declarations = doc.declarations) :
    edited.render = weave (outside source 0 (doc.declarations.map Declaration.span))
      (edited.entries.map (Entry.printed source)) := by
  obtain ⟨-, -, hreading⟩ := reading_of_parse h
  have hsorted := (pairwise_spans hreading).2
  have hlocated : ∀ e ∈ edited.entries, IsLocated dialect source e.declaration := by
    intro e he
    refine isLocated_of_parse h ?_
    rw [← hentries]
    exact List.mem_map_of_mem he
  have hspans : doc.declarations.map Declaration.span =
      edited.entries.map (·.declaration.span) := by
    rw [← hentries, Document.declarations, List.map_map]
    rfl
  rw [hspans, Document.render, hsource]
  refine splice_eq_weave ?_ ?_ ?_
  · intro e he
    exact ⟨Nat.zero_le _, (hlocated e he).bounds.1.le⟩
  · intro e he
    exact (hlocated e he).bounds.2
  · rw [← hentries, Document.declarations, List.pairwise_map] at hsorted
    exact hsorted.imp fun hlt => hlt.le

/-- What the entries print after `edits`, if nothing was given before. -/
theorem map_printed_setAll (hnone : ∀ e ∈ doc.entries, e.replacement = none)
    (edits : List (Nat × Text)) :
    (doc.setAll edits).entries.map (Entry.printed source) =
      doc.declarations.mapIdx (fillingAt source edits) := by
  rw [Document.setAll_eq, Document.declarations]
  refine List.ext_getElem? fun i => ?_
  rw [List.getElem?_map, List.getElem?_mapIdx, List.getElem?_mapIdx, List.getElem?_map,
    Option.map_map, Option.map_map]
  cases he : doc.entries[i]? with
  | none => rfl
  | some e =>
    simp only [Option.map_some, Function.comp_apply, Entry.printed, fillingAt,
      hnone e (List.mem_of_getElem? he), Option.or_none, Document.replacementText]

/-- Where every filling is what the span holds, no index matters. -/
theorem mapIdx_fillingAt {edits : List (Nat × Text)} {ds : List Declaration}
    (hfill : ∀ i d, ds[i]? = some d → fillingAt source edits i d = d.span.slice source) :
    ds.mapIdx (fillingAt source edits) = ds.map fun d => d.span.slice source := by
  refine List.ext_getElem? fun i => ?_
  rw [List.getElem?_mapIdx, List.getElem?_map]
  cases hd : ds[i]? with
  | none => rfl
  | some d => exact congrArg some (hfill i d hd)

/-- The pieces of a source and what its spans hold make up the source. -/
theorem source_eq_weave (h : Document.parse dialect source = .ok doc) :
    source = weave (outside source 0 (doc.declarations.map Declaration.span))
      (doc.declarations.map fun d => d.span.slice source) := by
  obtain ⟨hsource, hnone, -⟩ := reading_of_parse h
  have hprinted : doc.entries.map (Entry.printed source) =
      doc.declarations.mapIdx (fillingAt source []) := map_printed_setAll hnone []
  have hrender := render_eq_weave h hsource rfl
  rwa [Document.render_eq_source hnone, hsource, hprinted,
    mapIdx_fillingAt fun i d _ => rfl] at hrender

/-- What is printed after `edits`. -/
theorem render_setAll_eq_weave (h : Document.parse dialect source = .ok doc)
    (edits : List (Nat × Text)) : (doc.setAll edits).render =
      weave (outside source 0 (doc.declarations.map Declaration.span))
        (doc.declarations.mapIdx (fillingAt source edits)) := by
  obtain ⟨hsource, hnone, -⟩ := reading_of_parse h
  have hsame : (doc.setAll edits).source = source := by
    rw [Document.setAll_eq]
    exact hsource
  rw [render_eq_weave h hsame (doc.declarations_setAll edits), map_printed_setAll hnone]

/-- **Printing changes nothing but the replaced values.**  This holds of every source that is read
without a fault, in either dialect, and of every sequence of new values. -/
theorem printsEdits_of_parse (h : Document.parse dialect source = .ok doc)
    (edits : List (Nat × Text)) : PrintsEdits source doc edits := by
  obtain ⟨-, hnone, -⟩ := reading_of_parse h
  have hlength : doc.declarations.length = doc.entries.length := List.length_map _
  have hunchanged : (∀ i d, doc.declarations[i]? = some d →
      fillingAt source edits i d = d.span.slice source) → (doc.setAll edits).render = source := by
    intro hfill
    rw [render_setAll_eq_weave h, mapIdx_fillingAt hfill, ← source_eq_weave h]
  constructor
  · intro edits' hlast
    rw [hlength] at hlast
    exact Document.setAll_congr hlast
  · rintro front back edit edit' rfl hne
    exact Document.setAll_congr fun i _ => lastEdit?_swap hne.symm front back i
  · rw [hlength]
    exact Document.setAll_congr fun i hi => lastEdit?_filter hi edits
  · rw [hlength]
    exact isModified_setAll_iff hnone edits
  · exact source_eq_weave h
  · exact render_setAll_eq_weave h edits
  · intro d hd c hc
    obtain ⟨site, rfl, hsite⟩ := exists_site (declaredIn_of_parse h hd)
    exact hsite.isKeptAs hc
  · intro hrange
    refine hunchanged fun i d hd => ?_
    have hi : i < doc.declarations.length := (List.getElem?_eq_some_iff.1 hd).1
    have hnone : lastEdit? edits i = none := by
      rw [← Option.not_isSome_iff_eq_none, isSome_lastEdit?_iff]
      rintro ⟨edit, hedit, rfl⟩
      have hout := hrange edit hedit
      omega
    rw [fillingAt, hnone]
  · intro hown
    refine hunchanged fun i d hd => ?_
    unfold fillingAt
    split
    · rfl
    · rename_i text htext
      obtain ⟨hcomments, htextEq⟩ := hown _ (mem_of_lastEdit? htext) d hd
      rw [hcomments, List.flatMap_nil, List.append_nil,
        (isLocated_of_parse h (List.mem_of_getElem? hd)).slice_eq hcomments]
      exact htextEq

end

/-- A line comment and a block comment behind new values, the second of two values for one
declaration, and a value for a declaration that is not there. -/
theorem printsEdits_with_comments :
    ∃ doc, Document.parse .scss (".a \x7b\n  color: red // old\n    blue;\n" ++
        "  width: 1px/**/solid !important;\n  top: 0\n\x7d\n").toList = .ok doc ∧
      (doc.setAll [(7, "x".toList), (1, "w".toList), (0, "c".toList), (1, "v".toList)]).render =
        (".a \x7b\n  color: c /* old */;\n  width: v /**/ !important;\n" ++
          "  top: 0\n\x7d\n").toList ∧
      PrintsEdits (".a \x7b\n  color: red // old\n    blue;\n" ++
        "  width: 1px/**/solid !important;\n  top: 0\n\x7d\n").toList doc
        [(7, "x".toList), (1, "w".toList), (0, "c".toList), (1, "v".toList)] := by
  have hdoc : Document.parse .scss (".a \x7b\n  color: red // old\n    blue;\n" ++
      "  width: 1px/**/solid !important;\n  top: 0\n\x7d\n").toList = .ok
      ⟨(".a \x7b\n  color: red // old\n    blue;\n" ++
        "  width: 1px/**/solid !important;\n  top: 0\n\x7d\n").toList,
        [{ declaration := ⟨"color".toList, "red \n    blue".toList, 2, [".a".toList], ⟨14, 33⟩,
            [⟨18, 24⟩]⟩ },
          { declaration := ⟨"width".toList, "1px solid".toList, 4, [".a".toList], ⟨44, 56⟩,
            [⟨47, 51⟩]⟩ },
          { declaration := ⟨"top".toList, "0".toList, 5, [".a".toList], ⟨76, 77⟩, []⟩ }]⟩ := by
    decide +kernel
  exact ⟨_, hdoc, by decide +kernel, printsEdits_of_parse hdoc _⟩

end StyleLift.Stylesheet
