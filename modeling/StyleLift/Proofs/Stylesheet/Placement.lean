import StyleLift.Proofs.Stylesheet.Statements

/-!
# Where a declaration stands

What is kept of a stretch of source is kept in its order: the places of the kept characters
increase and stay between the ends of the stretch, also those of the blanks that comments leave
behind.  So the value of a declaration stands inside the statement it is read from, whatever the
dialect and whatever the statement holds.

* `offset_of_mem_kept`, `pairwise_kept`: the places of what is kept.
* `bounds_of_declaration?`: **the value stands inside its statement.**
-/

namespace StyleLift.Stylesheet

open Uncommented (gap ofTokens)

/-- No token that is read is empty. -/
theorem Token.Fits.text_ne_nil {lexis : Lexis} {depth : Nat} {next : Option Char} {t : Token}
    (h : t.Fits lexis depth next) : t.text ≠ [] := by
  cases t with
  | comment s =>
    rcases h with ⟨body, rfl, -⟩ | ⟨-, -, ⟨line, rfl, -⟩, -⟩ <;> exact List.cons_ne_nil _ _
  | quoted s => rcases h with ⟨body, rfl, -⟩ | ⟨body, rfl, -⟩ <;> exact List.cons_ne_nil _ _
  | interpolation s =>
    obtain ⟨-, body, rfl, -⟩ := h
    exact List.cons_ne_nil _ _
  | opening | closing | separator | glyph => exact List.cons_ne_nil _ _
  | unterminated what s =>
    cases what with
    | comment =>
      obtain ⟨-, body, rfl, -⟩ := h
      exact List.cons_ne_nil _ _
    | string =>
      obtain ⟨-, ⟨body, rfl, -⟩ | ⟨body, rfl, -⟩⟩ := h <;> exact List.cons_ne_nil _ _
    | interpolation =>
      obtain ⟨-, -, body, rfl, -⟩ := h
      exact List.cons_ne_nil _ _

theorem FitsAll.text_ne_nil {lexis : Lexis} {depth : Nat} {next : Option Char} {ts : List Token}
    (h : FitsAll lexis depth next ts) : ∀ t ∈ ts, t.text ≠ [] := by
  induction ts generalizing depth with
  | nil => simp
  | cons t ts ih => exact List.forall_mem_cons.2 ⟨h.1.text_ne_nil, ih h.2⟩

/-- What has no end is the last token. -/
theorem FitsAll.eq_nil_of_unterminated {lexis : Lexis} {depth : Nat} {next : Option Char}
    {what : Enclosure} {s : Text} {ts : List Token}
    (h : FitsAll lexis depth next (.unterminated what s :: ts)) : ts = [] := by
  cases ts with
  | nil => rfl
  | cons t ts =>
    obtain ⟨c, rest, hc⟩ := List.exists_cons_of_ne_nil h.2.1.text_ne_nil
    have hnext := h.1
    rw [spelling_cons, hc] at hnext
    cases what with
    | comment | string | interpolation => exact absurd hnext.1 (by simp)

/-! ## Kept characters -/

theorem Placed.offset_of_mem_ofText {offset : Nat} {s : Text} {p : Placed}
    (hp : p ∈ Placed.ofText offset s) : offset ≤ p.offset ∧ p.offset < offset + s.length := by
  induction s generalizing offset with
  | nil => simp [Placed.ofText] at hp
  | cons c s ih =>
    rw [List.length_cons]
    rcases List.mem_cons.1 hp with rfl | hp
    · exact ⟨Nat.le_refl _, by simp only; omega⟩
    · have hrest := ih hp
      omega

theorem Placed.pairwise_ofText (offset : Nat) (s : Text) :
    (Placed.ofText offset s).Pairwise (·.offset < ·.offset) := by
  induction s generalizing offset with
  | nil => exact List.Pairwise.nil
  | cons c s ih =>
    refine List.pairwise_cons.2 ⟨?_, ih (offset + 1)⟩
    intro p hp
    exact (Placed.offset_of_mem_ofText hp).1

theorem mem_gap {offset : Nat} {before after : Option Char} {p : Placed}
    (hp : p ∈ gap offset before after) : p.offset = offset := by
  unfold gap at hp
  split at hp
  · rw [List.mem_singleton.1 hp]
  · simp at hp

theorem pairwise_gap (offset : Nat) (before after : Option Char) :
    (gap offset before after).Pairwise (·.offset < ·.offset) := by
  unfold gap
  split
  · exact List.pairwise_singleton _ _
  · exact List.Pairwise.nil

section

variable {ts : List Token} (hts : ∀ t ∈ ts, t.text ≠ [])
include hts

/-- What is kept stands between the ends of the tokens. -/
theorem offset_of_mem_kept {before : Option Char} {offset : Nat} {p : Placed}
    (hp : p ∈ (ofTokens before offset ts).kept) :
    offset ≤ p.offset ∧ p.offset < offset + (spelling ts).length := by
  induction ts generalizing before offset with
  | nil => simp [ofTokens] at hp
  | cons t ts ih =>
    rw [List.forall_mem_cons] at hts
    have htext := List.length_pos_iff.2 hts.1
    rw [spelling_cons, List.length_append]
    cases ht : t.isComment with
    | true =>
      rw [ofTokens_of_isComment ht] at hp
      rcases List.mem_append.1 hp with hp | hp
      · rw [mem_gap hp]
        omega
      · have hrest := ih hts.2 hp
        omega
    | false =>
      rw [ofTokens_of_not_isComment ht] at hp
      rcases List.mem_append.1 hp with hp | hp
      · have hfirst := Placed.offset_of_mem_ofText hp
        omega
      · have hrest := ih hts.2 hp
        omega

/-- What is kept is kept in order. -/
theorem pairwise_kept (before : Option Char) (offset : Nat) :
    (ofTokens before offset ts).kept.Pairwise (·.offset < ·.offset) := by
  induction ts generalizing before offset with
  | nil => exact List.Pairwise.nil
  | cons t ts ih =>
    rw [List.forall_mem_cons] at hts
    have htext := List.length_pos_iff.2 hts.1
    cases ht : t.isComment with
    | true =>
      rw [ofTokens_of_isComment ht]
      refine List.pairwise_append.2 ⟨pairwise_gap _ _ _, ih hts.2 _ _, ?_⟩
      intro p hp q hq
      have hrest := offset_of_mem_kept hts.2 hq
      rw [mem_gap hp]
      omega
    | false =>
      rw [ofTokens_of_not_isComment ht]
      refine List.pairwise_append.2 ⟨Placed.pairwise_ofText _ _, ih hts.2 _ _, ?_⟩
      intro p hp q hq
      have hfirst := Placed.offset_of_mem_ofText hp
      have hrest := offset_of_mem_kept hts.2 hq
      omega

end

/-! ## The place of a value -/

/-- Characters in order make a stretch from the first of them to the last. -/
theorem bounds_of_span? {chars : List Placed} (hchars : chars.Pairwise (·.offset < ·.offset))
    {span : Span} (h : Placed.span? chars = some span) :
    span.start < span.stop ∧ (∃ p ∈ chars, span.start = p.offset) ∧
      ∃ p ∈ chars, span.stop = p.offset + 1 := by
  cases chars with
  | nil => simp [Placed.span?] at h
  | cons first rest =>
    rcases List.eq_nil_or_concat' rest with rfl | ⟨mid, last, rfl⟩
    · obtain rfl := Option.some.inj h
      exact ⟨Nat.lt_succ_self _, ⟨first, by simp, rfl⟩, ⟨first, by simp, rfl⟩⟩
    · have hspan : span = ⟨first.offset, last.offset + 1⟩ := by
        rw [Placed.span?, List.head?_cons, ← List.cons_append, List.getLast?_concat] at h
        exact (Option.some.inj h).symm
      have hlt := (List.pairwise_cons.1 hchars).1 last (by simp)
      subst hspan
      exact ⟨Nat.lt_succ_of_lt hlt, ⟨first, by simp, rfl⟩, ⟨last, by simp, rfl⟩⟩

/-- What is kept of a value, from its first character on, is in order and behind `offset`. -/
theorem bounds_of_span?_keptValue {dialect : Dialect} {offset n : Nat} {tail : Text} {span : Span}
    (h : Placed.span? ((keptValue dialect offset tail).take n) = some span) :
    offset ≤ span.start ∧ span.start < span.stop ∧ span.stop ≤ offset + tail.length := by
  have hne := (fitsAll_tokens (.ofComments dialect) 0 tail).text_ne_nil
  have hpart : ((keptValue dialect offset tail).take n).Sublist
      (Uncommented.ofText dialect offset tail).kept :=
    (List.take_sublist _ _).trans (List.dropWhile_sublist _)
  obtain ⟨hlt, ⟨first, hfirst, hstart⟩, ⟨last, hlast, hstop⟩⟩ :=
    bounds_of_span? ((pairwise_kept hne none offset).sublist hpart) h
  have hfirst := offset_of_mem_kept hne (hpart.subset hfirst)
  have hlast := offset_of_mem_kept hne (hpart.subset hlast)
  rw [spelling_tokens] at hfirst hlast
  omega

/-- **The value of a declaration stands inside its statement.** -/
theorem bounds_of_declaration? {dialect : Dialect} {offset line : Nat} {blocks : List Text}
    {body : List Token} {stop : Stop} {d : Declaration}
    (h : Statement.declaration? dialect offset line blocks ⟨body, stop⟩ = some d) :
    offset < d.span.start ∧ d.span.start < d.span.stop ∧
      d.span.stop ≤ offset + (spelling body).length := by
  obtain ⟨name, tail, start, hsplit, -, hstart, -, hspan, -⟩ := exists_of_declaration? h
  have hvalue := bounds_of_span?_keptValue hspan
  have hcore := (eq_append_of_splitFirst? hsplit).1
  have hlength := length_statement body stop
  rw [Statement.length, hcore, List.length_append, List.length_cons] at hlength
  omega

end StyleLift.Stylesheet
