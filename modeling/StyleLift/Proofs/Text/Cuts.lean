import Mathlib.Data.List.Basic
import StyleLift.Text.Basic

/-!
# Cutting text

Text is cut behind a given start or at the last separator.  A cut loses nothing, and there is one
wherever the text allows one.

* `after?_eq_some_iff`, `isSome_after?_iff`: cutting behind a start.
* `splitLast?_append_cons`, `eq_append_of_splitLast?`: cutting at the last separator.
-/

namespace StyleLift.Text

/-! ## Behind a start -/

theorem after?_eq_some_iff {lead s rest : Text} :
    after? lead s = some rest ↔ s = lead ++ rest := by
  induction lead generalizing s with
  | nil => rw [after?, Option.some.injEq, List.nil_append]
  | cons a lead ih =>
    cases s with
    | nil => simp [after?]
    | cons c s =>
      rw [after?, List.cons_append, List.cons.injEq]
      split_ifs with hc
      · rw [ih, and_iff_right hc.symm]
      · simp [Ne.symm hc]

theorem isSome_after?_iff {lead s : Text} : (after? lead s).isSome = true ↔ lead <+: s := by
  rw [Option.isSome_iff_exists]
  constructor
  · rintro ⟨rest, hrest⟩
    exact ⟨rest, (after?_eq_some_iff.1 hrest).symm⟩
  · rintro ⟨rest, rfl⟩
    exact ⟨rest, after?_eq_some_iff.2 rfl⟩

/-! ## At the last separator -/

theorem splitLast?_eq_none_iff {sep : Char} {s : Text} :
    splitLast? sep s = none ↔ sep ∉ s := by
  induction s with
  | nil => simp [splitLast?]
  | cons c s ih =>
    rw [splitLast?, List.mem_cons, not_or]
    cases hsplit : splitLast? sep s with
    | some parts =>
      rw [hsplit] at ih
      simp only [reduceCtorEq, false_iff, not_and]
      exact fun _ hnot => absurd (ih.2 hnot) (by simp)
    | none =>
      have hnot := ih.1 hsplit
      by_cases hc : c = sep
      · simp [hc]
      · simp [hc, Ne.symm hc, hnot]

theorem splitLast?_append_cons {sep : Char} {rest : Text} (h : sep ∉ rest) (before : Text) :
    splitLast? sep (before ++ sep :: rest) = some (before, rest) := by
  induction before with
  | nil =>
    rw [List.nil_append, splitLast?, splitLast?_eq_none_iff.2 h]
    simp
  | cons c before ih => rw [List.cons_append, splitLast?, ih]

theorem eq_append_of_splitLast? {sep : Char} {s before rest : Text}
    (h : splitLast? sep s = some (before, rest)) :
    s = before ++ sep :: rest ∧ sep ∉ rest := by
  induction s generalizing before with
  | nil => simp [splitLast?] at h
  | cons c s ih =>
    rw [splitLast?] at h
    cases hsplit : splitLast? sep s with
    | some parts =>
      obtain ⟨before', rest'⟩ := parts
      rw [hsplit] at h
      simp only [Option.some.injEq, Prod.mk.injEq] at h
      obtain ⟨rfl, rfl⟩ := h
      obtain ⟨rfl, hrest⟩ := ih hsplit
      exact ⟨rfl, hrest⟩
    | none =>
      rw [hsplit] at h
      dsimp only at h
      split at h
      · rename_i hc
        simp only [Option.some.injEq, Prod.mk.injEq] at h
        obtain ⟨rfl, rfl⟩ := h
        exact ⟨by rw [hc]; rfl, splitLast?_eq_none_iff.1 hsplit⟩
      · simp at h

end StyleLift.Text
