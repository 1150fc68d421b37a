import Mathlib.Data.List.Basic
import StyleLift.Text.Basic

/-!
# Trimming

Trimming cuts blanks off and nothing else, and a text that neither starts nor ends in a blank is
trimmed already.  The statements come in pairs, one for each end; those about the end are read
off from those about the start of the reversed text.
-/

namespace StyleLift.Text

theorem isBlankText_append {s t : Text} :
    isBlankText (s ++ t) = true ↔ isBlankText s = true ∧ isBlankText t = true := by
  rw [isBlankText, List.all_append, Bool.and_eq_true]
  rfl

theorem isBlankText_reverse (s : Text) : isBlankText s.reverse = isBlankText s :=
  List.all_reverse

theorem isBlank_of_mem {s : Text} (h : isBlankText s = true) {c : Char} (hc : c ∈ s) :
    isBlank c = true :=
  List.all_eq_true.1 h c hc

/-! ## The start -/

theorem trimStart_append_of_blank {b : Text} (hb : isBlankText b = true) (s : Text) :
    trimStart (b ++ s) = trimStart s :=
  List.dropWhile_append_of_pos fun _ hc => isBlank_of_mem hb hc

/-- The blanks that are cut off at the start. -/
theorem exists_trimStart (s : Text) : ∃ b, isBlankText b = true ∧ s = b ++ trimStart s :=
  ⟨s.takeWhile isBlank, List.all_takeWhile, List.takeWhile_append_dropWhile.symm⟩

theorem trimStart_eq_self_iff {s : Text} :
    trimStart s = s ↔ ∀ c, s.head? = some c → isBlank c = false := by
  cases s with
  | nil => simp [trimStart]
  | cons c s =>
    constructor
    · intro h d hd
      obtain rfl := Option.some.inj hd
      have hhead := List.head?_dropWhile_not isBlank (c :: s)
      rw [show (c :: s).dropWhile isBlank = c :: s from h] at hhead
      simpa using hhead
    · intro h
      rw [trimStart, List.dropWhile_cons_of_neg]
      simp [h c rfl]

/-- What is left does not start with a blank. -/
theorem trimStart_trimStart (s : Text) : trimStart (trimStart s) = trimStart s := by
  rw [trimStart_eq_self_iff]
  intro c hc
  have hhead := List.head?_dropWhile_not isBlank s
  rw [show (s.dropWhile isBlank).head? = some c from hc] at hhead
  simpa using hhead

theorem trimStart_append_of_ne_nil {s : Text} (hs : trimStart s = s) (hne : s ≠ []) (t : Text) :
    trimStart (s ++ t) = s ++ t := by
  rw [trimStart_eq_self_iff] at hs ⊢
  intro c hc
  rw [List.head?_append_of_ne_nil _ hne] at hc
  exact hs c hc

theorem trimStart_eq_nil_of_blank {b : Text} (hb : isBlankText b = true) : trimStart b = [] := by
  have h := trimStart_append_of_blank hb []
  rwa [List.append_nil] at h

/-! ## The end -/

theorem trimEnd_eq (s : Text) : trimEnd s = (trimStart s.reverse).reverse := rfl

theorem trimEnd_append_of_blank {b : Text} (hb : isBlankText b = true) (s : Text) :
    trimEnd (s ++ b) = trimEnd s := by
  rw [trimEnd_eq, List.reverse_append, trimStart_append_of_blank (by rwa [isBlankText_reverse]),
    ← trimEnd_eq]

/-- The blanks that are cut off at the end. -/
theorem exists_trimEnd (s : Text) : ∃ b, isBlankText b = true ∧ s = trimEnd s ++ b := by
  obtain ⟨b, hb, hs⟩ := exists_trimStart s.reverse
  refine ⟨b.reverse, by rwa [isBlankText_reverse], ?_⟩
  rw [trimEnd_eq, ← List.reverse_append, ← hs, List.reverse_reverse]

theorem trimEnd_eq_self_iff {s : Text} :
    trimEnd s = s ↔ ∀ c, s.getLast? = some c → isBlank c = false := by
  rw [trimEnd_eq, List.reverse_eq_iff, trimStart_eq_self_iff, List.head?_reverse]

theorem trimEnd_append_of_ne_nil {t : Text} (ht : trimEnd t = t) (hne : t ≠ []) (s : Text) :
    trimEnd (s ++ t) = s ++ t := by
  rw [trimEnd_eq_self_iff] at ht ⊢
  intro c hc
  rw [List.getLast?_append_of_ne_nil _ hne] at hc
  exact ht c hc

theorem trimEnd_nil : trimEnd [] = [] := rfl

/-! ## Both ends -/

theorem trim_append_of_blank {b : Text} (hb : isBlankText b = true) (s : Text) :
    trim (b ++ s) = trim s := by
  rw [trim, trimStart_append_of_blank hb, trim]

/-- A text is trimmed when both its ends are. -/
theorem trim_eq_self_iff {s : Text} : trim s = s ↔ trimStart s = s ∧ trimEnd s = s := by
  constructor
  · intro h
    obtain ⟨b, -, hstart⟩ := exists_trimStart s
    obtain ⟨b', -, hend⟩ := exists_trimEnd (trimStart s)
    have hlen : s.length = b.length + (s.length + b'.length) := by
      conv_lhs => rw [hstart, hend]
      rw [← trim, h, List.length_append, List.length_append]
    have hb : b = [] := List.length_eq_zero_iff.1 (by omega)
    have hs : trimStart s = s := by
      rw [hb] at hstart
      exact hstart.symm
    refine ⟨hs, ?_⟩
    rwa [trim, hs] at h
  · rintro ⟨hstart, hend⟩
    rw [trim, hstart, hend]

/-- What is left is trimmed. -/
theorem trim_trim (s : Text) : trim (trim s) = trim s := by
  obtain ⟨b, -, hend⟩ := exists_trimEnd (trimStart s)
  refine trim_eq_self_iff.2 ⟨?_, ?_⟩
  · by_cases hne : trim s = []
    · rw [hne]
      rfl
    · have hstart := trimStart_eq_self_iff.1 (trimStart_trimStart s)
      rw [trimStart_eq_self_iff]
      intro c hc
      refine hstart c ?_
      rw [hend, ← trim, List.head?_append_of_ne_nil _ hne]
      exact hc
  · rw [trim, trimEnd_eq, trimEnd_eq, List.reverse_reverse, trimStart_trimStart]

/-- Blanks on both sides are cut off. -/
theorem trim_append_append {b b' s : Text} (hb : isBlankText b = true)
    (hb' : isBlankText b' = true) (hs : trim s = s) : trim (b ++ s ++ b') = s := by
  obtain ⟨hstart, hend⟩ := trim_eq_self_iff.1 hs
  rw [trim, List.append_assoc, trimStart_append_of_blank hb]
  by_cases hne : s = []
  · subst hne
    rw [List.nil_append, trimStart_eq_nil_of_blank hb', trimEnd_nil]
  · rw [trimStart_append_of_ne_nil hstart hne, trimEnd_append_of_blank hb', hend]

/-- A text is its trimmed self between blanks. -/
theorem exists_trim (s : Text) : ∃ b b', isBlankText b = true ∧ isBlankText b' = true ∧
    s = b ++ trim s ++ b' := by
  obtain ⟨b, hb, hstart⟩ := exists_trimStart s
  obtain ⟨b', hb', hend⟩ := exists_trimEnd (trimStart s)
  refine ⟨b, b', hb, hb', ?_⟩
  rw [trim, List.append_assoc, ← hend]
  exact hstart

end StyleLift.Text
