import Mathlib.Data.List.Basic
import StyleLift.Text.Basic
import StyleLift.Text.Word

/-!
# Characters by their numbers

The classes of ASCII characters as ranges of numbers, so that questions about several classes at
once are questions of arithmetic: a letter is no blank, a letter in lower case is a word
character exactly when the letter is, and so on.
-/

namespace StyleLift.Text

theorem isUpper_iff {c : Char} : c.isUpper = true ↔ 65 ≤ c.toNat ∧ c.toNat ≤ 90 := by
  show decide (c.val ≥ 'A'.val ∧ c.val ≤ 'Z'.val) = true ↔ _
  simp [UInt32.le_iff_toNat_le]

theorem isLower_iff {c : Char} : c.isLower = true ↔ 97 ≤ c.toNat ∧ c.toNat ≤ 122 := by
  show (decide (c.val ≥ 'a'.val) && decide (c.val ≤ 'z'.val)) = true ↔ _
  simp [UInt32.le_iff_toNat_le]

theorem isAlpha_iff {c : Char} : c.isAlpha = true ↔
    (65 ≤ c.toNat ∧ c.toNat ≤ 90) ∨ (97 ≤ c.toNat ∧ c.toNat ≤ 122) := by
  show (c.isUpper || c.isLower) = true ↔ _
  rw [Bool.or_eq_true, isUpper_iff, isLower_iff]

theorem isAlphanum_iff {c : Char} : c.isAlphanum = true ↔
    (65 ≤ c.toNat ∧ c.toNat ≤ 90) ∨ (97 ≤ c.toNat ∧ c.toNat ≤ 122) ∨
      (48 ≤ c.toNat ∧ c.toNat ≤ 57) := by
  rw [Char.isAlphanum, Bool.or_eq_true, isAlpha_iff, or_assoc]
  simp [Char.isDigit, UInt32.le_iff_toNat_le]

/-- Only capital letters change in lower case, and they move by 32. -/
theorem toLower_cases (c : Char) :
    c.toLower = c ∨ (65 ≤ c.toNat ∧ c.toNat ≤ 90) ∧ c.toLower.toNat = c.toNat + 32 := by
  by_cases h : c.val ≥ 'A'.val ∧ c.val ≤ 'Z'.val
  · right
    have hrange := isUpper_iff.1 (decide_eq_true h)
    refine ⟨hrange, ?_⟩
    have hlower : c.toLower = ⟨c.val + ('a'.val - 'A'.val), _⟩ := dif_pos h
    rw [hlower]
    show (c.val + ('a'.val - 'A'.val)).toNat = c.toNat + 32
    rw [UInt32.toNat_add]
    show (c.toNat + 32) % 4294967296 = c.toNat + 32
    omega
  · left
    exact dif_neg h

/-- The case of a letter does not make it a letter. -/
theorem isAlpha_of_isAlpha_toLower {c : Char} (h : c.toLower.isAlpha = true) :
    c.isAlpha = true := by
  rcases toLower_cases c with heq | ⟨hrange, -⟩
  · rwa [heq] at h
  · exact isAlpha_iff.2 (Or.inl hrange)

/-- No letter is blank. -/
theorem isBlank_eq_false_of_isAlpha {c : Char} (h : c.isAlpha = true) : isBlank c = false := by
  rw [isAlpha_iff] at h
  rw [← Bool.not_eq_true]
  intro hblank
  simp only [isBlank, Bool.or_eq_true, Bool.and_eq_true, decide_eq_true_eq, beq_iff_eq] at hblank
  omega

/-- The ranges of blanks from U+0080 on. -/
def blankRanges : List (Nat × Nat) :=
  [(0x85, 0x85), (0xA0, 0xA0), (0x1680, 0x1680), (0x2000, 0x200A), (0x2028, 0x2029),
   (0x202F, 0x202F), (0x205F, 0x205F), (0x3000, 0x3000)]

/-- No word character is blank: the ranges of word characters leave out all blanks. -/
theorem isBlank_eq_false_of_isWord {c : Char} (h : isWord c = true) : isBlank c = false := by
  rw [← Bool.not_eq_true]
  intro hblank
  simp only [isBlank, Bool.or_eq_true, Bool.and_eq_true, decide_eq_true_eq, beq_iff_eq] at hblank
  rw [isWord] at h
  split at h
  · rw [Bool.or_eq_true, isAlphanum_iff, beq_iff_eq] at h
    rcases h with h | rfl
    · omega
    · exact absurd hblank (by decide)
  · rename_i hrange
    obtain ⟨⟨low, high⟩, hmem, hin⟩ := List.any_eq_true.1 h
    simp only [Bool.and_eq_true, decide_eq_true_eq] at hin
    have hgaps : (wordRanges.all fun r =>
        blankRanges.all fun b => b.2.blt r.1 || r.2.blt b.1) = true := by
      decide +kernel
    obtain ⟨b, hb, hlow, hhigh⟩ : ∃ b ∈ blankRanges, b.1 ≤ c.toNat ∧ c.toNat ≤ b.2 := by
      simp only [blankRanges, List.mem_cons, List.not_mem_nil, or_false, exists_eq_or_imp,
        exists_eq_left]
      omega
    have hgap := List.all_eq_true.1 (List.all_eq_true.1 hgaps _ hmem) _ hb
    simp only [Bool.or_eq_true, Nat.blt_eq] at hgap
    omega

theorem isWordOrHyphen_of_isAlphanum {c : Char} (h : c.isAlphanum = true) :
    isWordOrHyphen c = true := by
  have hsmall : c.toNat < 0x80 := by
    rw [isAlphanum_iff] at h
    omega
  rw [isWordOrHyphen, isWord, if_pos hsmall, h]
  rfl

/-- What can start an identifier can go on in it. -/
theorem isWordOrHyphen_of_isNameStart {c : Char} (h : isNameStart c = true) :
    isWordOrHyphen c = true := by
  rw [isNameStart, Bool.or_eq_true, isAlpha_iff, beq_iff_eq] at h
  rcases h with h | rfl
  · exact isWordOrHyphen_of_isAlphanum (isAlphanum_iff.2 (h.imp id Or.inl))
  · decide

/-- A name stays a name in lower case. -/
theorem isWordOrHyphen_toLower {c : Char} (h : isWordOrHyphen c = true) :
    isWordOrHyphen c.toLower = true := by
  rcases toLower_cases c with heq | ⟨hrange, heq⟩
  · rwa [heq]
  · refine isWordOrHyphen_of_isAlphanum (isAlphanum_iff.2 ?_)
    omega

/-- Only letters come about by writing in lower case. -/
theorem eq_of_toLower_eq {c d : Char} (hd : d.isAlpha = false) (h : c.toLower = d) : c = d := by
  rcases toLower_cases c with heq | ⟨hrange, heq⟩
  · rw [← h, heq]
  · rw [h] at heq
    have halpha : d.isAlpha = true := isAlpha_iff.2 (Or.inr (by omega))
    rw [hd] at halpha
    exact absurd halpha Bool.false_ne_true

theorem isBlank_eq_false_of_isWordOrHyphen {c : Char} (h : isWordOrHyphen c = true) :
    isBlank c = false := by
  rw [isWordOrHyphen, Bool.or_eq_true, beq_iff_eq] at h
  rcases h with h | rfl
  · exact isBlank_eq_false_of_isWord h
  · decide

/-! ## Numbers -/

theorem isAlphanum_of_mem_decimal {n : Nat} {c : Char} (h : c ∈ decimal n) :
    c.isAlphanum = true := by
  rw [Char.isAlphanum, Nat.isDigit_of_mem_toDigits (by decide) (by decide) h, Bool.or_true]

theorem decimal_injective : Function.Injective decimal := by
  intro m n h
  have hdigits : Nat.toDigits 10 m = Nat.toDigits 10 n := h
  rw [← Nat.ofDigitChars_ten_toDigits (n := m), hdigits, Nat.ofDigitChars_ten_toDigits]

end StyleLift.Text
