import StyleLift.Glob.Parser
import StyleLift.Proofs.Text.Bytes

/-!
# ASCII characters among bytes

In UTF-8 the byte of an ASCII character belongs to that character alone: every byte of any other
character is larger than all of them.  So a reader that looks for ASCII marks finds them in the
bytes where it finds them among the characters, even when it does not know where a character ends.

* `bytesOf_of_ascii`: an ASCII character is one byte.
* `eq_of_mem_bytesOf`: **the byte of an ASCII character is in no other character.**
* `fromUTF8?_utf8`: the bytes of a text are read back as the text.
* `head?_utf8_iff`, `takeWhile_utf8`: looking for a mark, in bytes and among characters.
-/

namespace StyleLift.Text

open Glob (Byte bytesOf utf8)

/-! ## One character -/

theorem length_bytesOf (c : Char) : (bytesOf c).length = c.utf8Size :=
  String.length_utf8EncodeChar c

theorem bytesOf_ne_nil (c : Char) : bytesOf c ≠ [] := by
  rw [← List.length_pos_iff, length_bytesOf]
  exact c.utf8Size_pos

theorem bytesOf_of_ascii {c : Char} (hc : c.toNat < 128) : bytesOf c = [c.toUInt8] := by
  have hsize : c.utf8Size = 1 := by
    rw [Char.utf8Size_eq_one_iff, UInt32.le_iff_toNat_le]
    exact Nat.le_of_lt_succ hc
  exact String.utf8EncodeChar_eq_singleton hsize

theorem toNat_toUInt8_of_ascii {c : Char} (hc : c.toNat < 128) : c.toUInt8.toNat = c.toNat := by
  show c.toNat % 256 = c.toNat
  omega

/-- All bytes of a character that is not ASCII are larger than those of ASCII characters. -/
theorem le_toNat_of_mem_bytesOf {c : Char} (hc : ¬ c.toNat < 128) {b : Byte}
    (hb : b ∈ bytesOf c) : 128 ≤ b.toNat := by
  have hbyte : ∀ n, 128 ≤ n → n < 256 → 128 ≤ (UInt8.ofNat n).toNat := by
    intro n hle hlt
    rw [UInt8.toNat_ofNat_of_lt' hlt]
    exact hle
  rw [bytesOf, String.utf8EncodeChar] at hb
  split_ifs at hb with h₁ h₂ h₃
  · exact absurd (Nat.lt_succ_of_le h₁) hc
  all_goals
    simp only [List.mem_cons, List.not_mem_nil, or_false] at hb
    rcases hb with rfl | hb
    · exact hbyte _ (by omega) (by omega)
  · subst hb
    exact hbyte _ (by omega) (by omega)
  · rcases hb with rfl | rfl <;> exact hbyte _ (by omega) (by omega)
  · rcases hb with rfl | rfl | rfl <;> exact hbyte _ (by omega) (by omega)

/-- **The byte of an ASCII character is in no other character.** -/
theorem eq_of_mem_bytesOf {c d : Char} (hd : d.toNat < 128) (h : d.toUInt8 ∈ bytesOf c) :
    c = d := by
  by_cases hc : c.toNat < 128
  · rw [bytesOf_of_ascii hc, List.mem_singleton] at h
    have hnat := congrArg UInt8.toNat h
    rw [toNat_toUInt8_of_ascii hd, toNat_toUInt8_of_ascii hc] at hnat
    exact (Char.toNat_inj.1 hnat).symm
  · have hlarge := le_toNat_of_mem_bytesOf hc h
    rw [toNat_toUInt8_of_ascii hd] at hlarge
    omega

/-- Other characters have other bytes. -/
theorem ne_of_mem_bytesOf {c d : Char} (hd : d.toNat < 128) (hne : c ≠ d) {b : Byte}
    (hb : b ∈ bytesOf c) : b ≠ d.toUInt8 := by
  rintro rfl
  exact hne (eq_of_mem_bytesOf hd hb)

/-- Comparing a byte with an ASCII character is comparing the character it belongs to. -/
theorem beq_toUInt8 {c d : Char} (hd : d.toNat < 128) {b : Byte} (hb : b ∈ bytesOf c) :
    (b == d.toUInt8) = (c == d) := by
  by_cases hc : c = d
  · rw [hc, bytesOf_of_ascii hd, List.mem_singleton] at hb
    rw [hc, hb, beq_self_eq_true, beq_self_eq_true]
  · rw [beq_eq_false_iff_ne.2 hc, beq_eq_false_iff_ne.2 (ne_of_mem_bytesOf hd hc hb)]

/-- No byte behind the first of a character is that of an ASCII character. -/
theorem ne_of_bytesOf_eq_cons {c d : Char} (hd : d.toNat < 128) {b x : Byte} {xs : List Byte}
    (hc : bytesOf c = x :: xs) (hb : b ∈ xs) : b ≠ d.toUInt8 := by
  rintro rfl
  obtain rfl := eq_of_mem_bytesOf hd (hc ▸ List.mem_cons_of_mem x hb)
  rw [bytesOf_of_ascii hd, List.cons.injEq] at hc
  rw [← hc.2] at hb
  exact absurd hb List.not_mem_nil

/-! ## Texts -/

@[simp] theorem utf8_nil : utf8 [] = [] := rfl

@[simp] theorem utf8_cons (c : Char) (s : Text) : utf8 (c :: s) = bytesOf c ++ utf8 s := rfl

@[simp] theorem utf8_append (s t : Text) : utf8 (s ++ t) = utf8 s ++ utf8 t :=
  List.flatMap_append

theorem length_utf8 (s : Text) : (utf8 s).length = s.byteLength := by
  induction s with
  | nil => rfl
  | cons c s ih => rw [utf8_cons, List.length_append, ih, length_bytesOf, byteLength]

/-- The bytes of a text can be read back. -/
theorem fromUTF8?_utf8 (s : Text) :
    String.fromUTF8? (utf8 s).toByteArray = some (String.ofList s) :=
  dif_pos (String.ofList s).isValidUTF8

theorem head?_utf8_cons (c : Char) (s : Text) : (utf8 (c :: s)).head? = (bytesOf c).head? :=
  List.head?_append_of_ne_nil _ (bytesOf_ne_nil c)

/-- A text starts with an ASCII character exactly if its bytes do. -/
theorem head?_utf8_iff {d : Char} (hd : d.toNat < 128) {s : Text} :
    (utf8 s).head? = some d.toUInt8 ↔ s.head? = some d := by
  cases s with
  | nil => simp
  | cons c s =>
    rw [head?_utf8_cons, List.head?_cons, Option.some.injEq]
    constructor
    · intro h
      exact eq_of_mem_bytesOf hd (List.mem_of_head? h)
    · rintro rfl
      rw [bytesOf_of_ascii hd, List.head?_cons]

/-- The bytes before an ASCII character are those of the text before it. -/
theorem takeWhile_utf8 {d : Char} (hd : d.toNat < 128) (s : Text) :
    (utf8 s).takeWhile (· != d.toUInt8) = utf8 (s.takeWhile (· != d)) := by
  induction s with
  | nil => rfl
  | cons c s ih =>
    by_cases hc : c = d
    · rw [hc, List.takeWhile_cons_of_neg (by simp), utf8_cons, bytesOf_of_ascii hd]
      exact List.takeWhile_cons_of_neg (by simp)
    · have hall : ∀ b ∈ bytesOf c, (b != d.toUInt8) = true := by
        intro b hb
        exact bne_iff_ne.2 (ne_of_mem_bytesOf hd hc hb)
      rw [List.takeWhile_cons_of_pos (p := (· != d)) (bne_iff_ne.2 hc), utf8_cons, utf8_cons,
        List.takeWhile_append_of_pos hall, ih]

end StyleLift.Text
