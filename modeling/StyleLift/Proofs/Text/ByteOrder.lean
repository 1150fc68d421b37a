import Mathlib.Algebra.Ring.Nat
import Mathlib.Data.List.Lex
import StyleLift.Glob.Parser

/-!
# The order of names

Names are compared by the numbers of their characters, and a disk compares them by their bytes.  This
is the same order, since UTF-8 keeps it: characters with more bytes have the larger numbers and start
with the larger bytes, and characters with as many bytes differ first where the numbers do, in a group
of six bits.

* `ByteLt`: the order by bytes, and `ByteLt.asymm`.
* `sixBits`, `lex_sixBits`: a number in groups of six bits keeps its order.
* `exists_bytesOf_eq`, `lex_bytesOf`: so does a character in bytes.
* `byteLt_of_le`: **the order by characters is the order by bytes.**
* `le_total`, `le_trans`: what sorting asks of an order.
-/

namespace StyleLift.Text

open Glob (Byte bytesOf utf8)

/-- The order of texts by their bytes. -/
def ByteLt (s t : Text) : Prop := List.Lex (· < ·) (utf8 s) (utf8 t)

theorem ByteLt.asymm {s t : Text} (h : ByteLt s t) : ¬ ByteLt t s :=
  List.lex_asymm (fun {_ _} hlt hgt => absurd hgt (UInt8.lt_asymm hlt)) h

/-! ## Groups of six bits -/

/-- A number as `k` bytes of six bits each, and before them one with a mark. -/
def sixBits (mark : Nat) : Nat → Nat → List Byte
  | 0, n => [UInt8.ofNat (n + mark)]
  | k + 1, n => sixBits mark k (n / 64) ++ [UInt8.ofNat (n % 64 + 128)]

theorem ofNat_lt_ofNat {m n : Nat} (h : m < n) (hn : n < 256) : UInt8.ofNat m < UInt8.ofNat n :=
  (UInt8.ofNat_lt_iff_lt (Nat.lt_trans h hn) hn).2 h

theorem exists_sixBits_eq_cons (mark k n : Nat) :
    ∃ rest, sixBits mark k n = UInt8.ofNat (n / 64 ^ k + mark) :: rest := by
  induction k generalizing n with
  | zero => exact ⟨[], by rw [sixBits, Nat.pow_zero, Nat.div_one]⟩
  | succ k ih =>
    obtain ⟨rest, hrest⟩ := ih (n / 64)
    refine ⟨rest ++ [UInt8.ofNat (n % 64 + 128)], ?_⟩
    rw [sixBits, hrest, Nat.div_div_eq_div_mul, ← Nat.pow_succ', List.cons_append]

/-- **Groups of six bits keep the order.** -/
theorem lex_sixBits {mark k m n : Nat} (h : m < n) (hn : n / 64 ^ k + mark < 256)
    (s t : List Byte) : List.Lex (· < ·) (sixBits mark k m ++ s) (sixBits mark k n ++ t) := by
  induction k generalizing m n s t with
  | zero =>
    rw [Nat.pow_zero, Nat.div_one] at hn
    exact .rel (ofNat_lt_ofNat (Nat.add_lt_add_right h mark) hn)
  | succ k ih =>
    rw [sixBits, sixBits, List.append_assoc, List.append_assoc]
    rw [Nat.pow_succ', ← Nat.div_div_eq_div_mul] at hn
    rcases Nat.lt_or_eq_of_le (Nat.div_le_div_right (c := 64) h.le) with hlt | heq
    · exact ih hlt hn _ _
    · -- the groups before the last are the same
      rw [heq]
      have hlast : m % 64 + 128 < n % 64 + 128 := by omega
      exact .append_left _ (.rel (ofNat_lt_ofNat hlast (by omega))) _

/-! ## Characters -/

/-- The marks of the first bytes, by the number of bytes behind them. -/
def leadMark : Nat → Nat
  | 0 => 0
  | 1 => 192
  | 2 => 224
  | 3 => 240
  | _ => 256

theorem leadMark_le_succ (k : Nat) : leadMark k ≤ leadMark (k + 1) := by
  match k with
  | 0 => decide
  | 1 => decide
  | 2 => decide
  | 3 => decide
  | _ + 4 => exact Nat.le_refl 256

theorem leadMark_le_leadMark {k l : Nat} (h : k ≤ l) : leadMark k ≤ leadMark l := by
  induction h with
  | refl => exact Nat.le_refl _
  | step _ ih => exact Nat.le_trans ih (leadMark_le_succ _)

theorem leadMark_le (k : Nat) : leadMark k ≤ 256 :=
  leadMark_le_leadMark (Nat.le_add_right k 4)

theorem utf8Size_eq (c : Char) :
    c.utf8Size = if c.toNat ≤ 127 then 1 else if c.toNat ≤ 2047 then 2 else
      if c.toNat ≤ 65535 then 3 else 4 := rfl

theorem utf8Size_le_of_lt {c d : Char} (h : c < d) : c.utf8Size ≤ d.utf8Size := by
  have hlt : c.toNat < d.toNat := h
  rw [utf8Size_eq, utf8Size_eq]
  split_ifs <;> omega

/-- **A character is written in groups of six bits,** behind a first byte that tells how many. -/
theorem exists_bytesOf_eq (c : Char) :
    ∃ k, k + 1 = c.utf8Size ∧ bytesOf c = sixBits (leadMark k) k c.toNat ∧
      c.toNat / 64 ^ k + leadMark k < leadMark (k + 1) := by
  have hmax : c.toNat < 1114112 := by
    rcases c.valid with hvalid | hvalid
    · exact Nat.lt_trans hvalid (by decide)
    · exact hvalid.2
  have hbytes : bytesOf c = if c.toNat ≤ 127 then [UInt8.ofNat c.toNat] else
      if c.toNat ≤ 2047 then
        [UInt8.ofNat (c.toNat / 64 % 32 + 192), UInt8.ofNat (c.toNat % 64 + 128)] else
      if c.toNat ≤ 65535 then
        [UInt8.ofNat (c.toNat / 4096 % 16 + 224), UInt8.ofNat (c.toNat / 64 % 64 + 128),
          UInt8.ofNat (c.toNat % 64 + 128)] else
        [UInt8.ofNat (c.toNat / 262144 % 8 + 240), UInt8.ofNat (c.toNat / 4096 % 64 + 128),
          UInt8.ofNat (c.toNat / 64 % 64 + 128), UInt8.ofNat (c.toNat % 64 + 128)] := rfl
  rw [utf8Size_eq, hbytes]
  generalize c.toNat = n at hmax
  split_ifs with h₁ h₂ h₃
  · exact ⟨0, rfl, rfl, by simp only [leadMark]; omega⟩
  · refine ⟨1, rfl, ?_, by simp only [leadMark]; omega⟩
    simp only [sixBits, leadMark, List.cons_append, List.nil_append]
    rw [Nat.mod_eq_of_lt (by omega : n / 64 < 32)]
  · refine ⟨2, rfl, ?_, by simp only [leadMark]; omega⟩
    simp only [sixBits, leadMark, List.cons_append, List.nil_append, Nat.div_div_eq_div_mul]
    rw [Nat.mod_eq_of_lt (by omega : n / 4096 < 16)]
  · refine ⟨3, rfl, ?_, by simp only [leadMark]; omega⟩
    simp only [sixBits, leadMark, List.cons_append, List.nil_append, Nat.div_div_eq_div_mul]
    rw [Nat.mod_eq_of_lt (by omega : n / 262144 < 8)]

/-- **Bytes keep the order of characters,** whatever follows them. -/
theorem lex_bytesOf {c d : Char} (h : c < d) (s t : List Byte) :
    List.Lex (· < ·) (bytesOf c ++ s) (bytesOf d ++ t) := by
  obtain ⟨k, hk, hc, hleadc⟩ := exists_bytesOf_eq c
  obtain ⟨l, hl, hd, hleadd⟩ := exists_bytesOf_eq d
  have hsize := utf8Size_le_of_lt h
  have hbyte := Nat.lt_of_lt_of_le hleadd (leadMark_le (l + 1))
  rw [hc, hd]
  rcases Nat.lt_or_eq_of_le (show k ≤ l by omega) with hkl | rfl
  · obtain ⟨rest, hrest⟩ := exists_sixBits_eq_cons (leadMark k) k c.toNat
    obtain ⟨rest', hrest'⟩ := exists_sixBits_eq_cons (leadMark l) l d.toNat
    rw [hrest, hrest']
    have hmark : leadMark (k + 1) ≤ leadMark l := leadMark_le_leadMark hkl
    have hle : leadMark l ≤ d.toNat / 64 ^ l + leadMark l := Nat.le_add_left _ _
    exact .rel (ofNat_lt_ofNat (Nat.lt_of_lt_of_le hleadc (hmark.trans hle)) hbyte)
  · exact lex_sixBits h hbyte s t

/-! ## Texts -/

/-- **The order by characters is the order by bytes.** -/
theorem byteLt_of_le {s t : Text} (h : le s t = true) (hne : s ≠ t) : ByteLt s t := by
  induction s generalizing t with
  | nil =>
    obtain ⟨d, t, rfl⟩ := List.exists_cons_of_ne_nil hne.symm
    obtain ⟨k, -, hd, -⟩ := exists_bytesOf_eq d
    obtain ⟨rest, hrest⟩ := exists_sixBits_eq_cons (leadMark k) k d.toNat
    rw [ByteLt, utf8, utf8, List.flatMap_cons, hd, hrest]
    exact .nil
  | cons c s ih =>
    cases t with
    | nil => cases h
    | cons d t =>
      rw [ByteLt, utf8, utf8, List.flatMap_cons, List.flatMap_cons]
      rw [le, Bool.or_eq_true, Bool.and_eq_true, decide_eq_true_eq, beq_iff_eq] at h
      rcases h with hlt | ⟨rfl, hle⟩
      · exact lex_bytesOf hlt _ _
      · exact .append_left _ (ih hle fun heq => hne (by rw [heq])) _

theorem le_total (s t : Text) : (le s t || le t s) = true := by
  induction s generalizing t with
  | nil => rfl
  | cons c s ih =>
    cases t with
    | nil => rfl
    | cons d t =>
      have hrest := ih t
      rw [Bool.or_eq_true] at hrest ⊢
      simp only [le, Bool.or_eq_true, Bool.and_eq_true, decide_eq_true_eq, beq_iff_eq]
      by_cases hcd : c < d
      · exact Or.inl (Or.inl hcd)
      · by_cases hdc : d < c
        · exact Or.inr (Or.inl hdc)
        · obtain rfl := Char.le_antisymm (Char.not_lt.1 hdc) (Char.not_lt.1 hcd)
          exact hrest.imp (fun h => Or.inr ⟨rfl, h⟩) (fun h => Or.inr ⟨rfl, h⟩)

theorem le_trans {s t u : Text} (hst : le s t = true) (htu : le t u = true) : le s u = true := by
  induction s generalizing t u with
  | nil => rfl
  | cons c s ih =>
    cases t with
    | nil => cases hst
    | cons d t =>
      cases u with
      | nil => cases htu
      | cons e u =>
        simp only [le, Bool.or_eq_true, Bool.and_eq_true, decide_eq_true_eq, beq_iff_eq] at hst htu ⊢
        rcases hst with hcd | ⟨rfl, hst⟩
        · rcases htu with hde | ⟨rfl, -⟩
          · exact Or.inl (Char.lt_trans hcd hde)
          · exact Or.inl hcd
        · rcases htu with hce | ⟨rfl, htu⟩
          · exact Or.inl hce
          · exact Or.inr ⟨rfl, ih hst htu⟩

end StyleLift.Text
