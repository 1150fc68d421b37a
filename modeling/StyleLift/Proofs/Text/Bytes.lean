import Mathlib.Data.String.Basic
import StyleLift.Text.Basic

/-!
# Characters and bytes

A position in this library counts characters.  A file is made of bytes, and a position between two
bytes of one character is no place to cut it.  The byte that belongs to a position is found by
adding up the sizes of the characters before it, so it never lies inside a character, and cutting
the bytes at two such places cuts the text at the two positions.

* `Text.bytePosition`: the byte at which a character starts.
* `isValid_bytePosition`: **a position between characters is one between their bytes.**
* `bytePosition_le_iff`: bytes are in the order of their positions.
* `extract_bytePosition`: the bytes between two positions are those of the text between them.
-/

namespace StyleLift.Text

theorem byteLength_append (s t : Text) :
    (s ++ t).byteLength = s.byteLength + t.byteLength := by
  induction s with
  | nil => simp [Text.byteLength]
  | cons c s ih => rw [List.cons_append, Text.byteLength, Text.byteLength, ih, Nat.add_assoc]

theorem byteLength_eq_utf8Len (s : Text) : s.byteLength = String.utf8Len s := by
  induction s with
  | nil => rfl
  | cons c s ih => rw [byteLength, String.utf8Len, ih, Nat.add_comm]

/-- The byte at which the character at `n` starts. -/
def bytePosition (s : Text) (n : Nat) : String.Pos.Raw := ⟨byteLength (s.take n)⟩

/-- **A position between characters is one between their bytes.** -/
theorem isValid_bytePosition (s : Text) (n : Nat) :
    (bytePosition s n).IsValid (String.ofList s) := by
  refine String.Pos.Raw.isValid_iff_exists_append.2
    ⟨String.ofList (s.take n), String.ofList (s.drop n), ?_, ?_⟩
  · rw [← String.ofList_append, List.take_append_drop]
  · show (⟨byteLength (s.take n)⟩ : String.Pos.Raw) = ⟨(String.ofList (s.take n)).utf8ByteSize⟩
    rw [String.utf8ByteSize_ofList, byteLength_eq_utf8Len]

theorem byteLength_pos {s : Text} (hs : s ≠ []) : 0 < s.byteLength := by
  cases s with
  | nil => exact absurd rfl hs
  | cons c s =>
    have hc := c.utf8Size_pos
    rw [byteLength]
    omega

/-- The text up to a position, cut at an earlier one. -/
theorem take_eq_append {s : Text} {m n : Nat} (hle : m ≤ n) :
    s.take n = s.take m ++ (s.drop m).take (n - m) := by
  rw [← List.take_add, Nat.add_sub_cancel' hle]

/-- Later characters start at later bytes. -/
theorem bytePosition_lt {s : Text} {m n : Nat} (hlt : m < n) (hn : n ≤ s.length) :
    bytePosition s m < bytePosition s n := by
  have hne : (s.drop m).take (n - m) ≠ [] := by
    rw [Ne, List.take_eq_nil_iff, List.drop_eq_nil_iff]
    omega
  have hpos := byteLength_pos hne
  show byteLength (s.take m) < byteLength (s.take n)
  rw [take_eq_append hlt.le, byteLength_append]
  omega

/-- Bytes are in the order of their positions. -/
theorem bytePosition_le_iff {s : Text} {m n : Nat} (hm : m ≤ s.length) (hn : n ≤ s.length) :
    (bytePosition s m).byteIdx ≤ (bytePosition s n).byteIdx ↔ m ≤ n := by
  rcases Nat.lt_trichotomy m n with hlt | rfl | hlt
  · have hbytes : (bytePosition s m).byteIdx < (bytePosition s n).byteIdx := bytePosition_lt hlt hn
    omega
  · exact iff_of_true (Nat.le_refl _) (Nat.le_refl _)
  · have hbytes : (bytePosition s n).byteIdx < (bytePosition s m).byteIdx := bytePosition_lt hlt hm
    omega

theorem bytePosition_le_byteLength (s : Text) (n : Nat) :
    (bytePosition s n).byteIdx ≤ s.byteLength := by
  have hwhole := byteLength_append (s.take n) (s.drop n)
  rw [List.take_append_drop] at hwhole
  show byteLength (s.take n) ≤ _
  omega

/-- A character ends where the next one starts. -/
theorem bytePosition_succ {s : Text} {n : Nat} {c : Char} (h : s[n]? = some c) :
    (bytePosition s (n + 1)).byteIdx = (bytePosition s n).byteIdx + c.utf8Size := by
  show byteLength (s.take (n + 1)) = byteLength (s.take n) + c.utf8Size
  rw [List.take_add_one, h, byteLength_append]
  rfl

/-- The bytes between two positions are those of the text between them. -/
theorem extract_bytePosition {s : Text} {m n : Nat} (hle : m ≤ n) :
    String.Pos.Raw.extract (String.ofList s) (bytePosition s m) (bytePosition s n) =
      String.ofList ((s.drop m).take (n - m)) := by
  have hwhole : s = s.take m ++ (s.drop m).take (n - m) ++ s.drop n := by
    rw [← take_eq_append hle, List.take_append_drop]
  have hcut := String.extract_of_valid (s.take m) ((s.drop m).take (n - m)) (s.drop n)
  rwa [← hwhole, ← String.utf8Len_append, ← take_eq_append hle, ← byteLength_eq_utf8Len,
    ← byteLength_eq_utf8Len] at hcut

end StyleLift.Text
