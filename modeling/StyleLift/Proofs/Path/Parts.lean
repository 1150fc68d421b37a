import Mathlib.Data.List.Basic
import StyleLift.Path

/-!
# The parts of joined and cut paths

Joining appends text and taking the parent cuts text off, but what a disk follows are the parts
between separators.  Joining keeps the parts of both sides, up to an empty one where the left side
ends in a separator, so the last part of a joined path is that of its right side; and the parent
has no parts of its own.

* `Text.pieces_append_cons`, `Text.pieces_joined`: the pieces of text put together at separators.
* `Path.pieces_join`, `Path.getLast?_pieces_join`: the parts of a joined path.
* `Path.mem_pieces_parent?`: the parts of the parent.
-/

namespace StyleLift

/-! ## Pieces -/

namespace Text

theorem pieces_eq_splitOn (sep : Char) (s : Text) : pieces sep s = s.splitOn sep := by
  rw [List.splitOn_eq_splitOnP]
  induction s with
  | nil => rfl
  | cons c s ih =>
    rw [pieces, List.splitOnP_cons_eq_if_modifyHead, ← ih]
    by_cases hc : c = sep
    · simp [hc]
    · rw [if_neg hc, if_neg (by simpa using hc)]
      cases hpieces : pieces sep s with
      | nil =>
        rw [hpieces] at ih
        exact absurd ih.symm (List.splitOnP_ne_nil _ _)
      | cons piece rest => rfl

theorem joined_eq_intercalate (sep : Text) (l : List Text) : joined sep l = sep.intercalate l := by
  induction l with
  | nil => rfl
  | cons s rest ih =>
    cases rest with
    | nil => simp [joined]
    | cons t rest =>
      rw [joined, ih]
      · simp
      · simp

theorem pieces_ne_nil (sep : Char) (s : Text) : pieces sep s ≠ [] := by
  rw [pieces_eq_splitOn]
  exact List.splitOn_ne_nil _ _

theorem pieces_append_cons (sep : Char) (s t : Text) :
    pieces sep (s ++ sep :: t) = pieces sep s ++ pieces sep t := by
  simp only [pieces_eq_splitOn, List.splitOn_append_cons_self]

theorem pieces_of_notMem {sep : Char} {s : Text} (h : sep ∉ s) : pieces sep s = [s] := by
  rw [pieces_eq_splitOn, List.splitOn_eq_singleton h]

/-- No separator stands in a piece. -/
theorem notMem_of_mem_pieces {sep : Char} {s piece : Text} (h : piece ∈ pieces sep s) :
    sep ∉ piece := by
  induction s generalizing piece with
  | nil =>
    obtain rfl := List.mem_singleton.1 h
    exact List.not_mem_nil
  | cons c s ih =>
    rw [pieces] at h
    split at h
    · rcases List.mem_cons.1 h with rfl | h
      · exact List.not_mem_nil
      · exact ih h
    · rename_i hc
      cases hpieces : pieces sep s with
      | nil => exact absurd hpieces (pieces_ne_nil sep s)
      | cons first rest =>
        rw [hpieces] at h ih
        rcases List.mem_cons.1 h with rfl | h
        · rw [List.mem_cons, not_or]
          exact ⟨Ne.symm hc, ih List.mem_cons_self⟩
        · exact ih (List.mem_cons_of_mem _ h)

theorem pieces_joined {sep : Char} {l : List Text} (h : ∀ s ∈ l, sep ∉ s) (hne : l ≠ []) :
    pieces sep (joined [sep] l) = l := by
  rw [pieces_eq_splitOn, joined_eq_intercalate, List.splitOn_intercalate sep h hne]

end Text

namespace Path

open Text (pieces)

/-! ## Joined paths -/

/-- The parts of a path to which a relative one is joined: those of both sides, where a separator at
the end of the left side adds none. -/
theorem exists_pieces_join {p : Path} (hp : p.text ≠ []) {other : Text}
    (hother : other.head? ≠ some '/') :
    ∃ front, (pieces '/' p.text = front ∨ pieces '/' p.text = front ++ [[]]) ∧
      pieces '/' (p.join other).text = front ++ pieces '/' other ∧
      (p.join other).isAbsolute = p.isAbsolute := by
  rw [join, if_neg hother]
  split
  · rename_i hend
    obtain ⟨front, last, htext⟩ := (List.eq_nil_or_concat' p.text).resolve_left hp
    have hlast : last = '/' := by simpa [htext] using hend
    subst hlast
    refine ⟨pieces '/' front, Or.inr ?_, ?_, ?_⟩
    · rw [htext, Text.pieces_append_cons]
      rfl
    · rw [htext, List.append_assoc, List.singleton_append, Text.pieces_append_cons]
    · simp [isAbsolute, htext]
  · refine ⟨pieces '/' p.text, Or.inl rfl, Text.pieces_append_cons _ _ _, ?_⟩
    obtain ⟨c, rest, htext⟩ := List.exists_cons_of_ne_nil hp
    simp [isAbsolute, htext]

/-- The parts of a joined path: those of the right side alone if it is absolute or the left side
is empty, and else those of both sides. -/
theorem pieces_join (p : Path) (other : Text) :
    pieces '/' (p.join other).text = pieces '/' other ∨
    ∃ front, (pieces '/' p.text = front ∨ pieces '/' p.text = front ++ [[]]) ∧
      pieces '/' (p.join other).text = front ++ pieces '/' other ∧
      (p.join other).isAbsolute = p.isAbsolute := by
  by_cases hother : other.head? = some '/'
  · rw [join, if_pos hother]
    exact Or.inl rfl
  · by_cases hp : p.text = []
    · rw [join, if_neg hother, if_pos (by simp [hp]), hp]
      exact Or.inl rfl
    · exact Or.inr (exists_pieces_join hp hother)

/-- **A joined path ends as its right side does.** -/
theorem getLast?_pieces_join (p : Path) (other : Text) :
    (pieces '/' (p.join other).text).getLast? = (pieces '/' other).getLast? := by
  rcases p.pieces_join other with hpieces | ⟨front, -, hpieces, -⟩
  · rw [hpieces]
  · rw [hpieces, List.getLast?_append_of_ne_nil _ (Text.pieces_ne_nil '/' other)]

/-! ## Parents -/

theorem mem_of_mem_dropTrailing {rest : List Text} {part : Text} (h : part ∈ dropTrailing rest) :
    part ∈ rest := by
  rw [dropTrailing, List.mem_reverse] at h
  exact List.mem_reverse.1 ((List.dropWhile_sublist _).mem h)

/-- A part of a path made of parts is empty or one of them. -/
theorem mem_pieces_ofParts {isRooted : Bool} {first : Text} {rest : List Text}
    (h : ∀ s ∈ first :: rest, '/' ∉ s) {part : Text}
    (hpart : part ∈ pieces '/' (ofParts isRooted first rest).text) :
    part = [] ∨ part ∈ first :: rest := by
  rw [ofParts] at hpart
  split at hpart
  · exact Or.inl (by simpa [pieces] using hpart)
  · rw [Text.pieces_joined h (List.cons_ne_nil _ _)] at hpart
    exact Or.inr hpart

/-- **The parent of a path has no parts of its own.** -/
theorem mem_pieces_parent? {p parent : Path} (h : p.parent? = some parent) {part : Text}
    (hpart : part ∈ pieces '/' parent.text) : part = [] ∨ part ∈ pieces '/' p.text := by
  cases hpieces : pieces '/' p.text with
  | nil => exact absurd hpieces (Text.pieces_ne_nil _ _)
  | cons first rest =>
    have hslash : ∀ s ∈ first :: rest, '/' ∉ s := by
      intro s hs
      rw [← hpieces] at hs
      exact Text.notMem_of_mem_pieces hs
    rw [parent?, parts, hpieces] at h
    dsimp only at h
    split at h
    · split at h
      · cases h
      · obtain rfl := Option.some.inj h
        exact Or.inl (by simpa [pieces] using hpart)
    · rename_i last before hdrop
      obtain rfl := Option.some.inj h
      -- what is left of the parts after the first are some of them
      have hbefore : ∀ s ∈ first :: dropTrailing before.reverse, s ∈ first :: rest := by
        intro s hs
        rcases List.mem_cons.1 hs with rfl | hs
        · exact List.mem_cons_self
        · have hrest : s ∈ (dropTrailing rest).reverse := by
            rw [hdrop]
            exact List.mem_cons_of_mem _ (List.mem_reverse.1 (mem_of_mem_dropTrailing hs))
          exact List.mem_cons_of_mem _ (mem_of_mem_dropTrailing (List.mem_reverse.1 hrest))
      rcases mem_pieces_ofParts (fun s hs => hslash s (hbefore s hs)) hpart with hnil | hmem
      · exact Or.inl hnil
      · exact Or.inr (hbefore _ hmem)

end Path

end StyleLift
