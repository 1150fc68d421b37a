import StyleLift.Proofs.Text.Ascii
import StyleLift.Proofs.Text.Bytes
import StyleLift.Value

/-!
# The characters of tokens

A value may be any text, but its token goes into the name of a variable and is cut after a number of
bytes.  Both are safe because of what a token is made of: every rule either selects ASCII letters and
digits, or replaces all others by hyphens, or stops at the first character that cannot stand in the
name of a preprocessor variable.  Each such character is one byte, so a place between two bytes is one
between two characters, wherever the cut falls.

* `IsTokenText`: ASCII letters, digits, hyphens and underscores only.
* `isTokenText_fullToken`: **a token is made of these, whatever the value, property and variables.**
* `byteLength_token`, `isValid_cut`, `extract_cut`: a token is cut between two characters, and what is
  left are as many bytes as fit.
-/

namespace StyleLift

/-- Made of ASCII letters, digits, hyphens and underscores. -/
def IsTokenText (s : Text) : Prop := ∀ c ∈ s, Value.isReferenceChar c = true

namespace IsTokenText

theorem nil : IsTokenText [] := by simp [IsTokenText]

theorem append {s t : Text} (hs : IsTokenText s) (ht : IsTokenText t) : IsTokenText (s ++ t) :=
  List.forall_mem_append.2 ⟨hs, ht⟩

theorem of_subset {s t : Text} (ht : IsTokenText t) (h : s ⊆ t) : IsTokenText s :=
  fun c hc => ht c (h hc)

theorem of_alphanum {s : Text} (h : ∀ c ∈ s, c.isAlphanum = true) : IsTokenText s := by
  intro c hc
  rw [Value.isReferenceChar, h c hc]
  rfl

/-- Each character is one byte. -/
theorem byteLength_eq {s : Text} (h : IsTokenText s) : s.byteLength = s.length := by
  induction s with
  | nil => rfl
  | cons c s ih =>
    have hbyte : c.utf8Size = 1 := by
      have hc := h c List.mem_cons_self
      rw [Value.isReferenceChar, Bool.or_eq_true, Bool.or_eq_true, Text.isAlphanum_iff,
        beq_iff_eq, beq_iff_eq] at hc
      rw [Char.utf8Size_eq_one_iff, UInt32.le_iff_toNat_le]
      rcases hc with (hc | rfl) | rfl
      · show c.toNat ≤ 127
        omega
      · decide
      · decide
    rw [Text.byteLength, hbyte, ih fun d hd => h d (List.mem_cons_of_mem _ hd), List.length_cons,
      Nat.add_comm]

end IsTokenText

namespace Value

/-! ## The rules -/

theorem isTokenText_alphanumerics (s : Text) : IsTokenText (Text.alphanumerics s) :=
  .of_alphanum fun _ hc => (List.mem_filter.1 hc).2

theorem isTokenText_hyphenated (s : Text) : IsTokenText (hyphenated s) := by
  intro c hc
  obtain ⟨d, -, rfl⟩ := List.mem_map.1 hc
  split
  · rename_i hd
    rw [isReferenceChar, hd]
    rfl
  · decide

theorem isTokenText_referenceToken (rest property : Text) (known : List Variable) :
    IsTokenText (referenceToken rest property known) := by
  rw [referenceToken]
  split
  · exact isTokenText_alphanumerics _
  · exact List.all_eq_true.1 List.all_takeWhile

theorem gradientShape?_mem {s shape : Text} (h : gradientShape? s = some shape) :
    shape ∈ gradientShapes := by
  induction s with
  | nil => simp [gradientShape?] at h
  | cons c s ih =>
    rw [gradientShape?] at h
    split at h
    · rename_i found hfound
      obtain rfl := Option.some.inj h
      exact List.mem_of_find?_eq_some hfound
    · exact ih h

theorem isTokenText_gradientToken (value : Text) : IsTokenText (gradientToken value) := by
  rw [gradientToken]
  refine .append ?_ ?_
  · cases hshape : gradientShape? value with
    | none =>
      have hword : "gradient".toList.all Char.isAlphanum = true := by decide
      exact .of_alphanum (List.all_eq_true.1 hword)
    | some shape =>
      have hshapes : ∀ w ∈ gradientShapes, w.all Char.isAlphanum = true := by decide
      exact .of_alphanum (List.all_eq_true.1 (hshapes shape (gradientShape?_mem hshape)))
  · intro c hc
    obtain ⟨colour, -, hc⟩ := List.mem_flatMap.1 hc
    exact isTokenText_alphanumerics colour c hc

/-- **A token is made of ASCII letters, digits, hyphens and underscores,** also before it is cut. -/
theorem isTokenText_fullToken (value property : Text) (known : List Variable) :
    IsTokenText (fullToken value property known) := by
  rw [fullToken]
  split
  · exact isTokenText_hyphenated _
  · exact isTokenText_referenceToken _ _ _
  · exact isTokenText_gradientToken _
  · exact .nil
  · exact isTokenText_alphanumerics _
  · exact isTokenText_alphanumerics _

theorem isTokenText_token (value property : Text) (known : List Variable) :
    IsTokenText (token value property known) :=
  (isTokenText_fullToken value property known).of_subset (List.take_subset _ _)

/-! ## The cut -/

/-- **A token is as many bytes as fit.** -/
theorem byteLength_token (value property : Text) (known : List Variable) :
    (token value property known).byteLength =
      min maxTokenLength (fullToken value property known).byteLength := by
  rw [(isTokenText_token value property known).byteLength_eq,
    (isTokenText_fullToken value property known).byteLength_eq, token, shorten, List.length_take]

/-- **The cut falls between two characters.** -/
theorem isValid_cut (value property : Text) (known : List Variable) :
    (⟨min maxTokenLength (fullToken value property known).byteLength⟩ : String.Pos.Raw).IsValid
      (String.ofList (fullToken value property known)) := by
  rw [← byteLength_token]
  exact Text.isValid_bytePosition (fullToken value property known) maxTokenLength

/-- The bytes before the cut are those of the token. -/
theorem extract_cut (value property : Text) (known : List Variable) :
    String.Pos.Raw.extract (String.ofList (fullToken value property known)) ⟨0⟩
        ⟨min maxTokenLength (fullToken value property known).byteLength⟩ =
      String.ofList (token value property known) := by
  rw [← byteLength_token]
  exact Text.extract_bytePosition (s := fullToken value property known)
    (Nat.zero_le maxTokenLength)

end Value

end StyleLift
