import StyleLift.Image
import StyleLift.Proofs.Path.Names
import StyleLift.Proofs.Stylesheet.Grammar

/-!
# Data URLs are readable values

A data URL holds a semicolon, slashes and text that comes from a file name and from the contents
of a file.  It is a value all the same: the extension is one by which images are recognised, or
nothing at all, the encoded bytes are letters, digits, `+`, `/` and `=`, and everything stands in
parentheses.

* `isAlphanum_extension_assetPath`: what the extension is made of.
* `Text.mem_base64`: what the encoded bytes are made of.
* `isReadable_dataUrl`: the result.
-/

namespace StyleLift

open Stylesheet

/-! ## Images -/

/-- An image path ends in a dot and an extension of images. -/
theorem exists_of_isImagePath {reference : Text} (h : Value.isImagePath reference = true) :
    ∃ stem e, Value.withoutQuery reference = stem ++ '.' :: e ∧ '.' ∉ e ∧
      Text.lower e ∈ Value.imageExtensions := by
  rw [Value.isImagePath, Bool.and_eq_true] at h
  have hext := h.2
  cases hsplit : Text.splitLast? '.' (Value.withoutQuery reference) with
  | none => simp [Value.extension?, hsplit] at hext
  | some parts =>
    obtain ⟨stem, e⟩ := parts
    obtain ⟨heq, hdot⟩ := Text.eq_append_of_splitLast? hsplit
    refine ⟨stem, e, heq, hdot, ?_⟩
    simpa [Value.extension?, hsplit] using hext

/-- The extension of an image is one of letters and digits, or missing. -/
theorem isAlphanum_extension_assetPath (source : Path) {reference : Text}
    (h : Value.isImagePath reference = true) :
    ∀ c ∈ Text.lower ((Image.assetPath source reference).extension?.getD []),
      c.isAlphanum = true := by
  obtain ⟨stem, e, href, hdot, hext⟩ := exists_of_isImagePath h
  have hall : ∀ w ∈ Value.imageExtensions, w.all Char.isAlphanum = true := by decide
  have hne : e ≠ [] := by
    rintro rfl
    exact absurd hext (by decide)
  have hslash : '/' ∉ e := by
    intro hmem
    exact absurd (List.all_eq_true.1 (hall _ hext) _ (List.mem_map_of_mem hmem)) (by decide)
  obtain ⟨front, htext⟩ :=
    (source.parent?.getD ⟨[]⟩).exists_text_join (Value.withoutQuery reference)
  rw [href, ← List.append_assoc, ← href] at htext
  intro c hc
  rw [Image.assetPath] at hc
  rcases Path.extension?_of_text_eq htext hne hdot hslash with hnone | hsome
  · rw [hnone] at hc
    simp [Text.lower] at hc
  · rw [hsome] at hc
    exact List.all_eq_true.1 (hall _ hext) c hc

/-- What is written in Base64 is written in its alphabet and `=`. -/
theorem Text.mem_base64 {bytes : List UInt8} {c : Char} (hc : c ∈ Text.base64 bytes) :
    c ∈ '=' :: Text.base64Alphabet := by
  have hdigit : ∀ n, Text.base64Digit n ∈ '=' :: Text.base64Alphabet := by
    intro n
    rw [Text.base64Digit, List.getD_eq_getElem?_getD]
    cases hget : Text.base64Alphabet[n % 64]? with
    | none => exact List.mem_cons_self
    | some d => exact List.mem_cons_of_mem _ (List.mem_of_getElem? hget)
  fun_induction Text.base64 bytes with
  | case1 => simp at hc
  | case2 a n =>
    simp only [List.mem_cons, List.not_mem_nil, or_false] at hc
    rcases hc with rfl | rfl | rfl | rfl
    · exact hdigit _
    · exact hdigit _
    · exact List.mem_cons_self
    · exact List.mem_cons_self
  | case3 a b n =>
    simp only [List.mem_cons, List.not_mem_nil, or_false] at hc
    rcases hc with rfl | rfl | rfl | rfl
    · exact hdigit _
    · exact hdigit _
    · exact hdigit _
    · exact List.mem_cons_self
  | case4 a b d rest n ih =>
    simp only [List.mem_cons] at hc
    rcases hc with rfl | rfl | rfl | rfl | hc
    · exact hdigit _
    · exact hdigit _
    · exact hdigit _
    · exact hdigit _
    · exact ih hc

/-- **The data URL of an image is a value.** -/
theorem isReadable_dataUrl (source : Path) {reference encoded : Text}
    (h : Value.isImagePath reference = true)
    (hencoded : ∀ c ∈ encoded, c ∈ '=' :: Text.base64Alphabet) :
    IsReadable .css (Image.dataUrl (Image.assetPath source reference) encoded) := by
  have hextension := isAlphanum_extension_assetPath source h
  generalize hpath : Image.assetPath source reference = path at hextension
  have hinert : ∀ c ∈ "data:image/".toList ++ Text.lower (path.extension?.getD []) ++
      ";base64,".toList ++ encoded, isInert c = true := by
    intro c hc
    simp only [List.mem_append] at hc
    rcases hc with ((hc | hc) | hc) | hc
    · exact List.all_eq_true.1 (by decide : "data:image/".toList.all isInert = true) c hc
    · exact isInert_of_isAlphanum (hextension c hc)
    · exact List.all_eq_true.1 (by decide : ";base64,".toList.all isInert = true) c hc
    · exact List.all_eq_true.1 (by decide : ('=' :: Text.base64Alphabet).all isInert = true) c
        (hencoded c hc)
  have hurl : Image.dataUrl path encoded = 'u' :: 'r' :: 'l' :: '(' ::
      ("data:image/".toList ++ Text.lower (path.extension?.getD []) ++
      ";base64,".toList ++ encoded ++ [')']) := rfl
  have hlast : (Image.dataUrl path encoded).getLast? = some ')' := List.getLast?_concat
  refine ⟨settles_of_isClosed ?_, ?_, by simp [hurl], ?_⟩
  · have hinside := isClosed_append_of_inert 0 hinert [')'] (by decide)
    rw [hurl]
    simpa [isClosed, isHarmless] using hinside
  · refine Text.trim_eq_self_iff.2 ⟨Text.trimStart_eq_self_iff.2 ?_, Text.trimEnd_eq_self_iff.2 ?_⟩
    · intro c hc
      obtain rfl := Option.some.inj hc
      decide
    · intro c hc
      obtain rfl := Option.some.inj (hlast.symm.trans hc)
      decide
  · intro hflag
    obtain ⟨c, hc, hword⟩ := hflag.exists_getLast?
    obtain rfl := Option.some.inj (hlast.symm.trans hc)
    exact absurd hword (by decide)

end StyleLift
