import StyleLift.Proofs.Image.DataUrl
import StyleLift.Proofs.Value.UrlForms

/-!
# The type of an inlined image

An image is recognised by what follows the last dot of its reference, and its data URL names the type
by the extension of its path.  These are two readings of one text.  Directories with dots, queries,
`..` and absolute references do not divide them: whatever the reference is joined to, its last name
stays the last name of the path, and a separator cannot stand in an extension of images.

They part where the reference has nothing before the dot but a separator.  For a path a dot at the
start of a name does not begin an extension, so `icons/.png` is an image without a type.

* `Value.hasStem`: a name before the dot.
* `Path.getLast?_pieces_of_extension`: the last name of a reference with an extension.
* `extension?_assetPath`: the extension of the file that a reference leads to.
* `dataUrl_carries_type`: **the data URL carries the type by which the image was recognised exactly if
  there is a name before the dot**; and one that does not (`dataUrl_without_type`).
-/

namespace StyleLift

/-- Whether a name, and not just a separator or nothing, stands before the last dot of a reference. -/
def Value.hasStem (reference : Text) : Bool :=
  ((Text.splitLast? '.' (withoutQuery reference)).bind fun cut => cut.1.getLast?).any (· != '/')

/-! ## The last name of a reference -/

namespace Path

/-- The last part of a text that ends in a dot and an extension: all behind the last separator. -/
theorem getLast?_pieces_of_extension (stem : Text) {e : Text} (hslash : '/' ∉ e) :
    (stem.getLast?.any (· != '/') = false ∧
        (Text.pieces '/' (stem ++ '.' :: e)).getLast? = some ('.' :: e)) ∨
      (stem.getLast?.any (· != '/') = true ∧
        ∃ name, name ≠ [] ∧
          (Text.pieces '/' (stem ++ '.' :: e)).getLast? = some (name ++ '.' :: e)) := by
  have hdot : '/' ∉ '.' :: e := by
    rw [List.mem_cons, not_or]
    exact ⟨by decide, hslash⟩
  rcases List.eq_nil_or_concat' stem with rfl | ⟨front, c, rfl⟩
  · refine Or.inl ⟨rfl, ?_⟩
    rw [List.nil_append, Text.pieces_of_notMem hdot]
    rfl
  · rw [List.getLast?_concat, List.append_assoc, List.singleton_append]
    by_cases hc : c = '/'
    · subst hc
      refine Or.inl ⟨rfl, ?_⟩
      rw [Text.pieces_append_cons, Text.pieces_of_notMem hdot, List.getLast?_concat]
    · have hrest : '/' ∉ c :: '.' :: e := by
        rw [List.mem_cons, not_or]
        exact ⟨Ne.symm hc, hdot⟩
      obtain ⟨name, hname⟩ := Text.exists_getLast?_pieces hrest front
      refine Or.inr ⟨by simpa using hc, name ++ [c], by simp, ?_⟩
      rw [hname, List.append_assoc, List.singleton_append]

end Path

/-! ## The file that a reference leads to -/

namespace Image

/-- **The extension of the file that a reference leads to** is that of the reference, if there is a
name before it, and else there is none. -/
theorem extension?_assetPath (source : Path) {reference stem e : Text}
    (href : Value.withoutQuery reference = stem ++ '.' :: e) (hdot : '.' ∉ e) (hne : e ≠ [])
    (hslash : '/' ∉ e) :
    (assetPath source reference).extension? =
      if Value.hasStem reference then some e else none := by
  have hstem : Value.hasStem reference = stem.getLast?.any (· != '/') := by
    rw [Value.hasStem, href, Text.splitLast?_append_cons hdot]
    rfl
  have hlast : (Text.pieces '/' (assetPath source reference).text).getLast? =
      (Text.pieces '/' (stem ++ '.' :: e)).getLast? := by
    rw [assetPath, Path.getLast?_pieces_join, href]
  -- no name that ends in the extension is one of the special parts
  have hfile : ∀ name, Path.IsFileName (name ++ '.' :: e) := by
    intro name
    obtain ⟨c, hc⟩ := List.exists_mem_of_ne_nil e hne
    refine .of_mem (List.mem_append_right _ (List.mem_cons_of_mem _ hc)) ?_
    rintro rfl
    exact hdot hc
  rw [hstem]
  rcases Path.getLast?_pieces_of_extension stem hslash with
    ⟨hhidden, hpiece⟩ | ⟨hnamed, name, hname, hpiece⟩
  · have hdotfile := (hfile []).fileName? (hlast.trans hpiece)
    rw [hhidden, Path.extension?, hdotfile, Option.bind_some, Text.splitLast?_append_cons hdot]
    rfl
  · have hfileName := (hfile name).fileName? (hlast.trans hpiece)
    rw [hnamed, Path.extension?_of_fileName? hfileName hname hdot]
    rfl

/-- What a data URL has in the place of the type is the extension of the path in lower case. -/
theorem dataUrl_eq_iff {path : Path} {encoded e : Text} :
    dataUrl path encoded =
        "url(data:image/".toList ++ e ++ ";base64,".toList ++ encoded ++ ")".toList ↔
      Text.lower (path.extension?.getD []) = e := by
  unfold dataUrl
  rw [List.append_left_inj, List.append_left_inj, List.append_left_inj, List.append_right_inj]

/-- **The data URL carries the type by which the image was recognised,** exactly if there is a name
before the extension. -/
theorem dataUrl_carries_type {value reference : Text} (h : Value.kind value = .image reference)
    (source : Path) (encoded : Text) :
    ∃ e ∈ Value.imageExtensions, e ≠ [] ∧ Value.extension? reference = some e ∧
      (dataUrl (assetPath source reference) encoded =
          "url(data:image/".toList ++ e ++ ";base64,".toList ++ encoded ++ ")".toList ↔
        Value.hasStem reference = true) := by
  obtain ⟨stem, e, href, hdot, hext⟩ := exists_of_isImagePath (Value.isImagePath_of_kind h)
  have hall : ∀ w ∈ Value.imageExtensions, w ≠ [] ∧ '/' ∉ w := by decide
  obtain ⟨hne, hslash⟩ := hall _ hext
  refine ⟨Text.lower e, hext, hne, ?_, ?_⟩
  · rw [Value.extension?, href, Text.splitLast?_append_cons hdot]
    rfl
  · have hwritten : e ≠ [] := by
      rintro rfl
      exact hne rfl
    have hslash' : '/' ∉ e := fun hmem => hslash (List.mem_map.2 ⟨'/', hmem, rfl⟩)
    rw [dataUrl_eq_iff, extension?_assetPath source href hdot hwritten hslash']
    cases Value.hasStem reference with
    | true => simp
    | false => simpa [Text.lower] using hwritten

/-- A reference with dots in a directory, a query and a capital extension. -/
theorem dataUrl_carries_type_with_query :
    Value.kind "url('../v1.2/logo.SVG?x=.png#y')".toList = .image "../v1.2/logo.SVG?x=.png#y".toList ∧
      dataUrl (assetPath (.ofString "/p/a.css") "../v1.2/logo.SVG?x=.png#y".toList) "QQ==".toList =
        "url(data:image/svg;base64,QQ==)".toList := by
  have hkind : Value.kind "url('../v1.2/logo.SVG?x=.png#y')".toList =
      .image "../v1.2/logo.SVG?x=.png#y".toList := by decide +kernel
  obtain ⟨e, -, -, he, hurl⟩ := dataUrl_carries_type hkind (.ofString "/p/a.css") "QQ==".toList
  obtain rfl : "svg".toList = e := Option.some.inj (he ▸ by decide +kernel)
  exact ⟨hkind, hurl.2 (by decide +kernel)⟩

/-- A file whose name is a dot and an extension is recognised as an image, and its data URL carries no
type. -/
theorem dataUrl_without_type :
    Value.kind "url(.png)".toList = .image ".png".toList ∧
      Value.extension? ".png".toList = some "png".toList ∧
      dataUrl (assetPath (.ofString "/p/a.css") ".png".toList) "UE5H".toList =
        "url(data:image/;base64,UE5H)".toList := by
  decide +kernel

end Image

end StyleLift
