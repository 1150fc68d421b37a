import Mathlib.Data.List.Infix
import Mathlib.Data.List.TakeWhile
import StyleLift.Proofs.Stylesheet.Flags
import StyleLift.Proofs.Text.Cuts
import StyleLift.Value

/-!
# Spellings of image references

The same image can be referred to as `url(a.png)`, `URL( "a.png" )` or `Url('a.png' )`.  All of these
are one reference: the word in any case, blanks inside the parentheses, and the path between two
quotation marks of one sort or none.  What is found in them is the path, and it is found whatever
else the path holds, blanks, parentheses that open, dots, a query or a fragment included.

Other rules come before that for images and could take the value away.  All but one of them look at
how it begins, and it begins with the word; the one that is left looks for `gradient`, and this word
can neither begin before the path nor end behind it.

* `UrlForm`, `UrlForm.write`: a way to write a reference, and a path written that way.
* `IsLocalImage`: the paths that are found in references.
* `kind_eq_image_iff`: a value is an image if no other rule takes it and a path is found in it.
* `UrlForm.kind_write`, `UrlForm.token_write`: a path that is written is found.
* `exists_of_urlBody?`, `isLocalImage_of_kind`: what is found in a form.
* `url_spelling`: **all forms of a path are the same image, and no other paths are found in forms.**
-/

namespace StyleLift

/-! ## Words inside a text -/

namespace Text

theorem contains_iff {needle s : Text} : contains needle s = true ↔ needle <:+: s := by
  induction s with
  | nil => rw [contains, List.isEmpty_iff, List.infix_nil]
  | cons c s ih => rw [contains, Bool.or_eq_true, isSome_after?_iff, ih, List.infix_cons_iff]

/-- A word does not begin where its first character does not stand. -/
theorem isInfix_of_append_left {c : Char} {word front s : Text} (hc : c ∉ front)
    (h : c :: word <:+: front ++ s) : c :: word <:+: s := by
  induction front with
  | nil => exact h
  | cons d front ih =>
    rw [List.mem_cons, not_or] at hc
    rcases List.infix_cons_iff.1 h with hstart | hrest
    · exact absurd (List.cons_prefix_cons.1 hstart).1 hc.1
    · exact ih hc.2 hrest

/-- A word does not end where its last character does not stand. -/
theorem isInfix_of_append_right {c : Char} {word s tail : Text} (hc : c ∉ tail)
    (h : word ++ [c] <:+: s ++ tail) : word ++ [c] <:+: s := by
  rw [← List.reverse_infix, List.reverse_append, List.reverse_append] at h
  rw [← List.reverse_infix, List.reverse_append]
  exact isInfix_of_append_left (by simpa using hc) h

theorem notMem_of_isBlankText {s : Text} (h : isBlankText s = true) {c : Char}
    (hc : isBlank c = false) : c ∉ s := by
  intro hmem
  rw [isBlank_of_mem h hmem] at hc
  cases hc

end Text

namespace Value

/-! ## Paths and forms -/

/-- The path of an image on this host as it can stand in `url(…)`: without blanks around it, marks
that would end it, or the word that makes a value a gradient. -/
structure IsLocalImage (p : Text) : Prop where
  ne_nil : p ≠ []
  trimmed : Text.trim p = p
  unmarked : ∀ c ∈ p, c ≠ '\'' ∧ c ≠ '"' ∧ c ≠ ')'
  not_gradient : ¬ "gradient".toList <:+: p
  not_data : ¬ "data:".toList <+: p
  not_host : ¬ "//".toList <+: p
  not_scheme : ¬ "://".toList <:+: p
  /-- What stands before a query or fragment ends in a dot and an extension of images. -/
  extension : ∃ e ∈ imageExtensions, '.' :: e <:+ Text.lower (withoutQuery p)

/-- A way to write `url(…)`: the word in some case, the blanks behind the first and before the last
parenthesis, and what stands on either side of the path. -/
structure UrlForm where
  word : Text
  left : Text
  mark : Text
  right : Text
  word_eq : Text.lower word = "url".toList
  left_blank : Text.isBlankText left = true
  mark_mem : mark ∈ [[], ['\''], ['"']]
  right_blank : Text.isBlankText right = true

namespace UrlForm

/-- What stands between the parentheses. -/
def body (form : UrlForm) (p : Text) : Text :=
  form.left ++ (form.mark ++ p ++ form.mark) ++ form.right

/-- A path written in a form. -/
def write (form : UrlForm) (p : Text) : Text := form.word ++ '(' :: form.body p ++ [')']

end UrlForm

/-- A value in the form of `url(…)`, whatever stands between the parentheses. -/
def IsUrl (value : Text) : Prop :=
  ∃ word inner, Text.lower word = "url".toList ∧ Text.trim value = word ++ '(' :: inner ++ [')']

/-! ## The rules for images -/

/-- **A value is an image** if none of the rules that come before takes it, and a path is found in
it. -/
theorem kind_eq_image_iff {value p : Text} :
    kind value = .image p ↔
      (∀ c ∈ (Text.trim value).head?, isQuote c = false ∧ c ≠ sigil) ∧
        ¬ "gradient".toList <:+: Text.trim value ∧
        Text.lower (Text.trim value) ≠ "transparent".toList ∧
        imagePath? (Text.trim value) = some p := by
  have hnil : imagePath? [] ≠ some p := by
    have hnone : imagePath? [] = none := rfl
    rw [hnone]
    exact nofun
  rw [kind, ← Text.contains_iff, Bool.not_eq_true]
  simp only [Text.sameIgnoringCase, beq_iff_eq]
  rw [show Text.lower "transparent".toList = "transparent".toList from rfl]
  generalize Text.trim value = s, "gradient".toList = gradient, "transparent".toList = transparent
  cases s with
  | nil => simp [hnil]
  | cons c s =>
    dsimp only
    split_ifs with hquote hsigil hgradient hsame
    · simp [hquote]
    · simp [hsigil]
    · simp [hgradient]
    · simp [hsame]
    · cases himage : imagePath? (c :: s) with
      | none => simp
      | some q => simp [hquote, hsigil, hgradient, hsame]

/-- The reference of a value that is an image is an image path. -/
theorem isImagePath_of_kind {value reference : Text} (h : kind value = .image reference) :
    isImagePath reference = true :=
  (Option.filter_eq_some_iff.1 (kind_eq_image_iff.1 h).2.2.2).2

theorem isRemote_eq_false_iff {p : Text} :
    isRemote p = false ↔
      ¬ "data:".toList <+: p ∧ ¬ "://".toList <:+: p ∧ ¬ "//".toList <+: p := by
  rw [isRemote, Bool.or_eq_false_iff, Bool.or_eq_false_iff, ← Text.isSome_after?_iff,
    ← Text.contains_iff, ← Text.isSome_after?_iff, Bool.not_eq_true, Bool.not_eq_true,
    Bool.not_eq_true, and_assoc]

/-- The extension is what follows the last dot, so a text that ends in a dot and an extension has
it. -/
theorem extension?_eq_some_iff {p e : Text} (hdot : '.' ∉ e) :
    extension? p = some e ↔ '.' :: e <:+ Text.lower (withoutQuery p) := by
  rw [extension?, Option.map_eq_some_iff]
  constructor
  · rintro ⟨⟨stem, written⟩, hsplit, rfl⟩
    obtain ⟨heq, -⟩ := Text.eq_append_of_splitLast? hsplit
    refine ⟨Text.lower stem, ?_⟩
    show Text.lower stem ++ '.' :: Text.lower written = Text.lower (withoutQuery p)
    rw [heq, Text.lower, Text.lower, Text.lower, List.map_append, List.map_cons]
    rfl
  · rintro ⟨front, hfront⟩
    obtain ⟨stem, tail, heq, -, htail⟩ := List.map_eq_append_iff.1 hfront.symm
    obtain ⟨d, written, rfl, hd, rfl⟩ := List.map_eq_cons_iff.1 htail
    obtain rfl : d = '.' := Text.eq_of_toLower_eq (by decide) hd
    have hwritten : '.' ∉ written := fun hmem => hdot (List.mem_map.2 ⟨'.', hmem, rfl⟩)
    exact ⟨(stem, written), by rw [heq, Text.splitLast?_append_cons hwritten], rfl⟩

theorem dot_notMem_of_mem_imageExtensions {e : Text} (h : e ∈ imageExtensions) : '.' ∉ e := by
  have hall : ∀ e ∈ imageExtensions, '.' ∉ e := by decide
  exact hall e h

theorem isImagePath_iff {p : Text} :
    isImagePath p = true ↔
      isRemote p = false ∧ ∃ e ∈ imageExtensions, '.' :: e <:+ Text.lower (withoutQuery p) := by
  rw [isImagePath, Bool.and_eq_true, Bool.not_eq_true']
  refine and_congr_right fun _ => ?_
  constructor
  · intro h
    split at h
    · rename_i e he
      have hmem : e ∈ imageExtensions := by simpa using h
      exact ⟨e, hmem, (extension?_eq_some_iff (dot_notMem_of_mem_imageExtensions hmem)).1 he⟩
    · cases h
  · rintro ⟨e, hmem, hsuffix⟩
    rw [(extension?_eq_some_iff (dot_notMem_of_mem_imageExtensions hmem)).2 hsuffix]
    simpa using hmem

/-! ## The path that is written is found -/

theorem isQuote_iff {c : Char} : isQuote c = true ↔ c = '"' ∨ c = '\'' := by
  rw [isQuote, Bool.or_eq_true, beq_iff_eq, beq_iff_eq]

namespace IsLocalImage

variable {p : Text}

theorem not_isQuote (h : IsLocalImage p) {c : Char} (hc : c ∈ p) : isQuote c = false := by
  rw [← Bool.not_eq_true, isQuote_iff, not_or]
  exact ⟨(h.unmarked c hc).2.1, (h.unmarked c hc).1⟩

theorem isImagePath (h : IsLocalImage p) : isImagePath p = true :=
  isImagePath_iff.2 ⟨isRemote_eq_false_iff.2 ⟨h.not_data, h.not_scheme, h.not_host⟩, h.extension⟩

/-- The conditions as they are computed. -/
theorem iff_computed :
    IsLocalImage p ↔
      p ≠ [] ∧ Text.trim p = p ∧ (p.all fun c => !isQuote c && c != ')') = true ∧
        Text.contains "gradient".toList p = false ∧ Value.isImagePath p = true := by
  have hmarks : (p.all fun c => !isQuote c && c != ')') = true ↔
      ∀ c ∈ p, c ≠ '\'' ∧ c ≠ '"' ∧ c ≠ ')' := by
    simp only [List.all_eq_true, Bool.and_eq_true, Bool.not_eq_true', bne_iff_ne,
      ← Bool.not_eq_true, isQuote_iff, not_or]
    exact forall₂_congr fun c _ => ⟨fun h => ⟨h.1.2, h.1.1, h.2⟩, fun h => ⟨⟨h.2.1, h.1⟩, h.2.2⟩⟩
  rw [hmarks, ← Bool.not_eq_true, Text.contains_iff]
  constructor
  · exact fun h => ⟨h.ne_nil, h.trimmed, h.unmarked, h.not_gradient, h.isImagePath⟩
  · rintro ⟨hne, htrim, hunmarked, hgradient, himage⟩
    obtain ⟨hremote, hextension⟩ := isImagePath_iff.1 himage
    obtain ⟨hdata, hscheme, hhost⟩ := isRemote_eq_false_iff.1 hremote
    exact ⟨hne, htrim, hunmarked, hgradient, hdata, hhost, hscheme, hextension⟩

instance (p : Text) : Decidable (IsLocalImage p) := decidable_of_iff _ iff_computed.symm

end IsLocalImage

namespace UrlForm

variable {form : UrlForm} {p : Text}

/-- What stands between the parentheses does not hold another one that closes. -/
theorem parenthesis_notMem_body (hp : ')' ∉ p) : ')' ∉ form.body p := by
  have hmark : ')' ∉ form.mark := by
    have hmarks : ∀ mark ∈ [[], ['\''], ['"']], ')' ∉ mark := by decide
    exact hmarks _ form.mark_mem
  simp only [body, List.mem_append, not_or]
  exact ⟨⟨Text.notMem_of_isBlankText form.left_blank (by decide), ⟨hmark, hp⟩, hmark⟩,
    Text.notMem_of_isBlankText form.right_blank (by decide)⟩

theorem urlBody?_write (hp : ')' ∉ p) : urlBody? (form.write p) = some (form.body p) := by
  have hlead : Text.afterIgnoringCase? "url(".toList (form.write p) =
      some (form.body p ++ [')']) := by
    refine Stylesheet.afterIgnoringCase?_eq_some_iff.2 ⟨form.word ++ ['('], ?_, ?_⟩
    · simp [write]
    · rw [Text.lower, List.map_append, ← Text.lower, form.word_eq]
      rfl
  have hclosed : ')' ∉ form.body p := parenthesis_notMem_body hp
  rw [urlBody?, hlead, Option.bind_eq_bind, Option.bind_some, List.reverse_append]
  simpa using hclosed

/-- Without quotation marks, the path ends where the blanks begin. -/
theorem unquoted?_of_bare {left right : Text} (hleft : Text.isBlankText left = true)
    (hright : Text.isBlankText right = true) (h : IsLocalImage p) :
    unquoted? (left ++ p ++ right) = some p := by
  obtain ⟨c, rest, rfl⟩ := List.exists_cons_of_ne_nil h.ne_nil
  have hstart : Text.trimStart (left ++ (c :: rest) ++ right) = c :: (rest ++ right) := by
    rw [List.append_assoc, Text.trimStart_append_of_blank hleft]
    exact Text.trimStart_append_of_ne_nil (Text.trim_eq_self_iff.1 h.trimmed).1 h.ne_nil right
  have hinner : ∀ d ∈ c :: (rest ++ right), (!isQuote d) = true := by
    intro d hd
    rw [← List.cons_append, List.mem_append] at hd
    rcases hd with hd | hd
    · rw [h.not_isQuote hd]
      rfl
    · rw [Bool.not_eq_true', ← Bool.not_eq_true, isQuote_iff]
      rintro (rfl | rfl)
      · exact Text.notMem_of_isBlankText hright (by decide) hd
      · exact Text.notMem_of_isBlankText hright (by decide) hd
  have hc : isQuote c = false := h.not_isQuote List.mem_cons_self
  have htrim : Text.trim (c :: (rest ++ right)) = c :: rest := by
    have hblank : Text.isBlankText [] = true := rfl
    exact Text.trim_append_append hblank hright h.trimmed
  rw [unquoted?, hstart]
  simp only [hc, Bool.false_eq_true, if_false]
  rw [List.dropWhile_eq_nil_iff.2 hinner, List.takeWhile_eq_self_iff.2 hinner, htrim]

/-- Between quotation marks, the path ends where the second one stands. -/
theorem unquoted?_of_quoted {left right : Text} {mark : Char}
    (hleft : Text.isBlankText left = true) (hright : Text.isBlankText right = true)
    (hmark : isQuote mark = true) (h : IsLocalImage p) :
    unquoted? (left ++ ([mark] ++ p ++ [mark]) ++ right) = some p := by
  have hstart : Text.trimStart (left ++ ([mark] ++ p ++ [mark]) ++ right) =
      mark :: (p ++ mark :: right) := by
    rw [List.append_assoc, Text.trimStart_append_of_blank hleft, Text.trimStart,
      List.append_assoc, List.append_assoc, List.singleton_append, List.dropWhile_cons_of_neg]
    · rfl
    · rcases isQuote_iff.1 hmark with rfl | rfl
      · decide
      · decide
  have hp : ∀ d ∈ p, (!isQuote d) = true := by
    intro d hd
    rw [h.not_isQuote hd]
    rfl
  rw [unquoted?, hstart]
  simp only [hmark, if_true]
  rw [List.takeWhile_append_of_pos hp, List.dropWhile_append_of_pos hp,
    List.takeWhile_cons_of_neg (by simp [hmark]), List.dropWhile_cons_of_neg (by simp [hmark]),
    List.append_nil, h.trimmed]
  simp [hright]

/-- **The path that is written is found.** -/
theorem urlPath?_write (h : IsLocalImage p) : urlPath? (form.write p) = some p := by
  have hp : ')' ∉ p := fun hmem => (h.unmarked _ hmem).2.2 rfl
  rw [urlPath?, urlBody?_write hp, Option.bind_some, body]
  have hmark := form.mark_mem
  simp only [List.mem_cons, List.not_mem_nil, or_false] at hmark
  rcases hmark with hmark | hmark | hmark
  · rw [hmark, List.nil_append, List.append_nil]
    exact unquoted?_of_bare form.left_blank form.right_blank h
  · rw [hmark]
    exact unquoted?_of_quoted form.left_blank form.right_blank (by decide) h
  · rw [hmark]
    exact unquoted?_of_quoted form.left_blank form.right_blank (by decide) h

theorem imagePath?_write (h : IsLocalImage p) : imagePath? (form.write p) = some p := by
  rw [imagePath?, urlPath?_write h]
  exact Option.filter_eq_some_iff.2 ⟨rfl, h.isImagePath⟩

/-- A form starts with a letter of its word. -/
theorem exists_write_eq_cons (form : UrlForm) (p : Text) :
    ∃ c rest, form.write p = c :: rest ∧ c.toLower = 'u' := by
  have hword := form.word_eq
  obtain ⟨c, rest, hcons, hc, -⟩ := List.map_eq_cons_iff.1 hword
  exact ⟨c, _, by rw [write, hcons]; rfl, hc⟩

theorem trim_write (form : UrlForm) (p : Text) : Text.trim (form.write p) = form.write p := by
  refine Text.trim_eq_self_iff.2 ⟨Text.trimStart_eq_self_iff.2 ?_, Text.trimEnd_eq_self_iff.2 ?_⟩
  · obtain ⟨c, rest, hwrite, hc⟩ := form.exists_write_eq_cons p
    rw [hwrite]
    rintro d hd
    obtain rfl := Option.some.inj hd
    refine Text.isBlank_eq_false_of_isAlpha (Text.isAlpha_of_isAlpha_toLower ?_)
    rw [hc]
    decide
  · intro c hc
    rw [write, List.getLast?_concat] at hc
    obtain rfl := Option.some.inj hc
    decide

/-- The word that makes a value a gradient can only stand in the path. -/
theorem not_gradient_write (h : IsLocalImage p) : ¬ "gradient".toList <:+: form.write p := by
  intro hpart
  have hmarks : ∀ mark ∈ [[], ['\''], ['"']], 'g' ∉ mark ∧ 't' ∉ mark := by decide
  have hword : 'g' ∉ form.word := by
    intro hmem
    have hlower := List.mem_map_of_mem (f := Char.toLower) hmem
    rw [← Text.lower, form.word_eq] at hlower
    exact absurd hlower (by decide)
  have hfront : 'g' ∉ form.word ++ '(' :: (form.left ++ form.mark) := by
    simp only [List.mem_append, List.mem_cons, not_or]
    exact ⟨hword, by decide, Text.notMem_of_isBlankText form.left_blank (by decide),
      (hmarks _ form.mark_mem).1⟩
  have htail : 't' ∉ form.mark ++ form.right ++ [')'] := by
    simp only [List.mem_append, List.mem_singleton, not_or]
    exact ⟨⟨(hmarks _ form.mark_mem).2, Text.notMem_of_isBlankText form.right_blank (by decide)⟩,
      by decide⟩
  have hwrite : form.write p =
      (form.word ++ '(' :: (form.left ++ form.mark)) ++
        (p ++ (form.mark ++ form.right ++ [')'])) := by
    simp [write, body]
  rw [hwrite] at hpart
  have hbehind : 'g' :: "radient".toList <:+: p ++ (form.mark ++ form.right ++ [')']) :=
    Text.isInfix_of_append_left hfront hpart
  have hpath : "gradien".toList ++ ['t'] <:+: p := Text.isInfix_of_append_right htail hbehind
  exact h.not_gradient hpath

/-- **A path in any form is an image.** -/
theorem kind_write (h : IsLocalImage p) : kind (form.write p) = .image p := by
  obtain ⟨c, rest, hwrite, hc⟩ := form.exists_write_eq_cons p
  rw [kind_eq_image_iff, trim_write]
  refine ⟨?_, not_gradient_write h, ?_, imagePath?_write h⟩
  · rw [hwrite]
    rintro d hd
    obtain rfl := Option.some.inj hd
    refine ⟨?_, ?_⟩
    · rw [← Bool.not_eq_true, isQuote_iff]
      rintro (rfl | rfl)
      · exact absurd hc (by decide)
      · exact absurd hc (by decide)
    · rintro rfl
      exact absurd hc (by decide)
  · intro hlower
    rw [hwrite, Text.lower, List.map_cons, hc] at hlower
    exact absurd (List.cons.inj hlower).1 (by decide)

theorem token_write (h : IsLocalImage p) (property : Text) (known : List Variable) :
    token (form.write p) property known = shorten (imageToken p) := by
  rw [token, fullToken, kind_write h]

end UrlForm

/-! ## What is found is written -/

theorem exists_of_urlBody? {value body : Text} (h : urlBody? value = some body) :
    ∃ front, value = front ++ body ++ [')'] ∧ ')' ∉ body := by
  rw [urlBody?, Option.bind_eq_bind, Option.bind_eq_some_iff] at h
  obtain ⟨rest, hrest, h⟩ := h
  obtain ⟨front, rfl, -⟩ := Stylesheet.afterIgnoringCase?_eq_some_iff.1 hrest
  split at h
  · rename_i inner hinner
    split_ifs at h with hclosed
    obtain rfl := Option.some.inj h
    refine ⟨front, ?_, by simpa using hclosed⟩
    rw [← List.reverse_reverse rest, hinner, List.reverse_cons, List.append_assoc]
  · cases h

/-- What is left behind blanks and at most one quotation mark, from which the path is read. -/
theorem exists_unquoted?_eq (body : Text) :
    ∃ inner, inner <:+ body ∧ unquoted? body =
      match inner.dropWhile fun c => !isQuote c with
      | [] => some (Text.trim (inner.takeWhile fun c => !isQuote c))
      | _ :: rest =>
        if Text.isBlankText rest then some (Text.trim (inner.takeWhile fun c => !isQuote c))
        else none := by
  have hstart : Text.trimStart body <:+ body := List.dropWhile_suffix _
  refine ⟨_, ?_, rfl⟩
  split
  · exact List.nil_suffix
  · rename_i c rest hbody
    rw [hbody] at hstart
    split_ifs
    · exact (List.suffix_cons c rest).trans hstart
    · exact hstart

/-- What is found between quotation marks and blanks has none of these around it, and holds no
quotation mark at all. -/
theorem isInfix_of_unquoted? {body p : Text} (h : unquoted? body = some p) :
    p <:+: body ∧ Text.trim p = p ∧ ∀ c ∈ p, isQuote c = false := by
  obtain ⟨inner, hsuffix, heq⟩ := exists_unquoted?_eq body
  rw [heq] at h
  generalize hcontent : inner.takeWhile (fun c => !isQuote c) = content at h
  obtain rfl : Text.trim content = p := by
    split at h
    · exact Option.some.inj h
    · split_ifs at h
      exact Option.some.inj h
  obtain ⟨b, b', -, -, htrim⟩ := Text.exists_trim content
  have hpart : Text.trim content <:+: content := ⟨b, b', htrim.symm⟩
  refine ⟨?_, Text.trim_trim content, ?_⟩
  · have hbegins : content <+: inner := hcontent ▸ List.takeWhile_prefix _
    exact hpart.trans (hbegins.isInfix.trans hsuffix.isInfix)
  · intro c hc
    have hmem := hpart.subset hc
    rw [← hcontent] at hmem
    simpa using List.mem_takeWhile_imp hmem

/-- What holds a parenthesis is no bare path. -/
theorem isBarePath_eq_false {value : Text} (h : '(' ∈ value) : isBarePath value = false := by
  rw [← Bool.not_eq_true]
  intro hbare
  rw [isBarePath] at hbare
  split at hbare
  · rename_i stem extension hsplit
    obtain ⟨rfl, -⟩ := Text.eq_append_of_splitLast? hsplit
    simp only [Bool.and_eq_true, List.all_eq_true] at hbare
    obtain ⟨⟨⟨-, hstem⟩, -⟩, hextension⟩ := hbare
    rw [List.mem_append, List.mem_cons] at h
    rcases h with h | h | h
    · exact absurd (hstem _ h) (by decide +kernel)
    · exact absurd h (by decide)
    · exact absurd (hextension _ h) (by decide)
  · cases hbare

/-- **The path that is found in `url(…)`** is the path of an image on this host. -/
theorem isLocalImage_of_kind {value p : Text} (hurl : IsUrl value) (h : kind value = .image p) :
    IsLocalImage p := by
  obtain ⟨-, hgradient, -, himage⟩ := kind_eq_image_iff.1 h
  obtain ⟨word, rest, -, hvalue⟩ := hurl
  have hopen : '(' ∈ Text.trim value := by
    rw [hvalue]
    simp
  generalize Text.trim value = trimmed at hgradient himage hopen
  rw [imagePath?, Option.filter_eq_some_iff] at himage
  obtain ⟨hreference, hpath⟩ := himage
  have hfound : urlPath? trimmed = some p := by
    cases hfound : urlPath? trimmed with
    | some q =>
      rw [hfound] at hreference
      exact hreference
    | none =>
      rw [hfound, isBarePath_eq_false hopen] at hreference
      cases hreference
  obtain ⟨body, hbody, hunquoted⟩ := Option.bind_eq_some_iff.1 hfound
  obtain ⟨front, rfl, hclosed⟩ := exists_of_urlBody? hbody
  obtain ⟨hpart, htrim, hquote⟩ := isInfix_of_unquoted? hunquoted
  refine IsLocalImage.iff_computed.2 ⟨?_, htrim, ?_, ?_, hpath⟩
  · rintro rfl
    cases hpath
  · rw [List.all_eq_true]
    intro c hc
    have hne : c ≠ ')' := by
      rintro rfl
      exact hclosed (hpart.subset hc)
    simp [hquote c hc, hne]
  · rw [← Bool.not_eq_true, Text.contains_iff]
    intro hword
    exact hgradient (hword.trans (hpart.trans ⟨front, [')'], rfl⟩))

/-! ## All spellings -/

/-- **The spelling of `url(…)` does not matter.**  In every form, the path of an image on this host is
this image and has the same token; and only such paths are found in values of the form `url(…)`. -/
theorem url_spelling (p : Text) :
    (IsLocalImage p → ∀ form : UrlForm, kind (form.write p) = .image p ∧
      ∀ property known, token (form.write p) property known = shorten (imageToken p)) ∧
    ∀ value, IsUrl value → kind value = .image p → IsLocalImage p :=
  ⟨fun h _ => ⟨UrlForm.kind_write h, fun property known => UrlForm.token_write h property known⟩,
    fun _ hurl hkind => isLocalImage_of_kind hurl hkind⟩

/-- A path with a blank, a parenthesis that opens, several dots, a query and a fragment; and a value
with a quotation mark on one side only. -/
theorem url_spelling_with_query :
    (IsLocalImage "../img (x/Icon.v2.PNG?a=.b#c".toList ∧
      kind "uRL( \"../img (x/Icon.v2.PNG?a=.b#c\"\t)".toList =
        .image "../img (x/Icon.v2.PNG?a=.b#c".toList ∧
      token "uRL( \"../img (x/Icon.v2.PNG?a=.b#c\"\t)".toList "background".toList [] =
        "Icon".toList) ∧
    IsUrl " Url( a.svg' ) ".toList ∧ kind " Url( a.svg' ) ".toList = .image "a.svg".toList ∧
      IsLocalImage "a.svg".toList := by
  have hlocal : IsLocalImage "../img (x/Icon.v2.PNG?a=.b#c".toList := by decide +kernel
  have hurl : IsUrl " Url( a.svg' ) ".toList :=
    ⟨"Url".toList, " a.svg' ".toList, by decide, by decide +kernel⟩
  have hkind : kind " Url( a.svg' ) ".toList = .image "a.svg".toList := by decide +kernel
  obtain ⟨himage, htoken⟩ := (url_spelling _).1 hlocal
    ⟨"uRL".toList, " ".toList, ['"'], "\t".toList, by decide, by decide, by decide, by decide⟩
  refine ⟨⟨hlocal, himage, ?_⟩, hurl, hkind, (url_spelling _).2 _ hurl hkind⟩
  rw [show "Icon".toList = shorten (imageToken "../img (x/Icon.v2.PNG?a=.b#c".toList) by
    decide +kernel]
  exact htoken _ _

end Value

end StyleLift
