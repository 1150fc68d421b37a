import Mathlib.Data.List.Basic
import StyleLift.Json.Reader

/-!
# What JSON texts spell

The grammar of JSON as a relation between values and texts, for the values of this library: objects
with their members in order, arrays, strings, truth values and natural numbers, which are spelled by
their decimal digits.  White space may stand around every token, and a character has all the
spellings that JSON has for it.  The printer chooses one spelling of each value, and every choice it
makes is one that the grammar has.

The three kinds of phrases that lie in each other, values, items and members, are one family, so that
a fact about all of them is one induction.

* `SpellsChar`, `SpellsText`: characters and strings.
* `Spells`: values, items of arrays and members of objects; `IsText`: a whole text.
* `spells_render`, `isText_pretty`: **the printed text of a value spells it.**
-/

namespace StyleLift.Json

/-! ## The grammar -/

/-- White space only. -/
def IsSpaceText (s : Text) : Prop := ∀ c ∈ s, isSpace c = true

/-- A text that stands for one character of a string. -/
inductive SpellsChar : Char → Text → Prop
  /-- Every character but controls, quotes and backslashes stands for itself. -/
  | plain {c : Char} (hcontrol : 0x20 ≤ c.toNat) (hquote : c ≠ '"') (hbackslash : c ≠ '\\') :
      SpellsChar c [c]
  | escape {letter c : Char} (h : simpleEscape? letter = some c) : SpellsChar c ['\\', letter]
  | code {a b c d : Char} {n : Nat} (h : hexFour? a b c d = some n)
      (hleading : isLeadingSurrogate n = false) (htrailing : isTrailingSurrogate n = false) :
      SpellsChar (Char.ofNat n) ['\\', 'u', a, b, c, d]
  | pair {a b c d e f g h : Char} {n m : Nat} (hfirst : hexFour? a b c d = some n)
      (hleading : isLeadingSurrogate n = true) (hsecond : hexFour? e f g h = some m)
      (htrailing : isTrailingSurrogate m = true) :
      SpellsChar (pairChar n m) ['\\', 'u', a, b, c, d, '\\', 'u', e, f, g, h]

/-- A text that stands for the content of a string. -/
inductive SpellsText : Text → Text → Prop
  | nil : SpellsText [] []
  | cons {c : Char} {s t u : Text} (hc : SpellsChar c t) (hs : SpellsText s u) :
      SpellsText (c :: s) (t ++ u)

/-- What a text can spell. -/
inductive Phrase where
  | value (v : Json)
  /-- The items of an array, of which there is at least one. -/
  | items (items : List Json)
  /-- The members of an object, of which there is at least one. -/
  | members (members : List (Text × Json))

/-- A text that spells a phrase.  White space belongs to items and members, not to values. -/
inductive Spells : Phrase → Text → Prop
  | yes : Spells (.value (.bool true)) "true".toList
  | no : Spells (.value (.bool false)) "false".toList
  | number (n : Nat) : Spells (.value (.number n)) (Text.decimal n)
  | string {s t : Text} (h : SpellsText s t) : Spells (.value (.string s)) ('"' :: t ++ ['"'])
  | emptyArray {w : Text} (hw : IsSpaceText w) : Spells (.value (.array [])) ('[' :: w ++ [']'])
  | array {items : List Json} {t : Text} (h : Spells (.items items) t) :
      Spells (.value (.array items)) ('[' :: t ++ [']'])
  | emptyObject {w : Text} (hw : IsSpaceText w) :
      Spells (.value (.object [])) ('{' :: w ++ ['}'])
  | object {members : List (Text × Json)} {t : Text} (h : Spells (.members members) t) :
      Spells (.value (.object members)) ('{' :: t ++ ['}'])
  | lastItem {v : Json} {w t w' : Text} (hw : IsSpaceText w) (h : Spells (.value v) t)
      (hw' : IsSpaceText w') : Spells (.items [v]) (w ++ t ++ w')
  | item {v : Json} {items : List Json} {w t w' u : Text} (hw : IsSpaceText w)
      (h : Spells (.value v) t) (hw' : IsSpaceText w') (hrest : Spells (.items items) u) :
      Spells (.items (v :: items)) (w ++ t ++ w' ++ ',' :: u)
  | lastMember {key : Text} {v : Json} {w k w' x t w'' : Text} (hw : IsSpaceText w)
      (hkey : SpellsText key k) (hw' : IsSpaceText w') (hx : IsSpaceText x)
      (h : Spells (.value v) t) (hw'' : IsSpaceText w'') :
      Spells (.members [(key, v)]) (w ++ '"' :: k ++ '"' :: w' ++ ':' :: x ++ t ++ w'')
  | member {key : Text} {v : Json} {members : List (Text × Json)} {w k w' x t w'' u : Text}
      (hw : IsSpaceText w) (hkey : SpellsText key k) (hw' : IsSpaceText w') (hx : IsSpaceText x)
      (h : Spells (.value v) t) (hw'' : IsSpaceText w'') (hrest : Spells (.members members) u) :
      Spells (.members ((key, v) :: members))
        (w ++ '"' :: k ++ '"' :: w' ++ ':' :: x ++ t ++ w'' ++ ',' :: u)

/-- A whole text: a value with white space around it. -/
def IsText (v : Json) (s : Text) : Prop :=
  ∃ w t w', IsSpaceText w ∧ Spells (.value v) t ∧ IsSpaceText w' ∧ s = w ++ t ++ w'

/-! ## White space -/

theorem isSpaceText_nil : IsSpaceText [] := by simp [IsSpaceText]

theorem isSpaceText_newline (depth : Nat) : IsSpaceText (newline depth) := by
  intro c hc
  rcases List.mem_cons.1 hc with rfl | hc
  · decide
  · rw [(List.mem_replicate.1 hc).2]
    decide

/-! ## Strings -/

theorem hexValue?_hexDigit {n : Nat} (h : n < 16) : hexValue? (hexDigit n) = some n := by
  have hall : ∀ m : Fin 16, hexValue? (hexDigit m) = some m.val := by decide
  exact hall ⟨n, h⟩

/-- A control character is spelled by its number. -/
theorem spellsChar_control {c : Char} (h : c.toNat < 0x20) :
    SpellsChar c ['\\', 'u', '0', '0', hexDigit (c.toNat / 16), hexDigit (c.toNat % 16)] := by
  have hfour : hexFour? '0' '0' (hexDigit (c.toNat / 16)) (hexDigit (c.toNat % 16)) =
      some c.toNat := by
    have hzero : hexValue? '0' = some 0 := by decide
    rw [hexFour?, hzero, hexValue?_hexDigit (by omega), hexValue?_hexDigit (by omega)]
    exact congrArg some (by omega)
  have hleading : isLeadingSurrogate c.toNat = false := by
    simp only [isLeadingSurrogate, Bool.and_eq_false_iff, decide_eq_false_iff_not]
    omega
  have htrailing : isTrailingSurrogate c.toNat = false := by
    simp only [isTrailingSurrogate, Bool.and_eq_false_iff, decide_eq_false_iff_not]
    omega
  have hspells := SpellsChar.code hfour hleading htrailing
  rwa [Char.ofNat_toNat] at hspells

/-- **The printer spells each character.** -/
theorem spellsChar_escapeChar (c : Char) : SpellsChar c (escapeChar c) := by
  unfold escapeChar
  split
  · exact .escape rfl
  · exact .escape rfl
  · exact .escape rfl
  · exact .escape rfl
  · exact .escape rfl
  · exact .escape rfl
  · exact .escape rfl
  · rename_i hquote hbackslash _ _ _ _ _
    split
    · rename_i hcontrol
      exact spellsChar_control hcontrol
    · rename_i hcontrol
      exact .plain (Nat.le_of_not_lt hcontrol) hquote hbackslash

theorem spellsText_escaped (s : Text) : SpellsText s (s.flatMap escapeChar) := by
  induction s with
  | nil => exact .nil
  | cons c s ih =>
    rw [List.flatMap_cons]
    exact .cons (spellsChar_escapeChar c) ih

/-! ## Values -/

mutual

/-- **The printer spells each value,** at every indentation. -/
theorem spells_render (depth : Nat) : ∀ v : Json, Spells (.value v) (render depth v)
  | .bool true => by
    rw [render]
    exact .yes
  | .bool false => by
    rw [render]
    exact .no
  | .number n => by
    rw [render]
    exact .number n
  | .string s => by
    rw [render]
    exact .string (spellsText_escaped s)
  | .array [] => by
    rw [render]
    exact .emptyArray isSpaceText_nil
  | .array (item :: rest) => by
    have hitems := spells_renderItems (depth + 1) (item :: rest) _ (by rw [renderItems]; rfl)
      (isSpaceText_newline depth)
    rw [render]
    have harray := Spells.array hitems
    simpa using harray
  | .object [] => by
    rw [render]
    exact .emptyObject isSpaceText_nil
  | .object (member :: rest) => by
    have hmembers := spells_renderMembers (depth + 1) (member :: rest) _
      (by rw [renderMembers]; rfl) (isSpaceText_newline depth)
    rw [render]
    have hobject := Spells.object hmembers
    simpa using hobject

/-- The printer spells the items of an array, each behind a comma but the first. -/
theorem spells_renderItems (depth : Nat) : ∀ (items : List Json) (t : Text),
    renderItems depth items = ',' :: t → ∀ {w : Text}, IsSpaceText w →
      Spells (.items items) (t ++ w)
  | [], t, ht, w, _ => by
    rw [renderItems] at ht
    cases ht
  | [item], t, ht, w, hw => by
    rw [renderItems, renderItems, List.append_nil] at ht
    obtain rfl := (List.cons.inj ht).2
    exact .lastItem (isSpaceText_newline depth) (spells_render depth item) hw
  | item :: second :: rest, t, ht, w, hw => by
    have hrest := spells_renderItems depth (second :: rest) _ (by rw [renderItems]; rfl) hw
    have hitem := Spells.item (isSpaceText_newline depth) (spells_render depth item)
      isSpaceText_nil hrest
    rw [renderItems, renderItems] at ht
    obtain rfl := (List.cons.inj ht).2
    simpa using hitem

/-- The printer spells the members of an object, each behind a comma but the first. -/
theorem spells_renderMembers (depth : Nat) : ∀ (members : List (Text × Json)) (t : Text),
    renderMembers depth members = ',' :: t → ∀ {w : Text}, IsSpaceText w →
      Spells (.members members) (t ++ w)
  | [], t, ht, w, _ => by
    rw [renderMembers] at ht
    cases ht
  | [(key, value)], t, ht, w, hw => by
    have hblank : IsSpaceText [' '] := by simp [IsSpaceText, isSpace]
    have hmember := Spells.lastMember (isSpaceText_newline depth) (spellsText_escaped key)
      isSpaceText_nil hblank (spells_render depth value) hw
    rw [renderMembers, renderMembers, renderMember, quote] at ht
    obtain rfl := (List.cons.inj ht).2
    simpa using hmember
  | (key, value) :: second :: rest, t, ht, w, hw => by
    have hblank : IsSpaceText [' '] := by simp [IsSpaceText, isSpace]
    have hrest := spells_renderMembers depth (second :: rest) _ (by rw [renderMembers]; rfl) hw
    have hmember := Spells.member (isSpaceText_newline depth) (spellsText_escaped key)
      isSpaceText_nil hblank (spells_render depth value) isSpaceText_nil hrest
    rw [renderMembers, renderMembers, renderMember, quote] at ht
    obtain rfl := (List.cons.inj ht).2
    simpa using hmember

end

/-- **The printed text of a value spells it,** also with a line break behind it. -/
theorem isText_pretty (v : Json) : IsText v (v.pretty ++ ['\n']) :=
  ⟨[], v.pretty, ['\n'], isSpaceText_nil, spells_render 0 v, by simp [IsSpaceText, isSpace], rfl⟩

end StyleLift.Json
