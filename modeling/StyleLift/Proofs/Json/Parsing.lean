import Mathlib.Data.List.DropRight
import StyleLift.Json.Parser
import StyleLift.Proofs.Json.Spelling

/-!
# The parser reads what JSON texts spell

`Json.parse?` finds the value of every text of the grammar, whatever white space it has and however
its characters are spelled.  As a function has one answer, no text spells two values; and as the
printer spells its values, parsing undoes printing (`parse?_pretty`).

A phrase is read with as much fuel as it has characters, one more for the items and members, which
look for their value without taking a character.  What follows a value may be anything but a digit,
which would make a number longer; in a text that is always so, as a value ends at white space, at a
comma, at a bracket or with the text.

* `stringBody_of_spellsText`, `takeNumber?_decimal`: strings and numbers.
* `takes_of_spells`: **every phrase is read,** by induction on its spelling.
* `parse?_of_isText`: whole texts; `eq_of_isText`: a text spells one value.
-/

namespace StyleLift.Json

/-! ## White space -/

theorem skipSpace_append {w : Text} (hw : IsSpaceText w) (s : Text) :
    skipSpace (w ++ s) = skipSpace s :=
  List.dropWhile_append_of_pos hw

theorem skipSpace_cons {c : Char} (h : isSpace c = false) (s : Text) :
    skipSpace (c :: s) = c :: s :=
  List.dropWhile_cons_of_neg (by simp [h])

theorem skipSpace_append_cons {w : Text} (hw : IsSpaceText w) {c : Char} (h : isSpace c = false)
    (s : Text) : skipSpace (w ++ c :: s) = c :: s := by
  rw [skipSpace_append hw, skipSpace_cons h]

theorem skipSpace_skipSpace (s : Text) : skipSpace (skipSpace s) = skipSpace s :=
  List.dropWhile_idempotent isSpace s

/-- A value is found behind white space. -/
theorem takeValue?_skipSpace (fuel : Nat) (s : Text) :
    takeValue? fuel (skipSpace s) = takeValue? fuel s := by
  cases fuel with
  | zero => rfl
  | succ fuel => rw [takeValue?, skipSpace_skipSpace, takeValue?]

theorem takeItems?_skipSpace (fuel : Nat) (s : Text) :
    takeItems? fuel (skipSpace s) = takeItems? fuel s := by
  cases fuel with
  | zero => rfl
  | succ fuel => rw [takeItems?, takeValue?_skipSpace, takeItems?]

theorem takeMembers?_skipSpace (fuel : Nat) (s : Text) :
    takeMembers? fuel (skipSpace s) = takeMembers? fuel s := by
  cases fuel with
  | zero => rfl
  | succ fuel => rw [takeMembers?, skipSpace_skipSpace, takeMembers?]

theorem takeValue?_append {w : Text} (hw : IsSpaceText w) (fuel : Nat) (s : Text) :
    takeValue? fuel (w ++ s) = takeValue? fuel s := by
  rw [← takeValue?_skipSpace, skipSpace_append hw, takeValue?_skipSpace]

/-! ## Strings -/

theorem not_trailing_of_leading {n : Nat} (h : isLeadingSurrogate n = true) :
    isTrailingSurrogate n = false := by
  simp only [isLeadingSurrogate, isTrailingSurrogate, Bool.and_eq_true, Bool.and_eq_false_iff,
    decide_eq_true_iff, decide_eq_false_iff_not] at *
  omega

/-- **The reader takes each spelling of a character.** -/
theorem stringBody_of_spellsChar {c : Char} {t : Text} (h : SpellsChar c t) (rest : Text) :
    stringBody (t ++ rest) = prepend c (stringBody rest) := by
  cases h with
  | plain hcontrol hquote hbackslash =>
    rw [List.singleton_append, stringBody, if_neg (Nat.not_lt.2 hcontrol)]
    all_goals simp_all
  | @escape letter c h =>
    have hletter : letter ≠ 'u' := by
      rintro rfl
      cases h
    rw [List.cons_append, List.singleton_append, stringBody]
    · rw [h]
    all_goals simp_all
  | code h hleading htrailing =>
    simp only [List.cons_append, List.nil_append]
    rw [stringBody, h]
    simp [hleading, htrailing]
  | @pair _ _ _ _ _ _ _ _ n _ hfirst hleading hsecond htrailing =>
    have hnot : isTrailingSurrogate n = false := not_trailing_of_leading hleading
    simp only [List.cons_append, List.nil_append]
    rw [stringBody, hfirst]
    simp [hleading, hsecond, htrailing, hnot]

theorem stringBody_of_spellsText {s t : Text} (h : SpellsText s t) (rest : Text) :
    stringBody (t ++ '"' :: rest) = .ok (s, rest) := by
  induction h with
  | nil => rw [List.nil_append, stringBody]
  | cons hc _ ih =>
    rw [List.append_assoc, stringBody_of_spellsChar hc, ih]
    rfl

theorem takeString?_of_spellsText {s t : Text} (h : SpellsText s t) (rest : Text) :
    takeString? ('"' :: (t ++ '"' :: rest)) = some (s, rest) := by
  rw [takeString?, stringBody_of_spellsText h]
  rfl

/-! ## Numbers -/

theorem ofDigits_decimal (n : Nat) : ofDigits (Text.decimal n) = n := by
  have hdigits := Nat.ofDigitChars_ten_toDigits (n := n)
  simpa [Nat.ofDigitChars, ofDigits, Text.decimal, Nat.mul_comm] using hdigits

theorem isDigit_of_mem_decimal {n : Nat} {c : Char} (h : c ∈ Text.decimal n) : c.isDigit = true :=
  Nat.isDigit_of_mem_toDigits (by decide) (by decide) h

theorem exists_cons_decimal (n : Nat) : ∃ c t, Text.decimal n = c :: t ∧ c.isDigit = true := by
  obtain ⟨c, t, hct⟩ := List.exists_cons_of_ne_nil
    (show Text.decimal n ≠ [] from Nat.toDigits_ne_nil)
  exact ⟨c, t, hct, isDigit_of_mem_decimal (n := n) (by simp [hct])⟩

/-- Zero is the only number that is written with a leading zero. -/
theorem eq_zero_of_decimal {n : Nat} {t : Text} (h : Text.decimal n = '0' :: t) : n = 0 := by
  induction n using Nat.strongRecOn generalizing t with
  | ind n ih =>
    rw [Text.decimal, Nat.toDigits_eq_if (by decide)] at h
    split at h
    · exact Nat.digitChar_eq_zero.1 (List.cons.inj h).1
    · obtain ⟨c, u, hcu, _⟩ := exists_cons_decimal (n / 10)
      rw [← Text.decimal, hcu, List.cons_append] at h
      obtain rfl : c = '0' := (List.cons.inj h).1
      have hzero := ih (n / 10) (by omega) hcu
      omega

theorem isDigit_eq_false_of_isSpace {c : Char} (h : isSpace c = true) : c.isDigit = false := by
  simp only [isSpace, Bool.or_eq_true, beq_iff_eq] at h
  rcases h with ((rfl | rfl) | rfl) | rfl <;> rfl

/-- What may follow a value: anything but a digit. -/
def EndsValue (rest : Text) : Prop := ∀ c ∈ rest.head?, c.isDigit = false

theorem takeWhile_isDigit_of_endsValue {rest : Text} (h : EndsValue rest) :
    rest.takeWhile Char.isDigit = [] ∧ rest.dropWhile Char.isDigit = rest := by
  cases rest with
  | nil => exact ⟨rfl, rfl⟩
  | cons c rest =>
    have hc : c.isDigit = false := h c rfl
    simp [hc]

theorem takeNumber?_decimal (n : Nat) {rest : Text} (h : EndsValue rest) :
    takeNumber? (Text.decimal n ++ rest) = some (n, rest) := by
  have hdigits : ∀ c ∈ Text.decimal n, c.isDigit = true := fun c => isDigit_of_mem_decimal
  have hstop := takeWhile_isDigit_of_endsValue h
  obtain ⟨c, t, hct, hdigit⟩ := exists_cons_decimal n
  by_cases hc : c = '0'
  · subst hc
    obtain rfl := eq_zero_of_decimal hct
    rfl
  · have htake : (Text.decimal n ++ rest).takeWhile Char.isDigit = Text.decimal n := by
      rw [List.takeWhile_append_of_pos hdigits, hstop.1, List.append_nil]
    have hdrop : (Text.decimal n ++ rest).dropWhile Char.isDigit = rest := by
      rw [List.dropWhile_append_of_pos hdigits, hstop.2]
    rw [hct, List.cons_append] at htake hdrop ⊢
    rw [takeNumber?, if_neg hc, if_pos hdigit, htake, hdrop, ← hct, ofDigits_decimal]

/-! ## Phrases -/

/-- What starts a value is neither white space nor a closing bracket. -/
theorem exists_cons_of_spells_value {v : Json} {t : Text} (h : Spells (.value v) t) :
    ∃ c u, t = c :: u ∧ isSpace c = false ∧ c ≠ ']' := by
  cases h with
  | number n =>
    obtain ⟨c, u, hcu, hdigit⟩ := exists_cons_decimal n
    refine ⟨c, u, hcu, ?_, ?_⟩
    · rw [Bool.eq_false_iff]
      intro hspace
      rw [isDigit_eq_false_of_isSpace hspace] at hdigit
      cases hdigit
    · rintro rfl
      exact absurd hdigit (by decide)
  | _ => exact ⟨_, _, rfl, by decide, by decide⟩

/-- Items do not start with the closing bracket. -/
theorem skipSpace_of_spells_items {items : List Json} {t : Text} (h : Spells (.items items) t)
    (rest : Text) : ∃ c u, skipSpace (t ++ rest) = c :: u ∧ c ≠ ']' := by
  cases h with
  | lastItem hw hv _ =>
    obtain ⟨c, u, rfl, hspace, hc⟩ := exists_cons_of_spells_value hv
    simp only [List.append_assoc, List.cons_append]
    exact ⟨c, _, skipSpace_append_cons hw hspace _, hc⟩
  | item hw hv _ _ =>
    obtain ⟨c, u, rfl, hspace, hc⟩ := exists_cons_of_spells_value hv
    simp only [List.append_assoc, List.cons_append]
    exact ⟨c, _, skipSpace_append_cons hw hspace _, hc⟩

/-- Members start with the quote of a key. -/
theorem skipSpace_of_spells_members {members : List (Text × Json)} {t : Text}
    (h : Spells (.members members) t) (rest : Text) : ∃ u, skipSpace (t ++ rest) = '"' :: u := by
  cases h with
  | lastMember hw _ _ _ _ _ =>
    simp only [List.append_assoc, List.cons_append]
    exact ⟨_, skipSpace_append_cons hw (by decide) _⟩
  | member hw _ _ _ _ _ _ =>
    simp only [List.append_assoc, List.cons_append]
    exact ⟨_, skipSpace_append_cons hw (by decide) _⟩

/-- A value ends before white space and a character that is no digit. -/
theorem endsValue_append_cons {w : Text} (hw : IsSpaceText w) {c : Char} (h : c.isDigit = false)
    (rest : Text) : EndsValue (w ++ c :: rest) := by
  cases w with
  | nil =>
    rintro d ⟨⟩
    exact h
  | cons d w =>
    rintro d ⟨⟩
    exact isDigit_eq_false_of_isSpace (hw d List.mem_cons_self)

/-- A value with white space around it, before a character that ends it. -/
theorem takeValue?_around {fuel : Nat} {t : Text} {v : Json}
    (h : ∀ rest, EndsValue rest → takeValue? fuel (t ++ rest) = some (v, rest)) {w w' : Text}
    (hw : IsSpaceText w) (hw' : IsSpaceText w') {c : Char} (hc : c.isDigit = false) (rest : Text) :
    takeValue? fuel (w ++ (t ++ (w' ++ c :: rest))) = some (v, w' ++ c :: rest) := by
  rw [takeValue?_append hw, h _ (endsValue_append_cons hw' hc rest)]

/-! ### Values by their first character -/

theorem takeValue?_string (fuel : Nat) {s t : Text} (h : SpellsText s t) (rest : Text) :
    takeValue? (fuel + 1) ('"' :: (t ++ '"' :: rest)) = some (.string s, rest) := by
  rw [takeValue?, skipSpace_cons (by decide)]
  simp [takeString?_of_spellsText h]

theorem takeValue?_number (fuel n : Nat) {rest : Text} (h : EndsValue rest) :
    takeValue? (fuel + 1) (Text.decimal n ++ rest) = some (.number n, rest) := by
  have hnumber := takeNumber?_decimal n h
  obtain ⟨c, t, hct, hspace, _⟩ := exists_cons_of_spells_value (.number n)
  have hdigit : c.isDigit = true := isDigit_of_mem_decimal (n := n) (by simp [hct])
  rw [hct, List.cons_append] at hnumber ⊢
  rw [takeValue?, skipSpace_cons hspace]
  have hstart : ∀ d u, c :: (t ++ rest) = d :: u → d.isDigit = true := by
    rintro d u ⟨⟩
    exact hdigit
  -- nothing else starts with a digit
  split
  · contradiction
  · exact absurd (hstart _ _ ‹_›) (by decide)
  · exact absurd (hstart _ _ ‹_›) (by decide)
  · exact absurd (hstart _ _ ‹_›) (by decide)
  · exact absurd (hstart _ _ ‹_›) (by decide)
  · exact absurd (hstart _ _ ‹_›) (by decide)
  · rw [hnumber, Option.map_some]

theorem takeValue?_emptyArray (fuel : Nat) {s rest : Text} (h : skipSpace s = ']' :: rest) :
    takeValue? (fuel + 1) ('[' :: s) = some (.array [], rest) := by
  rw [takeValue?, skipSpace_cons (by decide)]
  simp only [h]

theorem takeValue?_array (fuel : Nat) {s u : Text} {c : Char} (h : skipSpace s = c :: u)
    (hc : c ≠ ']') :
    takeValue? (fuel + 1) ('[' :: s) =
      (takeItems? fuel s).map fun (items, rest) => (.array items, rest) := by
  rw [takeValue?, skipSpace_cons (by decide)]
  simp only []
  split
  · rename_i heq
    rw [h] at heq
    exact absurd (List.cons.inj heq).1 hc
  · rw [takeItems?_skipSpace]

theorem takeValue?_emptyObject (fuel : Nat) {s rest : Text} (h : skipSpace s = '}' :: rest) :
    takeValue? (fuel + 1) ('{' :: s) = some (.object [], rest) := by
  rw [takeValue?, skipSpace_cons (by decide)]
  simp only [h]

theorem takeValue?_object (fuel : Nat) {s u : Text} (h : skipSpace s = '"' :: u) :
    takeValue? (fuel + 1) ('{' :: s) =
      (takeMembers? fuel s).map fun (members, rest) => (.object members, rest) := by
  rw [takeValue?, skipSpace_cons (by decide)]
  simp only []
  split
  · rename_i heq
    rw [h] at heq
    cases heq
  · rw [takeMembers?_skipSpace]

/-! ### Items and members, once their value is read -/

theorem takeItems?_last {fuel : Nat} {s w rest : Text} {v : Json} (hw : IsSpaceText w)
    (h : takeValue? fuel s = some (v, w ++ ']' :: rest)) :
    takeItems? (fuel + 1) s = some ([v], rest) := by
  simp [takeItems?, h, skipSpace_append_cons hw (c := ']') (by decide)]

theorem takeItems?_cons {fuel : Nat} {s w u rest : Text} {v : Json} {items : List Json}
    (hw : IsSpaceText w) (h : takeValue? fuel s = some (v, w ++ ',' :: u))
    (hrest : takeItems? fuel u = some (items, rest)) :
    takeItems? (fuel + 1) s = some (v :: items, rest) := by
  simp [takeItems?, h, skipSpace_append_cons hw (c := ',') (by decide), hrest]

theorem takeMembers?_last {fuel : Nat} {w key k w' s w'' rest : Text} {v : Json}
    (hw : IsSpaceText w) (hkey : SpellsText key k) (hw' : IsSpaceText w') (hw'' : IsSpaceText w'')
    (h : takeValue? fuel s = some (v, w'' ++ '}' :: rest)) :
    takeMembers? (fuel + 1) (w ++ '"' :: (k ++ '"' :: (w' ++ ':' :: s))) =
      some ([(key, v)], rest) := by
  rw [takeMembers?, skipSpace_append_cons hw (by decide), takeString?_of_spellsText hkey]
  simp [skipSpace_append_cons hw' (c := ':') (by decide), h,
    skipSpace_append_cons hw'' (c := '}') (by decide)]

theorem takeMembers?_cons {fuel : Nat} {w key k w' s w'' u rest : Text} {v : Json}
    {members : List (Text × Json)}
    (hw : IsSpaceText w) (hkey : SpellsText key k) (hw' : IsSpaceText w') (hw'' : IsSpaceText w'')
    (h : takeValue? fuel s = some (v, w'' ++ ',' :: u))
    (hrest : takeMembers? fuel u = some (members, rest)) :
    takeMembers? (fuel + 1) (w ++ '"' :: (k ++ '"' :: (w' ++ ':' :: s))) =
      some ((key, v) :: members, rest) := by
  rw [takeMembers?, skipSpace_append_cons hw (by decide), takeString?_of_spellsText hkey]
  simp [skipSpace_append_cons hw' (c := ':') (by decide), h,
    skipSpace_append_cons hw'' (c := ',') (by decide), hrest]

/-! ### The induction -/

/-- The parser takes a phrase, spelled by `t`, from the front of a text.  Items and members are taken
with the bracket that closes them. -/
def Takes (fuel : Nat) (t rest : Text) : Phrase → Prop
  | .value v => takeValue? fuel (t ++ rest) = some (v, rest)
  | .items items => takeItems? (fuel + 1) (t ++ ']' :: rest) = some (items, rest)
  | .members members => takeMembers? (fuel + 1) (t ++ '}' :: rest) = some (members, rest)

/-- **Every phrase is read,** with as much fuel as it has characters. -/
theorem takes_of_spells {phrase : Phrase} {t : Text} (h : Spells phrase t) :
    ∀ (fuel : Nat) (rest : Text), t.length ≤ fuel → EndsValue rest → Takes fuel t rest phrase := by
  induction h with
  | yes =>
    rintro (_ | fuel) rest hfuel _
    · exact absurd hfuel (by decide)
    · rfl
  | no =>
    rintro (_ | fuel) rest hfuel _
    · exact absurd hfuel (by decide)
    · rfl
  | number n =>
    rintro (_ | fuel) rest hfuel hrest
    · exact absurd (List.length_eq_zero_iff.1 (Nat.le_zero.1 hfuel)) Nat.toDigits_ne_nil
    · exact takeValue?_number fuel n hrest
  | string hs =>
    rintro (_ | fuel) rest hfuel _
    · exact absurd hfuel (by simp)
    · have hstring := takeValue?_string fuel hs rest
      simpa [Takes] using hstring
  | emptyArray hw =>
    rintro (_ | fuel) rest hfuel _
    · exact absurd hfuel (by simp)
    · have hclose := skipSpace_append_cons hw (c := ']') (by decide) rest
      have harray := takeValue?_emptyArray fuel hclose
      simpa [Takes] using harray
  | array hitems ih =>
    rintro (_ | _ | fuel) rest hfuel hrest
    · exact absurd hfuel (by simp)
    · exact absurd hfuel (by simp)
    · obtain ⟨c, u, hstart, hc⟩ := skipSpace_of_spells_items hitems (']' :: rest)
      have hitems := ih fuel rest (by simpa using hfuel) hrest
      have harray := takeValue?_array (fuel + 1) hstart hc
      rw [hitems] at harray
      simpa [Takes] using harray
  | emptyObject hw =>
    rintro (_ | fuel) rest hfuel _
    · exact absurd hfuel (by simp)
    · have hclose := skipSpace_append_cons hw (c := '}') (by decide) rest
      have hobject := takeValue?_emptyObject fuel hclose
      simpa [Takes] using hobject
  | object hmembers ih =>
    rintro (_ | _ | fuel) rest hfuel hrest
    · exact absurd hfuel (by simp)
    · exact absurd hfuel (by simp)
    · obtain ⟨u, hstart⟩ := skipSpace_of_spells_members hmembers ('}' :: rest)
      have hmembers := ih fuel rest (by simpa using hfuel) hrest
      have hobject := takeValue?_object (fuel + 1) hstart
      rw [hmembers] at hobject
      simpa [Takes] using hobject
  | lastItem hw _ hw' ih =>
    intro fuel rest hfuel _
    simp only [List.length_append] at hfuel
    have hvalue := takeValue?_around (fun rest => ih fuel rest (by omega)) hw hw' (c := ']')
      (by decide) rest
    have hitems := takeItems?_last hw' hvalue
    simpa [Takes] using hitems
  | @item _ _ _ _ _ u hw _ hw' _ ih ihrest =>
    intro fuel rest hfuel hrest
    simp only [List.length_append, List.length_cons] at hfuel
    obtain ⟨fuel, rfl⟩ : ∃ n, fuel = n + 1 := ⟨fuel - 1, by omega⟩
    have hvalue := takeValue?_around (fun rest => ih (fuel + 1) rest (by omega)) hw hw' (c := ',')
      (by decide) (u ++ ']' :: rest)
    have hitems := takeItems?_cons hw' hvalue (ihrest fuel rest (by omega) hrest)
    simpa [Takes] using hitems
  | lastMember hw hkey hw' hx _ hw'' ih =>
    intro fuel rest hfuel _
    simp only [List.length_append, List.length_cons] at hfuel
    have hvalue := takeValue?_around (fun rest => ih fuel rest (by omega)) hx hw'' (c := '}')
      (by decide) rest
    have hmembers := takeMembers?_last hw hkey hw' hw'' hvalue
    simpa [Takes] using hmembers
  | @member _ _ _ _ _ _ _ _ _ u hw hkey hw' hx _ hw'' _ ih ihrest =>
    intro fuel rest hfuel hrest
    simp only [List.length_append, List.length_cons] at hfuel
    obtain ⟨fuel, rfl⟩ : ∃ n, fuel = n + 1 := ⟨fuel - 1, by omega⟩
    have hvalue := takeValue?_around (fun rest => ih (fuel + 1) rest (by omega)) hx hw'' (c := ',')
      (by decide) (u ++ '}' :: rest)
    have hmembers := takeMembers?_cons hw hkey hw' hw'' hvalue (ihrest fuel rest (by omega) hrest)
    simpa [Takes] using hmembers

/-! ## Whole texts -/

/-- **The parser finds the value that a text spells.** -/
theorem parse?_of_isText {v : Json} {s : Text} (h : IsText v s) : parse? s = some v := by
  obtain ⟨w, t, w', hw, hv, hw', rfl⟩ := h
  have hend : EndsValue w' := fun c hc =>
    isDigit_eq_false_of_isSpace (hw' c (List.mem_of_mem_head? hc))
  have hvalue : takeValue? (2 * (w ++ t ++ w').length + 2) (t ++ w') = some (v, w') :=
    takes_of_spells hv _ w' (by simp only [List.length_append]; omega) hend
  have hskip : skipSpace w' = [] := List.dropWhile_eq_nil_iff.2 hw'
  rw [← takeValue?_append hw, ← List.append_assoc] at hvalue
  rw [parse?, hvalue]
  simp [hskip]

/-- **Parsing undoes printing.** -/
theorem parse?_pretty (v : Json) : parse? (v.pretty ++ ['\n']) = some v :=
  parse?_of_isText (isText_pretty v)

/-- **A text spells one value.** -/
theorem eq_of_isText {v v' : Json} {s : Text} (h : IsText v s) (h' : IsText v' s) : v = v' :=
  Option.some.inj ((parse?_of_isText h).symm.trans (parse?_of_isText h'))

end StyleLift.Json
