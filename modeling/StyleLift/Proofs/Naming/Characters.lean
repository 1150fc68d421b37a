import StyleLift.Naming.Registry
import StyleLift.Proofs.Stylesheet.Statements
import StyleLift.Proofs.Value.Tokens
import StyleLift.Settings

/-!
# Names are property names

Every part that goes into a name is made of word characters and hyphens: the folder and the token
because all other characters are left out or made hyphens, the class because it is cut out of a
selector as one, the short name because a property is.  With a label that is an identifier in
front, the whole is a custom property, and stays one when a number is put behind it.

* `IsNamePart`: the characters of a part.
* `isNamePart_token`, `isNamePart_folderSegment`, `isNamePart_nearestClass?`: the parts.
* `IsCustomProperty`, `isCustomProperty_baseName`, `isCustomProperty_nextFree`: the names.
-/

namespace StyleLift

open Stylesheet (isIdentifier isPropertyName)

/-- Made of word characters and hyphens. -/
def IsNamePart (s : Text) : Prop := ∀ c ∈ s, Text.isWordOrHyphen c = true

namespace IsNamePart

theorem nil : IsNamePart [] := by simp [IsNamePart]

theorem append {s t : Text} (hs : IsNamePart s) (ht : IsNamePart t) : IsNamePart (s ++ t) := by
  intro c hc
  rcases List.mem_append.1 hc with hc | hc
  · exact hs c hc
  · exact ht c hc

/-- A selection of characters of one class that belongs to names. -/
theorem of_class {p : Char → Bool} (hp : ∀ c, p c = true → Text.isWordOrHyphen c = true) {s : Text}
    (hs : ∀ c ∈ s, p c = true) : IsNamePart s :=
  fun c hc => hp c (hs c hc)

end IsNamePart

theorem Text.isWordOrHyphen_of_isReferenceChar {c : Char} (h : Value.isReferenceChar c = true) :
    Text.isWordOrHyphen c = true := by
  simp only [Value.isReferenceChar, Bool.or_eq_true, beq_iff_eq] at h
  rcases h with (h | rfl) | rfl
  · exact Text.isWordOrHyphen_of_isAlphanum h
  · decide
  · decide

/-! ## Tokens -/

theorem IsTokenText.isNamePart {s : Text} (h : IsTokenText s) : IsNamePart s :=
  .of_class (fun _ => Text.isWordOrHyphen_of_isReferenceChar) h

/-- A token is a part of a name, whatever the value. -/
theorem isNamePart_token (value property : Text) (known : List Variable) :
    IsNamePart (Value.token value property known) :=
  (Value.isTokenText_token value property known).isNamePart

/-! ## Folders and classes -/

theorem isNamePart_sanitized (s : Text) : IsNamePart (Naming.sanitized s) := by
  intro c hc
  obtain ⟨d, -, rfl⟩ := List.mem_map.1 hc
  split
  · rename_i hd
    exact Text.isWordOrHyphen_of_isReferenceChar hd
  · decide

theorem isNamePart_folderSegment (root path : Path) :
    IsNamePart (Naming.folderSegment root path) := by
  rw [Naming.folderSegment]
  split
  · exact .nil
  · split
    · exact .nil
    · rename_i parent _ _
      cases parent.fileName? with
      | none => exact .nil
      | some name => exact isNamePart_sanitized name

theorem isNamePart_className? {s name : Text} (h : Naming.className? s = some name) :
    IsNamePart name := by
  have hpart : ∀ (c : Char) (rest : Text), Text.isNameStart c = true →
      IsNamePart (c :: rest.takeWhile Text.isWordOrHyphen) := by
    intro c rest hc d hd
    rcases List.mem_cons.1 hd with rfl | hd
    · exact Text.isWordOrHyphen_of_isNameStart hc
    · exact List.all_eq_true.1 List.all_takeWhile d hd
  unfold Naming.className? at h
  split at h
  · split at h
    · rename_i c rest hc
      obtain rfl := Option.some.inj h
      intro d hd
      rcases List.mem_cons.1 hd with rfl | hd
      · decide
      · exact hpart c rest hc d hd
    · simp at h
  · split at h
    · rename_i c rest _ hc
      obtain rfl := Option.some.inj h
      exact hpart c rest hc
    · simp at h
  · simp at h

theorem isNamePart_firstClass? {s name : Text} (h : Naming.firstClass? s = some name) :
    IsNamePart name := by
  induction s with
  | nil => simp [Naming.firstClass?] at h
  | cons c s ih =>
    rw [Naming.firstClass?] at h
    split at h
    · rcases Option.or_eq_some_iff.1 h with h | ⟨-, h⟩
      · exact isNamePart_className? h
      · exact ih h
    · exact ih h

theorem isNamePart_nearestClass? (selectors : List Text) :
    IsNamePart ((Naming.nearestClass? selectors).getD []) := by
  cases hclass : Naming.nearestClass? selectors with
  | none => exact .nil
  | some name =>
    obtain ⟨selector, -, hname⟩ := List.exists_of_findSome?_eq_some hclass
    exact isNamePart_firstClass? hname

/-! ## Names -/

/-- Two hyphens and an identifier. -/
def IsCustomProperty (name : Text) : Prop := ∃ s, name = '-' :: '-' :: s ∧ isIdentifier s = true

theorem IsCustomProperty.isPropertyName {name : Text} (h : IsCustomProperty name) :
    isPropertyName name = true := by
  obtain ⟨s, rfl, hs⟩ := h
  exact hs

theorem isIdentifier_append {s t : Text} (hs : isIdentifier s = true) (ht : IsNamePart t) :
    isIdentifier (s ++ t) = true := by
  cases s with
  | nil => exact absurd hs Bool.false_ne_true
  | cons c s =>
    rw [isIdentifier, Bool.and_eq_true, List.all_eq_true] at hs
    rw [List.cons_append, isIdentifier, Bool.and_eq_true, List.all_append, Bool.and_eq_true,
      List.all_eq_true, List.all_eq_true]
    exact ⟨hs.1, hs.2, ht⟩

theorem isNamePart_of_isIdentifier {s : Text} (h : isIdentifier s = true) : IsNamePart s := by
  cases s with
  | nil => exact .nil
  | cons c s =>
    rw [isIdentifier, Bool.and_eq_true, List.all_eq_true] at h
    exact List.forall_mem_cons.2 ⟨Text.isWordOrHyphen_of_isNameStart h.1, h.2⟩

theorem IsCustomProperty.append {name t : Text} (h : IsCustomProperty name) (ht : IsNamePart t) :
    IsCustomProperty (name ++ t) := by
  obtain ⟨s, rfl, hs⟩ := h
  exact ⟨s ++ t, rfl, isIdentifier_append hs ht⟩

/-- What is joined behind a first segment. -/
theorem exists_joined_cons (first : Text) {rest : List Text} (h : ∀ s ∈ rest, IsNamePart s) :
    ∃ t, Text.joined ['-'] (first :: rest) = first ++ t ∧ IsNamePart t := by
  induction rest generalizing first with
  | nil => exact ⟨[], (List.append_nil first).symm, .nil⟩
  | cons second rest ih =>
    rw [List.forall_mem_cons] at h
    obtain ⟨t, ht, hpart⟩ := ih second h.2
    refine ⟨'-' :: (second ++ t), ?_, ?_⟩
    · rw [Text.joined, ht]
      · simp
      · simp
    · intro c hc
      rcases List.mem_cons.1 hc with rfl | hc
      · decide
      · exact h.1.append hpart c hc

theorem isNamePart_joined {parts : List Text} (h : ∀ s ∈ parts, IsNamePart s) :
    IsNamePart (Text.joined ['-'] parts) := by
  cases parts with
  | nil => exact .nil
  | cons first rest =>
    rw [List.forall_mem_cons] at h
    obtain ⟨t, ht, hpart⟩ := exists_joined_cons first h.2
    rw [ht]
    exact h.1.append hpart

/-- The segments of a name are made of name characters when those that the context gives are. -/
theorem isNamePart_of_mem_segments {ctx : Naming.Context} (hlabel : IsNamePart ctx.label)
    (htoken : IsNamePart ctx.token) (hshort : IsNamePart ctx.shortName) {s : Text}
    (hs : s ∈ Naming.segments ctx) : IsNamePart s := by
  have hmem := (List.mem_filter.1 hs).1
  simp only [List.mem_cons, List.not_mem_nil, or_false] at hmem
  rcases hmem with rfl | rfl | rfl | rfl | rfl
  · exact hlabel
  · exact isNamePart_folderSegment _ _
  · exact isNamePart_nearestClass? _
  · exact htoken
  · exact hshort

/-- **A base name is a custom property** when the label is an identifier and the short name is
made of name characters. -/
theorem isCustomProperty_baseName {ctx : Naming.Context} (hlabel : isIdentifier ctx.label = true)
    (htoken : IsNamePart ctx.token) (hshort : IsNamePart ctx.shortName) :
    IsCustomProperty (Naming.baseName ctx) := by
  have hne : (!ctx.label.isEmpty) = true := by
    cases hempty : ctx.label with
    | nil =>
      rw [hempty] at hlabel
      exact absurd hlabel Bool.false_ne_true
    | cons => rfl
  -- the label is the first segment
  obtain ⟨rest, hsegments⟩ : ∃ rest, Naming.segments ctx = ctx.label :: rest :=
    ⟨_, List.filter_cons_of_pos (p := fun s => !List.isEmpty s) hne⟩
  have hparts : ∀ s ∈ rest, IsNamePart s := fun s hs =>
    isNamePart_of_mem_segments (isNamePart_of_isIdentifier hlabel) htoken hshort
      (hsegments ▸ List.mem_cons_of_mem _ hs)
  obtain ⟨t, ht, hpart⟩ := exists_joined_cons ctx.label hparts
  refine ⟨ctx.label ++ t, ?_, isIdentifier_append hlabel hpart⟩
  rw [Naming.baseName, hsegments, ht]

/-- A number behind a name is made of name characters. -/
theorem isNamePart_suffix (n : Nat) : IsNamePart ('-' :: Text.decimal n) := by
  intro c hc
  rcases List.mem_cons.1 hc with rfl | hc
  · decide
  · exact Text.isWordOrHyphen_of_isAlphanum (Text.isAlphanum_of_mem_decimal hc)

/-- A number behind a name is part of it. -/
theorem IsCustomProperty.numbered {base : Text} (h : IsCustomProperty base) (n : Nat) :
    IsCustomProperty (Naming.Registry.numbered base n) :=
  h.append (isNamePart_suffix n)

/-- **The name that is found is a custom property when the base name is one.** -/
theorem isCustomProperty_nextFree (taken : List Text) {base : Text} (h : IsCustomProperty base) :
    IsCustomProperty (Naming.Registry.nextFree taken base) := by
  unfold Naming.Registry.nextFree
  split
  · exact h
  · cases hfind : ((List.range (taken.length + 1)).map
        fun n => Naming.Registry.numbered base (n + 1)).find? fun name => !taken.contains name with
    | none => exact h
    | some name =>
      obtain ⟨n, -, rfl⟩ := List.mem_map.1 (List.mem_of_find?_eq_some hfind)
      exact h.numbered _

/-! ## Short names -/

/-- A property in lower case is made of name characters if it does not start with the sigil. -/
theorem isNamePart_lower {name : Text} (h : isPropertyName name = true)
    (hsigil : name.head? ≠ some sigil) : IsNamePart (Text.lower name) := by
  intro c hc
  obtain ⟨d, hd, rfl⟩ := List.mem_map.1 hc
  rcases Stylesheet.isWordOrHyphen_of_mem_propertyName h hd with hword | ⟨-, hhead⟩
  · exact Text.isWordOrHyphen_toLower hword
  · exact absurd hhead hsigil

namespace Settings

variable {settings : Settings}

/-- What is lifted does not start with the sigil if no listed property does. -/
theorem head?_ne_sigil_of_targets (h : ∀ p ∈ settings.properties, p.head? ≠ some sigil)
    {property : Text} (htargets : settings.targets property = true) :
    property.head? ≠ some sigil := by
  obtain ⟨p, hp, hsame⟩ := List.any_eq_true.1 htargets
  intro hhead
  refine h p hp ?_
  have hlower : (Text.lower p).head? = some sigil := by
    rw [eq_of_beq hsame, Text.lower, List.head?_map, hhead]
    rfl
  rw [Text.lower, List.head?_map, Option.map_eq_some_iff] at hlower
  obtain ⟨c, hc, heq⟩ := hlower
  rw [hc, Text.eq_of_toLower_eq (by decide) heq]

/-- The short name of a property that is lifted is made of name characters. -/
theorem isNamePart_aliasFor (haliases : ∀ a ∈ settings.aliases, IsNamePart a.2)
    (hproperties : ∀ p ∈ settings.properties, p.head? ≠ some sigil) {property : Text}
    (hname : isPropertyName property = true) (htargets : settings.targets property = true) :
    IsNamePart (settings.aliasFor (Text.lower property)) := by
  rw [aliasFor]
  cases hlookup : settings.aliases.lookup (Text.lower property) with
  | none => exact isNamePart_lower hname (head?_ne_sigil_of_targets hproperties htargets)
  | some shortName =>
    obtain ⟨front, back, heq, -⟩ := List.lookup_eq_some_iff.1 hlookup
    exact haliases (Text.lower property, shortName) (by rw [heq]; simp)

end Settings

end StyleLift
