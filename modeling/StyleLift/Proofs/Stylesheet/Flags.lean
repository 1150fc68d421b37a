import Mathlib.Data.List.Induction
import StyleLift.Proofs.Text.Ascii
import StyleLift.Proofs.Text.Trim
import StyleLift.Stylesheet.Declaration

/-!
# Trailing flags

A value is taken without the flags at its end.  This file says what a flag is, as a piece of
text with its blanks, and that taking the flags away takes away flags and blanks only, and all
of them.

* `Flag`, `FlagTail`: one flag, and what may follow a value.
* `dropFlag?_eq_some`, `dropFlag?_append_flag`: the reversed reader finds a flag exactly when
  there is one.
* `withoutFlags_append`: a value before a tail of flags is found.
* `exists_flagTail`: what is taken away is such a tail.
-/

namespace StyleLift.Stylesheet

/-- A flag with the blanks before it and behind its exclamation mark. -/
structure Flag where
  lead : Text
  gap : Text
  word : Text
  lead_blank : Text.isBlankText lead = true
  gap_blank : Text.isBlankText gap = true
  word_mem : Text.lower word ∈ flagWords

/-- How a flag is written. -/
def Flag.text (f : Flag) : Text := f.lead ++ '!' :: (f.gap ++ f.word)

/-- What may stand behind a value: flags, then blanks. -/
def FlagTail (s : Text) : Prop :=
  ∃ (flags : List Flag) (trail : Text), Text.isBlankText trail = true ∧
    s = flags.flatMap Flag.text ++ trail

/-- Ends in a flag. -/
def EndsInFlag (s : Text) : Prop := ∃ (before : Text) (f : Flag), s = before ++ f.text

/-! ## Tails -/

theorem FlagTail.of_blank {b : Text} (hb : Text.isBlankText b = true) : FlagTail b :=
  ⟨[], b, hb, rfl⟩

/-- Blanks in front of a tail belong to it. -/
theorem FlagTail.blank_append {b s : Text} (hb : Text.isBlankText b = true) (hs : FlagTail s) :
    FlagTail (b ++ s) := by
  obtain ⟨flags, trail, htrail, rfl⟩ := hs
  cases flags with
  | nil => exact .of_blank (Text.isBlankText_append.2 ⟨hb, htrail⟩)
  | cons f flags =>
    refine ⟨{ f with
      lead := b ++ f.lead
      lead_blank := Text.isBlankText_append.2 ⟨hb, f.lead_blank⟩ } :: flags, trail, htrail, ?_⟩
    simp [Flag.text]

/-- A tail without blanks that stand in front of it is a tail. -/
theorem FlagTail.of_blank_append {b s : Text} (hb : Text.isBlankText b = true)
    (hs : FlagTail (b ++ s)) : FlagTail s := by
  obtain ⟨flags, trail, htrail, heq⟩ := hs
  cases flags with
  | nil =>
    rw [List.flatMap_nil, List.nil_append] at heq
    rw [← heq, Text.isBlankText_append] at htrail
    exact .of_blank htrail.2
  | cons f flags =>
    rw [List.flatMap_cons, Flag.text, List.append_assoc, List.append_assoc,
      List.append_eq_append_iff] at heq
    rcases heq with ⟨lead, hlead, hs⟩ | ⟨rest, hrest, htail⟩
    · have hblank := f.lead_blank
      rw [hlead, Text.isBlankText_append] at hblank
      refine ⟨{ f with lead := lead, lead_blank := hblank.2 } :: flags, trail, htrail, ?_⟩
      simp [Flag.text, hs]
    -- otherwise the blanks would reach past the lead, up to the exclamation mark
    · cases rest with
      | nil =>
        refine ⟨{ f with lead := [], lead_blank := rfl } :: flags, trail, htrail, ?_⟩
        simpa [Flag.text] using htail.symm
      | cons c rest =>
        obtain ⟨rfl, -⟩ := List.cons.inj htail
        rw [hrest, Text.isBlankText_append] at hb
        exact absurd (Text.isBlank_of_mem hb.2 List.mem_cons_self) (by decide)

/-! ## Finding a flag -/

/-- A lead in some case is found exactly when the text starts with it. -/
theorem afterIgnoringCase?_eq_some_iff {lead s rest : Text} :
    Text.afterIgnoringCase? lead s = some rest ↔ ∃ p, s = p ++ rest ∧ Text.lower p = lead := by
  induction lead generalizing s with
  | nil =>
    rw [Text.afterIgnoringCase?, Option.some.injEq]
    constructor
    · rintro rfl
      exact ⟨[], rfl, rfl⟩
    · rintro ⟨p, rfl, hp⟩
      rw [List.map_eq_nil_iff.1 hp, List.nil_append]
  | cons a lead ih =>
    cases s with
    | nil =>
      simp only [Text.afterIgnoringCase?, reduceCtorEq, false_iff, not_exists, not_and]
      intro p hp hlower
      rw [(List.append_eq_nil_iff.1 hp.symm).1] at hlower
      exact absurd hlower (by simp [Text.lower])
    | cons c s =>
      rw [Text.afterIgnoringCase?]
      split
      · rename_i hac
        rw [ih]
        constructor
        · rintro ⟨p, rfl, hp⟩
          exact ⟨c :: p, rfl, by rw [Text.lower, List.map_cons, ← hac, ← hp, Text.lower]⟩
        · rintro ⟨p, hp, hlower⟩
          cases p with
          | nil => exact absurd hlower (by simp [Text.lower])
          | cons d p =>
            exact ⟨p, (List.cons.inj hp).2, (List.cons.inj hlower).2⟩
      · rename_i hac
        simp only [reduceCtorEq, false_iff, not_exists, not_and]
        intro p hp hlower
        cases p with
        | nil => exact absurd hlower (by simp [Text.lower])
        | cons d p =>
          obtain ⟨rfl, -⟩ := List.cons.inj hp
          exact hac (List.cons.inj hlower).1.symm

theorem lower_reverse (s : Text) : Text.lower s.reverse = (Text.lower s).reverse :=
  List.map_reverse

/-- What the reversed reader takes off is a flag and blanks, and all blanks before the flag. -/
theorem dropFlag?_eq_some {s r : Text} (h : dropFlag? s.reverse = some r) :
    Text.trimStart r = r ∧ ∃ (f : Flag) (trail : Text), Text.isBlankText trail = true ∧
      s = r.reverse ++ f.text ++ trail := by
  obtain ⟨known, hknown, hword⟩ := List.exists_of_findSome?_eq_some h
  split at hword
  · simp at hword
  rename_i rest hrest
  split at hword
  · rename_i before hbefore
    obtain ⟨p, hp, hlower⟩ := afterIgnoringCase?_eq_some_iff.1 hrest
    obtain ⟨trail, htrail, hs⟩ := Text.exists_trimStart s.reverse
    obtain ⟨gap, hgap, hrest'⟩ := Text.exists_trimStart rest
    obtain ⟨lead, hlead, hbefore'⟩ := Text.exists_trimStart before
    have hr : Text.trimStart before = r := Option.some.inj hword
    rw [hr] at hbefore'
    rw [show Text.trimStart rest = '!' :: before from hbefore, hbefore'] at hrest'
    rw [show Text.trimStart s.reverse = p ++ rest from hp, hrest'] at hs
    have hflag : Text.lower p.reverse = known := by
      rw [lower_reverse, hlower, List.reverse_reverse]
    refine ⟨by rw [← hr, Text.trimStart_trimStart], ⟨lead.reverse, gap.reverse, p.reverse,
      by rwa [Text.isBlankText_reverse], by rwa [Text.isBlankText_reverse], by rwa [hflag]⟩,
      trail.reverse, by rwa [Text.isBlankText_reverse], ?_⟩
    rw [← List.reverse_inj, hs]
    simp [Flag.text]
  · simp at hword

/-- No flag word is the end of another one. -/
theorem eq_of_isPrefixOf_reverse : ∀ w ∈ flagWords, ∀ w' ∈ flagWords,
    w.reverse <+: w'.reverse → w = w' := by
  decide

/-- The only answer of a list is the answer of the list. -/
theorem findSome?_eq_some_of_unique {α β : Type} {g : α → Option β} {l : List α} {a : α} {b : β}
    (hmem : a ∈ l) (ha : g a = some b) (hne : ∀ x ∈ l, x ≠ a → g x = none) :
    l.findSome? g = some b := by
  induction l with
  | nil => simp at hmem
  | cons x l ih =>
    rw [List.findSome?_cons]
    cases hx : g x with
    | some y =>
      by_cases heq : x = a
      · rw [heq, ha] at hx
        rw [hx]
      · rw [hne x List.mem_cons_self heq] at hx
        simp at hx
    | none =>
      rcases List.mem_cons.1 hmem with rfl | hmem
      · rw [ha] at hx
        simp at hx
      · exact ih hmem fun y hy => hne y (List.mem_cons_of_mem _ hy)

namespace Flag

theorem isAlpha_of_mem_word (f : Flag) {c : Char} (hc : c ∈ f.word) : c.isAlpha = true := by
  have hall : flagWords.all (fun w => w.all Char.isAlpha) = true := by decide
  have hword := List.all_eq_true.1 hall _ f.word_mem
  exact Text.isAlpha_of_isAlpha_toLower (List.all_eq_true.1 hword _ (List.mem_map_of_mem hc))

theorem word_ne_nil (f : Flag) : f.word ≠ [] := by
  intro h
  have hmem := f.word_mem
  rw [h] at hmem
  exact absurd hmem (by decide)

theorem trimEnd_word (f : Flag) : Text.trimEnd f.word = f.word := by
  rw [Text.trimEnd_eq_self_iff]
  intro c hc
  exact Text.isBlank_eq_false_of_isAlpha (f.isAlpha_of_mem_word (List.mem_of_getLast? hc))

/-- A flag does not end in a blank. -/
theorem trimEnd_append_text (f : Flag) (s : Text) :
    Text.trimEnd (s ++ f.text) = s ++ f.text := by
  have hword := Text.trimEnd_append_of_ne_nil f.trimEnd_word f.word_ne_nil
    (s ++ f.lead ++ '!' :: f.gap)
  simpa [text] using hword

/-- The characters of a flag are blanks, the exclamation mark and letters. -/
theorem mem_text (f : Flag) {c : Char} (hc : c ∈ f.text) :
    Text.isBlank c = true ∨ c = '!' ∨ c.isAlpha = true := by
  simp only [text, List.mem_append, List.mem_cons] at hc
  rcases hc with hc | hc | hc | hc
  · exact Or.inl (Text.isBlank_of_mem f.lead_blank hc)
  · exact Or.inr (Or.inl hc)
  · exact Or.inl (Text.isBlank_of_mem f.gap_blank hc)
  · exact Or.inr (Or.inr (f.isAlpha_of_mem_word hc))

end Flag

/-- The characters of a tail are blanks, exclamation marks and letters. -/
theorem FlagTail.mem {s : Text} (hs : FlagTail s) {c : Char} (hc : c ∈ s) :
    Text.isBlank c = true ∨ c = '!' ∨ c.isAlpha = true := by
  obtain ⟨flags, trail, htrail, rfl⟩ := hs
  rcases List.mem_append.1 hc with hc | hc
  · obtain ⟨f, -, hf⟩ := List.mem_flatMap.1 hc
    exact f.mem_text hf
  · exact Or.inl (Text.isBlank_of_mem htrail hc)

theorem FlagTail.ne_quote {s : Text} (hs : FlagTail s) {c : Char} (hc : c ∈ s) :
    c ≠ '"' ∧ c ≠ '\'' := by
  have hclass := hs.mem hc
  constructor
  · rintro rfl
    exact absurd hclass (by decide)
  · rintro rfl
    exact absurd hclass (by decide)

/-- A flag at the end is found, and taken off with the blanks before it. -/
theorem dropFlag?_append_flag (s : Text) (f : Flag) :
    dropFlag? (s ++ f.text).reverse = some (Text.trimEnd s).reverse := by
  have hreverse : (s ++ f.text).reverse =
      f.word.reverse ++ (f.gap.reverse ++ '!' :: (f.lead.reverse ++ s.reverse)) := by
    simp [Flag.text]
  have hstart : Text.trimStart (s ++ f.text).reverse = (s ++ f.text).reverse := by
    rw [← List.reverse_inj, ← Text.trimEnd_eq, f.trimEnd_append_text, List.reverse_reverse]
  have hbang : Text.trimStart (f.gap.reverse ++ '!' :: (f.lead.reverse ++ s.reverse)) =
      '!' :: (f.lead.reverse ++ s.reverse) := by
    rw [Text.trimStart_append_of_blank (by rw [Text.isBlankText_reverse]; exact f.gap_blank),
      Text.trimStart_eq_self_iff]
    intro c hc
    obtain rfl := Option.some.inj hc
    decide
  have hlead : Text.trimStart (f.lead.reverse ++ s.reverse) = (Text.trimEnd s).reverse := by
    rw [Text.trimStart_append_of_blank (by rw [Text.isBlankText_reverse]; exact f.lead_blank),
      Text.trimEnd_eq, List.reverse_reverse]
  refine findSome?_eq_some_of_unique f.word_mem ?_ ?_
  · have hafter : Text.afterIgnoringCase? (Text.lower f.word).reverse
        (Text.trimStart (s ++ f.text).reverse) =
        some (f.gap.reverse ++ '!' :: (f.lead.reverse ++ s.reverse)) :=
      afterIgnoringCase?_eq_some_iff.2
        ⟨f.word.reverse, hstart.trans hreverse, lower_reverse f.word⟩
    rw [Text.trimStart] at hafter hbang
    simp only [hafter, hbang]
    exact congrArg some hlead
  · -- two words that both end the text end one another
    intro w hw hne
    cases hafter : Text.afterIgnoringCase? w.reverse
        ((s ++ f.text).reverse.dropWhile Text.isBlank) with
    | none => rfl
    | some rest =>
      obtain ⟨p, hp, hlower⟩ := afterIgnoringCase?_eq_some_iff.1 hafter
      rw [← Text.trimStart, hstart, hreverse] at hp
      have hcompare : (Text.lower p) <+: (Text.lower f.word.reverse) ∨
          (Text.lower f.word.reverse) <+: (Text.lower p) := by
        rcases List.prefix_or_prefix_of_prefix (List.prefix_append p rest)
          (hp ▸ List.prefix_append _ _) with h | h
        · exact Or.inl (h.map _)
        · exact Or.inr (h.map _)
      rw [hlower, lower_reverse] at hcompare
      rcases hcompare with h | h
      · exact absurd (eq_of_isPrefixOf_reverse w hw _ f.word_mem h) hne
      · exact absurd (eq_of_isPrefixOf_reverse _ f.word_mem w hw h).symm hne

/-- Whether a text ends in a flag is what the reversed reader says of a text without blanks at
its end. -/
theorem endsInFlag_iff {s : Text} :
    EndsInFlag s ↔ Text.trimEnd s = s ∧ (dropFlag? s.reverse).isSome = true := by
  constructor
  · rintro ⟨before, f, rfl⟩
    exact ⟨f.trimEnd_append_text before, by rw [dropFlag?_append_flag]; rfl⟩
  · rintro ⟨htrim, hsome⟩
    obtain ⟨r, hr⟩ := Option.isSome_iff_exists.1 hsome
    obtain ⟨-, f, trail, htrail, heq⟩ := dropFlag?_eq_some hr
    refine ⟨r.reverse, f, ?_⟩
    rw [← htrim, heq, Text.trimEnd_append_of_blank htrail, f.trimEnd_append_text]

instance (s : Text) : Decidable (EndsInFlag s) := decidable_of_iff _ endsInFlag_iff.symm

/-- What ends in a flag ends in a letter. -/
theorem EndsInFlag.exists_getLast? {s : Text} (h : EndsInFlag s) :
    ∃ c, s.getLast? = some c ∧ c.isAlpha = true := by
  obtain ⟨before, f, rfl⟩ := h
  obtain ⟨c, hc⟩ := Option.isSome_iff_exists.1 (List.getLast?_isSome.2 f.word_ne_nil)
  refine ⟨c, ?_, f.isAlpha_of_mem_word (List.mem_of_getLast? hc)⟩
  rw [Flag.text, ← List.cons_append, ← List.append_assoc, ← List.append_assoc,
    List.getLast?_append_of_ne_nil _ f.word_ne_nil, hc]

/-! ## Values without their flags -/

theorem dropFlags_of_eq_some {r r' : Text} (h : dropFlag? r = some r') :
    dropFlags r = dropFlags r' := by
  rw [dropFlags]
  split
  · rename_i rest hrest
    rw [h] at hrest
    rw [Option.some.inj hrest]
  · rename_i hnone
    rw [h] at hnone
    simp at hnone

theorem dropFlags_of_eq_none {r : Text} (h : dropFlag? r = none) : dropFlags r = r := by
  rw [dropFlags]
  split
  · rename_i rest hrest
    rw [h] at hrest
    simp at hrest
  · rfl

theorem withoutFlags_append_blank {b : Text} (hb : Text.isBlankText b = true) (s : Text) :
    withoutFlags (s ++ b) = withoutFlags s := by
  rw [withoutFlags, withoutFlags, Text.trimEnd_append_of_blank hb]

theorem withoutFlags_append_flag (s : Text) (f : Flag) :
    withoutFlags (s ++ f.text) = withoutFlags s := by
  rw [withoutFlags, f.trimEnd_append_text, dropFlags_of_eq_some (dropFlag?_append_flag s f),
    ← withoutFlags]

/-- A text that ends neither in a blank nor in a flag is left as it is. -/
theorem withoutFlags_eq_self {v : Text} (htrim : Text.trimEnd v = v) (hflag : ¬ EndsInFlag v) :
    withoutFlags v = v := by
  rw [withoutFlags, htrim]
  cases hdrop : dropFlag? v.reverse with
  | none => rw [dropFlags_of_eq_none hdrop, List.reverse_reverse]
  | some r => exact absurd (endsInFlag_iff.2 ⟨htrim, by rw [hdrop]; rfl⟩) hflag

/-- **A value before a tail of flags is found.** -/
theorem withoutFlags_append {v t : Text} (htrim : Text.trimEnd v = v) (hflag : ¬ EndsInFlag v)
    (ht : FlagTail t) : withoutFlags (v ++ t) = v := by
  obtain ⟨flags, trail, htrail, rfl⟩ := ht
  rw [← List.append_assoc, withoutFlags_append_blank htrail]
  induction flags using List.reverseRecOn with
  | nil =>
    rw [List.flatMap_nil, List.append_nil]
    exact withoutFlags_eq_self htrim hflag
  | append_singleton flags f ih =>
    rw [List.flatMap_append, List.flatMap_singleton, ← List.append_assoc,
      withoutFlags_append_flag, ih]

theorem FlagTail.append {s t : Text} (hs : FlagTail s) (ht : FlagTail t) : FlagTail (s ++ t) := by
  obtain ⟨flags, trail, htrail, rfl⟩ := hs
  rw [List.append_assoc]
  obtain ⟨flags', trail', htrail', heq⟩ := ht.blank_append htrail
  exact ⟨flags ++ flags', trail', htrail', by rw [heq, List.flatMap_append, List.append_assoc]⟩

theorem FlagTail.of_flag (f : Flag) : FlagTail f.text :=
  ⟨[f], [], rfl, by simp⟩

/-- What the reversed reader leaves is followed by a tail of flags, and ends neither in a blank
nor in a flag. -/
theorem exists_flagTail_dropFlags (r : Text) (hr : Text.trimStart r = r) :
    ∃ t, r.reverse = (dropFlags r).reverse ++ t ∧ FlagTail t ∧
      Text.trimEnd (dropFlags r).reverse = (dropFlags r).reverse ∧
      ¬ EndsInFlag (dropFlags r).reverse := by
  fun_induction dropFlags r with
  | case1 r rest hdrop ih =>
    rw [← List.reverse_reverse r] at hdrop
    obtain ⟨hrest, f, trail, htrail, hsplit⟩ := dropFlag?_eq_some hdrop
    obtain ⟨t, ht, htail, hdone⟩ := ih hrest
    refine ⟨t ++ f.text ++ trail, ?_, ?_, hdone⟩
    · rw [hsplit, ht, List.append_assoc, List.append_assoc, List.append_assoc]
    · exact (htail.append (.of_flag f)).append (.of_blank htrail)
  | case2 r hdrop =>
    refine ⟨[], (List.append_nil _).symm, .of_blank rfl, ?_, ?_⟩
    · rw [Text.trimEnd_eq, List.reverse_reverse, hr]
    · rintro ⟨before, f, heq⟩
      rw [← List.reverse_reverse r, heq, dropFlag?_append_flag] at hdrop
      simp at hdrop

/-- **What is taken away from a value is a tail of flags.** -/
theorem exists_flagTail (s : Text) :
    ∃ t, s = withoutFlags s ++ t ∧ FlagTail t ∧
      Text.trimEnd (withoutFlags s) = withoutFlags s ∧ ¬ EndsInFlag (withoutFlags s) := by
  obtain ⟨b, hb, hs⟩ := Text.exists_trimEnd s
  have htrim : Text.trimStart (Text.trimEnd s).reverse = (Text.trimEnd s).reverse := by
    rw [Text.trimEnd_eq, List.reverse_reverse, Text.trimStart_trimStart]
  obtain ⟨t, ht, htail, hdone⟩ := exists_flagTail_dropFlags _ htrim
  refine ⟨t ++ b, ?_, htail.append (.of_blank hb), hdone⟩
  rw [← List.append_assoc, withoutFlags, ← ht, List.reverse_reverse, ← hs]

end StyleLift.Stylesheet
