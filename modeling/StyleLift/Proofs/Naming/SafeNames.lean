import StyleLift.Proofs.Naming.Characters
import StyleLift.Proofs.Naming.History

/-!
# Names are safe

The name of a variable is put together from text that nobody has looked at: folders are called
anything, selectors and values hold anything.  All the same a name is two hyphens and then only word
characters and hyphens, so that it cannot end the declaration or the `var(…)` it stands in.

For the base name this is a matter of its segments.  For what a registry answers it takes an argument
about histories, since the answer may have been given before, in another context.  But an answer is
remembered under the base name it was made from, so whatever was asked before, the answer is the base
name of this context or one of its numbered alternatives.

* `IsSafeName`, `isSafeName_baseName`: the names and their segments.
* `IsVariant`, `Registry.Derives`: where the names of a registry come from, kept by every request
  (`Derives.answer`) and so by every history (`Derives.after`).
* `tokens_and_names_safe`: **tokens are short ASCII texts and names are safe.**
-/

namespace StyleLift.Naming

/-- Two hyphens, and then word characters and hyphens only. -/
def IsSafeName (name : Text) : Prop := ∃ s, name = '-' :: '-' :: s ∧ IsNamePart s

theorem IsSafeName.append {name t : Text} (h : IsSafeName name) (ht : IsNamePart t) :
    IsSafeName (name ++ t) := by
  obtain ⟨s, rfl, hs⟩ := h
  exact ⟨s ++ t, rfl, hs.append ht⟩

/-- **A base name is safe if what the context gives is made of name characters,** whatever the
folder and the selectors are. -/
theorem isSafeName_baseName {ctx : Context} (hlabel : IsNamePart ctx.label)
    (htoken : IsNamePart ctx.token) (hshort : IsNamePart ctx.shortName) :
    IsSafeName (baseName ctx) :=
  ⟨_, rfl, isNamePart_joined fun _ hs => isNamePart_of_mem_segments hlabel htoken hshort hs⟩

/-- A base name and its numbered alternatives. -/
inductive IsVariant (base : Text) : Text → Prop
  | base : IsVariant base base
  | numbered (n : Nat) : IsVariant base (Registry.numbered base n)

theorem IsVariant.isSafeName {base name : Text} (h : IsVariant base name)
    (hbase : IsSafeName base) : IsSafeName name := by
  cases h with
  | base => exact hbase
  | numbered n => exact hbase.append (isNamePart_suffix n)

namespace Registry

theorem FirstFree.isVariant {names : List Text} {base name : Text}
    (h : FirstFree names base name) : IsVariant base name := by
  cases h with
  | base => exact .base
  | numbered n => exact .numbered n

/-- Every assigned name is a variant of the base name it was assigned for. -/
def Derives (registry : Registry) : Prop :=
  ∀ record ∈ registry.assigned, IsVariant record.1.base record.2

namespace Derives

variable {registry : Registry}

theorem empty : Derives {} := by simp [Derives]

/-- The answer to a request by the default scheme is a variant of the base name of its context. -/
theorem isVariant_assign (h : registry.Derives) (property value : Text) (ctx : Context) :
    IsVariant (baseName ctx) (registry.assign property value ctx).1 := by
  rcases assign_cases registry property value ctx with ⟨name, hmem, heq⟩ | ⟨name, rfl, -, heq⟩
  · rw [heq]
    exact h _ hmem
  · rw [heq]
    exact (firstFree_nextFree registry.taken (baseName ctx)).isVariant

/-- **Every request keeps the assigned names variants of their base names.** -/
theorem answer (h : registry.Derives) (request : Request) :
    (registry.answer request).2.Derives := by
  cases request with
  | custom => exact h
  | scheme property value ctx =>
    rw [Registry.answer]
    rcases assign_cases registry property value ctx with ⟨name, -, heq⟩ | ⟨name, rfl, -, heq⟩
    · rw [heq]
      exact h
    · rw [heq]
      exact List.forall_mem_cons.2
        ⟨(firstFree_nextFree registry.taken (baseName ctx)).isVariant, h⟩

/-- A history keeps them too. -/
theorem after (h : registry.Derives) (requests : List Request) :
    (registry.after requests).Derives := by
  induction requests generalizing registry with
  | nil => exact h
  | cons request rest ih => exact ih (h.answer request)

end Derives

end Registry

/-- **Tokens are short ASCII texts and names are safe.**  The token of a value has at most 32 bytes,
is made of ASCII letters, digits, hyphens and underscores, and is cut between two characters.  In a
context with this token, and with a label and a short name of word characters and hyphens, the base
name and the answer to every request are two hyphens followed by word characters and hyphens, after
any history of requests. -/
theorem tokens_and_names_safe (value property : Text) (known : List Variable) :
    (Value.token value property known).byteLength ≤ 32 ∧
    (∀ c ∈ Value.token value property known, c.isAlphanum = true ∨ c = '-' ∨ c = '_') ∧
    (⟨min 32 (Value.fullToken value property known).byteLength⟩ : String.Pos.Raw).IsValid
      (String.ofList (Value.fullToken value property known)) ∧
    String.Pos.Raw.extract (String.ofList (Value.fullToken value property known)) ⟨0⟩
        ⟨min 32 (Value.fullToken value property known).byteLength⟩ =
      String.ofList (Value.token value property known) ∧
    ∀ ctx : Context, ctx.token = Value.token value property known → IsNamePart ctx.label →
      IsNamePart ctx.shortName → IsSafeName (baseName ctx) ∧
        ∀ (requests : List Request) (asked raw : Text),
          IsSafeName ((Registry.after {} requests).assign asked raw ctx).1 := by
  refine ⟨?_, ?_, Value.isValid_cut value property known, Value.extract_cut value property known, ?_⟩
  · rw [Value.byteLength_token]
    exact Nat.min_le_left _ _
  · intro c hc
    have hchar := Value.isTokenText_token value property known c hc
    rwa [Value.isReferenceChar, Bool.or_eq_true, Bool.or_eq_true, beq_iff_eq, beq_iff_eq,
      or_assoc] at hchar
  · intro ctx htoken hlabel hshort
    have hbase : IsSafeName (baseName ctx) :=
      isSafeName_baseName hlabel (htoken ▸ isNamePart_token value property known) hshort
    refine ⟨hbase, fun requests asked raw => ?_⟩
    exact ((Registry.Derives.empty.after requests).isVariant_assign asked raw ctx).isSafeName hbase

/-- A name that is taken already, in a folder with a blank, below a class with an umlaut and for a
quoted value. -/
theorem tokens_and_names_safe_when_taken :
    let ctx : Context := ⟨⟨"/p".toList⟩, ⟨"/p/b c/x.css".toList⟩, 1, [".größe > a".toList], .quoted,
      Value.token "\"Ä b\"".toList "font".toList [], "th".toList, "font".toList⟩
    let registry := Registry.after {} [.custom (fun _ _ ctx => baseName ctx) [] [] ctx]
    (registry.assign "font".toList "\"Ä b\"".toList ctx).1 = "--th-b-c-größe---b-font-1".toList ∧
      IsSafeName (registry.assign "font".toList "\"Ä b\"".toList ctx).1 := by
  intro ctx registry
  have hlabel : IsNamePart ctx.label := List.all_eq_true.1 (by decide)
  have hshort : IsNamePart ctx.shortName := List.all_eq_true.1 (by decide)
  exact ⟨by decide +kernel,
    ((tokens_and_names_safe "\"Ä b\"".toList "font".toList []).2.2.2.2 ctx rfl hlabel hshort).2
      [.custom (fun _ _ ctx => baseName ctx) [] [] ctx] _ _⟩

end StyleLift.Naming
