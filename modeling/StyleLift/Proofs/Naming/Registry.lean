import Mathlib.Data.List.Nodup
import Mathlib.Data.List.Perm.Subperm
import StyleLift.Naming.Registry
import StyleLift.Proofs.Text.Ascii

/-!
# Names are handed out once

The registry answers a request in one of two ways: it repeats the name that the same key got
before, or it hands out a name that nobody has.  So as long as only the default scheme is used, a
name determines the key it was assigned for, and with it the value.

* `nextFree_notMem`: the search for a free name ends at a free name.  It looks at one more
  candidate than there are names taken, and the candidates are all different.
* `Registry.Sound`: the invariant, that every assigned name is taken and belongs to one key.
* `Sound.assign`, `mem_assigned_assign`, `assigned_subset_assign`: what a request does to it.
-/

namespace StyleLift.Naming.Registry

/-! ## The search for a free name -/

/-- Different numbers make different names. -/
theorem numbered_injective (base : Text) : Function.Injective (numbered base) := by
  intro m n h
  have hdigits : Text.decimal m = Text.decimal n := by simpa [numbered] using h
  exact Text.decimal_injective hdigits

/-- The alternatives that are tried when the base name is taken. -/
def candidates (taken : List Text) (base : Text) : List Text :=
  (List.range (taken.length + 1)).map fun n => numbered base (n + 1)

theorem nodup_candidates (taken : List Text) (base : Text) : (candidates taken base).Nodup := by
  have hinj : Function.Injective fun n => numbered base (n + 1) := by
    intro m n h
    exact Nat.succ.inj (numbered_injective base h)
  exact List.Nodup.map hinj List.nodup_range

/-- Among the candidates one is free, since there are more of them than names taken. -/
theorem exists_candidate_notMem (taken : List Text) (base : Text) :
    ∃ name ∈ candidates taken base, name ∉ taken := by
  by_contra h
  have hsub : candidates taken base ⊆ taken := by
    intro name hname
    by_contra hfree
    exact h ⟨name, hname, hfree⟩
  have hlen := ((nodup_candidates taken base).subperm hsub).length_le
  rw [candidates, List.length_map, List.length_range] at hlen
  omega

/-- The name that is found is free. -/
theorem nextFree_notMem (taken : List Text) (base : Text) : nextFree taken base ∉ taken := by
  unfold nextFree
  split
  · rename_i hbase
    simpa using hbase
  · change ((candidates taken base).find? fun name => !taken.contains name).getD base ∉ taken
    cases hfind : (candidates taken base).find? fun name => !taken.contains name with
    | some name =>
      have hfree := List.find?_some hfind
      simpa using hfree
    | none =>
      obtain ⟨name, hmem, hfree⟩ := exists_candidate_notMem taken base
      have hall := List.find?_eq_none.mp hfind name hmem
      exact absurd hfree (by simpa using hall)

/-! ## Requests -/

/-- A request either repeats an earlier answer and changes nothing, or hands out a free name and
records it. -/
theorem assign_cases (registry : Registry) (property value : Text) (ctx : Context) :
    (∃ name, (⟨property, value, baseName ctx⟩, name) ∈ registry.assigned ∧
        registry.assign property value ctx = (name, registry)) ∨
      ∃ name, name = nextFree registry.taken (baseName ctx) ∧ name ∉ registry.taken ∧
        registry.assign property value ctx =
          (name, ⟨name :: registry.taken,
            (⟨property, value, baseName ctx⟩, name) :: registry.assigned⟩) := by
  cases hlook : registry.assigned.lookup ⟨property, value, baseName ctx⟩ with
  | some name =>
    obtain ⟨before, after, hsplit, -⟩ := List.lookup_eq_some_iff.mp hlook
    refine Or.inl ⟨name, ?_, ?_⟩
    · rw [hsplit]
      exact List.mem_append_right _ List.mem_cons_self
    · rw [assign, hlook]
  | none =>
    refine Or.inr ⟨nextFree registry.taken (baseName ctx), rfl, nextFree_notMem _ _, ?_⟩
    rw [assign, hlook]

/-- Every assigned name is taken, and belongs to one key. -/
structure Sound (registry : Registry) : Prop where
  mem_taken : ∀ {key : Key} {name : Text},
    (key, name) ∈ registry.assigned → name ∈ registry.taken
  key_eq : ∀ {key key' : Key} {name : Text},
    (key, name) ∈ registry.assigned → (key', name) ∈ registry.assigned → key = key'

/-- The registry a run starts with is sound. -/
theorem Sound.empty : Sound {} := by
  constructor <;> simp

/-- **Requests keep the registry sound.** -/
theorem Sound.assign {registry : Registry} (h : registry.Sound) (property value : Text)
    (ctx : Context) : (registry.assign property value ctx).2.Sound := by
  rcases assign_cases registry property value ctx with ⟨name, -, heq⟩ | ⟨name, -, hfree, heq⟩
  · rw [heq]
    exact h
  · rw [heq]
    -- the new name differs from all assigned ones, because these are taken
    have hnew : ∀ key, (key, name) ∉ registry.assigned := fun key hkey =>
      hfree (h.mem_taken hkey)
    constructor
    · intro key other hmem
      rcases List.mem_cons.mp hmem with heq | hmem
      · rw [(Prod.mk.inj heq).2]
        exact List.mem_cons_self
      · exact List.mem_cons_of_mem _ (h.mem_taken hmem)
    · intro key key' other hmem hmem'
      rcases List.mem_cons.mp hmem with heq | hmem <;>
        rcases List.mem_cons.mp hmem' with heq' | hmem'
      · rw [(Prod.mk.inj heq).1, (Prod.mk.inj heq').1]
      · rw [(Prod.mk.inj heq).2] at hmem'
        exact absurd hmem' (hnew key')
      · rw [(Prod.mk.inj heq').2] at hmem
        exact absurd hmem (hnew key)
      · exact h.key_eq hmem hmem'

/-- The answer to a request is recorded under its key. -/
theorem mem_assigned_assign (registry : Registry) (property value : Text) (ctx : Context) :
    (⟨property, value, baseName ctx⟩, (registry.assign property value ctx).1) ∈
      (registry.assign property value ctx).2.assigned := by
  rcases assign_cases registry property value ctx with ⟨name, hmem, heq⟩ | ⟨name, -, -, heq⟩
  · rw [heq]
    exact hmem
  · rw [heq]
    exact List.mem_cons_self

/-- Nothing that was recorded is forgotten. -/
theorem assigned_subset_assign (registry : Registry) (property value : Text) (ctx : Context) :
    registry.assigned ⊆ (registry.assign property value ctx).2.assigned := by
  rcases assign_cases registry property value ctx with ⟨name, -, heq⟩ | ⟨name, -, -, heq⟩
  · rw [heq]
    exact List.Subset.refl _
  · rw [heq]
    exact List.subset_cons_self _ _

/-- What holds of all recorded names, and of the free name that a request may need, holds of all
names that are recorded after it. -/
theorem forall_assigned_assign {P : Text → Prop} {registry : Registry} {ctx : Context}
    (h : ∀ record ∈ registry.assigned, P record.2)
    (hfree : P (nextFree registry.taken (baseName ctx))) (property value : Text) :
    ∀ record ∈ (registry.assign property value ctx).2.assigned, P record.2 := by
  rcases assign_cases registry property value ctx with ⟨name, -, heq⟩ | ⟨name, rfl, -, heq⟩
  · rw [heq]
    exact h
  · rw [heq]
    exact List.forall_mem_cons.2 ⟨hfree, h⟩

end StyleLift.Naming.Registry
