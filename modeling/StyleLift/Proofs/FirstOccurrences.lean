import Mathlib.Data.List.Induction
import Mathlib.Data.List.Nodup
import StyleLift.Ledger

/-!
# First occurrences

Sheets and ledgers are filled one entry after the other.  An entry whose key is there already changes
what stands under this key, in its place, and a new key comes last.  So both are ordered by first
occurrences, which is the order of `List.eraseDups`.

The entry that has a key can be searched for from the front, or an index can say where it stands.
Where the index is right, both find the same entry.

* `upsert`: one entry more.
* `keys_upsert`, `mem_upsert`: what stands there then.
* `IsIndex.upsert_eq_modify`, `IsIndex.upsert_eq_concat`: **the same through an index.**
* `eraseDups_concat`, `nodup_eraseDups`: one more member of a list without its repetitions.
-/

namespace StyleLift

/-! ## Lists by key -/

section

variable {α : Type} {keyOf : α → Text} {key : Text} {fresh : α} {change : α → α}

/-- Changes the first entry with the key, or puts a fresh one at the end. -/
def upsert (keyOf : α → Text) (key : Text) (fresh : α) (change : α → α) : List α → List α
  | [] => [fresh]
  | a :: rest => if keyOf a = key then change a :: rest else a :: upsert keyOf key fresh change rest

/-- A known key keeps its place, a new one comes last. -/
theorem keys_upsert (hfresh : keyOf fresh = key) (hchange : ∀ a, keyOf (change a) = keyOf a)
    (l : List α) : (upsert keyOf key fresh change l).map keyOf =
      if key ∈ l.map keyOf then l.map keyOf else l.map keyOf ++ [key] := by
  induction l with
  | nil => simp [upsert, hfresh]
  | cons a rest ih =>
    rw [upsert]
    by_cases hkey : keyOf a = key
    · rw [if_pos hkey, if_pos (by simp [hkey]), List.map_cons, hchange, List.map_cons]
    · rw [if_neg hkey, List.map_cons, ih, List.map_cons]
      simp only [List.mem_cons, Ne.symm hkey, false_or]
      split <;> rfl

/-- What stands there was there before, is fresh, or was changed. -/
theorem mem_upsert {l : List α} {a : α} (h : a ∈ upsert keyOf key fresh change l) :
    a ∈ l ∨ a = fresh ∨ ∃ b ∈ l, a = change b := by
  induction l with
  | nil => exact Or.inr (Or.inl (List.mem_singleton.1 h))
  | cons b rest ih =>
    rw [upsert] at h
    split at h
    · rcases List.mem_cons.1 h with rfl | h
      · exact Or.inr (Or.inr ⟨b, List.mem_cons_self, rfl⟩)
      · exact Or.inl (List.mem_cons_of_mem b h)
    · rcases List.mem_cons.1 h with rfl | h
      · exact Or.inl List.mem_cons_self
      · rcases ih h with h | h | ⟨c, hc, rfl⟩
        · exact Or.inl (List.mem_cons_of_mem b h)
        · exact Or.inr (Or.inl h)
        · exact Or.inr (Or.inr ⟨c, List.mem_cons_of_mem b hc, rfl⟩)

theorem upsert_of_idxOf? {l : List α} : upsert keyOf key fresh change l =
    match (l.map keyOf).idxOf? key with
    | some place => l.modify place change
    | none => l ++ [fresh] := by
  induction l with
  | nil => rfl
  | cons a rest ih =>
    rw [upsert, List.map_cons, List.idxOf?_cons]
    by_cases hkey : keyOf a = key
    · simp [hkey]
    · rw [if_neg hkey, if_neg (by simpa using hkey), ih]
      cases (rest.map keyOf).idxOf? key with
      | none => rfl
      | some place => rfl

variable {index : List (Text × Nat)} {l : List α}

/-- A key that the index knows is changed where the index says. -/
theorem IsIndex.upsert_eq_modify (h : IsIndex index (l.map keyOf)) {place : Nat}
    (hplace : index.lookup key = some place) :
    upsert keyOf key fresh change l = l.modify place change := by
  rw [upsert_of_idxOf?, ← h key, hplace]

/-- A key that the index does not know comes last. -/
theorem IsIndex.upsert_eq_concat (h : IsIndex index (l.map keyOf))
    (hnone : index.lookup key = none) : upsert keyOf key fresh change l = l ++ [fresh] := by
  rw [upsert_of_idxOf?, ← h key, hnone]

/-- What the index leads to is what a search from the front finds. -/
theorem IsIndex.bind_getElem?_eq_lookup {β : Type} {entries : List (Text × β)}
    (h : IsIndex index (entries.map Prod.fst)) (key : Text) :
    ((index.lookup key).bind fun place => entries[place]?.map Prod.snd) = entries.lookup key := by
  rw [h key]
  clear h
  induction entries with
  | nil => rfl
  | cons entry entries ih =>
    rw [List.map_cons, List.idxOf?_cons, List.lookup_cons, ← ih]
    by_cases hkey : entry.1 = key
    · simp [hkey]
    · have hne : (entry.1 == key) = false := beq_false_of_ne hkey
      have hne' : (key == entry.1) = false := beq_false_of_ne (Ne.symm hkey)
      rw [hne', if_neg (by simp [hne])]
      cases (entries.map Prod.fst).idxOf? key with
      | none => rfl
      | some place => rfl

end

/-! ## Lists without repetitions -/

theorem eraseDups_concat {α : Type} [BEq α] [LawfulBEq α] (l : List α) (a : α) :
    (l ++ [a]).eraseDups = if a ∈ l.eraseDups then l.eraseDups else l.eraseDups ++ [a] := by
  rw [List.eraseDups_append]
  by_cases ha : a ∈ l
  · rw [if_pos (List.mem_eraseDups.2 ha)]
    simp [List.removeAll, ha]
  · rw [if_neg fun h => ha (List.mem_eraseDups.1 h)]
    simp [List.removeAll, ha, List.eraseDups_cons]

theorem nodup_eraseDups {α : Type} [BEq α] [LawfulBEq α] (l : List α) : l.eraseDups.Nodup := by
  induction l using List.reverseRecOn with
  | nil => exact List.nodup_nil
  | append_singleton l a ih =>
    rw [eraseDups_concat]
    split
    · exact ih
    · rename_i hnew
      rw [← List.concat_eq_append]
      exact List.Nodup.concat hnew ih

end StyleLift
