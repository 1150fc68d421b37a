import StyleLift.Proofs.Disk.Descent
import StyleLift.Proofs.Path.Relative

/-!
# What is shown of a path below a root

A scan puts paths together by joining names to its root, and takes the root off again before it asks
a glob.  What is left is a text that was cut out of the path, and it is the names with one separator
between them, whatever the root looks like: it may end in a separator or hold parts that are no
components.

* `pieces_below`: the parts of a path that is put together from names.
* `relativeTo?_of_pieces`: what is left when the parts of the root are taken off.
* `shown_below`: **names below a root are shown as they are,** but for their backslashes.
-/

namespace StyleLift.Path

open Text (pieces)

variable {root : Path} {names : List Text}

/-- **The parts of a path that is put together from names** are those of the root, without an empty
one at the end, and the names. -/
theorem pieces_below (hroot : root.text ≠ []) (hne : names ≠ [])
    (hnames : ∀ name ∈ names, IsFileName name ∧ '/' ∉ name) :
    ∃ front, (pieces '/' root.text = front ∨ pieces '/' root.text = front ++ [[]]) ∧
      pieces '/' (root.below names).text = front ++ names := by
  induction names using List.reverseRecOn with
  | nil => exact absurd rfl hne
  | append_singleton names name ih =>
    have hbefore : ∀ other ∈ names, IsFileName other ∧ '/' ∉ other := fun other hother =>
      hnames other (List.mem_append_left _ hother)
    obtain ⟨-, hslash⟩ := hnames name (by simp)
    have hhead : name.head? ≠ some '/' := fun hhead => hslash (List.mem_of_head? hhead)
    obtain ⟨front, hfront, hjoined, -⟩ :=
      exists_pieces_join (IsBelow.of_names hroot hbefore).text_ne_nil hhead
    rw [Text.pieces_of_notMem hslash] at hjoined
    have hbelow : root.below (names ++ [name]) = (root.below names).join name :=
      List.foldl_concat ..
    rcases List.eq_nil_or_concat' names with rfl | ⟨others, last, rfl⟩
    · exact ⟨front, hfront, hjoined⟩
    · obtain ⟨rootFront, hrootFront, hpieces⟩ := ih (by simp) hbefore
      refine ⟨rootFront, hrootFront, ?_⟩
      rw [hbelow, hjoined, ← List.append_assoc]
      rcases hfront with hfront | hfront
      · rw [← hfront, hpieces]
      · -- the part before the name is a name as well, so it is not empty
        have hlast := congrArg List.getLast? (hpieces.symm.trans hfront)
        rw [← List.append_assoc, List.getLast?_concat, List.getLast?_concat] at hlast
        have hcounts := (hbefore last (by simp)).1.counts
        rw [Option.some.inj hlast] at hcounts
        cases hcounts

/-- What is left of a path when the parts of the root are taken off. -/
theorem relativeTo?_of_pieces {p : Path} {first : Text} {rest : List Text} {c : Component}
    (hp : pieces '/' p.text = first :: (rest ++ names)) (hroot : root.components = c :: steps rest)
    (hstarts : root.components <+: p.components) (hcounts : ∀ name ∈ names, counts name = true) :
    p.relativeTo? root = some ⟨Text.joined ['/'] names⟩ := by
  have hparts : p.parts = (first, rest ++ names) := by
    rw [parts, hp]
  have hlength : (steps rest).length = (rest.filter counts).length := List.length_map _
  have hleft : (dropComponents (steps rest).length (rest ++ names)).dropWhile
      (fun part => !counts part) = names := by
    rw [hlength, dropWhile_dropComponents]
    cases names with
    | nil => rfl
    | cons name names =>
      exact List.dropWhile_cons_of_neg (by simp [hcounts name List.mem_cons_self])
  have hwhole : dropTrailing names = names := by
    rcases List.eq_nil_or_concat' names with rfl | ⟨names, name, rfl⟩
    · rfl
    · simp [dropTrailing, hcounts name (by simp)]
  rw [relativeTo?, hparts]
  rw [← List.isPrefixOf_iff_prefix] at hstarts
  rw [hroot] at hstarts ⊢
  dsimp only
  rw [if_pos hstarts, hleft, hwhole]

/-- **Names below a root are shown as they are,** but for their backslashes. -/
theorem shown_below (hroot : root.text ≠ [])
    (hnames : ∀ name ∈ names, IsFileName name ∧ '/' ∉ name) :
    (root.below names).shown root = Text.exchange '\\' '/' (Text.joined ['/'] names) := by
  have hstarts : root.components <+: (root.below names).components := by
    rw [(IsBelow.of_names hroot hnames).components]
    exact List.prefix_append _ _
  have hrelative : (root.below names).relativeTo? root = some ⟨Text.joined ['/'] names⟩ := by
    by_cases hne : names = []
    · subst hne
      obtain ⟨first, rest, hpieces⟩ := List.exists_cons_of_ne_nil (Text.pieces_ne_nil '/' root.text)
      obtain ⟨c, hc⟩ := exists_components_cons hroot hpieces
      exact relativeTo?_of_pieces (by rw [List.append_nil]; exact hpieces) hc hstarts (by simp)
    · obtain ⟨front, hfront, hpieces⟩ := pieces_below hroot hne hnames
      obtain ⟨first, rest, rfl⟩ := List.exists_cons_of_ne_nil (ne_nil_of_pieces hroot hfront)
      -- a separator at the end of the root is a part more, and no component
      obtain ⟨c, hc⟩ : ∃ c, root.components = c :: steps rest := by
        rcases hfront with hfront | hfront
        · exact exists_components_cons hroot hfront
        · obtain ⟨c, hc⟩ := exists_components_cons hroot (List.cons_append ▸ hfront)
          exact ⟨c, by rw [hc, steps_append, steps_cons_of_not_counts rfl, steps_nil,
            List.append_nil]⟩
      exact relativeTo?_of_pieces hpieces hc hstarts fun name hname => (hnames name hname).1.counts
  rw [shown, hrelative, Option.getD_some]

end StyleLift.Path
