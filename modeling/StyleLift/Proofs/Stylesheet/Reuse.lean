import StyleLift.Proofs.Stylesheet.Frames
import StyleLift.Proofs.Stylesheet.Grammar

/-!
# Values that were read can be written again

The value of a declaration is not a piece of its source: the comments in it and the flags behind
it have been cut out, and where a comment stood between two words there is a blank now.  Cutting
could in principle join two characters to a new comment or leave a string or a parenthesis open.
It does not.  A comment that is cut out between `/` and `*` leaves a blank, since both are solid
characters; strings are tokens, and the cut never runs through one; and a statement that a
semicolon or a brace ends has closed its parentheses before.

The last statement of a source need not end in a semicolon, and may leave a parenthesis open.  It
stands outside all blocks, so inside a block every value is readable.

* `IsValue.isReadable`: the tokens of a value that closes its parentheses.
* `isReadable_of_reading`: every value inside a block.
-/

namespace StyleLift.Stylesheet

/-- What remains of a value without its comments can be written again. -/
theorem IsValue.isReadable {value : List Token} (h : IsValue value)
    (hfits : FitsAll (.ofStatements .css) 0 none value) (hclosed : finalDepth 0 value = 0) :
    IsReadable .css (spelling (bare none value)) := by
  obtain ⟨hne, hstart⟩ := h.spelling_bare_ne_nil
  have hsettled : Settled .css 0 (bare none value) :=
    ⟨fun _ ht => of_mem_bare h.simple ht, fitsAll_bare h.simple hfits (by simp) none,
      by rw [finalDepth_bare h.simple, hclosed]⟩
  exact ⟨⟨bare none value, rfl, hsettled⟩, Text.trim_eq_self_iff.2 ⟨hstart, h.trimEnd_eq⟩, hne,
    h.not_endsInFlag⟩

/-- The tokens of the value of a declaration. -/
theorem exists_isValue_of_declaration? {body : List Token} {next : Option Char}
    (hbody : IsBody .css next body) {offset line : Nat} {blocks : List Text} {stop : Stop}
    {d : Declaration} (h : Statement.declaration? .css offset line blocks ⟨body, stop⟩ = some d) :
    isPropertyName d.property = true ∧ ∃ value, IsValue value ∧
      d.value = spelling (bare none value) ∧ FitsAll (.ofStatements .css) 0 none value ∧
      finalDepth 0 value = finalDepth 0 body := by
  obtain ⟨f, value, rfl, hvalue, hmeaning, -⟩ := exists_frame hbody h
  have hproperty : d.property = f.name := congrArg Meaning.property hmeaning
  obtain ⟨⟨-, hfits⟩, -⟩ :
      (_ ∧ FitsAll (.ofStatements .css) (finalDepth 0 f.front) _ value) ∧ _ := by
    have hall := hbody.fits
    rwa [Frame.around, fitsAll_append, fitsAll_append] at hall
  rw [finalDepth_of_plain f.plain_front] at hfits
  rw [hproperty]
  exact ⟨f.name_ok, value, hvalue, congrArg Meaning.value hmeaning, hfits.atEnd,
    (f.finalDepth_around 0).symm⟩

/-- The declaration of a statement that closes its parentheses has a property name and a value
that can be written again. -/
theorem isReadable_of_declaration? {body : List Token} {next : Option Char}
    (hbody : IsBody .css next body) (hdepth : finalDepth 0 body = 0) {offset line : Nat}
    {blocks : List Text} {stop : Stop} {d : Declaration}
    (h : Statement.declaration? .css offset line blocks ⟨body, stop⟩ = some d) :
    isPropertyName d.property = true ∧ IsReadable .css d.value := by
  obtain ⟨hproperty, value, hvalue, hdvalue, hfits, hclosed⟩ := exists_isValue_of_declaration? hbody h
  rw [hdvalue]
  exact ⟨hproperty, hvalue.isReadable hfits (hclosed.trans hdepth)⟩

/-- Inside a block every declaration is one of a statement that closes its parentheses. -/
theorem Reading.exists_closed {dialect : Dialect} {offset : Nat} {blocks : List Text}
    {ts : List Token} {ds : List Declaration} (h : Reading dialect offset blocks ts ds)
    {d : Declaration} (hd : d ∈ ds) (hblock : d.selectors ≠ []) :
    ∃ body next offset line blocks stop, IsBody dialect next body ∧ finalDepth 0 body = 0 ∧
      Statement.declaration? dialect offset line blocks ⟨body, stop⟩ = some d := by
  induction h with
  | finish hbody =>
    -- the last statement stands outside all blocks
    obtain ⟨_, _, _, _, _, _, hmeaning, _⟩ := exists_of_declaration? (Option.mem_toList.1 hd)
    exact absurd (congrArg Meaning.selectors hmeaning) hblock
  | separator hbody hdepth h ih =>
    rcases List.mem_append.1 hd with hd | hd
    · exact ⟨_, _, _, _, _, _, hbody, hdepth, Option.mem_toList.1 hd⟩
    · exact ih hd
  | closing hbody hdepth h ih =>
    rcases List.mem_append.1 hd with hd | hd
    · exact ⟨_, _, _, _, _, _, hbody, hdepth, Option.mem_toList.1 hd⟩
    · exact ih hd
  | opening hbody hdepth h ih => exact ih hd

/-- **Inside a block, every value can be written again.** -/
theorem isReadable_of_reading {offset : Nat} {blocks : List Text} {ts : List Token}
    {ds : List Declaration} (h : Reading .css offset blocks ts ds) {d : Declaration}
    (hd : d ∈ ds) (hblock : d.selectors ≠ []) :
    isPropertyName d.property = true ∧ IsReadable .css d.value := by
  obtain ⟨body, next, offset, line, blocks, stop, hbody, hdepth, hfound⟩ :=
    h.exists_closed hd hblock
  exact isReadable_of_declaration? hbody hdepth hfound

end StyleLift.Stylesheet
