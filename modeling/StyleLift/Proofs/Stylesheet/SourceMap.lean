import StyleLift.Proofs.Stylesheet.ByteRemoval

/-!
# What is left maps back to the source

Without its comments a stretch of source is a shorter text, and for every byte of it the offset is
known from which it comes.  This file says what that map is worth.  Every byte of the source is
either copied or belongs to one comment.  What is not copied from the source is the space at the
start of a comment whose two neighbours have to stay apart.  A comment starts where its mark stands
outside strings, it goes to its first end, and no such mark is copied.  Which string is open is told by
the bytes kept so far, since a quote in a comment opens none.

All this is one property, `IsExactMap`, of the bytes kept so far and the bytes still to be read, so it
is proved along the pass over the bytes: one lemma for a byte that is copied, one for a comment that
is taken out.

* `nestingAfter`: what is open behind some bytes, read one by one.
* `IsExactMap`: the map from what is left to the source.
* `IsExactMap.keep`, `IsExactMap.cut`: what one step of the pass does.
* `isExactMap_removeFrom`: **the whole pass keeps an exact map.**
* `exists_copies_removeFrom`: without line comments, what is left is copied whole the second time.
* `uncommented_maps_back`: all of it for a text, whose bytes these are.
-/

namespace StyleLift.Stylesheet

open Glob (Byte bytesOf utf8)

/-! ## The map -/

/-- One byte more: what is open, and whether the next byte is escaped. -/
def readByte (state : Nesting × Bool) (b : Byte) : Nesting × Bool :=
  if state.2 then (state.1, false)
  else if state.1.escapes b then (state.1, true)
  else (state.1.after b, false)

/-- What is open behind some bytes, and whether they end in a backslash that escapes. -/
def reading (bytes : List Byte) : Nesting × Bool := bytes.foldl readByte ({}, false)

/-- What is open behind some bytes. -/
def nestingAfter (bytes : List Byte) : Nesting := (reading bytes).1

/-- The bytes start with the mark of a comment that counts where `nesting` is open: `/*` outside
strings, and in the one dialect `//` outside strings and parentheses. -/
def StartsComment (dialect : Dialect) (nesting : Nesting) (bytes : List Byte) : Prop :=
  nesting.quote = none ∧
    (['/'.toUInt8, '*'.toUInt8] <+: bytes ∨
      dialect = .scss ∧ nesting.depth = 0 ∧ ['/'.toUInt8, '/'.toUInt8] <+: bytes)

/-- A comment in front of `rest`, up to its first end: the first `*/` or, if there is none, the end
of all bytes, and for a line comment the end of the line. -/
def IsCommentBefore (comment rest : List Byte) : Prop :=
  (∃ body, comment = '/'.toUInt8 :: '*'.toUInt8 :: body ∧
    ¬ ['*'.toUInt8, '/'.toUInt8] <:+: body.dropLast ∧
    (['*'.toUInt8, '/'.toUInt8] <:+ body ∨ rest = [])) ∨
  ∃ line, comment = '/'.toUInt8 :: '/'.toUInt8 :: line ∧ '\n'.toUInt8 ∉ line ∧
    ∀ b, rest.head? = some b → b = '\n'.toUInt8

/-- The bytes of a source that starts at `base`, from an offset on. -/
def bytesFrom (base : Nat) (source : List Byte) (offset : Nat) : List Byte :=
  source.drop (offset - base)

/-- The offsets of a stretch. -/
def Span.offsets (span : Span) : List Nat := List.range' span.start (span.stop - span.start)

/-- The kept bytes before an offset. -/
def bytesBefore (kept : List (Byte × Nat)) (offset : Nat) : List Byte :=
  (kept.filter fun p => p.2 < offset).map Prod.fst

section

variable (dialect : Dialect) (lead : List Byte) (base : Nat) (source : List Byte)
  (kept : List (Byte × Nat))

/-- A byte is the one of the source at its offset, and starts no comment there.  Here and below,
`lead` has been kept before all others. -/
structure IsCopied (p : Byte × Nat) : Prop where
  byte : (bytesFrom base source p.2).head? = some p.1
  plain : ¬ StartsComment dialect (nestingAfter (lead ++ bytesBefore kept p.2))
    (bytesFrom base source p.2)

/-- A stretch of the source is a comment outside strings, and leaves one space if the byte kept
before it and the byte that follows it are there and not blank. -/
structure IsCutOut (span : Span) : Prop where
  starts : StartsComment dialect (nestingAfter (lead ++ bytesBefore kept span.start))
    (bytesFrom base source span.start)
  whole : IsCommentBefore ((bytesFrom base source span.start).take (span.stop - span.start))
    (bytesFrom base source span.stop)
  space : kept.filter (fun p => p.2 = span.start) =
    if isSolidByte (lead ++ bytesBefore kept span.start).getLast? &&
      isSolidByte (bytesFrom base source span.stop).head? then [(' '.toUInt8, span.start)] else []

end

namespace Remains

/-- The kept bytes with their offsets. -/
def placed (r : Remains) : List (Byte × Nat) := r.bytes.zip r.offsets

/-- The kept bytes without those that stand at the start of a comment. -/
def copied (r : Remains) : List (Byte × Nat) :=
  r.placed.filter fun p => p.2 ∉ r.comments.map Span.start

end Remains

/-- **What is left maps back to the source,** which starts at `base`. -/
structure IsExactMap (dialect : Dialect) (lead : List Byte) (base : Nat) (source : List Byte)
    (r : Remains) : Prop where
  /-- Every kept byte has an offset. -/
  measured : r.bytes.length = r.offsets.length
  increasing : r.offsets.Pairwise (· < ·)
  apart : r.comments.Pairwise (·.stop ≤ ·.start)
  /-- Every byte of the source is copied or in a comment, and only once. -/
  covers : (r.copied.map Prod.snd ++ r.comments.flatMap Span.offsets).Perm
    (List.range' base source.length)
  copied : ∀ p ∈ r.copied, IsCopied dialect lead base source r.placed p
  cutOut : ∀ span ∈ r.comments, IsCutOut dialect lead base source r.placed span

/-! ## Places -/

section

variable {base n : Nat} {text source : List Byte} {kept : List (Byte × Nat)} {piece : List Byte}

theorem bytesFrom_self (base : Nat) (source : List Byte) : bytesFrom base source base = source := by
  rw [bytesFrom, Nat.sub_self, List.drop_zero]

/-- What stands behind `text` does not depend on it. -/
theorem bytesFrom_append (h : base + text.length ≤ n) :
    bytesFrom base (text ++ source) n = bytesFrom (base + text.length) source n := by
  have hskip : n - base = text.length + (n - (base + text.length)) := by omega
  rw [bytesFrom, bytesFrom, hskip, List.drop_length_add_append]

theorem bytesBefore_append (hn : base < n) :
    bytesBefore (piece.map (fun b => (b, base)) ++ kept) n = piece ++ bytesBefore kept n := by
  have hall : ∀ p ∈ piece.map (fun b => (b, base)), decide (p.2 < n) = true := by
    intro p hp
    obtain ⟨b, -, rfl⟩ := List.mem_map.1 hp
    exact decide_eq_true hn
  rw [bytesBefore, bytesBefore, List.filter_append, List.filter_eq_self.2 hall, List.map_append,
    List.map_map]
  exact congrArg (· ++ _) (List.map_id piece)

/-- Nothing is kept before the first offset. -/
theorem bytesBefore_eq_nil (h : ∀ p ∈ kept, n ≤ p.2) : bytesBefore kept n = [] := by
  rw [bytesBefore, List.map_eq_nil_iff, List.filter_eq_nil_iff]
  intro p hp
  have hle := h p hp
  simpa using hle

theorem filter_offset_append (hn : base ≠ n) :
    (piece.map (fun b => (b, base)) ++ kept).filter (fun p => p.2 = n) =
      kept.filter fun p => p.2 = n := by
  have hnone : (piece.map fun b => (b, base)).filter (fun p => decide (p.2 = n)) = [] := by
    rw [List.filter_eq_nil_iff]
    intro p hp
    obtain ⟨b, -, rfl⟩ := List.mem_map.1 hp
    simpa using hn
  rw [List.filter_append, hnone, List.nil_append]

end

/-! ## One step of the pass -/

theorem IsCommentBefore.two_le_length {comment rest : List Byte}
    (h : IsCommentBefore comment rest) : 2 ≤ comment.length := by
  rcases h with ⟨body, rfl, -⟩ | ⟨line, rfl, -⟩ <;> exact Nat.le_add_left 2 _

section

variable {dialect : Dialect} {lead : List Byte} {base : Nat} {source text piece : List Byte}
  {kept : List (Byte × Nat)} {span : Span}

theorem IsCutOut.start_lt_stop (h : IsCutOut dialect lead base source kept span) :
    span.start < span.stop := by
  have htwo := h.whole.two_le_length
  rw [List.length_take] at htwo
  omega

/-- A byte stays copied when a piece is put before it. -/
theorem IsCopied.shift {p : Byte × Nat}
    (h : IsCopied dialect (lead ++ piece) (base + text.length) source kept p) (htext : text ≠ [])
    (hp : base + text.length ≤ p.2) :
    IsCopied dialect lead base (text ++ source) (piece.map (fun b => (b, base)) ++ kept) p := by
  have hpos := List.length_pos_iff.2 htext
  refine ⟨?_, ?_⟩
  · rw [bytesFrom_append hp]
    exact h.byte
  · rw [bytesFrom_append hp, bytesBefore_append (by omega), ← List.append_assoc]
    exact h.plain

/-- A comment stays cut out when a piece is put before it. -/
theorem IsCutOut.shift (h : IsCutOut dialect (lead ++ piece) (base + text.length) source kept span)
    (htext : text ≠ []) (hspan : base + text.length ≤ span.start) :
    IsCutOut dialect lead base (text ++ source) (piece.map (fun b => (b, base)) ++ kept) span := by
  have hpos := List.length_pos_iff.2 htext
  have hstop := h.start_lt_stop
  have hbefore : lead ++ bytesBefore (piece.map (fun b => (b, base)) ++ kept) span.start =
      lead ++ piece ++ bytesBefore kept span.start := by
    rw [bytesBefore_append (by omega), List.append_assoc]
  refine ⟨?_, ?_, ?_⟩
  · rw [hbefore, bytesFrom_append hspan]
    exact h.starts
  · rw [bytesFrom_append hspan, bytesFrom_append (by omega)]
    exact h.whole
  · rw [hbefore, bytesFrom_append (by omega), filter_offset_append (by omega)]
    exact h.space

end

section

variable {dialect : Dialect} {lead : List Byte} {base : Nat} {source text : List Byte} {r : Remains}

namespace IsExactMap

theorem base_le_start (h : IsExactMap dialect lead base source r) {span : Span}
    (hspan : span ∈ r.comments) : base ≤ span.start := by
  have hlt := (h.cutOut span hspan).start_lt_stop
  have hfirst : span.start ∈ span.offsets := List.mem_range'_1.2 ⟨Nat.le_refl _, by omega⟩
  have hmem : span.start ∈ List.range' base source.length :=
    h.covers.subset (List.mem_append_right _ (List.mem_flatMap.2 ⟨span, hspan, hfirst⟩))
  exact (List.mem_range'_1.1 hmem).1

theorem base_le_of_mem_placed (h : IsExactMap dialect lead base source r) {p : Byte × Nat}
    (hp : p ∈ r.placed) : base ≤ p.2 := by
  by_cases hstart : p.2 ∈ r.comments.map Span.start
  · obtain ⟨span, hspan, heq⟩ := List.mem_map.1 hstart
    exact heq ▸ h.base_le_start hspan
  · have hcopied : p ∈ r.copied := List.mem_filter.2 ⟨hp, decide_eq_true hstart⟩
    have hmem : p.2 ∈ List.range' base source.length :=
      h.covers.subset (List.mem_append_left _ (List.mem_map_of_mem hcopied))
    exact (List.mem_range'_1.1 hmem).1

theorem base_le_of_mem_offsets (h : IsExactMap dialect lead base source r) {offset : Nat}
    (hoffset : offset ∈ r.offsets) : base ≤ offset := by
  have hsnd : r.placed.map Prod.snd = r.offsets :=
    List.map_snd_zip (Nat.le_of_eq h.measured.symm)
  rw [← hsnd] at hoffset
  obtain ⟨p, hp, rfl⟩ := List.mem_map.1 hoffset
  exact h.base_le_of_mem_placed hp

end IsExactMap

theorem isExactMap_nil : IsExactMap dialect lead base [] ⟨[], [], []⟩ where
  measured := rfl
  increasing := .nil
  apart := .nil
  covers := .refl _
  copied := fun _ hp => absurd hp List.not_mem_nil
  cutOut := fun _ hspan => absurd hspan List.not_mem_nil

/-- **A byte is copied.** -/
theorem IsExactMap.keep {b : Byte} (h : IsExactMap dialect (lead ++ [b]) (base + 1) source r)
    (hplain : ¬ StartsComment dialect (nestingAfter lead) (b :: source)) :
    IsExactMap dialect lead base (b :: source) (r.keep base [b]) := by
  have hcopied : (r.keep base [b]).copied = (b, base) :: r.copied := by
    refine List.filter_cons_of_pos (decide_eq_true ?_)
    intro hstart
    obtain ⟨span, hspan, heq⟩ := List.mem_map.1 hstart
    have hle := h.base_le_start hspan
    omega
  refine ⟨congrArg (· + 1) h.measured, ?_, h.apart, ?_, ?_, ?_⟩
  · exact List.pairwise_cons.2 ⟨fun _ => h.base_le_of_mem_offsets, h.increasing⟩
  · rw [hcopied]
    exact h.covers.cons base
  · rw [hcopied, List.forall_mem_cons]
    refine ⟨⟨?_, ?_⟩, ?_⟩
    · rw [bytesFrom_self]
      rfl
    · have hnone : bytesBefore ((b, base) :: r.placed) base = [] := by
        refine bytesBefore_eq_nil (List.forall_mem_cons.2 ⟨Nat.le_refl base, fun p hp => ?_⟩)
        exact Nat.le_of_succ_le (h.base_le_of_mem_placed hp)
      rw [bytesFrom_self]
      show ¬ StartsComment dialect
        (nestingAfter (lead ++ bytesBefore ((b, base) :: r.placed) base)) (b :: source)
      rw [hnone, List.append_nil]
      exact hplain
    · intro p hp
      have hshift : IsCopied dialect lead base ([b] ++ source) ([(b, base)] ++ r.placed) p :=
        (h.copied p hp).shift (List.cons_ne_nil b [])
          (h.base_le_of_mem_placed (List.mem_filter.1 hp).1)
      exact hshift
  · intro span hspan
    have hshift : IsCutOut dialect lead base ([b] ++ source) ([(b, base)] ++ r.placed) span :=
      (h.cutOut span hspan).shift (List.cons_ne_nil b []) (h.base_le_start hspan)
    exact hshift

theorem gapBytes_cases (before after : Option Byte) :
    gapBytes before after = [] ∨ gapBytes before after = [' '.toUInt8] := by
  unfold gapBytes
  split
  · exact Or.inr rfl
  · exact Or.inl rfl

/-- The space is the only byte that a comment adds, and it is not copied. -/
theorem Remains.copied_cut {gap : List Byte} {n : Nat}
    (hplaced : (r.cut base n gap).placed = gap.map (fun b => (b, base)) ++ r.placed)
    (hbeyond : ∀ p ∈ r.placed, base < p.2) : (r.cut base n gap).copied = r.copied := by
  have hspace : (gap.map fun b => (b, base)).filter
      (fun p => decide (p.2 ∉ base :: r.comments.map Span.start)) = [] := by
    rw [List.filter_eq_nil_iff]
    intro p hp
    obtain ⟨b, -, rfl⟩ := List.mem_map.1 hp
    simp
  have hothers : r.placed.filter (fun p => decide (p.2 ∉ base :: r.comments.map Span.start)) =
      r.copied := by
    refine List.filter_congr fun p hp => decide_eq_decide.2 ?_
    rw [List.mem_cons, not_or, and_iff_right (Nat.ne_of_gt (hbeyond p hp))]
  rw [Remains.copied, hplaced, List.filter_append]
  exact congrArg₂ (· ++ ·) hspace hothers

/-- The comment in front is cut out. -/
theorem isCutOut_first {gap : List Byte} {kept : List (Byte × Nat)}
    (hgap : gap = gapBytes lead.getLast? source.head?)
    (hstarts : StartsComment dialect (nestingAfter lead) (text ++ source))
    (hwhole : IsCommentBefore text source) (hbeyond : ∀ p ∈ kept, base < p.2) :
    IsCutOut dialect lead base (text ++ source) (gap.map (fun b => (b, base)) ++ kept)
      ⟨base, base + text.length⟩ := by
  have hnone : bytesBefore (gap.map (fun b => (b, base)) ++ kept) base = [] := by
    refine bytesBefore_eq_nil fun p hp => ?_
    rcases List.mem_append.1 hp with hp | hp
    · obtain ⟨b, -, rfl⟩ := List.mem_map.1 hp
      exact Nat.le_refl base
    · exact Nat.le_of_lt (hbeyond p hp)
  have hrest : bytesFrom base (text ++ source) (base + text.length) = source := by
    rw [bytesFrom_append (Nat.le_refl _), bytesFrom_self]
  have hspace : (gap.map (fun b => (b, base)) ++ kept).filter (fun p => p.2 = base) =
      gap.map fun b => (b, base) := by
    have hothers : kept.filter (fun p => decide (p.2 = base)) = [] := by
      rw [List.filter_eq_nil_iff]
      intro p hp
      simpa using Nat.ne_of_gt (hbeyond p hp)
    rw [List.filter_append, hothers, List.append_nil, List.filter_eq_self]
    intro p hp
    obtain ⟨b, -, rfl⟩ := List.mem_map.1 hp
    exact decide_eq_true rfl
  refine ⟨?_, ?_, ?_⟩
  · rw [hnone, List.append_nil, bytesFrom_self]
    exact hstarts
  · rw [bytesFrom_self, hrest, Nat.add_sub_cancel_left, List.take_left]
    exact hwhole
  · rw [hspace, hnone, List.append_nil, hrest, hgap, gapBytes]
    split <;> rfl

/-- **A comment is taken out.** -/
theorem IsExactMap.cut {gap : List Byte} (hgap : gap = gapBytes lead.getLast? source.head?)
    (h : IsExactMap dialect (lead ++ gap) (base + text.length) source r)
    (hstarts : StartsComment dialect (nestingAfter lead) (text ++ source))
    (hwhole : IsCommentBefore text source) :
    IsExactMap dialect lead base (text ++ source) (r.cut base text.length gap) := by
  have htwo := hwhole.two_le_length
  have htext : text ≠ [] := List.length_pos_iff.1 (by omega)
  have hcases : gap = [] ∨ gap = [' '.toUInt8] := hgap ▸ gapBytes_cases _ _
  have hplaced : (r.cut base text.length gap).placed =
      gap.map (fun b => (b, base)) ++ r.placed := by
    rcases hcases with rfl | rfl <;> rfl
  have hbeyond : ∀ p ∈ r.placed, base < p.2 := by
    intro p hp
    have hle := h.base_le_of_mem_placed hp
    omega
  have hcopied := Remains.copied_cut hplaced hbeyond
  refine ⟨?_, ?_, List.pairwise_cons.2 ⟨fun _ => h.base_le_start, h.apart⟩, ?_, ?_, ?_⟩
  · show (gap ++ r.bytes).length = (List.range' base gap.length ++ r.offsets).length
    rw [List.length_append, List.length_append, List.length_range', h.measured]
  · rcases hcases with rfl | rfl
    · exact h.increasing
    · refine List.pairwise_cons.2 ⟨fun offset hoffset => ?_, h.increasing⟩
      have hle := h.base_le_of_mem_offsets hoffset
      omega
  · rw [hcopied]
    have hspan : Span.offsets ⟨base, base + text.length⟩ = List.range' base text.length := by
      rw [Span.offsets, Nat.add_sub_cancel_left]
    show (r.copied.map Prod.snd ++ (Span.offsets ⟨base, base + text.length⟩ ++
      r.comments.flatMap Span.offsets)).Perm _
    rw [hspan, List.length_append, ← List.range'_append_1]
    exact (List.perm_append_comm_assoc _ _ _).trans (h.covers.append_left _)
  · rw [hcopied, hplaced]
    intro p hp
    exact (h.copied p hp).shift htext (h.base_le_of_mem_placed (List.mem_filter.1 hp).1)
  · rw [hplaced]
    refine List.forall_mem_cons.2 ⟨?_, fun span hspan => ?_⟩
    · exact isCutOut_first hgap hstarts hwhole hbeyond
    · exact (h.cutOut span hspan).shift htext (h.base_le_start hspan)

end

/-! ## The whole pass -/

theorem pair_prefix_cons_iff {x y b : Byte} {rest : List Byte} :
    [x, y] <+: b :: rest ↔ b = x ∧ rest.head? = some y := by
  rw [List.cons_prefix_cons, eq_comm]
  cases rest with
  | nil => simp
  | cons c rest => simp [List.cons_prefix_cons, eq_comm]

/-- A comment is looked for exactly where one starts. -/
theorem commentTail?_eq_none_iff {dialect : Dialect} {nesting : Nesting} {b : Byte}
    {rest : List Byte} :
    commentTail? dialect nesting b rest = none ↔ ¬ StartsComment dialect nesting (b :: rest) := by
  rw [commentTail?, StartsComment, pair_prefix_cons_iff, pair_prefix_cons_iff]
  split_ifs with h₁ h₂ h₃
  · simp [h₁, h₂]
  · simp [h₁, h₃]
  · grind
  · grind

theorem startsComment_of_commentTail? {dialect : Dialect} {nesting : Nesting} {b : Byte}
    {rest : List Byte} {n : Nat} (h : commentTail? dialect nesting b rest = some n) :
    StartsComment dialect nesting (b :: rest) := by
  by_contra hnot
  rw [commentTail?_eq_none_iff.2 hnot] at h
  exact absurd h (Option.some_ne_none n).symm

theorem blockLength_le (bytes : List Byte) : blockLength bytes ≤ bytes.length := by
  induction bytes with
  | nil => exact Nat.le_refl 0
  | cons b rest ih =>
    rw [blockLength, List.length_cons]
    split
    · rename_i hend
      obtain ⟨tail, rfl⟩ := List.head?_eq_some_iff.1 hend.2
      simp
    · omega

/-- A block comment goes to its first end. -/
theorem take_blockLength (bytes : List Byte) :
    ¬ ['*'.toUInt8, '/'.toUInt8] <:+: (bytes.take (blockLength bytes)).dropLast ∧
      (['*'.toUInt8, '/'.toUInt8] <:+ bytes.take (blockLength bytes) ∨
        bytes.drop (blockLength bytes) = []) := by
  induction bytes with
  | nil => simp [blockLength]
  | cons b rest ih =>
    rw [blockLength]
    split
    · rename_i hend
      obtain ⟨tail, rfl⟩ := List.head?_eq_some_iff.1 hend.2
      obtain rfl := hend.1
      show ¬ ['*'.toUInt8, '/'.toUInt8] <:+: ['*'.toUInt8] ∧ _
      exact ⟨by decide, Or.inl (List.suffix_refl _)⟩
    · rename_i hend
      rw [Nat.add_comm, List.take_succ_cons, List.drop_succ_cons]
      refine ⟨?_, ih.2.imp_left fun hclosed => hclosed.trans (List.suffix_cons b _)⟩
      intro hinfix
      obtain ⟨c, body, hbody⟩ : ∃ c body, rest.take (blockLength rest) = c :: body := by
        refine List.exists_cons_of_ne_nil fun hnil => ?_
        rw [hnil] at hinfix
        exact absurd (List.eq_nil_of_infix_nil hinfix) (List.cons_ne_nil _ _)
      rw [hbody] at ih hinfix
      -- what ends a comment here ends it at `b`, or before the end that was found
      rcases List.infix_cons_iff.1 hinfix with hfirst | hlater
      · obtain ⟨rfl, hnext⟩ := pair_prefix_cons_iff.1 hfirst
        obtain ⟨tail, htail⟩ := List.head?_eq_some_iff.1 hnext
        have hfront : '/'.toUInt8 :: tail <+: rest := by
          rw [← htail, ← hbody]
          exact (List.dropLast_prefix _).trans (List.take_prefix _ _)
        obtain ⟨after, rfl⟩ := hfront
        exact hend ⟨rfl, rfl⟩
      · exact ih.1 hlater

/-- What is taken for a comment is one, whole. -/
theorem isCommentBefore_of_commentTail? {dialect : Dialect} {nesting : Nesting} {b : Byte}
    {rest : List Byte} {n : Nat} (h : commentTail? dialect nesting b rest = some n) :
    n ≤ rest.length ∧ IsCommentBefore (b :: rest.take n) (rest.drop n) := by
  unfold commentTail? at h
  split_ifs at h with hslash hstar hline
  · obtain rfl := Option.some.inj h
    obtain ⟨tail, rfl⟩ := List.head?_eq_some_iff.1 hstar
    have hle := blockLength_le tail
    refine ⟨by simp only [List.tail_cons, List.length_cons]; omega, Or.inl ?_⟩
    rw [List.tail_cons, Nat.add_comm, List.take_succ_cons, List.drop_succ_cons]
    exact ⟨_, by rw [hslash.2], take_blockLength tail⟩
  · obtain rfl := Option.some.inj h
    have hsplit := List.takeWhile_append_dropWhile (p := (· != '\n'.toUInt8)) (l := rest)
    have hfront := List.takeWhile_prefix (l := rest) (· != '\n'.toUInt8)
    have htake := (List.prefix_iff_eq_take.1 hfront).symm
    have hparts := List.take_append_drop (rest.takeWhile (· != '\n'.toUInt8)).length rest
    rw [htake] at hparts
    have hdrop := List.append_cancel_left (hparts.trans hsplit.symm)
    refine ⟨hfront.length_le, Or.inr ?_⟩
    rw [htake, hdrop]
    obtain ⟨tail, rfl⟩ := List.head?_eq_some_iff.1 hline.2.2
    refine ⟨tail.takeWhile (· != '\n'.toUInt8), ?_, ?_, ?_⟩
    · rw [hslash.2, List.takeWhile_cons_of_pos (by decide)]
    · intro hmem
      have hall := List.all_takeWhile (p := (· != '\n'.toUInt8)) (l := tail)
      simpa using List.all_eq_true.1 hall _ hmem
    · intro c hc
      have hstop := List.head?_dropWhile_not (· != '\n'.toUInt8) ('/'.toUInt8 :: tail)
      rw [hc] at hstop
      simpa using hstop

theorem reading_concat (bytes : List Byte) (b : Byte) :
    reading (bytes ++ [b]) = readByte (reading bytes) b :=
  List.foldl_concat ..

/-- Outside strings a space means nothing. -/
theorem inert_of_mem_gapBytes {nesting : Nesting} (h : nesting.quote = none)
    {before after : Option Byte} {b : Byte} (hb : b ∈ gapBytes before after) :
    Inert nesting b := by
  obtain rfl : b = ' '.toUInt8 := by
    rcases gapBytes_cases before after with hgap | hgap
    · rw [hgap] at hb
      exact absurd hb List.not_mem_nil
    · rw [hgap] at hb
      exact List.mem_singleton.1 hb
  obtain ⟨quote, depth⟩ := nesting
  obtain rfl : quote = none := h
  exact ⟨fun _ => by decide, rfl, rfl⟩

theorem reading_append_of_inert {nesting : Nesting} {lead piece : List Byte}
    (hreading : reading lead = (nesting, false)) (hpiece : ∀ b ∈ piece, Inert nesting b) :
    reading (lead ++ piece) = (nesting, false) := by
  induction piece generalizing lead with
  | nil => rw [List.append_nil, hreading]
  | cons b piece ih =>
    rw [List.forall_mem_cons] at hpiece
    rw [List.append_cons]
    refine ih ?_ hpiece.2
    rw [reading_concat, hreading]
    simp [readByte, hpiece.1.escapes_eq, hpiece.1.after_eq]

/-- **The pass keeps an exact map,** wherever it stands: `lead` has been kept so far, and reading it
byte by byte leaves open what the pass has in mind. -/
theorem isExactMap_removeFrom (dialect : Dialect) (nesting : Nesting) (offset : Nat)
    (bytes : List Byte) {lead : List Byte}
    (hreading : bytes ≠ [] → reading lead = (nesting, false)) :
    IsExactMap dialect lead offset bytes
      (removeFrom dialect nesting lead.getLast? offset bytes) := by
  generalize hbefore : lead.getLast? = before
  fun_induction removeFrom dialect nesting before offset bytes generalizing lead with
  | case1 => exact isExactMap_nil
  | case2 nesting before offset b rest n htail gap =>
    rename_i ih
    have hnow := hreading (List.cons_ne_nil b rest)
    obtain ⟨hle, hwhole⟩ := isCommentBefore_of_commentTail? htail
    have hstarts := startsComment_of_commentTail? htail
    have hlength : (b :: rest.take n).length = n + 1 := by
      rw [List.length_cons, List.length_take, Nat.min_eq_left hle]
    have hrest := ih
      (fun _ => reading_append_of_inert hnow fun _ hb => inert_of_mem_gapBytes hstarts.1 hb)
      (by rw [List.getLast?_append, hbefore])
    rw [← hlength] at hrest ⊢
    have hcut := hrest.cut (by rw [hbefore]) (by
      rw [nestingAfter, hnow, List.cons_append, List.take_append_drop]
      exact hstarts) hwhole
    rwa [List.cons_append, List.take_append_drop] at hcut
  | case3 nesting before offset b rest htail hescapes piece =>
    rename_i ih
    have hnow := hreading (List.cons_ne_nil b rest)
    have hplain : ¬ StartsComment dialect (nestingAfter lead) (b :: rest) := by
      rw [nestingAfter, hnow]
      exact commentTail?_eq_none_iff.1 htail
    cases rest with
    | nil =>
      rw [List.drop_nil, removeFrom_nil]
      exact isExactMap_nil.keep hplain
    | cons c rest =>
      have hescaped : reading (lead ++ [b]) = (nesting, true) := by
        rw [reading_concat, hnow]
        simp [readByte, hescapes]
      have hafter : reading (lead ++ [b] ++ [c]) = (nesting, false) := by
        rw [reading_concat, hescaped]
        rfl
      have hrest := ih (fun _ => hafter) List.getLast?_concat
      have hpair := Remains.keep_append offset [b] [c]
        (removeFrom dialect nesting (some c) (offset + 2) rest)
      refine hpair ▸ IsExactMap.keep (IsExactMap.keep hrest ?_) hplain
      rw [nestingAfter, hescaped]
      exact fun hstarts => Nesting.quote_ne_none_of_escapes hescapes hstarts.1
  | case4 nesting before offset b rest htail hescapes ih =>
    have hnow := hreading (List.cons_ne_nil b rest)
    refine IsExactMap.keep (ih ?_ ?_) ?_
    · intro
      rw [reading_concat, hnow]
      simp [readByte, hescapes]
    · exact List.getLast?_concat
    · rw [nestingAfter, hnow]
      exact commentTail?_eq_none_iff.1 htail

/-! ## Removing comments twice -/

section

variable {dialect : Dialect} {nesting : Nesting} {before : Option Byte} {offset : Nat} {b : Byte}
  {rest : List Byte}

theorem head?_bytes_removeFrom (h : commentTail? dialect nesting b rest = none) :
    (removeFrom dialect nesting before offset (b :: rest)).bytes.head? = some b := by
  cases hescapes : nesting.escapes b with
  | true =>
    rw [removeFrom_escape h hescapes]
    rfl
  | false =>
    rw [removeFrom_plain h hescapes]
    rfl

/-- Behind a byte that is not blank no byte comes up that did not stand there, but a blank one. -/
theorem head?_bytes_removeFrom_ne {mark : Byte} (hmark : isBlankByte mark = false)
    (hbefore : isSolidByte before = true) (hrest : rest.head? ≠ some mark) :
    (removeFrom dialect nesting before offset rest).bytes.head? ≠ some mark := by
  cases rest with
  | nil =>
    rw [removeFrom_nil]
    exact (Option.some_ne_none mark).symm
  | cons b rest =>
    cases htail : commentTail? dialect nesting b rest with
    | none =>
      rw [head?_bytes_removeFrom htail]
      exact hrest
    | some n =>
      rw [removeFrom_comment htail, gapBytes, hbefore, Bool.true_and]
      have hblank : ∀ x, isBlankByte x = true → some x ≠ some mark := by
        rintro x hx heq
        rw [Option.some.inj heq, hmark] at hx
        exact absurd hx Bool.false_ne_true
      split
      · exact hblank _ (by decide)
      · rename_i hafter
        cases hdrop : rest.drop n with
        | nil =>
          rw [removeFrom_nil]
          exact (Option.some_ne_none mark).symm
        | cons x after =>
          rw [hdrop] at hafter
          have hx : isBlankByte x = true := by simpa [isSolidByte] using hafter
          have hslash : x ≠ '/'.toUInt8 := by
            rintro rfl
            exact absurd hx (by decide)
          show (removeFrom dialect nesting _ _ (x :: after)).bytes.head? ≠ some mark
          rw [head?_bytes_removeFrom (commentTail?_of_ne hslash)]
          exact hblank x hx

end

/-- **What is left is copied.**  Where only `/*` starts a comment, taking comments out makes no new
one: a `/` before a comment is followed by a blank byte then, or by nothing. -/
theorem exists_copies_removeFrom (nesting : Nesting) (before : Option Byte) (offset : Nat)
    (bytes : List Byte) :
    ∃ nesting', Copies .css nesting (removeFrom .css nesting before offset bytes).bytes nesting'
      [] := by
  fun_induction removeFrom .css nesting before offset bytes with
  | case1 nesting => exact ⟨nesting, .nil⟩
  | case2 nesting before offset b rest n htail gap =>
    rename_i ih
    obtain ⟨nesting', hrest⟩ := ih
    refine ⟨nesting', Copies.append (copies_of_inert fun x hx => ?_) hrest⟩
    exact inert_of_mem_gapBytes (startsComment_of_commentTail? htail).1 hx
  | case3 nesting before offset b rest htail hescapes piece =>
    rename_i ih
    obtain ⟨nesting', hrest⟩ := ih
    cases rest with
    | nil =>
      rw [List.drop_nil, removeFrom_nil]
      exact ⟨nesting, copies_escape_at_end hescapes⟩
    | cons c rest => exact ⟨nesting', (copies_pair hescapes c).append hrest⟩
  | case4 nesting before offset b rest htail hescapes ih =>
    obtain ⟨nesting', hrest⟩ := ih
    refine ⟨nesting', Copies.append (copies_plain ?_ (Bool.eq_false_iff.2 hescapes)) hrest⟩
    rw [List.append_nil]
    by_cases hslash : nesting.quote = none ∧ b = '/'.toUInt8
    · have hstar : rest.head? ≠ some '*'.toUInt8 := by
        intro hstar
        refine commentTail?_eq_none_iff.1 htail ⟨hslash.1, Or.inl ?_⟩
        exact pair_prefix_cons_iff.2 ⟨hslash.2, hstar⟩
      refine commentTail?_of_head? ?_ fun hdialect => absurd hdialect (by decide)
      exact head?_bytes_removeFrom_ne (by decide) (by rw [hslash.2]; decide) hstar
    · exact if_neg hslash

theorem comments_removeComments_removeComments (base base' : Nat) (bytes : List Byte) :
    (removeComments .css base' (removeComments .css base bytes).bytes).comments = [] := by
  obtain ⟨nesting, hcopies⟩ := exists_copies_removeFrom {} none base bytes
  have hremove := hcopies none base'
  rw [List.append_nil, removeFrom_nil] at hremove
  exact congrArg Remains.comments hremove

/-- Without comments everything is kept where it stands. -/
theorem ofTokens_of_comments_eq_nil {before : Option Char} {offset : Nat} {ts : List Token}
    (h : (Uncommented.ofTokens before offset ts).comments = []) :
    Uncommented.ofTokens before offset ts = ⟨Placed.ofText offset (spelling ts), []⟩ := by
  induction ts generalizing before offset with
  | nil => rfl
  | cons t ts ih =>
    rw [Uncommented.ofTokens] at h ⊢
    split at h
    · exact absurd h (List.cons_ne_nil _ _)
    · rename_i ht
      rw [if_neg ht]
      simp only
      rw [ih h, spelling_cons, Placed.ofText_append]

/-- Where only `/*` starts a comment, a second removal finds none and changes nothing. -/
theorem ofText_text_ofText (offset offset' : Nat) (s : Text) :
    Uncommented.ofText .css offset' (Uncommented.ofText .css offset s).text =
      ⟨Placed.ofText offset' (Uncommented.ofText .css offset s).text, []⟩ := by
  have hbytes := comments_removeComments_removeComments offset offset' (utf8 s)
  rw [removeComments_utf8 .css offset offset s] at hbytes
  generalize Uncommented.ofText .css offset s = u at hbytes
  have hsecond := removeComments_utf8 .css offset' offset' u.text
  have hcomments : (Uncommented.ofText .css offset' u.text).comments = [] :=
    List.map_eq_nil_iff.1 ((congrArg Remains.comments hsecond).symm.trans hbytes)
  have hkept := ofTokens_of_comments_eq_nil hcomments
  rwa [spelling_tokens] at hkept

/-! ## The map of a text -/

/-- **What is left of a text without its comments maps back to it exactly.**  The text starts at the
position `offset` and at the byte `base` of the source.  Its bytes, read one by one, leave the bytes of
the remaining text, which are whole characters; each of them has its offset, and together with the
comments they make up the source.  Where only `/*` starts a comment, removing comments once more finds
none and changes nothing. -/
theorem uncommented_maps_back (dialect : Dialect) (offset base : Nat) (s : Text) :
    let u := Uncommented.ofText dialect offset s
    let r := removeComments dialect base (utf8 s)
    r = u.inBytes (byteOffset s offset base) ∧
      String.fromUTF8? r.bytes.toByteArray = some (String.ofList u.text) ∧
      u.text.byteLength = r.offsets.length ∧
      IsExactMap dialect [] base (utf8 s) r ∧
      ∀ offset', Uncommented.ofText .css offset' (Uncommented.ofText .css offset s).text =
        ⟨Placed.ofText offset' (Uncommented.ofText .css offset s).text, []⟩ := by
  intro u r
  have hsame : r = u.inBytes (byteOffset s offset base) := removeComments_utf8 dialect offset base s
  have hmap : IsExactMap dialect [] base (utf8 s) r :=
    isExactMap_removeFrom dialect {} base (utf8 s) fun _ => rfl
  have hbytes : r.bytes = utf8 u.text := congrArg Remains.bytes hsame
  refine ⟨hsame, ?_, ?_, hmap, fun offset' => ofText_text_ofText offset offset' s⟩
  · rw [hbytes, Text.fromUTF8?_utf8]
  · rw [← Text.length_utf8, ← hbytes, hmap.measured]

/-- A string with a comment mark in it and an escaped character of two bytes, and a comment between
two words. -/
example : removeComments .css 10 (utf8 "\"\\é/*\"/*ü*/é".toList) =
    ⟨utf8 "\"\\é/*\" é".toList, [10, 11, 12, 13, 14, 15, 16, 17, 23, 24], [⟨17, 23⟩]⟩ := by
  decide +kernel

end StyleLift.Stylesheet
