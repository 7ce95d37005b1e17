import NameResolution.Proofs.LineTable

/-!
# Positions in order

A source object brings its own table of line starts, and nothing makes that the table of a text: it
can be empty, and lines can start where other lines start. Positions by such a table still tell
offsets apart and are in the order of the offsets.

The line of an offset is the last one that starts at or before it (`IsLineTable.exists_start`), and
it does not decrease as offsets increase (`lineIn_le_lineIn`). On one line, columns count offsets.

Main statement: `Source.position_embeds`.
-/

namespace NameResolution

/-- The table is in order, it is empty or starts with zero, and words can count its entries. Entries
can be repeated. -/
structure IsLineTable (starts : List UInt32) : Prop where
  sorted : starts.Pairwise (· ≤ ·)
  first : ∀ start ∈ starts.head?, start = 0
  fits : starts.length < UInt32.size

/-- Where a line starts: the entry of the line, or zero if the table is empty. -/
def startOfLine? (starts : List UInt32) (line : Nat) : Option UInt32 :=
  if starts.isEmpty then some 0 else starts[line - 1]?

/-- The line of an offset. -/
def lineIn (starts : List UInt32) (offset : UInt32) : Nat := max (starts.countP (· ≤ offset)) 1

/-! ## lines -/

/-- A larger offset is not on an earlier line. -/
theorem lineIn_le_lineIn (starts : List UInt32) {offset offset' : UInt32} (h : offset ≤ offset') :
    lineIn starts offset ≤ lineIn starts offset' := by
  have hcount : starts.countP (· ≤ offset) ≤ starts.countP (· ≤ offset') := by
    refine List.countP_mono_left fun start _ hstart => ?_
    simp only [decide_eq_true_eq] at hstart ⊢
    exact UInt32.le_trans hstart h
  unfold lineIn
  omega

/-- Unless there are too many lines, the number of a line fits into a word. -/
theorem lineIn_le_maxWord {starts : List UInt32} (h : starts.length < UInt32.size)
    (offset : UInt32) : lineIn starts offset ≤ maxWord := by
  have hle := List.countP_le_length (p := fun start => decide (start ≤ offset)) (l := starts)
  unfold lineIn maxWord
  unfold UInt32.size at h
  omega

namespace IsLineTable

variable {starts : List UInt32}

/-- The line of an offset has a start, at or before the offset. -/
theorem exists_start (h : IsLineTable starts) (offset : UInt32) :
    ∃ start, startOfLine? starts (lineIn starts offset) = some start ∧ start ≤ offset ∧
      starts[lineIn starts offset - 1]?.getD 0 = start := by
  cases starts with
  | nil => exact ⟨0, rfl, UInt32.zero_le, rfl⟩
  | cons first rest =>
      -- The entries at or before the offset come first, and the zero in front is one of them.
      have hsplit := splitsAt_countP (pairwise_le_offset h.sorted offset)
      have hle := List.countP_le_length (p := fun start => decide (start ≤ offset))
        (l := first :: rest)
      have hfirst : 0 < (first :: rest).countP (· ≤ offset) := by
        rw [← hsplit 0 first rfl, h.first first rfl]
        exact decide_eq_true UInt32.zero_le
      have hline : lineIn (first :: rest) offset = (first :: rest).countP (· ≤ offset) :=
        Nat.max_eq_left hfirst
      have hlt : lineIn (first :: rest) offset - 1 < (first :: rest).length := by omega
      have hentry := List.getElem?_eq_getElem hlt
      refine ⟨_, hentry, ?_, by rw [hentry, Option.getD_some]⟩
      have hbefore := (hsplit _ _ hentry).mpr (by omega)
      exact of_decide_eq_true hbefore

end IsLineTable

/-! ## positions -/

/-- The position has the line of the offset, and its column counts from the start of the line. -/
structure Locates (starts : List UInt32) (offset : UInt32) (position : UInt32 × UInt32) : Prop where
  line : position.1.toNat = lineIn starts offset
  column : ∃ start, startOfLine? starts position.1.toNat = some start ∧
    start.toNat ≤ offset.toNat ∧ position.2.toNat = offset.toNat - start.toNat + 1

/-- Below the largest word every offset has its position. -/
theorem IsLineTable.exists_locates {starts : List UInt32} (h : IsLineTable starts) {offset : UInt32}
    (hoffset : offset.toNat < maxWord) :
    ∃ position, positionIn? starts offset = some position ∧ Locates starts offset position := by
  obtain ⟨start, hstart, hle, hentry⟩ := h.exists_start offset
  have hlength : starts.length < word64Count := by
    have hfits := h.fits
    unfold UInt32.size at hfits
    unfold word64Count
    omega
  have hposition := positionIn?_eq h.sorted hlength offset
  have hline : (clampWord (lineIn starts offset)).toNat = lineIn starts offset :=
    toNat_clampWord_of_le (lineIn_le_maxWord h.fits offset)
  refine ⟨_, hposition, hline, start, (congrArg _ hline).trans hstart,
    UInt32.le_iff_toNat_le.mp hle, ?_⟩
  -- The offset is below the largest word, so that its column is not cut off.
  change (clampWord (offset.toNat - (starts[lineIn starts offset - 1]?.getD 0).toNat + 1)).toNat = _
  rw [hentry]
  exact toNat_clampWord_of_le (by omega)

/-- Positions are in the order of the offsets: a later offset is on a later line, or it is in a
later column of the same line. -/
theorem Locates.lt_iff_lex {starts : List UInt32} {offset offset' : UInt32}
    {position position' : UInt32 × UInt32} (h : Locates starts offset position)
    (h' : Locates starts offset' position') :
    offset < offset' ↔ Prod.Lex (· < ·) (· < ·) position position' := by
  obtain ⟨hline, start, hstart, hle, hcolumn⟩ := h
  obtain ⟨hline', start', hstart', hle', hcolumn'⟩ := h'
  -- On one line both columns count from the same start.
  have hsame (heq : position.1 = position'.1) : start = start' := by
    rw [heq] at hstart
    exact Option.some.inj (hstart.symm.trans hstart')
  rw [Prod.lex_def]
  constructor
  · intro hlt
    have hlines := lineIn_le_lineIn starts (UInt32.le_of_lt hlt)
    rw [← hline, ← hline'] at hlines
    rw [UInt32.lt_iff_toNat_lt] at hlt
    rcases Nat.lt_or_eq_of_le hlines with hlater | heq
    · exact .inl (UInt32.lt_iff_toNat_lt.mpr hlater)
    · obtain rfl := hsame (UInt32.toNat_inj.mp heq)
      exact .inr ⟨UInt32.toNat_inj.mp heq, UInt32.lt_iff_toNat_lt.mpr (by omega)⟩
  · rintro (hlater | ⟨heq, hlater⟩)
    · rw [UInt32.lt_iff_toNat_lt, hline, hline'] at hlater
      refine UInt32.not_le.mp fun hge => ?_
      have hlines := lineIn_le_lineIn starts hge
      omega
    · obtain rfl := hsame heq
      rw [UInt32.lt_iff_toNat_lt] at hlater ⊢
      omega

/-- **Order of positions**: by any table of lines, every offset below the largest word has a
position, and the positions of two offsets are in the lexicographic order of lines and columns as
the offsets are in theirs. Lines and columns count from one, and the offset can be had back: it is
the start of the line and the column less one. -/
theorem Source.position_embeds (s : Source) (h : IsLineTable s.lineStarts) (offset offset' : UInt32)
    (hoffset : offset.toNat < maxWord) (hoffset' : offset'.toNat < maxWord) :
    ∃ line column line' column', s.position? offset = some (line, column) ∧
      s.position? offset' = some (line', column') ∧
      (offset < offset' ↔ Prod.Lex (· < ·) (· < ·) (line, column) (line', column')) ∧
      1 ≤ line ∧ 1 ≤ column ∧
      ∃ start, startOfLine? s.lineStarts line.toNat = some start ∧
        start.toNat + (column.toNat - 1) = offset.toNat := by
  obtain ⟨⟨line, column⟩, hposition, hlocates⟩ := h.exists_locates hoffset
  obtain ⟨⟨line', column'⟩, hposition', hlocates'⟩ := h.exists_locates hoffset'
  refine ⟨line, column, line', column', hposition, hposition', hlocates.lt_iff_lex hlocates', ?_⟩
  obtain ⟨hline, start, hstart, hle, hcolumn⟩ := hlocates
  dsimp only at hline hstart hcolumn
  refine ⟨?_, ?_, start, hstart, by omega⟩
  · rw [UInt32.le_iff_toNat_le, hline]
    exact Nat.le_max_right _ _
  · rw [UInt32.le_iff_toNat_le, hcolumn]
    exact Nat.le_add_left _ _

/-- A source that has two lines starting at zero and two starting at three. -/
def repeatedStarts : Source where
  id := 0
  name := "a.ql"
  kind := .module
  lineStarts := [0, 0, 3, 3, 7]

/-- The same source without a table. -/
def noStarts : Source := { repeatedStarts with lineStarts := [] }

/-- By the repeated starts, offset 2 is on the second line and offset 3 on the fourth. Without a
table both are on the first line. -/
theorem position_repeatedStarts :
    (IsLineTable repeatedStarts.lineStarts ∧ repeatedStarts.position? 2 = some (2, 3) ∧
      repeatedStarts.position? 3 = some (4, 1) ∧
      Prod.Lex (· < ·) (· < ·) ((2, 3) : UInt32 × UInt32) (4, 1) ∧
      ∃ start, startOfLine? repeatedStarts.lineStarts 2 = some start ∧ start.toNat + 2 = 2) ∧
    IsLineTable noStarts.lineStarts ∧ noStarts.position? 2 = some (1, 3) ∧
      noStarts.position? 3 = some (1, 4) ∧
      Prod.Lex (· < ·) (· < ·) ((1, 3) : UInt32 × UInt32) (1, 4) := by
  have htable : IsLineTable repeatedStarts.lineStarts :=
    ⟨by decide, by simp [repeatedStarts], by decide⟩
  have hempty : IsLineTable noStarts.lineStarts := ⟨by decide, by simp [noStarts], by decide⟩
  have hfirst : repeatedStarts.position? 2 = some (2, 3) :=
    (positionIn?_eq htable.sorted (by decide) 2).trans (by decide)
  have hsecond : repeatedStarts.position? 3 = some (4, 1) :=
    (positionIn?_eq htable.sorted (by decide) 3).trans (by decide)
  have hfirst' : noStarts.position? 2 = some (1, 3) :=
    (positionIn?_eq hempty.sorted (by decide) 2).trans (by decide)
  have hsecond' : noStarts.position? 3 = some (1, 4) :=
    (positionIn?_eq hempty.sorted (by decide) 3).trans (by decide)
  obtain ⟨_, _, _, _, hposition, hposition', hlex, -, -, hstart⟩ :=
    Source.position_embeds repeatedStarts htable 2 3 (by decide) (by decide)
  cases hfirst.symm.trans hposition
  cases hsecond.symm.trans hposition'
  obtain ⟨_, _, _, _, hposition, hposition', hlex', -⟩ :=
    Source.position_embeds noStarts hempty 2 3 (by decide) (by decide)
  cases hfirst'.symm.trans hposition
  cases hsecond'.symm.trans hposition'
  exact ⟨⟨htable, hfirst, hsecond, hlex.mp (by decide), hstart⟩, hempty, hfirst', hsecond',
    hlex'.mp (by decide)⟩

end NameResolution
