import Mathlib.Data.List.Basic
import Mathlib.Tactic.Ring
import NameResolution.Source

/-!
# Lines and columns

What the line table of a text holds and what the position of an offset is, said by the bytes of the
text: lines end at line feeds, and `newlinesIn` lists where these stand.

Two things are in the way. The table is made from characters and the offsets count bytes, so it
matters that no byte of another character is a line feed (`ne_newline_of_mem_utf8EncodeChar`). And a
position is found by halving the table, in arithmetic that can fail; it does not fail and finds the
number of lines that have started (`partitionPoint?_eq`).

Main statement: `Source.position_exact`.
-/

namespace NameResolution

/-! ## halving a table -/

section

variable {α : Type} {p : α → Bool} {xs : List α} {k : Nat}

/-- The entries with the property `p` are those before index `k`. -/
def SplitsAt (p : α → Bool) (xs : List α) (k : Nat) : Prop :=
  ∀ i x, xs[i]? = some x → (p x = true ↔ i < k)

/-- If the first entry lacks the property, so do all. -/
theorem not_of_not_head {a : α} (h : (a :: xs).Pairwise fun a b => p b = true → p a = true)
    (ha : ¬ p a = true) : ∀ b ∈ a :: xs, ¬ p b = true := by
  intro b hb hpb
  rcases List.mem_cons.mp hb with rfl | hb
  · exact ha hpb
  · exact ha (List.rel_of_pairwise_cons h hb hpb)

/-- In a list where `p` does not come back once it has failed, the entries with `p` come first. -/
theorem splitsAt_countP (h : xs.Pairwise fun a b => p b = true → p a = true) :
    SplitsAt p xs (xs.countP p) := by
  induction xs with
  | nil => simp [SplitsAt]
  | cons a xs ih =>
      intro i x hx
      by_cases ha : p a = true
      · cases i with
        | zero => simp_all
        | succ i => simpa [ha] using ih h.of_cons i x (by simpa using hx)
      · have hnone := not_of_not_head h ha
        have hcount : (a :: xs).countP p = 0 := List.countP_eq_zero.mpr hnone
        simpa [hcount] using hnone x (List.mem_of_getElem? hx)

/-- The entries with the property are a front part of the list. -/
theorem filter_eq_take (h : xs.Pairwise fun a b => p b = true → p a = true) :
    xs.filter p = xs.take (xs.countP p) := by
  induction xs with
  | nil => rfl
  | cons a xs ih =>
      by_cases ha : p a = true
      · simp [ha, ih h.of_cons]
      · have hnone := not_of_not_head h ha
        have hcount : (a :: xs).countP p = 0 := List.countP_eq_zero.mpr hnone
        rw [hcount, List.take_zero, List.filter_eq_nil_iff]
        exact hnone

/-- **Halving**: as long as the place `k` is in the window, no step fails, and the window that is
left holds the last entry with the property, if there is one. -/
theorem exists_halve? (hsplit : SplitsAt p xs k) (hlength : xs.length ≤ word64Count)
    (base size : Nat) (hsize : 1 ≤ size) (hwindow : base + size ≤ xs.length)
    (hbase : base < k ∨ base = 0) (hk : k ≤ base + size) :
    ∃ last, halve? p xs base size = some last ∧ last < xs.length ∧
      (last < k ∨ last = 0) ∧ k ≤ last + 1 := by
  induction size using Nat.strong_induction_on generalizing base with
  | _ size ih =>
      rw [halve?]
      by_cases hone : 1 < size
      · have hmid : base + size / 2 < xs.length := by omega
        obtain ⟨x, hx⟩ : ∃ x, xs[base + size / 2]? = some x := ⟨_, List.getElem?_eq_getElem hmid⟩
        have hadd : addIndex? base (size / 2) = some (base + size / 2) := by
          rw [addIndex?, if_pos (by omega)]
        rw [if_pos hone, hadd, Option.bind_some, hx, Option.bind_some]
        have hside := hsplit _ x hx
        by_cases hpx : p x = true
        · rw [if_pos hpx]
          exact ih _ (by omega) _ (by omega) (by omega) (.inl (hside.mp hpx)) (by omega)
        · rw [if_neg hpx]
          have hle : k ≤ base + size / 2 := Nat.not_lt.mp fun h => hpx (hside.mpr h)
          exact ih _ (by omega) _ (by omega) (by omega) hbase (by omega)
      · rw [if_neg hone]
        exact ⟨base, rfl, by omega, hbase, by omega⟩

/-- Search by halving finds how many entries have the property. -/
theorem partitionPoint?_eq (h : xs.Pairwise fun a b => p b = true → p a = true)
    (hlength : xs.length < word64Count) : partitionPoint? p xs = some (xs.countP p) := by
  have hsplit := splitsAt_countP h
  have hle : xs.countP p ≤ xs.length := List.countP_le_length
  unfold partitionPoint?
  by_cases hempty : xs = []
  · simp [hempty]
  · have hpos : 0 < xs.length := List.length_pos_iff.mpr hempty
    obtain ⟨last, hhalve, hlast, hbefore, hafter⟩ :=
      exists_halve? hsplit hlength.le 0 xs.length hpos (by omega) (.inr rfl) (by omega)
    obtain ⟨x, hx⟩ : ∃ x, xs[last]? = some x := ⟨_, List.getElem?_eq_getElem hlast⟩
    have hside := hsplit last x hx
    have hnonempty : xs.isEmpty = false := by simpa using hempty
    simp only [hnonempty, hhalve, hx, Option.bind_eq_bind, Option.bind_some, Bool.false_eq_true,
      if_false]
    by_cases hpx : p x = true
    · have hlt := hside.mp hpx
      rw [if_pos hpx, addIndex?, if_pos (by omega)]
      congr 1
      omega
    · have hge : ¬ last < xs.countP p := fun hlt => hpx (hside.mpr hlt)
      rw [if_neg hpx]
      congr 1
      omega

end

/-! ## line feeds -/

/-- Where line feeds stand in a list of bytes, in increasing order. -/
def newlinesIn (bytes : List UInt8) : List Nat :=
  (List.range bytes.length).filter fun i => bytes[i]? == some 10

/-- The newlines in a text and a further one, which are counted on from the first. -/
theorem newlinesIn_append (as bs : List UInt8) :
    newlinesIn (as ++ bs) = newlinesIn as ++ (newlinesIn bs).map (as.length + ·) := by
  have hfront : (List.range as.length).filter (fun i => (as ++ bs)[i]? == some 10) =
      newlinesIn as := by
    refine List.filter_congr fun i hi => ?_
    rw [List.getElem?_append_left (List.mem_range.mp hi)]
  have hback : ((fun i => (as ++ bs)[i]? == some 10) ∘ (as.length + ·)) =
      fun i => bs[i]? == some 10 := by
    funext i
    simp [List.getElem?_append_right]
  rw [newlinesIn, List.length_append, List.range_add, List.filter_append, hfront, List.filter_map,
    hback]
  rfl

theorem newlinesIn_eq_nil {bytes : List UInt8} (h : ∀ b ∈ bytes, b ≠ 10) :
    newlinesIn bytes = [] := by
  rw [newlinesIn, List.filter_eq_nil_iff]
  intro i _ hi
  exact h 10 (List.mem_of_getElem? (by simpa using hi)) rfl

/-- Newlines come in ascending order. -/
theorem pairwise_newlinesIn (bytes : List UInt8) : (newlinesIn bytes).Pairwise (· < ·) :=
  List.pairwise_lt_range.filter _

theorem lt_of_mem_newlinesIn {bytes : List UInt8} {i : Nat} (h : i ∈ newlinesIn bytes) :
    i < bytes.length :=
  List.mem_range.mp (List.mem_filter.mp h).1

/-- In UTF-8 a byte of a line feed belongs to a line feed. -/
theorem ne_newline_of_mem_utf8EncodeChar {c : Char} (hc : c ≠ '\n') :
    ∀ b ∈ String.utf8EncodeChar c, b ≠ 10 := by
  have hbyte : ∀ k, k < 256 → UInt8.ofNat k = 10 → k = 10 := by
    intro k hk heq
    have hnat := congrArg UInt8.toNat heq
    rw [UInt8.toNat_ofNat'] at hnat
    have hten : (10 : UInt8).toNat = 10 := rfl
    omega
  rintro b hb rfl
  unfold String.utf8EncodeChar at hb
  dsimp only at hb
  split at hb
  · have hcode := hbyte _ (by omega) (List.mem_singleton.mp hb).symm
    exact hc (Char.toNat_inj.mp hcode)
  · -- The bytes of a longer form are all 128 or more.
    split at hb
    · simp only [List.mem_cons, List.not_mem_nil, or_false] at hb
      rcases hb with hb | hb <;> have := hbyte _ (by omega) hb.symm <;> omega
    · split at hb
      · simp only [List.mem_cons, List.not_mem_nil, or_false] at hb
        rcases hb with hb | hb | hb <;> have := hbyte _ (by omega) hb.symm <;> omega
      · simp only [List.mem_cons, List.not_mem_nil, or_false] at hb
        rcases hb with hb | hb | hb | hb <;> have := hbyte _ (by omega) hb.symm <;> omega

/-- **From characters to bytes**: the offsets of the line feeds among the characters of a text are
the indexes of the line feeds among its bytes. -/
theorem offsetsOf_eq (i : Nat) (cs : List Char) :
    offsetsOf '\n' i cs = (newlinesIn (cs.flatMap String.utf8EncodeChar)).map (i + ·) := by
  induction cs generalizing i with
  | nil => rfl
  | cons c cs ih =>
      rw [offsetsOf, ih, List.flatMap_cons, newlinesIn_append, List.map_append, List.map_map,
        String.length_utf8EncodeChar]
      have hshift : (newlinesIn (cs.flatMap String.utf8EncodeChar)).map
          ((i + ·) ∘ (c.utf8Size + ·)) =
            (newlinesIn (cs.flatMap String.utf8EncodeChar)).map (i + c.utf8Size + ·) :=
        List.map_congr_left fun j _ => (Nat.add_assoc i c.utf8Size j).symm
      rw [hshift]
      by_cases hc : c = '\n'
      · subst hc
        rfl
      · rw [newlinesIn_eq_nil (ne_newline_of_mem_utf8EncodeChar hc), if_neg (by simpa using hc)]
        rfl

/-- The bytes of a text. -/
def utf8Bytes (text : String) : List UInt8 := text.toUTF8.data.toList

/-- The bytes of a text are those of its characters, one after another. -/
theorem utf8Bytes_eq (text : String) :
    utf8Bytes text = text.toList.flatMap String.utf8EncodeChar := by
  rw [utf8Bytes, String.toUTF8_eq_toByteArray, ← String.utf8Encode_toList, List.utf8Encode,
    List.data_toByteArray]

theorem length_utf8Bytes (text : String) : (utf8Bytes text).length = text.utf8ByteSize := rfl

/-! ## the table -/

theorem mapM_eq_some {α β : Type} {f : α → Option β} {g : α → β} {xs : List α}
    (h : ∀ x ∈ xs, f x = some (g x)) : xs.mapM f = some (xs.map g) := by
  induction xs with
  | nil => rfl
  | cons x xs ih =>
      rw [List.mapM_cons, h x List.mem_cons_self, ih fun y hy => h y (List.mem_cons_of_mem x hy)]
      rfl

/-- A number that fits into a word is not clamped. -/
theorem toNat_clampWord_of_le {n : Nat} (h : n ≤ maxWord) : (clampWord n).toNat = n := by
  rw [toNat_clampWord]
  omega

section

variable {text : String} (hsize : text.utf8ByteSize ≤ maxWord)

include hsize

/-- A line starts at the beginning of the text and behind every newline. -/
theorem lineStarts?_eq :
    lineStarts? text =
      some (0 :: (newlinesIn (utf8Bytes text)).map fun i => clampWord (i + 1)) := by
  have hoffsets : offsetsOf '\n' 0 text.toList = newlinesIn (utf8Bytes text) := by
    simp [offsetsOf_eq, utf8Bytes_eq]
  have hstarts : (newlinesIn (utf8Bytes text)).mapM (fun i => (addIndex? i 1).map clampWord) =
      some ((newlinesIn (utf8Bytes text)).map fun i => clampWord (i + 1)) := by
    refine mapM_eq_some fun i hi => ?_
    have hlt := lt_of_mem_newlinesIn hi
    rw [length_utf8Bytes] at hlt
    have hfits : i + 1 < word64Count := by
      unfold maxWord at hsize
      unfold word64Count
      omega
    rw [addIndex?, if_pos hfits, Option.map_some]
  rw [lineStarts?, hoffsets, hstarts]
  rfl

end

/-- In a table in order, no entry behind one that exceeds an offset is within it. -/
theorem pairwise_le_offset {starts : List UInt32} (hsorted : starts.Pairwise (· ≤ ·))
    (offset : UInt32) :
    starts.Pairwise fun a b => decide (b ≤ offset) = true → decide (a ≤ offset) = true :=
  hsorted.imp fun hab hb => by
    simp only [decide_eq_true_eq] at hb ⊢
    exact UInt32.le_trans hab hb

/-- The position by a table in order, without faults. -/
theorem positionIn?_eq {starts : List UInt32} (hsorted : starts.Pairwise (· ≤ ·))
    (hlength : starts.length < word64Count) (offset : UInt32) :
    positionIn? starts offset =
      let line := max (starts.countP (· ≤ offset)) 1
      some (clampWord line,
        clampWord (offset.toNat - (starts[line - 1]?.getD 0).toNat + 1)) := by
  have hline : subIndex? (max (starts.countP (· ≤ offset)) 1) 1 =
      some (max (starts.countP (· ≤ offset)) 1 - 1) := by
    rw [subIndex?, if_pos (Nat.le_max_right _ _)]
  simp only [positionIn?, partitionPoint?_eq (pairwise_le_offset hsorted offset) hlength,
    Option.bind_eq_bind, Option.bind_some, hline]
  rfl

/-! ## positions in a text -/

/-- Where a line starts: just after the last of the line feeds before it, or at zero. -/
def startAfter (newlines : List Nat) : Nat := newlines.getLast?.elim 0 (· + 1)

section

variable {newlines : List Nat} (hsorted : newlines.Pairwise (· < ·))
  (hfits : ∀ i ∈ newlines, i < maxWord)

include hfits

/-- As long as the text fits, no start of a line is clamped. -/
theorem map_toNat_starts :
    (newlines.map fun i => clampWord (i + 1)).map (·.toNat) = newlines.map (· + 1) := by
  rw [List.map_map]
  exact List.map_congr_left fun i hi => toNat_clampWord_of_le (hfits i hi)

/-- Up to an offset, one line more starts than there are newlines before it. -/
theorem countP_starts (offset : UInt32) :
    (0 :: newlines.map fun i => clampWord (i + 1)).countP (· ≤ offset) =
      newlines.countP (· < offset.toNat) + 1 := by
  rw [List.countP_cons_of_pos (by simp), List.countP_map]
  congr 1
  refine List.countP_congr fun i hi => ?_
  have hnat := toNat_clampWord_of_le (hfits i hi)
  simp only [Function.comp_apply, decide_eq_true_eq, UInt32.le_iff_toNat_le, hnat]
  omega

include hsorted

/-- The starts of the lines come in ascending order. -/
theorem pairwise_starts : (0 :: newlines.map fun i => clampWord (i + 1)).Pairwise (· ≤ ·) := by
  refine List.pairwise_cons.mpr ⟨fun _ _ => UInt32.zero_le, ?_⟩
  rw [List.pairwise_map]
  refine hsorted.imp_of_mem fun {i j} hi hj hij => ?_
  rw [UInt32.le_iff_toNat_le, toNat_clampWord_of_le (hfits i hi),
    toNat_clampWord_of_le (hfits j hj)]
  omega

/-- The entry of the table at the line of an offset is the start of that line. -/
theorem getElem?_starts (offset : Nat) :
    (((0 :: newlines.map fun i => clampWord (i + 1))[newlines.countP (· < offset)]?).getD 0).toNat =
      startAfter (newlines.filter (· < offset)) := by
  have hdown : newlines.Pairwise fun i j =>
      decide (j < offset) = true → decide (i < offset) = true :=
    hsorted.imp fun hij hj => by
      simp only [decide_eq_true_eq] at hj ⊢
      omega
  rw [startAfter, filter_eq_take hdown, List.getLast?_take]
  cases hcount : newlines.countP (· < offset) with
  | zero => simp
  | succ m =>
      have hm : m < newlines.length := by
        have hle := List.countP_le_length (p := fun i => decide (i < offset)) (l := newlines)
        omega
      have hnat := toNat_clampWord_of_le (hfits newlines[m] (List.getElem_mem hm))
      simp [hm, hnat]

end

/-- The line of an offset starts no later than the offset. -/
theorem startAfter_le (newlines : List Nat) (offset : Nat) :
    startAfter (newlines.filter (· < offset)) ≤ offset := by
  unfold startAfter
  cases hlast : (newlines.filter (· < offset)).getLast? with
  | none => simp
  | some i =>
      have hi := (List.mem_filter.mp (List.mem_of_getLast? hlast)).2
      simpa [Nat.succ_le_iff] using hi

/-- **Positions**: of every text of at most `maxWord` bytes there is a source, made without a fault.
Its table holds zero and, for each line feed in order, the offset just after it. The position of an
offset, in the text or past its end, is found without a fault: the line is one more than the number
of line feeds below the offset, and the column is one more than the number of bytes from the start
of the line. Only the largest word limits them. -/
theorem Source.position_exact (id : Nat) (name : String) (kind : ResourceKind) (text : String)
    (hsize : text.utf8ByteSize ≤ maxWord) :
    ∃ s, Source.ofText? id name kind text = some s ∧
      s.lineStarts.map (·.toNat) = 0 :: (newlinesIn (utf8Bytes text)).map (· + 1) ∧
      ∀ offset : UInt32,
        let below := (newlinesIn (utf8Bytes text)).filter (· < offset.toNat)
        startAfter below ≤ offset.toNat ∧
          ∃ line column, s.position? offset = some (line, column) ∧
            line.toNat = min (1 + below.length) maxWord ∧
            column.toNat = min (1 + (offset.toNat - startAfter below)) maxWord := by
  have hfits : ∀ i ∈ newlinesIn (utf8Bytes text), i < maxWord := by
    intro i hi
    have hlt := lt_of_mem_newlinesIn hi
    rw [length_utf8Bytes] at hlt
    omega
  have hsorted := pairwise_newlinesIn (utf8Bytes text)
  have hmade : Source.ofText? id name kind text = some
      { id, name, kind, text := some text,
        lineStarts := 0 :: (newlinesIn (utf8Bytes text)).map fun i => clampWord (i + 1) } := by
    rw [ofText?, lineStarts?_eq hsize, Option.map_some]
  have hlength : (0 :: (newlinesIn (utf8Bytes text)).map fun i => clampWord (i + 1)).length <
      word64Count := by
    have hle : (newlinesIn (utf8Bytes text)).length ≤ text.utf8ByteSize := by
      have hfilter := List.length_filter_le (fun i => (utf8Bytes text)[i]? == some 10)
        (List.range (utf8Bytes text).length)
      rwa [List.length_range, length_utf8Bytes] at hfilter
    rw [List.length_cons, List.length_map]
    unfold maxWord at hsize
    unfold word64Count
    omega
  refine ⟨_, hmade, ?_, fun offset => ⟨startAfter_le _ _, ?_⟩⟩
  · rw [List.map_cons, map_toNat_starts hfits]
    rfl
  · have hposition := positionIn?_eq (pairwise_starts hsorted hfits) hlength offset
    rw [countP_starts hfits, Nat.max_eq_left (by omega)] at hposition
    dsimp only at hposition
    rw [Nat.add_sub_cancel, getElem?_starts hsorted hfits] at hposition
    refine ⟨_, _, hposition, ?_, ?_⟩
    · rw [toNat_clampWord, ← List.countP_eq_length_filter, Nat.add_comm]
    · rw [toNat_clampWord, Nat.add_comm]

/-- In `é`, two line feeds and `b`, the line feeds are the bytes 2 and 3. Offset 2 is still on the
first line, and offset 9, past the end, on the third. -/
theorem position_twoByteLetter :
    ∃ s, Source.ofText? 0 "a.ql" .module "é\n\nb" = some s ∧
      s.lineStarts.map (·.toNat) = [0, 3, 4] ∧ s.position? 2 = some (1, 3) ∧
      s.position? 9 = some (3, 6) := by
  obtain ⟨s, hs, hstarts, hposition⟩ :=
    Source.position_exact 0 "a.ql" .module "é\n\nb" (by decide)
  have hnewlines : newlinesIn (utf8Bytes "é\n\nb") = [2, 3] := by decide
  rw [hnewlines] at hstarts hposition
  obtain ⟨-, line, column, hfirst, hline, hcolumn⟩ := hposition 2
  obtain ⟨-, line', column', hlast, hline', hcolumn'⟩ := hposition 9
  obtain rfl : line = 1 := UInt32.toNat_inj.mp hline
  obtain rfl : column = 3 := UInt32.toNat_inj.mp hcolumn
  obtain rfl : line' = 3 := UInt32.toNat_inj.mp hline'
  obtain rfl : column' = 6 := UInt32.toNat_inj.mp hcolumn'
  exact ⟨s, hs, hstarts, hfirst, hlast⟩

end NameResolution
