import Mathlib.Data.List.Forall2
import Mathlib.Data.Nat.Digits.Defs
import Mathlib.Tactic.IntervalCases
import Mathlib.Tactic.Ring
import NameResolution.Syntax.Literal

/-!
# The spelling of integers

The texts that are integer literals, and the numbers that they stand for, said without the reader:
digits of a radix (`IsDigit`), runs of digits with their value (`Numeral`), and the four spellings,
three of them with a mark for the radix (`Spells`).

The reader works digit by digit and stops as soon as a step leaves the range of 64 bits. As the
value only grows, that happens exactly if the number at the end is out of range
(`foldlM_appendDigit?`). So the reader accepts the spellings of the numbers in range and no other
text: `readInteger?_eq_some_iff`.

Main statement: `Token.integerLiteral_exact`.
-/

namespace NameResolution

/-! ## digits -/

/-- The character `c` is the digit of value `d` in a radix up to sixteen, a letter in either
case. -/
def IsDigit (radix d : Nat) (c : Char) : Prop := d < radix ∧ c.toLower = Nat.digitChar d

theorem toNat_toLower (c : Char) :
    c.toLower.toNat = if 65 ≤ c.toNat ∧ c.toNat ≤ 90 then c.toNat + 32 else c.toNat := by
  have hupper : (c.val ≥ 'A'.val ∧ c.val ≤ 'Z'.val) ↔ 65 ≤ c.toNat ∧ c.toNat ≤ 90 := Iff.rfl
  by_cases h : 65 ≤ c.toNat ∧ c.toNat ≤ 90
  · have hval : c.val.toNat ≤ 90 := h.2
    have hshift : ('a'.val - 'A'.val : UInt32).toNat = 32 := rfl
    have hlower : c.toLower.toNat = (c.val + ('a'.val - 'A'.val)).toNat :=
      congrArg Char.toNat (dif_pos (hupper.mpr h))
    have hcode : c.toNat = c.val.toNat := rfl
    rw [if_pos h, hlower, UInt32.toNat_add]
    omega
  · have hsame : c.toLower = c := dif_neg fun h' => h (hupper.mp h')
    rw [if_neg h, hsame]

theorem toNat_digitChar {d : Nat} (h : d < 16) :
    (Nat.digitChar d).toNat = if d < 10 then d + 48 else d + 87 := by
  interval_cases d <;> rfl

/-- The value of a digit, by the code of the character. -/
theorem digitValue?_eq (c : Char) :
    digitValue? c =
      if 48 ≤ c.toNat ∧ c.toNat ≤ 57 then some (c.toNat - 48)
      else if 97 ≤ c.toNat ∧ c.toNat ≤ 102 then some (c.toNat - 97 + 10)
      else if 65 ≤ c.toNat ∧ c.toNat ≤ 70 then some (c.toNat - 65 + 10)
      else none := rfl

/-- A character has a value just if it is a hexadecimal digit. -/
theorem digitValue?_eq_some_iff {c : Char} {d : Nat} :
    digitValue? c = some d ↔ IsDigit 16 d c := by
  rw [digitValue?_eq, IsDigit]
  constructor
  · intro h
    have hd : d < 16 := by grind
    refine ⟨hd, Char.toNat_inj.mp ?_⟩
    rw [toNat_toLower, toNat_digitChar hd]
    grind
  · rintro ⟨hd, hc⟩
    have hcode := congrArg Char.toNat hc
    rw [toNat_toLower, toNat_digitChar hd] at hcode
    grind

/-- In a radix, a character has a value just if it is a digit of the radix. -/
theorem radixDigit?_eq_some_iff {radix : Nat} (hradix : radix ≤ 16) {c : Char} {d : Nat} :
    radixDigit? radix c = some d ↔ IsDigit radix d c := by
  rw [radixDigit?, Option.filter_eq_some_iff, digitValue?_eq_some_iff]
  simp only [IsDigit, decide_eq_true_eq]
  grind

/-! ## runs of digits -/

/-- A run of one or more digits of a radix stands for a number. -/
structure Numeral (radix : Nat) (cs : List Char) (n : Nat) : Prop where
  ne_nil : cs ≠ []
  value : ∃ ds, List.Forall₂ (IsDigit radix) ds cs ∧ Nat.ofDigits radix ds.reverse = n

section

variable {radix : Nat} {cs : List Char} {n : Nat}

/-- Digits after a number `acc` move it to the left and fill the places. -/
theorem digitsValue?_eq_some_iff (hradix : radix ≤ 16) {acc : Nat} :
    digitsValue? radix acc cs = some n ↔
      ∃ ds, List.Forall₂ (IsDigit radix) ds cs ∧
        acc * radix ^ cs.length + Nat.ofDigits radix ds.reverse = n := by
  induction cs generalizing acc with
  | nil => simp [digitsValue?, List.forall₂_nil_right_iff]
  | cons c cs ih =>
      rw [digitsValue?, Option.bind_eq_some_iff]
      constructor
      · rintro ⟨d, hd, hrest⟩
        obtain ⟨ds, hds, hn⟩ := ih.mp hrest
        refine ⟨d :: ds, .cons ((radixDigit?_eq_some_iff hradix).mp hd) hds, ?_⟩
        rw [Nat.ofDigits_reverse_cons, hds.length_eq, List.length_cons, ← hn]
        ring
      · rintro ⟨_, hds, hn⟩
        cases hds with
        | @cons d _ ds _ hd hds =>
            refine ⟨d, (radixDigit?_eq_some_iff hradix).mpr hd, ih.mpr ⟨ds, hds, ?_⟩⟩
            rw [Nat.ofDigits_reverse_cons, hds.length_eq, List.length_cons] at hn
            rw [← hn]
            ring

/-- More digits do not make a number smaller. -/
theorem le_of_digitsValue? (hradix : 1 ≤ radix) {acc : Nat}
    (h : digitsValue? radix acc cs = some n) : acc ≤ n := by
  induction cs generalizing acc with
  | nil => simp_all [digitsValue?]
  | cons c cs ih =>
      rw [digitsValue?, Option.bind_eq_some_iff] at h
      obtain ⟨d, -, hrest⟩ := h
      have hle := ih hrest
      have hscaled : acc * 1 ≤ acc * radix := Nat.mul_le_mul_left acc hradix
      omega

namespace Numeral

/-- A numeral with one more digit. -/
theorem concat (h : Numeral radix cs n) {d : Nat} {c : Char} (hc : IsDigit radix d c) :
    Numeral radix (cs ++ [c]) (radix * n + d) := by
  obtain ⟨ds, hds, rfl⟩ := h.value
  refine ⟨by simp, ds ++ [d], List.rel_append hds (.cons hc .nil), ?_⟩
  rw [List.reverse_concat, Nat.ofDigits_cons, Nat.add_comm]

/-- Leading zeros do not count. -/
theorem zeros (h : Numeral radix cs n) (hradix : 1 ≤ radix) (k : Nat) :
    Numeral radix (List.replicate k '0' ++ cs) n := by
  induction k with
  | zero => exact h
  | succ k ih =>
      obtain ⟨ds, hds, hn⟩ := ih.value
      refine ⟨by simp [List.replicate_succ], 0 :: ds, .cons ⟨hradix, rfl⟩ hds, ?_⟩
      rw [Nat.ofDigits_reverse_cons, Nat.mul_zero, Nat.add_zero, hn]

/-- The digits of a number, in either case, stand for it. -/
theorem of_toDigits (hradix : 2 ≤ radix) (h : cs.map Char.toLower = Nat.toDigits radix n) :
    Numeral radix cs n := by
  induction n using Nat.strong_induction_on generalizing cs with
  | _ n ih =>
      by_cases hn : n < radix
      · rw [Nat.toDigits_of_lt_base hn, List.map_eq_singleton_iff] at h
        obtain ⟨c, rfl, hc⟩ := h
        exact ⟨by simp, [n], .cons ⟨hn, hc⟩ .nil, by simp⟩
      · rw [Nat.toDigits_of_base_le (by omega) (by omega), List.map_eq_append_iff] at h
        obtain ⟨front, last, rfl, hfront, hlast⟩ := h
        obtain ⟨c, rfl, hc⟩ := List.map_eq_singleton_iff.mp hlast
        have hless : n / radix < n := Nat.div_lt_self (by omega) (by omega)
        have hnumeral := (ih _ hless hfront).concat ⟨Nat.mod_lt n (by omega), hc⟩
        rwa [Nat.div_add_mod] at hnumeral

end Numeral

/-! ## numbers in 64 bits -/

/-- An integer is represented by the signed word with its value. -/
theorem int64?_eq_some_iff {z : Int} {v : Int64} : int64? z = some v ↔ v.toInt = z := by
  have hcount : (int64Count : Int) = 2 ^ 63 := rfl
  rw [int64?, hcount]
  constructor
  · intro h
    split at h
    · next hz =>
      rw [← Option.some.inj h, Int64.toInt_ofInt_of_le hz.1 hz.2]
    · cases h
  · rintro rfl
    rw [if_pos ⟨v.le_toInt, v.toInt_lt⟩, Int64.ofInt_toInt]

/-- A number above one that is out of range is out of range. -/
theorem int64?_eq_none_of_le {m : Nat} (hm : int64? m = none) (h : m ≤ n) : int64? n = none := by
  rw [int64?] at hm ⊢
  grind

/-- One step of the reader: the range is checked twice, and the second check is enough. -/
theorem appendDigit?_eq {acc : Int64} {a : Nat} (ha : acc.toInt = a) (radix : Nat) (c : Char) :
    appendDigit? radix false acc c =
      (radixDigit? radix c).bind fun d => int64? ((a * radix + d : Nat) : Int) := by
  have hstep : appendDigit? radix false acc c =
      (int64? ((a * radix : Nat) : Int)).bind fun scaled =>
        (radixDigit? radix c).bind fun d => int64? (scaled.toInt + d) := by
    rw [Int.natCast_mul, ← ha]
    rfl
  rw [hstep]
  cases hscaled : int64? ((a * radix : Nat) : Int) with
  | some scaled =>
      simp only [Option.bind_some, int64?_eq_some_iff.mp hscaled, Int.natCast_add]
  | none =>
      cases radixDigit? radix c with
      | none => rfl
      | some d =>
          rw [Option.bind_none, Option.bind_some,
            int64?_eq_none_of_le hscaled (Nat.le_add_right _ d)]

/-- **Checked steps**: if every step has to stay in range, then what counts is whether the number
at the end is in range. -/
theorem foldlM_appendDigit? (hradix : 1 ≤ radix) {acc : Int64} {a : Nat} (ha : acc.toInt = a)
    (cs : List Char) :
    cs.foldlM (appendDigit? radix false) acc =
      (digitsValue? radix a cs).bind fun n => int64? n := by
  induction cs generalizing acc a with
  | nil =>
      have hend : int64? a = some acc := int64?_eq_some_iff.mpr ha
      rw [digitsValue?, Option.bind_some, hend]
      rfl
  | cons c cs ih =>
      have hcons : (c :: cs).foldlM (appendDigit? radix false) acc =
          (appendDigit? radix false acc c).bind fun next =>
            cs.foldlM (appendDigit? radix false) next := List.foldlM_cons
      rw [hcons, appendDigit?_eq ha, digitsValue?]
      cases radixDigit? radix c with
      | none => simp only [Option.bind_none]
      | some d =>
          rw [Option.bind_some, Option.bind_some]
          cases hnext : int64? ((a * radix + d : Nat) : Int) with
          | some next => rw [Option.bind_some, ih (int64?_eq_some_iff.mp hnext)]
          | none =>
              -- Out of range already, and the digits that follow do not bring it back.
              cases hend : digitsValue? radix (a * radix + d) cs with
              | none => rfl
              | some n =>
                  rw [Option.bind_none, Option.bind_some,
                    int64?_eq_none_of_le hnext (le_of_digitsValue? hradix hend)]

/-- A magnitude is read just if it is a numeral for a number that fits. -/
theorem readMagnitude?_eq_some_iff (hradix : 1 ≤ radix) (hradix' : radix ≤ 16) {v : Int64} :
    readMagnitude? radix false cs = some v ↔ ∃ n, Numeral radix cs n ∧ v.toInt = n := by
  cases cs with
  | nil =>
      refine ⟨nofun, ?_⟩
      rintro ⟨n, hn, -⟩
      exact absurd rfl hn.ne_nil
  | cons c cs =>
      have hread : readMagnitude? radix false (c :: cs) =
          (digitsValue? radix 0 (c :: cs)).bind fun n => int64? n :=
        foldlM_appendDigit? hradix rfl (c :: cs)
      rw [hread, Option.bind_eq_some_iff]
      refine exists_congr fun n => and_congr ?_ int64?_eq_some_iff
      rw [digitsValue?_eq_some_iff hradix', Nat.zero_mul]
      simp only [Nat.zero_add]
      exact ⟨fun h => ⟨List.cons_ne_nil c cs, h⟩, Numeral.value⟩

end

/-! ## marks and signs -/

/-- A text spells a number: in decimal, or behind a mark in hexadecimal, octal or binary. -/
inductive Spells : List Char → Nat → Prop
  | decimal {cs : List Char} {n : Nat} : Numeral 10 cs n → Spells cs n
  | hexadecimal {mark : Char} {cs : List Char} {n : Nat} :
    mark = 'x' ∨ mark = 'X' → Numeral 16 cs n → Spells ('0' :: mark :: cs) n
  | octal {mark : Char} {cs : List Char} {n : Nat} :
    mark = 'o' ∨ mark = 'O' → Numeral 8 cs n → Spells ('0' :: mark :: cs) n
  | binary {mark : Char} {cs : List Char} {n : Nat} :
    mark = 'b' ∨ mark = 'B' → Numeral 2 cs n → Spells ('0' :: mark :: cs) n

/-- The marks and what radix each stands for. -/
theorem radixOfMark?_eq_some_iff {mark : Char} {radix : Nat} :
    radixOfMark? mark = some radix ↔
      radix = 16 ∧ (mark = 'x' ∨ mark = 'X') ∨ radix = 8 ∧ (mark = 'o' ∨ mark = 'O') ∨
        radix = 2 ∧ (mark = 'b' ∨ mark = 'B') := by
  constructor
  · intro h
    unfold radixOfMark? at h
    split at h <;> simp_all
  · rintro (⟨rfl, rfl | rfl⟩ | ⟨rfl, rfl | rfl⟩ | ⟨rfl, rfl | rfl⟩) <;> rfl

theorem utf8Size_of_radixOfMark? {mark : Char} {radix : Nat} (h : radixOfMark? mark = some radix) :
    mark.utf8Size = 1 := by
  rcases radixOfMark?_eq_some_iff.mp h with
    ⟨-, rfl | rfl⟩ | ⟨-, rfl | rfl⟩ | ⟨-, rfl | rfl⟩ <;> rfl

/-- Cutting a text gives its two parts. -/
theorem append_of_cutBytes? {n : Nat} {cs front rest : List Char}
    (h : cutBytes? n cs = some (front, rest)) : cs = front ++ rest := by
  induction cs generalizing n front with
  | nil => cases n <;> simp_all [cutBytes?]
  | cons c cs ih =>
      cases n with
      | zero => simp_all [cutBytes?]
      | succ n =>
          rw [cutBytes?] at h
          split at h
          · obtain ⟨⟨front', rest'⟩, hcut, heq⟩ := Option.map_eq_some_iff.mp h
            simp only [Prod.mk.injEq] at heq
            obtain ⟨rfl, rfl⟩ := heq
            rw [ih hcut, List.cons_append]
          · cases h

/-- The first two bytes are a zero and a mark, or the number starts with them. -/
theorem splitRadix_cases (cs : List Char) :
    (∃ mark radix body, radixOfMark? mark = some radix ∧ cs = '0' :: mark :: body ∧
        splitRadix cs = (radix, body)) ∨
      splitRadix cs = (10, cs) ∧
        ∀ mark body, cs = '0' :: mark :: body → radixOfMark? mark = none := by
  by_cases h : ∃ mark radix body, radixOfMark? mark = some radix ∧ cs = '0' :: mark :: body
  · obtain ⟨mark, radix, body, hmark, rfl⟩ := h
    refine .inl ⟨mark, radix, body, hmark, rfl, ?_⟩
    have hcut : cutBytes? 2 ('0' :: mark :: body) = some (['0', mark], body) := by
      have hzero : '0'.utf8Size = 1 := rfl
      simp [cutBytes?, hzero, utf8Size_of_radixOfMark? hmark]
    simp [splitRadix, hcut, hmark]
  · have hnone : ∀ mark body, cs = '0' :: mark :: body → radixOfMark? mark = none := by
      intro mark body hcs
      cases hmark : radixOfMark? mark with
      | none => rfl
      | some radix => exact absurd ⟨mark, radix, body, hmark, hcs⟩ h
    refine .inr ⟨?_, hnone⟩
    unfold splitRadix
    split
    · next mark body hcut => rw [hnone mark body (append_of_cutBytes? hcut)]
    · rfl

/-- A numeral consists of digits. -/
theorem Numeral.exists_isDigit {radix : Nat} {cs : List Char} {n : Nat} (h : Numeral radix cs n)
    {c : Char} (hc : c ∈ cs) : ∃ d, IsDigit radix d c := by
  obtain ⟨ds, hds, -⟩ := h.value
  obtain ⟨i, hi, rfl⟩ := List.mem_iff_getElem.mp hc
  exact ⟨_, hds.get (hds.length_eq ▸ hi) hi⟩

/-- A number is spelled in decimal, or in the radix of a mark behind a zero. -/
theorem spells_iff_mark {cs : List Char} {n : Nat} :
    Spells cs n ↔ Numeral 10 cs n ∨
      ∃ mark radix body, radixOfMark? mark = some radix ∧ cs = '0' :: mark :: body ∧
        Numeral radix body n := by
  constructor
  · intro h
    cases h with
    | decimal h => exact .inl h
    | hexadecimal hmark h =>
        exact .inr ⟨_, 16, _, radixOfMark?_eq_some_iff.mpr (.inl ⟨rfl, hmark⟩), rfl, h⟩
    | octal hmark h =>
        exact .inr ⟨_, 8, _, radixOfMark?_eq_some_iff.mpr (.inr (.inl ⟨rfl, hmark⟩)), rfl, h⟩
    | binary hmark h =>
        exact .inr ⟨_, 2, _, radixOfMark?_eq_some_iff.mpr (.inr (.inr ⟨rfl, hmark⟩)), rfl, h⟩
  · rintro (h | ⟨mark, radix, body, hmark, rfl, h⟩)
    · exact .decimal h
    · rcases radixOfMark?_eq_some_iff.mp hmark with ⟨rfl, hm⟩ | ⟨rfl, hm⟩ | ⟨rfl, hm⟩
      · exact .hexadecimal hm h
      · exact .octal hm h
      · exact .binary hm h

/-- No mark is a decimal digit, so a spelling has a mark or has none. -/
theorem not_isDigit_of_radixOfMark? {mark : Char} {radix : Nat}
    (h : radixOfMark? mark = some radix) (d : Nat) : ¬ IsDigit 10 d mark := by
  intro hd
  have hread := (radixDigit?_eq_some_iff (by omega)).mpr hd
  rcases radixOfMark?_eq_some_iff.mp h with
    ⟨-, rfl | rfl⟩ | ⟨-, rfl | rfl⟩ | ⟨-, rfl | rfl⟩ <;> cases hread

/-- A text spells a number as what is left of it stands for the number in the radix announced. -/
theorem spells_iff {cs : List Char} {n : Nat} :
    Spells cs n ↔ Numeral (splitRadix cs).1 (splitRadix cs).2 n := by
  rw [spells_iff_mark]
  rcases splitRadix_cases cs with ⟨mark, radix, body, hmark, rfl, hsplit⟩ | ⟨hsplit, hplain⟩
  · rw [hsplit]
    constructor
    · rintro (h | ⟨mark', radix', body', hmark', heq, h⟩)
      · obtain ⟨d, hd⟩ := h.exists_isDigit (c := mark) (by simp)
        exact absurd hd (not_isDigit_of_radixOfMark? hmark d)
      · simp only [List.cons.injEq, true_and] at heq
        obtain ⟨rfl, rfl⟩ := heq
        rw [hmark] at hmark'
        rwa [Option.some.inj hmark']
    · exact fun h => .inr ⟨mark, radix, body, hmark, rfl, h⟩
  · rw [hsplit]
    constructor
    · rintro (h | ⟨mark, radix, body, hmark, heq, -⟩)
      · exact h
      · rw [hplain mark body heq] at hmark
        cases hmark
    · exact .inl

/-- A numeral has no sign. -/
theorem startsWithSign_of_numeral {radix : Nat} {cs : List Char} {n : Nat} (hradix : radix ≤ 16)
    (h : Numeral radix cs n) : startsWithSign cs = false := by
  unfold startsWithSign
  split
  · obtain ⟨d, hd⟩ := h.exists_isDigit List.mem_cons_self
    cases (radixDigit?_eq_some_iff hradix).mpr hd
  · obtain ⟨d, hd⟩ := h.exists_isDigit List.mem_cons_self
    cases (radixDigit?_eq_some_iff hradix).mpr hd
  · rfl

/-- Without a sign, a number is read as its magnitude. -/
theorem readSigned?_of_unsigned {cs : List Char} (h : startsWithSign cs = false) (radix : Nat) :
    readSigned? radix cs = readMagnitude? radix false cs := by
  unfold readSigned?
  split <;> simp_all [startsWithSign]

theorem splitRadix_bounds (cs : List Char) : 1 ≤ (splitRadix cs).1 ∧ (splitRadix cs).1 ≤ 16 := by
  rcases splitRadix_cases cs with ⟨mark, radix, body, hmark, -, hsplit⟩ | ⟨hsplit, -⟩
  · have hradix := radixOfMark?_eq_some_iff.mp hmark
    rw [hsplit]
    omega
  · rw [hsplit]
    omega

/-- **Integers**: the reader accepts the spellings of the numbers in range. -/
theorem readInteger?_eq_some_iff {lexeme : String} {v : Int64} :
    readInteger? lexeme = some v ↔ ∃ n, Spells (withoutUnderscores lexeme) n ∧ v.toInt = n := by
  obtain ⟨hpos, hle⟩ := splitRadix_bounds (withoutUnderscores lexeme)
  simp only [spells_iff]
  rw [readInteger?]
  generalize splitRadix (withoutUnderscores lexeme) = number at *
  obtain ⟨radix, body⟩ := number
  dsimp only at *
  cases hsign : startsWithSign body with
  | true =>
      rw [Bool.or_true, if_pos rfl]
      refine ⟨nofun, ?_⟩
      rintro ⟨n, hn, -⟩
      rw [startsWithSign_of_numeral hle hn] at hsign
      cases hsign
  | false =>
      rw [Bool.or_false, readSigned?_of_unsigned hsign, ← readMagnitude?_eq_some_iff hpos hle]
      unfold readMagnitude?
      split <;> rfl

namespace Token

/-- What can stand in front of the digits of a number, and the radix of the digits. -/
def radixMarks : List (List Char × Nat) :=
  [([], 10), (['0', 'x'], 16), (['0', 'X'], 16), (['0', 'o'], 8), (['0', 'O'], 8),
    (['0', 'b'], 2), (['0', 'B'], 2)]

/-- Digits in either case behind a mark and any zeros spell their number. -/
theorem spells_of_toDigits {mark digits : List Char} {radix n : Nat}
    (hmark : (mark, radix) ∈ radixMarks) (zeros : Nat)
    (h : digits.map Char.toLower = Nat.toDigits radix n) :
    Spells (mark ++ List.replicate zeros '0' ++ digits) n := by
  have hnumeral : 2 ≤ radix → Numeral radix (List.replicate zeros '0' ++ digits) n := fun hradix =>
    (Numeral.of_toDigits hradix h).zeros (by omega) zeros
  rw [List.append_assoc]
  simp only [radixMarks, List.mem_cons, Prod.mk.injEq, List.not_mem_nil, or_false] at hmark
  rcases hmark with ⟨rfl, rfl⟩ | ⟨rfl, rfl⟩ | ⟨rfl, rfl⟩ | ⟨rfl, rfl⟩ | ⟨rfl, rfl⟩ |
    ⟨rfl, rfl⟩ | ⟨rfl, rfl⟩
  · exact .decimal (hnumeral (by omega))
  · exact .hexadecimal (.inl rfl) (hnumeral (by omega))
  · exact .hexadecimal (.inr rfl) (hnumeral (by omega))
  · exact .octal (.inl rfl) (hnumeral (by omega))
  · exact .octal (.inr rfl) (hnumeral (by omega))
  · exact .binary (.inl rfl) (hnumeral (by omega))
  · exact .binary (.inr rfl) (hnumeral (by omega))

/-- A token gives a literal just if its lexeme can be read. -/
theorem integerLiteral_eq_ok_iff {t : Token} {node : Node} :
    t.integerLiteral = .ok node ↔
      ∃ v, readInteger? t.lexeme = some v ∧
        node = .literal { location := t.location } (.integer v) := by
  unfold integerLiteral
  split
  · next v hv => simp [hv, info, eq_comm]
  · next hnone => simp [hnone]

/-- **Integer literals**: a token gives the number that its text spells, underscores left out, if
it fits in 64 bits, and stands where the token stands. Any other token is an error that carries
the token. In particular a number written in any of the radixes, with any number of leading zeros
and underscores, is read back. -/
theorem integerLiteral_exact (t : Token) :
    (∀ node, t.integerLiteral = .ok node ↔
      ∃ (n : Nat) (v : Int64), Spells (withoutUnderscores t.lexeme) n ∧ n ≤ 2 ^ 63 - 1 ∧
        v.toInt = n ∧ node = .literal { location := t.location } (.integer v)) ∧
    ((¬ ∃ n, Spells (withoutUnderscores t.lexeme) n ∧ n ≤ 2 ^ 63 - 1) →
      t.integerLiteral = .error (.invalidLiteral t.location .integer t.lexeme)) ∧
    ∀ (mark digits : List Char) (radix zeros n : Nat), (mark, radix) ∈ radixMarks →
      n ≤ 2 ^ 63 - 1 → digits.map Char.toLower = Nat.toDigits radix n →
      withoutUnderscores t.lexeme = mark ++ List.replicate zeros '0' ++ digits →
      ∃ v : Int64, v.toInt = n ∧
        t.integerLiteral = .ok (.literal { location := t.location } (.integer v)) := by
  refine ⟨fun node => ?_, fun hnone => ?_,
    fun mark digits radix zeros n hmark hn hdigits htext => ?_⟩
  · rw [integerLiteral_eq_ok_iff]
    constructor
    · rintro ⟨v, hv, hnode⟩
      obtain ⟨n, hn, hvalue⟩ := readInteger?_eq_some_iff.mp hv
      have hrange := v.toInt_lt
      exact ⟨n, v, hn, by omega, hvalue, hnode⟩
    · rintro ⟨n, v, hn, -, hvalue, hnode⟩
      exact ⟨v, readInteger?_eq_some_iff.mpr ⟨n, hn, hvalue⟩, hnode⟩
  · cases hread : readInteger? t.lexeme with
    | none => rw [integerLiteral, hread, invalid]
    | some v =>
        obtain ⟨n, hn, hvalue⟩ := readInteger?_eq_some_iff.mp hread
        have hrange := v.toInt_lt
        exact absurd ⟨n, hn, by omega⟩ hnone
  · have hvalue : (Int64.ofNat n).toInt = n := Int64.toInt_ofNat_of_lt (by omega)
    have hspells := spells_of_toDigits hmark zeros hdigits
    rw [← htext] at hspells
    exact ⟨Int64.ofNat n, hvalue, integerLiteral_eq_ok_iff.mpr
      ⟨_, readInteger?_eq_some_iff.mpr ⟨n, hspells, hvalue⟩, rfl⟩⟩

example : readInteger? "0x7fff_FFFF_ffff_FFFF" = some 9223372036854775807 := by decide +kernel

example : readInteger? "_9223372036854775808" = none := by decide +kernel

end Token

end NameResolution
