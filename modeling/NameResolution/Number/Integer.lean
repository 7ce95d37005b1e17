/-!
# Integers of fixed width

Offsets, lines and columns are 32-bit words. A count that does not fit is clamped to the largest
word instead of wrapping around. Other numbers have to fit in 64 bits: indexes into tables and
texts are unsigned, and a sum that does not fit or a difference below zero has no result.

An unsigned number is written with one or more digits in a radix up to sixteen, letters counting in
either case. A signed 64-bit number is written with one or more digits behind an optional sign. Its
value is put together digit by digit, away from zero, and no step may leave the range of 64 bits.
-/

namespace NameResolution

/-! ## Words -/

/-- The largest 32-bit word. -/
def maxWord : Nat := 4294967295

/-- The word nearest to `n`: `n` itself when it fits, else the largest word. -/
def clampWord (n : Nat) : UInt32 := UInt32.ofNat (min n maxWord)

/-- The number of 64-bit words. -/
def word64Count : Nat := 0x10000000000000000

/-- The number of 64-bit words that stand for a non-negative signed number. -/
def int64Count : Nat := 0x8000000000000000

/-- Clamping keeps the numbers that fit and takes every other one to the largest word. -/
theorem toNat_clampWord (n : Nat) : (clampWord n).toNat = min n maxWord := by
  simp only [clampWord, maxWord, UInt32.toNat_ofNat']
  omega

/-! ## Indexes -/

/-- The sum of two indexes; `none` if it does not fit. -/
def addIndex? (a b : Nat) : Option Nat := if a + b < word64Count then some (a + b) else none

/-- The difference of two indexes; `none` if it is below zero. -/
def subIndex? (a b : Nat) : Option Nat := if b ≤ a then some (a - b) else none

/-! ## Digits in a radix -/

/-- The value of a character as a digit, letters `a` to `f` in either case included. -/
def digitValue? (c : Char) : Option Nat :=
  if '0' ≤ c ∧ c ≤ '9' then some (c.toNat - '0'.toNat)
  else if 'a' ≤ c ∧ c ≤ 'f' then some (c.toNat - 'a'.toNat + 10)
  else if 'A' ≤ c ∧ c ≤ 'F' then some (c.toNat - 'A'.toNat + 10)
  else none

/-- The value of a character as a digit of the given radix. -/
def radixDigit? (radix : Nat) (c : Char) : Option Nat :=
  (digitValue? c).filter (· < radix)

/-- The number written by the digits `cs` after a number `acc`; `none` if one is not a digit. -/
def digitsValue? (radix : Nat) (acc : Nat) : List Char → Option Nat
  | [] => some acc
  | c :: cs => (radixDigit? radix c).bind fun d => digitsValue? radix (acc * radix + d) cs

/-- The number written by one or more digits of the radix. -/
def readDigits? (radix : Nat) (cs : List Char) : Option Nat :=
  if cs.isEmpty then none else digitsValue? radix 0 cs

/-! ## Signed numbers -/

/-- The signed 64-bit number equal to an integer, if there is one. -/
def int64? (z : Int) : Option Int64 :=
  if -(int64Count : Int) ≤ z ∧ z < int64Count then some (Int64.ofInt z) else none

/-- Puts one more digit behind a number. -/
def appendDigit? (radix : Nat) (negative : Bool) (acc : Int64) (c : Char) : Option Int64 := do
  let scaled ← int64? (acc.toInt * radix)
  let digit ← radixDigit? radix c
  int64? (if negative then scaled.toInt - digit else scaled.toInt + digit)

/-- The number of the given sign that is written by one or more digits. -/
def readMagnitude? (radix : Nat) (negative : Bool) (cs : List Char) : Option Int64 :=
  if cs.isEmpty then none else cs.foldlM (appendDigit? radix negative) 0

/-- The number written by an optional sign and one or more digits. -/
def readSigned? (radix : Nat) : List Char → Option Int64
  | '+' :: cs => readMagnitude? radix false cs
  | '-' :: cs => readMagnitude? radix true cs
  | cs => readMagnitude? radix false cs

end NameResolution
