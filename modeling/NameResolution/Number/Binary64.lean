/-!
# Binary64 numbers

An IEEE-754 binary64 number is kept as its 64 bits, so that every NaN payload survives. Two
numbers compare as numbers: the zeros of both signs are equal and a NaN differs from everything.
`Binary64.ofDecimal` reads a decimal, rounding to nearest with ties to the even neighbour.
-/

namespace NameResolution

/-- An IEEE-754 binary64 number, given by its bits. -/
structure Binary64 where
  bits : UInt64
deriving DecidableEq, Inhabited

namespace Binary64

/-- The bits without the sign. -/
def magnitude (x : Binary64) : UInt64 := x.bits &&& 0x7fffffffffffffff

/-- A NaN has all exponent bits set and a fraction other than zero. -/
def isNaN (x : Binary64) : Bool := 0x7ff0000000000000 < x.magnitude

/-- Zero of either sign. -/
def isZero (x : Binary64) : Bool := x.magnitude == 0

/-- Equality of numbers: a NaN equals nothing, and the two zeros are equal. -/
def numericEq (x y : Binary64) : Bool :=
  !x.isNaN && !y.isNaN && (x.bits == y.bits || x.isZero && y.isZero)

/-- Positive infinity, which also bounds the bits of every finite magnitude. -/
def infinity : Nat := 0x7ff0000000000000

/-- The sign bit, as a number. -/
def signBit : Nat := 0x8000000000000000

/-! ## Reading a decimal -/

/-- The quotient of two numbers, rounded to nearest with ties to even. -/
def roundDiv (num den : Nat) : Nat :=
  let q := num / den
  let r := num % den
  if den < 2 * r || (2 * r == den && q % 2 == 1) then q + 1 else q

/-- `num / den · 2^(-shift)`, rounded to nearest with ties to even. -/
def roundScaled (num den : Nat) (shift : Int) : Nat :=
  if 0 ≤ shift then roundDiv num (den <<< shift.toNat) else roundDiv (num <<< (-shift).toNat) den

/-- The exponent of the last place of the binary64 number nearest to `num / den`: the quotient by
`2^k` has 53 bits, unless that would put `k` below the least exponent `-1074`. -/
def lastPlace (num den : Nat) : Int :=
  let k : Int := (num.log2 : Int) - (den.log2 : Int) - 52
  let short :=
    if 0 ≤ k then num < den <<< (k.toNat + 52) else num <<< (-k).toNat < den <<< 52
  max (if short then k - 1 else k) (-1074)

/-- The bits of the binary64 number nearest to the fraction `num / den`. A last place `k` and a
rounded significand `m` are stored as `(k + 1074) · 2^52 + m`, which also carries a significand
that was rounded up to the next power of two. -/
def ratioBits (num den : Nat) : Nat :=
  if num == 0 then 0
  else
    let k := lastPlace num den
    min ((k + 1074).toNat <<< 52 + roundScaled num den k) infinity

/-- The binary64 number nearest to `± digits · 10^exponent`. A decimal whose leading digit stands
far outside the range of binary64 is infinite or zero whatever its other digits are. -/
def ofDecimal (negative : Bool) (digits : Nat) (exponent : Int) : Binary64 :=
  let size : Int := (Nat.toDigits 10 digits).length + exponent
  let magnitude :=
    if digits == 0 || size < -330 then 0
    else if 330 < size then infinity
    else if 0 ≤ exponent then ratioBits (digits * Nat.pow 10 exponent.toNat) 1
    else ratioBits digits (Nat.pow 10 (-exponent).toNat)
  ⟨UInt64.ofNat (if negative then magnitude + signBit else magnitude)⟩

/-- The binary64 number nearest to an integer. -/
def ofInt (n : Int) : Binary64 := ofDecimal (n < 0) n.natAbs 0

end Binary64

end NameResolution
