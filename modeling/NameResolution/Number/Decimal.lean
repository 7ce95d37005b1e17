import NameResolution.Number.Binary64
import NameResolution.Number.Integer

/-!
# Decimals

A decimal is written with digits, an optional point with digits before or after it, and an optional
exponent. A binary64 number is written as a decimal, or as one of the words for infinity and for
what is not a number, in either case behind an optional sign.
-/

namespace NameResolution

/-- A decimal: a number scaled by a power of ten. -/
structure Decimal where
  digits : Nat
  exponent : Int
deriving DecidableEq

/-- The longest run of decimal digits at the start, and what follows. -/
def spanDigits (cs : List Char) : List Char × List Char :=
  (cs.takeWhile (·.isDigit), cs.dropWhile (·.isDigit))

/-- An exponent behind its mark: an optional sign and one or more digits, to the end. -/
def readExponent? : List Char → Option Int
  | '+' :: cs => (readDigits? 10 cs).map Int.ofNat
  | '-' :: cs => (readDigits? 10 cs).map fun n : Nat => -(n : Int)
  | cs => (readDigits? 10 cs).map Int.ofNat

/-- An optional exponent, to the end. -/
def readScale? : List Char → Option Int
  | [] => some 0
  | c :: cs => if c == 'e' || c == 'E' then readExponent? cs else none

/-- An unsigned decimal: digits, an optional point with digits before or after it, and an optional
exponent. -/
def readDecimal? (cs : List Char) : Option Decimal :=
  let (whole, rest) := spanDigits cs
  let (fraction, rest) :=
    match rest with
    | '.' :: rest => spanDigits rest
    | rest => ([], rest)
  (readDigits? 10 (whole ++ fraction)).bind fun digits =>
    (readScale? rest).map fun scale => ⟨digits, scale - fraction.length⟩

namespace Binary64

/-- The words for numbers that have no decimal, and the bits of these numbers. -/
def words : List (String × Nat) :=
  [("inf", infinity), ("infinity", infinity), ("nan", 0x7ff8000000000000)]

/-- The number of the given sign that a word stands for, in letters of either case. -/
def readWord? (negative : Bool) (cs : List Char) : Option Binary64 :=
  (words.find? fun word => word.1.toList == cs.map Char.toLower).map fun word =>
    ⟨UInt64.ofNat (if negative then word.2 + signBit else word.2)⟩

/-- The number of the given sign that is written as a decimal or a word; a decimal stands for the
number nearest to it. -/
def readUnsigned? (negative : Bool) (cs : List Char) : Option Binary64 :=
  match readDecimal? cs with
  | some d => some (ofDecimal negative d.digits d.exponent)
  | none => readWord? negative cs

/-- The number written by an optional sign and a decimal or a word. -/
def read? : List Char → Option Binary64
  | '+' :: cs => readUnsigned? false cs
  | '-' :: cs => readUnsigned? true cs
  | cs => readUnsigned? false cs

end Binary64

end NameResolution
