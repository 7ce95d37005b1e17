import NameResolution.Json.Basic
import NameResolution.Number.Decimal

/-!
# JSON texts

Reads a JSON value from a text. A number with a fraction or an exponent is not an integer; nor is
one outside the 64-bit range or a negative zero. Of several fields with one key the last counts.
-/

namespace NameResolution.Json

/-- White space between JSON tokens. -/
def isJsonBlank (c : Char) : Bool := c == ' ' || c == '\t' || c == '\n' || c == '\r'

/-- A text without the white space at its start. -/
def skipBlanks (cs : List Char) : List Char := cs.dropWhile isJsonBlank

/-! ## Strings -/

/-- The 16-bit unit written by four hexadecimal digits. -/
def hexUnit? (a b c d : Char) : Option Nat := readDigits? 16 [a, b, c, d]

/-- The character that a backslash and a letter stand for. -/
def unescape? : Char → Option Char
  | '"' => some '"'
  | '\\' => some '\\'
  | '/' => some '/'
  | 'b' => some '\x08'
  | 'f' => some '\x0c'
  | 'n' => some '\n'
  | 'r' => some '\r'
  | 't' => some '\t'
  | _ => none

/-- The character of one unit outside the surrogates. -/
def unitChar? (n : Nat) : Option Char :=
  if n < 0xd800 || 0xdfff < n then some (Char.ofNat n) else none

/-- The character of a pair of surrogates. -/
def pairChar? (high low : Nat) : Option Char :=
  if 0xd800 ≤ high && high < 0xdc00 && 0xdc00 ≤ low && low < 0xe000 then
    some (Char.ofNat (0x10000 + (high - 0xd800) * 0x400 + (low - 0xdc00)))
  else none

/-- The rest of a string behind its opening quote, put in front of the reversed characters read so
far, and what follows it. -/
def stringRest (acc : List Char) : List Char → Option (String × List Char)
  | '"' :: cs => some (String.ofList acc.reverse, cs)
  | '\\' :: 'u' :: a :: b :: c :: d :: '\\' :: 'u' :: a' :: b' :: c' :: d' :: cs =>
    match hexUnit? a b c d, hexUnit? a' b' c' d' with
    | some high, some low =>
      match pairChar? high low with
      | some ch => stringRest (ch :: acc) cs
      | none =>
        match unitChar? high with
        | some ch => stringRest (ch :: acc) ('\\' :: 'u' :: a' :: b' :: c' :: d' :: cs)
        | none => none
    | _, _ => none
  | '\\' :: 'u' :: a :: b :: c :: d :: cs =>
    match (hexUnit? a b c d).bind unitChar? with
    | some ch => stringRest (ch :: acc) cs
    | none => none
  | '\\' :: c :: cs =>
    match unescape? c with
    | some ch => stringRest (ch :: acc) cs
    | none => none
  | c :: cs => if c < ' ' then none else stringRest (c :: acc) cs
  | [] => none

/-! ## Numbers -/

/-- The longest run of characters of a number at the start, and what follows. -/
def spanNumber (cs : List Char) : List Char × List Char :=
  let p (c : Char) : Bool := c.isDigit || c == '.' || c == 'e' || c == 'E' || c == '+' || c == '-'
  (cs.takeWhile p, cs.dropWhile p)

/-- An unsigned number has no needless zeros in front and digits around its point. -/
def isNumberText (cs : List Char) : Bool :=
  let (whole, rest) := spanDigits cs
  let fractionOk := match rest with
    | '.' :: rest => !(spanDigits rest).1.isEmpty
    | _ => true
  !whole.isEmpty && (whole.head? != some '0' || whole.length == 1) && fractionOk

/-- The value of a number. -/
def number? (cs : List Char) : Option Json :=
  let (negative, digits) := match cs with
    | '-' :: digits => (true, digits)
    | digits => (false, digits)
  if isNumberText digits then
    (readDecimal? digits).map fun d =>
      let plain := digits.all (·.isDigit)
      let fits := if negative then 0 < d.digits && d.digits ≤ int64Count else d.digits < word64Count
      if plain && fits then .integer (if negative then -(d.digits : Int) else d.digits)
      else .real (.ofDecimal negative d.digits d.exponent)
  else none

/-! ## Values -/

/-- Sets the field of an object, keeping its place if there is one already. -/
def setField (fields : List (String × Json)) (key : String) (j : Json) : List (String × Json) :=
  if fields.any (·.1 == key) then fields.map fun f => if f.1 == key then (key, j) else f
  else fields ++ [(key, j)]

/-- The rest of a text behind a word that it starts with. -/
def afterWord? (word : String) (cs : List Char) : Option (List Char) :=
  if word.toList.isPrefixOf cs then some (cs.drop word.length) else none

mutual

/-- The value at the start of a text, and what follows it. Each value takes at least one
character, so that the length of the text bounds the depth. -/
def value? : Nat → List Char → Option (Json × List Char)
  | 0, _ => none
  | fuel + 1, cs =>
    match skipBlanks cs with
    | '"' :: cs => (stringRest [] cs).map fun (s, rest) => (.string s, rest)
    | '[' :: cs =>
      match skipBlanks cs with
      | ']' :: cs => some (.array [], cs)
      | cs => (items? fuel cs).map fun (js, rest) => (.array js, rest)
    | '\x7b' :: cs =>
      match skipBlanks cs with
      | '\x7d' :: cs => some (.object [], cs)
      | cs => (fields? fuel [] cs).map fun (fs, rest) => (.object fs, rest)
    | 'n' :: cs => (afterWord? "ull" cs).map fun rest => (.null, rest)
    | 't' :: cs => (afterWord? "rue" cs).map fun rest => (.bool true, rest)
    | 'f' :: cs => (afterWord? "alse" cs).map fun rest => (.bool false, rest)
    | cs => (number? (spanNumber cs).1).map fun j => (j, (spanNumber cs).2)

/-- The items of an array up to its closing bracket, and what follows it. -/
def items? : Nat → List Char → Option (List Json × List Char)
  | 0, _ => none
  | fuel + 1, cs =>
    match value? fuel cs with
    | none => none
    | some (j, rest) =>
      match skipBlanks rest with
      | ',' :: rest => (items? fuel rest).map fun (js, rest) => (j :: js, rest)
      | ']' :: rest => some ([j], rest)
      | _ => none

/-- The fields of an object up to its closing brace, behind those read so far, and what follows
it. -/
def fields? : Nat → List (String × Json) → List Char → Option (List (String × Json) × List Char)
  | 0, _, _ => none
  | fuel + 1, fs, cs =>
    match skipBlanks cs with
    | '"' :: cs =>
      match stringRest [] cs with
      | none => none
      | some (key, rest) =>
        match skipBlanks rest with
        | ':' :: rest =>
          match value? fuel rest with
          | none => none
          | some (j, rest) =>
            match skipBlanks rest with
            | ',' :: rest => fields? fuel (setField fs key j) rest
            | '\x7d' :: rest => some (setField fs key j, rest)
            | _ => none
        | _ => none
    | _ => none

end

/-- Reads a JSON text. -/
def ofText? (text : String) : Option Json :=
  let cs := text.toList
  match value? (cs.length + 1) cs with
  | some (j, rest) => if (skipBlanks rest).isEmpty then some j else none
  | none => none

end NameResolution.Json
