import NameResolution.Number.Decimal
import NameResolution.Syntax.Node

/-!
# Literals

Reading a literal from the text of a token. Underscores in numbers are ignored wherever they stand.
An integer is written in decimal, or after `0x`, `0o` or `0b` in hexadecimal, octal or binary, has
no sign and fits in 64 bits. A float is a decimal with an optional fraction and exponent. A string
loses one pair of quotes around it.
-/

namespace NameResolution

/-- A token: a text and where it stands. -/
structure Token where
  lexeme : String
  location : Location
deriving DecidableEq

/-- The characters of a lexeme without underscores. -/
def withoutUnderscores (lexeme : String) : List Char := lexeme.toList.filter (· != '_')

/-! ## Integers -/

/-- Cuts a text after `n` bytes of its UTF-8 form; `none` if it is shorter, or if the cut would go
through a character. -/
def cutBytes? : Nat → List Char → Option (List Char × List Char)
  | 0, cs => some ([], cs)
  | _ + 1, [] => none
  | n + 1, c :: cs =>
    if c.utf8Size ≤ n + 1 then
      (cutBytes? (n + 1 - c.utf8Size) cs).map fun (front, rest) => (c :: front, rest)
    else none

/-- The radix that a mark behind a zero announces. -/
def radixOfMark? : Char → Option Nat
  | 'x' | 'X' => some 16
  | 'o' | 'O' => some 8
  | 'b' | 'B' => some 2
  | _ => none

/-- The radix announced by the first two bytes of a number, and what follows. -/
def splitRadix (cs : List Char) : Nat × List Char :=
  match cutBytes? 2 cs with
  | some (['0', mark], body) =>
    match radixOfMark? mark with
    | some radix => (radix, body)
    | none => (10, cs)
  | _ => (10, cs)

/-- A sign stands at the start. -/
def startsWithSign : List Char → Bool
  | '+' :: _ | '-' :: _ => true
  | _ => false

/-- The integer a lexeme stands for. A number may have a sign in general, but not here. -/
def readInteger? (lexeme : String) : Option Int64 :=
  let (radix, body) := splitRadix (withoutUnderscores lexeme)
  if body.isEmpty || startsWithSign body then none else readSigned? radix body

/-! ## Floats -/

/-- A digit or a point stands at the start. -/
def startsWithDigitOrPoint : List Char → Bool
  | c :: _ => c.isDigit || c == '.'
  | [] => false

/-- The float a lexeme stands for. A number may have a sign and may be a word in general, but not
here. -/
def readFloat? (lexeme : String) : Option Binary64 :=
  let cs := withoutUnderscores lexeme
  if startsWithDigitOrPoint cs then Binary64.read? cs else none

/-! ## Strings -/

/-- The characters that can stand around a string. -/
def quoteMarks : List Char := ['"', '\'', '\x60']

/-- A text without the mark `q` at its start and another at its end, if both are there. -/
def stripQuotes? (q : Char) : List Char → Option (List Char)
  | [] => none
  | c :: cs => if c == q && cs.getLast? == some q then some cs.dropLast else none

/-- A lexeme without the quotes around it; one without quotes is left as it is. -/
def unquote (lexeme : String) : String :=
  ((quoteMarks.findSome? (stripQuotes? · lexeme.toList)).map String.ofList).getD lexeme

/-! ## Nodes from tokens -/

namespace Token

/-- The information of a node made from a token. -/
def info (t : Token) : NodeInfo := { location := t.location }

/-- The error for a token that is no literal of a kind. -/
def invalid (t : Token) (kind : LiteralKind) : TreeError :=
  .invalidLiteral t.location kind t.lexeme

/-- The null literal of a token, whatever its text is. -/
def nullLiteral (t : Token) : Node := .literal t.info .null

/-- The boolean literal of a token: `true` or `false`. -/
def booleanLiteral (t : Token) : Except TreeError Node :=
  if t.lexeme == "true" then .ok (.literal t.info (.boolean true))
  else if t.lexeme == "false" then .ok (.literal t.info (.boolean false))
  else .error (t.invalid .boolean)

/-- The integer literal of a token. -/
def integerLiteral (t : Token) : Except TreeError Node :=
  match readInteger? t.lexeme with
  | some n => .ok (.literal t.info (.integer n))
  | none => .error (t.invalid .integer)

/-- The float literal of a token. -/
def floatLiteral (t : Token) : Except TreeError Node :=
  match readFloat? t.lexeme with
  | some x => .ok (.literal t.info (.float x))
  | none => .error (t.invalid .float)

/-- The string literal of a token. -/
def stringLiteral (t : Token) : Node := .literal t.info (.string (unquote t.lexeme))

/-- An identifier named by a token. -/
def identifier (t : Token) (isMarked isLocal : Bool) : Identifier :=
  { info := t.info, name := t.lexeme, isMarked, isLocal }

end Token

end NameResolution
