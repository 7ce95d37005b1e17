import NameResolution.Number.Integer

/-!
# Lexemes of a configuration text

A configuration is a TOML document. Its settings are a list of strings, a boolean and an integer
under top-level keys, so that only comments, keys, strings in the four notations, bare words,
brackets, commas and equals signs can occur in it. `lexemes?` cuts a text into these and refuses
all others, such as tables, dates and fractions.
-/

namespace NameResolution

/-- A piece of a configuration text. -/
inductive Lexeme where
  | newline
  | equals
  | comma
  | openBracket
  | closeBracket
  /-- A word without quotes: a key, a boolean or an integer. -/
  | bare (word : String)
  /-- A string; only one on a single line can be a key. -/
  | text (multiLine : Bool) (content : String)
deriving DecidableEq

namespace Lexeme

/-! ## Characters -/

/-- Characters that can stand in a comment and in a string on one line: all but the control
characters, of which only the tab is allowed. -/
def isTextChar (c : Char) : Bool := c == '\t' || (' ' ≤ c && c != '\x7f')

/-- Characters of a word without quotes. -/
def isBareChar (c : Char) : Bool := c.isAlphanum || c == '_' || c == '-' || c == '+'

/-- White space within a line. -/
def isLineBlank (c : Char) : Bool := c == ' ' || c == '\t'

/-- The character of a code point written in hexadecimal digits, surrogates excluded. -/
def hexChar? (digits : List Char) : Option Char :=
  (readDigits? 16 digits).bind fun n =>
    if n < 0xd800 || (0xdfff < n && n < 0x110000) then some (Char.ofNat n) else none

/-- The character that stands for itself or another one behind a backslash. -/
def escaped? : Char → Option Char
  | 'b' => some '\x08'
  | 't' => some '\t'
  | 'n' => some '\n'
  | 'f' => some '\x0c'
  | 'r' => some '\r'
  | '"' => some '"'
  | '\\' => some '\\'
  | _ => none

/-! ## Strings -/

/-- Puts an optional character in front of what has been read. -/
def consRead (c : Option Char) (r : Option (List Char × List Char)) :
    Option (List Char × List Char) :=
  c.bind fun c => r.map fun (s, rest) => (c :: s, rest)

/-- The rest of a string in single quotes, and what follows it. -/
def literal : List Char → Option (List Char × List Char)
  | [] => none
  | c :: cs =>
    if c == '\'' then some ([], cs)
    else if isTextChar c then consRead (some c) (literal cs)
    else none

/-- The rest of a string in double quotes, and what follows it. -/
def basic : List Char → Option (List Char × List Char)
  | '"' :: cs => some ([], cs)
  | '\\' :: 'u' :: a :: b :: c :: d :: cs => consRead (hexChar? [a, b, c, d]) (basic cs)
  | '\\' :: 'U' :: a :: b :: c :: d :: e :: f :: g :: h :: cs =>
    consRead (hexChar? [a, b, c, d, e, f, g, h]) (basic cs)
  | '\\' :: c :: cs => consRead (escaped? c) (basic cs)
  | c :: cs => if isTextChar c then consRead (some c) (basic cs) else none
  | [] => none

/-- The end of a string in triple quotes, behind the first three closing quotes: up to two more
quotes belong to the string. -/
def closing (quote : Char) : List Char → List Char × List Char
  | a :: b :: cs =>
    if a == quote && b == quote then ([quote, quote], cs)
    else if a == quote then ([quote], b :: cs)
    else ([], a :: b :: cs)
  | [a] => if a == quote then ([quote], []) else ([], [a])
  | [] => ([], [])

/-- The rest of a string in three single quotes, and what follows it. -/
def multiLiteral : List Char → Option (List Char × List Char)
  | '\'' :: '\'' :: '\'' :: cs => some (closing '\'' cs)
  | '\r' :: '\n' :: cs => consRead (some '\r') (consRead (some '\n') (multiLiteral cs))
  | c :: cs => if isTextChar c || c == '\n' then consRead (some c) (multiLiteral cs) else none
  | [] => none

/-- Nothing but blanks stands before the end of the line. -/
def isLineEnd (cs : List Char) : Bool :=
  match cs.dropWhile isLineBlank with
  | '\n' :: _ | '\r' :: '\n' :: _ => true
  | _ => false

/-- The rest of a string in three double quotes, and what follows it. A backslash at the end of a
line joins the line to the next character that is no blank; with `joining` set, such blanks and
line ends are dropped. -/
def multiBasic (joining : Bool) : List Char → Option (List Char × List Char)
  | '"' :: '"' :: '"' :: cs => some (closing '"' cs)
  | '\\' :: 'u' :: a :: b :: c :: d :: cs => consRead (hexChar? [a, b, c, d]) (multiBasic false cs)
  | '\\' :: 'U' :: a :: b :: c :: d :: e :: f :: g :: h :: cs =>
    consRead (hexChar? [a, b, c, d, e, f, g, h]) (multiBasic false cs)
  | '\\' :: c :: cs =>
    if isLineEnd (c :: cs) then multiBasic true (c :: cs)
    else consRead (escaped? c) (multiBasic false cs)
  | '\r' :: '\n' :: cs =>
    if joining then multiBasic true cs
    else consRead (some '\r') (consRead (some '\n') (multiBasic false cs))
  | c :: cs =>
    if joining && (isLineBlank c || c == '\n') then multiBasic true cs
    else if isTextChar c || c == '\n' then consRead (some c) (multiBasic false cs)
    else none
  | [] => none

/-- A line end directly behind the opening quotes does not belong to the string. -/
def dropLineEnd : List Char → List Char
  | '\n' :: cs | '\r' :: '\n' :: cs => cs
  | cs => cs

/-! ## Lexemes -/

/-- The lexeme at the start of a text, if any, and what follows it. -/
def next? : List Char → Option (List Lexeme × List Char)
  | '\n' :: cs | '\r' :: '\n' :: cs => some ([newline], cs)
  | ' ' :: cs | '\t' :: cs => some ([], cs)
  | '#' :: cs => some ([], cs.dropWhile isTextChar)
  | '=' :: cs => some ([equals], cs)
  | ',' :: cs => some ([comma], cs)
  | '[' :: cs => some ([openBracket], cs)
  | ']' :: cs => some ([closeBracket], cs)
  | '"' :: '"' :: '"' :: cs =>
    (multiBasic false (dropLineEnd cs)).map fun (s, rest) => ([text true (String.ofList s)], rest)
  | '"' :: cs => (basic cs).map fun (s, rest) => ([text false (String.ofList s)], rest)
  | '\'' :: '\'' :: '\'' :: cs =>
    (multiLiteral (dropLineEnd cs)).map fun (s, rest) => ([text true (String.ofList s)], rest)
  | '\'' :: cs => (literal cs).map fun (s, rest) => ([text false (String.ofList s)], rest)
  | c :: cs =>
    if isBareChar c then
      some ([bare (String.ofList (c :: cs.takeWhile isBareChar))], cs.dropWhile isBareChar)
    else none
  | [] => none

/-- The lexemes of a text, cut off one by one; each takes at least one character, so that the
length of the text bounds their number. -/
def cut? : Nat → List Char → Option (List Lexeme)
  | _, [] => some []
  | 0, _ => none
  | fuel + 1, cs => (next? cs).bind fun (ls, rest) => (cut? fuel rest).map (ls ++ ·)

end Lexeme

/-- The lexemes of a configuration text. A byte order mark at the start is ignored. -/
def lexemes? (s : String) : Option (List Lexeme) :=
  let cs := match s.toList with
    | '\ufeff' :: cs => cs
    | cs => cs
  Lexeme.cut? cs.length cs

end NameResolution
