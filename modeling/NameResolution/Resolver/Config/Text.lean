import NameResolution.Number.Integer
import NameResolution.Resolver.Config
import NameResolution.Resolver.Config.Lexeme

/-!
# Configuration texts

Reads a configuration from a TOML document with the keys `builtins`, `stop-at-first-unresolved` and
`max-diagnostics-per-unit`. Each key is optional and occurs at most once; no other key is allowed.
A text that is no such document is refused before the builtins are looked at.
-/

namespace NameResolution

/-! ## Values -/

/-- The rest of a list of strings, and what follows it. Items are divided by commas, also behind
the last one, and lines can end anywhere. With `ready` set, an item can come next. -/
def Lexeme.items (ready : Bool) : List Lexeme → Option (List String × List Lexeme)
  | .newline :: ls => items ready ls
  | .closeBracket :: ls => some ([], ls)
  | .comma :: ls => if ready then none else items true ls
  | .text _ s :: ls =>
    if ready then (items false ls).map fun (ss, rest) => (s :: ss, rest) else none
  | _ => none

/-- Underscores stand between digits only. -/
def hasInnerUnderscores (cs : List Char) : Bool :=
  cs.head? != some '_' && cs.getLast? != some '_' &&
    (cs.zip cs.tail).all fun (a, b) => !(a == '_' && b == '_')

/-- The number written by digits of a radix with underscores between them. -/
def readGrouped? (radix : Nat) (cs : List Char) : Option Nat :=
  if hasInnerUnderscores cs then readDigits? radix (cs.filter (· != '_')) else none

/-- A decimal number has no needless zeros in front. -/
def readDecimalNumber? (cs : List Char) : Option Nat :=
  if cs.head? == some '0' && cs.length != 1 then none else readGrouped? 10 cs

/-- A count: a number in one of the four radixes, where only a decimal has a sign and only zero can
be negative. It fits in 64 bits. -/
def readCount? (word : String) : Option UInt64 :=
  let n := match word.toList with
    | '0' :: 'x' :: cs => readGrouped? 16 cs
    | '0' :: 'o' :: cs => readGrouped? 8 cs
    | '0' :: 'b' :: cs => readGrouped? 2 cs
    | '+' :: cs => readDecimalNumber? cs
    | '-' :: cs => (readDecimalNumber? cs).filter (· == 0)
    | cs => readDecimalNumber? cs
  n.bind fun n => if n < word64Count then some (UInt64.ofNat n) else none

/-! ## Settings -/

/-- The settings found so far. -/
structure Settings where
  builtins : Option (List String) := none
  stop : Option Bool := none
  cap : Option UInt64 := none

namespace Settings

/-- Reads the value of a setting from the lexemes behind its equals sign. -/
def read? (s : Settings) (key : String) (ls : List Lexeme) : Option (Settings × List Lexeme) :=
  if key == "builtins" && s.builtins.isNone then
    match ls with
    | .openBracket :: ls =>
      (Lexeme.items true ls).map fun (names, rest) => ({ s with builtins := some names }, rest)
    | _ => none
  else if key == "stop-at-first-unresolved" && s.stop.isNone then
    match ls with
    | .bare "true" :: rest => some ({ s with stop := some true }, rest)
    | .bare "false" :: rest => some ({ s with stop := some false }, rest)
    | _ => none
  else if key == "max-diagnostics-per-unit" && s.cap.isNone then
    match ls with
    | .bare word :: rest => (readCount? word).map fun cap => ({ s with cap := some cap }, rest)
    | _ => none
  else none

/-- The key that a lexeme stands for. -/
def key? : Lexeme → Option String
  | .bare word => if word.toList.contains '+' then none else some word
  | .text false content => some content
  | _ => none

/-- Reads settings, one on a line; every step takes at least one lexeme, so that their number
bounds the steps. -/
def readAll? : Nat → Settings → List Lexeme → Option Settings
  | _, s, [] => some s
  | fuel + 1, s, .newline :: ls => readAll? fuel s ls
  | fuel + 1, s, l :: .equals :: ls =>
    (key? l).bind fun key => (s.read? key ls).bind fun (s, rest) =>
      match rest with
      | [] => some s
      | .newline :: rest => readAll? fuel s rest
      | _ => none
  | _, _, _ => none

end Settings

namespace Config

/-- Reads a configuration without looking at the builtins. -/
def parse? (text : String) : Option Config := do
  let ls ← lexemes? text
  let s ← Settings.readAll? ls.length {} ls
  return { builtins := s.builtins.getD []
           stopAtFirstUnresolved := s.stop.getD false
           maxDiagnosticsPerUnit := s.cap }

/-- Reads a configuration. -/
def ofText (text : String) : Except Error Config :=
  match parse? text with
  | none => .error .parse
  | some c => c.validate

/-- What is found under the path of a file. -/
inductive FileState where
  | missing
  | directory
  | content (bytes : ByteArray)

/-- The text of a file, or why it cannot be read. -/
def FileState.text : FileState → Except String String
  | missing => .error "No such file or directory (os error 2)"
  | directory => .error "Is a directory (os error 21)"
  | content bytes =>
    match String.fromUTF8? bytes with
    | some s => .ok s
    | none => .error "stream did not contain valid UTF-8"

/-- Reads a configuration from a file. -/
def load (path : String) (file : FileState) : Except Error Config :=
  match file.text with
  | .error reason => .error (.read path reason)
  | .ok text => ofText text

end Config

end NameResolution
