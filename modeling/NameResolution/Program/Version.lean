import NameResolution.Number.Integer

/-!
# Versions

Semantic versions: three numbers, optional pre-release identifiers behind a hyphen and optional
build identifiers behind a plus sign. A version is shown as it is written.
-/

namespace NameResolution

/-- A semantic version. -/
structure Version where
  major : UInt64
  minor : UInt64
  patch : UInt64
  /-- Pre-release identifiers. -/
  pre : List String := []
  /-- Build identifiers. -/
  build : List String := []
deriving DecidableEq, Inhabited

namespace Version

/-- Identifiers joined by dots behind a mark; nothing if there are none. -/
def renderIdentifiers (mark : String) (ids : List String) : String :=
  if ids.isEmpty then "" else mark ++ ".".intercalate ids

/-- A version is shown as its numbers and identifiers. -/
def render (v : Version) : String :=
  s!"{v.major.toNat}.{v.minor.toNat}.{v.patch.toNat}" ++ renderIdentifiers "-" v.pre ++
    renderIdentifiers "+" v.build

instance : ToString Version := ⟨render⟩

/-- A number without needless zeros in front that fits in 64 bits. -/
def readNumber? (s : String) : Option UInt64 :=
  if s.isEmpty || !s.toList.all (·.isDigit) || (s.length != 1 && s.toList.head? == some '0') then
    none
  else s.toNat?.bind fun n => if n < word64Count then some (UInt64.ofNat n) else none

/-- Identifiers hold letters, digits and hyphens. -/
def isIdentifier (s : String) : Bool := !s.isEmpty && s.toList.all fun c => c.isAlphanum || c == '-'

/-- A pre-release identifier of digits only has no needless zeros in front. -/
def isPreIdentifier (s : String) : Bool :=
  isIdentifier s && !(s.toList.all (·.isDigit) && s.length != 1 && s.toList.head? == some '0')

/-- The identifiers of a part that may be absent, if each is well formed. -/
def readIdentifiers? (ok : String → Bool) : Option String → Option (List String)
  | none => some []
  | some s => if (s.splitOn ".").all ok then some (s.splitOn ".") else none

/-- A text cut at the first occurrence of a character, which is dropped. -/
def cutAt (mark : Char) (s : String) : String × Option String :=
  let cs := s.toList
  match cs.dropWhile (· != mark) with
  | [] => (s, none)
  | _ :: rest => (String.ofList (cs.takeWhile (· != mark)), some (String.ofList rest))

/-- Reads a version. -/
def ofString? (s : String) : Option Version := do
  let (s, build) := cutAt '+' s
  let (s, pre) := cutAt '-' s
  match s.splitOn "." with
  | [major, minor, patch] =>
    return ⟨← readNumber? major, ← readNumber? minor, ← readNumber? patch,
      ← readIdentifiers? isPreIdentifier pre, ← readIdentifiers? isIdentifier build⟩
  | _ => none

end Version

end NameResolution
