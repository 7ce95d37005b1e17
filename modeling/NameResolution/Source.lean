import NameResolution.Number.Integer

/-!
# Sources

A source is the text that a unit was read from, with the offsets at which its lines start. Sources
are told apart by identity: two sources with the same name and text can be different objects, and
the number `Source.id` says which one is meant.

The line of an offset is found in the table of line starts by halving: `partitionPoint?` finds where
a table changes over from entries with a property to entries without it. An index outside the table
is a fault, and a computation with a fault in it has no result.
-/

namespace NameResolution

/-- What a resource holds. -/
inductive ResourceKind where
  /-- A module, with imports and exports. -/
  | module
  /-- A script, which offers nothing to others. -/
  | script
  /-- Data that is read to a value. -/
  | data
deriving DecidableEq, Inhabited

namespace ResourceKind

/-- Data is kept with the values of a program. -/
def isValue : ResourceKind → Bool
  | data => true
  | _ => false

/-- The name of a kind of resource. -/
def name : ResourceKind → String
  | module => "module"
  | script => "script"
  | data => "data"

instance : ToString ResourceKind := ⟨name⟩

/-- The kind of resource of a given name. -/
def ofName? (s : String) : Option ResourceKind := [module, script, data].find? (·.name == s)

/-- A kind of resource is found by its name. -/
theorem ofName?_name (k : ResourceKind) : ofName? k.name = some k := by
  cases k <;> decide

end ResourceKind

/-- A source object. -/
structure Source where
  /-- Which object it is. -/
  id : Nat
  /-- The full name, a path. -/
  name : String
  kind : ResourceKind
  /-- The offset of the first byte of each line, in increasing order. -/
  lineStarts : List UInt32
  /-- The text, for a source that is held in memory. -/
  text : Option String := none
deriving DecidableEq, Inhabited

/-! ## Search by halving -/

/-- Halves a window of `size` entries from `base` on, until one entry is left. -/
def halve? {α : Type} (p : α → Bool) (xs : List α) (base size : Nat) : Option Nat :=
  if 1 < size then
    (addIndex? base (size / 2)).bind fun mid =>
      xs[mid]?.bind fun x => halve? p xs (if p x then mid else base) (size - size / 2)
  else some base
termination_by size

/-- The number of entries with the property `p`, in a table where these entries come first. -/
def partitionPoint? {α : Type} (p : α → Bool) (xs : List α) : Option Nat :=
  if xs.isEmpty then some 0
  else do
    let base ← halve? p xs 0 xs.length
    let x ← xs[base]?
    if p x then addIndex? base 1 else some base

/-! ## The line table -/

/-- Where a character stands in a text that starts at offset `i`, in bytes of UTF-8. -/
def offsetsOf (c : Char) (i : Nat) : List Char → List Nat
  | [] => []
  | d :: ds =>
    if d == c then i :: offsetsOf c (i + d.utf8Size) ds else offsetsOf c (i + d.utf8Size) ds

/-- The first line starts at zero and every other line just after a line feed. -/
def lineStarts? (text : String) : Option (List UInt32) := do
  let others ← (offsetsOf '\n' 0 text.toList).mapM fun i => (addIndex? i 1).map clampWord
  return 0 :: others

/-- Line and column of an offset, both counted from one, by a table of line starts. An offset
belongs to the last line that starts at or before it. -/
def positionIn? (starts : List UInt32) (offset : UInt32) : Option (UInt32 × UInt32) := do
  let line := max (← partitionPoint? (· ≤ offset) starts) 1
  let start := starts[← subIndex? line 1]?.getD 0
  return (clampWord line, clampWord (offset.toNat - start.toNat + 1))

namespace Source

/-- The source object `id` that holds a text. -/
def ofText? (id : Nat) (name : String) (kind : ResourceKind) (text : String) : Option Source :=
  (lineStarts? text).map fun lineStarts => { id, name, kind, lineStarts, text := some text }

/-- The same object. -/
def same (s t : Source) : Bool := s.id == t.id

/-- Line and column of an offset, both counted from one. -/
def position? (s : Source) (offset : UInt32) : Option (UInt32 × UInt32) :=
  positionIn? s.lineStarts offset

/-- A source is shown by its name in quotes, where a quote or a backslash is escaped. -/
def render (s : Source) : String :=
  let escape (c : Char) : List Char := if c == '"' || c == '\\' then ['\\', c] else [c]
  "SourceRef(\"" ++ String.ofList (s.name.toList.flatMap escape) ++ "\")"

end Source

end NameResolution
