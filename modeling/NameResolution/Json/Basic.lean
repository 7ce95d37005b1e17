import NameResolution.Number.Binary64

/-!
# JSON values

JSON values, with integers told apart from other numbers, and the rules by which records and
variants are read from them:

* a record is read from an object, where unknown fields are ignored, or from an array with exactly
  its fields in order;
* a variant is read from its name, or from an object with the name as its only key.
-/

namespace NameResolution

/-- A JSON value. The keys of an object are distinct. -/
inductive Json where
  | null
  | bool (b : Bool)
  /-- A number written without fraction and exponent, between `-2^63` and `2^64 - 1`. -/
  | integer (n : Int)
  /-- Any other number. -/
  | real (x : Binary64)
  | string (s : String)
  | array (items : List Json)
  | object (fields : List (String × Json))
deriving Inhabited

namespace Json

/-! ## Plain values -/

/-- A boolean. -/
def asBool? : Json → Option Bool
  | bool b => some b
  | _ => none

/-- A string. -/
def asString? : Json → Option String
  | string s => some s
  | _ => none

/-- An integer between two bounds, both included. -/
def asIntegerIn? (lo hi : Int) : Json → Option Int
  | integer n => if lo ≤ n ∧ n ≤ hi then some n else none
  | _ => none

/-- An integer that is a 32-bit word. -/
def asUInt32? (j : Json) : Option UInt32 :=
  (j.asIntegerIn? 0 4294967295).map fun n => UInt32.ofNat n.toNat

/-- An integer that is a 64-bit word. -/
def asUInt64? (j : Json) : Option UInt64 :=
  (j.asIntegerIn? 0 18446744073709551615).map fun n => UInt64.ofNat n.toNat

/-- An integer that is a signed 64-bit number. -/
def asInt64? (j : Json) : Option Int64 :=
  (j.asIntegerIn? (-9223372036854775808) 9223372036854775807).map Int64.ofInt

/-- Any number, rounded to the nearest binary64 number. -/
def asBinary64? : Json → Option Binary64
  | integer n => some (.ofInt n)
  | real x => some x
  | _ => none

/-- The items of an array. -/
def asArray? : Json → Option (List Json)
  | array items => some items
  | _ => none

/-- The items of an array, each read by `f`. -/
def asListOf? {α : Type} (f : Json → Option α) (j : Json) : Option (List α) :=
  j.asArray?.bind (·.mapM f)

/-- A value that may be `null`. -/
def asOption? {α : Type} (f : Json → Option α) : Json → Option (Option α)
  | null => some none
  | j => (f j).map some

/-- The field of an object. -/
def get? : Json → String → Option Json
  | object fields, key => fields.lookup key
  | _, _ => none

/-! ## Records and variants -/

/-- The fields of a record of which all must be there in an array. A field that an object lacks is
`none`. -/
def record? (names : List String) : Json → Option (List (Option Json))
  | object fields => some (names.map (fields.lookup ·))
  | array items => if items.length == names.length then some (items.map some) else none
  | _ => none

/-- The fields of a record that can all be left out, in an array the last ones. Unknown fields are
refused. -/
def settings? (names : List String) : Json → Option (List (Option Json))
  | object fields =>
    if fields.all fun (key, _) => names.contains key then some (names.map (fields.lookup ·))
    else none
  | array items =>
    if items.length ≤ names.length then
      some (items.map some ++ List.replicate (names.length - items.length) none)
    else none
  | _ => none

/-- A field that must be there. -/
def required? {α : Type} (f : Json → Option α) : Option Json → Option α
  | some j => f j
  | none => none

/-- A field that may be absent or `null`. -/
def optional? {α : Type} (f : Json → Option α) : Option Json → Option (Option α)
  | some j => j.asOption? f
  | none => some none

/-- The name of a variant, and its content unless it is given by its name alone. -/
def variant? : Json → Option (String × Option Json)
  | string name => some (name, none)
  | object [(name, content)] => some (name, some content)
  | _ => none

/-- The name of a variant without content; `null` counts as none. -/
def plainVariant? (j : Json) : Option String :=
  match j.variant? with
  | some (name, none) => some name
  | some (name, some null) => some name
  | _ => none

end Json

end NameResolution
