import NameResolution.Json.Basic
import NameResolution.Resolver.Config
import NameResolution.Syntax.Node
import NameResolution.Diagnostic

/-!
# The serialized form

How the values of the library are written as JSON and read back. Records are written as objects
with all their fields; a variant without content is written as its name, and one with content as an
object with its name as the only key.
-/

namespace NameResolution

open Json (required? optional?)

/-- A 32-bit word as a JSON integer. -/
def Json.ofUInt32 (n : UInt32) : Json := .integer n.toNat

/-- A value that may be absent, written as `null` when it is. -/
def Json.ofOption {α : Type} (f : α → Json) : Option α → Json
  | none => .null
  | some a => f a

/-! ## Locations and kinds -/

namespace Location

/-- A location is written with its four words. -/
def toJson (l : Location) : Json :=
  .object [("line", .ofUInt32 l.line), ("column", .ofUInt32 l.column),
    ("offset", .ofUInt32 l.offset), ("length", .ofUInt32 l.length)]

/-- Reads a location. -/
def ofJson? (j : Json) : Option Location :=
  match j.record? ["line", "column", "offset", "length"] with
  | some [line, column, offset, length] => do
    return ⟨← required? Json.asUInt32? line, ← required? Json.asUInt32? column,
      ← required? Json.asUInt32? offset, ← required? Json.asUInt32? length⟩
  | _ => none

end Location

/-- A kind is written as its name. -/
def Kind.toJson (k : Kind) : Json := .string k.name

/-- Reads a kind. -/
def Kind.ofJson? (j : Json) : Option Kind := j.plainVariant?.bind Kind.ofName?

/-- A kind of resource is written as its name. -/
def ResourceKind.toJson (k : ResourceKind) : Json := .string k.name

/-- Reads a kind of resource. -/
def ResourceKind.ofJson? (j : Json) : Option ResourceKind :=
  j.plainVariant?.bind ResourceKind.ofName?

/-- A severity is written as its name. -/
def Severity.toJson (s : Severity) : Json := .string s.name

/-- Reads a severity. -/
def Severity.ofJson? (j : Json) : Option Severity := j.plainVariant?.bind Severity.ofName?

/-! ## Constants -/

namespace ConstValue

/-- A constant is written under the name of its kind. -/
def toJson : ConstValue → Json
  | null => .string "Null"
  | boolean b => .object [("Boolean", .bool b)]
  | integer n => .object [("Integer", .integer n.toInt)]
  | float x => .object [("Float", .real x)]
  | string s => .object [("String", .string s)]

/-- Reads a constant; a float accepts any number. -/
def ofJson? (j : Json) : Option ConstValue :=
  if j.plainVariant? == some "Null" then some .null
  else
    match j.variant? with
    | some ("Boolean", some content) => content.asBool?.map .boolean
    | some ("Integer", some content) => content.asInt64?.map .integer
    | some ("Float", some content) => content.asBinary64?.map .float
    | some ("String", some content) => content.asString?.map .string
    | _ => none

end ConstValue

/-! ## Annotations -/

namespace Comment

/-- A comment is written with all its fields. -/
def toJson (c : Comment) : Json :=
  .object [("content", .string c.content), ("is_documentation", .bool c.isDocumentation),
    ("is_multi_line", .bool c.isMultiLine), ("is_trailing", .bool c.isTrailing),
    ("location", c.location.toJson)]

/-- Reads a comment. -/
def ofJson? (j : Json) : Option Comment :=
  match j.record? ["content", "is_documentation", "is_multi_line", "is_trailing", "location"] with
  | some [content, isDocumentation, isMultiLine, isTrailing, location] => do
    return ⟨← required? Json.asString? content, ← required? Json.asBool? isDocumentation,
      ← required? Json.asBool? isMultiLine, ← required? Json.asBool? isTrailing,
      ← required? Location.ofJson? location⟩
  | _ => none

end Comment

namespace Annotation

/-- An annotation is written under the name of its form. -/
def toJson : Annotation → Json
  | comment c => .object [("Comment", c.toJson)]
  | blankLine location => .object [("BlankLine", .object [("location", location.toJson)])]

/-- The content of a blank line is an object, never an array. -/
def ofJson? (j : Json) : Option Annotation :=
  match j.variant? with
  | some ("Comment", some content) => (Comment.ofJson? content).map .comment
  | some ("BlankLine", some (.object fields)) =>
    (required? Location.ofJson? (fields.lookup "location")).map .blankLine
  | _ => none

end Annotation

/-! ## Diagnostics -/

namespace Diagnostic

/-- A diagnostic is written with all its fields, the location as `null` when there is none. -/
def toJson (d : Diagnostic) : Json :=
  .object [("severity", d.severity.toJson), ("message", .string d.message),
    ("location", .ofOption Location.toJson d.location)]

/-- Reads a diagnostic; the location may be absent. -/
def ofJson? (j : Json) : Option Diagnostic :=
  match j.record? ["severity", "message", "location"] with
  | some [severity, message, location] => do
    return ⟨← required? Severity.ofJson? severity, ← required? Json.asString? message,
      ← optional? Location.ofJson? location⟩
  | _ => none

end Diagnostic

/-! ## Bindings -/

namespace Namespace

/-- A namespace is written under the name of its form. -/
def toJson : Namespace → Json
  | builtin => .string "Builtin"
  | module path => .object [("Module", .string path)]
  | scope id => .object [("Scope", .ofUInt32 id)]

/-- Reads a namespace. -/
def ofJson? (j : Json) : Option Namespace :=
  if j.plainVariant? == some "Builtin" then some .builtin
  else
    match j.variant? with
    | some ("Module", some content) => content.asString?.map .module
    | some ("Scope", some content) => content.asUInt32?.map .scope
    | _ => none

end Namespace

namespace Declaration

/-- A declaration is written with all its fields. -/
def toJson (d : Declaration) : Json :=
  .object [("path", .string d.path), ("name", .string d.name), ("location", d.location.toJson)]

/-- Reads a declaration. -/
def ofJson? (j : Json) : Option Declaration :=
  match j.record? ["path", "name", "location"] with
  | some [path, name, location] => do
    return ⟨← required? Json.asString? path, ← required? Json.asString? name,
      ← required? Location.ofJson? location⟩
  | _ => none

end Declaration

/-! ## Configuration -/

namespace Config

/-- A cap is written only if there is one. -/
def toJson (c : Config) : Json :=
  .object ([("builtins", .array (c.builtins.map .string)),
    ("stop-at-first-unresolved", .bool c.stopAtFirstUnresolved)] ++
    c.maxDiagnosticsPerUnit.toList.map fun cap =>
      ("max-diagnostics-per-unit", .integer cap.toNat))

/-- A setting that takes its default when it is absent. -/
def setting? {α : Type} (default : α) (f : Json → Option α) : Option Json → Option α
  | some j => f j
  | none => some default

/-- Reads a configuration; the builtins can be any strings. -/
def ofJson? (j : Json) : Option Config :=
  match j.settings? ["builtins", "stop-at-first-unresolved", "max-diagnostics-per-unit"] with
  | some [builtins, stop, cap] => do
    return ⟨← setting? [] (Json.asListOf? Json.asString?) builtins,
      ← setting? false Json.asBool? stop, ← optional? Json.asUInt64? cap⟩
  | _ => none

end Config

end NameResolution
