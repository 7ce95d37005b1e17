import NameResolution.Number.Integer

/-!
# Locations and bindings

A location is a stretch of source text: the line and column where it starts, counted from one, and
its offset and length in bytes.

A binding says which declaration an identifier refers to: the namespace the declaration belongs
to, and the declaration's own path, name and location. A place for a binding starts empty and is
filled once; a second binding is handed back.
-/

namespace NameResolution

/-! ## Locations -/

/-- Where a piece of syntax stands in its source. -/
structure Location where
  line : UInt32
  column : UInt32
  offset : UInt32
  length : UInt32
deriving DecidableEq, Inhabited

namespace Location

/-- The location of things that stand in no source, such as builtin names. -/
def nowhere : Location := ⟨0, 0, 0, 0⟩

/-- The offset just after the location, clamped to the largest word. -/
def endOffset (l : Location) : UInt32 := clampWord (l.offset.toNat + l.length.toNat)

/-- A location is shown as `line:column`. -/
def render (l : Location) : String := s!"{l.line.toNat}:{l.column.toNat}"

instance : ToString Location := ⟨render⟩

/-- A location ends its length after its offset, or at the largest word. -/
theorem toNat_endOffset (l : Location) :
    l.endOffset.toNat = min (l.offset.toNat + l.length.toNat) maxWord :=
  toNat_clampWord _

end Location

/-! ## Bindings -/

/-- Where a declared name lives. -/
inductive Namespace where
  /-- Names that need no declaration. -/
  | builtin
  /-- The top level of the unit at a path. -/
  | module (path : String)
  /-- A block of the unit, numbered in the order in which blocks open. -/
  | scope (id : UInt32)
deriving DecidableEq, Inhabited

/-- The site of a declaration. -/
structure Declaration where
  path : String
  name : String
  location : Location
deriving DecidableEq, Inhabited

/-- What an identifier refers to. -/
structure Binding where
  space : Namespace
  declaration : Declaration
deriving DecidableEq, Inhabited

namespace Binding

/-- Fills an empty place; a full one keeps its binding and the new one is handed back. -/
def store (place : Option Binding) (b : Binding) : Except Binding Binding :=
  match place with
  | none => .ok b
  | some _ => .error b

/-- The binding of a name declared at the top level of the unit at `path`. -/
def inModule (path name : String) (location : Location) : Binding :=
  ⟨.module path, ⟨path, name, location⟩⟩

/-- The binding of a name declared in block `id` of the unit at `path`. -/
def inScope (id : UInt32) (path name : String) (location : Location) : Binding :=
  ⟨.scope id, ⟨path, name, location⟩⟩

end Binding

end NameResolution
