import NameResolution.Syntax.Binding

/-!
# Errors of the tree model

What can go wrong when trees and programs are put together, and the message of each cause.
-/

namespace NameResolution

/-- The places of a node that hold at most one annotation. -/
inductive Slot where
  | trailing
  | trailingAfterComma
deriving DecidableEq

/-- How messages call a slot. -/
def Slot.name : Slot → String
  | trailing => "trailing"
  | trailingAfterComma => "trailing-after-comma"

/-- The literals whose text can be malformed. -/
inductive LiteralKind where
  | boolean
  | integer
  | float
deriving DecidableEq

/-- How messages call a kind of literal. -/
def LiteralKind.name : LiteralKind → String
  | boolean => "boolean"
  | integer => "integer"
  | float => "float"

/-- Causes of failure when a tree or a program is put together. -/
inductive TreeError where
  /-- A second binding for an identifier. -/
  | alreadyBound (location : Location) (name : String)
  /-- A resolved unit was to be marked as resolved. -/
  | alreadyResolved (path : String)
  /-- A second annotation for a slot that holds one. -/
  | slotOccupied (slot : Slot)
  /-- A second unit under one path. -/
  | duplicateUnit (path : String)
  /-- A token that is no literal of the kind asked for. -/
  | invalidLiteral (location : Location) (kind : LiteralKind) (lexeme : String)
deriving DecidableEq

/-- The message of an error. -/
def TreeError.message : TreeError → String
  | alreadyBound location name => s!"{location}: identifier `{name}` is already bound"
  | alreadyResolved path => s!"source `{path}` is already resolved"
  | slotOccupied slot => s!"the {slot.name} annotation slot is already occupied"
  | duplicateUnit path => s!"a unit for `{path}` is already part of the compilation"
  | invalidLiteral location kind lexeme => s!"{location}: invalid {kind.name} literal `{lexeme}`"

end NameResolution
