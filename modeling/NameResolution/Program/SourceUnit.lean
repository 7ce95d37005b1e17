import NameResolution.Diagnostic
import NameResolution.Syntax.Occurrences
import NameResolution.Syntax.Traversal

/-!
# Source units

A unit is the syntax read from one source: its import section and its other nodes, with the
diagnostics about it and a mark that says whether all its names are resolved.
-/

namespace NameResolution

/-- The syntax of one source. -/
structure SourceUnit where
  source : Source
  /-- The import section: import and export declarations. -/
  imports : List Node := []
  nodes : List Node := []
  diagnostics : List Diagnostic := []
  isResolved : Bool := false
deriving Inhabited

namespace SourceUnit

/-- The path of a unit is the name of its source. -/
def path (u : SourceUnit) : String := u.source.name

/-- What the source of a unit holds. -/
def kind (u : SourceUnit) : ResourceKind := u.source.kind

/-- All top-level nodes: the import section, then the rest. -/
def topLevel (u : SourceUnit) : List Node := u.imports ++ u.nodes

/-- Some diagnostic of the unit is an error. -/
def hasErrors (u : SourceUnit) : Bool := u.diagnostics.any (·.isError)

/-- Adds a diagnostic to a unit. -/
def pushDiagnostic (u : SourceUnit) (d : Diagnostic) : SourceUnit :=
  { u with diagnostics := u.diagnostics ++ [d] }

/-- Marks a unit as resolved, which happens once. -/
def markResolved (u : SourceUnit) : Except TreeError SourceUnit :=
  if u.isResolved then .error (.alreadyResolved u.path) else .ok { u with isResolved := true }

/-- The identifiers of a unit in traversal order. -/
def identifiers (u : SourceUnit) : List Identifier := Node.identifiersAll u.topLevel

/-- Replaces the identifiers of a unit in traversal order; also gives those that are left. -/
def put (u : SourceUnit) (ids : List Identifier) : SourceUnit × List Identifier :=
  let imports := Node.putAll u.imports ids
  let nodes := Node.putAll u.nodes imports.2
  ({ u with imports := imports.1, nodes := nodes.1 }, nodes.2)

end SourceUnit

end NameResolution
