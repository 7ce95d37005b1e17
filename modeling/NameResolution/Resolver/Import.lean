import NameResolution.Resolver.Event
import NameResolution.Resolver.ModuleTable

/-!
# Binding imports

An import declaration at the top level of a unit names a module and some of its exports. A name
that the module exports and declares is bound to that declaration and enters the importer's table;
any other name is a failure of the importer. A module that is not part of the program is a failure
of the whole program.
-/

namespace NameResolution

/-- The tables of a program's units by path. -/
abbrev Tables := List (String × ModuleTable)

/-- An import declaration: where it stands, the path of the module and the names asked for. -/
structure Import where
  location : Location
  path : String
  names : List Identifier
deriving DecidableEq

/-- The import that a node declares. -/
def Node.import? : Node → Option Import
  | .importDecl info path names _ => some ⟨info.location, path, names⟩
  | _ => none

namespace Import

/-- The module is part of the program. -/
def isKnown (tables : Tables) (i : Import) : Bool := (tables.lookup i.path).isSome

/-- Where the module declares a name that it exports. -/
def site? (tables : Tables) (i : Import) (name : String) : Option Location :=
  (tables.lookup i.path).bind (·.exported? name)

/-- The table entries for the names that the module offers. -/
def entries (tables : Tables) (i : Import) : List ImportEntry :=
  i.names.filterMap fun id =>
    (i.site? tables id.name).map fun location => ⟨id.name, i.path, location⟩

/-- The names that a known module does not offer. -/
def missing (tables : Tables) (i : Import) : List Identifier :=
  if i.isKnown tables then i.names.filter fun id => (i.site? tables id.name).isNone else []

/-- The failures of the importer. -/
def failures (tables : Tables) (i : Import) : List Failure :=
  (i.missing tables).map fun id => ⟨.notExported id.name i.path, id.info.location⟩

/-- The failures of the program. -/
def programFailures (tables : Tables) (importer : String) (i : Import) : List Failure :=
  if i.isKnown tables then [] else [⟨.unknownModule i.path importer, i.location⟩]

/-- The number of names that cannot be resolved: all of them if the module is unknown. -/
def unresolved (tables : Tables) (i : Import) : Nat :=
  if i.isKnown tables then (i.missing tables).length else i.names.length

/-- Binds a name to the declaration that the module offers, unless it is bound already. -/
def bindName (tables : Tables) (i : Import) (id : Identifier) : Identifier :=
  match i.site? tables id.name with
  | none => id
  | some location =>
    match id.bind (.inModule i.path id.name location) with
    | .ok bound => bound
    | .error _ => id

/-- The number of names that are bound here. -/
def bound (tables : Tables) (i : Import) : Nat :=
  i.names.countP fun id => !id.isBound && (i.site? tables id.name).isSome

/-- What binding an import tells. -/
def events (tables : Tables) (importer : String) (i : Import) : List Event :=
  if i.isKnown tables then (i.missing tables).map fun id => .notExported importer id.name i.path
  else [.unknownModule importer i.path]

end Import

/-- Binds the names of an import declaration; other nodes stay as they are. -/
def Node.bindImport (tables : Tables) : Node → Node
  | .importDecl info path names asName =>
    .importDecl info path (names.map (Import.bindName tables ⟨info.location, path, names⟩)) asName
  | n => n

namespace SourceUnit

/-- The imports at the top level of a unit. -/
def importDecls (u : SourceUnit) : List Import := u.topLevel.filterMap Node.import?

/-- Binds the imported names of a unit. -/
def bindImports (tables : Tables) (u : SourceUnit) : SourceUnit :=
  { u with
    imports := u.imports.map (·.bindImport tables)
    nodes := u.nodes.map (·.bindImport tables) }

/-- The table of a unit with its imports in it. -/
def importTable (tables : Tables) (u : SourceUnit) : ModuleTable :=
  u.collect.table.addImports (u.importDecls.flatMap (·.entries tables))

end SourceUnit

end NameResolution
