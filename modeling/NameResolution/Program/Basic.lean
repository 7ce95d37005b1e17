import NameResolution.Program.SourceUnit
import NameResolution.Program.Version

/-!
# Programs

A program holds its units by path, in two stores: values and sources, each in the order of
insertion. A path belongs to one unit of the whole program. One unit is the entry.
-/

namespace NameResolution

/-- The two stores of a program. -/
inductive Store where
  | values
  | sources
deriving DecidableEq

/-- The store where a unit belongs by what its source holds. -/
def SourceUnit.store (u : SourceUnit) : Store := if u.kind.isValue then .values else .sources

/-- A program of several units. -/
structure Program where
  /-- The path of the entry unit. -/
  entry : String
  /-- What the source of the entry unit should hold. -/
  entryKind : ResourceKind
  /-- The version of the language that the program declares. -/
  version : Option Version := none
  values : List SourceUnit := []
  sources : List SourceUnit := []
  /-- Diagnostics about the program as a whole. -/
  diagnostics : List Diagnostic := []
deriving Inhabited

namespace Program

/-! ## Units -/

/-- All units: values first, each store in the order of insertion. -/
def units (p : Program) : List SourceUnit := p.values ++ p.sources

/-- The paths of all units in traversal order. -/
def paths (p : Program) : List String := p.units.map (·.path)

/-- The number of units. -/
def size (p : Program) : Nat := p.units.length

/-- There are no units. -/
def isEmpty (p : Program) : Bool := p.units.isEmpty

/-- Some unit has the path. -/
def contains (p : Program) (path : String) : Bool := p.units.any (·.path == path)

/-- The unit at a path. -/
def unit? (p : Program) (path : String) : Option SourceUnit := p.units.find? (·.path == path)

/-- Adds a unit to a store; the path must be new to the program. -/
def insertInto (p : Program) (store : Store) (u : SourceUnit) : Except TreeError Program :=
  if p.contains u.path then .error (.duplicateUnit u.path)
  else
    match store with
    | .values => .ok { p with values := p.values ++ [u] }
    | .sources => .ok { p with sources := p.sources ++ [u] }

/-- Adds a unit to the store where it belongs. -/
def insert (p : Program) (u : SourceUnit) : Except TreeError Program := p.insertInto u.store u

/-- Changes the unit at a path in a list of units. -/
def modifyIn (path : String) (f : SourceUnit → SourceUnit) : List SourceUnit → List SourceUnit
  | [] => []
  | u :: us => if u.path == path then f u :: us else u :: modifyIn path f us

/-- Changes the unit at a path. -/
def modifyUnit (p : Program) (path : String) (f : SourceUnit → SourceUnit) : Program :=
  if p.values.any (·.path == path) then { p with values := modifyIn path f p.values }
  else { p with sources := modifyIn path f p.sources }

/-- Marks the unit at a path as resolved; `none` if there is no such unit. -/
def markResolved (p : Program) (path : String) : Option (Except TreeError Program) :=
  (p.unit? path).map fun u => u.markResolved.map fun u' => p.modifyUnit path fun _ => u'

/-- Adds a diagnostic to the unit at a path; `none` if there is no such unit. -/
def pushUnitDiagnostic (p : Program) (path : String) (d : Diagnostic) : Option Program :=
  (p.unit? path).map fun _ => p.modifyUnit path (·.pushDiagnostic d)

/-! ## Diagnostics -/

/-- Adds a diagnostic about the whole program. -/
def pushDiagnostic (p : Program) (d : Diagnostic) : Program :=
  { p with diagnostics := p.diagnostics ++ [d] }

/-- The diagnostics of all units in traversal order, then those about the whole program. -/
def allDiagnostics (p : Program) : List Diagnostic :=
  p.units.flatMap (·.diagnostics) ++ p.diagnostics

/-- Some diagnostic is an error. -/
def hasErrors (p : Program) : Bool := p.allDiagnostics.any (·.isError)

/-! ## The entry unit -/

/-- What is wrong with what is found under the entry path: nothing is there, or a unit with a source
of another kind. -/
def entryProblemOf (entry : String) (expected : ResourceKind) :
    Option SourceUnit → Option String
  | none => some s!"entry file `{entry}` is not part of the program"
  | some u =>
    if u.kind == expected then none
    else some s!"entry file `{entry}` is a {u.kind}, expected a {expected}"

/-- What is wrong with the entry unit of a program. -/
def entryProblem? (p : Program) : Option String :=
  entryProblemOf p.entry p.entryKind (p.unit? p.entry)

/-- Records a problem with the entry unit, once. -/
def checkEntry (p : Program) : Program :=
  match p.entryProblem? with
  | none => p
  | some message =>
    { p with diagnostics := Diagnostic.pushNew p.diagnostics (.error message none) }

/-! ## Occurrences -/

/-- The identifiers of a program in traversal order. -/
def identifiers (p : Program) : List Identifier := p.units.flatMap (·.identifiers)

/-- Replaces the identifiers of a list of units in traversal order. -/
def putUnits : List SourceUnit → List Identifier → List SourceUnit × List Identifier
  | [], ids => ([], ids)
  | u :: us, ids =>
    let r := u.put ids
    let rs := putUnits us r.2
    (r.1 :: rs.1, rs.2)

/-- Replaces the identifiers of a program in traversal order. -/
def put (p : Program) (ids : List Identifier) : Program :=
  let values := putUnits p.values ids
  let sources := putUnits p.sources values.2
  { p with values := values.1, sources := sources.1 }

/-- Binds the identifier at an index of the traversal order; `none` if there is none. -/
def bindAt (p : Program) (index : Nat) (b : Binding) : Option (Except TreeError Program) :=
  let ids := p.identifiers
  ids[index]?.map fun id => (id.bind b).map fun id' => p.put (ids.set index id')

end Program

end NameResolution
