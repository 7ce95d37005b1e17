import NameResolution.Program.Basic

/-!
# Catalogues

A catalogue holds the units of a program in two stores. Each store keeps its units in the order of
insertion and has an index, which says at which place the unit with a path is. All look-ups go
through the index. A unit can be taken from its place to be changed and put back there.
-/

namespace NameResolution

/-! ## Units with an index -/

/-- Units in the order of insertion, and the places of their paths. -/
structure UnitMap where
  units : List SourceUnit := []
  index : List (String × Nat) := []
deriving Inhabited

namespace UnitMap

/-- The paths of all units. -/
def paths (m : UnitMap) : List String := m.units.map (·.path)

/-- The path has a place. -/
def contains (m : UnitMap) (path : String) : Bool := (m.index.lookup path).isSome

/-- The unit at the place of a path. -/
def get? (m : UnitMap) (path : String) : Option SourceUnit :=
  (m.index.lookup path).bind (m.units[·]?)

/-- Exchanges the unit at the place of a path. -/
def set (m : UnitMap) (path : String) (u : SourceUnit) : UnitMap :=
  match m.index.lookup path with
  | none => m
  | some i => { m with units := m.units.set i u }

/-- Adds a unit at the end. -/
def push (m : UnitMap) (u : SourceUnit) : UnitMap where
  units := m.units ++ [u]
  index := (u.path, m.units.length) :: m.index

end UnitMap

/-! ## Two stores -/

/-- The units of a program in two stores, and what else belongs to the program. -/
structure Catalog where
  entry : String
  entryKind : ResourceKind
  version : Option Version := none
  values : UnitMap := {}
  sources : UnitMap := {}
  diagnostics : List Diagnostic := []
deriving Inhabited

/-- A unit in a catalogue: the unit, and the catalogue with another one in its place. -/
structure Catalog.Place where
  unit : SourceUnit
  put : SourceUnit → Catalog

namespace Catalog

/-- The program with the units of a catalogue. -/
def program (c : Catalog) : Program where
  entry := c.entry
  entryKind := c.entryKind
  version := c.version
  values := c.values.units
  sources := c.sources.units
  diagnostics := c.diagnostics

/-- The catalogue with the units and diagnostics of a program that has its units at the same
places. -/
def refresh (c : Catalog) (p : Program) : Catalog :=
  { c with
    values := { c.values with units := p.values }
    sources := { c.sources with units := p.sources }
    diagnostics := p.diagnostics }

/-- The paths of all units, values first. -/
def paths (c : Catalog) : List String := c.values.paths ++ c.sources.paths

/-- The number of units. -/
def size (c : Catalog) : Nat := c.values.units.length + c.sources.units.length

/-- One of the stores has the path. -/
def contains (c : Catalog) (path : String) : Bool :=
  c.values.contains path || c.sources.contains path

/-- The unit at a path. -/
def unit? (c : Catalog) (path : String) : Option SourceUnit :=
  (c.values.get? path).or (c.sources.get? path)

/-- The unit at a path, to be changed. -/
def place? (c : Catalog) (path : String) : Option Place :=
  if c.values.contains path then
    (c.values.get? path).map fun unit =>
      { unit, put := fun u => { c with values := c.values.set path u } }
  else
    (c.sources.get? path).map fun unit =>
      { unit, put := fun u => { c with sources := c.sources.set path u } }

end Catalog

/-! ## Requests -/

/-- What a catalogue can be asked to do. -/
inductive Request where
  /-- Add a unit to the store where it belongs. -/
  | insert (u : SourceUnit)
  /-- Add a unit to a store. -/
  | insertInto (store : Store) (u : SourceUnit)
  /-- Add a diagnostic about the whole program. -/
  | pushDiagnostic (d : Diagnostic)
  /-- Record a problem with the entry unit, once. -/
  | checkEntry
  /-- Mark the unit at a path as resolved. -/
  | markResolved (path : String)
  /-- Add a diagnostic to the unit at a path. -/
  | pushUnitDiagnostic (path : String) (d : Diagnostic)

/-- What a catalogue answers. -/
inductive Reply where
  | done
  | refused (error : TreeError)
  | noUnit
  | entryChecked (fine : Bool)
deriving DecidableEq

namespace Catalog

/-- Adds a unit to a store; the path must be new to both stores. -/
def insertInto (c : Catalog) (store : Store) (u : SourceUnit) : Reply × Catalog :=
  if c.contains u.path then (.refused (.duplicateUnit u.path), c)
  else
    match store with
    | .values => (.done, { c with values := c.values.push u })
    | .sources => (.done, { c with sources := c.sources.push u })

/-- Changes the unit at a path. A change that fails leaves the unit as it is. -/
def change (c : Catalog) (path : String) (f : SourceUnit → Except TreeError SourceUnit) :
    Reply × Catalog :=
  match c.place? path with
  | none => (.noUnit, c)
  | some place =>
    match f place.unit with
    | .error error => (.refused error, c)
    | .ok u => (.done, place.put u)

/-- Records a problem with the entry unit, once. -/
def checkEntry (c : Catalog) : Reply × Catalog :=
  match Program.entryProblemOf c.entry c.entryKind (c.unit? c.entry) with
  | none => (.entryChecked true, c)
  | some message =>
    (.entryChecked false,
      { c with diagnostics := Diagnostic.pushNew c.diagnostics (.error message none) })

/-- The answer to a request, and the catalogue after it. -/
def perform (c : Catalog) : Request → Reply × Catalog
  | .insert u => c.insertInto u.store u
  | .insertInto store u => c.insertInto store u
  | .pushDiagnostic d => (.done, { c with diagnostics := c.diagnostics ++ [d] })
  | .checkEntry => c.checkEntry
  | .markResolved path => c.change path (·.markResolved)
  | .pushUnitDiagnostic path d => c.change path fun u => .ok (u.pushDiagnostic d)

/-- The catalogue after a list of requests. -/
def run (c : Catalog) (requests : List Request) : Catalog :=
  requests.foldl (fun c request => (c.perform request).2) c

/-- The requests and the answers to them. -/
def log (c : Catalog) : List Request → List (Request × Reply)
  | [] => []
  | request :: requests =>
    (request, (c.perform request).1) :: (c.perform request).2.log requests

end Catalog

end NameResolution
