import NameResolution.Resolver.Import
import NameResolution.Resolver.Walk

/-!
# Resolving a program

A pass of the resolver collects the top-level names of all units, binds the imports of the units
that are not resolved yet, walks these units, and records what it found: failures become
diagnostics of their unit, failures of imports become diagnostics of the program, and a unit
without failures is marked as resolved.

A unit's share of the pass is a function of the unit, the tables of the program and the
configuration: `SourceUnit.resolve`.
-/

namespace NameResolution

/-- The sum of some numbers. The zero is given, so that it does not depend on the instances that are
in scope. -/
def total (ns : List Nat) : Nat := @List.sum Nat _ ⟨0⟩ ns

/-! ## One unit -/

/-- A unit's share of a pass. -/
structure UnitResolution where
  /-- The unit after the pass. -/
  unit : SourceUnit
  /-- The number of identifiers bound. -/
  bound : Nat := 0
  /-- The number of names that could not be resolved. -/
  unresolved : Nat := 0
  /-- Failures that concern the program as a whole. -/
  programFailures : List Failure := []
  importEvents : List Event := []
  walkEvents : List Event := []
  recordEvents : List Event := []
deriving Inhabited

namespace SourceUnit

/-- Records failures on a unit in the order of their offsets, at most as many as the cap allows,
each at most once. -/
def record (cap : Option UInt64) (failures : List Failure) (u : SourceUnit) : SourceUnit :=
  let sorted := sortBy (fun f => f.location.offset.toNat) failures
  let kept := match cap with
    | none => sorted
    | some cap => sorted.take cap.toNat
  { u with diagnostics := Diagnostic.pushAllNew u.diagnostics (kept.map (·.diagnostic)) }

/-- The event for a cap that is smaller than the number of failures. -/
def capEvents (cap : Option UInt64) (found : Nat) (u : SourceUnit) : List Event :=
  match cap with
  | none => []
  | some cap => if cap.toNat < found then [.capReached u.path cap.toNat found] else []

/-- What the walk of a unit knows under a configuration. -/
def walkContext (config : Config) (tables : Tables) (u : SourceUnit) : WalkContext where
  path := u.path
  table := u.importTable tables
  builtins := config.builtins
  stopAtFirst := config.stopAtFirstUnresolved

/-- Resolves a unit that is not resolved yet. -/
def resolveNow (config : Config) (tables : Tables) (u : SourceUnit) : UnitResolution :=
  let cx := u.walkContext config tables
  let duplicates := u.collect.duplicates
  let imports := u.importDecls
  let walked := (u.bindImports tables).walk cx
  let failures := duplicates ++ imports.flatMap (·.failures tables) ++ walked.2.failures
  let programFailures := imports.flatMap (·.programFailures tables u.path)
  let clean := failures.isEmpty && programFailures.isEmpty
  { unit := { walked.1.record config.maxDiagnosticsPerUnit failures with isResolved := clean }
    bound := total (imports.map (·.bound tables)) + walked.2.bound
    unresolved :=
      duplicates.length + total (imports.map (·.unresolved tables)) + walked.2.failures.length
    programFailures
    importEvents := imports.flatMap (·.events tables u.path)
    walkEvents :=
      .walkingUnit u.path :: walked.2.events u.path ++
        if walked.2.halted cx then [.stopped u.path] else []
    recordEvents :=
      u.capEvents config.maxDiagnosticsPerUnit failures.length ++
        if clean then [.unitResolved u.path] else [] }

/-- Resolves a unit; a resolved unit is left alone. -/
def resolve (config : Config) (tables : Tables) (u : SourceUnit) : UnitResolution :=
  if u.isResolved then { unit := u } else u.resolveNow config tables

end SourceUnit

/-! ## The program -/

/-- What a pass achieved. -/
structure Report where
  /-- The number of identifiers bound by the pass. -/
  bound : Nat
  /-- The number of names that could not be resolved. -/
  unresolved : Nat
  /-- The paths of the units that are resolved after the pass. -/
  resolvedUnits : List String
  /-- The paths of the other units. -/
  unresolvedUnits : List String
deriving DecidableEq

/-- Nothing is left to resolve. -/
def Report.isClean (r : Report) : Bool := r.unresolved == 0 && r.unresolvedUnits.isEmpty

/-- The result of a pass. -/
structure Resolution where
  program : Program
  report : Report
  events : List Event

namespace Program

/-- The tables of all units. -/
def tables (p : Program) : Tables := p.units.map fun u => (u.path, u.collect.table)

/-- Runs a pass of the resolver. -/
def resolve (config : Config) (p : Program) : Resolution :=
  let checked := p.checkEntry
  let tables := checked.tables
  let values := checked.values.map (·.resolve config tables)
  let sources := checked.sources.map (·.resolve config tables)
  let all := values ++ sources
  let units := all.map (·.unit)
  let report : Report :=
    { bound := total (all.map (·.bound))
      unresolved := total (all.map (·.unresolved))
      resolvedUnits := (units.filter (·.isResolved)).map (·.path)
      unresolvedUnits := (units.filter (!·.isResolved)).map (·.path) }
  { program :=
      { checked with
        values := values.map (·.unit)
        sources := sources.map (·.unit)
        diagnostics :=
          Diagnostic.pushAllNew checked.diagnostics
            ((all.flatMap (·.programFailures)).map (·.diagnostic)) }
    report
    events :=
      [.resolving p.size, p.entryEvent, .collecting, .bindingImports] ++
        all.flatMap (·.importEvents) ++ [.walkingUnits] ++ all.flatMap (·.walkEvents) ++
        [.recording] ++ all.flatMap (·.recordEvents) ++
        [.finished report.bound report.unresolved] }

end Program

end NameResolution
