import NameResolution.Resolver.Resolution

/-!
# The phases of a pass

A pass goes over the units of a program four times. It reports repeated declarations, binds
imports, walks the units, and records its results. Until they are recorded, failures wait under the
path of their unit.

To record them the pass goes through the paths of the program and looks up every unit. A unit
without failures is marked as resolved. That fails if the unit is marked already, and then so does
the pass: `Program.pass`. Unit by unit, `Program.resolve` says what the pass does.
-/

namespace NameResolution

/-! ## Findings -/

/-- What a part of a pass finds. -/
structure Findings where
  /-- The number of identifiers bound. -/
  bound : Nat := 0
  /-- The number of names that could not be resolved. -/
  unresolved : Nat := 0
  /-- Failures under the path of their unit, in the order in which they were found. -/
  pending : List (String × Failure) := []
  /-- The paths of units that import from a module that is not part of the program. -/
  cutOff : List String := []
  /-- Failures that concern the program as a whole. -/
  programFailures : List Failure := []
  events : List Event := []

namespace Findings

instance : Append Findings where
  append a b :=
    { bound := a.bound + b.bound
      unresolved := a.unresolved + b.unresolved
      pending := a.pending ++ b.pending
      cutOff := a.cutOff ++ b.cutOff
      programFailures := a.programFailures ++ b.programFailures
      events := a.events ++ b.events }

/-- The findings in the members of a list, in their order. -/
def gather {α : Type} (f : α → Findings) : List α → Findings
  | [] => {}
  | a :: as => f a ++ gather f as

/-- The failures that wait under a path. -/
def failuresOf (found : Findings) (path : String) : List Failure :=
  (found.pending.filter (·.1 == path)).map (·.2)

end Findings

/-- What binding an import finds. -/
def Import.findings (tables : Tables) (importer : String) (i : Import) : Findings where
  bound := i.bound tables
  unresolved := i.unresolved tables
  pending := (i.failures tables).map (importer, ·)
  cutOff := if i.isKnown tables then [] else [importer]
  programFailures := i.programFailures tables importer
  events := i.events tables importer

/-- What repeated declarations amount to. -/
def Collected.findings (path : String) (c : Collected) : Findings where
  unresolved := c.duplicates.length
  pending := c.duplicates.map (path, ·)

/-- What a walk has found in the end. -/
def Walker.findings (cx : WalkContext) (w : Walker) : Findings where
  bound := w.bound
  unresolved := w.unresolved
  pending := w.failures.map (cx.path, ·)
  events :=
    .walkingUnit cx.path :: w.events cx.path ++ if w.halted cx then [.stopped cx.path] else []

namespace SourceUnit

/-- The repeated declarations of a unit. -/
def duplicateFindings (u : SourceUnit) : Findings := u.collect.findings u.path

/-- What binding the imports of a unit finds. -/
def importFindings (tables : Tables) (u : SourceUnit) : Findings :=
  .gather (·.findings tables u.path) u.importDecls

/-- What the walk of a unit finds. -/
def walkFindings (config : Config) (tables : Tables) (u : SourceUnit) : Findings :=
  let cx := u.walkContext config tables
  ((u.bindImports tables).walk cx).2.findings cx

/-- Binds the names of a unit; a resolved unit is left alone. -/
def bindNames (config : Config) (tables : Tables) (u : SourceUnit) : SourceUnit :=
  if u.isResolved then u else ((u.bindImports tables).walk (u.walkContext config tables)).1

end SourceUnit

namespace Program

/-- Changes every unit of a program. -/
def mapUnits (p : Program) (f : SourceUnit → SourceUnit) : Program :=
  { p with values := p.values.map f, sources := p.sources.map f }

/-- The units that are not resolved yet. -/
def openUnits (p : Program) : List SourceUnit := p.units.filter (!·.isResolved)

/-- What a pass finds in a program. -/
def findings (config : Config) (p : Program) : Findings :=
  { events := [.collecting] } ++ .gather (·.duplicateFindings) p.openUnits ++
    { events := [.bindingImports] } ++ .gather (·.importFindings p.tables) p.openUnits ++
    { events := [.walkingUnits] } ++ .gather (·.walkFindings config p.tables) p.openUnits

end Program

/-! ## Results -/

/-- A pass fails if it comes to finish a unit that is marked as resolved already. -/
structure PassError where
  path : String
  error : TreeError
deriving DecidableEq

/-- The context in which the pass failed. -/
def PassError.context (e : PassError) : String := s!"finishing unit `{e.path}`"

/-- The state in which results are recorded. -/
structure Recording where
  program : Program
  resolvedUnits : List String := []
  unresolvedUnits : List String := []
  events : List Event := []

namespace Recording

/-- Records the results for the unit at a path: its failures become diagnostics, and without
failures it is marked as resolved. -/
def finish (config : Config) (found : Findings) (r : Recording) (path : String) :
    Except PassError Recording :=
  match r.program.unit? path with
  | none => .ok r
  | some u =>
    if u.isResolved then .ok { r with resolvedUnits := r.resolvedUnits ++ [path] }
    else
      let failures := found.failuresOf path
      let recorded := u.record config.maxDiagnosticsPerUnit failures
      let events := r.events ++ u.capEvents config.maxDiagnosticsPerUnit failures.length
      if !failures.isEmpty || found.cutOff.contains path then
        .ok
          { r with
            program := r.program.modifyUnit path fun _ => recorded
            unresolvedUnits := r.unresolvedUnits ++ [path]
            events }
      else
        match recorded.markResolved with
        | .error error => .error ⟨path, error⟩
        | .ok resolved =>
          .ok
            { r with
              program := r.program.modifyUnit path fun _ => resolved
              resolvedUnits := r.resolvedUnits ++ [path]
              events := events ++ [.unitResolved path] }

end Recording

namespace Program

/-- Records what was found in a program and reports it; `named` is the program with its names
bound. -/
def conclude (p : Program) (config : Config) (found : Findings) (named : Program) :
    Except PassError Resolution := do
  let r ← p.paths.foldlM (Recording.finish config found) { program := named }
  return {
    program :=
      { r.program with
        diagnostics :=
          Diagnostic.pushAllNew r.program.diagnostics (found.programFailures.map (·.diagnostic)) }
    report :=
      { bound := found.bound
        unresolved := found.unresolved
        resolvedUnits := r.resolvedUnits
        unresolvedUnits := r.unresolvedUnits }
    events :=
      [.resolving p.size, p.entryEvent] ++ found.events ++ [.recording] ++ r.events ++
        [.finished found.bound found.unresolved] }

/-- Runs a pass of the resolver, phase by phase. -/
def pass (config : Config) (p : Program) : Except PassError Resolution :=
  let checked := p.checkEntry
  p.conclude config (checked.findings config) (checked.mapUnits (·.bindNames config checked.tables))

end Program

end NameResolution
