import NameResolution.Resolver.Phases

/-!
# A pass over shared tables

While a pass runs, the tables of all units are kept together, and they grow. Collecting enters what
the units declare and export. Binding an import reads the table of its module and adds to that of
the importer, so it may read a table to which other imports were added before. The walks read what
has come together by then.

`Program.survey` is the part of the pass that makes the tables, and `Program.sweep` the whole pass.
-/

namespace NameResolution

/-! ## Shared tables -/

namespace Tables

/-- The table at a path; a path without a table stands for an empty one. -/
def tableOf (tables : Tables) (path : String) : ModuleTable := (tables.lookup path).getD {}

/-- Puts a table at a path, in place of the one that is there. -/
def put (path : String) (t : ModuleTable) : Tables → Tables
  | [] => [(path, t)]
  | entry :: tables =>
    if entry.1 == path then (path, t) :: tables else entry :: put path t tables

/-- Adds an imported name to the table of the importer. -/
def addImport (importer : String) (tables : Tables) (entry : ImportEntry) : Tables :=
  put importer ((tables.tableOf importer).addImport entry) tables

end Tables

/-- What a pass knows while it runs. -/
structure Survey where
  tables : Tables := []
  found : Findings := {}

/-- Adds to what was found. -/
def Survey.note (found : Findings) : StateM Survey Unit :=
  modify fun s => { s with found := s.found ++ found }

/-! ## Units -/

/-- Enters what a unit declares and exports into a table. -/
def SourceUnit.collectInto (t : ModuleTable) (u : SourceUnit) : Collected :=
  let exports := (u.topLevel.flatMap Node.exportedNames).map (·.name)
  (u.nodes.filterMap Node.declaredName?).foldl Collected.declare
    { table := { t with exports := t.exports ++ exports } }

/-- Binds the names of an import declaration and adds them to the table of the importer. -/
def Node.surveyImport (importer : String) (n : Node) : StateM Survey Node := do
  match n.import? with
  | none => return n
  | some i =>
    let { tables, found } ← get
    set { found, tables := (i.entries tables).foldl (Tables.addImport importer) tables : Survey }
    Survey.note (i.findings tables importer)
    return n.bindImport tables

namespace SourceUnit

/-- Collects the names of a unit; repeated declarations count only if the unit is not resolved. -/
def surveyNames (u : SourceUnit) : StateM Survey Unit := do
  let { tables, found } ← get
  let c := u.collectInto (tables.tableOf u.path)
  set { found, tables := tables.put u.path c.table : Survey }
  if u.isResolved then return else Survey.note (c.findings u.path)

/-- Binds the imports of a unit that is not resolved. -/
def surveyImports (u : SourceUnit) : StateM Survey SourceUnit := do
  if u.isResolved then return u
  let imports ← u.imports.mapM (·.surveyImport u.path)
  let nodes ← u.nodes.mapM (·.surveyImport u.path)
  return { u with imports, nodes }

/-- Walks a unit that is not resolved, with the table that was made for it. -/
def surveyWalk (config : Config) (u : SourceUnit) : StateM Survey SourceUnit := do
  if u.isResolved then return u
  let cx : WalkContext :=
    { path := u.path
      table := (← get).tables.tableOf u.path
      builtins := config.builtins
      stopAtFirst := config.stopAtFirstUnresolved }
  let (walked, w) := u.walk cx
  Survey.note (w.findings cx)
  return walked

end SourceUnit

/-! ## The program -/

namespace Program

/-- Goes through the units of a program, values first. -/
def traverse (f : SourceUnit → StateM Survey SourceUnit) (p : Program) : StateM Survey Program := do
  let values ← p.values.mapM f
  let sources ← p.sources.mapM f
  return { p with values, sources }

/-- Makes the tables of a program and binds its imports. -/
def survey (p : Program) : StateM Survey Program := do
  Survey.note { events := [.collecting] }
  p.units.forM (·.surveyNames)
  Survey.note { events := [.bindingImports] }
  p.traverse (·.surveyImports)

/-- Binds the names of a program. -/
def surveyAll (config : Config) (p : Program) : StateM Survey Program := do
  let bound ← p.survey
  Survey.note { events := [.walkingUnits] }
  bound.traverse (·.surveyWalk config)

/-- Runs a pass of the resolver over tables that grow. -/
def sweep (config : Config) (p : Program) : Except PassError Resolution :=
  let (named, s) := (p.checkEntry.surveyAll config).run {}
  p.conclude config s.found named

end Program

end NameResolution
