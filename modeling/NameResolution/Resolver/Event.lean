import NameResolution.Program.Basic
import NameResolution.Resolver.Failure

/-!
# Events

What a program and the resolver tell about their work. An event has a level, a message and named
fields; each event is a constructor, and three functions say how it is shown.
-/

namespace NameResolution

/-- How much an event matters. -/
inductive Level where
  | debug
  | trace
deriving DecidableEq

/-- The name of a level. -/
def Level.name : Level → String
  | debug => "DEBUG"
  | trace => "TRACE"

/-- One step of the work that is worth telling. -/
inductive Event where
  /-- A unit was added to a store. -/
  | unitAdded (store : Store) (path : String)
  /-- The entry unit was looked for. -/
  | entryChecked (found : Bool) (entry : String)
  | resolving (units : Nat)
  | collecting
  | bindingImports
  /-- A module is imported that is not part of the program. -/
  | unknownModule (importer module : String)
  /-- A name is imported that its module does not export. -/
  | notExported (importer name module : String)
  /-- An identifier was bound before and keeps its binding. -/
  | bindingKept (error : TreeError)
  | walkingUnits
  | walkingUnit (path : String)
  /-- A name was found that cannot be resolved. -/
  | failed (path : String) (failure : Failure)
  /-- The walk of a unit stopped at its first failure. -/
  | stopped (path : String)
  | recording
  /-- A unit has more failures than are recorded. -/
  | capReached (path : String) (cap found : Nat)
  | unitResolved (path : String)
  | finished (bound unresolved : Nat)
deriving DecidableEq

namespace Event

/-- Single names are traced; all else is for debugging. -/
def level : Event → Level
  | notExported .. | bindingKept _ | failed .. => .trace
  | _ => .debug

/-- The message of an event. -/
def message : Event → String
  | unitAdded .values _ => "adding value unit"
  | unitAdded .sources _ => "adding source unit"
  | entryChecked true _ => "entry file found"
  | entryChecked false _ => "entry check failed"
  | resolving _ => "resolving program"
  | collecting => "collecting top-level declarations"
  | bindingImports => "binding imports"
  | unknownModule .. => "import of unknown module"
  | notExported .. => "name is not exported"
  | bindingKept _ => "keeping existing binding"
  | walkingUnits => "walking units"
  | walkingUnit _ => "walking unit"
  | failed .. => "resolution failure"
  | stopped _ => "stopped at first unresolved identifier"
  | recording => "recording results"
  | capReached .. => "diagnostic cap reached"
  | unitResolved _ => "unit resolved"
  | finished .. => "resolution finished"

/-- The named fields of an event, in order. -/
def fields : Event → List (String × String)
  | unitAdded _ path | walkingUnit path | stopped path | unitResolved path => [("path", path)]
  | entryChecked _ entry => [("entry", entry)]
  | resolving units => [("units", toString units)]
  | unknownModule importer module => [("importer", importer), ("module", module)]
  | notExported importer name module =>
    [("importer", importer), ("name", name), ("module", module)]
  | bindingKept error => [("error", error.message)]
  | failed path failure =>
    [("path", path), ("location", failure.location.render), ("kind", failure.cause.message)]
  | capReached path cap found =>
    [("path", path), ("recorded", toString cap), ("found", toString found)]
  | finished bound unresolved =>
    [("bound", toString bound), ("unresolved", toString unresolved)]
  | collecting | bindingImports | walkingUnits | recording => []

end Event

namespace Program

/-- What an insertion tells: a unit that is accepted. -/
def insertEvents (p : Program) (store : Store) (u : SourceUnit) : List Event :=
  if p.contains u.path then [] else [.unitAdded store u.path]

/-- What a check of the entry tells, whether or not the problem is recorded already. -/
def entryEvent (p : Program) : Event := .entryChecked p.entryProblem?.isNone p.entry

end Program

end NameResolution
