import NameResolution.Diagnostic

/-!
# Failures of name resolution

What can be wrong with a name, the message of each cause, and the diagnostic made from a failure.
-/

namespace NameResolution

/-- Where an ambiguous name is declared. -/
inductive Origin where
  | thisModule
  | imported (path : String)
deriving DecidableEq

/-- How messages call an origin. -/
def Origin.render : Origin → String
  | thisModule => "this module"
  | imported path => s!"`{path}`"

/-- Why a name cannot be resolved. -/
inductive Cause where
  /-- Nothing declares the name. -/
  | unknownIdentifier (name : String)
  /-- Several modules declare the name. -/
  | ambiguousIdentifier (name : String) (origins : List Origin)
  /-- The name is used in the initializer of its own top-level declaration. -/
  | circularReference (name : String)
  /-- A module of the program is asked for a name that it does not export. -/
  | notExported (name module : String)
  /-- A module is imported that is not part of the program. -/
  | unknownModule (path importer : String)
  /-- The name is declared before in the same scope. -/
  | duplicateDeclaration (name : String) (previous : Location)
deriving DecidableEq

namespace Cause

/-- The message of a cause. -/
def message : Cause → String
  | unknownIdentifier name => s!"unknown identifier `{name}`"
  | ambiguousIdentifier name origins =>
    s!"identifier `{name}` is ambiguous: declared in " ++
      " and ".intercalate (origins.map Origin.render)
  | circularReference name => s!"`{name}` refers to itself in its own initializer"
  | notExported name module => s!"`{name}` is not exported by `{module}`"
  | unknownModule path importer =>
    s!"module `{path}` imported by `{importer}` is not part of the program"
  | duplicateDeclaration name previous =>
    s!"`{name}` is already declared in this scope at {previous}"

/-- The name in question, unless it is a module that is missing. -/
def name? : Cause → Option String
  | unknownIdentifier name | ambiguousIdentifier name _ | circularReference name
  | notExported name _ | duplicateDeclaration name _ => some name
  | unknownModule .. => none

end Cause

/-- A cause and where it was found. -/
structure Failure where
  cause : Cause
  location : Location
deriving DecidableEq

namespace Failure

/-- A failure is shown as its location and the message of its cause. -/
def render (f : Failure) : String := s!"{f.location}: {f.cause.message}"

/-- The diagnostic that reports a failure. -/
def diagnostic (f : Failure) : Diagnostic := .error f.cause.message (some f.location)

end Failure

end NameResolution
