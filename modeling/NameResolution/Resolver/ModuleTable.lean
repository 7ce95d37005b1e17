import NameResolution.Program.SourceUnit
import NameResolution.Resolver.Failure

/-!
# Tables of top-level names

For each unit a table holds what other parts of the program can see of it: the names declared at
its top level, the names it exports, and the names it imports together with the declarations they
stand for. The first declaration of a name counts; each later one is a failure.
-/

namespace NameResolution

/-- A name that a unit imports, with its module and the site of its declaration there. -/
structure ImportEntry where
  name : String
  module : String
  location : Location
deriving DecidableEq

/-- The top-level names of a unit. -/
structure ModuleTable where
  declarations : List (String × Location) := []
  exports : List String := []
  imports : List ImportEntry := []
deriving DecidableEq, Inhabited

namespace ModuleTable

/-- Where a name is declared at the top level. -/
def declaration? (t : ModuleTable) (name : String) : Option Location := t.declarations.lookup name

/-- Declares a name; a name that is declared already gives its location as the error. -/
def declare (t : ModuleTable) (name : String) (location : Location) :
    Except Location ModuleTable :=
  match t.declaration? name with
  | some previous => .error previous
  | none => .ok { t with declarations := t.declarations ++ [(name, location)] }

/-- Where a name is declared that the unit exports. -/
def exported? (t : ModuleTable) (name : String) : Option Location :=
  if t.exports.contains name then t.declaration? name else none

/-- Adds an imported name; the same import counts once. -/
def addImport (t : ModuleTable) (entry : ImportEntry) : ModuleTable :=
  if entry ∈ t.imports then t else { t with imports := t.imports ++ [entry] }

/-- Adds imported names one after another. -/
def addImports (t : ModuleTable) (entries : List ImportEntry) : ModuleTable :=
  entries.foldl addImport t

/-- The imports of a name, in the order in which they were found. -/
def importsOf (t : ModuleTable) (name : String) : List ImportEntry :=
  t.imports.filter (·.name == name)

end ModuleTable

/-! ## Collecting -/

/-- The name that a node declares. -/
def Node.declaredName? : Node → Option Identifier
  | .varDecl _ name _ _ => some name
  | _ => none

/-- The names that a node exports. -/
def Node.exportedNames : Node → List Identifier
  | .exportDecl _ names => names
  | _ => []

/-- A table under construction and the repeated declarations found on the way. -/
structure Collected where
  table : ModuleTable := {}
  duplicates : List Failure := []
deriving Inhabited

/-- Declares the name of an identifier, or notes that it is declared already. -/
def Collected.declare (c : Collected) (id : Identifier) : Collected :=
  match c.table.declare id.name id.info.location with
  | .ok table => { c with table }
  | .error previous =>
    { c with
      duplicates :=
        c.duplicates ++ [⟨.duplicateDeclaration id.name previous, id.info.location⟩] }

/-- Collects the declarations among a unit's nodes and the exports among all its top-level nodes. -/
def SourceUnit.collect (u : SourceUnit) : Collected :=
  (u.nodes.filterMap Node.declaredName?).foldl Collected.declare
    { table := { exports := (u.topLevel.flatMap Node.exportedNames).map (·.name) } }

end NameResolution
