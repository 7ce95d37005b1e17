import NameResolution.Resolver.Config
import NameResolution.Resolver.Event
import NameResolution.Resolver.ModuleTable
import NameResolution.Resolver.ScopeStack

/-!
# The walk of a unit

The walk goes through the nodes of a unit in order and binds the identifiers that are not bound
yet. A block opens a scope for its body, and a declaration in a block enters the innermost scope
once its initializer has been walked. An identifier is looked up in the open scopes, then among the
top-level names of the unit and its imports, then among the builtins.

With `stopAtFirst` the walk halts at its first failure and leaves the rest of the unit as it is:
`Node.walk_of_halted`. What a walk found out and what it tells is read off the trace of its steps.
-/

namespace NameResolution

/-- What the walk of a unit knows. -/
structure WalkContext where
  /-- The path of the unit. -/
  path : String
  /-- The top-level names of the unit. -/
  table : ModuleTable
  builtins : List String
  stopAtFirst : Bool
deriving Inhabited

/-- What the walk does about an identifier. -/
inductive WalkStep where
  /-- The identifier was bound. -/
  | bound (id : Identifier) (binding : Binding)
  /-- The identifier was bound before and keeps its binding. -/
  | kept (error : TreeError)
  /-- The identifier has no meaning. -/
  | failed (failure : Failure)
deriving DecidableEq

namespace WalkStep

/-- The step binds an identifier. -/
def isBound : WalkStep → Bool
  | bound .. => true
  | _ => false

/-- The failure that a step notes. -/
def failure? : WalkStep → Option Failure
  | failed f => some f
  | _ => none

/-- What a step in the unit at `path` tells. -/
def event? (path : String) : WalkStep → Option Event
  | bound .. => none
  | kept error => some (.bindingKept error)
  | failed f => some (.failed path f)

end WalkStep

/-- The state of a walk. -/
structure Walker where
  scopes : ScopeStack := {}
  /-- The steps taken so far, newest first. -/
  trace : List WalkStep := []
deriving Inhabited

/-! ## Lookup -/

namespace WalkContext

/-- The declarations of a name at the top level: this module's own, then those imported. -/
def origins (cx : WalkContext) (name : String) : List Origin :=
  (if (cx.table.declaration? name).isSome then [.thisModule] else []) ++
    (cx.table.importsOf name).map fun entry => .imported entry.module

/-- The meaning of a name outside all blocks. `pending` is the top-level declaration whose
initializer is being walked. -/
def resolveGlobal (cx : WalkContext) (pending : Option String) (name : String) :
    Except Cause Binding :=
  match cx.table.declaration? name, cx.table.importsOf name with
  | some location, [] =>
    if pending == some name then .error (.circularReference name)
    else .ok (.inModule cx.path name location)
  | none, [entry] => .ok (.inModule entry.module name entry.location)
  | none, [] =>
    if cx.builtins.contains name then
      .ok ⟨.builtin, ⟨Config.builtinPath, name, .nowhere⟩⟩
    else .error (.unknownIdentifier name)
  | _, _ => .error (.ambiguousIdentifier name (cx.origins name))

/-- The meaning of an identifier. Only a local identifier without a mark sees the open scopes. -/
def resolve (cx : WalkContext) (pending : Option String) (scopes : ScopeStack)
    (id : Identifier) : Except Cause Binding :=
  match if id.isLocal && !id.isMarked then scopes.lookup id.name else none with
  | some (scope, location) => .ok (.inScope scope cx.path id.name location)
  | none => cx.resolveGlobal pending id.name

/-- The meaning of an exported name: a top-level declaration of the unit. -/
def resolveExport (cx : WalkContext) (id : Identifier) : Except Cause Binding :=
  match cx.table.declaration? id.name with
  | some location => .ok (.inModule cx.path id.name location)
  | none => .error (.unknownIdentifier id.name)

end WalkContext

/-! ## Single steps -/

namespace Walker

/-- The steps taken so far, in their order. -/
def steps (w : Walker) : List WalkStep := w.trace.reverse

/-- The failures so far, in the order in which they were found. -/
def failures (w : Walker) : List Failure := w.steps.filterMap (·.failure?)

/-- The number of identifiers bound so far. -/
def bound (w : Walker) : Nat := w.trace.countP (·.isBound)

/-- The number of failures found so far. -/
def unresolved (w : Walker) : Nat := w.trace.countP (·.failure?.isSome)

/-- A name is counted as unresolved for each failure. -/
theorem unresolved_eq_length (w : Walker) : w.unresolved = w.failures.length := by
  rw [unresolved, failures, steps, List.length_filterMap_eq_countP, List.countP_reverse]

/-- What the walk of the unit at `path` tells. -/
def events (path : String) (w : Walker) : List Event := w.steps.filterMap (·.event? path)

/-- The walk has failed and does not go on after a failure. -/
def halted (cx : WalkContext) (w : Walker) : Bool :=
  cx.stopAtFirst && w.trace.any (·.failure?.isSome)

/-- Adds a step to the trace. -/
def note (w : Walker) (step : WalkStep) : Walker := { w with trace := step :: w.trace }

@[simp] theorem steps_note (w : Walker) (step : WalkStep) :
    (w.note step).steps = w.steps ++ [step] :=
  List.reverse_cons

/-- Notes a failure. -/
def fail (w : Walker) (cause : Cause) (location : Location) : Walker :=
  w.note (.failed ⟨cause, location⟩)

/-- Binds an identifier; one that is bound keeps its binding. -/
def bind (w : Walker) (id : Identifier) (b : Binding) : Identifier × Walker :=
  match id.bind b with
  | .ok bound => (bound, w.note (.bound id b))
  | .error error => (id, w.note (.kept error))

/-- Binds an identifier to its meaning, or notes why it has none. -/
def settle (w : Walker) (id : Identifier) : Except Cause Binding → Identifier × Walker
  | .ok b => w.bind id b
  | .error cause => (id, w.fail cause id.info.location)

/-- Opens the scope of a block. -/
def enterBlock (w : Walker) : Walker := { w with scopes := w.scopes.push.2 }

/-- Closes the scope of a block. -/
def leaveBlock (w : Walker) : Walker := { w with scopes := w.scopes.pop }

/-- Binds an identifier in an expression. -/
def useName (cx : WalkContext) (pending : Option String) (w : Walker) (id : Identifier) :
    Identifier × Walker :=
  if w.halted cx || id.isBound then (id, w)
  else w.settle id (cx.resolve pending w.scopes id)

/-- Binds a name in an export declaration. -/
def exportName (cx : WalkContext) (w : Walker) (id : Identifier) : Identifier × Walker :=
  if w.halted cx || id.isBound then (id, w) else w.settle id (cx.resolveExport id)

/-- Binds the names of an export declaration one after another. -/
def exportNames (cx : WalkContext) (w : Walker) : List Identifier → List Identifier × Walker
  | [] => ([], w)
  | id :: ids =>
    let r := w.exportName cx id
    let rs := r.2.exportNames cx ids
    (r.1 :: rs.1, rs.2)

/-- Binds the name of a declaration outside all blocks to itself, if it is the declaration in the
table. A repeated declaration is left unbound, as it was reported when the table was made. -/
def declareTopLevel (cx : WalkContext) (w : Walker) (id : Identifier) : Identifier × Walker :=
  if id.isBound then (id, w)
  else
    match cx.table.declaration? id.name with
    | some location =>
      if location = id.info.location then w.bind id (.inModule cx.path id.name location)
      else (id, w)
    | none => (id, w.fail (.unknownIdentifier id.name) id.info.location)

/-- Enters the name of a declaration into the innermost scope and binds it to itself. A name that
is bound already still enters the scope. -/
def declareLocal (cx : WalkContext) (w : Walker) (id : Identifier) : Identifier × Walker :=
  match w.scopes.declare id.name id.info.location with
  | (.ok scope, scopes) =>
    { w with scopes }.bind id (.inScope scope cx.path id.name id.info.location)
  | (.error previous, scopes) =>
    (id, { w with scopes }.fail (.duplicateDeclaration id.name previous) id.info.location)

end Walker

/-! ## The walk -/

mutual

/-- Walks a node. `pending` is the top-level declaration whose initializer is being walked. -/
def Node.walk (cx : WalkContext) (pending : Option String) : Node → Walker → Node × Walker
  | .block info body, w =>
    if w.halted cx then (.block info body, w)
    else
      let r := Node.walkAll cx pending body w.enterBlock
      (.block info r.1, r.2.leaveBlock)
  | .varDecl info name init isConst, w =>
    if w.halted cx then (.varDecl info name init isConst, w)
    else
      let topLevel := w.scopes.isTopLevel
      let r := Node.walkOption cx (if topLevel then some name.name else pending) init w
      if r.2.halted cx then (.varDecl info name r.1 isConst, r.2)
      else
        let d := if topLevel then r.2.declareTopLevel cx name else r.2.declareLocal cx name
        (.varDecl info d.1 r.1 isConst, d.2)
  | .exportDecl info names, w =>
    let r := w.exportNames cx names
    (.exportDecl info r.1, r.2)
  | .identifier id, w =>
    let r := w.useName cx pending id
    (.identifier r.1, r.2)
  | .sequence info form items, w =>
    let r := Node.walkAll cx pending items w
    (.sequence info form r.1, r.2)
  | .unary info form operand, w =>
    let r := operand.walk cx pending w
    (.unary info form r.1, r.2)
  | .inOf info left right valueOf, w =>
    let l := left.walk cx pending w
    let r := right.walk cx pending l.2
    (.inOf info l.1 r.1 valueOf, r.2)
  | .empty info, w => (.empty info, w)
  | .importDecl info path names asName, w => (.importDecl info path names asName, w)
  | .literal info value, w => (.literal info value, w)
  | .type t, w => (.type t, w)

/-- Walks nodes one after another. -/
def Node.walkAll (cx : WalkContext) (pending : Option String) :
    List Node → Walker → List Node × Walker
  | [], w => ([], w)
  | n :: ns, w =>
    let r := n.walk cx pending w
    let rs := Node.walkAll cx pending ns r.2
    (r.1 :: rs.1, rs.2)

/-- Walks a node that may be absent. -/
def Node.walkOption (cx : WalkContext) (pending : Option String) :
    Option Node → Walker → Option Node × Walker
  | none, w => (none, w)
  | some n, w =>
    let r := n.walk cx pending w
    (some r.1, r.2)

end

/-- After the walk has halted, the names of an export are passed over. -/
theorem Walker.exportNames_of_halted {cx : WalkContext} {w : Walker} (h : w.halted cx = true)
    (ids : List Identifier) : w.exportNames cx ids = (ids, w) := by
  induction ids with
  | nil => rfl
  | cons id ids ih => simp [Walker.exportNames, Walker.exportName, h, ih]

mutual

/-- A walk that has halted changes nothing. -/
theorem Node.walk_of_halted {cx : WalkContext} {w : Walker} (h : w.halted cx = true)
    (pending : Option String) (n : Node) : n.walk cx pending w = (n, w) := by
  cases n with
  | exportDecl => simp [Node.walk, Walker.exportNames_of_halted h]
  | identifier => simp [Node.walk, Walker.useName, h]
  | sequence _ _ items => simp [Node.walk, Node.walkAll_of_halted h pending items]
  | unary _ _ operand => simp [Node.walk, Node.walk_of_halted h pending operand]
  | inOf _ left right _ =>
      simp [Node.walk, Node.walk_of_halted h pending left, Node.walk_of_halted h pending right]
  | _ => simp [Node.walk, h]

/-- After the walk has halted, nodes are passed over. -/
theorem Node.walkAll_of_halted {cx : WalkContext} {w : Walker} (h : w.halted cx = true)
    (pending : Option String) (ns : List Node) : Node.walkAll cx pending ns w = (ns, w) := by
  cases ns with
  | nil => simp [Node.walkAll]
  | cons n ns =>
      simp [Node.walkAll, Node.walk_of_halted h pending n, Node.walkAll_of_halted h pending ns]

end

/-- Walks a unit: its import section, then its other nodes. -/
def SourceUnit.walk (cx : WalkContext) (u : SourceUnit) : SourceUnit × Walker :=
  let imports := Node.walkAll cx none u.imports {}
  let nodes := Node.walkAll cx none u.nodes imports.2
  ({ u with imports := imports.1, nodes := nodes.1 }, nodes.2)

end NameResolution
