import NameResolution.Program.Basic

/-!
# Visitors

A visitor is called at a program, a unit or a node, and is handed the action that visits the direct
children there: the values and then the sources of a program, the imports and then the other nodes
of a unit, the children of a node in source order. Whether it goes on with them is its own choice.
There are two visitors. The recorder notes the depth, kind and location of what it visits and stays
above nodes of some kinds; the span collector lists the kinds and locations of all nodes.
-/

namespace NameResolution

/-- What can be visited: a program, a unit or a node. -/
inductive Part where
  | program (p : Program)
  | unit (u : SourceUnit)
  | node (n : Node)

/-- What is done at a part, given the action that visits its direct children. -/
abbrev Visitor (m : Type → Type) (ω : Type) := Part → m Unit → m ω

namespace Part

section

variable {m : Type → Type} [Monad m] {ω : Type} (v : Visitor m ω)

/-- Visits the nodes of a unit: its imports, then the others. -/
def traverseUnit (u : SourceUnit) : m Unit := do
  Node.acceptAll (fun n => v (.node n)) u.imports
  Node.acceptAll (fun n => v (.node n)) u.nodes

/-- Visits the direct children of a part. -/
def traverse : Part → m Unit
  | program p => p.units.forM fun u => discard (v (.unit u) (traverseUnit v u))
  | unit u => traverseUnit v u
  | node n => n.traverse fun c => v (.node c)

/-- Visits a part. -/
def accept (r : Part) : m ω := v r (r.traverse v)

end

end Part

/-! ## The recorder -/

/-- A visited node: its depth in the traversal, its kind and its location. -/
structure Visit where
  depth : Nat
  kind : Kind
  location : Location
deriving DecidableEq

/-- A visited part of a program. -/
inductive ProgramVisit where
  | program (depth : Nat) (entry : String)
  | unit (depth : Nat) (path : String)
  | node (visit : Visit)
deriving DecidableEq

/-- A recorder: how deep it is, and what it has visited so far. -/
structure Recorder where
  depth : Nat := 0
  visits : List ProgramVisit := []
deriving DecidableEq

namespace Recorder

/-- Notes a visit at the present depth. -/
def note (record : Nat → ProgramVisit) : StateM Recorder Unit :=
  modify fun s => { s with visits := s.visits ++ [record s.depth] }

/-- Acts one level deeper. -/
def deeper (act : StateM Recorder Unit) : StateM Recorder Unit := do
  modify fun s => { s with depth := s.depth + 1 }
  act
  modify fun s => { s with depth := s.depth - 1 }

/-- Acts and counts the visits that are noted meanwhile. -/
def counting (act : StateM Recorder Unit) : StateM Recorder Nat := do
  let before := (← get).visits.length
  act
  return (← get).visits.length - before

end Recorder

namespace Part

/-- The visit of a part at some depth. -/
def record : Part → Nat → ProgramVisit
  | program p, depth => .program depth p.entry
  | unit u, depth => .unit depth u.path
  | node n, depth => .node ⟨depth, n.kind, n.location⟩

/-- A part is noted and adds to the depth of what is in it. Nodes always do. -/
def isNoted (units : Bool) : Part → Bool
  | program _ | unit _ => units
  | node _ => true

/-- What is below the part is not visited. Units and programs are always entered. -/
def isSkipped (skip : Kind → Bool) : Part → Bool
  | program _ | unit _ => false
  | node n => skip n.kind

end Part

/-- Notes a part, if asked to, and goes on one level deeper unless the part is skipped. -/
def Recorder.visit (skip : Kind → Bool) (units : Bool) (r : Part) (descend : StateM Recorder Unit) :
    StateM Recorder Unit :=
  if r.isNoted units then do
    note r.record
    unless r.isSkipped skip do deeper descend
  else
    descend

/-- The visitor that notes nodes with their depth, and units and programs too if asked to, and
stays above the nodes of some kinds. It answers how many visits it noted. -/
def recorder (skip : Kind → Bool) (units : Bool) : Visitor (StateM Recorder) Nat :=
  fun r descend => Recorder.counting (Recorder.visit skip units r descend)

/-! ## The span collector -/

/-- The kind and location of a node. -/
abbrev Span := Kind × Location

/-- The span of a part that is a node. -/
def Part.span? : Part → Option Span
  | program _ | unit _ => none
  | node n => some (n.kind, n.location)

/-- The visitor that lists the spans of all nodes it comes by. -/
def spanCollector : Visitor (StateM (List Span)) Unit := fun r descend => do
  modify (· ++ r.span?.toList)
  descend

/-- Kinds and locations of all nodes of a part. -/
def Part.collect (r : Part) : List Span := ((r.accept spanCollector).run []).2

end NameResolution
