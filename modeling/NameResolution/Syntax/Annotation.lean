import NameResolution.Syntax.Error

/-!
# Annotations

Comments and blank lines are kept with the node they belong to. A node has a list of annotations
before it, a list after it, and two slots for an annotation on its own line: one directly behind
it and one behind the comma that follows it. A slot is filled once.
-/

namespace NameResolution

/-- A comment of the source text. -/
structure Comment where
  content : String
  isDocumentation : Bool
  isMultiLine : Bool
  isTrailing : Bool
  location : Location
deriving DecidableEq, Inhabited

/-- A comment or a blank line. -/
inductive Annotation where
  | comment (c : Comment)
  | blankLine (location : Location)
deriving DecidableEq

namespace Annotation

/-- The text of an annotation; a blank line is a line feed. -/
def content : Annotation → String
  | comment c => c.content
  | blankLine _ => "\n"

/-- Only comments document a node. -/
def isDocumentation : Annotation → Bool
  | comment c => c.isDocumentation
  | blankLine _ => false

/-- Whether an annotation is a blank line. -/
def isBlankLine : Annotation → Bool
  | comment _ => false
  | blankLine _ => true

/-- Where an annotation stands. -/
def location : Annotation → Location
  | comment c => c.location
  | blankLine location => location

end Annotation

/-- The annotations of one node. -/
structure Annotations where
  preceding : List Annotation := []
  trailing : Option Annotation := none
  trailingAfterComma : Option Annotation := none
  succeeding : List Annotation := []
deriving DecidableEq, Inhabited

/-- Where an annotation is attached to a node. -/
inductive Placement where
  | preceding
  | trailing
  | trailingAfterComma
  | succeeding
deriving DecidableEq

/-- An annotation that is to be attached to a node, and where. -/
structure Attachment where
  place : Placement
  note : Annotation
deriving DecidableEq

namespace Annotations

/-- A change of the annotations of a node. Also one that fails leaves annotations behind. -/
abbrev Change := EStateM TreeError Annotations Unit

/-- Adds an annotation behind those that precede the node. -/
def pushPreceding (a : Annotation) : Change :=
  modify fun as => { as with preceding := as.preceding ++ [a] }

/-- Adds an annotation behind those that succeed the node. -/
def pushSucceeding (a : Annotation) : Change :=
  modify fun as => { as with succeeding := as.succeeding ++ [a] }

/-- What a slot holds. -/
def held (as : Annotations) : Slot → Option Annotation
  | .trailing => as.trailing
  | .trailingAfterComma => as.trailingAfterComma

/-- The annotations with another one in a slot. -/
def put (as : Annotations) (a : Annotation) : Slot → Annotations
  | .trailing => { as with trailing := some a }
  | .trailingAfterComma => { as with trailingAfterComma := some a }

/-- Fills a slot, unless it is occupied. -/
def fillSlot (slot : Slot) (a : Annotation) : Change := do
  if ((← get).held slot).isSome then throw (.slotOccupied slot)
  modify (·.put a slot)

/-- Fills the trailing slot. -/
def setTrailing (a : Annotation) : Change := fillSlot .trailing a

/-- Fills the slot behind the comma. -/
def setTrailingAfterComma (a : Annotation) : Change := fillSlot .trailingAfterComma a

/-- Attaches an annotation at its place. -/
def attach (s : Attachment) : Change :=
  match s.place with
  | .preceding => pushPreceding s.note
  | .trailing => setTrailing s.note
  | .trailingAfterComma => setTrailingAfterComma s.note
  | .succeeding => pushSucceeding s.note

/-- Attaches annotations one after another; the first that finds its slot occupied fails. -/
def attachAll (as : Annotations) (steps : List Attachment) : Except TreeError Annotations :=
  match (steps.forM attach).run as with
  | .ok () attached => .ok attached
  | .error e _ => .error e

/-- The outcome of a step, and the annotations after it. -/
def attempt (as : Annotations) (s : Attachment) : Except TreeError Unit × Annotations :=
  match (attach s).run as with
  | .ok () attached => (.ok (), attached)
  | .error e left => (.error e, left)

/-- The outcomes of steps that are all made, whether the ones before them fail or not, and the
annotations after each of them. -/
def attemptAll (as : Annotations) : List Attachment → List (Except TreeError Unit × Annotations)
  | [] => []
  | s :: steps => as.attempt s :: (as.attempt s).2.attemptAll steps

/-- The annotations after some steps. -/
def after (as : Annotations) (steps : List Attachment) : Annotations :=
  steps.foldl (fun as s => (as.attempt s).2) as

/-- All annotations: those before the node, the two slots, those after the node. -/
def toList (as : Annotations) : List Annotation :=
  as.preceding ++ as.trailing.toList ++ as.trailingAfterComma.toList ++ as.succeeding

/-- No annotation is attached. -/
def isEmpty (as : Annotations) : Bool :=
  as.preceding.isEmpty && as.trailing.isNone && as.trailingAfterComma.isNone &&
    as.succeeding.isEmpty

/-- The documentation of the node: the documentation comments before it, a line each. -/
def documentation (as : Annotations) : String :=
  (as.preceding.filter (·.isDocumentation)).foldl (fun doc a => doc ++ a.content ++ "\n") ""

end Annotations

end NameResolution
