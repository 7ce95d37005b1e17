import NameResolution.Number.Binary64
import NameResolution.Source
import NameResolution.Syntax.Annotation
import NameResolution.Syntax.Binding
import NameResolution.Syntax.Kind

/-!
# Syntax trees

The nodes of a syntax tree. Nodes of like shape share a constructor: the five literals hold a
constant, interpolations, comma expressions and lists hold a sequence, and spreads, groups and
awaits hold one operand. `Node.kind` tells the 21 kinds apart.

Whether a node is a statement and what constant it stands for can be seen on the node. Whether it
awaits is kept with the node, as it was settled when the node was made.
-/

namespace NameResolution

/-- What every node carries: where it stands, its annotations, the source it was read from, and
whether it awaits. -/
structure NodeInfo where
  location : Location
  annotations : Annotations := {}
  source : Option Source := none
  awaits : Bool := false
deriving DecidableEq, Inhabited

/-- The constants that literals stand for. -/
inductive ConstValue where
  | null
  | boolean (b : Bool)
  | integer (n : Int64)
  | float (x : Binary64)
  | string (s : String)
deriving DecidableEq, Inhabited

/-- An occurrence of a name. -/
structure Identifier where
  info : NodeInfo
  name : String
  /-- A marked identifier does not see the scopes of blocks. -/
  isMarked : Bool
  /-- Only a local identifier sees the scopes of blocks. -/
  isLocal : Bool
  binding : Option Binding := none
deriving DecidableEq, Inhabited

/-- Types: a name, a list of a type, a type or null. -/
inductive TypeExpr where
  | named (info : NodeInfo) (name : String) (qualifier : Option String) (isLocal : Bool)
  | list (info : NodeInfo) (element : TypeExpr)
  | nullable (info : NodeInfo) (inner : TypeExpr)
deriving DecidableEq, Inhabited

/-- Expressions made of a sequence of parts. -/
inductive SequenceForm where
  | interpolation
  | comma
  | list
deriving DecidableEq, Inhabited

/-- Expressions made of one operand. -/
inductive UnaryForm where
  | spread
  | group
  | await
deriving DecidableEq, Inhabited

/-- A node of a syntax tree. -/
inductive Node where
  | empty (info : NodeInfo)
  | block (info : NodeInfo) (body : List Node)
  | varDecl (info : NodeInfo) (name : Identifier) (init : Option Node) (isConst : Bool)
  | importDecl (info : NodeInfo) (path : String) (names : List Identifier) (asName : Option String)
  | exportDecl (info : NodeInfo) (names : List Identifier)
  | literal (info : NodeInfo) (value : ConstValue)
  | identifier (id : Identifier)
  | sequence (info : NodeInfo) (form : SequenceForm) (items : List Node)
  | unary (info : NodeInfo) (form : UnaryForm) (operand : Node)
  | inOf (info : NodeInfo) (left right : Node) (valueOf : Bool)
  | type (t : TypeExpr)
deriving Inhabited

/-! ## Kinds -/

/-- The kind of literal that holds a constant. -/
def ConstValue.kind : ConstValue → Kind
  | null => .null
  | boolean _ => .boolean
  | integer _ => .integer
  | float _ => .float
  | string _ => .string

/-- The kind of a sequence. -/
def SequenceForm.kind : SequenceForm → Kind
  | interpolation => .interpolation
  | comma => .comma
  | list => .list

/-- The kind of an expression with one operand. -/
def UnaryForm.kind : UnaryForm → Kind
  | spread => .spread
  | group => .group
  | await => .await

namespace TypeExpr

/-- The kind of a type. -/
def kind : TypeExpr → Kind
  | named .. => .namedType
  | list .. => .listType
  | nullable .. => .nullableType

/-- The information at the root of a type. -/
def info : TypeExpr → NodeInfo
  | named info .. | list info _ | nullable info _ => info

/-- The same type with other information at its root. -/
def withInfo (info : NodeInfo) : TypeExpr → TypeExpr
  | named _ name qualifier isLocal => named info name qualifier isLocal
  | list _ element => list info element
  | nullable _ inner => nullable info inner

/-- A type is local if the name in it is. -/
def isLocal : TypeExpr → Bool
  | named _ _ _ isLocal => isLocal
  | list _ element => element.isLocal
  | nullable _ inner => inner.isLocal

end TypeExpr

namespace Node

/-- The kind of a node. -/
def kind : Node → Kind
  | empty _ => .empty
  | block .. => .block
  | varDecl .. => .varDecl
  | importDecl .. => .importDecl
  | exportDecl .. => .exportDecl
  | literal _ value => value.kind
  | identifier _ => .identifier
  | sequence _ form _ => form.kind
  | unary _ form _ => form.kind
  | inOf .. => .inOf
  | type t => t.kind

/-- The information at the root of a node. -/
def info : Node → NodeInfo
  | empty info | block info _ | varDecl info .. | importDecl info .. | exportDecl info _
  | literal info _ | sequence info .. | unary info .. | inOf info .. => info
  | identifier id => id.info
  | type t => t.info

/-- The same node with other information at its root. -/
def withInfo (info : NodeInfo) : Node → Node
  | empty _ => empty info
  | block _ body => block info body
  | varDecl _ name init isConst => varDecl info name init isConst
  | importDecl _ path names asName => importDecl info path names asName
  | exportDecl _ names => exportDecl info names
  | literal _ value => literal info value
  | identifier id => identifier { id with info }
  | sequence _ form items => sequence info form items
  | unary _ form operand => unary info form operand
  | inOf _ left right valueOf => inOf info left right valueOf
  | type t => type (t.withInfo info)

/-- Where a node stands. -/
def location (n : Node) : Location := n.info.location

/-- The documentation of a node. -/
def documentation (n : Node) : String := n.info.annotations.documentation

/-! ## Properties -/

/-- Statements are empty statements, blocks and declarations. -/
def isStatement : Node → Bool
  | empty _ | block .. | varDecl .. | importDecl .. | exportDecl .. => true
  | _ => false

/-- A node that is no statement is an expression. -/
def isExpression (n : Node) : Bool := !n.isStatement

/-- Whether a node is a block. -/
def isBlock : Node → Bool
  | block .. => true
  | _ => false

/-- The constant that a literal stands for. -/
def constValue : Node → Option ConstValue
  | literal _ value => some value
  | _ => none

/-- Whether a node awaits, as it was settled when the node was made. -/
def isAwait (n : Node) : Bool := n.info.awaits

end Node

namespace Identifier

/-- Whether an identifier is bound. -/
def isBound (id : Identifier) : Bool := id.binding.isSome

/-- Binds an identifier that is not bound yet. -/
def bind (id : Identifier) (b : Binding) : Except TreeError Identifier :=
  match Binding.store id.binding b with
  | .ok b => .ok { id with binding := some b }
  | .error _ => .error (.alreadyBound id.info.location id.name)

end Identifier

end NameResolution
