import NameResolution.Syntax.Node

/-!
# Equality of nodes

Two nodes are the same if they agree in everything they carry, where floats compare as numbers and
sources by identity. A tree that holds a NaN is therefore not the same as itself.
-/

namespace NameResolution

/-- The same constant; floats compare as numbers. -/
def ConstValue.same : ConstValue → ConstValue → Bool
  | float x, float y => x.numericEq y
  | v, w => v == w

/-- Both absent, or the same source object. -/
def sameSource : Option Source → Option Source → Bool
  | none, none => true
  | some s, some t => s.same t
  | _, _ => false

/-- The same location, annotations and flag, and the same source object. -/
def NodeInfo.same (i j : NodeInfo) : Bool :=
  i.location == j.location && i.annotations == j.annotations && sameSource i.source j.source &&
    i.awaits == j.awaits

/-- The same occurrence: bindings count. -/
def Identifier.same (a b : Identifier) : Bool :=
  a.info.same b.info && a.name == b.name && a.isMarked == b.isMarked &&
    a.isLocal == b.isLocal && a.binding == b.binding

/-- Lists of identifiers that agree one by one. -/
def sameIdentifiers : List Identifier → List Identifier → Bool
  | [], [] => true
  | a :: as, b :: bs => a.same b && sameIdentifiers as bs
  | _, _ => false

/-- The same type. -/
def TypeExpr.same : TypeExpr → TypeExpr → Bool
  | named i name qualifier isLocal, named i' name' qualifier' isLocal' =>
    i.same i' && name == name' && qualifier == qualifier' && isLocal == isLocal'
  | list i element, list i' element' => i.same i' && element.same element'
  | nullable i inner, nullable i' inner' => i.same i' && inner.same inner'
  | _, _ => false

mutual

/-- The same tree. -/
def Node.same : Node → Node → Bool
  | .empty i, .empty i' => i.same i'
  | .block i body, .block i' body' => i.same i' && sameAll body body'
  | .varDecl i name init isConst, .varDecl i' name' init' isConst' =>
    i.same i' && name.same name' && sameOption init init' && isConst == isConst'
  | .importDecl i path names asName, .importDecl i' path' names' asName' =>
    i.same i' && path == path' && sameIdentifiers names names' && asName == asName'
  | .exportDecl i names, .exportDecl i' names' => i.same i' && sameIdentifiers names names'
  | .literal i value, .literal i' value' => i.same i' && value.same value'
  | .identifier id, .identifier id' => id.same id'
  | .sequence i form items, .sequence i' form' items' =>
    i.same i' && form == form' && sameAll items items'
  | .unary i form operand, .unary i' form' operand' =>
    i.same i' && form == form' && operand.same operand'
  | .inOf i left right valueOf, .inOf i' left' right' valueOf' =>
    i.same i' && left.same left' && right.same right' && valueOf == valueOf'
  | .type t, .type t' => t.same t'
  | _, _ => false

/-- Lists of trees that agree one by one. -/
def Node.sameAll : List Node → List Node → Bool
  | [], [] => true
  | n :: ns, m :: ms => n.same m && Node.sameAll ns ms
  | _, _ => false

/-- Both absent, or the same tree. -/
def Node.sameOption : Option Node → Option Node → Bool
  | none, none => true
  | some n, some m => n.same m
  | _, _ => false

end

end NameResolution
