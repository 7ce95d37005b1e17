import NameResolution.Syntax.Node

/-!
# Making nodes

A node is made from its parts and a location. It starts without annotations and without a source,
and an identifier without a binding; these are attached later. Whether the node awaits is settled
when it is made: an await does, and another expression, a block or a declaration does if a part
that it is made of says so. A part is asked, not searched.
-/

namespace NameResolution

namespace NodeInfo

/-- The information with another source. -/
def withSource (i : NodeInfo) (s : Source) : NodeInfo := { i with source := some s }

/-- The information with other annotations. -/
def withAnnotations (i : NodeInfo) (as : Annotations) : NodeInfo := { i with annotations := as }

end NodeInfo

namespace Identifier

/-- An identifier that is not bound yet. -/
def make (name : String) (isMarked isLocal : Bool) (location : Location) : Identifier :=
  { info := { location }, name, isMarked, isLocal }

/-- The same identifier, read from a source. -/
def withSource (id : Identifier) (s : Source) : Identifier :=
  { id with info := id.info.withSource s }

/-- The same identifier with other annotations. -/
def withAnnotations (id : Identifier) (as : Annotations) : Identifier :=
  { id with info := id.info.withAnnotations as }

end Identifier

namespace TypeExpr

/-- A type given by its name. -/
def mkNamed (name : String) (qualifier : Option String) (isLocal : Bool) (location : Location) :
    TypeExpr :=
  .named { location } name qualifier isLocal

/-- The lists of a type. -/
def mkList (element : TypeExpr) (location : Location) : TypeExpr := .list { location } element

/-- A type or null. -/
def mkNullable (inner : TypeExpr) (location : Location) : TypeExpr := .nullable { location } inner

/-- The same type, read from a source. -/
def withSource (t : TypeExpr) (s : Source) : TypeExpr := t.withInfo (t.info.withSource s)

/-- The same type with other annotations. -/
def withAnnotations (t : TypeExpr) (as : Annotations) : TypeExpr :=
  t.withInfo (t.info.withAnnotations as)

end TypeExpr

namespace Node

/-- An empty statement. -/
def mkEmpty (location : Location) : Node := .empty { location }

/-- A block, which awaits if a node of its body does. -/
def mkBlock (body : List Node) (location : Location) : Node :=
  .block { location, awaits := body.any isAwait } body

/-- A variable declaration, which awaits if its initializer does. -/
def mkVarDecl (name : Identifier) (init : Option Node) (isConst : Bool) (location : Location) :
    Node :=
  .varDecl { location, awaits := init.any isAwait } name init isConst

/-- An import declaration. -/
def mkImportDecl (path : String) (names : List Identifier) (asName : Option String)
    (location : Location) : Node :=
  .importDecl { location } path names asName

/-- An export declaration. -/
def mkExportDecl (names : List Identifier) (location : Location) : Node :=
  .exportDecl { location } names

/-- A literal. -/
def mkLiteral (value : ConstValue) (location : Location) : Node := .literal { location } value

/-- An interpolation, a comma expression or a list, which awaits if one of its items does. -/
def mkSequence (form : SequenceForm) (items : List Node) (location : Location) : Node :=
  .sequence { location, awaits := items.any isAwait } form items

/-- A spread or a group, which awaits if its operand does, or an await. -/
def mkUnary (form : UnaryForm) (operand : Node) (location : Location) : Node :=
  .unary { location, awaits := form == .await || operand.isAwait } form operand

/-- An in or of expression, which awaits if one of its sides does. -/
def mkInOf (left right : Node) (valueOf : Bool) (location : Location) : Node :=
  .inOf { location, awaits := left.isAwait || right.isAwait } left right valueOf

/-- The same node, read from a source. -/
def withSource (n : Node) (s : Source) : Node := n.withInfo (n.info.withSource s)

/-- The same node with other annotations. -/
def withAnnotations (n : Node) (as : Annotations) : Node := n.withInfo (n.info.withAnnotations as)

end Node

end NameResolution
