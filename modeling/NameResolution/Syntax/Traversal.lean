import NameResolution.Syntax.Node

/-!
# Traversal

A traversal visits the direct children of a node in source order: a declared name before its
initializer, the left side of an in or of expression before the right one, and sequences from left
to right. It never goes deeper on its own: what visits a child is handed the traversal of that
child, and runs it or leaves it. Main statement: `Node.traverse_eq`, to traverse a node is to visit
its children one after another.
-/

namespace NameResolution

/-- The children of a node in source order. -/
def Node.children : Node → List Node
  | .block _ body => body
  | .varDecl _ name init _ => .identifier name :: init.toList
  | .importDecl _ _ names _ => names.map .identifier
  | .exportDecl _ names => names.map .identifier
  | .sequence _ _ items => items
  | .unary _ _ operand => [operand]
  | .inOf _ left right _ => [left, right]
  | .type (.list _ element) => [.type element]
  | .type (.nullable _ inner) => [.type inner]
  | .empty _ | .literal .. | .identifier _ | .type (.named ..) => []

section

variable {m : Type → Type} [Monad m] {ω : Type} (visit : Node → m Unit → m ω)

/-- Visits an identifier, which has no children. -/
def Identifier.accept (id : Identifier) : m ω := visit (.identifier id) (pure ())

/-- Visits the type directly inside a type. -/
def TypeExpr.traverse : TypeExpr → m Unit
  | named .. => pure ()
  | list _ element => discard (visit (.type element) element.traverse)
  | nullable _ inner => discard (visit (.type inner) inner.traverse)

mutual

/-- Visits the direct children of a node. -/
def Node.traverse : Node → m Unit
  | .block _ body => Node.acceptAll body
  | .varDecl _ name init _ => do
    discard (name.accept visit)
    Node.acceptOption init
  | .importDecl _ _ names _ => names.forM fun name => discard (name.accept visit)
  | .exportDecl _ names => names.forM fun name => discard (name.accept visit)
  | .sequence _ _ items => Node.acceptAll items
  | .unary _ _ operand => discard (visit operand operand.traverse)
  | .inOf _ left right _ => do
    discard (visit left left.traverse)
    discard (visit right right.traverse)
  | .type t => t.traverse visit
  | .empty _ | .literal .. | .identifier _ => pure ()

/-- Visits the nodes of a list, one after another. -/
def Node.acceptAll : List Node → m Unit
  | [] => pure ()
  | n :: ns => do
    discard (visit n n.traverse)
    Node.acceptAll ns

/-- Visits a node that may be absent. -/
def Node.acceptOption : Option Node → m Unit
  | none => pure ()
  | some n => discard (visit n n.traverse)

end

/-- Visits a node. -/
def Node.accept (n : Node) : m ω := visit n (n.traverse visit)

theorem Node.acceptAll_eq (ns : List Node) :
    Node.acceptAll visit ns = ns.forM fun n => discard (n.accept visit) := by
  induction ns with
  | nil => rfl
  | cons n ns ih =>
      rw [Node.acceptAll, ih]
      rfl

/-- To traverse a node is to visit its children one after another. -/
theorem Node.traverse_eq [LawfulMonad m] (n : Node) :
    n.traverse visit = n.children.forM fun c => discard (c.accept visit) := by
  cases n with
  | block _ body => rw [Node.traverse, Node.acceptAll_eq, Node.children]
  | varDecl _ name init _ =>
      cases init <;>
        simp [Node.traverse, Node.acceptOption, Node.children, Node.accept, Identifier.accept]
  | importDecl _ _ names _ | exportDecl _ names =>
      simp [Node.traverse, Node.children, Node.accept, Identifier.accept]
  | sequence _ _ items => rw [Node.traverse, Node.acceptAll_eq, Node.children]
  | type t => cases t <;> simp [Node.traverse, TypeExpr.traverse, Node.children, Node.accept]
  | _ => simp [Node.traverse, Node.children, Node.accept]

end

end NameResolution
