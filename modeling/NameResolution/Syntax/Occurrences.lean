import NameResolution.Syntax.Node

/-!
# Occurrences of identifiers

The identifiers of a tree in traversal order, names in declarations included, and the tree with
other identifiers in their places.
-/

namespace NameResolution

mutual

/-- The identifiers of a tree in traversal order. -/
def Node.identifiers : Node → List Identifier
  | .empty _ | .literal .. | .type _ => []
  | .block _ body => Node.identifiersAll body
  | .varDecl _ name init _ => name :: Node.identifiersOption init
  | .importDecl _ _ names _ => names
  | .exportDecl _ names => names
  | .identifier id => [id]
  | .sequence _ _ items => Node.identifiersAll items
  | .unary _ _ operand => operand.identifiers
  | .inOf _ left right _ => left.identifiers ++ right.identifiers

/-- The identifiers of a list of trees in traversal order. -/
def Node.identifiersAll : List Node → List Identifier
  | [] => []
  | n :: ns => n.identifiers ++ Node.identifiersAll ns

/-- The identifiers of a tree that may be absent. -/
def Node.identifiersOption : Option Node → List Identifier
  | none => []
  | some n => n.identifiers

end

/-! ## Replacing occurrences -/

/-- Replaces each identifier of a list by the next one of `ids`, as long as there is one; also
gives the identifiers that are left. -/
def putNames : List Identifier → List Identifier → List Identifier × List Identifier
  | [], ids => ([], ids)
  | names, [] => (names, [])
  | _ :: names, id :: ids => ((id :: (putNames names ids).1), (putNames names ids).2)

mutual

/-- Replaces the identifiers of a tree, in traversal order, by those of a list; also gives the
identifiers that are left. -/
def Node.put : Node → List Identifier → Node × List Identifier
  | .empty info, ids => (.empty info, ids)
  | .literal info value, ids => (.literal info value, ids)
  | .type t, ids => (.type t, ids)
  | .block info body, ids =>
    let r := Node.putAll body ids
    (.block info r.1, r.2)
  | .varDecl info name init isConst, ids =>
    let r := Node.putOption init ids.tail
    (.varDecl info (ids.head?.getD name) r.1 isConst, r.2)
  | .importDecl info path names asName, ids =>
    let r := putNames names ids
    (.importDecl info path r.1 asName, r.2)
  | .exportDecl info names, ids =>
    let r := putNames names ids
    (.exportDecl info r.1, r.2)
  | .identifier id, ids => (.identifier (ids.head?.getD id), ids.tail)
  | .sequence info form items, ids =>
    let r := Node.putAll items ids
    (.sequence info form r.1, r.2)
  | .unary info form operand, ids =>
    let r := operand.put ids
    (.unary info form r.1, r.2)
  | .inOf info left right valueOf, ids =>
    let l := left.put ids
    let r := right.put l.2
    (.inOf info l.1 r.1 valueOf, r.2)

/-- Replaces the identifiers of a list of trees in traversal order. -/
def Node.putAll : List Node → List Identifier → List Node × List Identifier
  | [], ids => ([], ids)
  | n :: ns, ids =>
    let r := n.put ids
    let rs := Node.putAll ns r.2
    (r.1 :: rs.1, rs.2)

/-- Replaces the identifiers of a tree that may be absent. -/
def Node.putOption : Option Node → List Identifier → Option Node × List Identifier
  | none, ids => (none, ids)
  | some n, ids =>
    let r := n.put ids
    (some r.1, r.2)

end

end NameResolution
