import NameResolution.Proofs.View
import NameResolution.Resolver.Import

/-!
# Trees without their bindings

The skeleton of a tree is the tree with every binding taken out. All that positions, blocks and
declarations are about is a matter of the skeleton, and nothing that the resolver does to a tree
changes it.

Main statements:

* `Node.at?_skeleton`: the skeleton has the same nodes at the same positions;
* `Node.directlyIn_skeleton`, `Node.blocks_skeleton`: it has the same blocks with the same
  declarations in them;
* `SourceUnit.skeleton_bindImports`, `SourceUnit.skeleton_walk`: binding imports and walking a unit
  only bind identifiers.
-/

namespace NameResolution

/-- The identifier without its binding. -/
def Identifier.unbound (id : Identifier) : Identifier := { id with binding := none }

namespace Identifier

@[simp] theorem name_unbound (id : Identifier) : id.unbound.name = id.name := rfl

@[simp] theorem info_unbound (id : Identifier) : id.unbound.info = id.info := rfl

/-- Identifiers that differ in bindings only have the same name. -/
theorem name_eq_of_unbound {id id' : Identifier} (h : id.unbound = id'.unbound) :
    id.name = id'.name := by
  rw [← name_unbound, h, name_unbound]

/-- Identifiers that differ in bindings only have the same data. -/
theorem info_eq_of_unbound {id id' : Identifier} (h : id.unbound = id'.unbound) :
    id.info = id'.info := by
  rw [← info_unbound, h, info_unbound]

/-- Binding an identifier fills its binding and leaves the rest. -/
theorem unbound_of_bind {id bound : Identifier} {b : Binding} (h : id.bind b = .ok bound) :
    bound.unbound = id.unbound := by
  unfold bind at h
  split at h
  · cases h
    rfl
  · cases h

end Identifier

namespace Node

mutual

/-- The tree without its bindings. -/
def skeleton : Node → Node
  | .block info body => .block info (skeletonAll body)
  | .varDecl info name init isConst => .varDecl info name.unbound (skeletonOption init) isConst
  | .importDecl info path names asName => .importDecl info path (names.map (·.unbound)) asName
  | .exportDecl info names => .exportDecl info (names.map (·.unbound))
  | .identifier id => .identifier id.unbound
  | .sequence info form items => .sequence info form (skeletonAll items)
  | .unary info form operand => .unary info form operand.skeleton
  | .inOf info left right valueOf => .inOf info left.skeleton right.skeleton valueOf
  | .empty info => .empty info
  | .literal info value => .literal info value
  | .type t => .type t

/-- The trees of a list without their bindings. -/
def skeletonAll : List Node → List Node
  | [] => []
  | n :: ns => n.skeleton :: skeletonAll ns

/-- The tree, if there is one, without its bindings. -/
def skeletonOption : Option Node → Option Node
  | none => none
  | some n => some n.skeleton

end

theorem skeletonAll_eq_map (ns : List Node) : skeletonAll ns = ns.map skeleton := by
  induction ns with
  | nil => rfl
  | cons n ns ih => rw [skeletonAll, ih, List.map_cons]

/-! ## trees with a given skeleton -/

section

variable {m : Node} {info : NodeInfo}

/-- A tree with the skeleton of an empty statement is that statement. -/
theorem empty_of_skeleton (h : m.skeleton = (Node.empty info).skeleton) : m = .empty info := by
  cases m with
  | empty => exact h
  | _ => cases h

/-- A tree with the skeleton of a literal is that literal. -/
theorem literal_of_skeleton {value : ConstValue}
    (h : m.skeleton = (Node.literal info value).skeleton) : m = .literal info value := by
  cases m with
  | literal => exact h
  | _ => cases h

/-- A tree with the skeleton of a type is that type. -/
theorem type_of_skeleton {t : TypeExpr} (h : m.skeleton = (Node.type t).skeleton) :
    m = .type t := by
  cases m with
  | type => exact h
  | _ => cases h

/-- A tree with the skeleton of an identifier is that identifier up to its binding. -/
theorem identifier_of_skeleton {id : Identifier}
    (h : m.skeleton = (Node.identifier id).skeleton) :
    ∃ id', m = .identifier id' ∧ id'.unbound = id.unbound := by
  cases m with
  | identifier id' => exact ⟨id', rfl, Node.identifier.inj h⟩
  | _ => cases h

/-- A tree with the skeleton of a block is a block of trees with the skeletons of its body. -/
theorem block_of_skeleton {body : List Node} (h : m.skeleton = (Node.block info body).skeleton) :
    ∃ body', m = .block info body' ∧ skeletonAll body' = skeletonAll body := by
  cases m with
  | block info' body' =>
      obtain ⟨rfl, hbody⟩ := Node.block.inj h
      exact ⟨body', rfl, hbody⟩
  | _ => cases h

/-- A tree with the skeleton of a declaration declares the same name, up to its binding. -/
theorem varDecl_of_skeleton {name : Identifier} {init : Option Node} {isConst : Bool}
    (h : m.skeleton = (Node.varDecl info name init isConst).skeleton) :
    ∃ name' init', m = .varDecl info name' init' isConst ∧ name'.unbound = name.unbound ∧
      skeletonOption init' = skeletonOption init := by
  cases m with
  | varDecl info' name' init' isConst' =>
      obtain ⟨rfl, hname, hinit, rfl⟩ := Node.varDecl.inj h
      exact ⟨name', init', rfl, hname, hinit⟩
  | _ => cases h

/-- A tree with the skeleton of an import names the same path and the same names, up to their
bindings. -/
theorem importDecl_of_skeleton {path : String} {names : List Identifier} {asName : Option String}
    (h : m.skeleton = (Node.importDecl info path names asName).skeleton) :
    ∃ names', m = .importDecl info path names' asName ∧
      names'.map (·.unbound) = names.map (·.unbound) := by
  cases m with
  | importDecl info' path' names' asName' =>
      obtain ⟨rfl, rfl, hnames, rfl⟩ := Node.importDecl.inj h
      exact ⟨names', rfl, hnames⟩
  | _ => cases h

/-- A tree with the skeleton of an export lists the same names, up to their bindings. -/
theorem exportDecl_of_skeleton {names : List Identifier}
    (h : m.skeleton = (Node.exportDecl info names).skeleton) :
    ∃ names', m = .exportDecl info names' ∧ names'.map (·.unbound) = names.map (·.unbound) := by
  cases m with
  | exportDecl info' names' =>
      obtain ⟨rfl, hnames⟩ := Node.exportDecl.inj h
      exact ⟨names', rfl, hnames⟩
  | _ => cases h

/-- A tree with the skeleton of a sequence is a sequence of trees with the skeletons of its
items. -/
theorem sequence_of_skeleton {form : SequenceForm} {items : List Node}
    (h : m.skeleton = (Node.sequence info form items).skeleton) :
    ∃ items', m = .sequence info form items' ∧ skeletonAll items' = skeletonAll items := by
  cases m with
  | sequence info' form' items' =>
      obtain ⟨rfl, rfl, hitems⟩ := Node.sequence.inj h
      exact ⟨items', rfl, hitems⟩
  | _ => cases h

/-- A tree with the skeleton of a unary node has an operand with the skeleton of its operand. -/
theorem unary_of_skeleton {form : UnaryForm} {operand : Node}
    (h : m.skeleton = (Node.unary info form operand).skeleton) :
    ∃ operand', m = .unary info form operand' ∧ operand'.skeleton = operand.skeleton := by
  cases m with
  | unary info' form' operand' =>
      obtain ⟨rfl, rfl, hoperand⟩ := Node.unary.inj h
      exact ⟨operand', rfl, hoperand⟩
  | _ => cases h

/-- A tree with the skeleton of an `in` or `of` expression has sides with the skeletons of its
sides. -/
theorem inOf_of_skeleton {left right : Node} {valueOf : Bool}
    (h : m.skeleton = (Node.inOf info left right valueOf).skeleton) :
    ∃ left' right', m = .inOf info left' right' valueOf ∧ left'.skeleton = left.skeleton ∧
      right'.skeleton = right.skeleton := by
  cases m with
  | inOf info' left' right' valueOf' =>
      obtain ⟨rfl, hleft, hright, rfl⟩ := Node.inOf.inj h
      exact ⟨left', right', rfl, hleft, hright⟩
  | _ => cases h

/-- Trees with the skeletons of a list that is not empty, taken apart. -/
theorem cons_of_skeletonAll {n : Node} {ns ms : List Node}
    (h : skeletonAll ms = skeletonAll (n :: ns)) :
    ∃ n' ns', ms = n' :: ns' ∧ n'.skeleton = n.skeleton ∧ skeletonAll ns' = skeletonAll ns := by
  cases ms with
  | nil => cases h
  | cons n' ns' =>
      obtain ⟨hhead, htail⟩ := List.cons.inj h
      exact ⟨n', ns', rfl, hhead, htail⟩

/-- Only the empty list has the skeletons of the empty list. -/
theorem nil_of_skeletonAll {ms : List Node} (h : skeletonAll ms = skeletonAll []) : ms = [] := by
  cases ms with
  | nil => rfl
  | cons => cases h

/-- What has the skeleton of a tree that is there is there. -/
theorem some_of_skeletonOption {n : Node} {o : Option Node}
    (h : skeletonOption o = skeletonOption (some n)) :
    ∃ n', o = some n' ∧ n'.skeleton = n.skeleton := by
  cases o with
  | none => cases h
  | some n' => exact ⟨n', rfl, Option.some.inj h⟩

/-- What has the skeleton of an absent tree is absent. -/
theorem none_of_skeletonOption {o : Option Node} (h : skeletonOption o = skeletonOption none) :
    o = none := by
  cases o with
  | none => rfl
  | some => cases h

end

/-! ## what the skeleton keeps -/

/-- The children of a skeleton are the skeletons of the children. -/
theorem children_skeleton (n : Node) : n.skeleton.children = n.children.map skeleton := by
  cases n with
  | varDecl _ _ init _ => cases init <;> simp [skeleton, skeletonOption, children]
  | type t => cases t <;> simp [skeleton, children]
  | _ => simp [skeleton, skeletonAll_eq_map, children]

@[simp] theorem isBlock_skeleton (n : Node) : n.skeleton.isBlock = n.isBlock := by
  cases n <;> rfl

/-- A skeleton declares the same name, without its binding. -/
theorem declaredName?_skeleton (n : Node) :
    n.skeleton.declaredName? = n.declaredName?.map (·.unbound) := by
  cases n <;> rfl

/-- A skeleton exports the same names, without their bindings. -/
theorem exportedNames_skeleton (n : Node) :
    n.skeleton.exportedNames = n.exportedNames.map (·.unbound) := by
  cases n <;> rfl

/-- A skeleton gives its children the same roles. -/
@[simp] theorem childRole_skeleton (n : Node) (i : Nat) :
    n.skeleton.childRole i = n.childRole i := by
  cases n <;> cases i <;> rfl

/-- The skeleton has the same nodes at the same positions. -/
theorem at?_skeleton (n : Node) (p : Position) : n.skeleton.at? p = (n.at? p).map skeleton := by
  induction p generalizing n with
  | nil => rfl
  | cons i p ih =>
      rw [at?_cons, at?_cons, children_skeleton, List.getElem?_map]
      cases n.children[i]? with
      | none => rfl
      | some c => exact ih c

theorem roleAt_skeleton (n : Node) (p : Position) : n.skeleton.roleAt p = n.roleAt p := by
  induction p generalizing n with
  | nil => rfl
  | cons i p ih =>
      cases p with
      | nil => exact childRole_skeleton n i
      | cons j p =>
          rw [roleAt, roleAt, children_skeleton, List.getElem?_map]
          cases n.children[i]? with
          | none => rfl
          | some c => exact ih c

@[simp] theorem isBlockAt_skeleton (n : Node) (q : Position) :
    n.skeleton.IsBlockAt q ↔ n.IsBlockAt q := by
  rw [IsBlockAt, IsBlockAt, at?_skeleton]
  cases n.at? q with
  | none => rfl
  | some m => simp

/-- A skeleton has declarations of the same names at the same positions. -/
theorem declaredAt?_skeleton (n : Node) (d : Position) :
    n.skeleton.declaredAt? d = (n.declaredAt? d).map (·.unbound) := by
  rw [declaredAt?, declaredAt?, at?_skeleton]
  cases n.at? d with
  | none => rfl
  | some m => exact declaredName?_skeleton m

@[simp] theorem outsideBlocks_skeleton (n : Node) (d : Position) :
    n.skeleton.OutsideBlocks d ↔ n.OutsideBlocks d := by
  simp only [OutsideBlocks, isBlockAt_skeleton]

@[simp] theorem directlyIn_skeleton (n : Node) (q d : Position) :
    n.skeleton.DirectlyIn q d ↔ n.DirectlyIn q d := by
  constructor
  · rintro ⟨hblock, habove, hinner⟩
    refine ⟨(isBlockAt_skeleton n q).mp hblock, habove, fun r hr hr' => ?_⟩
    exact hinner r hr ((isBlockAt_skeleton n r).mpr hr')
  · rintro ⟨hblock, habove, hinner⟩
    refine ⟨(isBlockAt_skeleton n q).mpr hblock, habove, fun r hr hr' => ?_⟩
    exact hinner r hr ((isBlockAt_skeleton n r).mp hr')

mutual

/-- The blocks of a skeleton are those of the node. -/
@[simp] theorem blocks_skeleton (n : Node) : n.skeleton.blocks = n.blocks := by
  cases n with
  | block _ body => simp [skeleton, blocks, blocksAll_skeleton 0 body]
  | varDecl _ _ init _ => simp [skeleton, blocks, blocksOption_skeleton init]
  | sequence _ _ items => simp [skeleton, blocks, blocksAll_skeleton 0 items]
  | unary _ _ operand => simp [skeleton, blocks, blocks_skeleton operand]
  | inOf _ left right _ => simp [skeleton, blocks, blocks_skeleton left, blocks_skeleton right]
  | _ => rfl

theorem blocksAll_skeleton (k : Nat) (ns : List Node) :
    blocksAll k (skeletonAll ns) = blocksAll k ns := by
  cases ns with
  | nil => rfl
  | cons n ns =>
      simp [skeletonAll, blocksAll, blocks_skeleton n, blocksAll_skeleton (k + 1) ns]

theorem blocksOption_skeleton (init : Option Node) :
    blocksOption (skeletonOption init) = blocksOption init := by
  cases init with
  | none => rfl
  | some n => simp [skeletonOption, blocksOption, blocks_skeleton n]

end

/-- Which declarations a position initializes is a matter of the skeleton. -/
theorem initializes_skeleton {n : Node} {p d : Position} {id : Identifier} :
    n.skeleton.Initializes p d id ↔ ∃ decl, n.Initializes p d decl ∧ id = decl.unbound := by
  constructor
  · rintro ⟨hdecl, habove, hout⟩
    rw [declaredAt?_skeleton] at hdecl
    obtain ⟨decl, hat, rfl⟩ := Option.map_eq_some_iff.mp hdecl
    exact ⟨decl, ⟨hat, habove, (outsideBlocks_skeleton n d).mp hout⟩, rfl⟩
  · rintro ⟨decl, ⟨hdecl, habove, hout⟩, rfl⟩
    refine ⟨?_, habove, (outsideBlocks_skeleton n d).mpr hout⟩
    rw [declaredAt?_skeleton, hdecl]
    rfl

end Node

/-! ## what the resolver keeps -/

namespace Walker

/-- Binding an identifier changes nothing but its binding. -/
@[simp] theorem unbound_bind (w : Walker) (id : Identifier) (b : Binding) :
    (w.bind id b).1.unbound = id.unbound := by
  unfold bind
  split
  · next bound h => exact Identifier.unbound_of_bind h
  · rfl

@[simp] theorem unbound_settle (w : Walker) (id : Identifier) (outcome : Except Cause Binding) :
    (w.settle id outcome).1.unbound = id.unbound := by
  cases outcome with
  | ok b => exact unbound_bind w id b
  | error cause => rfl

@[simp] theorem unbound_useName (cx : WalkContext) (pending : Option String) (w : Walker)
    (id : Identifier) : (w.useName cx pending id).1.unbound = id.unbound := by
  unfold useName
  split
  · rfl
  · exact unbound_settle ..

@[simp] theorem unbound_exportName (cx : WalkContext) (w : Walker) (id : Identifier) :
    (w.exportName cx id).1.unbound = id.unbound := by
  unfold exportName
  split
  · rfl
  · exact unbound_settle ..

@[simp] theorem unbound_exportNames (cx : WalkContext) (w : Walker) (ids : List Identifier) :
    (w.exportNames cx ids).1.map (·.unbound) = ids.map (·.unbound) := by
  induction ids generalizing w with
  | nil => rfl
  | cons id ids ih => simp [exportNames, ih]

@[simp] theorem unbound_declareTopLevel (cx : WalkContext) (w : Walker) (id : Identifier) :
    (w.declareTopLevel cx id).1.unbound = id.unbound := by
  unfold declareTopLevel
  split
  · rfl
  · split
    · split
      · exact unbound_bind ..
      · rfl
    · rfl

@[simp] theorem unbound_declareLocal (cx : WalkContext) (w : Walker) (id : Identifier) :
    (w.declareLocal cx id).1.unbound = id.unbound := by
  unfold declareLocal
  split
  · exact unbound_bind ..
  · rfl

end Walker

namespace Node

mutual

/-- The walk of a tree only binds identifiers. -/
theorem skeleton_walk (cx : WalkContext) (pending : Option String) (n : Node) (w : Walker) :
    (n.walk cx pending w).1.skeleton = n.skeleton := by
  cases n with
  | block info body =>
      cases h : w.halted cx with
      | true => rw [walk_of_halted h]
      | false => simp [walk, h, skeleton, skeletonAll_walk cx pending body]
  | varDecl info name init isConst =>
      cases h : w.halted cx with
      | true => rw [walk_of_halted h]
      | false =>
          rcases walk_varDecl h pending info name init isConst rfl with
            ⟨-, hwalk⟩ | ⟨-, -, hwalk⟩ | ⟨-, -, hwalk⟩
          · simp [hwalk, skeleton, skeletonOption_walk cx _ init]
          · simp [hwalk, skeleton, skeletonOption_walk cx _ init]
          · simp [hwalk, skeleton, skeletonOption_walk cx _ init]
  | sequence _ _ items => simp [walk, skeleton, skeletonAll_walk cx pending items]
  | unary _ _ operand => simp [walk, skeleton, skeleton_walk cx pending operand]
  | inOf _ left right _ =>
      simp [walk, skeleton, skeleton_walk cx pending left, skeleton_walk cx pending right]
  | _ => simp [walk, skeleton]

/-- The walk through a list of nodes changes nothing but bindings. -/
theorem skeletonAll_walk (cx : WalkContext) (pending : Option String) (ns : List Node)
    (w : Walker) : skeletonAll (walkAll cx pending ns w).1 = skeletonAll ns := by
  cases ns with
  | nil => rfl
  | cons n ns =>
      simp [walkAll, skeletonAll, skeleton_walk cx pending n, skeletonAll_walk cx pending ns]

theorem skeletonOption_walk (cx : WalkContext) (pending : Option String) (init : Option Node)
    (w : Walker) : skeletonOption (walkOption cx pending init w).1 = skeletonOption init := by
  cases init with
  | none => rfl
  | some n => simp [walkOption, skeletonOption, skeleton_walk cx pending n]

end

end Node

/-- A name of an import changes in its binding only. -/
theorem Import.unbound_bindName (tables : Tables) (i : Import) (id : Identifier) :
    (i.bindName tables id).unbound = id.unbound := by
  unfold Import.bindName
  split
  · rfl
  · split
    · next bound h => exact Identifier.unbound_of_bind h
    · rfl

/-- Binding the names of an import changes nothing but bindings. -/
theorem Node.skeleton_bindImport (tables : Tables) (n : Node) :
    (n.bindImport tables).skeleton = n.skeleton := by
  cases n with
  | importDecl => simp [bindImport, skeleton, Import.unbound_bindName]
  | _ => rfl

/-! ## units -/

namespace SourceUnit

/-- The unit as it was read: no identifier is bound and nothing is recorded. -/
def skeleton (u : SourceUnit) : SourceUnit where
  source := u.source
  imports := Node.skeletonAll u.imports
  nodes := Node.skeletonAll u.nodes

theorem path_skeleton (u : SourceUnit) : u.skeleton.path = u.path := rfl

/-- The top level of a skeleton has the skeletons of the top-level nodes. -/
theorem topLevel_skeleton (u : SourceUnit) :
    u.skeleton.topLevel = u.topLevel.map Node.skeleton := by
  simp [skeleton, topLevel, Node.skeletonAll_eq_map]

/-- The tree of a skeleton is the skeleton of the tree. -/
theorem root_skeleton (u : SourceUnit) : u.skeleton.root = u.root.skeleton := by
  rw [root, topLevel_skeleton, root, Node.skeleton, Node.skeletonAll_eq_map]

/-- Binding imports only binds identifiers. -/
theorem skeleton_bindImports (tables : Tables) (u : SourceUnit) :
    (u.bindImports tables).skeleton = u.skeleton := by
  simp [bindImports, skeleton, Node.skeletonAll_eq_map, Function.comp_def,
    Node.skeleton_bindImport]

/-- The walk of a unit only binds identifiers. -/
theorem skeleton_walk (cx : WalkContext) (u : SourceUnit) :
    (u.walk cx).1.skeleton = u.skeleton := by
  simp [walk, skeleton, Node.skeletonAll_walk]

/-- What is collected from a unit is a matter of the skeleton. -/
theorem collect_skeleton (u : SourceUnit) : u.skeleton.collect = u.collect := by
  have hdecls : u.skeleton.nodes.filterMap Node.declaredName? =
      (u.nodes.filterMap Node.declaredName?).map (·.unbound) := by
    simp only [skeleton, Node.skeletonAll_eq_map, List.filterMap_map, List.map_filterMap]
    congr 1
    funext n
    exact Node.declaredName?_skeleton n
  have hexports : (u.skeleton.topLevel.flatMap Node.exportedNames).map (·.name) =
      (u.topLevel.flatMap Node.exportedNames).map (·.name) := by
    simp only [topLevel_skeleton, List.flatMap_map, List.map_flatMap, Node.exportedNames_skeleton,
      List.map_map]
    rfl
  rw [collect, collect, hdecls, hexports, List.foldl_map]
  rfl

/-! ## units with one skeleton -/

/-- Units with one skeleton have the same occurrences. -/
theorem exists_at?_of_skeleton {u v : SourceUnit} (h : u.skeleton = v.skeleton) {p : Position}
    {id : Identifier} (hp : u.root.at? p = some (.identifier id)) :
    ∃ id', v.root.at? p = some (.identifier id') ∧ id'.unbound = id.unbound := by
  have hskeleton : v.root.skeleton.at? p = some (.identifier id.unbound) := by
    rw [← root_skeleton, ← h, root_skeleton, Node.at?_skeleton, hp]
    rfl
  rw [Node.at?_skeleton] at hskeleton
  obtain ⟨m, hm, heq⟩ := Option.map_eq_some_iff.mp hskeleton
  cases m with
  | identifier id' => exact ⟨id', hm, by simpa [Node.skeleton] using heq⟩
  | _ => simp [Node.skeleton] at heq

theorem path_of_skeleton {u v : SourceUnit} (h : u.skeleton = v.skeleton) : u.path = v.path := by
  rw [← path_skeleton, h, path_skeleton]

theorem blocks_of_skeleton {u v : SourceUnit} (h : u.skeleton = v.skeleton) :
    u.root.blocks = v.root.blocks := by
  rw [← Node.blocks_skeleton, ← root_skeleton, h, root_skeleton, Node.blocks_skeleton]

/-- In units with one skeleton, positions have the same role. -/
theorem roleAt_of_skeleton {u v : SourceUnit} (h : u.skeleton = v.skeleton) (p : Position) :
    u.root.roleAt p = v.root.roleAt p := by
  rw [← Node.roleAt_skeleton, ← root_skeleton, h, root_skeleton, Node.roleAt_skeleton]

/-- In units with one skeleton, the same positions are outside of blocks. -/
theorem outsideBlocks_of_skeleton {u v : SourceUnit} (h : u.skeleton = v.skeleton)
    (p : Position) : u.root.OutsideBlocks p ↔ v.root.OutsideBlocks p := by
  rw [← Node.outsideBlocks_skeleton, ← root_skeleton, h, root_skeleton,
    Node.outsideBlocks_skeleton]

theorem length_imports_of_skeleton {u v : SourceUnit} (h : u.skeleton = v.skeleton) :
    u.imports.length = v.imports.length := by
  have hlength : u.skeleton.imports.length = v.skeleton.imports.length := by rw [h]
  simpa [skeleton, Node.skeletonAll_eq_map] using hlength

end SourceUnit

end NameResolution
