import NameResolution.Proofs.Frames
import NameResolution.Resolver.Walk

/-!
# What the walk sees at a position

The walk of a tree reaches each node with some open scopes and perhaps with a pending declaration.
Both are functions of the tree and the position, not of what the walk has bound so far:
`Node.viewAt` follows the path to a position, and `Node.exists_reached` shows that the walk
arrives there with just this view, as long as it has not halted.

The layers are

* what walking a whole node does to the scopes (`Node.scopes_walk`), and that it only adds to the
  trace (`Node.trace_walk`);
* one step from a node to a child (`Node.walk_child`), and the run along a path
  (`Node.exists_reached`);
* the view in terms of the blocks around the position (`Node.scopes_viewAt`,
  `Node.pending_viewAt`).
-/

namespace NameResolution

/-! ## declaring several names -/

namespace Scope

/-- Declares a name, unless the scope holds it already. -/
def add (s : Scope) (id : Identifier) : Scope :=
  match s.names.lookup id.name with
  | some _ => s
  | none => { s with names := s.names ++ [(id.name, id.info.location)] }

/-- Declares names one after another. -/
def addAll (s : Scope) (ids : List Identifier) : Scope := ids.foldl add s

@[simp] theorem addAll_nil (s : Scope) : s.addAll [] = s := rfl

/-- Two lists of names are added one after the other. -/
theorem addAll_append (s : Scope) (ids others : List Identifier) :
    s.addAll (ids ++ others) = (s.addAll ids).addAll others :=
  List.foldl_append

@[simp] theorem id_add (s : Scope) (id : Identifier) : (s.add id).id = s.id := by
  unfold add
  split <;> rfl

/-- Adding names does not change the id of a scope. -/
@[simp] theorem id_addAll (s : Scope) (ids : List Identifier) : (s.addAll ids).id = s.id := by
  induction ids generalizing s with
  | nil => rfl
  | cons id ids ih =>
      have h : s.addAll (id :: ids) = (s.add id).addAll ids := rfl
      rw [h, ih, id_add]

/-- A name is added unless the scope holds it already. -/
theorem lookup_add (s : Scope) (id : Identifier) (name : String) :
    (s.add id).names.lookup name =
      (s.names.lookup name).or (if id.name == name then some id.info.location else none) := by
  unfold add
  by_cases hname : id.name = name
  · subst hname
    cases h : s.names.lookup id.name with
    | some l => simp [h]
    | none => simp [h, List.lookup_append]
  · have hb : (name == id.name) = false := by simpa using Ne.symm hname
    cases h : s.names.lookup id.name with
    | some l => simp [hname]
    | none => simp [hname, hb, List.lookup_append, List.lookup_cons]

/-- A scope knows what it knew before and, of the names declared, the first of each. -/
theorem lookup_addAll (s : Scope) (ids : List Identifier) (name : String) :
    (s.addAll ids).names.lookup name =
      (s.names.lookup name).or ((ids.find? (·.name == name)).map (·.info.location)) := by
  induction ids generalizing s with
  | nil => simp
  | cons id ids ih =>
      have h : s.addAll (id :: ids) = (s.add id).addAll ids := rfl
      rw [h, ih, lookup_add, List.find?_cons, Option.or_assoc]
      cases id.name == name <;> simp

end Scope

namespace ScopeStack

/-- The scopes after names are declared one after another in the innermost scope and some blocks
are opened and closed again. -/
def advance (s : ScopeStack) (ids : List Identifier) (blocks : Nat) : ScopeStack where
  scopes := match s.scopes with
    | [] => []
    | scope :: outer => scope.addAll ids :: outer
  nextId := s.nextId + UInt32.ofNat blocks

@[simp] theorem nextId_advance (s : ScopeStack) (ids : List Identifier) (blocks : Nat) :
    (s.advance ids blocks).nextId = s.nextId + UInt32.ofNat blocks := rfl

@[simp] theorem advance_nil (s : ScopeStack) : s.advance [] 0 = s := by
  obtain ⟨scopes, nextId⟩ := s
  cases scopes <;> simp [advance]

/-- A stack that advances twice has advanced by all names and blocks. -/
theorem advance_advance (s : ScopeStack) (ids others : List Identifier) (k l : Nat) :
    (s.advance ids k).advance others l = s.advance (ids ++ others) (k + l) := by
  obtain ⟨scopes, nextId⟩ := s
  cases scopes <;> simp [advance, Scope.addAll_append, UInt32.ofNat_add, UInt32.add_assoc]

/-- A stack that advances neither leaves the top level nor returns to it. -/
theorem isTopLevel_advance (s : ScopeStack) (ids : List Identifier) (blocks : Nat) :
    (s.advance ids blocks).isTopLevel = s.isTopLevel := by
  obtain ⟨scopes, nextId⟩ := s
  cases scopes <;> rfl

/-- What happens in a block is forgotten when it closes, except that its number is used up. -/
theorem pop_advance_push (s : ScopeStack) (ids : List Identifier) (blocks : Nat) :
    (s.push.2.advance ids blocks).pop = s.advance [] (1 + blocks) := by
  obtain ⟨scopes, nextId⟩ := s
  cases scopes <;> simp [advance, push, pop, UInt32.ofNat_add, UInt32.add_assoc]

/-- Outside all blocks a declaration enters no scope. -/
theorem advance_of_isTopLevel {s : ScopeStack} (h : s.isTopLevel = true) (ids : List Identifier)
    (blocks : Nat) : s.advance ids blocks = s.advance [] blocks := by
  obtain ⟨scopes, nextId⟩ := s
  cases scopes with
  | nil => rfl
  | cons scope outer => simp [isTopLevel] at h

/-- A declaration that succeeds advances the stack by the name. -/
theorem advance_of_declare_ok {s t : ScopeStack} {id : Identifier} {scope : UInt32}
    (h : s.declare id.name id.info.location = (.ok scope, t)) : s.advance [id] 0 = t := by
  obtain ⟨inner, outer, hs, -, hnone, rfl⟩ := declare_eq_ok h
  simp [advance, hs, Scope.addAll, Scope.add, hnone]

/-- So does one that fails, as the name is there already. -/
theorem advance_of_declare_error {s t : ScopeStack} {id : Identifier} {previous : Location}
    (h : s.declare id.name id.info.location = (.error previous, t)) : s.advance [id] 0 = t := by
  obtain rfl := declare_eq_error h
  obtain ⟨scopes, nextId⟩ := t
  cases scopes with
  | nil => simp [advance]
  | cons scope outer =>
      cases hl : scope.names.lookup id.name with
      | none => simp [declare, hl] at h
      | some l => simp [advance, Scope.addAll, Scope.add, hl]

end ScopeStack

/-! ## the trace grows -/

namespace Walker

/-- A step is added to the trace. -/
theorem trace_note (w : Walker) (step : WalkStep) : w.trace <:+ (w.note step).trace :=
  List.suffix_cons step w.trace

/-- Binding an identifier takes nothing from the trace. -/
theorem trace_bind (w : Walker) (id : Identifier) (b : Binding) :
    w.trace <:+ (w.bind id b).2.trace := by
  unfold bind
  split
  · exact trace_note _ _
  · exact trace_note _ _

theorem trace_settle (w : Walker) (id : Identifier) (outcome : Except Cause Binding) :
    w.trace <:+ (w.settle id outcome).2.trace := by
  cases outcome with
  | ok b => exact trace_bind w id b
  | error cause => exact trace_note _ _

theorem trace_useName (cx : WalkContext) (pending : Option String) (w : Walker)
    (id : Identifier) : w.trace <:+ (w.useName cx pending id).2.trace := by
  unfold useName
  split
  · exact List.suffix_rfl
  · exact trace_settle _ _ _

theorem trace_exportName (cx : WalkContext) (w : Walker) (id : Identifier) :
    w.trace <:+ (w.exportName cx id).2.trace := by
  unfold exportName
  split
  · exact List.suffix_rfl
  · exact trace_settle _ _ _

theorem trace_exportNames (cx : WalkContext) (w : Walker) (ids : List Identifier) :
    w.trace <:+ (w.exportNames cx ids).2.trace := by
  induction ids generalizing w with
  | nil => exact List.suffix_rfl
  | cons id ids ih => exact (trace_exportName cx w id).trans (ih _)

theorem trace_declareTopLevel (cx : WalkContext) (w : Walker) (id : Identifier) :
    w.trace <:+ (w.declareTopLevel cx id).2.trace := by
  unfold declareTopLevel
  split
  · exact List.suffix_rfl
  · split
    · split
      · exact trace_bind _ _ _
      · exact List.suffix_rfl
    · exact trace_note _ _

theorem trace_declareLocal (cx : WalkContext) (w : Walker) (id : Identifier) :
    w.trace <:+ (w.declareLocal cx id).2.trace := by
  unfold declareLocal
  split
  · next scope scopes _ => exact trace_bind { w with scopes } _ _
  · next previous scopes _ => exact trace_note { w with scopes } _

/-- A walk that does not stop at a failure never halts. -/
theorem halted_of_going {cx : WalkContext} (hgoing : cx.stopAtFirst = false) (w : Walker) :
    w.halted cx = false := by
  rw [halted, hgoing, Bool.false_and]

/-- A walk that has not halted by now had not halted before. -/
theorem halted_of_trace {cx : WalkContext} {w w' : Walker} (htrace : w.trace <:+ w'.trace)
    (h : w'.halted cx = false) : w.halted cx = false := by
  unfold halted at h ⊢
  cases hstop : cx.stopAtFirst with
  | false => rfl
  | true =>
      rw [hstop, Bool.true_and, List.any_eq_false] at h
      rw [Bool.true_and, List.any_eq_false]
      intro step hstep
      exact h step (htrace.subset hstep)

/-- A walk that has halted stays so. -/
theorem halted_of_suffix {cx : WalkContext} {w w' : Walker} (htrace : w.trace <:+ w'.trace)
    (h : w.halted cx = true) : w'.halted cx = true := by
  cases h' : w'.halted cx with
  | true => rfl
  | false => exact absurd (halted_of_trace htrace h') (by simp [h])

end Walker

/-- The walk of a declaration: it may halt in the initializer, and else the name is declared at
the top level or in the innermost scope. -/
theorem Node.walk_varDecl {cx : WalkContext} {w : Walker} (h : w.halted cx = false)
    (pending : Option String) (info : NodeInfo) (name : Identifier) (init : Option Node)
    (isConst : Bool) {r : Option Node × Walker}
    (hr : r = Node.walkOption cx (if w.scopes.isTopLevel then some name.name else pending) init w) :
    (r.2.halted cx = true ∧
      (Node.varDecl info name init isConst).walk cx pending w =
        (.varDecl info name r.1 isConst, r.2)) ∨
    (r.2.halted cx = false ∧ w.scopes.isTopLevel = true ∧
      (Node.varDecl info name init isConst).walk cx pending w =
        (.varDecl info (r.2.declareTopLevel cx name).1 r.1 isConst,
          (r.2.declareTopLevel cx name).2)) ∨
    (r.2.halted cx = false ∧ w.scopes.isTopLevel = false ∧
      (Node.varDecl info name init isConst).walk cx pending w =
        (.varDecl info (r.2.declareLocal cx name).1 r.1 isConst,
          (r.2.declareLocal cx name).2)) := by
  rw [Node.walk, if_neg (by simp [h])]
  dsimp only
  rw [← hr]
  cases hhalt : r.2.halted cx with
  | true => exact .inl ⟨rfl, rfl⟩
  | false =>
      cases htop : w.scopes.isTopLevel with
      | true => exact .inr (.inl ⟨rfl, rfl, rfl⟩)
      | false => exact .inr (.inr ⟨rfl, rfl, rfl⟩)

mutual

/-- Walking a node adds to the trace. -/
theorem Node.trace_walk (cx : WalkContext) (pending : Option String) (n : Node) (w : Walker) :
    w.trace <:+ (n.walk cx pending w).2.trace := by
  cases n with
  | block info body =>
      rw [Node.walk]
      split
      · exact List.suffix_rfl
      · exact Node.trace_walkAll cx pending body w.enterBlock
  | varDecl info name init isConst =>
      cases hw : w.halted cx with
      | true => simp [Node.walk_of_halted hw]
      | false =>
          have hinit := Node.trace_walkOption cx
            (if w.scopes.isTopLevel then some name.name else pending) init w
          rcases Node.walk_varDecl hw pending info name init isConst rfl with
            ⟨-, hwalk⟩ | ⟨-, -, hwalk⟩ | ⟨-, -, hwalk⟩
          · rw [hwalk]
            exact hinit
          · rw [hwalk]
            exact hinit.trans (Walker.trace_declareTopLevel cx _ name)
          · rw [hwalk]
            exact hinit.trans (Walker.trace_declareLocal cx _ name)
  | exportDecl info names => exact Walker.trace_exportNames cx w names
  | identifier id => exact Walker.trace_useName cx pending w id
  | sequence info form items => exact Node.trace_walkAll cx pending items w
  | unary info form operand => exact Node.trace_walk cx pending operand w
  | inOf info left right valueOf =>
      exact (Node.trace_walk cx pending left w).trans (Node.trace_walk cx pending right _)
  | _ => exact List.suffix_rfl

/-- The walk through a list of nodes takes nothing from the trace. -/
theorem Node.trace_walkAll (cx : WalkContext) (pending : Option String) (ns : List Node)
    (w : Walker) : w.trace <:+ (Node.walkAll cx pending ns w).2.trace := by
  cases ns with
  | nil => exact List.suffix_rfl
  | cons n ns =>
      exact (Node.trace_walk cx pending n w).trans (Node.trace_walkAll cx pending ns _)

theorem Node.trace_walkOption (cx : WalkContext) (pending : Option String) (init : Option Node)
    (w : Walker) : w.trace <:+ (Node.walkOption cx pending init w).2.trace := by
  cases init with
  | none => exact List.suffix_rfl
  | some n => exact Node.trace_walk cx pending n w

end

/-! ## the scopes after a node -/

namespace Walker

@[simp] theorem scopes_bind (w : Walker) (id : Identifier) (b : Binding) :
    (w.bind id b).2.scopes = w.scopes := by
  unfold bind
  split <;> rfl

@[simp] theorem scopes_settle (w : Walker) (id : Identifier) (outcome : Except Cause Binding) :
    (w.settle id outcome).2.scopes = w.scopes := by
  cases outcome with
  | ok b => exact scopes_bind w id b
  | error cause => rfl

@[simp] theorem scopes_useName (cx : WalkContext) (pending : Option String) (w : Walker)
    (id : Identifier) : (w.useName cx pending id).2.scopes = w.scopes := by
  unfold useName
  split <;> simp

@[simp] theorem scopes_exportNames (cx : WalkContext) (w : Walker) (ids : List Identifier) :
    (w.exportNames cx ids).2.scopes = w.scopes := by
  induction ids generalizing w with
  | nil => rfl
  | cons id ids ih =>
      have hname : (w.exportName cx id).2.scopes = w.scopes := by
        unfold exportName
        split <;> simp
      exact (ih _).trans hname

@[simp] theorem scopes_declareTopLevel (cx : WalkContext) (w : Walker) (id : Identifier) :
    (w.declareTopLevel cx id).2.scopes = w.scopes := by
  unfold declareTopLevel
  split
  · rfl
  · split
    · split <;> simp
    · rfl

/-- A name declared in a block advances the scopes. -/
theorem scopes_declareLocal (cx : WalkContext) (w : Walker) (id : Identifier) :
    (w.declareLocal cx id).2.scopes = w.scopes.advance [id] 0 := by
  unfold declareLocal
  split
  · next scope scopes h => rw [ScopeStack.advance_of_declare_ok h, scopes_bind]
  · next previous scopes h => rw [ScopeStack.advance_of_declare_error h]; rfl

end Walker

namespace Node

/-- The names that a tree declares outside its blocks, in the order in which they are declared. -/
def localNames (n : Node) : List Identifier := n.locals.map (·.2)

/-- The names that trees declare outside their blocks. -/
def localNamesAll (ns : List Node) : List Identifier := (localsAll 0 ns).map (·.2)

/-- The local names of a list of nodes, without their positions. -/
theorem map_snd_localsAll (k : Nat) (ns : List Node) :
    (localsAll k ns).map (·.2) = localNamesAll ns := by
  unfold localNamesAll
  induction ns generalizing k with
  | nil => rfl
  | cons n ns ih =>
      rw [localsAll, localsAll, List.map_append, List.map_append, map_snd_below, map_snd_below,
        ih (k + 1), ih (0 + 1)]

/-- How many blocks there are does not depend on where positions start. -/
theorem length_blocksAll (k : Nat) (ns : List Node) :
    (blocksAll k ns).length = (blocksAll 0 ns).length := by
  induction ns generalizing k with
  | nil => rfl
  | cons n ns ih =>
      rw [blocksAll, blocksAll, List.length_append, List.length_append, List.length_map,
        List.length_map, ih (k + 1), ih (0 + 1)]

@[simp] theorem localNamesAll_nil : localNamesAll [] = [] := rfl

@[simp] theorem localNamesAll_cons (n : Node) (ns : List Node) :
    localNamesAll (n :: ns) = n.localNames ++ localNamesAll ns := by
  rw [localNamesAll, localsAll, List.map_append, map_snd_below, map_snd_localsAll]
  rfl

@[simp] theorem length_blocksAll_cons (n : Node) (ns : List Node) :
    (blocksAll 0 (n :: ns)).length = n.blocks.length + (blocksAll 0 ns).length := by
  rw [blocksAll, List.length_append, List.length_map, length_blocksAll (0 + 1)]

mutual

/-- **Scopes, one node**: unless the walk halts, walking a node declares the names that the node
declares outside its blocks and uses up the numbers of its blocks. -/
theorem scopes_walk (cx : WalkContext) (pending : Option String) (n : Node) (w : Walker)
    (h : (n.walk cx pending w).2.halted cx = false) :
    (n.walk cx pending w).2.scopes = w.scopes.advance n.localNames n.blocks.length := by
  have hw : w.halted cx = false := Walker.halted_of_trace (trace_walk cx pending n w) h
  cases n with
  | block info body =>
      have hwalk : (Node.block info body).walk cx pending w =
          (.block info (walkAll cx pending body w.enterBlock).1,
            (walkAll cx pending body w.enterBlock).2.leaveBlock) := by
        rw [Node.walk, if_neg (by simp [hw])]
      rw [hwalk] at h ⊢
      have hbody := scopes_walkAll cx pending body w.enterBlock h
      have hpop : (walkAll cx pending body w.enterBlock).2.leaveBlock.scopes =
          (walkAll cx pending body w.enterBlock).2.scopes.pop := rfl
      have hpush : w.enterBlock.scopes = w.scopes.push.2 := rfl
      rw [hpop, hbody, hpush, ScopeStack.pop_advance_push, localNames, locals, blocks,
        List.map_nil, List.length_cons, Nat.add_comm 1]
  | varDecl info name init isConst =>
      have hopt : (walkOption cx (if w.scopes.isTopLevel then some name.name else pending) init
            w).2.halted cx = false →
          (walkOption cx (if w.scopes.isTopLevel then some name.name else pending) init
              w).2.scopes =
            w.scopes.advance ((localsOption init).map (·.2)) (blocksOption init).length :=
        scopes_walkOption cx _ init w
      have hnames : (Node.varDecl info name init isConst).localNames =
          (localsOption init).map (·.2) ++ [name] := by
        rw [localNames, locals, List.map_append]
        rfl
      rw [hnames, blocks]
      rcases walk_varDecl hw pending info name init isConst rfl with
        ⟨hhalt, hwalk⟩ | ⟨hhalt, htop, hwalk⟩ | ⟨hhalt, htop, hwalk⟩
      · rw [hwalk] at h
        exact absurd (hhalt.symm.trans h) (by simp)
      · rw [hwalk, Walker.scopes_declareTopLevel, hopt hhalt, ScopeStack.advance_of_isTopLevel htop,
          ScopeStack.advance_of_isTopLevel htop (_ ++ _)]
      · rw [hwalk, Walker.scopes_declareLocal, hopt hhalt, ScopeStack.advance_advance, Nat.add_zero]
  | exportDecl info names => simp [Node.walk, localNames, locals, blocks]
  | identifier id => simp [Node.walk, localNames, locals, blocks]
  | sequence info form items => exact scopes_walkAll cx pending items w h
  | unary info form operand =>
      have hop := scopes_walk cx pending operand w h
      rw [localNames, locals, blocks, map_snd_below, List.length_map]
      exact hop
  | inOf info left right valueOf =>
      have hleft := scopes_walk cx pending left w
        (Walker.halted_of_trace (trace_walk cx pending right _) h)
      have hright := scopes_walk cx pending right (left.walk cx pending w).2 h
      rw [hleft, ScopeStack.advance_advance] at hright
      rw [localNames, locals, blocks, List.map_append, map_snd_below, map_snd_below,
        List.length_append, List.length_map, List.length_map]
      exact hright
  | _ => simp [Node.walk, localNames, locals, blocks]

/-- The walk through a list of nodes, unless it halts, advances the scopes by the local names and
blocks. -/
theorem scopes_walkAll (cx : WalkContext) (pending : Option String) (ns : List Node) (w : Walker)
    (h : (walkAll cx pending ns w).2.halted cx = false) :
    (walkAll cx pending ns w).2.scopes =
      w.scopes.advance (localNamesAll ns) (blocksAll 0 ns).length := by
  cases ns with
  | nil => exact (ScopeStack.advance_nil w.scopes).symm
  | cons n ns =>
      have hfirst := scopes_walk cx pending n w
        (Walker.halted_of_trace (trace_walkAll cx pending ns _) h)
      have hrest := scopes_walkAll cx pending ns (n.walk cx pending w).2 h
      rw [hfirst, ScopeStack.advance_advance] at hrest
      rw [localNamesAll_cons, length_blocksAll_cons]
      exact hrest

theorem scopes_walkOption (cx : WalkContext) (pending : Option String) (init : Option Node)
    (w : Walker) (h : (walkOption cx pending init w).2.halted cx = false) :
    (walkOption cx pending init w).2.scopes =
      w.scopes.advance ((localsOption init).map (·.2)) (blocksOption init).length := by
  cases init with
  | none => exact (ScopeStack.advance_nil w.scopes).symm
  | some n =>
      rw [localsOption, blocksOption, map_snd_below, List.length_map]
      exact scopes_walk cx pending n w h

end

end Node

/-! ## from a node to its children -/

/-- What the walk sees: the open scopes and the pending declaration. -/
structure View where
  scopes : ScopeStack
  pending : Option String

namespace Node

/-- What the walk sees at the `i`-th child of a node that it reaches with the view `v`. -/
def viewAtChild (n : Node) (v : View) (i : Nat) : View where
  scopes := (if n.isBlock then v.scopes.push.2 else v.scopes).advance
    (localNamesAll (n.children.take i)) (blocksAll 0 (n.children.take i)).length
  pending := match n.declaredName? with
    | some id => if v.scopes.isTopLevel then some id.name else v.pending
    | none => v.pending

/-- What the walk sees at a position below a node that it reaches with the view `v`. -/
def viewAt : Node → View → Position → View
  | _, v, [] => v
  | n, v, i :: p => (n.children[i]?).elim v fun c => c.viewAt (n.viewAtChild v i) p

/-- The view at a position below a child is that in the child, from the view at the child on. -/
theorem viewAt_cons {n c : Node} {i : Nat} (h : n.children[i]? = some c) (v : View)
    (p : Position) : n.viewAt v (i :: p) = c.viewAt (n.viewAtChild v i) p := by
  rw [viewAt, h, Option.elim_some]

/-- The walk of a tree `n` from the state `w` reaches its node `m` at `p` in the state `w'`. What
it does there is part of the trace, and unless it has halted it has the view of the position. -/
structure Reached (cx : WalkContext) (n : Node) (pending : Option String) (w : Walker)
    (p : Position) (m : Node) (pending' : Option String) (w' : Walker) : Prop where
  node : (n.walk cx pending w).1.at? p = some (m.walk cx pending' w').1
  trace : (m.walk cx pending' w').2.trace <:+ (n.walk cx pending w).2.trace
  started : w.trace <:+ w'.trace
  view : w'.halted cx = false → View.mk w'.scopes pending' = n.viewAt ⟨w.scopes, pending⟩ p

/-- A node in a list is walked in the state after the nodes in front of it. -/
theorem walkAll_getElem? {ns : List Node} {i : Nat} {c : Node} (h : ns[i]? = some c)
    (cx : WalkContext) (pending : Option String) (w : Walker) :
    (walkAll cx pending ns w).1[i]? =
        some (c.walk cx pending (walkAll cx pending (ns.take i) w).2).1 ∧
      (c.walk cx pending (walkAll cx pending (ns.take i) w).2).2.trace <:+
        (walkAll cx pending ns w).2.trace := by
  induction ns generalizing i w with
  | nil => simp at h
  | cons n ns ih =>
      cases i with
      | zero =>
          obtain rfl : n = c := by simpa using h
          exact ⟨rfl, trace_walkAll cx pending ns _⟩
      | succ i => exact ih (by simpa using h) (n.walk cx pending w).2

/-- A step of the walk from a list of children to one of them. -/
theorem walkAll_child {cx : WalkContext} {n c : Node} {i : Nat} (h : n.children[i]? = some c)
    (hblock : n.isBlock = false) (hname : n.declaredName? = none) (pending : Option String)
    (w : Walker) (hwalk : (n.walk cx pending w).1.children = (walkAll cx pending n.children w).1)
    (htrace : (n.walk cx pending w).2.trace = (walkAll cx pending n.children w).2.trace) :
    ∃ pending' w', Reached cx n pending w [i] c pending' w' := by
  obtain ⟨hget, hsuffix⟩ := walkAll_getElem? h cx pending w
  refine ⟨pending, (walkAll cx pending (n.children.take i) w).2, ?_, ?_, ?_, ?_⟩
  · rw [at?_cons, hwalk, hget]
    rfl
  · rw [htrace]
    exact hsuffix
  · exact trace_walkAll cx pending _ w
  · intro hw'
    rw [viewAt_cons h, viewAt, viewAtChild, hname, scopes_walkAll cx pending _ w hw', hblock]
    rfl

/-- **Views, one step**: the walk reaches a child with the view that the node and its own view
determine. -/
theorem walk_child {n c : Node} {i : Nat} (h : n.children[i]? = some c)
    (hrole : n.childRole i = .use) (cx : WalkContext) (pending : Option String) (w : Walker) :
    ∃ pending' w', Reached cx n pending w [i] c pending' w' := by
  cases hw : w.halted cx with
  | true =>
      refine ⟨pending, w, ?_, ?_, List.suffix_rfl, fun hw' => absurd (hw.symm.trans hw') (by simp)⟩
      · rw [walk_of_halted hw, walk_of_halted hw, at?_cons, h]
        rfl
      · simp [walk_of_halted hw]
  | false =>
      cases n with
      | block info body =>
          have hwalk : (Node.block info body).walk cx pending w =
              (.block info (walkAll cx pending body w.enterBlock).1,
                (walkAll cx pending body w.enterBlock).2.leaveBlock) := by
            rw [Node.walk, if_neg (by simp [hw])]
          have hc : body[i]? = some c := h
          obtain ⟨hget, hsuffix⟩ := walkAll_getElem? hc cx pending w.enterBlock
          refine ⟨pending, (walkAll cx pending (body.take i) w.enterBlock).2, ?_, ?_, ?_, ?_⟩
          · rw [hwalk, at?_cons]
            change (walkAll cx pending body w.enterBlock).1[i]?.bind _ = _
            rw [hget]
            rfl
          · rw [hwalk]
            exact hsuffix
          · exact trace_walkAll cx pending _ w.enterBlock
          · intro hw'
            rw [viewAt_cons h, viewAt, viewAtChild, scopes_walkAll cx pending _ w.enterBlock hw']
            rfl
      | varDecl info name init isConst =>
          -- The name is no use, so the child is the initializer.
          cases init with
          | none =>
              cases i with
              | zero => simp [childRole] at hrole
              | succ i => simp [children] at h
          | some m =>
              obtain ⟨rfl, rfl⟩ : i = 1 ∧ m = c := by
                match i, h, hrole with
                | 0, _, hrole => simp [childRole] at hrole
                | 1, h, _ => exact ⟨rfl, by simpa [children] using h⟩
                | i + 2, h, _ => simp [children] at h
              refine ⟨if w.scopes.isTopLevel then some name.name else pending, w, ?_⟩
              have hview :
                  View.mk w.scopes (if w.scopes.isTopLevel then some name.name else pending) =
                  (Node.varDecl info name (some m) isConst).viewAt ⟨w.scopes, pending⟩ [1] := by
                rw [viewAt_cons h, viewAt, viewAtChild]
                simp [children, declaredName?, isBlock, localNames, locals, blocksAll, blocks]
              rcases walk_varDecl hw pending info name (some m) isConst rfl with
                ⟨-, hwalk⟩ | ⟨-, -, hwalk⟩ | ⟨-, -, hwalk⟩
              · exact ⟨by rw [hwalk]; rfl, by rw [hwalk]; exact List.suffix_rfl, List.suffix_rfl,
                  fun _ => hview⟩
              · exact ⟨by rw [hwalk]; rfl,
                  by rw [hwalk]; exact Walker.trace_declareTopLevel cx _ name,
                  List.suffix_rfl, fun _ => hview⟩
              · exact ⟨by rw [hwalk]; rfl, by rw [hwalk]; exact Walker.trace_declareLocal cx _ name,
                  List.suffix_rfl, fun _ => hview⟩
      | importDecl => simp [childRole] at hrole
      | exportDecl => simp [childRole] at hrole
      | sequence info form items => exact walkAll_child h rfl rfl pending w rfl rfl
      | unary info form operand => exact walkAll_child h rfl rfl pending w rfl rfl
      | inOf info left right valueOf => exact walkAll_child h rfl rfl pending w rfl rfl
      | type t =>
          -- Types have no names in them; the walk leaves them alone.
          cases t with
          | named => simp [children] at h
          | list info element =>
              exact walkAll_child h rfl rfl pending w rfl rfl
          | nullable info inner =>
              exact walkAll_child h rfl rfl pending w rfl rfl
      | _ => simp [children] at h

/-- Only a use has nodes below it. -/
theorem childRole_of_children {n c d : Node} {i j : Nat} (h : n.children[i]? = some c)
    (hd : c.children[j]? = some d) : n.childRole i = .use := by
  cases n with
  | varDecl info name init isConst =>
      cases i with
      | zero =>
          obtain rfl : Node.identifier name = c := by simpa [children] using h
          simp [children] at hd
      | succ i => rfl
  | importDecl info path names asName =>
      obtain ⟨id, -, rfl⟩ : ∃ id, names[i]? = some id ∧ Node.identifier id = c := by
        simpa [children] using h
      simp [children] at hd
  | exportDecl info names =>
      obtain ⟨id, -, rfl⟩ : ∃ id, names[i]? = some id ∧ Node.identifier id = c := by
        simpa [children] using h
      simp [children] at hd
  | _ => cases i <;> rfl

/-- **Views, the run**: the walk of a tree reaches every position that is no declared, imported or
exported name, and with the view of that position. -/
theorem exists_reached {n m : Node} {p : Position} (hp : n.at? p = some m)
    (hrole : n.roleAt p = .use) (cx : WalkContext) (pending : Option String) (w : Walker) :
    ∃ pending' w', Reached cx n pending w p m pending' w' := by
  induction p generalizing n pending w with
  | nil =>
      obtain rfl : n = m := by simpa using hp
      exact ⟨pending, w, rfl, List.suffix_rfl, List.suffix_rfl, fun _ => rfl⟩
  | cons i p ih =>
      obtain ⟨c, hi, hc⟩ := Option.bind_eq_some_iff.mp hp
      have hroles : n.childRole i = .use ∧ c.roleAt p = .use := by
        cases p with
        | nil => exact ⟨hrole, rfl⟩
        | cons j p =>
            obtain ⟨d, hd, -⟩ := Option.bind_eq_some_iff.mp hc
            refine ⟨childRole_of_children hi hd, ?_⟩
            rwa [roleAt, hi, Option.elim_some] at hrole
      obtain ⟨pending₁, w₁, hstep⟩ := walk_child hi hroles.1 cx pending w
      obtain ⟨pending₂, w₂, hrun⟩ := ih hc hroles.2 pending₁ w₁
      refine ⟨pending₂, w₂, ?_, hrun.trace.trans hstep.trace, hstep.started.trans hrun.started, ?_⟩
      · have hchild : (n.walk cx pending w).1.children[i]? = some (c.walk cx pending₁ w₁).1 := by
          simpa using hstep.node
        rw [at?_cons, hchild, Option.bind_some]
        exact hrun.node
      · intro hw₂
        have hw₁ := Walker.halted_of_trace hrun.started hw₂
        rw [hrun.view hw₂, hstep.view hw₁, viewAt_cons hi, viewAt_cons hi]
        rfl

end Node

/-! ## the view in terms of blocks -/

/-- The scope of a block around a position; the first block has the number `base`. -/
def Frame.scope (base : UInt32) (f : Frame) : Scope :=
  Scope.addAll { id := base + UInt32.ofNat f.index } (f.finished.map (·.2))

/-- The scope of a frame in a child has the blocks in front of the child counted in. -/
theorem Frame.scope_lift (base : UInt32) (n : Node) (i : Nat) (f : Frame) :
    (f.lift n i).scope base = f.scope (base + UInt32.ofNat (n.blocksBefore i)) := by
  simp [Frame.scope, Frame.lift, UInt32.ofNat_add, UInt32.add_assoc]

namespace Node

/-- At a child, the next id has the blocks in front of it counted in. -/
theorem nextId_viewAtChild (n : Node) (v : View) (i : Nat) :
    (n.viewAtChild v i).scopes.nextId = v.scopes.nextId + UInt32.ofNat (n.blocksBefore i) := by
  rw [viewAtChild, blocksBefore, ScopeStack.nextId_advance, UInt32.ofNat_add, ← UInt32.add_assoc]
  split <;> simp

/-- The names of the declarations in front of a position below a child. -/
theorem map_snd_localsBefore {n c : Node} {i : Nat} (h : n.children[i]? = some c) (p : Position) :
    (n.localsBefore (i :: p)).map (·.2) = localNamesAll (n.children.take i) ++
      if c.isBlock then [] else (c.localsBefore p).map (·.2) := by
  rw [localsBefore, h, Option.elim_some, List.map_append, map_snd_localsAll]
  split <;> simp

/-- **Scopes of a view**: at a position the open scopes are those of the blocks around it, on top
of the scopes at the root, where the root's own declarations have been added. -/
theorem scopes_viewAt {n m : Node} {p : Position} (hp : n.at? p = some m) (v : View) :
    (n.viewAt v p).scopes.scopes = (n.frames p).map (Frame.scope v.scopes.nextId) ++
      (v.scopes.advance (if n.isBlock then [] else (n.localsBefore p).map (·.2)) 0).scopes := by
  induction p generalizing n v with
  | nil => cases h : n.isBlock <;> simp [viewAt, frames, localsBefore]
  | cons i p ih =>
      obtain ⟨c, hi, hc⟩ := Option.bind_eq_some_iff.mp hp
      have hframes : (c.frames p).map (Frame.scope (n.viewAtChild v i).scopes.nextId) =
          ((c.frames p).map (Frame.lift n i)).map (Frame.scope v.scopes.nextId) := by
        rw [nextId_viewAtChild, List.map_map]
        exact List.map_congr_left fun f _ => (Frame.scope_lift _ n i f).symm
      rw [viewAt_cons hi, ih hc, hframes, frames, hi, Option.elim_some, List.map_append,
        List.append_assoc, viewAtChild, ScopeStack.advance_advance,
        ← map_snd_localsBefore hi]
      congr 1
      cases hblock : n.isBlock with
      | true =>
          rw [if_pos rfl, if_pos rfl, if_pos rfl, ScopeStack.advance_nil]
          simp [ScopeStack.advance, ScopeStack.push, Frame.scope]
      | false => simp [ScopeStack.advance]

/-- Inside a block the pending declaration does not change. -/
theorem pending_viewAt_of_not_isTopLevel {n m : Node} {p : Position} (hp : n.at? p = some m)
    {v : View} (hv : v.scopes.isTopLevel = false) : (n.viewAt v p).pending = v.pending := by
  induction p generalizing n v with
  | nil => rfl
  | cons i p ih =>
      obtain ⟨c, hi, hc⟩ := Option.bind_eq_some_iff.mp hp
      have hscopes : (n.viewAtChild v i).scopes.isTopLevel = false := by
        rw [viewAtChild, ScopeStack.isTopLevel_advance]
        split
        · rfl
        · exact hv
      have hpending : (n.viewAtChild v i).pending = v.pending := by
        rw [viewAtChild]
        cases n.declaredName? <;> simp [hv]
      rw [viewAt_cons hi, ih hc hscopes, hpending]

/-- **Pending declaration of a view**: outside all blocks it is the innermost declaration with the
position in its initializer. -/
theorem pending_viewAt {n m : Node} {p : Position} (hp : n.at? p = some m) {v : View}
    (hv : v.scopes.isTopLevel = true) :
    (n.viewAt v p).pending = ((n.pendingAt? p).map (·.2.name)).or v.pending := by
  induction p generalizing n v with
  | nil => simp [viewAt, pendingAt?]
  | cons i p ih =>
      obtain ⟨c, hi, hc⟩ := Option.bind_eq_some_iff.mp hp
      rw [viewAt_cons hi, pendingAt?_cons p hi]
      cases hblock : n.isBlock with
      | true =>
          have hscopes : (n.viewAtChild v i).scopes.isTopLevel = false := by
            rw [viewAtChild, ScopeStack.isTopLevel_advance, hblock]
            rfl
          rw [pending_viewAt_of_not_isTopLevel hc hscopes, viewAtChild,
            declaredName?_of_isBlock hblock]
          rfl
      | false =>
          have hscopes : (n.viewAtChild v i).scopes.isTopLevel = true := by
            rw [viewAtChild, ScopeStack.isTopLevel_advance, hblock]
            exact hv
          rw [ih hc hscopes, viewAtChild]
          cases hname : n.declaredName? with
          | none => cases c.pendingAt? p <;> simp
          | some id => cases c.pendingAt? p <;> simp [hv]

end Node

end NameResolution
