import NameResolution.Proofs.Pass

/-!
# What the walk answers at a position

Whether an occurrence gets bound, and to what, depends on the tree and the position alone, not on
what is bound elsewhere. `Node.outcomeAt?` gives the answer for every role of an occurrence; it is
`none` where the walk has nothing to say.

The layers are

* the single steps of a walk, all of which settle an identifier with an outcome
  (`Walker.answer`, `Walker.fst_declareLocal`);
* the run: a walk fills each identifier with the outcome at its position, unless it has halted
  by then (`Node.exists_fill`);
* the outcome is a matter of the skeleton (`Node.outcomeAt?_of_skeleton`);
* the same for a pass over a unit (`SourceUnit.at?_resolveNow`).
-/

namespace NameResolution

/-! ## filling an identifier -/

namespace Identifier

/-- The identifier after the walk has settled it: a binding fills an empty place. -/
def fill (id : Identifier) : Option (Except Cause Binding) → Identifier
  | some (.ok b) => if id.isBound then id else { id with binding := some b }
  | _ => id

@[simp] theorem fill_none (id : Identifier) : id.fill none = id := rfl

@[simp] theorem fill_error (id : Identifier) (cause : Cause) :
    id.fill (some (.error cause)) = id := rfl

/-- An identifier without a binding is filled with the binding found. -/
theorem fill_ok {id : Identifier} (h : id.binding = none) (b : Binding) :
    id.fill (some (.ok b)) = { id with binding := some b } := by
  simp [fill, isBound, h]

theorem fill_of_isBound {id : Identifier} (h : id.isBound = true)
    (outcome : Option (Except Cause Binding)) : id.fill outcome = id := by
  rcases outcome with _ | _ | b
  · rfl
  · rfl
  · simp [fill, h]

/-- Filling changes an identifier only by binding it. -/
theorem fill_eq_or_isBound (id : Identifier) (outcome : Option (Except Cause Binding)) :
    id.fill outcome = id ∨ (id.fill outcome).isBound = true := by
  rcases outcome with _ | _ | b
  · exact .inl rfl
  · exact .inl rfl
  · cases h : id.binding with
    | none => exact .inr (by rw [fill_ok h]; rfl)
    | some other => exact .inl (fill_of_isBound (by simp [isBound, h]) _)

/-- What is filled once stays as it is. -/
theorem fill_fill (id : Identifier) (outcome : Option (Except Cause Binding)) :
    (id.fill outcome).fill outcome = id.fill outcome := by
  rcases id.fill_eq_or_isBound outcome with h | h
  · rw [h, h]
  · exact fill_of_isBound h outcome

/-- Filling changes nothing but the binding. -/
@[simp] theorem unbound_fill (id : Identifier) (outcome : Option (Except Cause Binding)) :
    (id.fill outcome).unbound = id.unbound := by
  rcases outcome with _ | _ | b
  · rfl
  · rfl
  · simp only [fill]
    split <;> rfl

/-- A bound identifier cannot be bound again. -/
theorem bind_of_isBound {id : Identifier} (h : id.isBound = true) (b : Binding) :
    id.bind b = .error (.alreadyBound id.info.location id.name) := by
  obtain ⟨other, hother⟩ := Option.isSome_iff_exists.mp h
  rw [bind, hother]
  rfl

end Identifier

/-! ## one step -/

namespace WalkContext

/-- What the walk says to the name of a declaration outside all blocks. It says nothing if the table
has another declaration of the name. -/
def resolveDeclared? (cx : WalkContext) (id : Identifier) : Option (Except Cause Binding) :=
  match cx.table.declaration? id.name with
  | some location =>
    if location = id.info.location then some (.ok (.inModule cx.path id.name location)) else none
  | none => some (.error (.unknownIdentifier id.name))

/-- What the walk says to the name of a declaration in a block. -/
def resolveLocal (cx : WalkContext) (scopes : ScopeStack) (id : Identifier) :
    Except Cause Binding :=
  match (scopes.declare id.name id.info.location).1 with
  | .ok scope => .ok (.inScope scope cx.path id.name id.info.location)
  | .error previous => .error (.duplicateDeclaration id.name previous)

/-- What the walk says to a declared name when it has these scopes open. -/
def declare? (cx : WalkContext) (scopes : ScopeStack) (id : Identifier) :
    Option (Except Cause Binding) :=
  if scopes.isTopLevel then cx.resolveDeclared? id else some (cx.resolveLocal scopes id)

end WalkContext

namespace Walker

/-- Settles an identifier with an outcome, if there is one, unless the identifier is bound or the
walk has halted. -/
def answer (cx : WalkContext) (w : Walker) (id : Identifier)
    (outcome : Option (Except Cause Binding)) : Identifier × Walker :=
  if w.halted cx || id.isBound then (id, w) else outcome.elim (id, w) (w.settle id)

theorem useName_eq_answer (cx : WalkContext) (pending : Option String) (w : Walker)
    (id : Identifier) :
    w.useName cx pending id = w.answer cx id (some (cx.resolve pending w.scopes id)) := rfl

theorem exportName_eq_answer (cx : WalkContext) (w : Walker) (id : Identifier) :
    w.exportName cx id = w.answer cx id (some (cx.resolveExport id)) := rfl

/-- As long as the walk goes on, declaring a name at the top level is answering it. -/
theorem declareTopLevel_eq_answer {cx : WalkContext} {w : Walker} (hw : w.halted cx = false)
    (id : Identifier) : w.declareTopLevel cx id = w.answer cx id (cx.resolveDeclared? id) := by
  unfold declareTopLevel answer WalkContext.resolveDeclared?
  rw [hw, Bool.false_or]
  cases id.isBound with
  | true => rfl
  | false =>
      rw [if_neg Bool.false_ne_true, if_neg Bool.false_ne_true]
      cases cx.table.declaration? id.name with
      | none => rfl
      | some location => by_cases hloc : location = id.info.location <;> simp [hloc, settle]

/-- Settling an identifier fills it. -/
theorem fst_settle (w : Walker) (id : Identifier) (outcome : Except Cause Binding) :
    (w.settle id outcome).1 = id.fill (some outcome) := by
  cases outcome with
  | error cause => rfl
  | ok b =>
      show (w.bind id b).1 = _
      cases h : id.binding with
      | none => rw [bind, Identifier.bind_of_binding h, Identifier.fill_ok h]
      | some other =>
          have hbound : id.isBound = true := by simp [Identifier.isBound, h]
          rw [bind, Identifier.bind_of_isBound hbound, Identifier.fill_of_isBound hbound]

/-- After the walk has halted, identifiers are passed over. -/
theorem answer_of_halted {cx : WalkContext} {w : Walker} (h : w.halted cx = true)
    (id : Identifier) (outcome : Option (Except Cause Binding)) :
    w.answer cx id outcome = (id, w) := by
  rw [answer, h, Bool.true_or, if_pos rfl]

/-- Bound identifiers are passed over. -/
theorem answer_of_isBound {id : Identifier} (h : id.isBound = true) (cx : WalkContext)
    (w : Walker) (outcome : Option (Except Cause Binding)) :
    w.answer cx id outcome = (id, w) := by
  rw [answer, h, Bool.or_true, if_pos rfl]

/-- A walk that has not halted fills the identifier with the outcome. -/
theorem fst_answer {cx : WalkContext} {w : Walker} (hw : w.halted cx = false) (id : Identifier)
    (outcome : Option (Except Cause Binding)) :
    (w.answer cx id outcome).1 = id.fill outcome := by
  cases hbound : id.isBound with
  | true => rw [answer_of_isBound hbound, Identifier.fill_of_isBound hbound]
  | false =>
      rw [answer, hw, hbound, Bool.false_or, if_neg Bool.false_ne_true]
      cases outcome with
      | none => rfl
      | some outcome => exact fst_settle w id outcome

/-- A name that is declared in a block is filled with what the block makes of it. -/
theorem fst_declareLocal (cx : WalkContext) (w : Walker) (id : Identifier) :
    (w.declareLocal cx id).1 = id.fill (some (cx.resolveLocal w.scopes id)) := by
  unfold declareLocal WalkContext.resolveLocal
  obtain ⟨outcome, scopes⟩ := w.scopes.declare id.name id.info.location
  cases outcome with
  | error previous => rfl
  | ok scope => exact fst_settle { w with scopes } id (.ok _)

end Walker

/-! ## the outcome at a position -/

namespace Node

/-- What the walk sees when it is through with the children of the node at a position. -/
def endView (n : Node) (d : Position) : View :=
  (n.at? d).elim (n.startView d) fun m => m.viewAtChild (n.startView d) m.children.length

/-- What the walk says to the occurrence `id` at a position. The name of a declaration is its first
child, but the walk comes to it last. -/
def outcomeAt? (cx : WalkContext) (n : Node) (p : Position) (id : Identifier) :
    Option (Except Cause Binding) :=
  match n.roleAt p with
  | .use => some (cx.resolve (n.startView p).pending (n.startView p).scopes id)
  | .declared => cx.declare? (n.endView p.dropLast).scopes id
  | .imported => none
  | .exported => some (cx.resolveExport id)

/-- At the end of a declaration the scopes are those after its initializer. -/
theorem scopes_endView_varDecl {n : Node} {d : Position} {info : NodeInfo} {id : Identifier}
    {init : Option Node} {isConst : Bool} (hd : n.at? d = some (.varDecl info id init isConst)) :
    (n.endView d).scopes = (n.startView d).scopes.advance ((localsOption init).map (·.2))
      (blocksOption init).length := by
  rw [endView, hd, Option.elim_some, viewAtChild, List.take_length]
  cases init with
  | none => simp [isBlock, children, localNames, locals, localsOption, blocksAll, blocks,
      blocksOption]
  | some m => simp [isBlock, children, localNames, locals, localsOption, blocksAll, blocks,
      blocksOption]

/-- The name of a declaration is filled with the outcome, unless the walk has halted by then. -/
theorem exists_fill_declared {n : Node} {d : Position} {info : NodeInfo} {id : Identifier}
    {init : Option Node} {isConst : Bool} (hd : n.at? d = some (.varDecl info id init isConst))
    (cx : WalkContext) :
    ∃ after, (n.walk cx none {}).1.at? (d ++ [0]) = some (.identifier after) ∧
      (after = id.fill (cx.declare? (n.endView d).scopes id) ∨
        after = id ∧ (n.walk cx none {}).2.halted cx = true) := by
  have hchild : (Node.varDecl info id init isConst).children[0]? = some (.identifier id) := rfl
  obtain ⟨pending, w, hreached⟩ := exists_reached hd (roleAt_of_child hd hchild) cx none {}
  have hat := at?_concat hreached.node 0
  have htrace := hreached.trace
  cases hw : w.halted cx with
  | true =>
      rw [walk_of_halted hw] at hat htrace
      exact ⟨id, hat, .inr ⟨rfl, Walker.halted_of_suffix htrace hw⟩⟩
  | false =>
      have hview : View.mk w.scopes pending = n.startView d := hreached.view hw
      have hscopes : (n.endView d).scopes =
          w.scopes.advance ((localsOption init).map (·.2)) (blocksOption init).length := by
        rw [scopes_endView_varDecl hd, ← hview]
      have htop : (n.endView d).scopes.isTopLevel = w.scopes.isTopLevel := by
        rw [hscopes, ScopeStack.isTopLevel_advance]
      obtain ⟨r, hr⟩ : ∃ r, r = walkOption cx
          (if w.scopes.isTopLevel then some id.name else pending) init w := ⟨_, rfl⟩
      rcases walk_varDecl hw pending info id init isConst hr with
        ⟨hhalt, hwalk⟩ | ⟨hhalt, houter, hwalk⟩ | ⟨hhalt, houter, hwalk⟩
      · rw [hwalk] at hat htrace
        exact ⟨id, hat, .inr ⟨rfl, Walker.halted_of_suffix htrace hhalt⟩⟩
      · rw [hwalk] at hat
        refine ⟨_, hat, .inl ?_⟩
        rw [WalkContext.declare?, htop, houter, if_pos rfl,
          Walker.declareTopLevel_eq_answer hhalt, Walker.fst_answer hhalt]
      · rw [hwalk] at hat
        refine ⟨_, hat, .inl ?_⟩
        have hinit : r.2.scopes = (n.endView d).scopes := by
          rw [hr] at hhalt ⊢
          rw [scopes_walkOption cx _ init w hhalt, hscopes]
        rw [WalkContext.declare?, htop, houter, if_neg Bool.false_ne_true,
          Walker.fst_declareLocal, hinit]

/-- **Outcomes**: the walk fills each identifier with the outcome at its position, unless it has
halted by then. -/
theorem exists_fill {n : Node} {p : Position} {id : Identifier}
    (hp : n.at? p = some (.identifier id)) (cx : WalkContext) :
    ∃ after, (n.walk cx none {}).1.at? p = some (.identifier after) ∧
      (after = id.fill (n.outcomeAt? cx p id) ∨
        after = id ∧ (n.walk cx none {}).2.halted cx = true) := by
  cases hrole : n.roleAt p with
  | use =>
      obtain ⟨w, hafter, htrace, hscopes⟩ := exists_useName hp hrole cx
      rw [Walker.useName_eq_answer] at hafter htrace
      refine ⟨_, hafter, ?_⟩
      cases hw : w.halted cx with
      | true =>
          rw [Walker.answer_of_halted hw] at htrace ⊢
          exact .inr ⟨rfl, Walker.halted_of_suffix htrace hw⟩
      | false =>
          left
          rw [Walker.fst_answer hw, outcomeAt?, hrole, hscopes hw]
  | declared =>
      obtain ⟨d, info, init, isConst, rfl, hd⟩ := varDecl_of_roleAt hp hrole
      have hfill := exists_fill_declared hd cx
      rwa [outcomeAt?, hrole, List.dropLast_concat]
  | imported =>
      obtain ⟨after, hafter, hfate⟩ := fate hp cx
      refine ⟨after, hafter, .inl ?_⟩
      rw [outcomeAt?, hrole, Identifier.fill_none]
      exact hfate.eq_of_imported hrole
  | exported =>
      obtain ⟨q, i, info, names, rfl, hq, hi⟩ := exportDecl_of_roleAt hp hrole
      have hchild : (Node.exportDecl info names).children[i]? = some (.identifier id) := by
        simp [children, hi]
      obtain ⟨pending, w, hreached⟩ := exists_reached hq (roleAt_of_child hq hchild) cx none {}
      obtain ⟨w', hafter, htrace⟩ := exists_exportName hi cx w
      rw [Walker.exportName_eq_answer] at hafter htrace
      have hat : (n.walk cx none {}).1.at? (q ++ [i]) =
          some (.identifier (w'.answer cx id (some (cx.resolveExport id))).1) := by
        rw [at?_concat hreached.node i, Node.walk, children, List.getElem?_map, hafter]
        rfl
      refine ⟨_, hat, ?_⟩
      cases hw : w'.halted cx with
      | true =>
          rw [Walker.answer_of_halted hw] at htrace ⊢
          exact .inr ⟨rfl, Walker.halted_of_suffix (htrace.trans hreached.trace) hw⟩
      | false =>
          left
          rw [Walker.fst_answer hw, outcomeAt?, hrole]

/-- A walk that does not stop at a failure fills every identifier. -/
theorem at?_walk {n : Node} {p : Position} {id : Identifier}
    (hp : n.at? p = some (.identifier id)) {cx : WalkContext} (hstop : cx.stopAtFirst = false) :
    (n.walk cx none {}).1.at? p = some (.identifier (id.fill (n.outcomeAt? cx p id))) := by
  obtain ⟨after, hafter, rfl | ⟨-, hhalted⟩⟩ := exists_fill hp cx
  · exact hafter
  · rw [Walker.halted_of_going hstop] at hhalted
    cases hhalted

end Node

/-! ## outcomes and skeletons -/

theorem Scope.addAll_map_unbound (s : Scope) (ids : List Identifier) :
    s.addAll (ids.map (·.unbound)) = s.addAll ids := by
  rw [addAll, List.foldl_map]
  rfl

/-- Bindings play no part in how a stack advances. -/
theorem ScopeStack.advance_map_unbound (s : ScopeStack) (ids : List Identifier) (blocks : Nat) :
    s.advance (ids.map (·.unbound)) blocks = s.advance ids blocks := by
  obtain ⟨scopes, nextId⟩ := s
  cases scopes <;> simp [advance, Scope.addAll_map_unbound]

namespace Node

mutual

/-- The skeleton declares the same names outside its blocks. -/
theorem localNames_skeleton (n : Node) :
    n.skeleton.localNames = n.localNames.map (·.unbound) := by
  cases n with
  | varDecl _ _ init _ =>
      have hinit := localNamesOption_skeleton init
      simp only [localNames, skeleton, locals, List.map_append] at hinit ⊢
      rw [hinit]
      rfl
  | sequence _ _ items => exact localNamesAll_skeleton items
  | unary _ _ operand =>
      have hoperand := localNames_skeleton operand
      simpa [localNames, skeleton, locals] using hoperand
  | inOf _ left right _ =>
      have hleft := localNames_skeleton left
      have hright := localNames_skeleton right
      simp only [localNames, skeleton, locals, List.map_append, map_snd_below] at hleft hright ⊢
      rw [hleft, hright]
  | _ => rfl

/-- Bindings play no part in which local names a list of nodes has. -/
theorem localNamesAll_skeleton (ns : List Node) :
    localNamesAll (skeletonAll ns) = (localNamesAll ns).map (·.unbound) := by
  cases ns with
  | nil => rfl
  | cons n ns =>
      rw [skeletonAll, localNamesAll_cons, localNamesAll_cons, List.map_append,
        localNames_skeleton n, localNamesAll_skeleton ns]

theorem localNamesOption_skeleton (init : Option Node) :
    (localsOption (skeletonOption init)).map (·.2) =
      ((localsOption init).map (·.2)).map (·.unbound) := by
  cases init with
  | none => rfl
  | some n =>
      have hn := localNames_skeleton n
      rw [skeletonOption, localsOption, localsOption, map_snd_below, map_snd_below]
      exact hn

end

/-- Bindings play no part in what a child sees. -/
theorem viewAtChild_skeleton (n : Node) (v : View) (i : Nat) :
    n.skeleton.viewAtChild v i = n.viewAtChild v i := by
  have hname : (n.skeleton.declaredName?).map (·.name) = (n.declaredName?).map (·.name) := by
    rw [declaredName?_skeleton, Option.map_map]
    rfl
  have hpending : (n.skeleton.viewAtChild v i).pending = (n.viewAtChild v i).pending := by
    simp only [viewAtChild]
    cases hn : n.declaredName? <;> cases hs : n.skeleton.declaredName? <;> simp_all
  have hscopes : (n.skeleton.viewAtChild v i).scopes = (n.viewAtChild v i).scopes := by
    have htake : n.skeleton.children.take i = skeletonAll (n.children.take i) := by
      rw [children_skeleton, skeletonAll_eq_map, List.map_take]
    rw [viewAtChild, viewAtChild, isBlock_skeleton, htake, localNamesAll_skeleton,
      blocksAll_skeleton, ScopeStack.advance_map_unbound]
  calc n.skeleton.viewAtChild v i
      = ⟨(n.skeleton.viewAtChild v i).scopes, (n.skeleton.viewAtChild v i).pending⟩ := rfl
    _ = ⟨(n.viewAtChild v i).scopes, (n.viewAtChild v i).pending⟩ := by rw [hscopes, hpending]
    _ = n.viewAtChild v i := rfl

/-- What the walk sees at a position is a matter of the skeleton. -/
theorem viewAt_skeleton (n : Node) (v : View) (p : Position) :
    n.skeleton.viewAt v p = n.viewAt v p := by
  induction p generalizing n v with
  | nil => rfl
  | cons i p ih =>
      rw [viewAt, viewAt, children_skeleton, List.getElem?_map, viewAtChild_skeleton]
      cases n.children[i]? with
      | none => rfl
      | some c => exact ih c _

/-- Bindings play no part in what is seen behind the last child. -/
theorem endView_skeleton (n : Node) (d : Position) : n.skeleton.endView d = n.endView d := by
  rw [endView, endView, startView, viewAt_skeleton, at?_skeleton]
  cases n.at? d with
  | none => rfl
  | some m =>
      rw [Option.map_some, Option.elim_some, Option.elim_some, viewAtChild_skeleton,
        children_skeleton, List.length_map]
      rfl

/-- Bindings play no part in the outcome at a position. -/
theorem outcomeAt?_skeleton (cx : WalkContext) (n : Node) (p : Position) (id : Identifier) :
    n.skeleton.outcomeAt? cx p id.unbound = n.outcomeAt? cx p id := by
  rw [outcomeAt?, outcomeAt?, roleAt_skeleton, endView_skeleton, startView, viewAt_skeleton]
  cases n.roleAt p <;> rfl

/-- **Outcomes and bindings**: the outcome at a position does not depend on what is bound. -/
theorem outcomeAt?_of_skeleton {n m : Node} (h : n.skeleton = m.skeleton) {id id' : Identifier}
    (hid : id.unbound = id'.unbound) (cx : WalkContext) (p : Position) :
    n.outcomeAt? cx p id = m.outcomeAt? cx p id' := by
  rw [← outcomeAt?_skeleton, h, hid, outcomeAt?_skeleton]

end Node

/-! ## outcomes in a pass -/

namespace SourceUnit

/-- At a name of a top-level import, a pass leaves what the import makes of the name. -/
theorem at?_resolveNow_of_importsAt {u : SourceUnit} {p : Position} {i : Import} {id : Identifier}
    (hi : u.ImportsAt p i) (hp : u.root.at? p = some (.identifier id)) (config : Config)
    (tables : Tables) :
    (u.resolveNow config tables).unit.root.at? p =
      some (.identifier (i.bindName tables id)) := by
  have hbound := at?_bindImports_of_importsAt hi hp tables
  obtain ⟨after, hafter, hfate⟩ := Node.fate hbound (u.walkContext config tables)
  have hrole : (u.bindImports tables).root.roleAt p = .imported := by
    rw [roleAt_of_skeleton (skeleton_bindImports tables u), roleAt_of_importsAt hi]
  rw [walk_root, hfate.eq_of_imported hrole] at hafter
  exact hafter

/-- A pass that does not stop at a failure fills every identifier with the outcome at its position,
except for imported names at the top level. -/
theorem at?_resolveNow {u : SourceUnit} {p : Position} {id : Identifier}
    (hp : u.root.at? p = some (.identifier id)) (hnot : ∀ i, ¬ u.ImportsAt p i) {config : Config}
    (hstop : config.stopAtFirstUnresolved = false) (tables : Tables) :
    (u.resolveNow config tables).unit.root.at? p = some (.identifier
      (id.fill (u.root.outcomeAt? (u.walkContext config tables) p id))) := by
  have hcontext : (u.walkContext config tables).stopAtFirst = false := hstop
  have hafter := Node.at?_walk (at?_bindImports hp hnot tables) hcontext
  have hskeleton : (u.bindImports tables).root.skeleton = u.root.skeleton := by
    rw [← root_skeleton, skeleton_bindImports, root_skeleton]
  rw [walk_root, Node.outcomeAt?_of_skeleton hskeleton rfl] at hafter
  exact hafter

end SourceUnit

end NameResolution
