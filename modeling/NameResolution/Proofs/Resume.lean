import NameResolution.Proofs.Outcome

/-!
# Walking a tree that is partly bound

A walk may come to a tree in which an earlier walk has bound some identifiers. Identifiers that are
bound are passed over, but the names of declarations still enter their scopes, so the later walk
sees the same scopes and finds the same failures as a walk over the unbound tree.

Two walks are compared by `Walker.Agrees`: the same scopes are open and the same failures have been
found. Three trees are compared position by position by `Node.Pointwise`: the tree before, the tree
now and the tree that the walk would have made of the one before.

Main statements:

* `Node.walk_resume`: where every identifier that is bound by now would have been bound, the walk
  finds the same failures; where it would have been bound in the same way, the tree in the end is
  the same;
* `Node.walk_of_between`: the same for the walk of a whole tree.
-/

namespace NameResolution

/-! ## walks that agree -/

namespace Walker

/-- Two walks have the same scopes open and have found the same failures. -/
structure Agrees (w v : Walker) : Prop where
  scopes : w.scopes = v.scopes
  failures : w.failures = v.failures

/-- A step of the walk adds its failure, if it has one. -/
theorem failures_note (w : Walker) (step : WalkStep) :
    (w.note step).failures = w.failures ++ step.failure?.toList := by
  rw [failures, steps_note, List.filterMap_append, failures]
  cases h : step.failure? <;> simp [h]

namespace Agrees

variable {cx : WalkContext} {w v : Walker}

theorem refl (w : Walker) : w.Agrees w := ⟨rfl, rfl⟩

theorem symm (h : w.Agrees v) : v.Agrees w := ⟨h.scopes.symm, h.failures.symm⟩

theorem trans {x : Walker} (h : w.Agrees v) (h' : v.Agrees x) : w.Agrees x :=
  ⟨h.scopes.trans h'.scopes, h.failures.trans h'.failures⟩

/-- Walks that agree halt together. -/
theorem halted (h : w.Agrees v) (cx : WalkContext) : w.halted cx = v.halted cx := by
  rw [halted_eq, halted_eq, h.failures]

/-- Steps with the same failure keep the agreement. -/
theorem note (h : w.Agrees v) {step other : WalkStep} (hstep : step.failure? = other.failure?) :
    (w.note step).Agrees (v.note other) := by
  refine ⟨h.scopes, ?_⟩
  rw [failures_note, failures_note, h.failures, hstep]

/-- A step without a failure keeps the agreement. -/
theorem note_left (h : w.Agrees v) {step : WalkStep} (hstep : step.failure? = none) :
    (w.note step).Agrees v := by
  refine ⟨h.scopes, ?_⟩
  rw [failures_note, h.failures, hstep, Option.toList_none, List.append_nil]

theorem enterBlock (h : w.Agrees v) : w.enterBlock.Agrees v.enterBlock :=
  ⟨congrArg (·.push.2) h.scopes, h.failures⟩

theorem leaveBlock (h : w.Agrees v) : w.leaveBlock.Agrees v.leaveBlock :=
  ⟨congrArg ScopeStack.pop h.scopes, h.failures⟩

end Agrees

/-! ## one step on a bound identifier -/

/-- Binding an identifier keeps the agreement with the walk before. -/
theorem agrees_bind (w : Walker) (id : Identifier) (b : Binding) : (w.bind id b).2.Agrees w := by
  unfold bind
  split
  · exact (Agrees.refl w).note_left rfl
  · exact (Agrees.refl w).note_left rfl

theorem Agrees.settle {w v : Walker} (h : w.Agrees v) (id : Identifier)
    (outcome : Except Cause Binding) :
    (w.settle id outcome).2.Agrees (v.settle id outcome).2 := by
  cases outcome with
  | ok b => exact (agrees_bind w id b).trans (h.trans (agrees_bind v id b).symm)
  | error cause => exact h.note rfl

/-- Walks that agree still do so after answering the same identifier. -/
theorem Agrees.answer {cx : WalkContext} {w v : Walker} (h : w.Agrees v) (id : Identifier)
    (outcome : Option (Except Cause Binding)) :
    (w.answer cx id outcome).2.Agrees (v.answer cx id outcome).2 := by
  rw [Walker.answer, Walker.answer, h.halted cx]
  split
  · exact h
  · cases outcome with
    | none => exact h
    | some outcome => exact h.settle id outcome

/-- A step that leaves an identifier bound finds no failure. -/
theorem agrees_answer_of_isBound {cx : WalkContext} {w : Walker} {id : Identifier}
    {outcome : Option (Except Cause Binding)} (h : (w.answer cx id outcome).1.isBound = true) :
    (w.answer cx id outcome).2.Agrees w := by
  unfold answer at h ⊢
  split
  · exact .refl w
  · next hopen =>
    rw [if_neg hopen] at h
    rcases outcome with _ | cause | b
    · exact .refl w
    · have hbound : id.isBound = true := h
      simp [hbound] at hopen
    · exact agrees_bind w id b

end Walker

namespace Identifier

/-- An identifier that a walk would have bound is bound by now, if it has changed at all. -/
def Underway (id now done : Identifier) : Prop :=
  now = id ∨ now.isBound = true ∧ done.isBound = true

/-- An identifier is as it was before or as it will be in the end. -/
def Between (id now done : Identifier) : Prop := now = id ∨ now = done

/-- Between an identifier and itself there is no other. -/
theorem Between.eq {id now : Identifier} (h : id.Between now id) : now = id :=
  or_self_iff.mp h

end Identifier

namespace Walker

variable {cx : WalkContext} {w v : Walker} {id now : Identifier}

/-- A step goes on in the same way from an identifier that is underway. -/
theorem Agrees.resume_answer (h : w.Agrees v) {outcome : Option (Except Cause Binding)}
    (hid : id.Underway now (v.answer cx id outcome).1) :
    (w.answer cx now outcome).2.Agrees (v.answer cx id outcome).2 := by
  rcases hid with rfl | ⟨hnow, hdone⟩
  · exact h.answer now outcome
  · rw [answer_of_isBound hnow]
    exact h.trans (agrees_answer_of_isBound hdone).symm

/-- An identifier that is as it was or as it will be ends the same when it is answered. -/
theorem Agrees.fst_resume_answer (h : w.Agrees v) {outcome : Option (Except Cause Binding)}
    (hid : id.Between now (v.answer cx id outcome).1) :
    (w.answer cx now outcome).1 = (v.answer cx id outcome).1 := by
  cases hv : v.halted cx with
  | true =>
      have hw : w.halted cx = true := (h.halted cx).trans hv
      rw [answer_of_halted hv] at hid ⊢
      rw [answer_of_halted hw]
      exact hid.eq
  | false =>
      have hw : w.halted cx = false := (h.halted cx).trans hv
      rw [fst_answer hv] at hid ⊢
      rw [fst_answer hw]
      rcases hid with rfl | rfl
      · rfl
      · exact Identifier.fill_fill id outcome

/-- A declared name enters the innermost scope whether it is bound or not. -/
theorem Agrees.resume_declareLocal (h : w.Agrees v) (hunbound : now.unbound = id.unbound) :
    (w.declareLocal cx now).2.Agrees (v.declareLocal cx id).2 := by
  have hname := Identifier.name_eq_of_unbound hunbound
  have hinfo := Identifier.info_eq_of_unbound hunbound
  unfold declareLocal
  rw [hname, hinfo, h.scopes]
  obtain ⟨outcome, scopes⟩ := v.scopes.declare id.name id.info.location
  have hagrees : Agrees { w with scopes } { v with scopes } := ⟨rfl, h.failures⟩
  cases outcome with
  | error previous => exact hagrees.note rfl
  | ok scope =>
      exact (agrees_bind _ now _).trans (hagrees.trans (agrees_bind _ id _).symm)

/-- A name that is as it was or as it will be ends the same when it is declared in a block. -/
theorem Agrees.fst_resume_declareLocal (h : w.Agrees v) (hunbound : now.unbound = id.unbound)
    (hid : id.Between now (v.declareLocal cx id).1) :
    (w.declareLocal cx now).1 = (v.declareLocal cx id).1 := by
  have houtcome : cx.resolveLocal w.scopes now = cx.resolveLocal v.scopes id := by
    rw [WalkContext.resolveLocal, Identifier.name_eq_of_unbound hunbound,
      Identifier.info_eq_of_unbound hunbound, h.scopes]
    rfl
  rw [fst_declareLocal] at hid
  rw [fst_declareLocal, fst_declareLocal, houtcome]
  rcases hid with rfl | rfl
  · rfl
  · exact Identifier.fill_fill id _

end Walker

/-- The meaning of an identifier does not depend on its binding. -/
theorem WalkContext.resolve_of_unbound {id now : Identifier} (h : now.unbound = id.unbound)
    (cx : WalkContext) (pending : Option String) (scopes : ScopeStack) :
    cx.resolve pending scopes now = cx.resolve pending scopes id := by
  have hresolve : ∀ id : Identifier,
      cx.resolve pending scopes id = cx.resolve pending scopes id.unbound := fun _ => rfl
  rw [hresolve now, h, ← hresolve]

/-- Bindings play no part in how a declared name is resolved. -/
theorem WalkContext.resolveDeclared?_of_unbound {id now : Identifier}
    (h : now.unbound = id.unbound) (cx : WalkContext) :
    cx.resolveDeclared? now = cx.resolveDeclared? id := by
  have hresolve : ∀ id : Identifier,
      cx.resolveDeclared? id = cx.resolveDeclared? id.unbound := fun _ => rfl
  rw [hresolve now, h, ← hresolve]

/-! ## three trees, position by position -/

namespace Node

/-- Wherever three trees have identifiers at one position, these are in the relation. -/
def Pointwise (R : Identifier → Identifier → Identifier → Prop) (a b c : Node) : Prop :=
  ∀ p x y z, a.at? p = some (.identifier x) → b.at? p = some (.identifier y) →
    c.at? p = some (.identifier z) → R x y z

/-- The same for lists of trees. -/
def PointwiseAll (R : Identifier → Identifier → Identifier → Prop) (as bs cs : List Node) : Prop :=
  ∀ (i : Nat) a b c, as[i]? = some a → bs[i]? = some b → cs[i]? = some c → Pointwise R a b c

section

variable {R : Identifier → Identifier → Identifier → Prop} {a b c : Node} {as bs cs : List Node}

/-- A relation between trees, position by position, holds between their children. -/
theorem Pointwise.children (h : Pointwise R a b c) :
    PointwiseAll R a.children b.children c.children := by
  intro i a' b' c' ha hb hc p x y z hx hy hz
  refine h (i :: p) x y z ?_ ?_ ?_
  · rw [at?_cons, ha, Option.bind_some, hx]
  · rw [at?_cons, hb, Option.bind_some, hy]
  · rw [at?_cons, hc, Option.bind_some, hz]

/-- At an identifier, a relation between trees holds of the identifiers themselves. -/
theorem Pointwise.leaf {x y z : Identifier}
    (h : Pointwise R (.identifier x) (.identifier y) (.identifier z)) : R x y z :=
  h [] x y z rfl rfl rfl

theorem PointwiseAll.head (h : PointwiseAll R (a :: as) (b :: bs) (c :: cs)) : Pointwise R a b c :=
  h 0 a b c rfl rfl rfl

theorem PointwiseAll.tail (h : PointwiseAll R (a :: as) (b :: bs) (c :: cs)) :
    PointwiseAll R as bs cs :=
  fun i => h (i + 1)

end

/-! ## a tree between a tree and itself -/

theorem eq_of_between_names {ids now : List Identifier}
    (hskeleton : now.map (·.unbound) = ids.map (·.unbound))
    (h : PointwiseAll Identifier.Between (ids.map .identifier) (now.map .identifier)
      (ids.map .identifier)) : now = ids := by
  induction ids generalizing now with
  | nil => simpa using hskeleton
  | cons id ids ih =>
      cases now with
      | nil => simp at hskeleton
      | cons first rest =>
          obtain ⟨-, htail⟩ := List.cons.inj hskeleton
          have hfirst : first = id := h.head.leaf.eq
          rw [hfirst, ih htail h.tail]

mutual

/-- A tree that has at each position the identifier of another tree is that tree. -/
theorem eq_of_between (n n' : Node) (hskeleton : n'.skeleton = n.skeleton)
    (h : Pointwise Identifier.Between n n' n) : n' = n := by
  cases n with
  | empty info => exact empty_of_skeleton hskeleton
  | literal info value => exact literal_of_skeleton hskeleton
  | type t => exact type_of_skeleton hskeleton
  | block info body =>
      obtain ⟨body', rfl, hbody⟩ := block_of_skeleton hskeleton
      rw [eq_of_betweenAll body body' hbody h.children]
  | varDecl info name init isConst =>
      obtain ⟨name', init', rfl, -, hinit⟩ := varDecl_of_skeleton hskeleton
      have hname : name' = name := h.children.head.leaf.eq
      rw [hname, eq_of_betweenOption init init' hinit h.children.tail]
  | importDecl info path names asName =>
      obtain ⟨names', rfl, hnames⟩ := importDecl_of_skeleton hskeleton
      rw [eq_of_between_names hnames h.children]
  | exportDecl info names =>
      obtain ⟨names', rfl, hnames⟩ := exportDecl_of_skeleton hskeleton
      rw [eq_of_between_names hnames h.children]
  | identifier id =>
      obtain ⟨id', rfl, -⟩ := identifier_of_skeleton hskeleton
      rw [h.leaf.eq]
  | sequence info form items =>
      obtain ⟨items', rfl, hitems⟩ := sequence_of_skeleton hskeleton
      rw [eq_of_betweenAll items items' hitems h.children]
  | unary info form operand =>
      obtain ⟨operand', rfl, hoperand⟩ := unary_of_skeleton hskeleton
      rw [eq_of_between operand operand' hoperand h.children.head]
  | inOf info left right valueOf =>
      obtain ⟨left', right', rfl, hleft, hright⟩ := inOf_of_skeleton hskeleton
      rw [eq_of_between left left' hleft h.children.head,
        eq_of_between right right' hright h.children.tail.head]

/-- Between a list of nodes and itself there is no other. -/
theorem eq_of_betweenAll (ns ns' : List Node) (hskeleton : skeletonAll ns' = skeletonAll ns)
    (h : PointwiseAll Identifier.Between ns ns' ns) : ns' = ns := by
  cases ns with
  | nil => exact nil_of_skeletonAll hskeleton
  | cons n ns =>
      obtain ⟨n', ns', rfl, hhead, htail⟩ := cons_of_skeletonAll hskeleton
      rw [eq_of_between n n' hhead h.head, eq_of_betweenAll ns ns' htail h.tail]

theorem eq_of_betweenOption (init init' : Option Node)
    (hskeleton : skeletonOption init' = skeletonOption init)
    (h : PointwiseAll Identifier.Between init.toList init'.toList init.toList) : init' = init := by
  cases init with
  | none => exact none_of_skeletonOption hskeleton
  | some n =>
      obtain ⟨n', rfl, hn⟩ := some_of_skeletonOption hskeleton
      rw [eq_of_between n n' hn h.head]

end

/-! ## the walk of a tree that is partly bound -/

/-- The names of an export, some of which are bound by now: the walk agrees with the one over the
names as they were, and ends in the same names if each is as it was or as it will be. -/
theorem resume_exportNames {cx : WalkContext} {ids now : List Identifier} {w w' : Walker}
    (hskeleton : now.map (·.unbound) = ids.map (·.unbound)) (hw : w'.Agrees w)
    (h : PointwiseAll Identifier.Underway (ids.map .identifier) (now.map .identifier)
      ((w.exportNames cx ids).1.map .identifier)) :
    (w'.exportNames cx now).2.Agrees (w.exportNames cx ids).2 ∧
      (PointwiseAll Identifier.Between (ids.map .identifier) (now.map .identifier)
          ((w.exportNames cx ids).1.map .identifier) →
        (w'.exportNames cx now).1 = (w.exportNames cx ids).1) := by
  induction ids generalizing now w w' with
  | nil =>
      obtain rfl : now = [] := by simpa using hskeleton
      exact ⟨hw, fun _ => rfl⟩
  | cons id ids ih =>
      cases now with
      | nil => simp at hskeleton
      | cons first rest =>
          obtain ⟨hfirst, hrest⟩ := List.cons.inj hskeleton
          have houtcome : cx.resolveExport first = cx.resolveExport id := by
            rw [WalkContext.resolveExport, Identifier.name_eq_of_unbound hfirst]
            rfl
          have hanswer : w'.exportName cx first =
              w'.answer cx first (some (cx.resolveExport id)) := by
            rw [Walker.exportName_eq_answer, houtcome]
          have hstep : (w'.exportName cx first).2.Agrees (w.exportName cx id).2 := by
            rw [hanswer]
            exact hw.resume_answer h.head.leaf
          obtain ⟨hagrees, heq⟩ := ih hrest hstep h.tail
          refine ⟨hagrees, fun hbetween => ?_⟩
          have hhead : (w'.exportName cx first).1 = (w.exportName cx id).1 := by
            rw [hanswer]
            exact hw.fst_resume_answer hbetween.head.leaf
          rw [Walker.exportNames, Walker.exportNames, hhead, heq hbetween.tail]

/-- As long as it goes on, the walk through a block opens a scope and closes it. -/
theorem walk_block {cx : WalkContext} {w : Walker} (h : w.halted cx = false)
    (pending : Option String) (info : NodeInfo) (body : List Node) :
    (Node.block info body).walk cx pending w =
      (.block info (walkAll cx pending body w.enterBlock).1,
        (walkAll cx pending body w.enterBlock).2.leaveBlock) := by
  rw [Node.walk, if_neg (by simp [h])]

/-- Whatever the walk does to a declaration, it walks the initializer. -/
theorem exists_walk_varDecl {cx : WalkContext} {w : Walker} (h : w.halted cx = false)
    (pending : Option String) (info : NodeInfo) (name : Identifier) (init : Option Node)
    (isConst : Bool) :
    ∃ after, ((Node.varDecl info name init isConst).walk cx pending w).1 =
      .varDecl info after (walkOption cx
        (if w.scopes.isTopLevel then some name.name else pending) init w).1 isConst := by
  rcases walk_varDecl h pending info name init isConst rfl with
    ⟨-, hwalk⟩ | ⟨-, -, hwalk⟩ | ⟨-, -, hwalk⟩
  · exact ⟨_, congrArg Prod.fst hwalk⟩
  · exact ⟨_, congrArg Prod.fst hwalk⟩
  · exact ⟨_, congrArg Prod.fst hwalk⟩

/-- The name of a declaration, when the initializer has been walked. -/
theorem resume_varDecl {cx : WalkContext} {w w' : Walker} (h : w.halted cx = false)
    (hw : w'.Agrees w) (pending : Option String) (info : NodeInfo) {name now : Identifier}
    (hname : now.unbound = name.unbound) {init init' : Option Node} (isConst : Bool)
    {r r' : Option Node × Walker}
    (hr : r = walkOption cx (if w.scopes.isTopLevel then some name.name else pending) init w)
    (hr' : r' = walkOption cx (if w.scopes.isTopLevel then some name.name else pending) init' w')
    (hagrees : r'.2.Agrees r.2)
    (hunderway : Pointwise Identifier.Underway (.varDecl info name init isConst)
      (.varDecl info now init' isConst)
      ((Node.varDecl info name init isConst).walk cx pending w).1) :
    ((Node.varDecl info now init' isConst).walk cx pending w').2.Agrees
        ((Node.varDecl info name init isConst).walk cx pending w).2 ∧
      (r'.1 = r.1 → Pointwise Identifier.Between (.varDecl info name init isConst)
          (.varDecl info now init' isConst)
          ((Node.varDecl info name init isConst).walk cx pending w).1 →
        ((Node.varDecl info now init' isConst).walk cx pending w').1 =
          ((Node.varDecl info name init isConst).walk cx pending w).1) := by
  have h' : w'.halted cx = false := (hw.halted cx).trans h
  have hhalted : r'.2.halted cx = r.2.halted cx := hagrees.halted cx
  have htop : w'.scopes.isTopLevel = w.scopes.isTopLevel := by rw [hw.scopes]
  rw [← Identifier.name_eq_of_unbound hname, ← htop] at hr'
  -- Both walks take the same one of the three ways.
  rcases walk_varDecl h pending info name init isConst hr with
    ⟨hhalt, hwalk⟩ | ⟨hhalt, houter, hwalk⟩ | ⟨hhalt, houter, hwalk⟩
  · rcases walk_varDecl h' pending info now init' isConst hr' with
      ⟨-, hwalk'⟩ | ⟨hhalt', -, -⟩ | ⟨hhalt', -, -⟩
    · rw [hwalk, hwalk']
      refine ⟨hagrees, fun hinit hbetween => ?_⟩
      have hnow : now = name := hbetween.children.head.leaf.eq
      rw [hinit, hnow]
    · simp [hhalted, hhalt] at hhalt'
    · simp [hhalted, hhalt] at hhalt'
  · rcases walk_varDecl h' pending info now init' isConst hr' with
      ⟨hhalt', -⟩ | ⟨hhalt', -, hwalk'⟩ | ⟨-, houter', -⟩
    · simp [hhalted, hhalt] at hhalt'
    · rw [Walker.declareTopLevel_eq_answer hhalt] at hwalk
      rw [Walker.declareTopLevel_eq_answer hhalt',
        WalkContext.resolveDeclared?_of_unbound hname] at hwalk'
      rw [hwalk] at hunderway ⊢
      rw [hwalk']
      refine ⟨hagrees.resume_answer hunderway.children.head.leaf, fun hinit hbetween => ?_⟩
      rw [hinit, hagrees.fst_resume_answer hbetween.children.head.leaf]
    · simp [htop, houter] at houter'
  · rcases walk_varDecl h' pending info now init' isConst hr' with
      ⟨hhalt', -⟩ | ⟨-, houter', -⟩ | ⟨-, -, hwalk'⟩
    · simp [hhalted, hhalt] at hhalt'
    · simp [htop, houter] at houter'
    · rw [hwalk, hwalk']
      refine ⟨hagrees.resume_declareLocal hname, fun hinit hbetween => ?_⟩
      rw [hinit, hagrees.fst_resume_declareLocal hname hbetween.children.head.leaf]

mutual

/-- **Resuming**: over a tree in which some identifiers are bound that the walk would bind, the walk
goes on with the same scopes and finds the same failures. If they are bound as the walk would bind
them, it leaves the same tree. -/
theorem walk_resume {cx : WalkContext} (pending : Option String) (n n' : Node) {w w' : Walker}
    (hskeleton : n'.skeleton = n.skeleton) (hw : w'.Agrees w)
    (h : Pointwise Identifier.Underway n n' (n.walk cx pending w).1) :
    (n'.walk cx pending w').2.Agrees (n.walk cx pending w).2 ∧
      (Pointwise Identifier.Between n n' (n.walk cx pending w).1 →
        (n'.walk cx pending w').1 = (n.walk cx pending w).1) := by
  cases hhalted : w.halted cx with
  | true =>
      have hhalted' : w'.halted cx = true := (hw.halted cx).trans hhalted
      rw [walk_of_halted hhalted, walk_of_halted hhalted']
      exact ⟨hw, eq_of_between n n' hskeleton⟩
  | false =>
      have hhalted' : w'.halted cx = false := (hw.halted cx).trans hhalted
      cases n with
      | empty info =>
          obtain rfl := empty_of_skeleton hskeleton
          exact ⟨hw, fun _ => rfl⟩
      | literal info value =>
          obtain rfl := literal_of_skeleton hskeleton
          exact ⟨hw, fun _ => rfl⟩
      | type t =>
          obtain rfl := type_of_skeleton hskeleton
          exact ⟨hw, fun _ => rfl⟩
      | block info body =>
          obtain ⟨body', rfl, hbody⟩ := block_of_skeleton hskeleton
          rw [walk_block hhalted] at h ⊢
          rw [walk_block hhalted']
          obtain ⟨hagrees, heq⟩ :=
            walkAll_resume pending body body' hbody hw.enterBlock h.children
          refine ⟨hagrees.leaveBlock, fun hbetween => ?_⟩
          rw [heq hbetween.children]
      | varDecl info name init isConst =>
          obtain ⟨name', init', rfl, hname, hinit⟩ := varDecl_of_skeleton hskeleton
          obtain ⟨after, hafter⟩ := exists_walk_varDecl hhalted pending info name init isConst
          have hunderway := h
          rw [hafter] at hunderway
          obtain ⟨hagrees, heq⟩ := walkOption_resume
            (if w.scopes.isTopLevel then some name.name else pending) init init' hinit hw
            hunderway.children.tail
          obtain ⟨hwalk, hwalkeq⟩ :=
            resume_varDecl hhalted hw pending info hname isConst rfl rfl hagrees h
          refine ⟨hwalk, fun hbetween => hwalkeq ?_ hbetween⟩
          rw [hafter] at hbetween
          exact heq hbetween.children.tail
      | importDecl info path names asName =>
          -- The walk leaves the names of an import alone, in both trees.
          obtain ⟨names', rfl, hnames⟩ := importDecl_of_skeleton hskeleton
          exact ⟨hw, eq_of_between _ _ hskeleton⟩
      | exportDecl info names =>
          obtain ⟨names', rfl, hnames⟩ := exportDecl_of_skeleton hskeleton
          obtain ⟨hagrees, heq⟩ := resume_exportNames hnames hw h.children
          exact ⟨hagrees, fun hbetween =>
            congrArg (Node.exportDecl info) (heq hbetween.children)⟩
      | identifier id =>
          obtain ⟨id', rfl, hid⟩ := identifier_of_skeleton hskeleton
          have hanswer : w'.useName cx pending id' =
              w'.answer cx id' (some (cx.resolve pending w.scopes id)) := by
            rw [Walker.useName_eq_answer, hw.scopes, WalkContext.resolve_of_unbound hid]
          rw [Node.walk, Node.walk, hanswer]
          exact ⟨hw.resume_answer h.leaf, fun hbetween =>
            congrArg Node.identifier (hw.fst_resume_answer hbetween.leaf)⟩
      | sequence info form items =>
          obtain ⟨items', rfl, hitems⟩ := sequence_of_skeleton hskeleton
          obtain ⟨hagrees, heq⟩ := walkAll_resume pending items items' hitems hw h.children
          exact ⟨hagrees, fun hbetween =>
            congrArg (Node.sequence info form) (heq hbetween.children)⟩
      | unary info form operand =>
          obtain ⟨operand', rfl, hoperand⟩ := unary_of_skeleton hskeleton
          obtain ⟨hagrees, heq⟩ :=
            walk_resume pending operand operand' hoperand hw h.children.head
          exact ⟨hagrees, fun hbetween =>
            congrArg (Node.unary info form) (heq hbetween.children.head)⟩
      | inOf info left right valueOf =>
          obtain ⟨left', right', rfl, hleft, hright⟩ := inOf_of_skeleton hskeleton
          obtain ⟨hagrees, heq⟩ := walk_resume pending left left' hleft hw h.children.head
          obtain ⟨hagrees', heq'⟩ :=
            walk_resume pending right right' hright hagrees h.children.tail.head
          refine ⟨hagrees', fun hbetween => ?_⟩
          rw [Node.walk, Node.walk, heq hbetween.children.head,
            heq' hbetween.children.tail.head]

/-- The walk through a list of nodes, resumed. -/
theorem walkAll_resume {cx : WalkContext} (pending : Option String) (ns ns' : List Node)
    {w w' : Walker} (hskeleton : skeletonAll ns' = skeletonAll ns) (hw : w'.Agrees w)
    (h : PointwiseAll Identifier.Underway ns ns' (walkAll cx pending ns w).1) :
    (walkAll cx pending ns' w').2.Agrees (walkAll cx pending ns w).2 ∧
      (PointwiseAll Identifier.Between ns ns' (walkAll cx pending ns w).1 →
        (walkAll cx pending ns' w').1 = (walkAll cx pending ns w).1) := by
  cases ns with
  | nil =>
      obtain rfl := nil_of_skeletonAll hskeleton
      exact ⟨hw, fun _ => rfl⟩
  | cons n ns =>
      obtain ⟨n', ns', rfl, hhead, htail⟩ := cons_of_skeletonAll hskeleton
      obtain ⟨hagrees, heq⟩ := walk_resume pending n n' hhead hw h.head
      obtain ⟨hagrees', heq'⟩ := walkAll_resume pending ns ns' htail hagrees h.tail
      refine ⟨hagrees', fun hbetween => ?_⟩
      rw [walkAll, walkAll, heq hbetween.head, heq' hbetween.tail]

theorem walkOption_resume {cx : WalkContext} (pending : Option String) (init init' : Option Node)
    {w w' : Walker} (hskeleton : skeletonOption init' = skeletonOption init) (hw : w'.Agrees w)
    (h : PointwiseAll Identifier.Underway init.toList init'.toList
      (walkOption cx pending init w).1.toList) :
    (walkOption cx pending init' w').2.Agrees (walkOption cx pending init w).2 ∧
      (PointwiseAll Identifier.Between init.toList init'.toList
          (walkOption cx pending init w).1.toList →
        (walkOption cx pending init' w').1 = (walkOption cx pending init w).1) := by
  cases init with
  | none =>
      obtain rfl := none_of_skeletonOption hskeleton
      exact ⟨hw, fun _ => rfl⟩
  | some n =>
      obtain ⟨n', rfl, hn⟩ := some_of_skeletonOption hskeleton
      obtain ⟨hagrees, heq⟩ := walk_resume pending n n' hn hw h.head
      exact ⟨hagrees, fun hbetween => congrArg some (heq hbetween.head)⟩

end

/-- What the walk makes of an identifier is the identifier itself or bound. -/
theorem underway_of_between {n n' : Node} {cx : WalkContext}
    (h : Pointwise Identifier.Between n n' (n.walk cx none {}).1) :
    Pointwise Identifier.Underway n n' (n.walk cx none {}).1 := by
  intro p id now done hid hnow hdone
  rcases h p id now done hid hnow hdone with rfl | rfl
  · exact .inl rfl
  · obtain ⟨after, hafter, hfill⟩ := exists_fill hid cx
    obtain rfl : after = now := by
      rw [hdone] at hafter
      simpa using hafter.symm
    rcases hfill with hfill | ⟨hsame, -⟩
    · rcases id.fill_eq_or_isBound (n.outcomeAt? cx p id) with hsame | hbound
      · exact .inl (hfill.trans hsame)
      · rw [← hfill] at hbound
        exact .inr ⟨hbound, hbound⟩
    · exact .inl hsame

/-- A walk over a tree between the one before and the one after leads to the one after. -/
theorem walk_of_between {n n' : Node} (hskeleton : n'.skeleton = n.skeleton) {cx : WalkContext}
    (h : Pointwise Identifier.Between n n' (n.walk cx none {}).1) :
    (n'.walk cx none {}).1 = (n.walk cx none {}).1 ∧
      (n'.walk cx none {}).2.failures = (n.walk cx none {}).2.failures := by
  obtain ⟨hagrees, heq⟩ :=
    walk_resume none n n' hskeleton (.refl {}) (underway_of_between h)
  exact ⟨heq h, hagrees.failures⟩

end Node

end NameResolution
