import NameResolution.Proofs.Stopping

/-!
# The walk up to its first failure

A walk that stops at its first failure does what the walk that goes on does, as far as it gets. To
say how far that is, a walk is told occurrence by occurrence: each identifier is met once, in the
order of `Node.inWalkOrder`, and an `Encounter` says what it was before, which step was taken and
what it is afterwards. The encounters of the walk that stops are those of the other one up to the
first that fails, and from there on all identifiers are passed over (`Encounter.cut`).

The layers are

* one encounter (`Walker.exists_account_answer`, `Walker.exists_account_declareName`);
* two walks side by side, one step after another (`Walker.Truncates.andThen`), and through a whole
  tree (`Node.truncates_walk`);
* scopes: a walk closes what it opens, also when it stops inside of blocks
  (`Node.depth_walk`).

Main statement: `SourceUnit.stops_at_first_failure`.
-/

namespace NameResolution

/-! ## the order of the walk -/

namespace Node

mutual

/-- The identifiers of a tree in the order in which the walk comes to them. The name of a
declaration comes behind its initializer. -/
def inWalkOrder : Node → List Identifier
  | .empty _ | .literal .. | .type _ => []
  | .block _ body => inWalkOrderAll body
  | .varDecl _ name init _ => inWalkOrderOption init ++ [name]
  | .importDecl _ _ names _ => names
  | .exportDecl _ names => names
  | .identifier id => [id]
  | .sequence _ _ items => inWalkOrderAll items
  | .unary _ _ operand => operand.inWalkOrder
  | .inOf _ left right _ => left.inWalkOrder ++ right.inWalkOrder

/-- The identifiers of a list of trees in the order of the walk. -/
def inWalkOrderAll : List Node → List Identifier
  | [] => []
  | n :: ns => n.inWalkOrder ++ inWalkOrderAll ns

/-- The identifiers of a tree that may be absent. -/
def inWalkOrderOption : Option Node → List Identifier
  | none => []
  | some n => n.inWalkOrder

end

mutual

/-- The walk comes to every identifier once. -/
theorem perm_inWalkOrder (n : Node) : n.inWalkOrder.Perm n.identifiers := by
  cases n with
  | block _ body => exact perm_inWalkOrderAll body
  | varDecl _ name init _ =>
      have hinit := perm_inWalkOrderOption init
      exact (List.perm_append_singleton name _).trans (hinit.cons name)
  | sequence _ _ items => exact perm_inWalkOrderAll items
  | unary _ _ operand => exact perm_inWalkOrder operand
  | inOf _ left right _ => exact (perm_inWalkOrder left).append (perm_inWalkOrder right)
  | _ => exact .refl _

/-- Through a list of nodes, too, the walk comes to every identifier once. -/
theorem perm_inWalkOrderAll (ns : List Node) : (inWalkOrderAll ns).Perm (identifiersAll ns) := by
  cases ns with
  | nil => exact .refl _
  | cons n ns => exact (perm_inWalkOrder n).append (perm_inWalkOrderAll ns)

theorem perm_inWalkOrderOption (init : Option Node) :
    (inWalkOrderOption init).Perm (identifiersOption init) := by
  cases init with
  | none => exact .refl _
  | some n => exact perm_inWalkOrder n

end

end Node

/-- The identifiers of a unit in the order in which the walk comes to them. -/
def SourceUnit.inWalkOrder (u : SourceUnit) : List Identifier :=
  Node.inWalkOrderAll u.imports ++ Node.inWalkOrderAll u.nodes

/-- The walk comes to every identifier of a unit once. -/
theorem SourceUnit.perm_inWalkOrder (u : SourceUnit) : u.inWalkOrder.Perm u.identifiers := by
  have hsplit : u.identifiers = Node.identifiersAll u.imports ++ Node.identifiersAll u.nodes := by
    simp [identifiers, topLevel, Node.identifiersAll_eq_flatMap]
  rw [hsplit]
  exact (Node.perm_inWalkOrderAll u.imports).append (Node.perm_inWalkOrderAll u.nodes)

/-! ## encounters -/

/-- What a walk does at one occurrence of an identifier. -/
structure Encounter where
  before : Identifier
  /-- The step that the walk takes; none if it passes the occurrence over. -/
  step? : Option WalkStep
  after : Identifier

namespace Encounter

/-- The walk fails at the occurrence. -/
def fails (e : Encounter) : Bool := e.step?.any (·.failure?.isSome)

/-- The failure of the walk at the occurrence, if it fails there. -/
def failure? (e : Encounter) : Option Failure := e.step?.bind (·.failure?)

/-- An occurrence that the walk passes over. -/
def passing (id : Identifier) : Encounter := ⟨id, none, id⟩

/-- The step of an encounter says what becomes of the identifier. -/
inductive Faithful : Encounter → Prop where
  | bound {id : Identifier} (b : Binding) (hid : id.binding = none) :
      Faithful ⟨id, some (.bound id b), { id with binding := some b }⟩
  | kept {id : Identifier} (hid : id.isBound = true) :
      Faithful ⟨id, some (.kept (.alreadyBound id.info.location id.name)), id⟩
  | failed (id : Identifier) (cause : Cause) :
      Faithful ⟨id, some (.failed ⟨cause, id.info.location⟩), id⟩
  | passed (id : Identifier) : Faithful (passing id)

/-- The encounters of a walk that stops at its first failure; `halted` says that it has stopped
already. -/
def cut (halted : Bool) : List Encounter → List Encounter
  | [] => []
  | e :: es => if halted then passing e.before :: cut true es else e :: cut e.fails es

@[simp] theorem before_passing (id : Identifier) : (passing id).before = id := rfl

@[simp] theorem fails_passing (id : Identifier) : (passing id).fails = false := rfl

@[simp] theorem failure?_passing (id : Identifier) : (passing id).failure? = none := rfl

@[simp] theorem cut_nil (halted : Bool) : cut halted [] = [] := rfl

/-- After the walk has halted, everything is passed over. -/
@[simp] theorem cut_true (es : List Encounter) :
    cut true es = (es.map (·.before)).map passing := by
  induction es with
  | nil => rfl
  | cons e es ih => simp [cut, ih]

/-- Cutting two lists of encounters after the first failure in both. -/
theorem cut_append (halted : Bool) (es others : List Encounter) :
    cut halted (es ++ others) = cut halted es ++ cut (halted || es.any fails) others := by
  induction es generalizing halted with
  | nil => simp
  | cons e es ih => cases halted <;> simp [cut, ih]

/-- A cut keeps the first failure. -/
theorem any_fails_cut (halted : Bool) (es : List Encounter) :
    (cut halted es).any fails = (!halted && es.any fails) := by
  induction es generalizing halted with
  | nil => simp
  | cons e es ih => cases halted <;> cases h : e.fails <;> simp [cut, ih, h]

/-- A walk that stops does everything up to its first failure, and that too. -/
theorem cut_false (es : List Encounter) :
    cut false es = es.takeWhile (!·.fails) ++ (es.dropWhile (!·.fails)).take 1 ++
      ((es.dropWhile (!·.fails)).drop 1).map (passing ·.before) := by
  induction es with
  | nil => rfl
  | cons e es ih => cases h : e.fails <;> simp [cut, h, ih]

end Encounter

namespace Walker

/-! ## the account of a walk -/

/-- A failure has been found. -/
def hasFailed (w : Walker) : Bool := w.trace.any (·.failure?.isSome)

/-- The walk from `w` to `w'` has turned the identifiers `before` into `after`, with the encounters
`es`. -/
structure Account (w w' : Walker) (before after : List Identifier) (es : List Encounter) :
    Prop where
  faithful : ∀ e ∈ es, e.Faithful
  map_before : es.map (·.before) = before
  map_after : es.map (·.after) = after
  steps : w'.steps = w.steps ++ es.filterMap (·.step?)

namespace Account

variable {w w' w'' : Walker} {before after before' after' : List Identifier}
  {es es' : List Encounter}

/-- The accounts of two parts of a walk make up an account of both. -/
theorem append (h : w.Account w' before after es) (h' : w'.Account w'' before' after' es') :
    w.Account w'' (before ++ before') (after ++ after') (es ++ es') := by
  refine ⟨fun e he => ?_, ?_, ?_, ?_⟩
  · rcases List.mem_append.mp he with he | he
    · exact h.faithful e he
    · exact h'.faithful e he
  · rw [List.map_append, h.map_before, h'.map_before]
  · rw [List.map_append, h.map_after, h'.map_after]
  · rw [h'.steps, h.steps, List.filterMap_append, List.append_assoc]

/-- A walk that passes over the identifiers. -/
theorem of_passed (w : Walker) (ids : List Identifier) :
    w.Account w ids ids (ids.map Encounter.passing) := by
  refine ⟨fun e he => ?_, ?_, ?_, ?_⟩
  · obtain ⟨id, -, rfl⟩ := List.mem_map.mp he
    exact .passed id
  all_goals simp [Encounter.passing, Function.comp_def, List.filterMap_map]

/-- A walk that takes one step. -/
theorem of_note {e : Encounter} {step : WalkStep} (he : e.Faithful) (hstep : e.step? = some step)
    (w : Walker) : w.Account (w.note step) [e.before] [e.after] [e] := by
  refine ⟨fun other hother => ?_, rfl, rfl, ?_⟩
  · obtain rfl : other = e := by simpa using hother
    exact he
  · simp [hstep]

/-- The failures of a walk are those of its encounters, in their order. -/
theorem failures (h : w.Account w' before after es) :
    w'.failures = w.failures ++ es.filterMap (·.failure?) := by
  rw [Walker.failures, Walker.failures, h.steps, List.filterMap_append, List.filterMap_filterMap]
  rfl

/-- A walk has failed if it had before or fails in one of the encounters. -/
theorem hasFailed (h : w.Account w' before after es) :
    w'.hasFailed = (w.hasFailed || es.any Encounter.fails) := by
  have hsteps : ∀ v : Walker, v.hasFailed = v.steps.any (·.failure?.isSome) := by
    intro v
    rw [Walker.hasFailed, Walker.steps, List.any_reverse]
  have hes : (es.filterMap (·.step?)).any (·.failure?.isSome) = es.any Encounter.fails := by
    rw [List.any_filterMap]
    congr 1
  rw [hsteps, hsteps w, h.steps, List.any_append, hes]

end Account

/-! ## one encounter -/

theorem exists_account_bind (w : Walker) (id : Identifier) (b : Binding) :
    ∃ e, w.Account (w.bind id b).2 [id] [(w.bind id b).1] [e] := by
  cases h : id.binding with
  | none =>
      rw [bind, Identifier.bind_of_binding h]
      exact ⟨_, .of_note (.bound b h) rfl w⟩
  | some other =>
      have hbound : id.isBound = true := by simp [Identifier.isBound, h]
      rw [bind, Identifier.bind_of_isBound hbound]
      exact ⟨_, .of_note (.kept hbound) rfl w⟩

theorem exists_account_fail (w : Walker) (id : Identifier) (cause : Cause) :
    ∃ e, w.Account (w.fail cause id.info.location) [id] [id] [e] :=
  ⟨_, .of_note (.failed id cause) rfl w⟩

/-- Answering an identifier is one encounter. -/
theorem exists_account_answer (cx : WalkContext) (w : Walker) (id : Identifier)
    (outcome : Option (Except Cause Binding)) :
    ∃ e, w.Account (w.answer cx id outcome).2 [id] [(w.answer cx id outcome).1] [e] := by
  unfold answer
  split
  · exact ⟨_, .of_passed w [id]⟩
  · rcases outcome with _ | cause | b
    · exact ⟨_, .of_passed w [id]⟩
    · exact exists_account_fail w id cause
    · exact exists_account_bind w id b

theorem exists_account_declareLocal (cx : WalkContext) (w : Walker) (id : Identifier) :
    ∃ e, w.Account (w.declareLocal cx id).2 [id] [(w.declareLocal cx id).1] [e] := by
  unfold declareLocal
  split
  · next scope scopes _ =>
    obtain ⟨e, he⟩ := exists_account_bind { w with scopes } id
      (.inScope scope cx.path id.name id.info.location)
    exact ⟨e, he.faithful, he.map_before, he.map_after, he.steps⟩
  · next previous scopes _ =>
    obtain ⟨e, he⟩ := exists_account_fail { w with scopes } id
      (.duplicateDeclaration id.name previous)
    exact ⟨e, he.faithful, he.map_before, he.map_after, he.steps⟩

theorem exists_account_declareName (cx : WalkContext) (topLevel : Bool) (name : Identifier)
    (w : Walker) :
    ∃ e, w.Account (w.declareName cx topLevel name).2 [name]
      [(w.declareName cx topLevel name).1] [e] := by
  unfold declareName
  cases hw : w.halted cx with
  | true => exact ⟨_, .of_passed w [name]⟩
  | false =>
      cases topLevel with
      | true =>
          have hanswer := declareTopLevel_eq_answer hw name
          simp only [Bool.false_eq_true, if_false, if_true, hanswer]
          exact exists_account_answer cx w name _
      | false => exact exists_account_declareLocal cx w name

end Walker

/-! ## two walks side by side -/

/-- The same walk with the stop. -/
def WalkContext.stopping (cx : WalkContext) : WalkContext := { cx with stopAtFirst := true }

namespace Walker

/-- From the state `w` one walk goes on after a failure and gives `full`, the other stops and gives
`stopped`. Both come to the identifiers `before`, and the encounters of the second walk are those
of the first, cut off at the first failure. -/
def Truncates (w : Walker) (before : List Identifier) (full stopped : List Identifier × Walker) :
    Prop :=
  ∃ es, w.Account full.2 before full.1 es ∧
    w.Account stopped.2 before stopped.1 (Encounter.cut w.hasFailed es) ∧
    ((w.hasFailed || es.any Encounter.fails) = false → stopped.2 = full.2)

namespace Truncates

variable {w : Walker} {before before' : List Identifier} {full stopped : List Identifier × Walker}

/-- Identifiers that neither walk has anything to say to. -/
theorem of_passed (w : Walker) (ids : List Identifier) : w.Truncates ids (ids, w) (ids, w) := by
  have hcut : ∀ halted, Encounter.cut halted (ids.map .passing) = ids.map .passing := by
    induction ids with
    | nil => exact fun _ => rfl
    | cons id ids ih =>
        intro halted
        cases halted <;> simp [Encounter.cut, ih]
  refine ⟨_, .of_passed w ids, ?_, fun _ => rfl⟩
  rw [hcut]
  exact .of_passed w ids

/-- A step at one identifier that is not taken after a failure. -/
theorem of_step {id : Identifier} {full stopped : Identifier × Walker} {e : Encounter}
    (hfull : w.Account full.2 [id] [full.1] [e])
    (hstopped : stopped = if w.hasFailed then (id, w) else full) :
    w.Truncates [id] ([full.1], full.2) ([stopped.1], stopped.2) := by
  refine ⟨[e], hfull, ?_, ?_⟩
  · cases hw : w.hasFailed with
    | true =>
        rw [hstopped, hw, Encounter.cut_true, hfull.map_before]
        exact .of_passed w [id]
    | false =>
        rw [hstopped, hw]
        exact hfull
  · intro hclean
    have hw : w.hasFailed = false := by simp_all
    simp [hstopped, hw]

/-- One step after another. -/
theorem andThen (h : w.Truncates before full stopped)
    {next nextStopped : Walker → List Identifier × Walker}
    (hnext : ∀ v : Walker, v.Truncates before' (next v) (nextStopped v)) :
    w.Truncates (before ++ before') (full.1 ++ (next full.2).1, (next full.2).2)
      (stopped.1 ++ (nextStopped stopped.2).1, (nextStopped stopped.2).2) := by
  obtain ⟨es, hfull, hstopped, hsame⟩ := h
  obtain ⟨es', hfull', hstopped', hsame'⟩ := hnext full.2
  refine ⟨es ++ es', hfull.append hfull', ?_, fun hclean => ?_⟩
  · rw [Encounter.cut_append]
    refine hstopped.append ?_
    cases hfailed : w.hasFailed || es.any Encounter.fails with
    | false =>
        -- Up to here the walks are the same.
        rw [hsame hfailed]
        rwa [hfull.hasFailed, hfailed] at hstopped'
    | true =>
        -- One walk has stopped, and what it passes over is determined by the identifiers.
        obtain ⟨others, hothers, hskipped, -⟩ := hnext stopped.2
        have hhalted : stopped.2.hasFailed = true := by
          rw [hstopped.hasFailed, Encounter.any_fails_cut, ← hfailed]
          cases w.hasFailed <;> simp
        rw [hhalted, Encounter.cut_true, hothers.map_before] at hskipped
        rwa [Encounter.cut_true, hfull'.map_before]
  · rw [List.any_append, ← Bool.or_assoc, Bool.or_eq_false_iff] at hclean
    rw [hsame hclean.1]
    exact hsame' (by rw [hfull.hasFailed, hclean.1, hclean.2]; rfl)

end Truncates

/-! ## single steps -/

variable (cx : WalkContext) (w : Walker)

/-- Stopping at the first failure, an identifier is answered as on the full walk or passed over. -/
theorem truncates_answer (id : Identifier) (outcome : Option (Except Cause Binding)) :
    w.Truncates [id] ([(w.answer cx.full id outcome).1], (w.answer cx.full id outcome).2)
      ([(w.answer cx.stopping id outcome).1], (w.answer cx.stopping id outcome).2) := by
  obtain ⟨e, he⟩ := exists_account_answer cx.full w id outcome
  refine .of_step he ?_
  have hfull : w.halted cx.full = false := rfl
  have hstopping : w.halted cx.stopping = w.hasFailed := rfl
  rw [answer, answer, hfull, hstopping]
  cases w.hasFailed <;> rfl

/-- A declared name is settled as on the full walk or passed over. -/
theorem truncates_declareName (topLevel : Bool) (name : Identifier) :
    w.Truncates [name]
      ([(w.declareName cx.full topLevel name).1], (w.declareName cx.full topLevel name).2)
      ([(w.declareName cx.stopping topLevel name).1],
        (w.declareName cx.stopping topLevel name).2) := by
  obtain ⟨e, he⟩ := exists_account_declareName cx.full topLevel name w
  refine .of_step he ?_
  have hfull : w.halted cx.full = false := rfl
  have hstopping : w.halted cx.stopping = w.hasFailed := rfl
  rw [declareName, declareName, hfull, hstopping]
  cases w.hasFailed <;> rfl

/-- The names of an export are settled as on the full walk up to the first failure. -/
theorem truncates_exportNames (ids : List Identifier) :
    w.Truncates ids (w.exportNames cx.full ids) (w.exportNames cx.stopping ids) := by
  induction ids generalizing w with
  | nil => exact .of_passed w []
  | cons id ids ih =>
      have hfirst := truncates_answer cx w id (some (cx.resolveExport id))
      exact hfirst.andThen ih

end Walker

namespace Node

/-! ## the walk of a tree -/

/-- The walk of a declaration, halted or not. -/
theorem walk_varDecl_declareName (cx : WalkContext) (pending : Option String) (info : NodeInfo)
    (name : Identifier) (init : Option Node) (isConst : Bool) (w : Walker)
    {r : Option Node × Walker}
    (hr : r = walkOption cx (if w.scopes.isTopLevel then some name.name else pending) init w) :
    (Node.varDecl info name init isConst).walk cx pending w =
      (.varDecl info (r.2.declareName cx w.scopes.isTopLevel name).1 r.1 isConst,
        (r.2.declareName cx w.scopes.isTopLevel name).2) := by
  cases hw : w.halted cx with
  | false => exact walk_varDecl_eq hw pending info name init isConst hr
  | true =>
      obtain rfl : r = (init, w) := by
        rw [hr]
        cases init with
        | none => rfl
        | some n => rw [walkOption, walk_of_halted hw]
      rw [walk_of_halted hw, Walker.declareName, hw]
      rfl

mutual

/-- **Two walks through a tree**: the walk that stops has the encounters of the walk that goes on,
cut off at the first failure. -/
theorem truncates_walk (cx : WalkContext) (pending : Option String) (n : Node) (w : Walker) :
    w.Truncates n.inWalkOrder
      ((n.walk cx.full pending w).1.inWalkOrder, (n.walk cx.full pending w).2)
      ((n.walk cx.stopping pending w).1.inWalkOrder, (n.walk cx.stopping pending w).2) := by
  cases n with
  | block info body =>
      -- Opening and closing a scope is no encounter.
      obtain ⟨es, hfull, hstopped, hsame⟩ := truncates_walkAll cx pending body w.enterBlock
      have hopen : w.halted cx.full = false := rfl
      have hleave : ∀ {v : Walker} {after : List Identifier} {es : List Encounter},
          w.enterBlock.Account v (inWalkOrderAll body) after es →
            w.Account v.leaveBlock (inWalkOrderAll body) after es :=
        fun h => ⟨h.faithful, h.map_before, h.map_after, h.steps⟩
      rw [walk_block hopen]
      cases hw : w.halted cx.stopping with
      | true =>
          have hfailed : w.hasFailed = true := hw
          rw [walk_of_halted hw]
          refine ⟨es, hleave hfull, ?_, fun hclean => by simp [hfailed] at hclean⟩
          rw [hfailed, Encounter.cut_true, hfull.map_before]
          exact .of_passed w _
      | false =>
          rw [walk_block hw]
          exact ⟨es, hleave hfull, hleave hstopped, fun hclean => by rw [hsame hclean]⟩
  | varDecl info name init isConst =>
      rw [walk_varDecl_declareName cx.full pending info name init isConst w rfl,
        walk_varDecl_declareName cx.stopping pending info name init isConst w rfl]
      exact (truncates_walkOption cx _ init w).andThen fun v =>
        Walker.truncates_declareName cx v w.scopes.isTopLevel name
  | importDecl info path names asName => exact .of_passed w names
  | exportDecl info names => exact Walker.truncates_exportNames cx w names
  | identifier id =>
      exact Walker.truncates_answer cx w id (some (cx.resolve pending w.scopes id))
  | sequence info form items => exact truncates_walkAll cx pending items w
  | unary info form operand => exact truncates_walk cx pending operand w
  | inOf info left right valueOf =>
      exact (truncates_walk cx pending left w).andThen fun v => truncates_walk cx pending right v
  | _ => exact .of_passed w []

/-- The walk through a list of nodes that stops is the full walk up to its first failure. -/
theorem truncates_walkAll (cx : WalkContext) (pending : Option String) (ns : List Node)
    (w : Walker) :
    w.Truncates (inWalkOrderAll ns)
      (inWalkOrderAll (walkAll cx.full pending ns w).1, (walkAll cx.full pending ns w).2)
      (inWalkOrderAll (walkAll cx.stopping pending ns w).1,
        (walkAll cx.stopping pending ns w).2) := by
  cases ns with
  | nil => exact .of_passed w []
  | cons n ns =>
      exact (truncates_walk cx pending n w).andThen fun v => truncates_walkAll cx pending ns v

theorem truncates_walkOption (cx : WalkContext) (pending : Option String) (init : Option Node)
    (w : Walker) :
    w.Truncates (inWalkOrderOption init)
      (inWalkOrderOption (walkOption cx.full pending init w).1,
        (walkOption cx.full pending init w).2)
      (inWalkOrderOption (walkOption cx.stopping pending init w).1,
        (walkOption cx.stopping pending init w).2) := by
  cases init with
  | none => exact .of_passed w []
  | some n => exact truncates_walk cx pending n w

end

end Node

/-! ## scopes are closed again -/

/-- Advancing a stack neither opens nor closes a scope. -/
theorem ScopeStack.length_advance (s : ScopeStack) (ids : List Identifier) (blocks : Nat) :
    (s.advance ids blocks).scopes.length = s.scopes.length := by
  obtain ⟨scopes, nextId⟩ := s
  cases scopes <;> rfl

/-- Declaring a name neither opens nor closes a scope. -/
theorem Walker.depth_declareName (cx : WalkContext) (topLevel : Bool) (name : Identifier)
    (w : Walker) :
    (w.declareName cx topLevel name).2.scopes.scopes.length = w.scopes.scopes.length := by
  unfold declareName
  split
  · rfl
  · cases topLevel with
    | true => simp
    | false => simp [scopes_declareLocal, ScopeStack.length_advance]

namespace Node

mutual

/-- A walk leaves as many scopes open as there were, wherever it stops. -/
theorem depth_walk (cx : WalkContext) (pending : Option String) (n : Node) (w : Walker) :
    (n.walk cx pending w).2.scopes.scopes.length = w.scopes.scopes.length := by
  cases n with
  | block info body =>
      cases hw : w.halted cx with
      | true => rw [walk_of_halted hw]
      | false =>
          have hbody := depth_walkAll cx pending body w.enterBlock
          have hpush : w.enterBlock.scopes.scopes.length = w.scopes.scopes.length + 1 := rfl
          rw [walk_block hw]
          simp only [Walker.leaveBlock, ScopeStack.pop, List.length_tail]
          omega
  | varDecl info name init isConst =>
      rw [walk_varDecl_declareName cx pending info name init isConst w rfl,
        Walker.depth_declareName]
      exact depth_walkOption cx _ init w
  | exportDecl info names => simp [walk]
  | identifier id => simp [walk]
  | sequence info form items => exact depth_walkAll cx pending items w
  | unary info form operand => exact depth_walk cx pending operand w
  | inOf info left right valueOf =>
      exact (depth_walk cx pending right _).trans (depth_walk cx pending left w)
  | _ => rfl

/-- The walk through a list of nodes closes the scopes it opens. -/
theorem depth_walkAll (cx : WalkContext) (pending : Option String) (ns : List Node)
    (w : Walker) :
    (walkAll cx pending ns w).2.scopes.scopes.length = w.scopes.scopes.length := by
  cases ns with
  | nil => rfl
  | cons n ns => exact (depth_walkAll cx pending ns _).trans (depth_walk cx pending n w)

theorem depth_walkOption (cx : WalkContext) (pending : Option String) (init : Option Node)
    (w : Walker) :
    (walkOption cx pending init w).2.scopes.scopes.length = w.scopes.scopes.length := by
  cases init with
  | none => rfl
  | some n => exact depth_walk cx pending n w

end

end Node

/-! ## the walk of a unit -/

/-- Of the failures, a walk that stops finds the first. -/
theorem Encounter.failures_cut (es : List Encounter) :
    (cut false es).filterMap (·.failure?) = (es.filterMap (·.failure?)).take 1 := by
  induction es with
  | nil => rfl
  | cons e es ih =>
      have hfails : e.fails = e.failure?.isSome := by
        rw [fails, failure?]
        cases e.step? <;> rfl
      cases hfailure : e.failure? with
      | none => simpa [cut, hfails, hfailure] using ih
      | some f => simp [cut, hfails, hfailure, List.filterMap_map, Function.comp_def]

namespace SourceUnit

/-- The two walks of a unit, side by side. -/
theorem truncates_walk (cx : WalkContext) (u : SourceUnit) :
    Walker.Truncates {} u.inWalkOrder ((u.walk cx.full).1.inWalkOrder, (u.walk cx.full).2)
      ((u.walk cx.stopping).1.inWalkOrder, (u.walk cx.stopping).2) :=
  (Node.truncates_walkAll cx none u.imports {}).andThen fun v =>
    Node.truncates_walkAll cx none u.nodes v

/-- When the walk of a unit is over, no scope is open. -/
theorem isTopLevel_walk (cx : WalkContext) (u : SourceUnit) :
    (u.walk cx).2.scopes.isTopLevel = true := by
  have hdepth : (u.walk cx).2.scopes.scopes.length = 0 :=
    (Node.depth_walkAll cx none u.nodes _).trans (Node.depth_walkAll cx none u.imports {})
  rw [ScopeStack.isTopLevel, List.isEmpty_iff]
  exact List.length_eq_zero_iff.mp hdepth

/-- **Stopping at the first failure**: of the failures of the walk that goes on, the walk that stops
finds the first one, and counts it. Both come to every identifier of the unit once, in the order of
the walk. The walk that stops has met the same identifiers with the same results up to this failure,
all of them if there is none, and has passed over the others. In the end no scope is open. -/
theorem stops_at_first_failure (cx : WalkContext) (u : SourceUnit) :
    let full := u.walk cx.full
    let stopped := u.walk cx.stopping
    stopped.2.failures = full.2.failures.take 1 ∧
      stopped.2.unresolved = stopped.2.failures.length ∧
      stopped.2.scopes.isTopLevel = true ∧
      stopped.1.skeleton = u.skeleton ∧
      (full.2.failures = [] → stopped = full) ∧
      u.inWalkOrder.Perm u.identifiers ∧
      ∃ met rest : List Encounter,
        Walker.Account {} full.2 u.inWalkOrder full.1.inWalkOrder (met ++ rest) ∧
        (∀ e ∈ met, e.fails = false) ∧ (∀ e ∈ rest.head?, e.fails = true) ∧
        Walker.Account {} stopped.2 u.inWalkOrder stopped.1.inWalkOrder
          (met ++ rest.take 1 ++ (rest.drop 1).map (Encounter.passing ·.before)) := by
  intro full stopped
  obtain ⟨es, hfull, hstopped, -⟩ := u.truncates_walk cx
  have hfresh : Walker.hasFailed {} = false := rfl
  rw [hfresh] at hstopped
  refine ⟨?_, stopped.2.unresolved_eq_length, u.isTopLevel_walk _, u.skeleton_walk _,
    fun hnone => ?_, u.perm_inWalkOrder, es.takeWhile (!·.fails), es.dropWhile (!·.fails),
    ?_, ?_, ?_, ?_⟩
  · rw [hstopped.failures, hfull.failures, Encounter.failures_cut]
    rfl
  · rcases u.walk_full cx.stopping with hsame | ⟨hhalted, hsuffix⟩
    · exact hsame.symm
    · have hgoing : full.2.halted cx.stopping = true := Walker.halted_of_suffix hsuffix hhalted
      rw [Walker.halted_of_failures hnone] at hgoing
      cases hgoing
  · rwa [List.takeWhile_append_dropWhile]
  · intro e he
    have hall : (es.takeWhile (!·.fails)).all (!·.fails) = true := List.all_takeWhile
    simpa using List.all_eq_true.mp hall e he
  · intro e he
    have hhead := List.head?_dropWhile_not (fun e : Encounter => !e.fails) es
    rw [Option.mem_def.mp he] at hhead
    simpa using hhead
  · rwa [← Encounter.cut_false]

end SourceUnit

end NameResolution
