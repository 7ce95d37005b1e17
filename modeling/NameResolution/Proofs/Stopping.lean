import NameResolution.Proofs.Resume

/-!
# A walk that stops at its first failure

With `stopAtFirst` a walk halts at its first failure. Without it the walk goes the same way up to
there and then goes on.

Main statements:

* `Node.walk_full`: what the walk that stops has in common with the one that does not;
* `Node.between_full`: a tree that a walk with the stop has been over may be walked on without it.
-/

namespace NameResolution

/-- The same walk without the stop. -/
def WalkContext.full (cx : WalkContext) : WalkContext := { cx with stopAtFirst := false }

/-- What a walk gives, `r`, and what it gives without the stop, `full`: the same unless the walk has
halted, and then `full` has gone on. -/
def StopsShort (cx : WalkContext) {α : Type} (r full : α × Walker) : Prop :=
  full = r ∨ r.2.halted cx = true ∧ r.2.trace <:+ full.2.trace

namespace StopsShort

variable {cx : WalkContext} {α β γ : Type} {r full : α × Walker}

/-- A result that stops short still does after a change to its first part. -/
theorem map (h : StopsShort cx r full) (f : α → β) :
    StopsShort cx (f r.1, r.2) (f full.1, full.2) := by
  rcases h with rfl | h
  · exact .inl rfl
  · exact .inr h

/-- One step after another. A step does nothing when the walk has halted. -/
theorem andThen (h : StopsShort cx r full) {step stepFull : Walker → β × Walker}
    (hstep : ∀ w, StopsShort cx (step w) (stepFull w))
    (hhalted : ∀ w, w.halted cx = true → (step w).2 = w)
    (htrace : ∀ w, w.trace <:+ (stepFull w).2.trace) (join : α → β → γ) :
    StopsShort cx (join r.1 (step r.2).1, (step r.2).2)
      (join full.1 (stepFull full.2).1, (stepFull full.2).2) := by
  rcases h with rfl | ⟨hhalt, hsuffix⟩
  · exact (hstep full.2).map (join full.1)
  · refine .inr ?_
    dsimp only
    rw [hhalted r.2 hhalt]
    exact ⟨hhalt, hsuffix.trans (htrace full.2)⟩

/-- What is found before the stop is found without it too. -/
theorem failures_subset (h : StopsShort cx r full) {f : Failure} (hf : f ∈ r.2.failures) :
    f ∈ full.2.failures := by
  rcases h with rfl | ⟨-, hsuffix⟩
  · exact hf
  · rw [Walker.mem_failures] at hf ⊢
    exact hsuffix.subset hf

end StopsShort

/-! ## one step -/

namespace Walker

theorem trace_answer (cx : WalkContext) (w : Walker) (id : Identifier)
    (outcome : Option (Except Cause Binding)) : w.trace <:+ (w.answer cx id outcome).2.trace := by
  unfold answer
  split
  · exact List.suffix_rfl
  · cases outcome with
    | none => exact List.suffix_rfl
    | some outcome => exact trace_settle w id outcome

/-- Answering an identifier is answering it on the full walk, or stops short of that. -/
theorem answer_full (cx : WalkContext) (w : Walker) (id : Identifier)
    (outcome : Option (Except Cause Binding)) :
    StopsShort cx (w.answer cx id outcome) (w.answer cx.full id outcome) := by
  cases hw : w.halted cx with
  | true =>
      rw [answer_of_halted hw]
      exact .inr ⟨hw, trace_answer cx.full w id outcome⟩
  | false =>
      have hfull : w.halted cx.full = false := rfl
      left
      rw [answer, answer, hw, hfull]

theorem exportNames_full (cx : WalkContext) (w : Walker) (ids : List Identifier) :
    StopsShort cx (w.exportNames cx ids) (w.exportNames cx.full ids) := by
  induction ids generalizing w with
  | nil => exact .inl rfl
  | cons id ids ih =>
      have hfirst : StopsShort cx (w.exportName cx id) (w.exportName cx.full id) :=
        answer_full cx w id (some (cx.resolveExport id))
      exact hfirst.andThen ih (fun v hv => by rw [exportNames_of_halted hv])
        (fun v => trace_exportNames cx.full v ids) List.cons

/-- Declares a name after its initializer has been walked, unless the walk has halted there. -/
def declareName (cx : WalkContext) (topLevel : Bool) (name : Identifier) (w : Walker) :
    Identifier × Walker :=
  if w.halted cx then (name, w)
  else if topLevel then w.declareTopLevel cx name else w.declareLocal cx name

theorem trace_declareName (cx : WalkContext) (topLevel : Bool) (name : Identifier) (w : Walker) :
    w.trace <:+ (w.declareName cx topLevel name).2.trace := by
  unfold declareName
  split
  · exact List.suffix_rfl
  · cases topLevel with
    | true => exact trace_declareTopLevel cx w name
    | false => exact trace_declareLocal cx w name

/-- Declaring a name is declaring it on the full walk, or stops short of that. -/
theorem declareName_full (cx : WalkContext) (topLevel : Bool) (name : Identifier) (w : Walker) :
    StopsShort cx (w.declareName cx topLevel name) (w.declareName cx.full topLevel name) := by
  cases hw : w.halted cx with
  | true =>
      have hhalted : w.declareName cx topLevel name = (name, w) := by
        rw [declareName, hw, if_pos rfl]
      rw [hhalted]
      exact .inr ⟨hw, trace_declareName cx.full topLevel name w⟩
  | false =>
      have hfull : w.halted cx.full = false := rfl
      left
      rw [declareName, declareName, hw, hfull]
      rfl

end Walker

namespace Node

/-- Unless it has halted, the walk takes the initializer of a declaration first, then its name. -/
theorem walk_varDecl_eq {cx : WalkContext} {w : Walker} (h : w.halted cx = false)
    (pending : Option String) (info : NodeInfo) (name : Identifier) (init : Option Node)
    (isConst : Bool) {r : Option Node × Walker}
    (hr : r = walkOption cx (if w.scopes.isTopLevel then some name.name else pending) init w) :
    (Node.varDecl info name init isConst).walk cx pending w =
      (.varDecl info (r.2.declareName cx w.scopes.isTopLevel name).1 r.1 isConst,
        (r.2.declareName cx w.scopes.isTopLevel name).2) := by
  rcases walk_varDecl h pending info name init isConst hr with
    ⟨hhalt, hwalk⟩ | ⟨hhalt, htop, hwalk⟩ | ⟨hhalt, htop, hwalk⟩
  · simp [hwalk, Walker.declareName, hhalt]
  · simp [hwalk, Walker.declareName, hhalt, htop]
  · simp [hwalk, Walker.declareName, hhalt, htop]

/-! ## the walk -/

mutual

/-- **Stopping**: a walk that stops goes the same way as one that does not, until it halts. -/
theorem walk_full (cx : WalkContext) (pending : Option String) (n : Node) (w : Walker) :
    StopsShort cx (n.walk cx pending w) (n.walk cx.full pending w) := by
  cases hw : w.halted cx with
  | true =>
      rw [walk_of_halted hw]
      exact .inr ⟨hw, trace_walk cx.full pending n w⟩
  | false =>
      have hfull : w.halted cx.full = false := rfl
      cases n with
      | block info body =>
          rw [walk_block hw, walk_block hfull]
          rcases walkAll_full cx pending body w.enterBlock with heq | ⟨hhalt, hsuffix⟩
          · rw [heq]
            exact .inl rfl
          · exact .inr ⟨hhalt, hsuffix⟩
      | varDecl info name init isConst =>
          rw [walk_varDecl_eq hw pending info name init isConst rfl,
            walk_varDecl_eq hfull pending info name init isConst rfl]
          have hinit := walkOption_full cx
            (if w.scopes.isTopLevel then some name.name else pending) init w
          refine hinit.andThen (Walker.declareName_full cx w.scopes.isTopLevel name)
            (fun v hv => ?_) (Walker.trace_declareName cx.full w.scopes.isTopLevel name)
            fun init name => Node.varDecl info name init isConst
          rw [Walker.declareName, hv, if_pos rfl]
      | exportDecl info names =>
          exact (Walker.exportNames_full cx w names).map (Node.exportDecl info)
      | identifier id =>
          exact (Walker.answer_full cx w id (some (cx.resolve pending w.scopes id))).map
            Node.identifier
      | sequence info form items =>
          exact (walkAll_full cx pending items w).map (Node.sequence info form)
      | unary info form operand =>
          exact (walk_full cx pending operand w).map (Node.unary info form)
      | inOf info left right valueOf =>
          exact (walk_full cx pending left w).andThen (fun v => walk_full cx pending right v)
            (fun v hv => by rw [walk_of_halted hv]) (fun v => trace_walk cx.full pending right v)
            fun left right => Node.inOf info left right valueOf
      | _ => exact .inl rfl

/-- The walk through a list of nodes is the full walk, or stops short of that. -/
theorem walkAll_full (cx : WalkContext) (pending : Option String) (ns : List Node) (w : Walker) :
    StopsShort cx (walkAll cx pending ns w) (walkAll cx.full pending ns w) := by
  cases ns with
  | nil => exact .inl rfl
  | cons n ns =>
      exact (walk_full cx pending n w).andThen (fun v => walkAll_full cx pending ns v)
        (fun v hv => by rw [walkAll_of_halted hv]) (fun v => trace_walkAll cx.full pending ns v)
        List.cons

theorem walkOption_full (cx : WalkContext) (pending : Option String) (init : Option Node)
    (w : Walker) :
    StopsShort cx (walkOption cx pending init w) (walkOption cx.full pending init w) := by
  cases init with
  | none => exact .inl rfl
  | some n => exact (walk_full cx pending n w).map some

end

/-- What a walk with the stop has bound, the walk without it binds in the same way. -/
theorem between_full {n n' : Node} {cx : WalkContext}
    (h : Pointwise Identifier.Between n n' (n.walk cx none {}).1) :
    Pointwise Identifier.Between n n' (n.walk cx.full none {}).1 := by
  intro p id now done hid hnow hdone
  have houtcome : n.outcomeAt? cx.full p id = n.outcomeAt? cx p id := rfl
  obtain ⟨stopped, hstopped, hfill⟩ := exists_fill hid cx
  rcases h p id now stopped hid hnow hstopped with hsame | rfl
  · exact .inl hsame
  · rcases hfill with hfill | ⟨hsame, -⟩
    · have hfull := at?_walk hid (show cx.full.stopAtFirst = false from rfl)
      rw [hdone, houtcome, ← hfill] at hfull
      exact .inr (by simpa using hfull.symm)
    · exact .inl hsame

end Node

/-- The walk through a unit is the full walk, or stops short of that. -/
theorem SourceUnit.walk_full (cx : WalkContext) (u : SourceUnit) :
    StopsShort cx (u.walk cx) (u.walk cx.full) :=
  (Node.walkAll_full cx none u.imports {}).andThen (fun v => Node.walkAll_full cx none u.nodes v)
    (fun v hv => by rw [Node.walkAll_of_halted hv])
    (fun v => Node.trace_walkAll cx.full none u.nodes v)
    fun imports nodes => { u with imports, nodes }

end NameResolution
