import NameResolution.Proofs.Outcome

/-!
# Counting what is bound

A walk counts the identifiers that it binds. The count is right: it makes up the difference between
the bound identifiers of the tree before and of the tree after.

Main statements:

* `Walker.Counts`, `Node.counts_walk`: the count of a walk;
* `SourceUnit.bound_resolve`, `Program.bound_resolve`: the count of a pass.
-/

namespace NameResolution

/-- The number of bound identifiers in a list. -/
def boundIn (ids : List Identifier) : Nat := ids.countP (·.isBound)

@[simp] theorem boundIn_nil : boundIn [] = 0 := rfl

@[simp] theorem boundIn_cons (id : Identifier) (ids : List Identifier) :
    boundIn (id :: ids) = boundIn ids + if id.isBound then 1 else 0 :=
  List.countP_cons

@[simp] theorem boundIn_append (ids others : List Identifier) :
    boundIn (ids ++ others) = boundIn ids + boundIn others :=
  List.countP_append

/-! ## one step -/

namespace Walker

/-- From the state `w` to the state `w'` the walk has turned the identifiers `before` into `after`,
and it has counted those that it bound. -/
def Counts (w w' : Walker) (before after : List Identifier) : Prop :=
  w'.bound + boundIn before = w.bound + boundIn after

/-- A step of the walk is counted if it binds. -/
theorem bound_note (w : Walker) (step : WalkStep) :
    (w.note step).bound = w.bound + if step.isBound then 1 else 0 := by
  simp [bound, note, List.countP_cons]

/-- Two parts of a walk count what both of them bind. -/
theorem Counts.append {w₁ w₂ w₃ : Walker} {before after before' after' : List Identifier}
    (h : w₁.Counts w₂ before after) (h' : w₂.Counts w₃ before' after') :
    w₁.Counts w₃ (before ++ before') (after ++ after') := by
  unfold Counts at h h' ⊢
  rw [boundIn_append, boundIn_append]
  omega

/-- Binding an identifier is counted, unless it was bound before. -/
theorem counts_bind (w : Walker) (id : Identifier) (b : Binding) :
    w.Counts (w.bind id b).2 [id] [(w.bind id b).1] := by
  cases h : id.binding with
  | none =>
      have hbind : w.bind id b = ({ id with binding := some b }, w.note (.bound id b)) := by
        rw [bind, Identifier.bind_of_binding h]
      rw [hbind, Counts, bound_note]
      simp [Identifier.isBound, WalkStep.isBound, h]
  | some other =>
      have hbound : id.isBound = true := by simp [Identifier.isBound, h]
      have hbind : w.bind id b =
          (id, w.note (.kept (.alreadyBound id.info.location id.name))) := by
        rw [bind, Identifier.bind_of_isBound hbound]
      rw [hbind, Counts, bound_note]
      simp [WalkStep.isBound]

/-- A failure binds nothing, and nothing is counted. -/
theorem counts_fail (w : Walker) (id : Identifier) (cause : Cause) (location : Location) :
    w.Counts (w.fail cause location) [id] [id] := by
  rw [Counts, fail, bound_note]
  simp [WalkStep.isBound]

/-- Answering an identifier counts what it binds. -/
theorem counts_answer (cx : WalkContext) (w : Walker) (id : Identifier)
    (outcome : Option (Except Cause Binding)) :
    w.Counts (w.answer cx id outcome).2 [id] [(w.answer cx id outcome).1] := by
  unfold answer
  split
  · rfl
  · rcases outcome with _ | cause | b
    · rfl
    · exact counts_fail w id cause id.info.location
    · exact counts_bind w id b

theorem counts_exportNames (cx : WalkContext) (w : Walker) (ids : List Identifier) :
    w.Counts (w.exportNames cx ids).2 ids (w.exportNames cx ids).1 := by
  induction ids generalizing w with
  | nil => rfl
  | cons id ids ih =>
      have hfirst : w.Counts (w.exportName cx id).2 [id] [(w.exportName cx id).1] :=
        counts_answer cx w id (some (cx.resolveExport id))
      exact hfirst.append (ih (w.exportName cx id).2)

/-- Declaring a name in a block counts what it binds. -/
theorem counts_declareLocal (cx : WalkContext) (w : Walker) (id : Identifier) :
    w.Counts (w.declareLocal cx id).2 [id] [(w.declareLocal cx id).1] := by
  unfold declareLocal
  split
  · next scopes _ => exact counts_bind { w with scopes } id _
  · next scopes _ => exact counts_fail { w with scopes } id _ id.info.location

end Walker

/-! ## the walk -/

namespace Node

mutual

/-- **Counting**: a walk counts the identifiers that it binds. -/
theorem counts_walk (cx : WalkContext) (pending : Option String) (n : Node) (w : Walker) :
    w.Counts (n.walk cx pending w).2 n.identifiers (n.walk cx pending w).1.identifiers := by
  cases n with
  | block info body =>
      rw [walk]
      split
      · rfl
      · exact counts_walkAll cx pending body w.enterBlock
  | varDecl info name init isConst =>
      cases hw : w.halted cx with
      | true =>
          rw [walk_of_halted hw]
          rfl
      | false =>
          -- The name stands first among the identifiers, but it is bound last.
          have hswap : ∀ {w' : Walker} {after : Identifier} {rest : List Identifier},
              w.Counts w' (identifiersOption init ++ [name]) (rest ++ [after]) →
                w.Counts w' (name :: identifiersOption init) (after :: rest) := by
            intro w' after rest h
            rw [Walker.Counts, boundIn_append, boundIn_append, boundIn_cons, boundIn_cons,
              boundIn_nil, Nat.zero_add, Nat.zero_add] at h
            rw [Walker.Counts, boundIn_cons, boundIn_cons]
            exact h
          have hinit := counts_walkOption cx
            (if w.scopes.isTopLevel then some name.name else pending) init w
          rcases walk_varDecl hw pending info name init isConst rfl with
            ⟨-, hwalk⟩ | ⟨hhalt, -, hwalk⟩ | ⟨-, -, hwalk⟩
          · rw [hwalk]
            exact hswap (hinit.append rfl)
          · rw [hwalk, Walker.declareTopLevel_eq_answer hhalt]
            exact hswap (hinit.append (Walker.counts_answer cx _ name _))
          · rw [hwalk]
            exact hswap (hinit.append (Walker.counts_declareLocal cx _ name))
  | exportDecl info names => exact Walker.counts_exportNames cx w names
  | identifier id => exact Walker.counts_answer cx w id (some (cx.resolve pending w.scopes id))
  | sequence info form items => exact counts_walkAll cx pending items w
  | unary info form operand => exact counts_walk cx pending operand w
  | inOf info left right valueOf =>
      exact (counts_walk cx pending left w).append (counts_walk cx pending right _)
  | _ => rfl

/-- The walk through a list of nodes counts what it binds in them. -/
theorem counts_walkAll (cx : WalkContext) (pending : Option String) (ns : List Node)
    (w : Walker) :
    w.Counts (walkAll cx pending ns w).2 (identifiersAll ns)
      (identifiersAll (walkAll cx pending ns w).1) := by
  cases ns with
  | nil => rfl
  | cons n ns => exact (counts_walk cx pending n w).append (counts_walkAll cx pending ns _)

theorem counts_walkOption (cx : WalkContext) (pending : Option String) (init : Option Node)
    (w : Walker) :
    w.Counts (walkOption cx pending init w).2 (identifiersOption init)
      (identifiersOption (walkOption cx pending init w).1) := by
  cases init with
  | none => rfl
  | some n => exact counts_walk cx pending n w

end

end Node

/-! ## imports -/

/-- Binding the names of an import counts those that get bound. -/
theorem Import.bound_add (tables : Tables) (i : Import) (names : List Identifier) :
    (names.countP fun id => !id.isBound && (i.site? tables id.name).isSome) + boundIn names =
      boundIn (names.map (i.bindName tables)) := by
  induction names with
  | nil => rfl
  | cons id names ih =>
      rw [List.map_cons, boundIn_cons, boundIn_cons (i.bindName tables id), ← ih,
        List.countP_cons]
      rcases i.bindName_cases tables id with ⟨hsame, hbound | hsite⟩ | ⟨hnone, loc, hsite, hbind⟩
      · simp [hsame, hbound]
        omega
      · simp [hsame, hsite]
        omega
      · simp [hbind, hsite, Identifier.isBound, hnone]
        omega

/-- Binding the names of an import counts what it binds. -/
theorem Node.bound_bindImport (tables : Tables) (n : Node) :
    total (n.import?.toList.map (·.bound tables)) + boundIn n.identifiers =
      boundIn (n.bindImport tables).identifiers := by
  cases n with
  | importDecl info path names asName =>
      exact Import.bound_add tables ⟨info.location, path, names⟩ names
  | _ => exact Nat.zero_add _

theorem Node.bound_bindImports (tables : Tables) (ns : List Node) :
    total ((ns.filterMap Node.import?).map (·.bound tables)) + boundIn (identifiersAll ns) =
      boundIn (identifiersAll (ns.map (·.bindImport tables))) := by
  induction ns with
  | nil => rfl
  | cons n ns ih =>
      have hn := n.bound_bindImport tables
      have hfirst : (n :: ns).filterMap Node.import? =
          n.import?.toList ++ ns.filterMap Node.import? := by
        cases h : n.import? <;> simp [h]
      rw [total] at hn ih
      rw [hfirst, List.map_append, total, List.sum_append_nat, List.map_cons, identifiersAll,
        identifiersAll, boundIn_append, boundIn_append]
      omega

/-! ## a pass -/

namespace SourceUnit

/-- A unit's share of a pass counts the identifiers of the unit that it binds. -/
theorem bound_resolve (config : Config) (tables : Tables) (u : SourceUnit) :
    (u.resolve config tables).bound + boundIn u.identifiers =
      boundIn (u.resolve config tables).unit.identifiers := by
  unfold resolve
  split
  · exact Nat.zero_add _
  · have himports := Node.bound_bindImports tables u.topLevel
    rw [← topLevel_bindImports] at himports
    have hroot := walk_root (u.walkContext config tables) (u.bindImports tables)
    have hwalk := Node.counts_walk (u.walkContext config tables) none
      (u.bindImports tables).root {}
    rw [hroot] at hwalk
    have hcount : (u.walked config tables).2.bound +
        boundIn (Node.identifiersAll (u.bindImports tables).topLevel) =
          0 + boundIn (Node.identifiersAll (u.walked config tables).1.topLevel) := hwalk
    have hbound : (u.resolveNow config tables).bound =
        total (u.importDecls.map (·.bound tables)) + (u.walked config tables).2.bound := rfl
    have hafter : (u.resolveNow config tables).unit.identifiers =
        Node.identifiersAll (u.walked config tables).1.topLevel := rfl
    rw [hbound, hafter, identifiers, importDecls]
    omega

end SourceUnit

namespace Program

/-- **Counting in a pass**: the report says how many identifiers were bound. -/
theorem bound_resolve (config : Config) (P : Program) :
    (P.resolve config).report.bound + boundIn P.identifiers =
      boundIn (P.resolve config).program.identifiers := by
  have hsum : ∀ us : List SourceUnit,
      total (us.map fun u => (u.resolve config P.tables).bound) +
          boundIn (us.flatMap (·.identifiers)) =
        boundIn ((us.map fun u => (u.resolve config P.tables).unit).flatMap (·.identifiers)) := by
    intro us
    induction us with
    | nil => rfl
    | cons u us ih =>
        have hu := u.bound_resolve config P.tables
        simp only [List.map_cons, total, List.sum_cons, List.flatMap_cons, boundIn_append] at ih ⊢
        omega
  rw [report_resolve, identifiers, identifiers, units_resolve]
  exact hsum P.units

end Program

end NameResolution
