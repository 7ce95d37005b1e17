import Mathlib.Algebra.BigOperators.Group.List.Basic
import Mathlib.Data.List.Forall2
import NameResolution.Proofs.Repetition

/-!
# More builtins

A builtin is the last thing that a look-up tries. So with more builtins a pass does the same as
before, except that some uses of unknown names are no failures any more but get bound.

The layers are

* one look-up (`WalkContext.resolve_withBuiltins`);
* two walks of one tree side by side, first a step and then the run (`Walker.Gains`,
  `Node.gains_walk`): the scopes are the same, and what is no longer a failure is bound;
* the identifiers that the two walks leave at a position (`SourceUnit.gains_resolve`).

Main statement: `Program.resolve_moreBuiltins`.
-/

namespace NameResolution

/-- The binding of a builtin name. -/
def Binding.ofBuiltin (name : String) : Binding :=
  ⟨.builtin, ⟨Config.builtinPath, name, .nowhere⟩⟩

/-! ## one look-up -/

/-- The outcomes of one look-up of `name` with the builtins `fewer` and with the builtins `more`. -/
inductive OutcomeGains (fewer more : List String) (name : String) :
    Except Cause Binding → Except Cause Binding → Prop where
  | same (outcome : Except Cause Binding) : OutcomeGains fewer more name outcome outcome
  /-- The name was unknown and is a builtin now. -/
  | found (hmem : name ∈ more) (hnew : name ∉ fewer) :
      OutcomeGains fewer more name (.error (.unknownIdentifier name)) (.ok (.ofBuiltin name))

theorem OutcomeGains.refl_option {fewer more : List String} {name : String}
    (outcome : Option (Except Cause Binding)) :
    Option.Rel (OutcomeGains fewer more name) outcome outcome := by
  cases outcome with
  | none => exact .none
  | some outcome => exact .some (.same outcome)

namespace WalkContext

/-- The same context with other builtins. -/
def withBuiltins (cx : WalkContext) (names : List String) : WalkContext :=
  { cx with builtins := names }

variable {cx : WalkContext} {names : List String}

/-- With more builtins a name outside all blocks keeps its meaning, or means one of the additional
builtins instead of nothing. -/
theorem resolveGlobal_withBuiltins (h : cx.builtins ⊆ names) (pending : Option String)
    (name : String) :
    OutcomeGains cx.builtins names name (cx.resolveGlobal pending name)
      ((cx.withBuiltins names).resolveGlobal pending name) := by
  unfold resolveGlobal
  simp only [withBuiltins]
  split
  · exact .same _
  · exact .same _
  · by_cases hold : name ∈ cx.builtins
    · have hmem : name ∈ names := h hold
      simp only [List.contains_iff_mem, hold, hmem, if_true]
      exact .same _
    · by_cases hmem : name ∈ names
      · simp only [List.contains_iff_mem, hold, hmem, if_true, if_false]
        exact .found hmem hold
      · simp only [List.contains_iff_mem, hold, hmem, if_false]
        exact .same _
  · exact .same _

/-- **One look-up**: with more builtins an identifier means the same, or it was unknown and is a
builtin. -/
theorem resolve_withBuiltins (h : cx.builtins ⊆ names) (pending : Option String)
    (scopes : ScopeStack) (id : Identifier) :
    OutcomeGains cx.builtins names id.name (cx.resolve pending scopes id)
      ((cx.withBuiltins names).resolve pending scopes id) := by
  unfold resolve
  split
  · exact .same _
  · exact resolveGlobal_withBuiltins h pending id.name

end WalkContext

/-! ## two walks side by side -/

namespace Walker

/-- The walk `more` has the scopes of the walk `w` and has found no other failures, and what is not
a failure any more is bound. -/
structure Gains (w more : Walker) : Prop where
  scopes : more.scopes = w.scopes
  failures : more.failures.Sublist w.failures
  settled : more.bound + more.failures.length = w.bound + w.failures.length

variable {cx : WalkContext} {names : List String} {w more : Walker}

theorem Gains.refl (w : Walker) : w.Gains w := ⟨rfl, List.Sublist.refl _, rfl⟩

/-- The same step on both sides. -/
theorem Gains.note (h : w.Gains more) (step : WalkStep) : (w.note step).Gains (more.note step) := by
  have hsettled := h.settled
  refine ⟨h.scopes, ?_, ?_⟩
  · rw [failures_note, failures_note]
    exact h.failures.append (List.Sublist.refl _)
  · simp only [failures_note, bound_note, List.length_append]
    omega

/-- A failure on one side and a binding on the other. -/
theorem Gains.note_found (h : w.Gains more) (f : Failure) (id : Identifier) (b : Binding) :
    (w.note (.failed f)).Gains (more.note (.bound id b)) := by
  have hsettled := h.settled
  refine ⟨h.scopes, ?_, ?_⟩
  · simpa [failures_note, WalkStep.failure?] using h.failures.trans (List.sublist_append_left _ [f])
  · simp [failures_note, bound_note, WalkStep.failure?, WalkStep.isBound]
    omega

theorem Gains.enterBlock (h : w.Gains more) : w.enterBlock.Gains more.enterBlock :=
  ⟨congrArg (·.push.2) h.scopes, h.failures, h.settled⟩

theorem Gains.leaveBlock (h : w.Gains more) : w.leaveBlock.Gains more.leaveBlock :=
  ⟨congrArg ScopeStack.pop h.scopes, h.failures, h.settled⟩

/-- Both walks bind an identifier to the same declaration. -/
theorem Gains.bind (h : w.Gains more) (id : Identifier) (b : Binding) :
    (w.bind id b).2.Gains (more.bind id b).2 := by
  unfold Walker.bind
  split <;> exact h.note _

/-- The step lemma: an identifier is settled with outcomes of which the second may have gained. -/
theorem Gains.settle (h : w.Gains more) {id : Identifier} (hid : id.binding = none)
    {outcome gained : Except Cause Binding} {fewer : List String}
    (houtcome : OutcomeGains fewer names id.name outcome gained) :
    (w.settle id outcome).2.Gains (more.settle id gained).2 := by
  cases houtcome with
  | same =>
      cases outcome with
      | error cause => exact h.note _
      | ok b => exact h.bind id b
  | found =>
      have hbind : (more.settle id (.ok (.ofBuiltin id.name))).2 =
          more.note (.bound id (.ofBuiltin id.name)) := by
        rw [Walker.settle, Walker.bind, Identifier.bind_of_binding hid]
      rw [hbind]
      exact h.note_found _ id _

/-- An identifier is answered with outcomes of which the second may have gained. -/
theorem Gains.answer (hgoing : cx.stopAtFirst = false) (h : w.Gains more) {id : Identifier}
    {outcome gained : Option (Except Cause Binding)}
    (houtcome : Option.Rel (OutcomeGains cx.builtins names id.name) outcome gained) :
    (w.answer cx id outcome).2.Gains (more.answer (cx.withBuiltins names) id gained).2 := by
  have hgoing' : (cx.withBuiltins names).stopAtFirst = false := hgoing
  rw [Walker.answer, Walker.answer, halted_of_going hgoing, halted_of_going hgoing']
  cases hbound : id.isBound with
  | true => exact h
  | false =>
      have hid : id.binding = none := by simpa [Identifier.isBound] using hbound
      cases houtcome with
      | none => exact h
      | some houtcome => exact h.settle hid houtcome

/-- The names of an export gain nothing from builtins. -/
theorem Gains.exportNames (hgoing : cx.stopAtFirst = false) (h : w.Gains more)
    (ids : List Identifier) :
    (w.exportNames cx ids).2.Gains (more.exportNames (cx.withBuiltins names) ids).2 := by
  induction ids generalizing w more with
  | nil => exact h
  | cons id ids ih =>
      refine ih ?_
      rw [exportName_eq_answer, exportName_eq_answer]
      exact h.answer hgoing (OutcomeGains.refl_option _)

/-- A name that is declared in a block gains nothing from builtins. -/
theorem Gains.declareLocal (h : w.Gains more) (id : Identifier) :
    (w.declareLocal cx id).2.Gains (more.declareLocal (cx.withBuiltins names) id).2 := by
  unfold Walker.declareLocal
  rw [h.scopes]
  have hscopes (scopes : ScopeStack) : { w with scopes }.Gains { more with scopes } :=
    ⟨rfl, h.failures, h.settled⟩
  split
  · exact (hscopes _).bind id _
  · exact (hscopes _).note _

/-- Nor does a name that is declared at any other level. -/
theorem Gains.declareName (hgoing : cx.stopAtFirst = false) (h : w.Gains more) (topLevel : Bool)
    (id : Identifier) :
    (w.declareName cx topLevel id).2.Gains
      (more.declareName (cx.withBuiltins names) topLevel id).2 := by
  have hw := halted_of_going hgoing w
  have hmore : more.halted (cx.withBuiltins names) = false := halted_of_going hgoing more
  rw [Walker.declareName, Walker.declareName, hw, hmore]
  cases topLevel with
  | true =>
      rw [if_neg Bool.false_ne_true, if_neg Bool.false_ne_true, if_pos rfl, if_pos rfl,
        declareTopLevel_eq_answer hw, declareTopLevel_eq_answer hmore]
      exact h.answer hgoing (OutcomeGains.refl_option _)
  | false => exact h.declareLocal id

end Walker

namespace Node

section walk

variable {cx : WalkContext} {names : List String}

mutual

/-- **Two walks**: with more builtins the walk of a node keeps the scopes, and what is no longer a
failure is bound. -/
theorem gains_walk (hgoing : cx.stopAtFirst = false) (hnames : cx.builtins ⊆ names)
    (pending : Option String) (n : Node) {w more : Walker} (h : w.Gains more) :
    (n.walk cx pending w).2.Gains (n.walk (cx.withBuiltins names) pending more).2 := by
  have hw := Walker.halted_of_going hgoing w
  have hmore : more.halted (cx.withBuiltins names) = false := Walker.halted_of_going hgoing more
  cases n with
  | block info body =>
      rw [walk_block hw, walk_block hmore]
      exact (gains_walkAll hgoing hnames pending body h.enterBlock).leaveBlock
  | varDecl info name init isConst =>
      rw [walk_varDecl_eq hw pending info name init isConst rfl,
        walk_varDecl_eq hmore pending info name init isConst rfl, h.scopes]
      exact (gains_walkOption hgoing hnames _ init h).declareName hgoing w.scopes.isTopLevel name
  | exportDecl info ids => exact h.exportNames hgoing ids
  | identifier id =>
      rw [walk, walk, Walker.useName_eq_answer, Walker.useName_eq_answer, h.scopes]
      exact h.answer hgoing (.some (WalkContext.resolve_withBuiltins hnames pending w.scopes id))
  | sequence info form items => exact gains_walkAll hgoing hnames pending items h
  | unary info form operand => exact gains_walk hgoing hnames pending operand h
  | inOf info left right valueOf =>
      have hleft := gains_walk hgoing hnames pending left h
      exact gains_walk hgoing hnames pending right hleft
  | _ => exact h

theorem gains_walkAll (hgoing : cx.stopAtFirst = false) (hnames : cx.builtins ⊆ names)
    (pending : Option String) (ns : List Node) {w more : Walker} (h : w.Gains more) :
    (walkAll cx pending ns w).2.Gains (walkAll (cx.withBuiltins names) pending ns more).2 := by
  cases ns with
  | nil => exact h
  | cons n ns =>
      have hfirst := gains_walk hgoing hnames pending n h
      exact gains_walkAll hgoing hnames pending ns hfirst

theorem gains_walkOption (hgoing : cx.stopAtFirst = false) (hnames : cx.builtins ⊆ names)
    (pending : Option String) (init : Option Node) {w more : Walker} (h : w.Gains more) :
    (walkOption cx pending init w).2.Gains
      (walkOption (cx.withBuiltins names) pending init more).2 := by
  cases init with
  | none => exact h
  | some n => exact gains_walk hgoing hnames pending n h

end

end walk

/-! ## outcomes -/

/-- Only the outcome of a use is a matter of the builtins. -/
theorem outcomeAt?_withBuiltins {n : Node} {p : Position} (hrole : n.roleAt p ≠ .use)
    (cx : WalkContext) (names : List String) (id : Identifier) :
    n.outcomeAt? (cx.withBuiltins names) p id = n.outcomeAt? cx p id := by
  unfold outcomeAt?
  cases h : n.roleAt p with
  | use => exact absurd h hrole
  | declared => rfl
  | imported => rfl
  | exported => rfl

end Node

/-! ## one unit -/

/-- An occurrence with its role, after a pass with the builtins `fewer` and after one with the
builtins `more`. -/
inductive Identifier.GainsBuiltin (fewer more : List String) (role : Role) :
    Identifier → Identifier → Prop where
  | same (id : Identifier) : GainsBuiltin fewer more role id id
  /-- The occurrence was left unbound and is bound to a builtin now. -/
  | found {id : Identifier} (hrole : role = .use) (hid : id.binding = none)
      (hmem : id.name ∈ more) (hnew : id.name ∉ fewer) :
      GainsBuiltin fewer more role id { id with binding := some (.ofBuiltin id.name) }

/-- An outcome that gains a builtin fills the identifier with it. -/
theorem Identifier.gainsBuiltin_fill {fewer more : List String} {id : Identifier}
    {outcome gained : Except Cause Binding} (h : OutcomeGains fewer more id.name outcome gained) :
    GainsBuiltin fewer more .use (id.fill (some outcome)) (id.fill (some gained)) := by
  cases hbound : id.isBound with
  | true =>
      rw [fill_of_isBound hbound, fill_of_isBound hbound]
      exact .same id
  | false =>
      have hid : id.binding = none := by simpa [isBound] using hbound
      cases h with
      | same => exact .same _
      | found hmem hnew =>
          rw [fill_error, fill_ok hid]
          exact .found rfl hid hmem hnew

namespace SourceUnit

/-- What a unit `u` becomes when a pass has the builtins `more` and not only `fewer`. -/
structure GainsBuiltins (fewer more : List String) (u v : SourceUnit) : Prop where
  skeleton : v.skeleton = u.skeleton
  /-- A bound identifier has the same binding. -/
  kept : ∀ {p id}, u.root.at? p = some (.identifier id) → id.isBound = true →
    v.root.at? p = some (.identifier id)
  /-- An identifier that is bound now is a use of a new builtin. -/
  gained : ∀ {p id after}, u.root.at? p = some (.identifier id) →
    v.root.at? p = some (.identifier after) → id.isBound = false → after.isBound = true →
      u.root.roleAt p = .use ∧ after.binding = some (.ofBuiltin after.name) ∧
        after.name ∈ more ∧ after.name ∉ fewer
  resolved : u.isResolved = true → v.isResolved = true

theorem GainsBuiltins.refl (fewer more : List String) (u : SourceUnit) :
    u.GainsBuiltins fewer more u := by
  refine ⟨rfl, fun hp _ => hp, fun hp hafter hid hbound => ?_, id⟩
  obtain rfl : _ = _ := by simpa [hp] using hafter
  simp [hid] at hbound

end SourceUnit

/-- Two configurations that do not stop at a failure, the second with all builtins of the first. -/
structure Config.AddsBuiltins (fewer more : Config) : Prop where
  goesOn : fewer.stopAtFirstUnresolved = false
  goesOn' : more.stopAtFirstUnresolved = false
  builtins : fewer.builtins ⊆ more.builtins

namespace SourceUnit

variable {u : SourceUnit} {fewer more : Config}

/-- With more builtins the walk of a unit knows those, and else the same. -/
theorem walkContext_of_addsBuiltins (h : fewer.AddsBuiltins more) (tables : Tables)
    (u : SourceUnit) :
    u.walkContext more tables = (u.walkContext fewer tables).withBuiltins more.builtins := by
  rw [walkContext, walkContext, WalkContext.withBuiltins, h.goesOn, h.goesOn']

/-- The walk in a pass with more builtins gains on the walk in the other one. -/
theorem gains_walked (h : fewer.AddsBuiltins more) (tables : Tables) (u : SourceUnit) :
    (u.walked fewer tables).2.Gains (u.walked more tables).2 := by
  have hgoing : (u.walkContext fewer tables).stopAtFirst = false := h.goesOn
  have hnames : (u.walkContext fewer tables).builtins ⊆ more.builtins := h.builtins
  have hwalk := Node.gains_walk hgoing hnames none (u.bindImports tables).root (.refl {})
  rw [← walkContext_of_addsBuiltins h, walk_root, walk_root] at hwalk
  exact hwalk

/-- With more builtins a pass over a unit settles as many names. -/
theorem settled_resolve (h : fewer.AddsBuiltins more) (tables : Tables) (u : SourceUnit) :
    (u.resolve more tables).bound + (u.resolve more tables).unresolved =
      (u.resolve fewer tables).bound + (u.resolve fewer tables).unresolved := by
  cases hu : u.isResolved with
  | true => rw [resolve_of_isResolved hu, resolve_of_isResolved hu]
  | false =>
      have hsettled := (gains_walked h tables u).settled
      have hbound : ∀ config : Config, (u.resolveNow config tables).bound =
          total (u.importDecls.map (·.bound tables)) + (u.walked config tables).2.bound :=
        fun _ => rfl
      have hunresolved : ∀ config : Config, (u.resolveNow config tables).unresolved =
          u.collect.duplicates.length + total (u.importDecls.map (·.unresolved tables)) +
            (u.walked config tables).2.failures.length := fun _ => rfl
      rw [resolve_of_open hu, resolve_of_open hu, hbound, hbound, hunresolved, hunresolved]
      omega

/-- A unit that is resolved with fewer builtins is resolved with more. -/
theorem isResolved_of_addsBuiltins (h : fewer.AddsBuiltins more) {tables : Tables}
    (hu : (u.resolveNow fewer tables).unit.isResolved = true) :
    (u.resolveNow more tables).unit.isResolved = true := by
  obtain ⟨hfound, hprogram⟩ := failures_of_isResolved hu
  have hsublist : (u.foundFailures more tables).Sublist (u.foundFailures fewer tables) :=
    (List.Sublist.refl _).append (gains_walked h tables u).failures
  rw [hfound] at hsublist
  rw [isResolved_resolveNow, hprogram, List.eq_nil_of_sublist_nil hsublist]
  rfl

/-- **One occurrence**: both passes leave the same identifier, or a use gets bound to a new
builtin. -/
theorem gainsBuiltin_resolveNow (h : fewer.AddsBuiltins more) (tables : Tables) {p : Position}
    {before : Identifier} (hp : u.root.at? p = some (.identifier before)) :
    ∃ id after, (u.resolveNow fewer tables).unit.root.at? p = some (.identifier id) ∧
      (u.resolveNow more tables).unit.root.at? p = some (.identifier after) ∧
      id.GainsBuiltin fewer.builtins more.builtins (u.root.roleAt p) after := by
  by_cases himport : ∃ i, u.ImportsAt p i
  · -- An imported name is bound before the walk, where no builtin is looked up.
    obtain ⟨i, hi⟩ := himport
    exact ⟨_, _, at?_resolveNow_of_importsAt hi hp fewer tables,
      at?_resolveNow_of_importsAt hi hp more tables, .same _⟩
  · have hnot : ∀ i, ¬ u.ImportsAt p i := fun i hi => himport ⟨i, hi⟩
    have hnames : (u.walkContext fewer tables).builtins ⊆ more.builtins := h.builtins
    refine ⟨_, _, at?_resolveNow hp hnot h.goesOn tables, at?_resolveNow hp hnot h.goesOn' tables,
      ?_⟩
    rw [walkContext_of_addsBuiltins h]
    by_cases hrole : u.root.roleAt p = .use
    · rw [Node.outcomeAt?, Node.outcomeAt?, hrole]
      exact Identifier.gainsBuiltin_fill (WalkContext.resolve_withBuiltins hnames _ _ before)
    · rw [Node.outcomeAt?_withBuiltins hrole]
      exact .same _

/-- A pass over an open unit gains additional builtins and nothing else. -/
theorem gainsBuiltins_resolveNow (h : fewer.AddsBuiltins more) (tables : Tables)
    (u : SourceUnit) :
    (u.resolveNow fewer tables).unit.GainsBuiltins fewer.builtins more.builtins
      (u.resolveNow more tables).unit := by
  have hskeleton := skeleton_resolveNow fewer tables u
  have hfate : ∀ {p id}, (u.resolveNow fewer tables).unit.root.at? p = some (.identifier id) →
      ∃ after, (u.resolveNow more tables).unit.root.at? p = some (.identifier after) ∧
        id.GainsBuiltin fewer.builtins more.builtins
          ((u.resolveNow fewer tables).unit.root.roleAt p) after := by
    intro p id hid
    obtain ⟨before, hbefore, -⟩ := exists_at?_of_skeleton hskeleton hid
    obtain ⟨id', after, hid', hafter, hgains⟩ := gainsBuiltin_resolveNow h tables hbefore
    obtain rfl : id' = id := by simpa [hid] using hid'.symm
    rw [roleAt_of_skeleton hskeleton]
    exact ⟨after, hafter, hgains⟩
  refine ⟨(skeleton_resolveNow more tables u).trans hskeleton.symm, ?_, ?_,
    isResolved_of_addsBuiltins h⟩
  · intro p id hid hbound
    obtain ⟨after, hafter, hgains⟩ := hfate hid
    cases hgains with
    | same => exact hafter
    | found _ hnone => simp [Identifier.isBound, hnone] at hbound
  · intro p id after hid hafter hopen hbound
    obtain ⟨after', hafter', hgains⟩ := hfate hid
    obtain rfl : after' = after := by simpa [hafter] using hafter'.symm
    cases hgains with
    | same => simp [hopen] at hbound
    | found hrole _ hmem hnew => exact ⟨hrole, rfl, hmem, hnew⟩

theorem gainsBuiltins_resolve (h : fewer.AddsBuiltins more) (tables : Tables) (u : SourceUnit) :
    (u.resolve fewer tables).unit.GainsBuiltins fewer.builtins more.builtins
      (u.resolve more tables).unit := by
  cases hu : u.isResolved with
  | true =>
      rw [resolve_of_isResolved hu, resolve_of_isResolved hu]
      exact .refl _ _ u
  | false =>
      rw [resolve_of_open hu, resolve_of_open hu]
      exact gainsBuiltins_resolveNow h tables u

end SourceUnit

/-! ## the program -/

namespace Program

/-- The names that a pass has bound or could not resolve, unit by unit. -/
theorem settled_eq_total (config : Config) (P : Program) :
    (P.resolve config).report.bound + (P.resolve config).report.unresolved =
      total (P.units.map fun u =>
        (u.resolve config P.tables).bound + (u.resolve config P.tables).unresolved) := by
  rw [bound_resolve_eq, unresolved_resolve]
  exact List.sum_map_add.symm

/-- **More builtins**: of two passes that do not stop at a failure, the one with more builtins keeps
every binding, binds nothing else but uses of the additional builtins, resolves every unit that the
other one resolves, and settles as many names. -/
theorem resolve_moreBuiltins {fewer more : Config} (hstop : fewer.stopAtFirstUnresolved = false)
    (hstop' : more.stopAtFirstUnresolved = false) (hbuiltins : fewer.builtins ⊆ more.builtins)
    (P : Program) :
    List.Forall₂ (SourceUnit.GainsBuiltins fewer.builtins more.builtins)
        (P.resolve fewer).program.units (P.resolve more).program.units ∧
      (P.resolve more).report.bound + (P.resolve more).report.unresolved =
        (P.resolve fewer).report.bound + (P.resolve fewer).report.unresolved := by
  have hadds : fewer.AddsBuiltins more := ⟨hstop, hstop', hbuiltins⟩
  constructor
  · rw [units_resolve, units_resolve, List.forall₂_map_left_iff, List.forall₂_map_right_iff,
      List.forall₂_same]
    exact fun u _ => SourceUnit.gainsBuiltins_resolve hadds P.tables u
  · rw [settled_eq_total, settled_eq_total]
    exact congrArg total
      (List.map_congr_left fun u _ => SourceUnit.settled_resolve hadds P.tables u)

end Program

/-- `var y = x; print y`. -/
def printing : Program where
  entry := "a.ql"
  entryKind := .module
  sources :=
    [{ source := { id := 0, name := "a.ql", kind := .module, lineStarts := [0] }
       nodes :=
        [.varDecl { location := ⟨1, 1, 0, 9⟩ } (.plain "y" 4) (some (.identifier (.plain "x" 8)))
            false,
          .identifier (.plain "print" 11), .identifier (.plain "y" 17)] }]

/-- Without `print` among the builtins three of four names are bound, with it all of them. -/
theorem moreBuiltins_printing :
    List.Forall₂ (SourceUnit.GainsBuiltins ["x"] ["print", "x"])
        (printing.resolve { builtins := ["x"] }).program.units
        (printing.resolve { builtins := ["print", "x"] }).program.units ∧
      (printing.resolve { builtins := ["x"] }).report = ⟨3, 1, [], ["a.ql"]⟩ ∧
      (printing.resolve { builtins := ["print", "x"] }).report = ⟨4, 0, ["a.ql"], []⟩ := by
  have hbuiltins : ["x"] ⊆ ["print", "x"] := by simp
  have hgains := (@Program.resolve_moreBuiltins { builtins := ["x"] }
    { builtins := ["print", "x"] } rfl rfl hbuiltins printing).1
  exact ⟨hgains, by decide, by decide⟩

end NameResolution
