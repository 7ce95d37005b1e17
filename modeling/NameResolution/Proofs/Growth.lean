import Mathlib.Data.List.Forall2
import NameResolution.Proofs.Counting
import NameResolution.Proofs.SecondPass

/-!
# A pass only adds

A pass fills places that were empty and puts diagnostics behind those that are there. Nothing is
taken away: with the new bindings erased, the trees are the ones from before.

The layers are

* one identifier (`Identifier.Grows`), from the single steps of a walk over whole walks to units;
* the tree around the identifiers: a tree is determined by its skeleton and its identifiers
  (`Node.put_of_skeleton`);
* the number of new bindings (`newlyBound_add`).

Main statement: `Program.resolve_only_adds`.
-/

namespace NameResolution

/-! ## one identifier -/

namespace Identifier

/-- `after` is the identifier `id`, or `id` was unbound and `after` is `id` with a binding. -/
structure Grows (id after : Identifier) : Prop where
  unbound : after.unbound = id.unbound
  kept : id.isBound = true → after = id

theorem Grows.refl (id : Identifier) : id.Grows id := ⟨rfl, fun _ => rfl⟩

theorem Grows.trans {id now after : Identifier} (h : id.Grows now) (h' : now.Grows after) :
    id.Grows after := by
  refine ⟨h'.unbound.trans h.unbound, fun hbound => ?_⟩
  obtain rfl := h.kept hbound
  exact h'.kept hbound

/-- Filling an identifier lets it grow. -/
theorem grows_fill (id : Identifier) (outcome : Option (Except Cause Binding)) :
    id.Grows (id.fill outcome) :=
  ⟨unbound_fill id outcome, fun h => fill_of_isBound h outcome⟩

/-- The identifier `after`, without its binding if `before` had none. -/
def eraseNew (before after : Identifier) : Identifier :=
  if before.isBound then after else after.unbound

/-- Erasing what an identifier has gained gives it back as it was. -/
theorem Grows.eraseNew_eq {id after : Identifier} (h : id.Grows after) :
    id.eraseNew after = id := by
  cases hbound : id.isBound with
  | true => simp [eraseNew, hbound, h.kept hbound]
  | false =>
      have hnone : id.binding = none := by simpa [isBound] using hbound
      have hself : id.unbound = id := by rw [Identifier.unbound, ← hnone]
      simp [eraseNew, hbound, h.unbound, hself]

/-- A bound identifier stays bound when it grows. -/
theorem Grows.isBound_after {id after : Identifier} (h : id.Grows after)
    (hbound : id.isBound = true) : after.isBound = true := by
  rw [h.kept hbound, hbound]

end Identifier

/-- The identifiers of one list have grown into those of the other, one by one. -/
abbrev GrowAll : List Identifier → List Identifier → Prop := List.Forall₂ Identifier.Grows

theorem GrowAll.refl (ids : List Identifier) : GrowAll ids ids :=
  List.forall₂_same.mpr fun id _ => .refl id

theorem GrowAll.trans {ids now after : List Identifier} (h : GrowAll ids now)
    (h' : GrowAll now after) : GrowAll ids after := by
  induction h generalizing after with
  | nil => exact h'
  | cons hid _ ih =>
      cases h' with
      | cons hnow hrest => exact .cons (hid.trans hnow) (ih hrest)

/-- Erasing what identifiers have gained gives them back as they were. -/
theorem GrowAll.eraseNew_eq {ids after : List Identifier} (h : GrowAll ids after) :
    List.zipWith Identifier.eraseNew ids after = ids := by
  induction h with
  | nil => rfl
  | cons hid _ ih => rw [List.zipWith_cons_cons, hid.eraseNew_eq, ih]

/-! ## the walk -/

namespace Walker

theorem grows_answer (cx : WalkContext) (w : Walker) (id : Identifier)
    (outcome : Option (Except Cause Binding)) : id.Grows (w.answer cx id outcome).1 := by
  cases hw : w.halted cx with
  | true => simp [answer_of_halted hw, Identifier.Grows.refl]
  | false => simp [fst_answer hw, Identifier.grows_fill]

theorem grows_exportNames (cx : WalkContext) (w : Walker) (ids : List Identifier) :
    GrowAll ids (w.exportNames cx ids).1 := by
  induction ids generalizing w with
  | nil => exact .nil
  | cons id ids ih => exact .cons (grows_answer cx w id (some (cx.resolveExport id))) (ih _)

theorem grows_declareName (cx : WalkContext) (topLevel : Bool) (name : Identifier) (w : Walker) :
    name.Grows (w.declareName cx topLevel name).1 := by
  cases hw : w.halted cx with
  | true => simp [declareName, hw, Identifier.Grows.refl]
  | false =>
      cases topLevel with
      | true => simp [declareName, hw, declareTopLevel_eq_answer hw, grows_answer]
      | false => simp [declareName, hw, fst_declareLocal, Identifier.grows_fill]

end Walker

namespace Node

mutual

/-- A walk only binds identifiers that were unbound. -/
theorem grows_walk (cx : WalkContext) (pending : Option String) (n : Node) (w : Walker) :
    GrowAll n.identifiers (n.walk cx pending w).1.identifiers := by
  cases hw : w.halted cx with
  | true =>
      rw [walk_of_halted hw]
      exact .refl n.identifiers
  | false =>
      cases n with
      | block info body =>
          rw [walk_block hw]
          exact grows_walkAll cx pending body w.enterBlock
      | varDecl info name init isConst =>
          rw [walk_varDecl_eq hw pending info name init isConst rfl]
          exact .cons (Walker.grows_declareName cx _ name _) (grows_walkOption cx _ init w)
      | exportDecl info names => exact Walker.grows_exportNames cx w names
      | identifier id =>
          exact .cons (Walker.grows_answer cx w id (some (cx.resolve pending w.scopes id))) .nil
      | sequence info form items => exact grows_walkAll cx pending items w
      | unary info form operand => exact grows_walk cx pending operand w
      | inOf info left right valueOf =>
          exact List.rel_append (grows_walk cx pending left w) (grows_walk cx pending right _)
      | importDecl info path names asName => exact .refl names
      | empty | literal | type => exact .nil

/-- The identifiers in a list of nodes grow on the walk. -/
theorem grows_walkAll (cx : WalkContext) (pending : Option String) (ns : List Node) (w : Walker) :
    GrowAll (identifiersAll ns) (identifiersAll (walkAll cx pending ns w).1) := by
  cases ns with
  | nil => exact .nil
  | cons n ns =>
      exact List.rel_append (grows_walk cx pending n w) (grows_walkAll cx pending ns _)

theorem grows_walkOption (cx : WalkContext) (pending : Option String) (init : Option Node)
    (w : Walker) :
    GrowAll (identifiersOption init) (identifiersOption (walkOption cx pending init w).1) := by
  cases init with
  | none => exact .nil
  | some n => exact grows_walk cx pending n w

end

/-- The identifiers of an import grow when they are bound. -/
theorem grows_bindImport (tables : Tables) (n : Node) :
    GrowAll n.identifiers (n.bindImport tables).identifiers := by
  cases n with
  | importDecl info path names asName =>
      refine List.forall₂_map_right_iff.mpr (List.forall₂_same.mpr fun id _ => ?_)
      rw [Import.bindName_eq_fill]
      exact id.grows_fill _
  | _ => exact .refl _

theorem grows_bindImports (tables : Tables) (ns : List Node) :
    GrowAll (identifiersAll ns) (identifiersAll (ns.map (·.bindImport tables))) := by
  induction ns with
  | nil => exact .nil
  | cons n ns ih => exact List.rel_append (n.grows_bindImport tables) ih

/-! ## a tree from its skeleton and its identifiers -/

/-- Putting names in the place of names that differ in bindings only gives the former. -/
theorem putNames_of_unbound {names others : List Identifier}
    (h : others.map (·.unbound) = names.map (·.unbound)) (rest : List Identifier) :
    putNames others (names ++ rest) = (names, rest) := by
  induction names generalizing others with
  | nil => simp_all [putNames]
  | cons name names ih =>
      cases others with
      | nil => simp at h
      | cons other others => simp_all [putNames]

mutual

/-- Putting the identifiers of a tree into another tree with its skeleton gives the tree. -/
theorem put_of_skeleton (n m : Node) (h : m.skeleton = n.skeleton) (rest : List Identifier) :
    m.put (n.identifiers ++ rest) = (n, rest) := by
  cases n with
  | empty info =>
      obtain rfl := empty_of_skeleton h
      rfl
  | literal info value =>
      obtain rfl := literal_of_skeleton h
      rfl
  | type t =>
      obtain rfl := type_of_skeleton h
      rfl
  | block info body =>
      obtain ⟨body', rfl, hbody⟩ := block_of_skeleton h
      simp only [identifiers, put, putAll_of_skeleton body body' hbody]
  | varDecl info name init isConst =>
      obtain ⟨name', init', rfl, -, hinit⟩ := varDecl_of_skeleton h
      simp [identifiers, put, putOption_of_skeleton init init' hinit]
  | importDecl info path names asName =>
      obtain ⟨names', rfl, hnames⟩ := importDecl_of_skeleton h
      simp only [identifiers, put, putNames_of_unbound hnames]
  | exportDecl info names =>
      obtain ⟨names', rfl, hnames⟩ := exportDecl_of_skeleton h
      simp only [identifiers, put, putNames_of_unbound hnames]
  | identifier id =>
      obtain ⟨id', rfl, -⟩ := identifier_of_skeleton h
      simp [identifiers, put]
  | sequence info form items =>
      obtain ⟨items', rfl, hitems⟩ := sequence_of_skeleton h
      simp only [identifiers, put, putAll_of_skeleton items items' hitems]
  | unary info form operand =>
      obtain ⟨operand', rfl, hoperand⟩ := unary_of_skeleton h
      simp only [identifiers, put, put_of_skeleton operand operand' hoperand]
  | inOf info left right valueOf =>
      obtain ⟨left', right', rfl, hleft, hright⟩ := inOf_of_skeleton h
      simp only [identifiers, put, List.append_assoc, put_of_skeleton left left' hleft,
        put_of_skeleton right right' hright]

/-- Putting the identifiers of some nodes into others with the same skeletons gives the former. -/
theorem putAll_of_skeleton (ns ms : List Node) (h : skeletonAll ms = skeletonAll ns)
    (rest : List Identifier) : putAll ms (identifiersAll ns ++ rest) = (ns, rest) := by
  cases ns with
  | nil =>
      obtain rfl := nil_of_skeletonAll h
      rfl
  | cons n ns =>
      obtain ⟨m, ms, rfl, hhead, htail⟩ := cons_of_skeletonAll h
      simp only [identifiersAll, putAll, List.append_assoc, put_of_skeleton n m hhead,
        putAll_of_skeleton ns ms htail]

theorem putOption_of_skeleton (init init' : Option Node)
    (h : skeletonOption init' = skeletonOption init) (rest : List Identifier) :
    putOption init' (identifiersOption init ++ rest) = (init, rest) := by
  cases init with
  | none =>
      obtain rfl := none_of_skeletonOption h
      rfl
  | some n =>
      obtain ⟨m, rfl, hm⟩ := some_of_skeletonOption h
      simp only [identifiersOption, putOption, put_of_skeleton n m hm]

end

end Node

/-! ## the number of new bindings -/

/-- The number of identifiers that are bound in the second list and were not in the first. -/
def newlyBound (before after : List Identifier) : Nat :=
  (before.zip after).countP fun pair => !pair.1.isBound && pair.2.isBound

/-- What is bound in the end was bound before or is newly bound. -/
theorem newlyBound_add {before after : List Identifier} (h : GrowAll before after) :
    newlyBound before after + boundIn before = boundIn after := by
  induction h with
  | nil => rfl
  | @cons id now before after hid _ ih =>
      have hkept := hid.isBound_after
      have hcons : newlyBound (id :: before) (now :: after) =
          newlyBound before after + if !id.isBound && now.isBound then 1 else 0 :=
        List.countP_cons
      rw [hcons, boundIn_cons, boundIn_cons, ← ih]
      cases hbefore : id.isBound <;> cases hafter : now.isBound <;> simp_all <;> omega

/-! ## units -/

namespace SourceUnit

/-- The unit `after` without the bindings of those identifiers that are unbound in `u`. -/
def eraseNew (u after : SourceUnit) : SourceUnit :=
  (after.put (List.zipWith Identifier.eraseNew u.identifiers after.identifiers)).1

/-- The unit `after` has all that `u` has: every identifier keeps its binding, and without the new
bindings the trees are the same; diagnostics stay in front of the new ones; and a unit that is
resolved has not changed at all, so it is still resolved. -/
structure Grows (u after : SourceUnit) : Prop where
  source : after.source = u.source
  bindings : List.Forall₂ (fun id id' => id.isBound = true → id'.binding = id.binding)
    u.identifiers after.identifiers
  imports : (u.eraseNew after).imports = u.imports
  nodes : (u.eraseNew after).nodes = u.nodes
  diagnostics : u.diagnostics <+: after.diagnostics
  resolved : u.isResolved = true → after = u

/-- The identifiers of a unit grow in a pass. -/
theorem grows_identifiers (config : Config) (tables : Tables) (u : SourceUnit) :
    GrowAll u.identifiers (u.resolve config tables).unit.identifiers := by
  cases hopen : u.isResolved with
  | true =>
      rw [resolve_of_isResolved hopen]
      exact .refl u.identifiers
  | false =>
      have himports := Node.grows_bindImports tables u.topLevel
      rw [← topLevel_bindImports] at himports
      have hwalk :=
        Node.grows_walk (u.walkContext config tables) none (u.bindImports tables).root {}
      rw [walk_root] at hwalk
      rw [resolve_of_open hopen]
      exact himports.trans hwalk

/-- Without the bindings that are new, a unit that has grown has its old trees. -/
theorem eraseNew_of_growAll {u after : SourceUnit} (hskeleton : after.skeleton = u.skeleton)
    (h : GrowAll u.identifiers after.identifiers) :
    (u.eraseNew after).imports = u.imports ∧ (u.eraseNew after).nodes = u.nodes := by
  have himports : Node.skeletonAll after.imports = Node.skeletonAll u.imports :=
    congrArg SourceUnit.imports hskeleton
  have hnodes : Node.skeletonAll after.nodes = Node.skeletonAll u.nodes :=
    congrArg SourceUnit.nodes hskeleton
  have hsplit : u.identifiers =
      Node.identifiersAll u.imports ++ (Node.identifiersAll u.nodes ++ []) := by
    simp [identifiers, topLevel, Node.identifiersAll_eq_flatMap]
  rw [eraseNew, h.eraseNew_eq, hsplit, put]
  simp [Node.putAll_of_skeleton u.imports after.imports himports,
    Node.putAll_of_skeleton u.nodes after.nodes hnodes, -List.append_nil]

/-- A pass keeps the diagnostics of a unit and adds to them. -/
theorem diagnostics_resolve (config : Config) (tables : Tables) (u : SourceUnit) :
    u.diagnostics <+: (u.resolve config tables).unit.diagnostics := by
  cases hopen : u.isResolved with
  | true => simp [resolve_of_isResolved hopen]
  | false =>
      rw [resolve_of_open hopen, unit_resolveNow]
      obtain ⟨added, hadded⟩ := Diagnostic.pushAllNew_eq_append u.diagnostics
        (recorded config (u.foundFailures config tables))
      exact ⟨added, hadded.symm⟩

/-- **Growth of a unit**: a unit's share of a pass only adds to the unit. -/
theorem grows_resolve (config : Config) (tables : Tables) (u : SourceUnit) :
    u.Grows (u.resolve config tables).unit := by
  have hskeleton := skeleton_resolve config tables u
  have hgrow := grows_identifiers config tables u
  obtain ⟨himports, hnodes⟩ := eraseNew_of_growAll hskeleton hgrow
  have hsource : (u.resolve config tables).unit.skeleton.source = u.skeleton.source := by
    rw [hskeleton]
  refine ⟨hsource, ?_, himports, hnodes,
    diagnostics_resolve config tables u, fun h => by rw [resolve_of_isResolved h]⟩
  exact hgrow.imp fun id after hid hbound => by rw [hid.kept hbound]

end SourceUnit

/-! ## programs -/

namespace Program

/-- The program `after` has all that `P` has: the same units in the same stores and in the same
order, each of which has grown, and the diagnostics about the program in front of the new ones. -/
structure Grows (P after : Program) : Prop where
  entry : after.entry = P.entry
  entryKind : after.entryKind = P.entryKind
  version : after.version = P.version
  values : List.Forall₂ SourceUnit.Grows P.values after.values
  sources : List.Forall₂ SourceUnit.Grows P.sources after.sources
  diagnostics : P.diagnostics <+: after.diagnostics

/-- The check of the entry keeps the diagnostics of the program. -/
theorem diagnostics_checkEntry (P : Program) : P.diagnostics <+: P.checkEntry.diagnostics := by
  unfold checkEntry
  split
  · exact List.prefix_rfl
  · next message _ =>
      obtain ⟨added, hadded⟩ := Diagnostic.pushNew_eq_append P.diagnostics (.error message none)
      exact ⟨added, hadded.symm⟩

/-- A pass keeps the diagnostics of the program and adds to them. -/
theorem diagnostics_resolve (config : Config) (P : Program) :
    P.diagnostics <+: (P.resolve config).program.diagnostics := by
  rw [program_resolve]
  obtain ⟨added, hadded⟩ := Diagnostic.pushAllNew_eq_append P.checkEntry.diagnostics
    ((P.units.flatMap fun u => (u.resolve config P.tables).programFailures).map (·.diagnostic))
  exact P.diagnostics_checkEntry.trans ⟨added, hadded.symm⟩

/-- All units grow in a pass. -/
theorem grows_units (config : Config) (tables : Tables) (us : List SourceUnit) :
    List.Forall₂ SourceUnit.Grows us (us.map fun u => (u.resolve config tables).unit) :=
  List.forall₂_map_right_iff.mpr
    (List.forall₂_same.mpr fun u _ => u.grows_resolve config tables)

/-- The identifiers of a program grow in a pass. -/
theorem grows_identifiers (config : Config) (P : Program) :
    GrowAll P.identifiers (P.resolve config).program.identifiers := by
  rw [identifiers, identifiers, units_resolve, List.flatMap_map]
  induction P.units with
  | nil => exact .nil
  | cons u us ih => exact List.rel_append (u.grows_identifiers config P.tables) ih

/-- **A pass only adds**: whatever was bound, resolved or recorded stays as it was, a pass over a
program only fills empty places and appends diagnostics, and it reports how many places it has
filled. -/
theorem resolve_only_adds (config : Config) (P : Program) :
    P.Grows (P.resolve config).program ∧
      (P.resolve config).report.bound =
        newlyBound P.identifiers (P.resolve config).program.identifiers := by
  refine ⟨⟨?_, ?_, ?_, ?_, ?_, diagnostics_resolve config P⟩, ?_⟩
  · rw [program_resolve]
  · rw [program_resolve]
  · rw [program_resolve]
  · rw [values_resolve]
    exact grows_units config P.tables P.values
  · rw [sources_resolve]
    exact grows_units config P.tables P.sources
  · have hcount := bound_resolve config P
    have hnew := newlyBound_add (grows_identifiers config P)
    omega

end Program

end NameResolution
