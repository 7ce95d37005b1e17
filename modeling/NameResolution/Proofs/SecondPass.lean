import NameResolution.Proofs.Stopping

/-!
# A second pass over a unit

The first pass leaves a unit with some of its identifiers bound. What a pass reads of a unit, its
declarations and imports, is a matter of the skeleton, so it is there again in a second pass, and
the walk is resumed over the tree that the first one has left.

Main statements:

* `SourceUnit.walkContext_of_skeleton`, `SourceUnit.foundFailures_of_walked`: what a pass reads of a
  unit;
* `SourceUnit.between_resolveNow`: what the first pass leaves behind lies between the unit before
  and the unit after;
* `SourceUnit.walked_of_between`: from there a pass ends where it would have ended without the first
  one;
* `Program.tables_resolve`, `Program.checkEntry_resolve`: what a second pass finds in the program.
-/

namespace NameResolution

/-! ## imports without their bindings -/

namespace Import

/-- Bindings play no part in the entries of an import. -/
theorem entries_unbound (tables : Tables) (i : Import) :
    i.unbound.entries tables = i.entries tables := by
  rw [entries, entries, unbound, List.filterMap_map]
  rfl

theorem missing_unbound (tables : Tables) (i : Import) :
    i.unbound.missing tables = (i.missing tables).map (·.unbound) := by
  have hknown : i.unbound.isKnown tables = i.isKnown tables := rfl
  rw [missing, missing, hknown]
  split
  · rw [unbound, List.filter_map]
    rfl
  · rfl

theorem failures_unbound (tables : Tables) (i : Import) :
    i.unbound.failures tables = i.failures tables := by
  rw [failures, missing_unbound, List.map_map]
  rfl

theorem unresolved_unbound (tables : Tables) (i : Import) :
    i.unbound.unresolved tables = i.unresolved tables := by
  have hknown : i.unbound.isKnown tables = i.isKnown tables := rfl
  rw [unresolved, unresolved, missing_unbound, List.length_map, hknown, unbound, List.length_map]

/-- What an import says to one of its names: the declaration that the module offers, if any. -/
def outcome? (tables : Tables) (i : Import) (name : String) : Option (Except Cause Binding) :=
  (i.site? tables name).map fun location => .ok (.inModule i.path name location)

/-- Binding a name of an import fills it. -/
theorem bindName_eq_fill (tables : Tables) (i : Import) (id : Identifier) :
    i.bindName tables id = id.fill (i.outcome? tables id.name) := by
  rcases i.bindName_cases tables id with ⟨hsame, hbound | hsite⟩ | ⟨hnone, location, hsite, hbind⟩
  · rw [hsame, Identifier.fill_of_isBound hbound]
  · rw [hsame, outcome?, hsite]
    rfl
  · rw [hbind, outcome?, hsite, Option.map_some, Identifier.fill_ok hnone]

/-- Binding a name twice, perhaps with other tables the second time. -/
theorem bindName_bindName_eq_fill (tables tables' : Tables) {i j : Import} (hpath : i.path = j.path)
    (id : Identifier) : i.bindName tables' (j.bindName tables id) =
      (id.fill (j.outcome? tables id.name)).fill (j.outcome? tables' id.name) := by
  have houtcome : i.outcome? tables' id.name = j.outcome? tables' id.name := by
    rw [outcome?, outcome?, site?, site?, hpath]
  have hname : (j.bindName tables id).name = id.name :=
    Identifier.name_eq_of_unbound (unbound_bindName tables j id)
  rw [bindName_eq_fill tables' i, hname, houtcome, bindName_eq_fill]

/-- Binding a name for the second time changes nothing. -/
theorem bindName_bindName (tables : Tables) {i j : Import} (hpath : i.path = j.path)
    (id : Identifier) : i.bindName tables (j.bindName tables id) = j.bindName tables id := by
  rw [bindName_bindName_eq_fill tables tables hpath, Identifier.fill_fill, bindName_eq_fill]

end Import

/-! ## what a pass reads of a unit -/

namespace SourceUnit

variable {u v : SourceUnit} {config : Config} {tables : Tables}

/-- Bindings play no part in what is collected. -/
theorem collect_of_skeleton (h : u.skeleton = v.skeleton) : u.collect = v.collect := by
  rw [← collect_skeleton, h, collect_skeleton]

/-- What does not depend on bindings is the same for the imports of units with one skeleton. -/
theorem map_importDecls_of_skeleton (h : u.skeleton = v.skeleton) {β : Type} {f : Import → β}
    (hf : ∀ i : Import, f i.unbound = f i) : u.importDecls.map f = v.importDecls.map f := by
  have hmap : ∀ w : SourceUnit, w.importDecls.map f = w.skeleton.importDecls.map f := by
    intro w
    rw [importDecls_skeleton, List.map_map]
    exact List.map_congr_left fun i _ => (hf i).symm
  rw [hmap u, h, ← hmap v]

theorem flatMap_importDecls_of_skeleton (h : u.skeleton = v.skeleton) {β : Type}
    {f : Import → List β} (hf : ∀ i : Import, f i.unbound = f i) :
    u.importDecls.flatMap f = v.importDecls.flatMap f := by
  rw [List.flatMap_def, List.flatMap_def, map_importDecls_of_skeleton h hf]

/-- What the walk of a unit knows is a matter of the skeleton. -/
theorem walkContext_of_skeleton (h : u.skeleton = v.skeleton) (config : Config)
    (tables : Tables) : u.walkContext config tables = v.walkContext config tables := by
  have htable : u.importTable tables = v.importTable tables := by
    rw [importTable, importTable, collect_of_skeleton h,
      flatMap_importDecls_of_skeleton h (Import.entries_unbound tables)]
  rw [walkContext, walkContext, path_of_skeleton h, htable]

/-- Bindings play no part in the failures that the program hears of. -/
theorem programFailures_of_skeleton (h : u.skeleton = v.skeleton) (tables : Tables) :
    u.importDecls.flatMap (·.programFailures tables u.path) =
      v.importDecls.flatMap (·.programFailures tables v.path) := by
  rw [path_of_skeleton h]
  exact flatMap_importDecls_of_skeleton h fun _ => rfl

/-- If the walks find the same failures, so do the passes. -/
theorem foundFailures_of_walked (h : u.skeleton = v.skeleton)
    (hwalked : (u.walked config tables).2.failures = (v.walked config tables).2.failures) :
    u.foundFailures config tables = v.foundFailures config tables := by
  rw [foundFailures, foundFailures, collect_of_skeleton h, hwalked,
    flatMap_importDecls_of_skeleton h (Import.failures_unbound tables)]

/-- Units with one skeleton leave as much unresolved if their walks have the same failures. -/
theorem unresolved_of_walked (h : u.skeleton = v.skeleton)
    (hwalked : (u.walked config tables).2.failures = (v.walked config tables).2.failures) :
    (u.resolveNow config tables).unresolved = (v.resolveNow config tables).unresolved := by
  have hunresolved : ∀ w : SourceUnit, (w.resolveNow config tables).unresolved =
      w.collect.duplicates.length + total (w.importDecls.map (·.unresolved tables)) +
        (w.walked config tables).2.failures.length := fun _ => rfl
  rw [hunresolved, hunresolved, collect_of_skeleton h, hwalked,
    map_importDecls_of_skeleton h (Import.unresolved_unbound tables)]

/-! ## what a pass records -/

/-- The diagnostics that a pass records for the failures that it found. -/
def recorded (config : Config) (failures : List Failure) : List Diagnostic :=
  let sorted := sortBy (fun f => f.location.offset.toNat) failures
  let kept := match config.maxDiagnosticsPerUnit with
    | none => sorted
    | some cap => sorted.take cap.toNat
  kept.map (·.diagnostic)

/-- The unit after a pass. -/
theorem unit_resolveNow (config : Config) (tables : Tables) (u : SourceUnit) :
    (u.resolveNow config tables).unit =
      { u with
        imports := (u.walked config tables).1.imports
        nodes := (u.walked config tables).1.nodes
        diagnostics :=
          Diagnostic.pushAllNew u.diagnostics (recorded config (u.foundFailures config tables))
        isResolved := (u.foundFailures config tables).isEmpty &&
          (u.importDecls.flatMap (·.programFailures tables u.path)).isEmpty } := rfl

theorem resolve_of_isResolved (h : u.isResolved = true) (config : Config) (tables : Tables) :
    u.resolve config tables = { unit := u } := by
  rw [resolve, if_pos h]

theorem resolve_of_open (h : u.isResolved = false) (config : Config) (tables : Tables) :
    u.resolve config tables = u.resolveNow config tables := by
  rw [resolve, h, if_neg Bool.false_ne_true]

/-- A pass changes nothing but bindings in the tree of a unit. -/
theorem skeleton_resolveNow (config : Config) (tables : Tables) (u : SourceUnit) :
    (u.resolveNow config tables).unit.skeleton = u.skeleton :=
  skeleton_walked config tables u

/-- A pass that resolves a unit leaves nothing unresolved in it. -/
theorem unresolved_of_isResolved (h : (u.resolveNow config tables).unit.isResolved = true) :
    (u.resolveNow config tables).unresolved = 0 := by
  obtain ⟨hbefore, hwalked⟩ := List.append_eq_nil_iff.mp (failures_of_isResolved h).1
  obtain ⟨hduplicates, himports⟩ := List.append_eq_nil_iff.mp hbefore
  have hunresolved : ∀ i ∈ u.importDecls, i.unresolved tables = 0 := by
    intro i hi
    have hfailures : i.failures tables = [] := List.flatMap_eq_nil_iff.mp himports i hi
    have hmissing : i.missing tables = [] := List.map_eq_nil_iff.mp hfailures
    rw [Import.unresolved, if_pos (isKnown_of_isResolved h hi), hmissing, List.length_nil]
  have htotal : total (u.importDecls.map (·.unresolved tables)) = 0 :=
    List.sum_eq_zero_iff_forall_eq_nat.mpr (List.forall_mem_map.mpr hunresolved)
  show u.collect.duplicates.length + total (u.importDecls.map (·.unresolved tables)) +
    (u.walked config tables).2.failures.length = 0
  rw [hduplicates, htotal, hwalked]
  rfl

/-! ## resuming the walk -/

/-- What a pass leaves behind, with its imports bound, lies between the unit that the pass started
from and the one that it has walked. -/
theorem between_resolveNow (config : Config) (tables : Tables) (u : SourceUnit) :
    Node.Pointwise Identifier.Between (u.bindImports tables).root
      ((u.resolveNow config tables).unit.bindImports tables).root
      ((u.bindImports tables).root.walk (u.walkContext config tables) none {}).1 := by
  intro p id now done hid hnow hdone
  have hskeleton := skeleton_resolveNow config tables u
  have hafter : (u.resolveNow config tables).unit.root.at? p = some (.identifier done) := by
    rw [walk_root] at hdone
    exact hdone
  by_cases himport : ∃ i, (u.resolveNow config tables).unit.ImportsAt p i
  · -- An imported name has been bound before the walk, and the walk passes it over.
    obtain ⟨i, hi⟩ := himport
    obtain ⟨j, hj, hpath, -⟩ := exists_importsAt_of_skeleton hskeleton hi
    obtain ⟨before, hbefore, -⟩ := exists_at?_of_skeleton (skeleton_bindImports tables u) hid
    have hbound := at?_bindImports_of_importsAt hj hbefore tables
    have hdone' := at?_resolveNow_of_importsAt hj hbefore config tables
    have hnow' := at?_bindImports_of_importsAt hi hafter tables
    obtain rfl : id = j.bindName tables before := by
      rw [hid] at hbound
      simpa using hbound
    obtain rfl : done = j.bindName tables before := by
      rw [hafter] at hdone'
      simpa using hdone'
    rw [Import.bindName_bindName tables hpath.symm] at hnow'
    rw [hnow] at hnow'
    exact .inl (by simpa using hnow')
  · have hnot : ∀ i, ¬ (u.resolveNow config tables).unit.ImportsAt p i :=
      fun i hi => himport ⟨i, hi⟩
    have hsame := at?_bindImports hafter hnot tables
    rw [hnow] at hsame
    exact .inr (by simpa using hsame)

/-- The tree of a unit says what its import section and its nodes are. -/
theorem topLevel_of_root (h : u.skeleton = v.skeleton) {u' v' : SourceUnit}
    (hu : u'.skeleton = u.skeleton) (hv : v'.skeleton = v.skeleton) (hroot : u'.root = v'.root) :
    u'.imports = v'.imports ∧ u'.nodes = v'.nodes := by
  have htop : u'.imports ++ u'.nodes = v'.imports ++ v'.nodes := by
    simpa [root, topLevel] using hroot
  exact List.append_inj htop (length_imports_of_skeleton (hu.trans (h.trans hv.symm)))

/-- The walk of a unit, as the walk of a tree that starts from another unit with its skeleton. -/
theorem walked_eq (h : v.skeleton = u.skeleton) (config : Config) (tables : Tables) :
    (v.bindImports tables).root.walk (u.walkContext config tables) none {} =
      ((v.walked config tables).1.root, (v.walked config tables).2) := by
  rw [walk_root, walked, walkContext_of_skeleton h]

/-- Binding imports changes nothing but bindings. -/
theorem skeleton_root_bindImports (h : v.skeleton = u.skeleton) (tables : Tables) :
    (v.bindImports tables).root.skeleton = (u.bindImports tables).root.skeleton := by
  rw [← root_skeleton, ← root_skeleton, skeleton_bindImports, skeleton_bindImports, h]

/-- Over a unit that is underway a pass finds the failures that it would have found. -/
theorem walked_failures_of_underway (h : v.skeleton = u.skeleton)
    (hunderway : Node.Pointwise Identifier.Underway (u.bindImports tables).root
      (v.bindImports tables).root
      ((u.bindImports tables).root.walk (u.walkContext config tables) none {}).1) :
    (v.walked config tables).2.failures = (u.walked config tables).2.failures := by
  obtain ⟨hagrees, -⟩ := Node.walk_resume none (u.bindImports tables).root
    (v.bindImports tables).root (skeleton_root_bindImports h tables) (.refl {}) hunderway
  rw [walked_eq h, walked_eq rfl] at hagrees
  exact hagrees.failures

/-- **Resuming a pass**: over a unit that lies between the one before and the one after, a pass ends
where it would have ended. -/
theorem walked_of_between (h : v.skeleton = u.skeleton)
    (hbetween : Node.Pointwise Identifier.Between (u.bindImports tables).root
      (v.bindImports tables).root
      ((u.bindImports tables).root.walk (u.walkContext config tables) none {}).1) :
    (v.walked config tables).1.imports = (u.walked config tables).1.imports ∧
      (v.walked config tables).1.nodes = (u.walked config tables).1.nodes ∧
      (v.walked config tables).2.failures = (u.walked config tables).2.failures := by
  obtain ⟨hroot, hfailures⟩ :=
    Node.walk_of_between (skeleton_root_bindImports h tables) hbetween
  rw [walked_eq h, walked_eq rfl] at hroot hfailures
  obtain ⟨himports, hnodes⟩ := topLevel_of_root h (skeleton_walked config tables v)
    (skeleton_walked config tables u) hroot
  exact ⟨himports, hnodes, hfailures⟩

end SourceUnit

/-! ## the program after a pass -/

namespace Program

/-- A pass keeps the tables of units. -/
theorem map_table_resolve (config : Config) (tables : Tables) (us : List SourceUnit) :
    (us.map fun u => (u.resolve config tables).unit).map (fun u => (u.path, u.collect.table)) =
      us.map fun u => (u.path, u.collect.table) := by
  rw [List.map_map]
  refine List.map_congr_left fun u _ => ?_
  rw [Function.comp_apply, SourceUnit.path_resolve,
    SourceUnit.collect_of_skeleton (SourceUnit.skeleton_resolve config tables u)]

/-- A second pass works with the same tables. -/
theorem tables_resolve (config : Config) (P : Program) :
    (P.resolve config).program.tables = P.tables := by
  rw [tables, units_resolve, map_table_resolve, tables]

/-- The unit at a path after a pass is the one before, resolved. -/
theorem unit?_resolve (config : Config) (P : Program) (path : String) :
    (P.resolve config).program.unit? path =
      (P.unit? path).map fun u => (u.resolve config P.tables).unit := by
  rw [unit?, units_resolve, List.find?_map]
  have hpath : (fun u : SourceUnit => u.path == path) ∘
      (fun u : SourceUnit => (u.resolve config P.tables).unit) = fun u => u.path == path := by
    funext u
    rw [Function.comp_apply, SourceUnit.path_resolve]
  rw [hpath]
  rfl

/-- A pass neither solves nor causes a problem with the entry. -/
theorem entryProblem?_resolve (config : Config) (P : Program) :
    (P.resolve config).program.entryProblem? = P.entryProblem? := by
  have hentry : (P.resolve config).program.entry = P.entry := by rw [program_resolve]
  have hkind : (P.resolve config).program.entryKind = P.entryKind := by rw [program_resolve]
  rw [entryProblem?, entryProblem?, hentry, hkind, unit?_resolve]
  cases P.unit? P.entry with
  | none => rfl
  | some u =>
      have hsource : (u.resolve config P.tables).unit.skeleton.source = u.skeleton.source := by
        rw [SourceUnit.skeleton_resolve]
      have hukind : (u.resolve config P.tables).unit.kind = u.kind :=
        congrArg Source.kind hsource
      simp only [Option.map_some, entryProblemOf, hukind]

end Program

namespace Diagnostic

/-- Diagnostics that are there already are not added. -/
theorem pushAllNew_of_forall_mem {ds new : List Diagnostic} (h : ∀ d ∈ new, d ∈ ds) :
    pushAllNew ds new = ds := by
  induction new with
  | nil => rfl
  | cons d new ih =>
      have hd : pushNew ds d = ds := by rw [pushNew, if_pos (h d List.mem_cons_self)]
      have hcons : pushAllNew ds (d :: new) = pushAllNew (pushNew ds d) new := rfl
      rw [hcons, hd, ih fun e he => h e (List.mem_cons_of_mem d he)]

end Diagnostic

namespace Program

/-- After a pass the entry has been checked. -/
theorem checkEntry_resolve (config : Config) (P : Program) :
    (P.resolve config).program.checkEntry = (P.resolve config).program := by
  rw [checkEntry, entryProblem?_resolve]
  cases hproblem : P.entryProblem? with
  | none => rfl
  | some message =>
      have hchecked : .error message none ∈ P.checkEntry.diagnostics := by
        rw [checkEntry, hproblem]
        exact Diagnostic.mem_pushNew.mpr (.inr rfl)
      have hmem : .error message none ∈ (P.resolve config).program.diagnostics := by
        rw [program_resolve]
        exact Diagnostic.mem_pushAllNew.mpr (.inl hchecked)
      dsimp only
      rw [Diagnostic.pushNew, if_pos hmem]

end Program

end NameResolution
