import Mathlib.Data.List.Forall2
import NameResolution.Proofs.Counting
import NameResolution.Proofs.SecondPass

/-!
# Running the resolver again

A second pass with the same configuration changes nothing. A pass that stops at the first failure
of each unit may be followed by one that does not stop, and the two together do what the second one
would have done alone.

Main statements: `Program.resolve_again` and `Program.resolve_after_stopping`. Each is first shown
for one unit, `SourceUnit.resolve_resolve` and `SourceUnit.alike_of_stopped`, and then put together
over the units of a program.
-/

namespace NameResolution

/-! ## the same pass again -/

namespace SourceUnit

/-- A second pass leaves a unit as it is and finds the same failures. -/
theorem resolve_resolve (config : Config) (tables : Tables) (u : SourceUnit) :
    ((u.resolve config tables).unit.resolve config tables).unit =
        (u.resolve config tables).unit ∧
      ((u.resolve config tables).unit.resolve config tables).unresolved =
        (u.resolve config tables).unresolved ∧
      ((u.resolve config tables).unit.resolve config tables).programFailures =
        (u.resolve config tables).programFailures := by
  cases hopen : u.isResolved with
  | true =>
      rw [resolve_of_isResolved hopen, resolve_of_isResolved hopen]
      exact ⟨rfl, rfl, rfl⟩
  | false =>
      rw [resolve_of_open hopen]
      cases hafter : (u.resolveNow config tables).unit.isResolved with
      | true =>
          rw [resolve_of_isResolved hafter]
          exact ⟨rfl, (unresolved_of_isResolved hafter).symm,
            (failures_of_isResolved hafter).2.symm⟩
      | false =>
          have hskeleton := skeleton_resolveNow config tables u
          obtain ⟨himports, hnodes, hwalked⟩ :=
            walked_of_between hskeleton (between_resolveNow config tables u)
          have hfound := foundFailures_of_walked hskeleton hwalked
          have hprogram := programFailures_of_skeleton hskeleton tables
          have hrecorded : Diagnostic.pushAllNew (u.resolveNow config tables).unit.diagnostics
              (recorded config (u.foundFailures config tables)) =
                (u.resolveNow config tables).unit.diagnostics :=
            Diagnostic.pushAllNew_of_forall_mem fun d hd =>
              Diagnostic.mem_pushAllNew.mpr (.inr hd)
          rw [resolve_of_open hafter]
          refine ⟨?_, unresolved_of_walked hskeleton hwalked, hprogram⟩
          rw [unit_resolveNow config tables (u.resolveNow config tables).unit, himports, hnodes,
            hfound, hprogram, hrecorded]
          rfl

end SourceUnit

namespace Program

/-- A second pass adds no diagnostic about the program if it finds no new failures. -/
theorem diagnostics_resolve_resolve {config config' : Config} {P : Program}
    (h : ∀ u ∈ P.units, ∀ f ∈ ((u.resolve config P.tables).unit.resolve config'
      P.tables).programFailures, f ∈ (u.resolve config P.tables).programFailures) :
    ((P.resolve config).program.resolve config').program.diagnostics =
      (P.resolve config).program.diagnostics := by
  rw [program_resolve config', tables_resolve, checkEntry_resolve, units_resolve]
  refine Diagnostic.pushAllNew_of_forall_mem fun d hd => ?_
  obtain ⟨f, hf, rfl⟩ := List.mem_map.mp hd
  obtain ⟨v, hv, hfv⟩ := List.mem_flatMap.mp hf
  obtain ⟨u, hu, rfl⟩ := List.mem_map.mp hv
  exact mem_diagnostics_resolve hu (h u hu f hfv)

/-- The report adds up what the units bind. -/
theorem bound_resolve_eq (config : Config) (P : Program) :
    (P.resolve config).report.bound =
      total (P.units.map fun u => (u.resolve config P.tables).bound) := by
  rw [report_resolve]

/-- The report adds up what the units leave unresolved. -/
theorem unresolved_resolve (config : Config) (P : Program) :
    (P.resolve config).report.unresolved =
      total (P.units.map fun u => (u.resolve config P.tables).unresolved) := by
  rw [report_resolve]

/-- The resolved units of a report are those that the pass leaves resolved. -/
theorem resolvedUnits_resolve (config : Config) (P : Program) :
    (P.resolve config).report.resolvedUnits =
      ((P.resolve config).program.units.filter (·.isResolved)).map (·.path) := by
  rw [report_resolve]

/-- The unresolved units of a report are those that the pass leaves unresolved. -/
theorem unresolvedUnits_resolve (config : Config) (P : Program) :
    (P.resolve config).report.unresolvedUnits =
      ((P.resolve config).program.units.filter (!·.isResolved)).map (·.path) := by
  rw [report_resolve]

/-- A second pass changes nothing. -/
theorem program_resolve_resolve (config : Config) (P : Program) :
    ((P.resolve config).program.resolve config).program = (P.resolve config).program := by
  have hunits : ∀ us : List SourceUnit,
      (us.map fun u => (u.resolve config P.tables).unit).map
        (fun u => (u.resolve config P.tables).unit) =
          us.map fun u => (u.resolve config P.tables).unit := by
    intro us
    rw [List.map_map]
    exact List.map_congr_left fun u _ => (u.resolve_resolve config P.tables).1
  have hdiagnostics : ((P.resolve config).program.resolve config).program.diagnostics =
      (P.resolve config).program.diagnostics := by
    refine diagnostics_resolve_resolve fun u _ f hf => ?_
    rwa [(u.resolve_resolve config P.tables).2.2] at hf
  rw [program_resolve config (P.resolve config).program] at hdiagnostics ⊢
  dsimp only at hdiagnostics
  rw [hdiagnostics, tables_resolve, program_resolve config P]
  dsimp only
  rw [hunits P.values, hunits P.sources]

/-- **Repetition**: a second pass with the same configuration leaves the program exactly as it was
and binds nothing, and its report says the same about what is not resolved. -/
theorem resolve_again (config : Config) (P : Program) :
    ((P.resolve config).program.resolve config).program = (P.resolve config).program ∧
      ((P.resolve config).program.resolve config).report.bound = 0 ∧
      ((P.resolve config).program.resolve config).report.unresolved =
        (P.resolve config).report.unresolved ∧
      ((P.resolve config).program.resolve config).report.resolvedUnits =
        (P.resolve config).report.resolvedUnits ∧
      ((P.resolve config).program.resolve config).report.unresolvedUnits =
        (P.resolve config).report.unresolvedUnits := by
  have hprogram := program_resolve_resolve config P
  refine ⟨hprogram, ?_, ?_, ?_, ?_⟩
  · have hcount := bound_resolve config (P.resolve config).program
    rw [hprogram] at hcount
    omega
  · rw [unresolved_resolve, unresolved_resolve, tables_resolve, units_resolve, List.map_map]
    exact congrArg total (List.map_congr_left fun u _ => (u.resolve_resolve config P.tables).2.1)
  · rw [resolvedUnits_resolve, hprogram, resolvedUnits_resolve]
  · rw [unresolvedUnits_resolve, hprogram, unresolvedUnits_resolve]

end Program

/-! ## a pass with the stop, then one without it -/

/-- Two units with the same tree and the same state, and with the same diagnostics in any order. -/
structure SourceUnit.Alike (u v : SourceUnit) : Prop where
  source : u.source = v.source
  imports : u.imports = v.imports
  nodes : u.nodes = v.nodes
  isResolved : u.isResolved = v.isResolved
  diagnostics : ∀ d, d ∈ u.diagnostics ↔ d ∈ v.diagnostics

namespace SourceUnit

variable {config : Config} {tables : Tables} {u : SourceUnit}

theorem Alike.refl (u : SourceUnit) : u.Alike u := ⟨rfl, rfl, rfl, rfl, fun _ => Iff.rfl⟩

/-- Units that are alike have the same identifiers, with the same bindings. -/
theorem Alike.identifiers {u v : SourceUnit} (h : u.Alike v) : u.identifiers = v.identifiers := by
  rw [SourceUnit.identifiers, SourceUnit.identifiers, topLevel, topLevel, h.imports, h.nodes]

theorem Alike.path {u v : SourceUnit} (h : u.Alike v) : u.path = v.path :=
  congrArg Source.name h.source

/-- A pass without the stop finds what the pass with the stop finds. -/
theorem foundFailures_withStop {f : Failure}
    (hf : f ∈ u.foundFailures (config.withStop true) tables) :
    f ∈ u.foundFailures (config.withStop false) tables := by
  rcases List.mem_append.mp hf with hbefore | hwalked
  · exact List.mem_append_left _ hbefore
  · have hshort := walk_full (u.walkContext (config.withStop true) tables) (u.bindImports tables)
    exact List.mem_append_right _ (hshort.failures_subset hwalked)

/-- If the pass with the stop has found nothing, it did not stop. -/
theorem resolveNow_withStop
    (h : (u.resolveNow (config.withStop true) tables).unit.isResolved = true) :
    (u.resolveNow (config.withStop false) tables).unit =
      (u.resolveNow (config.withStop true) tables).unit := by
  have hfailures := walked_failures_of_isResolved h
  have hwalked : u.walked (config.withStop false) tables =
      u.walked (config.withStop true) tables := by
    rcases walk_full (u.walkContext (config.withStop true) tables) (u.bindImports tables) with
      hsame | ⟨hhalted, -⟩
    · exact hsame
    · have hgoing : (u.walked (config.withStop true) tables).2.halted
          (u.walkContext (config.withStop true) tables) = false :=
        Walker.halted_of_failures hfailures
      exact absurd (hgoing.symm.trans hhalted) Bool.false_ne_true
  have hfound : u.foundFailures (config.withStop false) tables =
      u.foundFailures (config.withStop true) tables := by
    rw [foundFailures, foundFailures, hwalked]
  rw [unit_resolveNow, unit_resolveNow, hwalked, hfound]
  rfl

/-- What the pass with the stop leaves behind lies between the unit before and the unit after a pass
without it. -/
theorem between_withStop (config : Config) (tables : Tables) (u : SourceUnit) :
    Node.Pointwise Identifier.Between (u.bindImports tables).root
      ((u.resolveNow (config.withStop true) tables).unit.bindImports tables).root
      ((u.bindImports tables).root.walk (u.walkContext (config.withStop false) tables) none {}).1 :=
  Node.between_full (between_resolveNow (config.withStop true) tables u)

/-- Without a cap all failures are recorded. -/
theorem mem_recorded (hcap : config.maxDiagnosticsPerUnit = none) {failures : List Failure}
    {d : Diagnostic} : d ∈ recorded config failures ↔ ∃ f ∈ failures, f.diagnostic = d := by
  rw [recorded, hcap]
  dsimp only
  rw [List.mem_map]
  constructor
  · rintro ⟨f, hf, hd⟩
    exact ⟨f, (perm_sortBy _ _).mem_iff.mp hf, hd⟩
  · rintro ⟨f, hf, hd⟩
    exact ⟨f, (perm_sortBy _ _).mem_iff.mpr hf, hd⟩

/-- **Going on after the stop**: what a unit becomes by a pass with the stop and one without it, it
becomes by the second one alone. -/
theorem alike_of_stopped (hcap : config.maxDiagnosticsPerUnit = none) (tables : Tables)
    (u : SourceUnit) :
    ((u.resolve (config.withStop true) tables).unit.resolve (config.withStop false)
        tables).unit.Alike (u.resolve (config.withStop false) tables).unit ∧
      ((u.resolve (config.withStop true) tables).unit.resolve (config.withStop false)
          tables).unresolved = (u.resolve (config.withStop false) tables).unresolved ∧
      ∀ f ∈ ((u.resolve (config.withStop true) tables).unit.resolve (config.withStop false)
          tables).programFailures,
        f ∈ (u.resolve (config.withStop true) tables).programFailures := by
  cases hopen : u.isResolved with
  | true =>
      rw [resolve_of_isResolved hopen, resolve_of_isResolved hopen]
      exact ⟨.refl u, rfl, fun f hf => hf⟩
  | false =>
      rw [resolve_of_open hopen, resolve_of_open hopen]
      cases hafter : (u.resolveNow (config.withStop true) tables).unit.isResolved with
      | true =>
          have hsame := resolveNow_withStop hafter
          rw [resolve_of_isResolved hafter, hsame]
          rw [← hsame] at hafter
          exact ⟨.refl _, (unresolved_of_isResolved hafter).symm, fun f hf => by simp at hf⟩
      | false =>
          have hskeleton := skeleton_resolveNow (config.withStop true) tables u
          obtain ⟨himports, hnodes, hwalked⟩ :=
            walked_of_between hskeleton (between_withStop config tables u)
          have hfound := foundFailures_of_walked hskeleton hwalked
          have hprogram := programFailures_of_skeleton hskeleton tables
          rw [resolve_of_open hafter]
          refine ⟨⟨rfl, himports, hnodes, ?_, fun d => ?_⟩,
            unresolved_of_walked hskeleton hwalked, fun f hf => ?_⟩
          · rw [isResolved_resolveNow, isResolved_resolveNow, hfound, hprogram]
          · rw [unit_resolveNow, unit_resolveNow (config.withStop false) tables u, hfound,
              unit_resolveNow]
            simp only [Diagnostic.mem_pushAllNew]
            constructor
            · rintro ((hold | hstopped) | hfull)
              · exact .inl hold
              · obtain ⟨f, hf, rfl⟩ := (mem_recorded hcap).mp hstopped
                exact .inr ((mem_recorded hcap).mpr ⟨f, foundFailures_withStop hf, rfl⟩)
              · exact .inr hfull
            · rintro (hold | hfull)
              · exact .inl (.inl hold)
              · exact .inr hfull
          · have hmem : f ∈ (u.resolveNow (config.withStop true) tables).unit.importDecls.flatMap
                (·.programFailures tables (u.resolveNow (config.withStop true) tables).unit.path) :=
              hf
            rw [hprogram] at hmem
            exact hmem

/-- Units that are alike have the same identifiers. -/
theorem identifiers_of_alike {us vs : List SourceUnit} (h : List.Forall₂ Alike us vs) :
    us.flatMap (·.identifiers) = vs.flatMap (·.identifiers) := by
  induction h with
  | nil => rfl
  | cons hu _ ih => rw [List.flatMap_cons, List.flatMap_cons, hu.identifiers, ih]

/-- Of units that are alike the same are resolved. -/
theorem paths_of_alike {us vs : List SourceUnit} (h : List.Forall₂ Alike us vs)
    (p : Bool → Bool) :
    (us.filter fun u => p u.isResolved).map (·.path) =
      (vs.filter fun u => p u.isResolved).map (·.path) := by
  induction h with
  | nil => rfl
  | @cons u v us vs hu _ ih =>
      rw [List.filter_cons, List.filter_cons, hu.isResolved]
      cases p v.isResolved with
      | true => simpa [hu.path] using ih
      | false => simpa using ih

end SourceUnit

/-- Two programs whose units are alike, store by store and in the same order. -/
structure Program.Alike (P Q : Program) : Prop where
  entry : P.entry = Q.entry
  entryKind : P.entryKind = Q.entryKind
  version : P.version = Q.version
  values : List.Forall₂ SourceUnit.Alike P.values Q.values
  sources : List.Forall₂ SourceUnit.Alike P.sources Q.sources
  diagnostics : P.diagnostics = Q.diagnostics

namespace Program

/-- Programs that are alike have units that are alike, in the same order. -/
theorem Alike.units {P Q : Program} (h : P.Alike Q) :
    List.Forall₂ SourceUnit.Alike P.units Q.units :=
  List.rel_append h.values h.sources

/-- What concerns the program as a whole does not depend on the stop. -/
theorem diagnostics_withStop (config : Config) (P : Program) :
    (P.resolve (config.withStop true)).program.diagnostics =
      (P.resolve (config.withStop false)).program.diagnostics := by
  have hunit : ∀ u : SourceUnit,
      (u.resolve (config.withStop true) P.tables).programFailures =
        (u.resolve (config.withStop false) P.tables).programFailures := by
    intro u
    unfold SourceUnit.resolve
    split
    · rfl
    · rfl
  rw [program_resolve, program_resolve]
  simp only [hunit]

/-- A full pass after one that stopped at failures makes a program like that after the full pass
alone. -/
theorem alike_of_stopped {config : Config} (hcap : config.maxDiagnosticsPerUnit = none)
    (P : Program) :
    ((P.resolve (config.withStop true)).program.resolve (config.withStop false)).program.Alike
      (P.resolve (config.withStop false)).program := by
  have hunits : ∀ us : List SourceUnit, List.Forall₂ SourceUnit.Alike
      ((us.map fun u => (u.resolve (config.withStop true) P.tables).unit).map fun u =>
        (u.resolve (config.withStop false) P.tables).unit)
      (us.map fun u => (u.resolve (config.withStop false) P.tables).unit) := by
    intro us
    rw [List.map_map, List.forall₂_map_left_iff, List.forall₂_map_right_iff, List.forall₂_same]
    exact fun u _ => (SourceUnit.alike_of_stopped hcap P.tables u).1
  have hdiagnostics : ((P.resolve (config.withStop true)).program.resolve
      (config.withStop false)).program.diagnostics =
        (P.resolve (config.withStop true)).program.diagnostics :=
    diagnostics_resolve_resolve fun u _ => (SourceUnit.alike_of_stopped hcap P.tables u).2.2
  rw [diagnostics_withStop] at hdiagnostics
  refine ⟨?_, ?_, ?_, ?_, ?_, hdiagnostics⟩
  · rw [program_resolve, program_resolve, program_resolve]
  · rw [program_resolve, program_resolve, program_resolve]
  · rw [program_resolve, program_resolve, program_resolve]
  · rw [values_resolve, values_resolve, values_resolve, tables_resolve]
    exact hunits P.values
  · rw [sources_resolve, sources_resolve, sources_resolve, tables_resolve]
    exact hunits P.sources

/-- **Stopping and going on**: without a cap, a pass that stops at the first failure of each unit,
followed by one that does not stop, leads to the same program as the second one alone, up to the
order of the diagnostics of each unit. Together they bind as many identifiers, and the second one
reports the same about what is not resolved. -/
theorem resolve_after_stopping (builtins : List String) (P : Program) :
    let stopped := P.resolve { builtins, stopAtFirstUnresolved := true }
    let resumed := stopped.program.resolve { builtins }
    let single := P.resolve { builtins }
    resumed.program.Alike single.program ∧
      stopped.report.bound + resumed.report.bound = single.report.bound ∧
      resumed.report.unresolved = single.report.unresolved ∧
      resumed.report.resolvedUnits = single.report.resolvedUnits ∧
      resumed.report.unresolvedUnits = single.report.unresolvedUnits := by
  intro stopped resumed single
  have hcap : ({ builtins } : Config).maxDiagnosticsPerUnit = none := rfl
  have halike : resumed.program.Alike single.program := alike_of_stopped hcap P
  have hstopped : stopped.report.bound + boundIn P.identifiers =
      boundIn stopped.program.identifiers := bound_resolve _ P
  have hresumed : resumed.report.bound + boundIn stopped.program.identifiers =
      boundIn resumed.program.identifiers := bound_resolve _ stopped.program
  have hsingle : single.report.bound + boundIn P.identifiers =
      boundIn single.program.identifiers := bound_resolve _ P
  have hidentifiers : resumed.program.identifiers = single.program.identifiers :=
    SourceUnit.identifiers_of_alike halike.units
  refine ⟨halike, ?_, ?_, ?_, ?_⟩
  · rw [hidentifiers] at hresumed
    omega
  · show (stopped.program.resolve { builtins }).report.unresolved =
      (P.resolve { builtins }).report.unresolved
    rw [unresolved_resolve, unresolved_resolve, tables_resolve, units_resolve, List.map_map]
    exact congrArg total
      (List.map_congr_left fun u _ => (SourceUnit.alike_of_stopped hcap P.tables u).2.1)
  · have hpaths := SourceUnit.paths_of_alike halike.units id
    exact (resolvedUnits_resolve _ _).trans (hpaths.trans (resolvedUnits_resolve _ P).symm)
  · have hpaths := SourceUnit.paths_of_alike halike.units not
    exact (unresolvedUnits_resolve _ _).trans (hpaths.trans (unresolvedUnits_resolve _ P).symm)

end Program

end NameResolution
