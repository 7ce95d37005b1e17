import NameResolution.Proofs.SecondPass

/-!
# The cap on diagnostics

A cap limits how many of the failures found in a unit are recorded there. The failures are put into
the order of their offsets, cut off at the cap, and added to the diagnostics of the unit unless they
are there already. Whether a unit is resolved is decided by the failures, not by what is recorded.

The layers are

* adding diagnostics one after another: which ones are new (`Diagnostic.fresh`);
* the failures that a cap keeps (`SourceUnit.recorded_mono`, `SourceUnit.recorded_appended`);
* the rest of a pass, which no cap has an influence on (`SourceUnit.sameButRecords_capped`).

Main statement: `Program.resolve_capped`.
-/

namespace NameResolution

/-! ## caps -/

namespace Config

/-- The same configuration with another cap, or with none. -/
def capped (c : Config) (cap : Option UInt64) : Config := { c with maxDiagnosticsPerUnit := cap }

/-- The first cap allows no more than the second one. -/
def CapLE : Option UInt64 → Option UInt64 → Prop
  | _, none => True
  | none, some _ => False
  | some cap, some cap' => cap ≤ cap'

end Config

/-! ## diagnostics that are new -/

namespace Diagnostic

/-- What is added behind `ds` when `new` is pushed: each diagnostic that is not there yet. -/
def fresh (ds : List Diagnostic) : List Diagnostic → List Diagnostic
  | [] => []
  | d :: new => if d ∈ ds then fresh ds new else d :: fresh (ds ++ [d]) new

theorem pushAllNew_cons (ds new : List Diagnostic) (d : Diagnostic) :
    pushAllNew ds (d :: new) = pushAllNew (pushNew ds d) new := rfl

/-- Recording diagnostics appends those that are not recorded yet. -/
theorem pushAllNew_eq_append_fresh (ds new : List Diagnostic) :
    pushAllNew ds new = ds ++ fresh ds new := by
  induction new generalizing ds with
  | nil => simp [pushAllNew, fresh]
  | cons d new ih => by_cases hd : d ∈ ds <;> simp [pushAllNew_cons, pushNew, fresh, hd, ih]

/-- Of two batches, the second is fresh relative to what the first has added. -/
theorem fresh_append (ds new more : List Diagnostic) :
    fresh ds (new ++ more) = fresh ds new ++ fresh (ds ++ fresh ds new) more := by
  induction new generalizing ds with
  | nil => simp [fresh]
  | cons d new ih => by_cases hd : d ∈ ds <;> simp [fresh, hd, ih]

/-- Pushing more adds more behind what is added anyway. -/
theorem fresh_mono (ds : List Diagnostic) {new more : List Diagnostic} (h : new <+: more) :
    fresh ds new <+: fresh ds more := by
  obtain ⟨rest, rfl⟩ := h
  rw [fresh_append]
  exact List.prefix_append _ _

/-- The fresh diagnostics are among the given ones, in their order. -/
theorem fresh_sublist (ds new : List Diagnostic) : (fresh ds new).Sublist new := by
  induction new generalizing ds with
  | nil => exact .slnil
  | cons d new ih =>
      rw [fresh]
      split
      · exact (ih ds).cons d
      · exact (ih (ds ++ [d])).cons_cons d

/-- What is added is nowhere before it in the list. -/
theorem not_mem_of_fresh {ds new before after : List Diagnostic} {d : Diagnostic}
    (h : fresh ds new = before ++ d :: after) : d ∉ ds ++ before := by
  induction new generalizing ds before with
  | nil => simp [fresh] at h
  | cons e new ih =>
      rw [fresh] at h
      split at h
      · exact ih h
      · next he =>
        cases before with
        | nil =>
            obtain ⟨rfl, -⟩ := List.cons.inj h
            simpa using he
        | cons first before =>
            obtain ⟨rfl, hrest⟩ := List.cons.inj h
            simpa using ih hrest

/-- The offset of a diagnostic that has a location. -/
def offset? (d : Diagnostic) : Option UInt32 := d.location.map (·.offset)

/-- What a pass under a cap may append to the diagnostics `ds` of a unit: no more than the cap
allows, all of it located and in the order of offsets, and nothing that stands before it in the
list. -/
structure Appended (cap : Option UInt64) (ds added : List Diagnostic) : Prop where
  atMost : ∀ n, cap = some n → added.length ≤ n.toNat
  inOrder : ∃ offsets : List UInt32,
    added.map offset? = offsets.map some ∧ offsets.Pairwise (· ≤ ·)
  new : ∀ before d after, added = before ++ d :: after → d ∉ ds ++ before

theorem appended_nil (cap : Option UInt64) (ds : List Diagnostic) : Appended cap ds [] :=
  ⟨by simp, ⟨[], rfl, .nil⟩, by simp⟩

end Diagnostic

/-! ## a unit -/

/-- The unit without its diagnostics. -/
def SourceUnit.withoutDiagnostics (u : SourceUnit) : SourceUnit := { u with diagnostics := [] }

/-- Two shares of a unit in a pass that differ at most in what is recorded on the unit. -/
structure UnitResolution.SameButRecords (r r' : UnitResolution) : Prop where
  unit : r.unit.withoutDiagnostics = r'.unit.withoutDiagnostics
  bound : r.bound = r'.bound
  unresolved : r.unresolved = r'.unresolved
  programFailures : r.programFailures = r'.programFailures

namespace SourceUnit

variable {config : Config} {tables : Tables} {u : SourceUnit} {cap cap' : Option UInt64}

/-- With a larger cap more is recorded behind what is recorded anyway. -/
theorem recorded_mono (h : Config.CapLE cap cap') (failures : List Failure) :
    recorded (config.capped cap) failures <+: recorded (config.capped cap') failures := by
  cases cap' with
  | none =>
      cases cap with
      | none => exact List.prefix_rfl
      | some n => exact (List.take_prefix _ _).map _
  | some n' =>
      cases cap with
      | none => exact h.elim
      | some n =>
          have hle : n.toNat ≤ n'.toNat := UInt64.le_iff_toNat_le.mp h
          exact (List.take_prefix_take_left hle).map _

/-- What is recorded is a part of the failures in the order of their offsets. -/
theorem recorded_sublist (failures : List Failure) :
    (recorded (config.capped cap) failures).Sublist
      ((sortBy (fun f => f.location.offset.toNat) failures).map (·.diagnostic)) := by
  cases cap with
  | none => exact List.Sublist.refl _
  | some n => exact (List.take_sublist _ _).map _

/-- At most as many failures are recorded as the cap allows. -/
theorem length_recorded (n : UInt64) (failures : List Failure) :
    (recorded (config.capped (some n)) failures).length ≤ n.toNat := by
  simp only [recorded, Config.capped, List.length_map]
  exact List.length_take_le _ _

/-- What a cap keeps of the failures of a unit may be appended under that cap. -/
theorem recorded_appended (ds : List Diagnostic) (failures : List Failure) :
    Diagnostic.Appended cap ds
      (Diagnostic.fresh ds (recorded (config.capped cap) failures)) := by
  have hfresh := Diagnostic.fresh_sublist ds (recorded (config.capped cap) failures)
  refine ⟨?_, ?_, fun before d after h => Diagnostic.not_mem_of_fresh h⟩
  · rintro n rfl
    exact Nat.le_trans hfresh.length_le (length_recorded n failures)
  · obtain ⟨kept, hkept, hadded⟩ :=
      List.sublist_map_iff.mp (hfresh.trans (recorded_sublist failures))
    refine ⟨kept.map (·.location.offset), ?_, ?_⟩
    · simp [hadded, Diagnostic.offset?, Failure.diagnostic, Diagnostic.error, Function.comp_def]
    · have hsorted := pairwise_sortBy (fun f : Failure => f.location.offset.toNat) failures
      have hsorted := hsorted.sublist hkept
      exact List.pairwise_map.mpr (hsorted.imp UInt32.le_iff_toNat_le.mpr)

theorem isResolved_withoutDiagnostics (u : SourceUnit) :
    u.withoutDiagnostics.isResolved = u.isResolved := rfl

theorem path_withoutDiagnostics (u : SourceUnit) : u.withoutDiagnostics.path = u.path := rfl

/-- A cap has an influence only on what is recorded. -/
theorem sameButRecords_capped (config : Config) (cap cap' : Option UInt64) (tables : Tables)
    (u : SourceUnit) :
    (u.resolve (config.capped cap) tables).SameButRecords
      (u.resolve (config.capped cap') tables) := by
  unfold resolve
  split <;> exact ⟨rfl, rfl, rfl, rfl⟩

/-- The diagnostics of a unit after a pass under a cap. -/
theorem diagnostics_resolve_capped (hopen : u.isResolved = false) :
    (u.resolve (config.capped cap) tables).unit.diagnostics =
      u.diagnostics ++ Diagnostic.fresh u.diagnostics
        (recorded (config.capped cap) (u.foundFailures config tables)) := by
  rw [resolve_of_open hopen, unit_resolveNow, ← Diagnostic.pushAllNew_eq_append_fresh]
  rfl

/-- **Capping a unit**: what is appended under the smaller cap comes first under the larger one. -/
theorem diagnostics_capped (config : Config) (cap cap' : Option UInt64) (tables : Tables)
    (u : SourceUnit) :
    ∃ added added',
      (u.resolve (config.capped cap) tables).unit.diagnostics = u.diagnostics ++ added ∧
      (u.resolve (config.capped cap') tables).unit.diagnostics = u.diagnostics ++ added' ∧
      Diagnostic.Appended cap u.diagnostics added ∧
      Diagnostic.Appended cap' u.diagnostics added' ∧
      (Config.CapLE cap cap' → added <+: added') := by
  cases hopen : u.isResolved with
  | true =>
      refine ⟨[], [], ?_, ?_, Diagnostic.appended_nil _ _, Diagnostic.appended_nil _ _,
        fun _ => List.prefix_rfl⟩
      · simp [resolve_of_isResolved hopen]
      · simp [resolve_of_isResolved hopen]
  | false =>
      exact ⟨_, _, diagnostics_resolve_capped hopen, diagnostics_resolve_capped hopen,
        recorded_appended _ _, recorded_appended _ _,
        fun h => Diagnostic.fresh_mono _ (recorded_mono h _)⟩

end SourceUnit

/-! ## a program -/

namespace Program

/-- The program without the diagnostics of its units. -/
def withoutUnitDiagnostics (P : Program) : Program :=
  { P with
    values := P.values.map (·.withoutDiagnostics)
    sources := P.sources.map (·.withoutDiagnostics) }

/-- Forgetting the diagnostics of the units is done unit by unit. -/
theorem units_withoutUnitDiagnostics (P : Program) :
    P.withoutUnitDiagnostics.units = P.units.map (·.withoutDiagnostics) := by
  simp [units, withoutUnitDiagnostics]

/-- Which units are resolved can be seen without their diagnostics. -/
theorem paths_withoutUnitDiagnostics (P : Program) (p : Bool → Bool) :
    (P.withoutUnitDiagnostics.units.filter fun u => p u.isResolved).map (·.path) =
      (P.units.filter fun u => p u.isResolved).map (·.path) := by
  simp [units_withoutUnitDiagnostics, List.filter_map, Function.comp_def,
    SourceUnit.isResolved_withoutDiagnostics, SourceUnit.path_withoutDiagnostics]

/-- But for the diagnostics of the units, a pass gives the same program under any cap. -/
theorem program_resolve_capped (config : Config) (cap cap' : Option UInt64) (P : Program) :
    (P.resolve (config.capped cap)).program.withoutUnitDiagnostics =
      (P.resolve (config.capped cap')).program.withoutUnitDiagnostics := by
  have hunit := fun u => SourceUnit.sameButRecords_capped config cap cap' P.tables u
  rw [program_resolve, program_resolve]
  simp [withoutUnitDiagnostics, Function.comp_def, (hunit _).unit, (hunit _).programFailures]

/-- A pass reports the same under any cap. -/
theorem report_resolve_capped (config : Config) (cap cap' : Option UInt64) (P : Program) :
    (P.resolve (config.capped cap)).report = (P.resolve (config.capped cap')).report := by
  have hpaths : ∀ p : Bool → Bool,
      ((P.resolve (config.capped cap)).program.units.filter fun u => p u.isResolved).map (·.path) =
        ((P.resolve (config.capped cap')).program.units.filter fun u => p u.isResolved).map
          (·.path) := by
    intro p
    rw [← paths_withoutUnitDiagnostics, program_resolve_capped config cap cap',
      paths_withoutUnitDiagnostics]
  have hunit := fun u => SourceUnit.sameButRecords_capped config cap cap' P.tables u
  rw [report_resolve, report_resolve, hpaths not, hpaths fun b => b]
  simp [(hunit _).bound, (hunit _).unresolved]

/-- **Capping**: of two passes that differ in the cap, both report the same and leave the same
program but for the diagnostics of its units. What the one with the smaller cap appends to the
diagnostics of a unit comes first in what the other one appends. -/
theorem resolve_capped (config : Config) (cap cap' : Option UInt64) (P : Program) :
    let first := P.resolve (config.capped cap)
    let second := P.resolve (config.capped cap')
    first.report = second.report ∧
      first.program.withoutUnitDiagnostics = second.program.withoutUnitDiagnostics ∧
      ∀ (k : Nat) (u : SourceUnit), P.units[k]? = some u →
        ∃ v w added added', first.program.units[k]? = some v ∧
          second.program.units[k]? = some w ∧
          v.diagnostics = u.diagnostics ++ added ∧ w.diagnostics = u.diagnostics ++ added' ∧
          Diagnostic.Appended cap u.diagnostics added ∧
          Diagnostic.Appended cap' u.diagnostics added' ∧
          (Config.CapLE cap cap' → added <+: added') := by
  refine ⟨report_resolve_capped config cap cap' P, program_resolve_capped config cap cap' P, ?_⟩
  intro k u hu
  have hafter : ∀ c : Config,
      (P.resolve c).program.units[k]? = some (u.resolve c P.tables).unit := by
    intro c
    rw [units_resolve, List.getElem?_map, hu, Option.map_some]
  obtain ⟨added, added', hcapped⟩ := u.diagnostics_capped config cap cap' P.tables
  exact ⟨_, _, added, added', hafter _, hafter _, hcapped⟩

end Program

/-- `x y z`: three unknown names, the first of which is on record already. -/
def unknownNames : SourceUnit where
  source := { id := 0, name := "a.ql", kind := .module, lineStarts := [0] }
  nodes := [.identifier (.plain "x" 0), .identifier (.plain "y" 2), .identifier (.plain "z" 4)]
  diagnostics := [.error "unknown identifier `x`" (some ⟨1, 1, 0, 1⟩)]

/-- The program that has `unknownNames` alone. -/
def unknownNamesProgram : Program where
  entry := "a.ql"
  entryKind := .module
  sources := [unknownNames]

/-- A cap of two keeps `x` and `y`, of which only `y` is new; without a cap `z` comes behind it. -/
theorem capped_unknownNames :
    ∃ v w added added',
      (unknownNamesProgram.resolve (({} : Config).capped (some 2))).program.units[0]? = some v ∧
      (unknownNamesProgram.resolve (({} : Config).capped none)).program.units[0]? = some w ∧
      v.diagnostics = unknownNames.diagnostics ++ added ∧
      w.diagnostics = unknownNames.diagnostics ++ added' ∧
      added.length = 1 ∧ added'.length = 2 ∧ added <+: added' := by
  obtain ⟨v, w, added, added', hv, hw, hadded, hadded', -, -, hprefix⟩ :=
    (Program.resolve_capped {} (some 2) none unknownNamesProgram).2.2 0 unknownNames rfl
  have hlength : (Option.map (·.diagnostics.length) (some v)) = some 2 := by
    rw [← hv]
    decide
  have hlength' : (Option.map (·.diagnostics.length) (some w)) = some 3 := by
    rw [← hw]
    decide
  have hone : unknownNames.diagnostics.length = 1 := rfl
  simp [hadded, hadded', hone] at hlength hlength'
  exact ⟨v, w, added, added', hv, hw, hadded, hadded', by omega, by omega, hprefix trivial⟩

end NameResolution
