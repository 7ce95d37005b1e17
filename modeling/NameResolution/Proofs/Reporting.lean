import Mathlib.Algebra.BigOperators.Group.List.Basic
import NameResolution.Proofs.History
import NameResolution.Proofs.Repetition
import NameResolution.Resolver.Phases

/-!
# The report of a pass

The pass runs phase by phase over all units and may fail while it records its results. If no two
units share a path it does not fail, and what it does is what `Program.resolve` says unit by unit.

The argument follows the phases:

* the failures that wait under a path are those of its unit (`Program.failuresOf_findings`);
* recording the results for one unit is a step from one `Program.recording` to the next
  (`Program.finish_recording`), and so is recording them for all units, by induction
  (`Program.foldlM_finish`);
* so the pass and the result unit by unit are equal (`Program.pass_eq_ok`).

Main statement: `Program.pass_reports`, for every program that was built by adding units.
-/

namespace NameResolution

/-! ## findings -/

namespace Findings

variable {α β : Type}

/-- A list of findings is gathered from the members in their order. -/
theorem gather_flatMap {part : Findings → List β} (hnil : part {} = [])
    (happend : ∀ a b : Findings, part (a ++ b) = part a ++ part b) (f : α → Findings)
    (as : List α) : part (gather f as) = as.flatMap fun a => part (f a) := by
  induction as with
  | nil => exact hnil
  | cons a as ih => rw [gather, happend, ih, List.flatMap_cons]

/-- A number of findings is summed up over the members. -/
theorem gather_total {part : Findings → Nat} (hzero : part {} = 0)
    (happend : ∀ a b : Findings, part (a ++ b) = part a + part b) (f : α → Findings)
    (as : List α) : part (gather f as) = total (as.map fun a => part (f a)) := by
  induction as with
  | nil => exact hzero
  | cons a as ih =>
      rw [gather, happend, ih, List.map_cons]
      exact List.sum_cons.symm

@[simp] theorem bound_append (a b : Findings) : (a ++ b).bound = a.bound + b.bound := rfl

@[simp] theorem unresolved_append (a b : Findings) :
    (a ++ b).unresolved = a.unresolved + b.unresolved := rfl

@[simp] theorem pending_append (a b : Findings) : (a ++ b).pending = a.pending ++ b.pending := rfl

@[simp] theorem cutOff_append (a b : Findings) : (a ++ b).cutOff = a.cutOff ++ b.cutOff := rfl

@[simp] theorem programFailures_append (a b : Findings) :
    (a ++ b).programFailures = a.programFailures ++ b.programFailures := rfl

@[simp] theorem events_append (a b : Findings) : (a ++ b).events = a.events ++ b.events := rfl

/-- Over several items, what is bound adds up. -/
@[simp] theorem bound_gather (f : α → Findings) (as : List α) :
    (gather f as).bound = total (as.map fun a => (f a).bound) :=
  gather_total rfl bound_append f as

@[simp] theorem unresolved_gather (f : α → Findings) (as : List α) :
    (gather f as).unresolved = total (as.map fun a => (f a).unresolved) :=
  gather_total rfl unresolved_append f as

/-- What is pending for several items comes item by item. -/
@[simp] theorem pending_gather (f : α → Findings) (as : List α) :
    (gather f as).pending = as.flatMap fun a => (f a).pending :=
  gather_flatMap rfl pending_append f as

@[simp] theorem cutOff_gather (f : α → Findings) (as : List α) :
    (gather f as).cutOff = as.flatMap fun a => (f a).cutOff :=
  gather_flatMap rfl cutOff_append f as

/-- The failures that the program hears of come item by item. -/
@[simp] theorem programFailures_gather (f : α → Findings) (as : List α) :
    (gather f as).programFailures = as.flatMap fun a => (f a).programFailures :=
  gather_flatMap rfl programFailures_append f as

@[simp] theorem events_gather (f : α → Findings) (as : List α) :
    (gather f as).events = as.flatMap fun a => (f a).events :=
  gather_flatMap rfl events_append f as

/-- The failures for a path are found part by part. -/
@[simp] theorem failuresOf_append (a b : Findings) (path : String) :
    (a ++ b).failuresOf path = a.failuresOf path ++ b.failuresOf path := by
  simp [failuresOf]

end Findings

/-! ## the findings of a program -/

/-- What the units of a list put under their paths, looked up at a path that none of them has. -/
theorem filter_flatMap_of_not_mem {β : Type} {us : List SourceUnit} {path : String}
    (h : path ∉ us.map (·.path)) (f : SourceUnit → List β) :
    (us.flatMap fun v => (f v).map (v.path, ·)).filter (·.1 == path) = [] := by
  refine List.filter_eq_nil_iff.mpr fun entry hentry hpath => h ?_
  obtain ⟨v, hv, hmem⟩ := List.mem_flatMap.mp hentry
  obtain ⟨b, -, rfl⟩ := List.mem_map.mp hmem
  exact List.mem_map.mpr ⟨v, hv, by simpa using hpath⟩

/-- What the units of a list put under their paths, looked up at the path of one of them. -/
theorem filter_flatMap_path {β : Type} {us : List SourceUnit} (hpaths : (us.map (·.path)).Nodup)
    {u : SourceUnit} (hu : u ∈ us) (f : SourceUnit → List β) :
    ((us.flatMap fun v => (f v).map (v.path, ·)).filter (·.1 == u.path)).map (·.2) = f u := by
  induction us with
  | nil => simp at hu
  | cons v us ih =>
      obtain ⟨hnew, hrest⟩ := List.nodup_cons.mp hpaths
      rw [List.flatMap_cons, List.filter_append, List.map_append]
      rcases List.mem_cons.mp hu with rfl | hmem
      · have hown : ((f u).map (u.path, ·)).filter (·.1 == u.path) = (f u).map (u.path, ·) := by
          simp [List.filter_eq_self]
        rw [hown, filter_flatMap_of_not_mem hnew, List.map_nil, List.append_nil, List.map_map]
        exact List.map_id (f u)
      · have hne : v.path ≠ u.path := fun hpath => hnew (List.mem_map.mpr ⟨u, hmem, hpath.symm⟩)
        have hother : ((f v).map (v.path, ·)).filter (·.1 == u.path) = [] := by
          simp [hne]
        rw [hother, ih hrest hmem]
        rfl

namespace SourceUnit

/-- What is pending after the imports of a unit: their failures, under its path. -/
theorem pending_importFindings (tables : Tables) (u : SourceUnit) :
    (u.importFindings tables).pending =
      (u.importDecls.flatMap (·.failures tables)).map (u.path, ·) := by
  simp [importFindings, Import.findings, List.map_flatMap]

/-- The imports of a unit cut it off once for each failure that the program hears of. -/
theorem cutOff_importFindings (tables : Tables) (u : SourceUnit) :
    (u.importFindings tables).cutOff =
      (u.importDecls.flatMap (·.programFailures tables u.path)).map fun _ => u.path := by
  rw [importFindings, Findings.cutOff_gather, List.map_flatMap]
  congr 1
  funext i
  simp only [Import.findings, Import.programFailures]
  split
  · rfl
  · rfl

end SourceUnit

namespace Program

variable {P : Program} {config : Config} {u : SourceUnit}

/-- As paths differ, the failures for the path of a unit are its own. -/
theorem failuresOf_gather (hpaths : P.paths.Nodup) (hu : u ∈ P.openUnits)
    {f : SourceUnit → Findings} {g : SourceUnit → List Failure}
    (hf : ∀ v, (f v).pending = (g v).map (v.path, ·)) :
    (Findings.gather f P.openUnits).failuresOf u.path = g u := by
  have hopen : (P.openUnits.map (·.path)).Nodup := by
    have hsublist : (P.openUnits.map (·.path)).Sublist P.paths := List.filter_sublist.map _
    exact hsublist.nodup hpaths
  rw [Findings.failuresOf, Findings.pending_gather]
  simp only [hf]
  exact filter_flatMap_path hopen hu g

/-- The failures that wait under the path of a unit are the failures of the unit. -/
theorem failuresOf_findings (hpaths : P.paths.Nodup) (hu : u ∈ P.openUnits) :
    (P.findings config).failuresOf u.path = u.foundFailures config P.tables := by
  have hduplicates := failuresOf_gather hpaths hu
    (f := SourceUnit.duplicateFindings) (g := fun v => v.collect.duplicates) fun v => rfl
  have himports := failuresOf_gather hpaths hu (f := SourceUnit.importFindings P.tables)
    (SourceUnit.pending_importFindings P.tables)
  have hwalks := failuresOf_gather hpaths hu (f := SourceUnit.walkFindings config P.tables)
    (g := fun v => (v.walked config P.tables).2.failures) fun v => rfl
  have htell : ∀ events, Findings.failuresOf { events } u.path = [] := fun _ => rfl
  simp only [findings, Findings.failuresOf_append, hduplicates, himports, hwalks, htell,
    List.nil_append, List.append_nil]
  rfl

/-- A unit is cut off if it has a failure that concerns the whole program. -/
theorem mem_cutOff_findings (hpaths : P.paths.Nodup) (hu : u ∈ P.openUnits) :
    u.path ∈ (P.findings config).cutOff ↔
      u.importDecls.flatMap (·.programFailures P.tables u.path) ≠ [] := by
  have hcutOff : (P.findings config).cutOff =
      P.openUnits.flatMap fun v => (v.importFindings P.tables).cutOff := by
    have hduplicates : (P.openUnits.flatMap fun v => v.duplicateFindings.cutOff) = [] :=
      List.flatMap_eq_nil_iff.mpr fun _ _ => rfl
    have hwalks : (P.openUnits.flatMap fun v => (v.walkFindings config P.tables).cutOff) = [] :=
      List.flatMap_eq_nil_iff.mpr fun _ _ => rfl
    simp [findings, hduplicates, hwalks]
  rw [hcutOff, List.mem_flatMap]
  constructor
  · rintro ⟨v, hv, hmem⟩
    rw [SourceUnit.cutOff_importFindings] at hmem
    obtain ⟨f, hf, hpath⟩ := List.mem_map.mp hmem
    have hsame : v = u := List.inj_on_of_nodup_map hpaths (List.mem_of_mem_filter hv)
      (List.mem_of_mem_filter hu) hpath
    exact hsame ▸ List.ne_nil_of_mem hf
  · intro hne
    obtain ⟨f, hf⟩ := List.exists_mem_of_ne_nil _ hne
    refine ⟨u, hu, ?_⟩
    rw [SourceUnit.cutOff_importFindings]
    exact List.mem_map.mpr ⟨f, hf, rfl⟩

/-- A resolved unit adds nothing to a sum over the shares of the pass. -/
theorem total_openUnits (part : UnitResolution → Nat) (hzero : ∀ u, part { unit := u } = 0)
    (config : Config) (P : Program) :
    total (P.openUnits.map fun u => part (u.resolveNow config P.tables)) =
      total (P.units.map fun u => part (u.resolve config P.tables)) := by
  rw [openUnits]
  induction P.units with
  | nil => rfl
  | cons u us ih =>
      cases hu : u.isResolved with
      | true => simpa [hu, total, SourceUnit.resolve_of_isResolved, hzero] using ih
      | false => simpa [hu, total, SourceUnit.resolve_of_open] using ih

/-- Units that are resolved contribute nothing, so the open units can stand for all. -/
theorem flatMap_openUnits {β : Type} (part : UnitResolution → List β)
    (hnil : ∀ u, part { unit := u } = []) (config : Config) (P : Program) :
    (P.openUnits.flatMap fun u => part (u.resolveNow config P.tables)) =
      P.units.flatMap fun u => part (u.resolve config P.tables) := by
  rw [openUnits]
  induction P.units with
  | nil => rfl
  | cons u us ih =>
      cases hu : u.isResolved with
      | true => simp [hu, SourceUnit.resolve_of_isResolved, hnil, ih]
      | false => simp [hu, SourceUnit.resolve_of_open, ih]

/-- The findings count what all units have bound. -/
theorem bound_findings (config : Config) (P : Program) :
    (P.findings config).bound =
      total (P.units.map fun u => (u.resolve config P.tables).bound) := by
  have hunit : ∀ u : SourceUnit, (u.importFindings P.tables).bound +
      (u.walkFindings config P.tables).bound = (u.resolveNow config P.tables).bound := by
    intro u
    rw [SourceUnit.importFindings, Findings.bound_gather]
    rfl
  rw [← total_openUnits (·.bound) (fun _ => rfl)]
  simp [findings, SourceUnit.duplicateFindings, Collected.findings, total, ← List.sum_map_add,
    hunit]

theorem unresolved_findings (config : Config) (P : Program) :
    (P.findings config).unresolved =
      total (P.units.map fun u => (u.resolve config P.tables).unresolved) := by
  have hunit : ∀ u : SourceUnit, u.duplicateFindings.unresolved +
      (u.importFindings P.tables).unresolved + (u.walkFindings config P.tables).unresolved =
        (u.resolveNow config P.tables).unresolved := by
    intro u
    have hwalk : (u.walkFindings config P.tables).unresolved = _ :=
      Walker.unresolved_eq_length _
    rw [hwalk, SourceUnit.importFindings, Findings.unresolved_gather]
    rfl
  rw [← total_openUnits (·.unresolved) (fun _ => rfl)]
  simp [findings, total, ← List.sum_map_add, hunit]

/-- The failures that the program hears of come unit by unit. -/
theorem programFailures_findings (config : Config) (P : Program) :
    (P.findings config).programFailures =
      P.units.flatMap fun u => (u.resolve config P.tables).programFailures := by
  have hunit : ∀ u : SourceUnit, (u.importFindings P.tables).programFailures =
      (u.resolveNow config P.tables).programFailures := by
    intro u
    rw [SourceUnit.importFindings, Findings.programFailures_gather]
    rfl
  have hduplicates : (P.openUnits.flatMap fun v => v.duplicateFindings.programFailures) = [] :=
    List.flatMap_eq_nil_iff.mpr fun _ _ => rfl
  have hwalks : (P.openUnits.flatMap fun v => (v.walkFindings config P.tables).programFailures) =
      [] := List.flatMap_eq_nil_iff.mpr fun _ _ => rfl
  rw [← flatMap_openUnits (·.programFailures) (fun _ => rfl)]
  simp [findings, hduplicates, hwalks, hunit]

/-- The events come phase by phase, and unit by unit in each. -/
theorem events_findings (config : Config) (P : Program) :
    (P.findings config).events =
      [.collecting, .bindingImports] ++
        P.units.flatMap (fun u => (u.resolve config P.tables).importEvents) ++ [.walkingUnits] ++
        P.units.flatMap fun u => (u.resolve config P.tables).walkEvents := by
  have himports : ∀ u : SourceUnit, (u.importFindings P.tables).events =
      (u.resolveNow config P.tables).importEvents := by
    intro u
    rw [SourceUnit.importFindings, Findings.events_gather]
    rfl
  have hwalk : ∀ u : SourceUnit, (u.walkFindings config P.tables).events =
      (u.resolveNow config P.tables).walkEvents := fun _ => rfl
  rw [← flatMap_openUnits (·.importEvents) (fun _ => rfl),
    ← flatMap_openUnits (·.walkEvents) (fun _ => rfl)]
  simp [findings, SourceUnit.duplicateFindings, Collected.findings, himports, hwalk]

/-! ## changing units -/

@[simp] theorem units_mapUnits (P : Program) (f : SourceUnit → SourceUnit) :
    (P.mapUnits f).units = P.units.map f := by
  simp [mapUnits, units]

theorem mapUnits_congr {f g : SourceUnit → SourceUnit} (h : ∀ u ∈ P.units, f u = g u) :
    P.mapUnits f = P.mapUnits g := by
  have hvalues : P.values.map f = P.values.map g :=
    List.map_congr_left fun u hu => h u (List.mem_append_left _ hu)
  have hsources : P.sources.map f = P.sources.map g :=
    List.map_congr_left fun u hu => h u (List.mem_append_right _ hu)
  rw [mapUnits, mapUnits, hvalues, hsources]

/-- A change that keeps paths keeps the paths of the program. -/
theorem paths_mapUnits {f : SourceUnit → SourceUnit} (hf : ∀ u, (f u).path = u.path)
    (P : Program) : (P.mapUnits f).paths = P.paths := by
  simp [paths, hf]

/-- A change at a path that no unit has does nothing. -/
theorem map_of_path_not_mem {path : String} {us : List SourceUnit} (h : path ∉ us.map (·.path))
    (f : SourceUnit → SourceUnit) : (us.map fun u => if u.path = path then f u else u) = us := by
  have hne : ∀ u ∈ us, u.path ≠ path := fun u hu hpath => h (List.mem_map.mpr ⟨u, hu, hpath⟩)
  calc
    (us.map fun u => if u.path = path then f u else u) = us.map id :=
      List.map_congr_left fun u hu => by rw [if_neg (hne u hu), id]
    _ = us := List.map_id us

/-- As paths differ, changing the first unit at a path is changing every unit at the path. -/
theorem modifyIn_eq_map {us : List SourceUnit} (hpaths : (us.map (·.path)).Nodup) (path : String)
    (f : SourceUnit → SourceUnit) :
    modifyIn path f us = us.map fun u => if u.path = path then f u else u := by
  induction us with
  | nil => rfl
  | cons u us ih =>
      obtain ⟨hnew, hrest⟩ := List.nodup_cons.mp hpaths
      by_cases hpath : u.path = path
      · subst hpath
        simp [modifyIn, map_of_path_not_mem hnew]
      · simp [modifyIn, hpath, ih hrest]

/-- With distinct paths, to change the unit at a path is to change every unit that has the path. -/
theorem modifyUnit_eq_mapUnits (hpaths : P.paths.Nodup) (path : String)
    (f : SourceUnit → SourceUnit) :
    P.modifyUnit path f = P.mapUnits fun u => if u.path = path then f u else u := by
  rw [paths, units, List.map_append] at hpaths
  obtain ⟨hvalues, hsources, hdisjoint⟩ := List.nodup_append.mp hpaths
  by_cases hmem : path ∈ P.values.map (·.path)
  · have hnot : path ∉ P.sources.map (·.path) := fun h => hdisjoint path hmem path h rfl
    have hany : P.values.any (·.path == path) = true := by simpa using hmem
    rw [modifyUnit, if_pos hany, modifyIn_eq_map hvalues, mapUnits, map_of_path_not_mem hnot]
  · have hany : ¬ P.values.any (·.path == path) = true := by simpa using hmem
    rw [modifyUnit, if_neg hany, modifyIn_eq_map hsources, mapUnits, map_of_path_not_mem hmem]

/-- Two changes of all units are one. -/
theorem mapUnits_mapUnits (P : Program) (f g : SourceUnit → SourceUnit) :
    (P.mapUnits f).mapUnits g = P.mapUnits fun u => g (f u) := by
  simp [mapUnits, Function.comp_def]

end Program

/-! ## recording the results -/

namespace SourceUnit

variable {u : SourceUnit}

theorem bindNames_of_isResolved (h : u.isResolved = true) (config : Config) (tables : Tables) :
    u.bindNames config tables = u := by
  rw [bindNames, if_pos h]

theorem bindNames_of_open (h : u.isResolved = false) (config : Config) (tables : Tables) :
    u.bindNames config tables = (u.walked config tables).1 := by
  rw [bindNames, h, if_neg Bool.false_ne_true, walked]

theorem path_bindNames (config : Config) (tables : Tables) (u : SourceUnit) :
    (u.bindNames config tables).path = u.path := by
  cases h : u.isResolved with
  | true => rw [bindNames_of_isResolved h]
  | false => rw [bindNames_of_open h, path_of_skeleton (skeleton_walked config tables u)]

/-- The unit with its failures on record, if it has any. -/
theorem record_walked {config : Config} {tables : Tables} (h : u.isResolved = false)
    (hmark : (u.resolveNow config tables).unit.isResolved = false) :
    (u.walked config tables).1.record config.maxDiagnosticsPerUnit
      (u.foundFailures config tables) = (u.resolveNow config tables).unit := by
  have hunit := unit_resolveNow config tables u
  rw [isResolved_resolveNow] at hmark
  rw [hunit, hmark, ← h]
  rfl

/-- Without failures, marking the unit does not fail. -/
theorem markResolved_record {config : Config} {tables : Tables} (h : u.isResolved = false)
    (hmark : (u.resolveNow config tables).unit.isResolved = true) :
    ((u.walked config tables).1.record config.maxDiagnosticsPerUnit
      (u.foundFailures config tables)).markResolved = .ok (u.resolveNow config tables).unit := by
  have hrecord : ((u.walked config tables).1.record config.maxDiagnosticsPerUnit
      (u.foundFailures config tables)).isResolved = false := h
  have hunit := unit_resolveNow config tables u
  rw [isResolved_resolveNow] at hmark
  rw [markResolved, hrecord, if_neg Bool.false_ne_true, hunit, hmark]
  rfl

/-- The events of recording a unit: those of the cap, and one if the unit is resolved. -/
theorem recordEvents_resolveNow (config : Config) (tables : Tables) (u : SourceUnit) :
    (u.resolveNow config tables).recordEvents =
      (u.walked config tables).1.capEvents config.maxDiagnosticsPerUnit
          (u.foundFailures config tables).length ++
        if (u.resolveNow config tables).unit.isResolved then [.unitResolved u.path] else [] := rfl

end SourceUnit

namespace Program

variable {P : Program} {config : Config} {u : SourceUnit} {done : List SourceUnit}

/-- A unit after the results for the units in `done` have been recorded. -/
def unitAfter (config : Config) (P : Program) (done : List SourceUnit) (u : SourceUnit) :
    SourceUnit :=
  if u.path ∈ done.map (·.path) then (u.resolve config P.tables).unit
  else u.bindNames config P.tables

/-- The state after the results for the units in `done` have been recorded. -/
def recording (config : Config) (P : Program) (done : List SourceUnit) : Recording :=
  let after := done.map fun u => (u.resolve config P.tables).unit
  { program := P.mapUnits (P.unitAfter config done)
    resolvedUnits := (after.filter (·.isResolved)).map (·.path)
    unresolvedUnits := (after.filter (!·.isResolved)).map (·.path)
    events := done.flatMap fun u => (u.resolve config P.tables).recordEvents }

theorem path_unitAfter (config : Config) (P : Program) (done : List SourceUnit) (u : SourceUnit) :
    (P.unitAfter config done u).path = u.path := by
  unfold unitAfter
  split
  · exact SourceUnit.path_resolve config P.tables u
  · exact SourceUnit.path_bindNames config P.tables u

/-- Only the unit that is finished now changes. -/
theorem unitAfter_concat (hpaths : P.paths.Nodup) (hu : u ∈ P.units) {v : SourceUnit}
    (hv : v ∈ P.units) :
    P.unitAfter config (done ++ [u]) v =
      if v.path = u.path then (u.resolve config P.tables).unit
      else P.unitAfter config done v := by
  by_cases hpath : v.path = u.path
  · obtain rfl : v = u := List.inj_on_of_nodup_map hpaths hv hu hpath
    simp [unitAfter]
  · simp [unitAfter, hpath]

/-- Recording does not make two units share a path. -/
theorem nodup_paths_recording (hpaths : P.paths.Nodup) (config : Config)
    (done : List SourceUnit) : (P.recording config done).program.paths.Nodup := by
  rw [recording, paths_mapUnits (P.path_unitAfter config done)]
  exact hpaths

/-- Looking up a unit that is not finished yet. -/
theorem unit?_recording (hpaths : P.paths.Nodup) (hu : u ∈ P.units)
    (hnew : u.path ∉ done.map (·.path)) :
    (P.recording config done).program.unit? u.path = some (u.bindNames config P.tables) := by
  refine (unit?_eq_some_iff (nodup_paths_recording hpaths config done)).mpr
    ⟨?_, SourceUnit.path_bindNames config P.tables u⟩
  rw [recording, units_mapUnits]
  exact List.mem_map.mpr ⟨u, hu, by rw [unitAfter, if_neg hnew]⟩

/-- Storing the result for a unit. -/
theorem modifyUnit_recording (hpaths : P.paths.Nodup) (hu : u ∈ P.units) :
    (P.recording config done).program.modifyUnit u.path
        (fun _ => (u.resolve config P.tables).unit) =
      (P.recording config (done ++ [u])).program := by
  rw [modifyUnit_eq_mapUnits (nodup_paths_recording hpaths config done), recording,
    mapUnits_mapUnits]
  refine mapUnits_congr fun v hv => ?_
  rw [unitAfter_concat hpaths hu hv, path_unitAfter]

/-- A resolved unit stays as it is. -/
theorem program_recording_of_isResolved (hpaths : P.paths.Nodup) (hu : u ∈ P.units)
    (hnew : u.path ∉ done.map (·.path)) (h : u.isResolved = true) :
    (P.recording config (done ++ [u])).program = (P.recording config done).program := by
  refine mapUnits_congr fun v hv => ?_
  rw [unitAfter_concat hpaths hu hv]
  split
  · next hpath =>
      obtain rfl : v = u := List.inj_on_of_nodup_map hpaths hv hu hpath
      rw [unitAfter, if_neg hnew, SourceUnit.resolve_of_isResolved h,
        SourceUnit.bindNames_of_isResolved h]
  · rfl

/-- What a unit adds to the state. -/
theorem recording_concat (config : Config) (P : Program) (done : List SourceUnit)
    (u : SourceUnit) :
    P.recording config (done ++ [u]) =
      { program := (P.recording config (done ++ [u])).program
        resolvedUnits := (P.recording config done).resolvedUnits ++
          if (u.resolve config P.tables).unit.isResolved then [u.path] else []
        unresolvedUnits := (P.recording config done).unresolvedUnits ++
          if (u.resolve config P.tables).unit.isResolved then [] else [u.path]
        events := (P.recording config done).events ++
          (u.resolve config P.tables).recordEvents } := by
  have hpath := SourceUnit.path_resolve config P.tables u
  cases h : (u.resolve config P.tables).unit.isResolved with
  | true => simp [recording, h, hpath]
  | false => simp [recording, h, hpath]

/-- The test for failures agrees with the mark that the unit gets. -/
theorem isResolved_eq_of_findings (hpaths : P.paths.Nodup) (hu : u ∈ P.openUnits) :
    (!(u.foundFailures config P.tables).isEmpty || (P.findings config).cutOff.contains u.path) =
      !(u.resolveNow config P.tables).unit.isResolved := by
  have hcutOff : (P.findings config).cutOff.contains u.path =
      !(u.importDecls.flatMap (·.programFailures P.tables u.path)).isEmpty := by
    rw [Bool.eq_iff_iff, List.contains_iff_mem, mem_cutOff_findings hpaths hu]
    simp
  rw [hcutOff, SourceUnit.isResolved_resolveNow, Bool.not_and]

/-- **One unit**: to record the results for a unit is a step that does not fail. -/
theorem finish_recording (hpaths : P.paths.Nodup) (hu : u ∈ P.units)
    (hnew : u.path ∉ done.map (·.path)) :
    (P.recording config done).finish config (P.findings config) u.path =
      .ok (P.recording config (done ++ [u])) := by
  rw [Recording.finish, unit?_recording hpaths hu hnew, recording_concat]
  dsimp only
  cases h : u.isResolved with
  | true =>
      rw [SourceUnit.bindNames_of_isResolved h, if_pos h,
        program_recording_of_isResolved hpaths hu hnew h, SourceUnit.resolve_of_isResolved h]
      simp [h]
  | false =>
      have hopen : u ∈ P.openUnits := List.mem_filter.mpr ⟨hu, by simp [h]⟩
      have hwalked : (u.walked config P.tables).1.isResolved = false := h
      rw [SourceUnit.bindNames_of_open h, failuresOf_findings hpaths hopen, hwalked,
        isResolved_eq_of_findings hpaths hopen, ← modifyUnit_recording hpaths hu,
        SourceUnit.resolve_of_open h, if_neg Bool.false_ne_true]
      rw [SourceUnit.recordEvents_resolveNow]
      cases hmark : (u.resolveNow config P.tables).unit.isResolved with
      | true => simp [SourceUnit.markResolved_record h hmark]
      | false => simp [SourceUnit.record_walked h hmark]

/-- **All units**: the results are recorded for one unit after another. -/
theorem foldlM_finish (hpaths : P.paths.Nodup) (config : Config) (todo : List SourceUnit) :
    ∀ done, P.units = done ++ todo →
      (todo.map (·.path)).foldlM (Recording.finish config (P.findings config))
        (P.recording config done) = .ok (P.recording config P.units) := by
  -- The units that are left start with one whose path is not among those that are done.
  induction todo with
  | nil =>
      intro done hunits
      rw [hunits, List.append_nil]
      rfl
  | cons u todo ih =>
      intro done hunits
      have hu : u ∈ P.units := by simp [hunits]
      have hnew : u.path ∉ done.map (·.path) := by
        rw [paths, hunits, List.map_append] at hpaths
        intro hmem
        exact (List.nodup_append.mp hpaths).2.2 _ hmem _ (by simp) rfl
      rw [List.map_cons, List.foldlM_cons, finish_recording hpaths hu hnew]
      exact ih (done ++ [u]) (by simp [hunits])

/-- Before the first unit is recorded, names are bound and nothing else has changed. -/
theorem recording_nil (config : Config) (P : Program) :
    P.recording config [] = { program := P.mapUnits (·.bindNames config P.tables) } := by
  have hstart : P.mapUnits (P.unitAfter config []) = P.mapUnits (·.bindNames config P.tables) :=
    mapUnits_congr fun u _ => by simp [unitAfter]
  rw [recording, hstart]
  rfl

/-- The state after the results have been recorded for all units. -/
theorem program_recording_units (config : Config) (P : Program) :
    (P.recording config P.units).program =
      P.mapUnits fun u => (u.resolve config P.tables).unit := by
  refine mapUnits_congr fun u hu => ?_
  rw [unitAfter, if_pos (List.mem_map.mpr ⟨u, hu, rfl⟩)]

/-- **The pass**: if no two units share a path, the pass does not fail, and it does what
`Program.resolve` says unit by unit. -/
theorem pass_eq_ok (hpaths : P.paths.Nodup) (config : Config) :
    P.pass config = .ok (P.resolve config) := by
  have hchecked : P.checkEntry.paths.Nodup := by
    rwa [paths, units_checkEntry]
  have hrun := foldlM_finish hchecked config P.checkEntry.units [] rfl
  rw [recording_nil] at hrun
  have hall : P.checkEntry.values.map (·.resolve config P.checkEntry.tables) ++
      P.checkEntry.sources.map (·.resolve config P.checkEntry.tables) =
        P.checkEntry.units.map (·.resolve config P.checkEntry.tables) := List.map_append.symm
  have hpathsEq : P.paths = P.checkEntry.units.map (·.path) := by
    rw [paths, units_checkEntry]
  rw [pass, conclude, resolve]
  dsimp only
  rw [hall, hpathsEq, hrun, bound_findings, unresolved_findings, programFailures_findings,
    events_findings]
  simp only [bind, Except.bind, pure, Except.pure, program_recording_units]
  simp [mapUnits, recording, Function.comp_def, List.flatMap_map]

/-! ## the report -/

/-- The unit at a path is resolved. -/
def isResolvedAt (P : Program) (path : String) : Bool := (P.unit? path).any (·.isResolved)

/-- With distinct paths, to select units by their mark is to select their paths. -/
theorem map_path_filter (hpaths : P.paths.Nodup) (p : Bool → Bool) :
    (P.units.filter fun u => p u.isResolved).map (·.path) =
      P.paths.filter fun path => p (P.isResolvedAt path) := by
  rw [paths, List.filter_map]
  congr 1
  refine List.filter_congr fun u hu => ?_
  have hunit : P.unit? u.path = some u := (unit?_eq_some_iff hpaths).mpr ⟨hu, rfl⟩
  rw [Function.comp_apply, isResolvedAt, hunit]
  rfl

/-- If every unit is resolved in the end, there was nothing that could not be resolved. -/
theorem unresolved_of_forall_isResolved
    (h : ∀ u ∈ (P.resolve config).program.units, u.isResolved = true) :
    (P.resolve config).report.unresolved = 0 := by
  have hunit : ∀ u ∈ P.units, (u.resolve config P.tables).unresolved = 0 := by
    intro u hu
    have hafter : (u.resolve config P.tables).unit.isResolved = true := by
      refine h _ ?_
      rw [units_resolve]
      exact List.mem_map.mpr ⟨u, hu, rfl⟩
    cases hbefore : u.isResolved with
    | true => rw [SourceUnit.resolve_of_isResolved hbefore]
    | false =>
        rw [SourceUnit.resolve_of_open hbefore] at hafter ⊢
        exact SourceUnit.unresolved_of_isResolved hafter
  rw [unresolved_resolve]
  exact List.sum_eq_zero_iff_forall_eq_nat.mpr (List.forall_mem_map.mpr hunit)

/-- A report is clean just if the pass leaves every unit resolved. -/
theorem isClean_resolve (config : Config) (P : Program) :
    (P.resolve config).report.isClean = true ↔
      ∀ u ∈ (P.resolve config).program.units, u.isResolved = true := by
  have hunits : (P.resolve config).report.unresolvedUnits = [] ↔
      ∀ u ∈ (P.resolve config).program.units, u.isResolved = true := by
    simp [unresolvedUnits_resolve]
  rw [Report.isClean, Bool.and_eq_true, List.isEmpty_iff, hunits]
  constructor
  · exact fun h => h.2
  · intro h
    exact ⟨by simpa using unresolved_of_forall_isResolved h, h⟩

/-- **The report**: a pass over a program that was built by adding units, perhaps with passes in
between, does not fail. It keeps the paths of the program, reports each of them once, as resolved or
as not resolved by what the unit is after the pass, and reports a clean program if and only if all
units are resolved. -/
theorem pass_reports (entry : String) (entryKind : ResourceKind) (version : Option Version)
    (diagnostics : List Diagnostic) (actions : List Action) (config : Config) :
    ∃ r, (run { entry, entryKind, version, diagnostics } actions).pass config = .ok r ∧
      r.program.paths = (run { entry, entryKind, version, diagnostics } actions).paths ∧
      r.report.resolvedUnits = r.program.paths.filter (r.program.isResolvedAt ·) ∧
      r.report.unresolvedUnits = r.program.paths.filter (!r.program.isResolvedAt ·) ∧
      r.report.resolvedUnits.Disjoint r.report.unresolvedUnits ∧
      (r.report.isClean = true ↔ ∀ u ∈ r.program.units, u.isResolved = true) := by
  have hpaths := nodup_paths_run (P := { entry, entryKind, version, diagnostics }) List.nodup_nil
    actions
  generalize run { entry, entryKind, version, diagnostics } actions = P at hpaths
  have hafter : (P.resolve config).program.paths.Nodup := by
    rwa [paths_resolve]
  have hresolved := map_path_filter hafter fun b => b
  have hunresolved := map_path_filter hafter not
  rw [← resolvedUnits_resolve] at hresolved
  rw [← unresolvedUnits_resolve] at hunresolved
  refine ⟨P.resolve config, pass_eq_ok hpaths config, paths_resolve config P, hresolved,
    hunresolved, ?_, isClean_resolve config P⟩
  intro path hmem hmem'
  rw [hresolved] at hmem
  rw [hunresolved] at hmem'
  have hyes := (List.mem_filter.mp hmem).2
  have hno := (List.mem_filter.mp hmem').2
  simp [hyes] at hno

end Program

end NameResolution
