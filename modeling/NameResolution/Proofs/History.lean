import Mathlib.Data.List.Nodup
import NameResolution.Proofs.Pass

/-!
# Histories of a program

A program changes in two ways: a unit is added to it, and the resolver runs. A history is a list of
such actions.

Main statements:

* `Program.perform_insert_cases`: what adding a unit can do;
* `Program.forall_units_run`: what holds of every unit at the start and is kept by a pass holds of
  every unit in the end;
* `Program.nodup_paths_perform`, `Program.exists_unit?_perform`: paths stay distinct, and the unit
  at a path keeps its skeleton.
-/

namespace NameResolution

/-- What can happen to a program. -/
inductive Action where
  /-- A unit is added to a store. -/
  | insert (store : Store) (u : SourceUnit)
  /-- The resolver runs with a configuration. -/
  | resolve (config : Config)

namespace Program

/-- The program after an action. A unit that is refused leaves it as it is. -/
def perform (P : Program) : Action → Program
  | .insert store u =>
    match P.insertInto store u with
    | .ok added => added
    | .error _ => P
  | .resolve config => (P.resolve config).program

/-- The program after a history. -/
def run (P : Program) (actions : List Action) : Program := actions.foldl perform P

@[simp] theorem run_nil (P : Program) : P.run [] = P := rfl

@[simp] theorem run_cons (P : Program) (action : Action) (actions : List Action) :
    P.run (action :: actions) = (P.perform action).run actions := rfl

/-! ## one action -/

/-- A unit with a new path is added to the units. -/
theorem perm_units_insert {P : Program} {u : SourceUnit} (h : P.contains u.path = false)
    (store : Store) : (P.perform (.insert store u)).units.Perm (u :: P.units) := by
  cases store with
  | values =>
      have hunits : (P.perform (.insert .values u)).units = P.values ++ [u] ++ P.sources := by
        simp [perform, insertInto, h, units]
      rw [hunits, List.append_assoc]
      exact List.perm_middle
  | sources =>
      have hunits : (P.perform (.insert .sources u)).units = P.units ++ [u] := by
        simp [perform, insertInto, h, units]
      rw [hunits]
      exact List.perm_append_singleton u P.units

/-- Adding a unit changes nothing if its path is taken, and else adds just the unit. -/
theorem perform_insert_cases (P : Program) (store : Store) (u : SourceUnit) :
    P.perform (.insert store u) = P ∨
      (P.contains u.path = false ∧ (P.perform (.insert store u)).units.Perm (u :: P.units)) := by
  cases hpath : P.contains u.path with
  | true =>
      left
      simp [perform, insertInto, hpath]
  | false =>
      right
      exact ⟨rfl, perm_units_insert hpath store⟩

/-- **Units, one action**: a unit comes from the program, as a pass leaves it, or it was added. -/
theorem mem_units_perform {P : Program} {action : Action} {v : SourceUnit}
    (h : v ∈ (P.perform action).units) :
    v ∈ P.units ∨ (∃ store, action = .insert store v) ∨
      ∃ config, action = .resolve config ∧
        ∃ u ∈ P.units, v = (u.resolve config P.tables).unit := by
  cases action with
  | insert store u =>
      rcases P.perform_insert_cases store u with hsame | ⟨-, hperm⟩
      · rw [hsame] at h
        exact .inl h
      · rcases List.mem_cons.mp (hperm.mem_iff.mp h) with rfl | hmem
        · exact .inr (.inl ⟨store, rfl⟩)
        · exact .inl hmem
  | resolve config =>
      have hunits : (P.perform (.resolve config)).units =
          P.units.map fun u => (u.resolve config P.tables).unit := units_resolve config P
      rw [hunits] at h
      obtain ⟨u, hu, rfl⟩ := List.mem_map.mp h
      exact .inr (.inr ⟨config, rfl, u, hu, rfl⟩)

/-! ## a whole history -/

/-- **Units, a history**: what holds of the units at the start and of those that are added, and is
kept by every pass, holds of all units in the end. -/
theorem forall_units_run {Inv : SourceUnit → Prop} {P : Program} {actions : List Action}
    (hstart : ∀ u ∈ P.units, Inv u)
    (hinsert : ∀ store u, Action.insert store u ∈ actions → Inv u)
    (hresolve : ∀ config tables u, Inv u → Inv (u.resolve config tables).unit) :
    ∀ u ∈ (P.run actions).units, Inv u := by
  induction actions generalizing P with
  | nil => exact hstart
  | cons action actions ih =>
      refine ih (fun v hv => ?_) fun store u hmem => hinsert store u (List.mem_cons_of_mem _ hmem)
      rcases mem_units_perform hv with hold | ⟨store, rfl⟩ | ⟨config, rfl, u, hu, rfl⟩
      · exact hstart v hold
      · exact hinsert store v List.mem_cons_self
      · exact hresolve config P.tables u (hstart u hu)

/-! ## paths -/

/-- With distinct paths, the unit at a path is the one that has the path. -/
theorem unit?_eq_some_iff {P : Program} (hpaths : P.paths.Nodup) {path : String}
    {v : SourceUnit} : P.unit? path = some v ↔ v ∈ P.units ∧ v.path = path := by
  constructor
  · intro h
    exact ⟨List.mem_of_find?_eq_some h, by simpa using List.find?_some h⟩
  · rintro ⟨hv, rfl⟩
    cases h : P.unit? v.path with
    | none =>
        have hnone := List.find?_eq_none.mp h v hv
        simp at hnone
    | some w =>
        have hw : w ∈ P.units := List.mem_of_find?_eq_some h
        have hpath : w.path = v.path := by simpa using List.find?_some h
        rw [List.inj_on_of_nodup_map hpaths hw hv hpath]

/-- Paths stay distinct. -/
theorem nodup_paths_perform {P : Program} (h : P.paths.Nodup) (action : Action) :
    (P.perform action).paths.Nodup := by
  cases action with
  | insert store u =>
      rcases P.perform_insert_cases store u with hsame | ⟨hnew, hperm⟩
      · rwa [hsame]
      · have hpaths : (P.perform (.insert store u)).paths.Perm (u.path :: P.paths) :=
          hperm.map SourceUnit.path
        refine hpaths.nodup_iff.mpr (List.nodup_cons.mpr ⟨fun hmem => ?_, h⟩)
        obtain ⟨v, hv, hpath⟩ := List.mem_map.mp hmem
        have hnot := List.any_eq_false.mp hnew v hv
        simp [hpath] at hnot
  | resolve config =>
      have hpaths : (P.perform (.resolve config)).paths = P.paths := paths_resolve config P
      rwa [hpaths]

/-- No history makes two units share a path. -/
theorem nodup_paths_run {P : Program} (h : P.paths.Nodup) (actions : List Action) :
    (P.run actions).paths.Nodup := by
  induction actions generalizing P with
  | nil => exact h
  | cons action actions ih => exact ih (nodup_paths_perform h action)

/-- Every unit is still there after an action, with the same skeleton. -/
theorem exists_unit?_perform {P : Program} (h : P.paths.Nodup) (action : Action) {path : String}
    {v : SourceUnit} (hv : P.unit? path = some v) :
    ∃ v', (P.perform action).unit? path = some v' ∧ v.skeleton = v'.skeleton := by
  obtain ⟨hmem, hpath⟩ := (unit?_eq_some_iff h).mp hv
  have hafter := nodup_paths_perform h action
  cases action with
  | insert store u =>
      refine ⟨v, (unit?_eq_some_iff hafter).mpr ⟨?_, hpath⟩, rfl⟩
      rcases P.perform_insert_cases store u with hsame | ⟨-, hperm⟩
      · rwa [hsame]
      · exact hperm.mem_iff.mpr (List.mem_cons_of_mem u hmem)
  | resolve config =>
      refine ⟨(v.resolve config P.tables).unit, (unit?_eq_some_iff hafter).mpr ⟨?_, ?_⟩, ?_⟩
      · have hunits : (P.perform (.resolve config)).units =
            P.units.map fun u => (u.resolve config P.tables).unit := units_resolve config P
        rw [hunits]
        exact List.mem_map.mpr ⟨v, hmem, rfl⟩
      · rw [SourceUnit.path_resolve, hpath]
      · rw [SourceUnit.skeleton_resolve]

end Program

/-- `var x; export { x };`: a module with one name on offer. -/
def exporting : SourceUnit where
  source := { id := 1, name := "b.ql", kind := .module, lineStarts := [0] }
  nodes :=
    [.varDecl { location := ⟨1, 1, 0, 6⟩ } (.plain "x" 4) none false,
      .exportDecl { location := ⟨1, 8, 7, 13⟩ } [.plain "x" 16]]

end NameResolution
