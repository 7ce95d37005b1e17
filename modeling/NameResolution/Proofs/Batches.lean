import NameResolution.Proofs.Capture

/-!
# Resolving in two steps

A program may be resolved before all of its units are there, and again when the others have come in.
Compared with a single pass over the whole program, this gives the same bindings and the same
resolved units, except where a use has been captured: it got a binding in the first pass that it
would not have got with the modules that came later.

Main statements: `Program.batches_agree_except_captured`, and `captured_declaration`, where a unit
is resolved in two steps that a single pass leaves unresolved.
-/

namespace NameResolution

/-! ## adding a batch of units -/

namespace Program

/-- Adds units to stores, one after another. -/
def insertAll (P : Program) (batch : List (Store × SourceUnit)) : Program :=
  P.run (batch.map fun entry => .insert entry.1 entry.2)

/-- The units of a batch that go to a store. -/
def unitsFor (store : Store) (batch : List (Store × SourceUnit)) : List SourceUnit :=
  (batch.filter (·.1 = store)).map (·.2)

/-- Inserting two batches is inserting one after the other. -/
theorem insertAll_append (P : Program) (first second : List (Store × SourceUnit)) :
    P.insertAll (first ++ second) = (P.insertAll first).insertAll second := by
  rw [insertAll, insertAll, insertAll, run, run, run, List.map_append, List.foldl_append]

/-- Each unit of a batch goes to one of the stores. -/
theorem mem_unitsFor {batch : List (Store × SourceUnit)} {u : SourceUnit} :
    u ∈ unitsFor .values batch ∨ u ∈ unitsFor .sources batch ↔ ∃ entry ∈ batch, entry.2 = u := by
  constructor
  · intro h
    rcases h with h | h
    · obtain ⟨entry, hentry, rfl⟩ := List.mem_map.mp h
      exact ⟨entry, (List.mem_filter.mp hentry).1, rfl⟩
    · obtain ⟨entry, hentry, rfl⟩ := List.mem_map.mp h
      exact ⟨entry, (List.mem_filter.mp hentry).1, rfl⟩
  · rintro ⟨⟨store, v⟩, hentry, rfl⟩
    cases store with
    | values =>
        exact .inl (List.mem_map.mpr ⟨_, List.mem_filter.mpr ⟨hentry, by simp⟩, rfl⟩)
    | sources =>
        exact .inr (List.mem_map.mpr ⟨_, List.mem_filter.mpr ⟨hentry, by simp⟩, rfl⟩)

/-- A unit under a new path is appended to the store that it is meant for. -/
theorem perform_insert_of_new {P : Program} {u : SourceUnit} (h : P.contains u.path = false)
    (store : Store) :
    (P.perform (.insert store u)).values = P.values ++ unitsFor .values [(store, u)] ∧
      (P.perform (.insert store u)).sources = P.sources ++ unitsFor .sources [(store, u)] := by
  cases store <;> simp [perform, insertInto, h, unitsFor]

/-- A batch of units with new and distinct paths is added in its order, store by store. -/
theorem stores_insertAll {P : Program} {batch : List (Store × SourceUnit)}
    (h : (P.paths ++ batch.map (·.2.path)).Nodup) :
    (P.insertAll batch).values = P.values ++ unitsFor .values batch ∧
      (P.insertAll batch).sources = P.sources ++ unitsFor .sources batch := by
  induction batch generalizing P with
  | nil => simp [insertAll, unitsFor]
  | cons entry batch ih =>
      obtain ⟨store, u⟩ := entry
      have hnew : P.contains u.path = false := by
        rw [Bool.eq_false_iff, ne_eq, contains_eq_true_iff]
        intro hmem
        exact (List.nodup_append.mp h).2.2 u.path hmem u.path List.mem_cons_self rfl
      obtain ⟨hvalues, hsources⟩ := perform_insert_of_new hnew store
      have hpaths : (P.perform (.insert store u)).paths.Perm (u.path :: P.paths) :=
        (perm_units_insert hnew store).map SourceUnit.path
      have hnodup : ((P.perform (.insert store u)).paths ++ batch.map (·.2.path)).Nodup := by
        refine ((hpaths.append_right _).nodup_iff).mpr ?_
        exact List.perm_middle.nodup_iff.mp h
      have hsplit : ∀ s, unitsFor s ((store, u) :: batch) =
          unitsFor s [(store, u)] ++ unitsFor s batch := by
        intro s
        rw [unitsFor, unitsFor, unitsFor, ← List.map_append, ← List.filter_append]
        rfl
      have hcons : P.insertAll ((store, u) :: batch) =
          (P.perform (.insert store u)).insertAll batch := rfl
      obtain ⟨hrestValues, hrestSources⟩ := ih hnodup
      rw [hcons, hrestValues, hrestSources, hvalues, hsources, hsplit, hsplit,
        List.append_assoc, List.append_assoc]
      exact ⟨rfl, rfl⟩

/-- After a batch under new paths, the units are those from before and those of the batch. -/
theorem mem_units_insertAll {P : Program} {batch : List (Store × SourceUnit)}
    (h : (P.paths ++ batch.map (·.2.path)).Nodup) {u : SourceUnit} :
    u ∈ (P.insertAll batch).units ↔ u ∈ P.units ∨ ∃ entry ∈ batch, entry.2 = u := by
  obtain ⟨hvalues, hsources⟩ := stores_insertAll h
  rw [units, hvalues, hsources, ← mem_unitsFor, units]
  simp only [List.mem_append]
  tauto

/-- The units of a program and of a batch that was added to it can be looked up by their paths. -/
theorem unit?_insertAll {P : Program} {batch : List (Store × SourceUnit)}
    (h : (P.paths ++ batch.map (·.2.path)).Nodup) {u : SourceUnit}
    (hu : u ∈ P.units ∨ ∃ entry ∈ batch, entry.2 = u) :
    (P.insertAll batch).unit? u.path = some u := by
  have hnodup : (P.insertAll batch).paths.Nodup := nodup_paths_run (List.nodup_append.mp h).1 _
  exact (unit?_eq_some_iff hnodup).mpr ⟨(mem_units_insertAll h).mpr hu, rfl⟩

/-! ## two batches -/

variable {P early : Program} {first second : List (Store × SourceUnit)} {config : Config}

/-- The whole program extends the one with the first batch only. -/
theorem extends_insertAll (h : (early.paths ++ second.map (·.2.path)).Nodup) :
    (early.insertAll second).Extends early := by
  intro path v hv
  obtain ⟨hmem, rfl⟩ := mem_paths_of_unit? hv
  exact unit?_insertAll h (.inl hmem)

/-- A pass over the first batch leaves the paths of the second one free. -/
theorem nodup_paths_resolve (h : (early.paths ++ second.map (·.2.path)).Nodup) (config : Config) :
    ((early.resolve config).program.paths ++ second.map (·.2.path)).Nodup := by
  rwa [paths_resolve]

/-- With the second batch added after a pass, the tables are those of the whole program. -/
theorem tables_insertAll_resolve (h : (early.paths ++ second.map (·.2.path)).Nodup)
    (config : Config) :
    ((early.resolve config).program.insertAll second).tables = (early.insertAll second).tables := by
  obtain ⟨hvalues, hsources⟩ := stores_insertAll h
  obtain ⟨hvalues', hsources'⟩ := stores_insertAll (nodup_paths_resolve h config)
  rw [tables, tables, units, units, hvalues, hsources, hvalues', hsources', values_resolve,
    sources_resolve]
  simp only [List.map_append, map_table_resolve]

/-- The unit at the path of a unit of the first batch, before the second pass. -/
theorem unit?_insertAll_resolve (h : (early.paths ++ second.map (·.2.path)).Nodup)
    {u : SourceUnit} (hu : u ∈ early.units) (config : Config) :
    ((early.resolve config).program.insertAll second).unit? u.path =
      some (u.resolve config early.tables).unit := by
  have hmem : (u.resolve config early.tables).unit ∈ (early.resolve config).program.units := by
    rw [units_resolve]
    exact List.mem_map.mpr ⟨u, hu, rfl⟩
  have hunit := unit?_insertAll (nodup_paths_resolve h config) (.inl hmem)
  rwa [SourceUnit.path_resolve] at hunit

/-- The program has no unit yet under the path of a unit that comes later. -/
theorem contains_of_late (h : (early.paths ++ second.map (·.2.path)).Nodup)
    {entry : Store × SourceUnit} (hentry : entry ∈ second) :
    early.contains entry.2.path = false := by
  rw [Bool.eq_false_iff, ne_eq, contains_eq_true_iff]
  intro hmem
  exact (List.nodup_append.mp h).2.2 _ hmem _ (List.mem_map.mpr ⟨entry, hentry, rfl⟩) rfl

/-- The paths of a program can be read off its tables. -/
theorem paths_eq_map_tables (P : Program) : P.paths = P.tables.map (·.1) := by
  rw [paths, tables, List.map_map]
  rfl

/-- The unit at a path after the second of two passes. -/
theorem unit?_twice (h : (early.paths ++ second.map (·.2.path)).Nodup) {path : String}
    {u : SourceUnit}
    (hu : ((early.resolve config).program.insertAll second).unit? path = some u) :
    (((early.resolve config).program.insertAll second).resolve config).program.unit? path =
      some (u.resolve config (early.insertAll second).tables).unit := by
  rw [unit?_resolve, hu, Option.map_some, tables_insertAll_resolve h]

/-- The unit at a path after a single pass. -/
theorem unit?_once {whole : Program} {path : String} {u : SourceUnit}
    (hu : whole.unit? path = some u) :
    (whole.resolve config).program.unit? path = some (u.resolve config whole.tables).unit := by
  rw [unit?_resolve, hu, Option.map_some]

/-- The paths of the first batch are new to an empty program. -/
theorem nodup_paths_first (hempty : P.units = [])
    (hpaths : ((first ++ second).map (·.2.path)).Nodup) :
    (P.paths ++ first.map (·.2.path)).Nodup := by
  rw [List.map_append] at hpaths
  rw [paths, hempty, List.map_nil, List.nil_append]
  exact (List.nodup_append.mp hpaths).1

/-- The paths of the second batch are new to the program with the first one. -/
theorem nodup_paths_second (hempty : P.units = [])
    (hpaths : ((first ++ second).map (·.2.path)).Nodup) :
    ((P.insertAll first).paths ++ second.map (·.2.path)).Nodup := by
  have hfirst := nodup_paths_first hempty hpaths
  have hearly : (P.insertAll first).paths.Nodup := nodup_paths_run (List.nodup_append.mp hfirst).1 _
  rw [List.map_append] at hpaths
  obtain ⟨-, hsecond, hdisjoint⟩ := List.nodup_append.mp hpaths
  refine List.nodup_append.mpr ⟨hearly, hsecond, fun path hpath => ?_⟩
  obtain ⟨u, hu, rfl⟩ := List.mem_map.mp hpath
  rcases (mem_units_insertAll hfirst).mp hu with hold | ⟨entry, hentry, rfl⟩
  · rw [hempty] at hold
    cases hold
  · exact hdisjoint entry.2.path (List.mem_map.mpr ⟨entry, hentry, rfl⟩)

/-- **Two batches**: two batches of fresh units with distinct paths are added to an empty program,
once with a pass after each batch, once with a single pass at the end. Then every unit has the same
identifiers with the same bindings, except for captured uses, which have other ones. And the single
pass leaves a unit resolved exactly if the two passes do and the single pass binds its captured
uses. -/
theorem batches_agree_except_captured (P : Program) (first second : List (Store × SourceUnit))
    (config : Config) (hempty : P.units = [])
    (hpaths : ((first ++ second).map (·.2.path)).Nodup)
    (hfresh : ∀ entry ∈ first ++ second, entry.2.IsFresh)
    (hstop : config.stopAtFirstUnresolved = false) :
    let early := P.insertAll first
    let whole := P.insertAll (first ++ second)
    let twice := (((early.resolve config).program.insertAll second).resolve config).program
    let once := (whole.resolve config).program
    twice.paths = once.paths ∧
      ∀ entry ∈ first ++ second, ∃ v w, twice.unit? entry.2.path = some v ∧
        once.unit? entry.2.path = some w ∧
        SourceUnit.AgreesExcept (entry.2.Captured early whole config) entry.2 v w := by
  intro early whole twice once
  have hwhole : whole = early.insertAll second := insertAll_append P first second
  have hsecond : (early.paths ++ second.map (·.2.path)).Nodup := nodup_paths_second hempty hpaths
  have hextends : whole.Extends early := hwhole ▸ extends_insertAll hsecond
  refine ⟨?_, fun entry hentry => ?_⟩
  · show (((early.resolve config).program.insertAll second).resolve config).program.paths =
      (whole.resolve config).program.paths
    rw [paths_resolve, paths_resolve, paths_eq_map_tables, tables_insertAll_resolve hsecond,
      ← hwhole, ← paths_eq_map_tables]
  · rcases List.mem_append.mp hentry with hmem | hmem
    · -- A unit of the first batch is resolved twice.
      have hearly : early.unit? entry.2.path = some entry.2 :=
        unit?_insertAll (nodup_paths_first hempty hpaths) (.inr ⟨entry, hmem, rfl⟩)
      have hunit : entry.2 ∈ early.units := (mem_paths_of_unit? hearly).1
      refine ⟨_, _, unit?_twice hsecond (unit?_insertAll_resolve hsecond hunit config),
        unit?_once (hextends _ _ hearly), ?_⟩
      rw [← hwhole]
      exact SourceUnit.agreesExcept_captured hextends (contains_of_unit? hearly)
        (hfresh entry hentry) hstop
    · -- A unit of the second batch is resolved once, with the same tables.
      have hlate : whole.unit? entry.2.path = some entry.2 :=
        hwhole ▸ unit?_insertAll hsecond (.inr ⟨entry, hmem, rfl⟩)
      have hlate' : ((early.resolve config).program.insertAll second).unit? entry.2.path =
          some entry.2 :=
        unit?_insertAll (nodup_paths_resolve hsecond config) (.inr ⟨entry, hmem, rfl⟩)
      refine ⟨_, _, unit?_twice hsecond hlate', unit?_once hlate, ?_⟩
      rw [← hwhole]
      refine SourceUnit.agreesExcept_self
        (SourceUnit.skeleton_resolve config whole.tables entry.2) fun p id _ hcaptured => ?_
      have hnew := contains_of_late hsecond hmem
      rw [hcaptured.first] at hnew
      cases hnew

end Program

/-- `import { x } from "b.ql"; var x; x`: the name is imported and declared. -/
def rivalling : SourceUnit where
  source := { id := 0, name := "a.ql", kind := .module, lineStarts := [0] }
  imports := [.importDecl { location := ⟨1, 1, 0, 25⟩ } "b.ql" [.plain "x" 9] none]
  nodes :=
    [.varDecl { location := ⟨1, 27, 26, 6⟩ } (.plain "x" 30) none false,
      .identifier (.plain "x" 33)]

/-- The program without units, to which the units of `rivallingTwice` are added one by one. -/
def unitless : Program where
  entry := "a.ql"
  entryKind := .module

theorem isFresh_rivalling : ∀ entry ∈ [(Store.sources, rivalling), (Store.sources, exporting)],
    entry.2.IsFresh := by
  intro entry hentry
  obtain rfl | rfl : entry = (Store.sources, rivalling) ∨ entry = (Store.sources, exporting) := by
    simpa using hentry
  · exact ⟨rfl, by decide⟩
  · exact ⟨rfl, by decide⟩

/-- The unit is resolved, then its module comes in, and then it is resolved again. -/
def rivallingTwice : Program :=
  (((unitless.insertAll [(.sources, rivalling)]).resolve {}).program.insertAll
    [(.sources, exporting)]).resolve {} |>.program

/-- Both units are there when the resolver runs. -/
def rivallingOnce : Program :=
  (unitless.insertAll ([(.sources, rivalling)] ++ [(.sources, exporting)])).resolve {} |>.program

/-- The first of two passes binds the use to the declaration of the unit, and the second one finds
nothing wrong with the unit. A single pass finds the name ambiguous. -/
theorem captured_declaration :
    (([(Store.sources, rivalling)] ++ [(Store.sources, exporting)]).map (·.2.path)).Nodup ∧
      (∀ entry ∈ [(Store.sources, rivalling)] ++ [(Store.sources, exporting)], entry.2.IsFresh) ∧
      (rivallingTwice.unit? "a.ql").map (·.isResolved) = some true ∧
      (rivallingOnce.unit? "a.ql").map (·.isResolved) = some false :=
  ⟨by decide, isFresh_rivalling, rfl, rfl⟩

/-- The use of the name is captured: two passes leave it bound and a single pass does not. -/
theorem captured_rivalling :
    rivalling.Captured (unitless.insertAll [(.sources, rivalling)])
      (unitless.insertAll ([(.sources, rivalling)] ++ [(.sources, exporting)])) {} [2]
      (.plain "x" 33) := by
  obtain ⟨-, hagree⟩ := Program.batches_agree_except_captured unitless [(.sources, rivalling)]
    [(.sources, exporting)] {} rfl (by decide) isFresh_rivalling rfl
  obtain ⟨v, w, hv, hw, hexcept⟩ := hagree (.sources, rivalling) List.mem_cons_self
  obtain ⟨a, b, ha, hb, hiff⟩ := hexcept.identifiers [2] (.plain "x" 33) rfl
  have htwice : (rivallingTwice.unit? "a.ql").bind (fun u => u.root.at? [2]) =
      some (.identifier { Identifier.plain "x" 33 with
        binding := some (.inModule "a.ql" "x" ⟨1, 31, 30, 1⟩) }) := rfl
  have honce : (rivallingOnce.unit? "a.ql").bind (fun u => u.root.at? [2]) =
      some (.identifier (.plain "x" 33)) := rfl
  rw [show rivallingTwice.unit? "a.ql" = some v from hv, Option.bind_some, ha] at htwice
  rw [show rivallingOnce.unit? "a.ql" = some w from hw, Option.bind_some, hb] at honce
  by_contra hnot
  have hsame : a = b := hiff.mpr hnot
  rw [hsame, honce] at htwice
  simp [Identifier.plain] at htwice

end NameResolution
