import NameResolution.Proofs.Sweep

/-!
# Where the import section ends

A unit keeps its import section apart from its other nodes. A pass reads both: declarations are
collected from the nodes alone, exports and imports from the section and then the nodes, and the
walk goes through the section first. So as long as no declaration changes sides, the place where
the section ends does not matter.

`SourceUnit.endImportsAt` moves the end of the section forward, and every part of a pass commutes
with it: collecting (`collect_endImportsAt`), binding imports (`bindImports_endImportsAt`), the walk
(`walk_endImportsAt`), and with them the unit's share of the pass (`resolve_endImportsAt`).

Main statement: `Program.boundary_unobservable`.
-/

namespace NameResolution

namespace Node

/-- An import or export declares no name. -/
theorem declaredName?_of_kind {n : Node} (h : n.kind = .importDecl ∨ n.kind = .exportDecl) :
    n.declaredName? = none := by
  cases n with
  | varDecl => simp [kind] at h
  | _ => rfl

/-! ## walks in two parts -/

/-- Walking the first nodes of a list gives the first nodes of the walked list. -/
theorem walkAll_take (cx : WalkContext) (pending : Option String) (k : Nat) (ns : List Node)
    (w : Walker) :
    (walkAll cx pending (ns.take k) w).1 = (walkAll cx pending ns w).1.take k := by
  induction ns generalizing k w with
  | nil => simp [walkAll]
  | cons n ns ih =>
      cases k with
      | zero => simp [walkAll]
      | succ k => simp [walkAll, ih]

/-- The walk of the rest of a list, after that of its first nodes. -/
theorem walkAll_drop (cx : WalkContext) (pending : Option String) (k : Nat) (ns : List Node)
    (w : Walker) :
    walkAll cx pending (ns.drop k) (walkAll cx pending (ns.take k) w).2 =
      ((walkAll cx pending ns w).1.drop k, (walkAll cx pending ns w).2) := by
  induction ns generalizing k w with
  | nil => simp [walkAll]
  | cons n ns ih =>
      cases k with
      | zero => simp [walkAll]
      | succ k => simp [walkAll, ih]

end Node

/-! ## one unit -/

namespace SourceUnit

/-- The unit with an import section of its first `k` nodes. What else was in the section now comes
first among the other nodes. -/
def endImportsAt (k : Nat) (u : SourceUnit) : SourceUnit :=
  { u with imports := u.imports.take k, nodes := u.imports.drop k ++ u.nodes }

variable {u : SourceUnit} {k : Nat}

@[simp] theorem path_endImportsAt (k : Nat) (u : SourceUnit) :
    (u.endImportsAt k).path = u.path := rfl

@[simp] theorem isResolved_endImportsAt (k : Nat) (u : SourceUnit) :
    (u.endImportsAt k).isResolved = u.isResolved := rfl

/-- The top-level nodes are the same, wherever the import section ends. -/
@[simp] theorem topLevel_endImportsAt (k : Nat) (u : SourceUnit) :
    (u.endImportsAt k).topLevel = u.topLevel := by
  simp [topLevel, endImportsAt, ← List.append_assoc]

@[simp] theorem importDecls_endImportsAt (k : Nat) (u : SourceUnit) :
    (u.endImportsAt k).importDecls = u.importDecls := by
  simp [importDecls]

/-- No declaration is among the nodes that leave the import section at `k`. -/
def KeepsDeclarations (k : Nat) (u : SourceUnit) : Prop :=
  ∀ n ∈ u.imports.drop k, n.declaredName? = none

/-- If no declaration crosses the boundary, the same names are collected. -/
theorem collect_endImportsAt (h : u.KeepsDeclarations k) :
    (u.endImportsAt k).collect = u.collect := by
  have hnone : (u.imports.drop k).filterMap Node.declaredName? = [] :=
    List.filterMap_eq_nil_iff.mpr h
  have hnames : (u.endImportsAt k).nodes.filterMap Node.declaredName? =
      u.nodes.filterMap Node.declaredName? := by
    rw [endImportsAt, List.filterMap_append, hnone, List.nil_append]
  rw [collect, hnames, topLevel_endImportsAt, collect]

theorem bindImports_endImportsAt (tables : Tables) (k : Nat) (u : SourceUnit) :
    (u.endImportsAt k).bindImports tables = (u.bindImports tables).endImportsAt k := by
  simp [bindImports, endImportsAt, List.map_take, List.map_drop]

theorem walk_endImportsAt (cx : WalkContext) (k : Nat) (u : SourceUnit) :
    (u.endImportsAt k).walk cx = ((u.walk cx).1.endImportsAt k, (u.walk cx).2) := by
  simp only [walk, endImportsAt, Node.walkAll_append, Node.walkAll_drop, Node.walkAll_take]

/-- If no declaration crosses the boundary, the walk knows the same. -/
theorem walkContext_endImportsAt (h : u.KeepsDeclarations k) (config : Config) (tables : Tables) :
    (u.endImportsAt k).walkContext config tables = u.walkContext config tables := by
  simp [walkContext, importTable, collect_endImportsAt h]

/-- If no declaration crosses the boundary, a pass does the same to the unit, and leaves the
boundary where it is. -/
theorem resolveNow_endImportsAt (h : u.KeepsDeclarations k) (config : Config) (tables : Tables) :
    (u.endImportsAt k).resolveNow config tables =
      { u.resolveNow config tables with
        unit := (u.resolveNow config tables).unit.endImportsAt k } := by
  simp only [resolveNow, walkContext_endImportsAt h, collect_endImportsAt h,
    importDecls_endImportsAt, path_endImportsAt, bindImports_endImportsAt, walk_endImportsAt]
  rfl

/-- **One unit**: its share of a pass is the same, and its nodes end up the same. -/
theorem resolve_endImportsAt (h : u.KeepsDeclarations k) (config : Config) (tables : Tables) :
    (u.endImportsAt k).resolve config tables =
      { u.resolve config tables with unit := (u.resolve config tables).unit.endImportsAt k } := by
  cases hopen : u.isResolved with
  | true =>
      have hopen' : (u.endImportsAt k).isResolved = true := hopen
      rw [resolve_of_isResolved hopen', resolve_of_isResolved hopen]
  | false =>
      have hopen' : (u.endImportsAt k).isResolved = false := hopen
      rw [resolve_of_open hopen', resolve_of_open hopen, resolveNow_endImportsAt h]

end SourceUnit

/-! ## programs -/

namespace Program

variable {P : Program}

/-- A change that keeps paths changes the unit found at a path. -/
theorem unit?_mapUnits {f : SourceUnit → SourceUnit} (hf : ∀ u, (f u).path = u.path)
    (P : Program) (path : String) : (P.mapUnits f).unit? path = (P.unit? path).map f := by
  have hpath : (fun u : SourceUnit => u.path == path) ∘ f = fun u => u.path == path := by
    funext u
    rw [Function.comp_apply, hf]
  rw [unit?, units_mapUnits, List.find?_map, hpath, unit?]

/-- A change of units that a pass does not see: it keeps what the entry check and the other units
read, and commutes with the unit's share of the pass. -/
structure Unseen (config : Config) (P : Program) (f : SourceUnit → SourceUnit) : Prop where
  source : ∀ u, (f u).source = u.source
  isResolved : ∀ u, (f u).isResolved = u.isResolved
  table : ∀ u ∈ P.units, (f u).collect.table = u.collect.table
  share : ∀ u ∈ P.units, (f u).resolve config P.tables =
    { u.resolve config P.tables with unit := f (u.resolve config P.tables).unit }

namespace Unseen

variable {config : Config} {f : SourceUnit → SourceUnit}

theorem path (h : P.Unseen config f) (u : SourceUnit) : (f u).path = u.path :=
  congrArg Source.name (h.source u)

/-- A change that no pass sees leaves the tables as they are. -/
theorem tables_mapUnits (h : P.Unseen config f) : (P.mapUnits f).tables = P.tables := by
  rw [tables, units_mapUnits, List.map_map, tables]
  refine List.map_congr_left fun u hu => ?_
  rw [Function.comp_apply, h.path, h.table u hu]

/-- A change that no pass sees leaves the entry as good or bad as it was. -/
theorem entryProblem?_mapUnits (h : P.Unseen config f) :
    (P.mapUnits f).entryProblem? = P.entryProblem? := by
  have hunit : (P.mapUnits f).unit? P.entry = (P.unit? P.entry).map f :=
    unit?_mapUnits h.path P P.entry
  have hproblem : (P.mapUnits f).entryProblem? =
      entryProblemOf P.entry P.entryKind ((P.unit? P.entry).map f) := by
    rw [← hunit]
    rfl
  rw [hproblem, entryProblem?]
  cases P.unit? P.entry with
  | none => rfl
  | some u =>
      have hkind : (f u).kind = u.kind := congrArg Source.kind (h.source u)
      simp [entryProblemOf, hkind]

/-- A change that no pass sees commutes with the check of the entry. -/
theorem checkEntry_mapUnits (h : P.Unseen config f) :
    (P.mapUnits f).checkEntry = P.checkEntry.mapUnits f := by
  rw [checkEntry, h.entryProblem?_mapUnits, checkEntry]
  cases P.entryProblem? <;> rfl

/-- **A change that is not seen**: the pass over the changed program is the pass over the program,
with the change made afterwards. -/
theorem resolve_mapUnits (h : P.Unseen config f) :
    (P.mapUnits f).resolve config =
      { P.resolve config with program := (P.resolve config).program.mapUnits f } := by
  obtain ⟨ds, hds⟩ : ∃ ds, P.checkEntry = { P with diagnostics := ds } := by
    unfold checkEntry
    split <;> exact ⟨_, rfl⟩
  have hshares : ∀ us ⊆ P.units, (us.map f).map (·.resolve config P.tables) =
      (us.map (·.resolve config P.tables)).map fun r => { r with unit := f r.unit } := by
    intro us hus
    rw [List.map_map, List.map_map]
    exact List.map_congr_left fun u hu => h.share u (hus hu)
  have hevent : (P.mapUnits f).entryEvent = P.entryEvent := by
    rw [entryEvent, h.entryProblem?_mapUnits]
    rfl
  have hsize : (P.mapUnits f).size = P.size := by simp [size]
  have hvalues := hshares P.values (List.subset_append_left _ _)
  have hsources := hshares P.sources (List.subset_append_right _ _)
  have htables : Program.tables { P with diagnostics := ds } = P.tables := rfl
  have htables' : (Program.mapUnits { P with diagnostics := ds } f).tables = P.tables :=
    h.tables_mapUnits
  rw [resolve, h.checkEntry_mapUnits, hevent, hsize, hds, htables', resolve, hds, htables]
  simp only [mapUnits, hvalues, hsources, ← List.map_append, List.map_map,
    List.flatMap_map, List.filter_map, Function.comp_def, h.path, h.isResolved]

end Unseen

/-- Ends the import section of the unit at a path after its first `k` nodes. -/
def endImportsOf (path : String) (k : Nat) (u : SourceUnit) : SourceUnit :=
  if u.path = path then u.endImportsAt k else u

/-- Moving the boundary of one unit past no declaration is a change that no pass sees. -/
theorem unseen_endImportsOf (hpaths : P.paths.Nodup) {u : SourceUnit} (hu : u ∈ P.units) {k : Nat}
    (h : u.KeepsDeclarations k) (config : Config) :
    P.Unseen config (endImportsOf u.path k) := by
  -- Only `u` itself is changed, as no other unit has its path.
  have honly : ∀ v ∈ P.units, v.path = u.path → v = u := fun v hv hpath =>
    List.inj_on_of_nodup_map hpaths hv hu hpath
  refine ⟨fun v => ?_, fun v => ?_, fun v hv => ?_, fun v hv => ?_⟩
  · unfold endImportsOf
    split <;> rfl
  · unfold endImportsOf
    split <;> rfl
  · by_cases hpath : v.path = u.path
    · obtain rfl := honly v hv hpath
      rw [endImportsOf, if_pos rfl, SourceUnit.collect_endImportsAt h]
    · rw [endImportsOf, if_neg hpath]
  · by_cases hpath : v.path = u.path
    · obtain rfl := honly v hv hpath
      rw [endImportsOf, if_pos rfl, endImportsOf, SourceUnit.path_resolve, if_pos rfl,
        SourceUnit.resolve_endImportsAt h]
    · rw [endImportsOf, if_neg hpath, endImportsOf, SourceUnit.path_resolve, if_neg hpath]

/-- Moving the boundary of a unit keeps the identifiers of the program in their order. -/
theorem identifiers_endImportsOf (path : String) (k : Nat) (P : Program) :
    (P.mapUnits (endImportsOf path k)).identifiers = P.identifiers := by
  rw [identifiers, units_mapUnits, List.flatMap_map, identifiers]
  refine List.flatMap_congr fun u _ => ?_
  unfold endImportsOf
  split
  · rw [SourceUnit.identifiers, SourceUnit.topLevel_endImportsAt, SourceUnit.identifiers]
  · rfl

/-- **The boundary does not show**: let the import section of a unit be `I ++ J`, with import and
export declarations in `J`. If `J` is moved to the other nodes, a pass gives the same report, tells
the same events and records the same diagnostics. Every other unit comes out the same. The unit
itself comes out with the same nodes, of which those of `J` have moved, and so with the same
bindings, and in the same state. -/
theorem boundary_unobservable (hpaths : P.paths.Nodup) (config : Config) {u : SourceUnit}
    (hu : u ∈ P.units) {I J : List Node} (himports : u.imports = I ++ J)
    (hJ : ∀ n ∈ J, n.kind = .importDecl ∨ n.kind = .exportDecl) :
    ∃ r s, P.sweep config = .ok r ∧
      (P.modifyUnit u.path fun _ => { u with imports := I, nodes := J ++ u.nodes }).sweep config =
        .ok s ∧
      s.report = r.report ∧ s.events = r.events ∧
      s.program.diagnostics = r.program.diagnostics ∧
      s.program.paths = r.program.paths ∧
      s.program.identifiers = r.program.identifiers ∧
      (∀ path, path ≠ u.path → s.program.unit? path = r.program.unit? path) ∧
      ∃ (v : SourceUnit) (I' J' N' : List Node),
        r.program.unit? u.path = some { v with imports := I' ++ J', nodes := N' } ∧
        s.program.unit? u.path = some { v with imports := I', nodes := J' ++ N' } ∧
        I'.length = I.length ∧ J'.length = J.length := by
  have hkeeps : u.KeepsDeclarations I.length := by
    intro n hn
    rw [himports, List.drop_left] at hn
    exact Node.declaredName?_of_kind (hJ n hn)
  have hunseen := unseen_endImportsOf hpaths hu hkeeps config
  have hlength : (u.resolve config P.tables).unit.imports.length = u.imports.length :=
    SourceUnit.length_imports_of_skeleton (SourceUnit.skeleton_resolve config P.tables u)
  have hmoved : (P.modifyUnit u.path fun _ => { u with imports := I, nodes := J ++ u.nodes }) =
      P.mapUnits (endImportsOf u.path I.length) := by
    rw [modifyUnit_eq_mapUnits hpaths]
    refine mapUnits_congr fun v hv => ?_
    by_cases hpath : v.path = u.path
    · obtain rfl := List.inj_on_of_nodup_map hpaths hv hu hpath
      rw [if_pos rfl, endImportsOf, if_pos rfl, SourceUnit.endImportsAt, himports, List.take_left,
        List.drop_left]
    · rw [if_neg hpath, endImportsOf, if_neg hpath]
  have hpaths' : (P.mapUnits (endImportsOf u.path I.length)).paths.Nodup := by
    rwa [paths_mapUnits hunseen.path]
  refine ⟨P.resolve config, _, (sweep_eq_pass hpaths config).trans (pass_eq_ok hpaths config),
    (congrArg (sweep config) hmoved).trans
      ((sweep_eq_pass hpaths' config).trans (pass_eq_ok hpaths' config)), ?_⟩
  rw [hunseen.resolve_mapUnits]
  have hafter : (P.resolve config).program.unit? u.path =
      some (u.resolve config P.tables).unit := by
    rw [unit?_resolve, (unit?_eq_some_iff hpaths).mpr ⟨hu, rfl⟩, Option.map_some]
  refine ⟨rfl, rfl, rfl, paths_mapUnits hunseen.path _, identifiers_endImportsOf _ _ _, ?_,
    (u.resolve config P.tables).unit, (u.resolve config P.tables).unit.imports.take I.length,
    (u.resolve config P.tables).unit.imports.drop I.length,
    (u.resolve config P.tables).unit.nodes, ?_, ?_, ?_, ?_⟩
  · intro path hne
    rw [unit?_mapUnits hunseen.path]
    cases hfound : (P.resolve config).program.unit? path with
    | none => rfl
    | some v =>
        have hpath : v.path = path := by simpa using List.find?_some hfound
        rw [Option.map_some, endImportsOf, if_neg (hpath.trans_ne hne)]
  · rw [hafter, List.take_append_drop]
  · rw [unit?_mapUnits hunseen.path, hafter, Option.map_some, endImportsOf,
      SourceUnit.path_resolve, if_pos rfl, SourceUnit.endImportsAt]
  · rw [List.length_take, hlength, himports, List.length_append]
    omega
  · rw [List.length_drop, hlength, himports, List.length_append]
    omega

end Program

/-- `import { x } from "b.ql"; import { x } from "c.ql"; export { y }; var y = x;`, with the
declaration outside the import section. -/
def interfacing : SourceUnit where
  source := { id := 0, name := "a.ql", kind := .module, lineStarts := [0] }
  imports :=
    [.importDecl { location := ⟨1, 1, 0, 25⟩ } "b.ql" [.plain "x" 9] none,
      .importDecl { location := ⟨1, 27, 26, 25⟩ } "c.ql" [.plain "x" 35] none,
      .exportDecl { location := ⟨1, 53, 52, 13⟩ } [.plain "y" 61]]
  nodes :=
    [.varDecl { location := ⟨1, 67, 66, 10⟩ } (.plain "y" 70) (some (.identifier (.plain "x" 74)))
      false]

/-- The program of `interfacing` and the two modules that offer it the name `x`. -/
def interfacingProgram : Program where
  entry := "a.ql"
  entryKind := .module
  sources := [interfacing, exporting,
    { exporting with source := { id := 2, name := "c.ql", kind := .module, lineStarts := [0] } }]

/-- Whether the second import and the export stand in the import section or not, the use of `x` is
ambiguous and all else is bound. -/
theorem boundary_interfacing :
    ∃ r s, interfacingProgram.sweep {} = .ok r ∧
      (interfacingProgram.modifyUnit "a.ql" fun _ =>
        { interfacing with
          imports := interfacing.imports.take 1
          nodes := interfacing.imports.drop 1 ++ interfacing.nodes }).sweep {} = .ok s ∧
      s.report = r.report ∧ s.program.identifiers = r.program.identifiers ∧
      r.report = ⟨8, 1, ["b.ql", "c.ql"], ["a.ql"]⟩ := by
  obtain ⟨r, s, hr, hs, hreport, -, -, -, hids, -⟩ := Program.boundary_unobservable
    (P := interfacingProgram) (by decide) {} (u := interfacing)
    (by simp [Program.units, interfacingProgram]) (I := interfacing.imports.take 1)
    (J := interfacing.imports.drop 1) rfl (by decide)
  refine ⟨r, s, hr, hs, hreport, hids, ?_⟩
  have hpass := (Program.sweep_eq_pass (P := interfacingProgram) (by decide) {}).trans
    (Program.pass_eq_ok (by decide) {})
  rw [hpass] at hr
  rw [← Except.ok.inj hr]
  decide

end NameResolution
