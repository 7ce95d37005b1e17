import Mathlib.Data.List.Basic
import NameResolution.Proofs.History
import NameResolution.Proofs.SecondPass

/-!
# What a unit's resolution depends on

Of the rest of a program, a pass over a unit reads two things: whether the modules that the unit
imports are there, and where they declare the names that the unit asks for.

The layers are

* one import in two sets of tables (`Import.FindsSame`);
* the whole share of a unit in a pass (`SourceUnit.resolve_congr`);
* the tables in terms of the units of a program (`Import.site?_eq_some_iff`).

Main statement: `Program.resolve_local`.
-/

namespace NameResolution

/-! ## one import -/

namespace Import

/-- An import finds the same in two sets of tables. -/
structure FindsSame (tables tables' : Tables) (i : Import) : Prop where
  known : i.isKnown tables = i.isKnown tables'
  site : ∀ id ∈ i.names, i.site? tables id.name = i.site? tables' id.name

namespace FindsSame

variable {tables tables' : Tables} {i : Import}

/-- The import makes the same entries. -/
theorem entries (h : i.FindsSame tables tables') : i.entries tables = i.entries tables' :=
  List.filterMap_congr fun id hid => by rw [h.site id hid]

theorem missing (h : i.FindsSame tables tables') : i.missing tables = i.missing tables' := by
  have hnames : (i.names.filter fun id => (i.site? tables id.name).isNone) =
      i.names.filter fun id => (i.site? tables' id.name).isNone :=
    List.filter_congr fun id hid => by rw [h.site id hid]
  rw [Import.missing, Import.missing, h.known, hnames]

/-- The import fails for the same names. -/
theorem failures (h : i.FindsSame tables tables') : i.failures tables = i.failures tables' := by
  rw [Import.failures, Import.failures, h.missing]

theorem programFailures (h : i.FindsSame tables tables') (importer : String) :
    i.programFailures tables importer = i.programFailures tables' importer := by
  rw [Import.programFailures, Import.programFailures, h.known]

theorem unresolved (h : i.FindsSame tables tables') :
    i.unresolved tables = i.unresolved tables' := by
  rw [Import.unresolved, Import.unresolved, h.known, h.missing]

theorem bound (h : i.FindsSame tables tables') : i.bound tables = i.bound tables' :=
  List.countP_congr fun id hid => by rw [h.site id hid]

theorem events (h : i.FindsSame tables tables') (importer : String) :
    i.events tables importer = i.events tables' importer := by
  rw [Import.events, Import.events, h.known, h.missing]

/-- The names of the import are bound to the same declarations. -/
theorem bindNames (h : i.FindsSame tables tables') :
    i.names.map (i.bindName tables) = i.names.map (i.bindName tables') := by
  refine List.map_congr_left fun id hid => ?_
  rw [bindName, bindName, h.site id hid]

end FindsSame

end Import

/-- A node is bound to the same if its import finds the same. -/
theorem Node.bindImport_congr {tables tables' : Tables} {n : Node}
    (h : ∀ i, n.import? = some i → i.FindsSame tables tables') :
    n.bindImport tables = n.bindImport tables' := by
  cases n with
  | importDecl info path names asName =>
      rw [bindImport, bindImport, (h ⟨info.location, path, names⟩ rfl).bindNames]
  | _ => rfl

/-! ## a unit -/

namespace SourceUnit

variable {u : SourceUnit} {tables tables' : Tables}

/-- A unit has its imports bound to the same if they find the same. -/
theorem bindImports_congr (h : ∀ i ∈ u.importDecls, i.FindsSame tables tables') :
    u.bindImports tables = u.bindImports tables' := by
  have hnode : ∀ n ∈ u.topLevel, n.bindImport tables = n.bindImport tables' := by
    intro n hn
    exact Node.bindImport_congr fun i hi => h i (List.mem_filterMap.mpr ⟨n, hn, hi⟩)
  have himports : u.imports.map (·.bindImport tables) = u.imports.map (·.bindImport tables') :=
    List.map_congr_left fun n hn => hnode n (List.mem_append_left _ hn)
  have hnodes : u.nodes.map (·.bindImport tables) = u.nodes.map (·.bindImport tables') :=
    List.map_congr_left fun n hn => hnode n (List.mem_append_right _ hn)
  rw [bindImports, bindImports, himports, hnodes]

/-- The walk of a unit knows the same if the imports find the same. -/
theorem walkContext_congr (h : ∀ i ∈ u.importDecls, i.FindsSame tables tables')
    (config : Config) : u.walkContext config tables = u.walkContext config tables' := by
  have hentries : u.importDecls.flatMap (·.entries tables) =
      u.importDecls.flatMap (·.entries tables') :=
    List.flatMap_congr fun i hi => (h i hi).entries
  rw [walkContext, walkContext, importTable, importTable, hentries]

/-- **Locality of a unit**: a unit's share of a pass depends on the tables only by what the imports
of the unit find there. -/
theorem resolve_congr (h : ∀ i ∈ u.importDecls, i.FindsSame tables tables') (config : Config) :
    u.resolve config tables = u.resolve config tables' := by
  have hfailures : u.importDecls.flatMap (·.failures tables) =
      u.importDecls.flatMap (·.failures tables') :=
    List.flatMap_congr fun i hi => (h i hi).failures
  have hprogram : u.importDecls.flatMap (·.programFailures tables u.path) =
      u.importDecls.flatMap (·.programFailures tables' u.path) :=
    List.flatMap_congr fun i hi => (h i hi).programFailures u.path
  have hevents : u.importDecls.flatMap (·.events tables u.path) =
      u.importDecls.flatMap (·.events tables' u.path) :=
    List.flatMap_congr fun i hi => (h i hi).events u.path
  have hbound : u.importDecls.map (·.bound tables) = u.importDecls.map (·.bound tables') :=
    List.map_congr_left fun i hi => (h i hi).bound
  have hunresolved : u.importDecls.map (·.unresolved tables) =
      u.importDecls.map (·.unresolved tables') :=
    List.map_congr_left fun i hi => (h i hi).unresolved
  simp only [resolve, resolveNow, walkContext_congr h, bindImports_congr h, hfailures, hprogram,
    hevents, hbound, hunresolved]

/-- What other units can see of a unit: its path, what it exports and where it declares names. -/
structure SameInterface (u v : SourceUnit) : Prop where
  path : u.path = v.path
  exports : ∀ name, u.Exports name ↔ v.Exports name
  firstLocation? : ∀ name, u.firstLocation? name = v.firstLocation? name

/-- The table of a unit holds all that can be seen of it. -/
theorem sameInterface_of_table {u v : SourceUnit} (hpath : u.path = v.path)
    (h : u.collect.table = v.collect.table) : u.SameInterface v := by
  refine ⟨hpath, fun name => ?_, fun name => ?_⟩
  · rw [← mem_exports_collect, ← mem_exports_collect, h]
  · rw [← declaration?_collect, ← declaration?_collect, h]

end SourceUnit

/-! ## programs -/

/-- The unit at a path exports a name, and the first declaration of the name among its nodes stands
at a location. -/
def Program.Offers (P : Program) (path name : String) (location : Location) : Prop :=
  ∃ v, P.unit? path = some v ∧ v.Exports name ∧ v.firstLocation? name = some location

/-- An import finds what the unit at its path offers. -/
theorem Import.site?_eq_some_iff {P : Program} {i : Import} {name : String}
    {location : Location} :
    i.site? P.tables name = some location ↔ P.Offers i.path name location := by
  constructor
  · exact Import.exists_of_site?
  · rintro ⟨v, hv, hexports, hlocation⟩
    have hcontains : v.collect.table.exports.contains name = true := by
      rw [List.contains_iff_mem, SourceUnit.mem_exports_collect]
      exact hexports
    rw [Import.site?, Program.lookup_tables, hv, Option.map_some, Option.bind_some,
      ModuleTable.exported?, if_pos hcontains, SourceUnit.declaration?_collect, hlocation]

namespace Program

variable {P Q : Program}

/-- An import finds the same in two programs that agree on whether the module is there and on what
it offers of the names. -/
theorem findsSame_tables {i : Import} (hknown : P.contains i.path = Q.contains i.path)
    (hoffers : ∀ id ∈ i.names, ∀ location,
      P.Offers i.path id.name location ↔ Q.Offers i.path id.name location) :
    i.FindsSame P.tables Q.tables := by
  refine ⟨?_, fun id hid => ?_⟩
  · rw [isKnown_tables, isKnown_tables, hknown]
  · refine Option.ext fun location => ?_
    rw [Import.site?_eq_some_iff, Import.site?_eq_some_iff]
    exact hoffers id hid location

/-- Two programs have units at the same paths, in any order and in either store, and what can be
seen of these units from outside is the same. -/
structure SameInterfaces (P Q : Program) : Prop where
  paths : ∀ path, path ∈ P.paths ↔ path ∈ Q.paths
  units : ∀ v ∈ P.units, ∀ w ∈ Q.units, v.path = w.path → v.SameInterface w

theorem mem_paths_of_unit? {path : String} {v : SourceUnit} (h : P.unit? path = some v) :
    v ∈ P.units ∧ v.path = path :=
  ⟨List.mem_of_find?_eq_some h, by simpa using List.find?_some h⟩

/-- A program contains just the paths of its units. -/
theorem contains_eq_true_iff {path : String} : P.contains path = true ↔ path ∈ P.paths := by
  simp [contains, paths]

/-- There is a unit at each path of a program. -/
theorem exists_unit?_of_mem_paths {path : String} (h : path ∈ P.paths) :
    ∃ v, P.unit? path = some v := by
  refine Option.isSome_iff_exists.mp ?_
  obtain ⟨v, hv, hpath⟩ := List.mem_map.mp h
  rw [unit?, List.find?_isSome]
  exact ⟨v, hv, by simpa using hpath⟩

namespace SameInterfaces

theorem symm (h : P.SameInterfaces Q) : Q.SameInterfaces P := by
  refine ⟨fun path => (h.paths path).symm, fun v hv w hw hpath => ?_⟩
  have hsame := h.units w hw v hv hpath.symm
  exact ⟨hpath, fun name => (hsame.exports name).symm, fun name => (hsame.firstLocation? name).symm⟩

/-- Programs with the same interfaces contain the same paths. -/
theorem contains (h : P.SameInterfaces Q) (path : String) : P.contains path = Q.contains path := by
  rw [Bool.eq_iff_iff, contains_eq_true_iff, contains_eq_true_iff]
  exact h.paths path

/-- What a module offers in one program, it offers in another with the same interfaces. -/
theorem offers (h : P.SameInterfaces Q) {path name : String} {location : Location}
    (hP : P.Offers path name location) : Q.Offers path name location := by
  obtain ⟨v, hv, hexports, hlocation⟩ := hP
  obtain ⟨hmem, hpath⟩ := mem_paths_of_unit? hv
  obtain ⟨w, hw⟩ : ∃ w, Q.unit? path = some w :=
    exists_unit?_of_mem_paths ((h.paths path).mp (List.mem_map.mpr ⟨v, hmem, hpath⟩))
  obtain ⟨hmem', hpath'⟩ := mem_paths_of_unit? hw
  have hsame := h.units v hmem w hmem' (hpath.trans hpath'.symm)
  exact ⟨w, hw, (hsame.exports name).mp hexports, (hsame.firstLocation? name).symm.trans hlocation⟩

end SameInterfaces

/-- A unit that two programs share comes out of a pass the same if its imports find the same. -/
theorem unit?_resolve_congr {u : SourceUnit} (hP : P.unit? u.path = some u)
    (hQ : Q.unit? u.path = some u) (config : Config)
    (h : ∀ i ∈ u.importDecls, i.FindsSame P.tables Q.tables) :
    (Q.resolve config).program.unit? u.path = (P.resolve config).program.unit? u.path := by
  rw [unit?_resolve, unit?_resolve, hP, hQ, Option.map_some, Option.map_some,
    SourceUnit.resolve_congr h config]

/-- **Locality**: a pass does the same to a unit in two programs if the modules that the unit
imports are in both or in neither and offer the names that it asks for at the same locations. So
neither the order of the units nor their stores matter, nor what is in the other units beyond the
names that they declare and export. -/
theorem resolve_local (config : Config) {u : SourceUnit} (hP : P.unit? u.path = some u)
    (hQ : Q.unit? u.path = some u)
    (hknown : ∀ i ∈ u.importDecls, P.contains i.path = Q.contains i.path)
    (hoffers : ∀ i ∈ u.importDecls, ∀ id ∈ i.names, ∀ location,
      P.Offers i.path id.name location ↔ Q.Offers i.path id.name location) :
    ∃ v, (P.resolve config).program.unit? u.path = some v ∧
      (Q.resolve config).program.unit? u.path = some v ∧
      ∀ R : Program, P.SameInterfaces R → R.unit? u.path = some u →
        (R.resolve config).program.unit? u.path = some v := by
  have hafter : (P.resolve config).program.unit? u.path =
      some (u.resolve config P.tables).unit := by
    rw [unit?_resolve, hP, Option.map_some]
  refine ⟨(u.resolve config P.tables).unit, hafter, ?_, fun R hsame hR => ?_⟩
  · rw [← hafter]
    refine unit?_resolve_congr hP hQ config fun i hi => ?_
    exact findsSame_tables (hknown i hi) (hoffers i hi)
  · rw [← hafter]
    refine unit?_resolve_congr hP hR config fun i _ => ?_
    exact findsSame_tables (hsame.contains i.path) fun id _ location =>
      ⟨hsame.offers, hsame.symm.offers⟩

end Program

/-- `import { x } from "b.ql"; x`: a use of an imported name. -/
def importing : SourceUnit where
  source := { id := 0, name := "a.ql", kind := .module, lineStarts := [0] }
  imports := [.importDecl { location := ⟨1, 1, 0, 25⟩ } "b.ql" [.plain "x" 9] none]
  nodes := [.identifier (.plain "x" 26)]

/-- The module that offers the name, with an unknown name in its body. -/
def exportingMore : SourceUnit :=
  { exporting with nodes := exporting.nodes ++ [.identifier (.plain "y" 19)] }

/-- The program of the importing unit and the module that offers the name, in one store. -/
def importAndExport : Program where
  entry := "a.ql"
  entryKind := .module
  sources := [importing, exporting]

/-- The same unit in a program with a third unit, which uses an unknown name, and where the module
is marked as resolved. -/
def importAmongOthers : Program where
  entry := "c.ql"
  entryKind := .module
  values := [{ exportingMore with isResolved := true }]
  sources := [{ source := { id := 2, name := "c.ql", kind := .module, lineStarts := [0] },
                nodes := [.identifier (.plain "x" 0)] }, importing]

/-- The same unit behind a module in the other store, which cannot be resolved. -/
def exportAndImport : Program where
  entry := "a.ql"
  entryKind := .module
  values := [exportingMore]
  sources := [importing]

theorem sameInterfaces_exportAndImport : importAndExport.SameInterfaces exportAndImport := by
  have hunits : importAndExport.units = [importing, exporting] := rfl
  have hunits' : exportAndImport.units = [exportingMore, importing] := rfl
  refine ⟨fun path => ?_, fun v hv w hw hpath => ?_⟩
  · have hpaths : importAndExport.paths = ["a.ql", "b.ql"] := rfl
    have hpaths' : exportAndImport.paths = ["b.ql", "a.ql"] := rfl
    rw [hpaths, hpaths']
    exact (List.Perm.swap "b.ql" "a.ql" []).mem_iff
  · rw [hunits] at hv
    rw [hunits'] at hw
    obtain rfl | rfl : v = importing ∨ v = exporting := by simpa using hv
    · obtain rfl | rfl : w = exportingMore ∨ w = importing := by simpa using hw
      · exact absurd hpath (by decide)
      · exact SourceUnit.sameInterface_of_table rfl rfl
    · obtain rfl | rfl : w = exportingMore ∨ w = importing := by simpa using hw
      · exact SourceUnit.sameInterface_of_table rfl (by decide)
      · exact absurd hpath (by decide)

/-- The importing unit is resolved in all three programs, though they differ in all the rest. -/
theorem resolve_local_importing :
    ∃ v, (importAndExport.resolve {}).program.unit? "a.ql" = some v ∧
      (importAmongOthers.resolve {}).program.unit? "a.ql" = some v ∧
      (exportAndImport.resolve {}).program.unit? "a.ql" = some v := by
  have hknown : ∀ i ∈ importing.importDecls,
      importAndExport.contains i.path = importAmongOthers.contains i.path := by
    decide
  have hsite : ∀ i ∈ importing.importDecls, ∀ id ∈ i.names,
      i.site? importAndExport.tables id.name = i.site? importAmongOthers.tables id.name := by
    decide
  obtain ⟨v, hfirst, hsecond, hothers⟩ := Program.resolve_local {} (u := importing) rfl rfl hknown
    fun i hi id hid location => by
      rw [← Import.site?_eq_some_iff, ← Import.site?_eq_some_iff, hsite i hi id hid]
  exact ⟨v, hfirst, hsecond, hothers exportAndImport sameInterfaces_exportAndImport rfl⟩

end NameResolution
