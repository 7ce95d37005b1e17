import NameResolution.Proofs.Skeleton
import NameResolution.Resolver.Resolution

/-!
# What the tables say

The tables of a program are made from the trees of its units. This module says what an entry in
them stands for: a declared name for the first declaration of the name among the nodes of the unit,
an exported name for an export declaration at the top level, and an import for an import
declaration whose module offers the name.

Main statements:

* `SourceUnit.declaration?_collect`: the first declaration of a name counts;
* `SourceUnit.exists_mem_duplicates`: every later declaration is reported;
* `SourceUnit.exists_of_mem_importsOf`: every import in a table comes from an import declaration;
* `Import.exists_of_site?`: an offered name is exported and declared by a unit of the program.
-/

namespace NameResolution

/-! ## names at the top level of a unit -/

namespace SourceUnit

/-- The first declaration of a name directly among the nodes of a unit. -/
def firstDeclared? (u : SourceUnit) (name : String) : Option Identifier :=
  (u.nodes.filterMap Node.declaredName?).find? (·.name == name)

/-- Where the first declaration of a name among the nodes of a unit stands. -/
def firstLocation? (u : SourceUnit) (name : String) : Option Location :=
  (u.firstDeclared? name).map (·.info.location)

/-- An export declaration at the top level of a unit lists the name. -/
def Exports (u : SourceUnit) (name : String) : Prop :=
  ∃ n ∈ u.topLevel, ∃ id ∈ n.exportedNames, id.name = name

/-- An import declaration at the top level of a unit asks the module at `path` for the name. -/
def Imports (u : SourceUnit) (path name : String) : Prop :=
  ∃ i ∈ u.importDecls, i.path = path ∧ ∃ id ∈ i.names, id.name = name

end SourceUnit

/-! ## collecting -/

namespace Collected

/-- A declaration is entered unless the name has one already. -/
theorem declaration?_declare (c : Collected) (id : Identifier) (name : String) :
    (c.declare id).table.declaration? name =
      (c.table.declaration? name).or (if id.name == name then some id.info.location else none) := by
  unfold declare ModuleTable.declare
  by_cases hname : id.name = name
  · subst hname
    cases h : c.table.declaration? id.name with
    | some previous => simp [h]
    | none =>
        have hlookup : c.table.declarations.lookup id.name = none := h
        simp [ModuleTable.declaration?, List.lookup_append, hlookup]
  · have hb : (name == id.name) = false := by simpa using Ne.symm hname
    cases h : c.table.declaration? id.name with
    | some previous => simp [hname]
    | none => simp [ModuleTable.declaration?, List.lookup_append, List.lookup_cons, hname, hb]

theorem exports_declare (c : Collected) (id : Identifier) :
    (c.declare id).table.exports = c.table.exports := by
  unfold declare ModuleTable.declare
  cases c.table.declaration? id.name <;> rfl

theorem imports_declare (c : Collected) (id : Identifier) :
    (c.declare id).table.imports = c.table.imports := by
  unfold declare ModuleTable.declare
  cases c.table.declaration? id.name <;> rfl

/-- A declaration takes nothing from the duplicates. -/
theorem duplicates_declare (c : Collected) (id : Identifier) :
    c.duplicates ⊆ (c.declare id).duplicates := by
  unfold declare
  split
  · exact List.Subset.refl _
  · exact List.subset_append_left _ _

/-- A name that is declared already is reported. -/
theorem mem_duplicates_declare {c : Collected} {id : Identifier} {previous : Location}
    (h : c.table.declaration? id.name = some previous) :
    ⟨.duplicateDeclaration id.name previous, id.info.location⟩ ∈ (c.declare id).duplicates := by
  have herror : c.table.declare id.name id.info.location = .error previous := by
    rw [ModuleTable.declare, h]
  rw [declare, herror]
  exact List.mem_append_right _ (List.mem_singleton_self _)

/-- A table knows what it knew before and, of the names declared, the first of each. -/
theorem declaration?_foldl (c : Collected) (ids : List Identifier) (name : String) :
    (ids.foldl declare c).table.declaration? name =
      (c.table.declaration? name).or ((ids.find? (·.name == name)).map (·.info.location)) := by
  induction ids generalizing c with
  | nil => simp
  | cons id ids ih =>
      rw [List.foldl_cons, ih, declaration?_declare, List.find?_cons, Option.or_assoc]
      cases id.name == name <;> simp

theorem exports_foldl (c : Collected) (ids : List Identifier) :
    (ids.foldl declare c).table.exports = c.table.exports := by
  induction ids generalizing c with
  | nil => rfl
  | cons id ids ih => rw [List.foldl_cons, ih, exports_declare]

theorem imports_foldl (c : Collected) (ids : List Identifier) :
    (ids.foldl declare c).table.imports = c.table.imports := by
  induction ids generalizing c with
  | nil => rfl
  | cons id ids ih => rw [List.foldl_cons, ih, imports_declare]

theorem duplicates_foldl (c : Collected) (ids : List Identifier) :
    c.duplicates ⊆ (ids.foldl declare c).duplicates := by
  induction ids generalizing c with
  | nil => exact List.Subset.refl _
  | cons id ids ih => exact List.Subset.trans (duplicates_declare c id) (ih (c.declare id))

/-- A declaration that is not the one in the table is reported. -/
theorem exists_mem_duplicates_foldl {c : Collected} {ids : List Identifier} {id : Identifier}
    (hmem : id ∈ ids)
    (hne : (ids.foldl declare c).table.declaration? id.name ≠ some id.info.location) :
    ∃ previous, ⟨.duplicateDeclaration id.name previous, id.info.location⟩ ∈
      (ids.foldl declare c).duplicates := by
  induction ids generalizing c with
  | nil => simp at hmem
  | cons other ids ih =>
      rcases List.mem_cons.mp hmem with rfl | hmem
      · cases h : c.table.declaration? id.name with
        | some previous =>
            exact ⟨previous, duplicates_foldl _ ids (mem_duplicates_declare h)⟩
        | none =>
            -- The declaration enters the table and stays there.
            refine absurd ?_ hne
            rw [List.foldl_cons, declaration?_foldl, declaration?_declare, h]
            simp
      · exact ih hmem hne

end Collected

namespace SourceUnit

/-- The first declaration of a name among the nodes of a unit counts. -/
theorem declaration?_collect (u : SourceUnit) (name : String) :
    u.collect.table.declaration? name = u.firstLocation? name := by
  rw [collect, Collected.declaration?_foldl]
  rfl

/-- Every other declaration among the nodes of a unit is reported. -/
theorem exists_mem_duplicates {u : SourceUnit} {n : Node} {id : Identifier} (hn : n ∈ u.nodes)
    (hid : n.declaredName? = some id)
    (hne : u.collect.table.declaration? id.name ≠ some id.info.location) :
    ∃ previous, ⟨.duplicateDeclaration id.name previous, id.info.location⟩ ∈
      u.collect.duplicates :=
  Collected.exists_mem_duplicates_foldl (List.mem_filterMap.mpr ⟨n, hn, hid⟩) hne

/-- The exports collected are the names that the unit exports. -/
theorem mem_exports_collect {u : SourceUnit} {name : String} :
    name ∈ u.collect.table.exports ↔ u.Exports name := by
  rw [collect, Collected.exports_foldl, List.mem_map]
  simp only [List.mem_flatMap, Exports]
  constructor
  · rintro ⟨id, ⟨n, hn, hid⟩, rfl⟩
    exact ⟨n, hn, id, hid, rfl⟩
  · rintro ⟨n, hn, id, hid, rfl⟩
    exact ⟨id, ⟨n, hn, hid⟩, rfl⟩

/-- A unit offers what it exports and declares. -/
theorem exported?_collect {u : SourceUnit} {name : String} {location : Location}
    (h : u.collect.table.exported? name = some location) :
    u.Exports name ∧ u.firstLocation? name = some location := by
  rw [ModuleTable.exported?] at h
  split at h
  · next hmem =>
    rw [List.contains_iff_mem, mem_exports_collect] at hmem
    exact ⟨hmem, by rw [← declaration?_collect, h]⟩
  · cases h

end SourceUnit

/-! ## imports in a table -/

namespace ModuleTable

/-- Imports do not change the declarations. -/
theorem declaration?_addImports (t : ModuleTable) (entries : List ImportEntry) (name : String) :
    (t.addImports entries).declaration? name = t.declaration? name := by
  induction entries generalizing t with
  | nil => rfl
  | cons entry entries ih =>
      have hadd : (t.addImport entry).declaration? name = t.declaration? name := by
        unfold addImport
        split <;> rfl
      have h := ih (t.addImport entry)
      rw [hadd] at h
      exact h

theorem mem_addImport {t : ModuleTable} {entry e : ImportEntry} :
    e ∈ (t.addImport entry).imports ↔ e ∈ t.imports ∨ e = entry := by
  unfold addImport
  split
  · next hmem =>
    constructor
    · exact .inl
    · rintro (h | rfl)
      · exact h
      · exact hmem
  · simp

/-- All entries are added to the imports. -/
theorem mem_addImports {t : ModuleTable} {entries : List ImportEntry} {e : ImportEntry} :
    e ∈ (t.addImports entries).imports ↔ e ∈ t.imports ∨ e ∈ entries := by
  induction entries generalizing t with
  | nil => simp [addImports]
  | cons entry entries ih =>
      have hcons : t.addImports (entry :: entries) = (t.addImport entry).addImports entries := rfl
      rw [hcons, ih, mem_addImport, List.mem_cons, or_assoc]

end ModuleTable

namespace SourceUnit

/-- The table of a unit with its imports has the first declaration of each name. -/
theorem declaration?_importTable (tables : Tables) (u : SourceUnit) (name : String) :
    (u.importTable tables).declaration? name = u.firstLocation? name := by
  rw [importTable, ModuleTable.declaration?_addImports, declaration?_collect]

theorem imports_collect (u : SourceUnit) : u.collect.table.imports = [] := by
  rw [collect, Collected.imports_foldl]

/-- Every import in the table of a unit comes from an import declaration whose module offers the
name. -/
theorem exists_of_mem_importsOf {tables : Tables} {u : SourceUnit} {name : String}
    {e : ImportEntry} (h : e ∈ (u.importTable tables).importsOf name) :
    u.Imports e.module name ∧
      ∃ i : Import, i.path = e.module ∧ i.site? tables name = some e.location := by
  obtain ⟨hmem, hname⟩ := List.mem_filter.mp h
  obtain rfl : e.name = name := by simpa using hname
  rcases ModuleTable.mem_addImports.mp hmem with hold | hnew
  · rw [imports_collect] at hold
    cases hold
  · obtain ⟨i, hi, he⟩ := List.mem_flatMap.mp hnew
    obtain ⟨id, hid, hentry⟩ := List.mem_filterMap.mp he
    obtain ⟨location, hsite, rfl⟩ := Option.map_eq_some_iff.mp hentry
    exact ⟨⟨i, hi, rfl, id, hid, rfl⟩, i, rfl, hsite⟩

end SourceUnit

/-! ## the tables of a program -/

/-- Looking up a path in a table of units is looking for a unit with this path. -/
theorem lookup_map_path {α : Type} (f : SourceUnit → α) (us : List SourceUnit) (path : String) :
    (us.map fun u => (u.path, f u)).lookup path = (us.find? (·.path == path)).map f := by
  induction us with
  | nil => rfl
  | cons u us ih =>
      rw [List.map_cons, List.lookup_cons, List.find?_cons, ih, BEq.comm]
      cases u.path == path <;> rfl

/-- The table for a path is that of the unit at the path. -/
theorem Program.lookup_tables (p : Program) (path : String) :
    p.tables.lookup path = (p.unit? path).map (·.collect.table) :=
  lookup_map_path (·.collect.table) p.units path

/-- An offered name is exported and declared by the unit at the path. -/
theorem Import.exists_of_site? {p : Program} {i : Import} {name : String} {location : Location}
    (h : i.site? p.tables name = some location) :
    ∃ v, p.unit? i.path = some v ∧ v.Exports name ∧ v.firstLocation? name = some location := by
  rw [Import.site?, Program.lookup_tables] at h
  obtain ⟨table, htable, hexported⟩ := Option.bind_eq_some_iff.mp h
  obtain ⟨v, hv, rfl⟩ := Option.map_eq_some_iff.mp htable
  exact ⟨v, hv, SourceUnit.exported?_collect hexported⟩

/-! ## top-level names and skeletons -/

namespace SourceUnit

/-- Bindings play no part in where a name is declared first. -/
theorem firstLocation?_of_skeleton {u v : SourceUnit} (h : u.skeleton = v.skeleton)
    (name : String) : u.firstLocation? name = v.firstLocation? name := by
  rw [← declaration?_collect, ← declaration?_collect, ← collect_skeleton, h, collect_skeleton]

/-- Bindings play no part in what a unit exports. -/
theorem exports_of_skeleton {u v : SourceUnit} (h : u.skeleton = v.skeleton) {name : String} :
    u.Exports name ↔ v.Exports name := by
  rw [← mem_exports_collect, ← mem_exports_collect, ← collect_skeleton, h, collect_skeleton]

end SourceUnit

/-- An import declaration without its bindings. -/
def Import.unbound (i : Import) : Import := { i with names := i.names.map (·.unbound) }

/-- A skeleton imports the same names, without their bindings. -/
theorem Node.import?_skeleton (n : Node) : n.skeleton.import? = n.import?.map (·.unbound) := by
  cases n <;> rfl

namespace SourceUnit

theorem importDecls_skeleton (u : SourceUnit) :
    u.skeleton.importDecls = u.importDecls.map (·.unbound) := by
  rw [importDecls, importDecls, topLevel_skeleton, List.filterMap_map, List.map_filterMap]
  congr 1
  funext n
  exact Node.import?_skeleton n

theorem imports_skeleton {u : SourceUnit} {path name : String} :
    u.skeleton.Imports path name ↔ u.Imports path name := by
  simp only [Imports, importDecls_skeleton, List.mem_map]
  constructor
  · rintro ⟨_, ⟨i, hi, rfl⟩, hpath, id, hid, hname⟩
    obtain ⟨other, hother, rfl⟩ := List.mem_map.mp hid
    exact ⟨i, hi, hpath, other, hother, hname⟩
  · rintro ⟨i, hi, hpath, id, hid, hname⟩
    exact ⟨i.unbound, ⟨i, hi, rfl⟩, hpath, id.unbound, List.mem_map.mpr ⟨id, hid, rfl⟩, hname⟩

/-- Units with one skeleton import the same names from the same modules. -/
theorem imports_of_skeleton {u v : SourceUnit} (h : u.skeleton = v.skeleton)
    {path name : String} : u.Imports path name ↔ v.Imports path name := by
  rw [← imports_skeleton, h, imports_skeleton]

end SourceUnit

end NameResolution
