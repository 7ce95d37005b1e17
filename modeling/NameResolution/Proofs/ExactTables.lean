import NameResolution.Proofs.Capture
import NameResolution.Proofs.Sweep

/-!
# What a survey finds, exactly

After the survey of a program, the table of a unit and the failures that wait for the unit can be
read off the top-level nodes of the units. A name stands for its first declaration, and each later
one is a failure. A name is imported from the modules that the unit asks for it and that offer it,
each of them once and in the order in which they are first asked. Each time the unit asks a module
for a name that the module does not offer is a failure.

The layers are

* repeated declarations (`Collected.duplicates_filter`);
* imports without repetitions (`ModuleTable.imports_addImports`,
  `Program.importsOf_importTable`);
* the failures under a path (`Program.failuresOf_surveyed`).

Main statement: `Program.survey_exact`.
-/

namespace NameResolution

/-! ## repeated declarations -/

/-- A name is declared before in the same scope. -/
def Cause.repeats (name : String) : Cause → Bool
  | duplicateDeclaration other _ => other == name
  | _ => false

/-- A module of the program is asked for a name that it does not export. -/
def Cause.isNotExported : Cause → Bool
  | notExported .. => true
  | _ => false

/-- The failures for declarations of a name that is declared at `previous` already. -/
def repeatsAfter (name : String) (previous : Location) (ids : List Identifier) : List Failure :=
  ids.map fun id => ⟨.duplicateDeclaration name previous, id.info.location⟩

/-- The failures for declarations of a name: the first one counts, and the others repeat it. -/
def repeatsAmong (name : String) : List Identifier → List Failure
  | [] => []
  | first :: later => repeatsAfter name first.info.location later

namespace Collected

/-- The failures that are left to come, by whether the name is declared already. -/
def repeatsFrom (c : Collected) (name : String) (ids : List Identifier) : List Failure :=
  match c.table.declaration? name with
  | some previous => repeatsAfter name previous ids
  | none => repeatsAmong name ids

/-- If a name is declared already, the declarations to come all repeat that one. -/
theorem repeatsFrom_of_some {c : Collected} {name : String} {previous : Location}
    (h : c.table.declaration? name = some previous) (ids : List Identifier) :
    c.repeatsFrom name ids = repeatsAfter name previous ids := by
  rw [repeatsFrom, h]

/-- If a name is not declared yet, its first declaration repeats nothing. -/
theorem repeatsFrom_of_none {c : Collected} {name : String}
    (h : c.table.declaration? name = none) (ids : List Identifier) :
    c.repeatsFrom name ids = repeatsAmong name ids := by
  rw [repeatsFrom, h]

/-- **One declaration**: a failure is added if and only if the name is declared already. -/
theorem duplicates_declare_eq (c : Collected) (id : Identifier) :
    (c.declare id).duplicates = c.duplicates ++
      match c.table.declaration? id.name with
      | some previous => [⟨.duplicateDeclaration id.name previous, id.info.location⟩]
      | none => [] := by
  unfold declare ModuleTable.declare
  cases c.table.declaration? id.name with
  | some previous => rfl
  | none => exact (List.append_nil _).symm

/-- **Repeated declarations**: of all declarations of a name, each one after the first is a failure,
which refers to the first. -/
theorem duplicates_filter (c : Collected) (ids : List Identifier) (name : String) :
    (ids.foldl declare c).duplicates.filter (·.cause.repeats name) =
      c.duplicates.filter (·.cause.repeats name) ++
        c.repeatsFrom name (ids.filter (·.name == name)) := by
  induction ids generalizing c with
  | nil =>
      cases h : c.table.declaration? name with
      | some previous => simp [repeatsFrom_of_some h, repeatsAfter]
      | none => simp [repeatsFrom_of_none h, repeatsAmong]
  | cons id ids ih =>
      have hafter := declaration?_declare c id name
      rw [List.foldl_cons, ih, duplicates_declare_eq, List.filter_append]
      by_cases hname : id.name = name
      · subst hname
        cases h : c.table.declaration? id.name with
        | some previous =>
            rw [h, Option.some_or] at hafter
            simp [repeatsFrom_of_some h, repeatsFrom_of_some hafter, repeatsAfter, Cause.repeats]
        | none =>
            rw [h, Option.none_or, beq_self_eq_true, if_pos rfl] at hafter
            simp [repeatsFrom_of_none h, repeatsFrom_of_some hafter, repeatsAmong]
      · have hsame : (c.declare id).repeatsFrom name = c.repeatsFrom name := by
          funext ids
          simp [repeatsFrom, hafter, hname]
        have hother : (match c.table.declaration? id.name with
            | some previous => [⟨.duplicateDeclaration id.name previous, id.info.location⟩]
            | none => [] : List Failure).filter (·.cause.repeats name) = [] := by
          cases c.table.declaration? id.name with
          | some previous => simp [Cause.repeats, hname]
          | none => rfl
        rw [hsame, hother, List.append_nil, List.filter_cons_of_neg (by simpa using hname)]

end Collected

/-! ## without repetitions -/

section EraseDups

variable {α β : Type} [BEq α] [LawfulBEq α] [BEq β] [LawfulBEq β]

/-- Dropping what `f` maps to `b` is dropping `b` afterwards, if `f` maps nothing else to it. -/
theorem filter_filterMap_ne {f : α → Option β} {a : α} {b : β}
    (hf : ∀ x, f x = some b ↔ x = a) (as : List α) :
    (as.filterMap f).filter (!· == b) = (as.filter (!· == a)).filterMap f := by
  rw [List.filter_filterMap, List.filterMap_filter]
  refine List.filterMap_congr fun x _ => ?_
  by_cases hx : x = a
  · simp [hx, (hf a).mpr rfl]
  · have hne : f x ≠ some b := fun h => hx ((hf x).mp h)
    cases h : f x with
    | none => simp
    | some y =>
        have hy : y ≠ b := fun hyb => hne (by rw [h, hyb])
        simp [hx, hy]

/-- Repetitions may be dropped before or after a map that keeps different things apart. -/
theorem eraseDups_filterMap {f : α → Option β}
    (hf : ∀ a b c, f a = some c → f b = some c → a = b) (as : List α) :
    (as.filterMap f).eraseDups = as.eraseDups.filterMap f := by
  cases as with
  | nil => rfl
  | cons a as =>
      have ih := eraseDups_filterMap hf (as.filter (!· == a))
      rw [List.eraseDups_cons, List.filterMap_cons, List.filterMap_cons]
      cases h : f a with
      | none =>
          have hdrop : (as.filter (!· == a)).filterMap f = as.filterMap f := by
            rw [List.filterMap_filter]
            refine List.filterMap_congr fun x _ => ?_
            by_cases hx : x = a
            · simp [hx, h]
            · simp [hx]
          rw [← ih, hdrop]
      | some b =>
          have hb : ∀ x, f x = some b ↔ x = a :=
            fun x => ⟨fun hx => hf x a b hx h, fun hx => by rw [hx, h]⟩
          simp only [List.eraseDups_cons, filter_filterMap_ne hb, ih]
termination_by as.length
decreasing_by exact Nat.lt_succ_of_le (List.length_filter_le _ as)

/-- Keeping first occurrences commutes with a filter. -/
theorem eraseDups_filter (p : α → Bool) (as : List α) :
    (as.filter p).eraseDups = as.eraseDups.filter p := by
  have h := eraseDups_filterMap (f := Option.guard p) (fun a b c ha hb => by grind) as
  rwa [List.filterMap_eq_filter] at h

end EraseDups

/-! ## imports -/

theorem ModuleTable.exports_addImports (t : ModuleTable) (entries : List ImportEntry) :
    (t.addImports entries).exports = t.exports := by
  induction entries generalizing t with
  | nil => rfl
  | cons entry entries ih =>
      have hadd : (t.addImport entry).exports = t.exports := by
        unfold addImport
        split <;> rfl
      exact (ih (t.addImport entry)).trans hadd

/-- **Imports without repetitions**: a table keeps the imports that are new to it, in the order in
which they come first. -/
theorem ModuleTable.imports_addImports (t : ModuleTable) (entries : List ImportEntry) :
    (t.addImports entries).imports =
      t.imports ++ (entries.filter fun e => !t.imports.contains e).eraseDups := by
  induction entries generalizing t with
  | nil => simp [addImports]
  | cons entry entries ih =>
      have hcons : t.addImports (entry :: entries) = (t.addImport entry).addImports entries := rfl
      rw [hcons, ih]
      by_cases hmem : entry ∈ t.imports
      · simp [addImport, hmem]
      · have himports : (t.addImport entry).imports = t.imports ++ [entry] := by
          simp [addImport, hmem]
        have hkeep : (entries.filter fun e => !(t.imports ++ [entry]).contains e) =
            (entries.filter fun e => !t.imports.contains e).filter (!· == entry) := by
          rw [List.filter_filter]
          refine List.filter_congr fun e _ => ?_
          by_cases h : e = entry <;> simp [h]
        rw [himports, hkeep, List.filter_cons_of_pos (by simpa using hmem), List.eraseDups_cons,
          List.append_assoc]
        rfl

namespace SourceUnit

/-- The modules that a unit asks for a name, once for each time that the name is listed. -/
def askedFor (u : SourceUnit) (name : String) : List String :=
  u.importDecls.flatMap fun i => (i.names.filter (·.name == name)).map fun _ => i.path

instance (u : SourceUnit) (name : String) : Decidable (u.Exports name) :=
  inferInstanceAs (Decidable (∃ n ∈ u.topLevel, ∃ id ∈ n.exportedNames, id.name = name))

end SourceUnit

namespace Program

/-- Where the unit at a path declares a name that it exports. -/
def siteOf? (P : Program) (path name : String) : Option Location :=
  (P.unit? path).bind fun v => if v.Exports name then v.firstLocation? name else none

/-- The import of a name from the module at a path, if the module offers the name. -/
def importFrom? (P : Program) (name path : String) : Option ImportEntry :=
  (P.siteOf? path name).map fun location => ⟨name, path, location⟩

/-- The failures for names that a module of the program is asked for and does not offer. -/
def refusals (P : Program) (u : SourceUnit) : List Failure :=
  u.importDecls.flatMap fun i =>
    if P.contains i.path then
      (i.names.filter fun id => (P.siteOf? i.path id.name).isNone).map fun id =>
        ⟨.notExported id.name i.path, id.info.location⟩
    else []

variable {P : Program} {u : SourceUnit}

/-- The site of a name in a module is where the module offers it. -/
theorem siteOf?_eq_some_iff {path name : String} {location : Location} :
    P.siteOf? path name = some location ↔ P.Offers path name location := by
  rw [siteOf?, Option.bind_eq_some_iff]
  constructor
  · rintro ⟨v, hv, hsite⟩
    split at hsite
    · next hexports => exact ⟨v, hv, hexports, hsite⟩
    · cases hsite
  · rintro ⟨v, hv, hexports, hlocation⟩
    exact ⟨v, hv, by rw [if_pos hexports, hlocation]⟩

/-- An import reads in the tables what the unit at its path offers. -/
theorem site?_tables (i : Import) (name : String) :
    i.site? P.tables name = P.siteOf? i.path name := by
  refine Option.ext fun location => ?_
  rw [Import.site?_eq_some_iff, siteOf?_eq_some_iff]

/-- The failures of the import declarations of a unit are its refusals. -/
theorem flatMap_failures (P : Program) (u : SourceUnit) :
    u.importDecls.flatMap (·.failures P.tables) = P.refusals u := by
  refine List.flatMap_congr fun i _ => ?_
  rw [Import.failures, Import.missing, isKnown_tables]
  simp only [site?_tables]
  split <;> rfl

/-- Of the imports of a unit, those of one name. -/
theorem filter_entries (P : Program) (u : SourceUnit) (name : String) :
    (u.importDecls.flatMap (·.entries P.tables)).filter (·.name == name) =
      (u.askedFor name).filterMap (P.importFrom? name) := by
  rw [SourceUnit.askedFor, List.filter_flatMap, List.filterMap_flatMap]
  refine List.flatMap_congr fun i _ => ?_
  rw [Import.entries, List.filter_filterMap, List.filterMap_map, List.filterMap_filter]
  refine List.filterMap_congr fun id _ => ?_
  rw [site?_tables]
  by_cases hname : id.name = name
  · subst hname
    cases h : P.siteOf? i.path id.name with
    | none => simp [importFrom?, h]
    | some location => simp [importFrom?, h]
  · cases P.siteOf? i.path id.name with
    | none => simp [hname]
    | some location => simp [hname]

/-- **The imports of a name**: one for each module that the unit asks for it and that offers it, in
the order in which the modules are first asked. -/
theorem importsOf_importTable (P : Program) (u : SourceUnit) (name : String) :
    (u.importTable P.tables).importsOf name =
      (u.askedFor name).eraseDups.filterMap (P.importFrom? name) := by
  have hapart : ∀ path other e, P.importFrom? name path = some e →
      P.importFrom? name other = some e → path = other := by
    intro path other e h h'
    obtain ⟨_, -, rfl⟩ := Option.map_eq_some_iff.mp h
    obtain ⟨_, -, heq⟩ := Option.map_eq_some_iff.mp h'
    exact (congrArg ImportEntry.module heq).symm
  rw [← eraseDups_filterMap hapart, ← filter_entries, eraseDups_filter, ModuleTable.importsOf,
    SourceUnit.importTable, ModuleTable.imports_addImports, SourceUnit.imports_collect]
  simp

end Program

/-! ## failures -/

namespace SourceUnit

/-- The declarations of a name directly among the nodes of a unit. -/
def declarationsOf (u : SourceUnit) (name : String) : List Identifier :=
  (u.nodes.filterMap Node.declaredName?).filter (·.name == name)

/-- The duplicates collected for a name are the repetitions among its declarations. -/
theorem duplicates_collect (u : SourceUnit) (name : String) :
    u.collect.duplicates.filter (·.cause.repeats name) =
      repeatsAmong name (u.declarationsOf name) := by
  rw [collect, Collected.duplicates_filter]
  rfl

/-- No duplicate is about a name that is not exported. -/
theorem isNotExported_collect (u : SourceUnit) :
    u.collect.duplicates.filter (·.cause.isNotExported) = [] := by
  have hfoldl : ∀ (ids : List Identifier) (c : Collected),
      (ids.foldl Collected.declare c).duplicates.filter (·.cause.isNotExported) =
        c.duplicates.filter (·.cause.isNotExported) := by
    intro ids
    induction ids with
    | nil => exact fun c => rfl
    | cons id ids ih =>
        intro c
        rw [List.foldl_cons, ih, Collected.duplicates_declare_eq, List.filter_append]
        cases c.table.declaration? id.name with
        | some previous => simp [Cause.isNotExported]
        | none => simp
  exact hfoldl _ _

end SourceUnit

namespace Program

variable {P : Program} {u : SourceUnit}

/-- No refusal is about a repeated declaration. -/
theorem repeats_refusals (P : Program) (u : SourceUnit) (name : String) :
    (P.refusals u).filter (·.cause.repeats name) = [] := by
  refine List.filter_eq_nil_iff.mpr fun f hf => ?_
  obtain ⟨i, -, hi⟩ := List.mem_flatMap.mp hf
  split at hi
  · obtain ⟨id, -, rfl⟩ := List.mem_map.mp hi
    exact Bool.false_ne_true
  · cases hi

/-- Every refusal is about a name that is not exported. -/
theorem isNotExported_refusals (P : Program) (u : SourceUnit) :
    (P.refusals u).filter (·.cause.isNotExported) = P.refusals u := by
  refine List.filter_eq_self.mpr fun f hf => ?_
  obtain ⟨i, -, hi⟩ := List.mem_flatMap.mp hf
  split at hi
  · obtain ⟨id, -, rfl⟩ := List.mem_map.mp hi
    rfl
  · cases hi

/-- **The failures under a path**: after the survey, the repeated declarations of the unit wait
there, and the names that it asks for in vain. -/
theorem failuresOf_surveyed (hpaths : P.paths.Nodup) (hu : u ∈ P.units)
    (hopen : u.isResolved = false) :
    P.surveyed.found.failuresOf u.path = u.collect.duplicates ++ P.refusals u := by
  have hmem : u ∈ P.openUnits := List.mem_filter.mpr ⟨hu, by simp [hopen]⟩
  have hduplicates := failuresOf_gather hpaths hmem
    (f := SourceUnit.duplicateFindings) (g := fun v => v.collect.duplicates) fun v => rfl
  have himports := failuresOf_gather hpaths hmem (f := SourceUnit.importFindings P.tables)
    (SourceUnit.pending_importFindings P.tables)
  have htell : ∀ events, Findings.failuresOf { events } u.path = [] := fun _ => rfl
  simp only [found_surveyed, Findings.failuresOf_append, hduplicates, himports, htell,
    List.nil_append, List.append_nil, flatMap_failures]

/-- A survey finds no failure in a unit that is resolved. -/
theorem failuresOf_surveyed_of_isResolved (hpaths : P.paths.Nodup) (hu : u ∈ P.units)
    (h : u.isResolved = true) : P.surveyed.found.failuresOf u.path = [] := by
  have hnot : u.path ∉ P.openUnits.map (·.path) := by
    intro hmem
    obtain ⟨v, hv, hpath⟩ := List.mem_map.mp hmem
    obtain ⟨hv, hopen⟩ := List.mem_filter.mp hv
    obtain rfl : v = u := List.inj_on_of_nodup_map hpaths hv hu hpath
    simp [h] at hopen
  have hgather : ∀ {f : SourceUnit → Findings} {g : SourceUnit → List Failure},
      (∀ v, (f v).pending = (g v).map (v.path, ·)) →
        (Findings.gather f P.openUnits).failuresOf u.path = [] := by
    intro f g hf
    rw [Findings.failuresOf, Findings.pending_gather]
    simp only [hf, filter_flatMap_of_not_mem hnot, List.map_nil]
  have hduplicates : (Findings.gather SourceUnit.duplicateFindings P.openUnits).failuresOf u.path =
      [] := hgather (g := fun v => v.collect.duplicates) fun v => rfl
  have himports := hgather (SourceUnit.pending_importFindings P.tables)
  have htell : ∀ events, Findings.failuresOf { events } u.path = [] := fun _ => rfl
  simp only [found_surveyed, Findings.failuresOf_append, hduplicates, himports, htell,
    List.append_nil]

/-! ## the survey -/

/-- Imports of one name come from different modules. -/
theorem nodup_modules (P : Program) (u : SourceUnit) (name : String) :
    (((u.importTable P.tables).importsOf name).map (·.module)).Nodup :=
  (SourceUnit.nodup_importsOf P.tables u name).map_on fun _ he _ he' => importEntry_unique he he'

/-- A name has several imports if and only if several modules provide it. -/
theorem one_lt_length_importsOf (P : Program) (u : SourceUnit) (name : String) :
    1 < ((u.importTable P.tables).importsOf name).length ↔
      ∃ path other, path ≠ other ∧ P.Provides u path name ∧ P.Provides u other name := by
  have hmodules := nodup_modules P u name
  simp only [provides_iff]
  generalize (u.importTable P.tables).importsOf name = entries at hmodules
  rcases entries with _ | ⟨e, _ | ⟨e', rest⟩⟩
  · simp
  · simp only [List.length_singleton, Nat.lt_irrefl, List.mem_singleton, false_iff]
    rintro ⟨path, other, hne, ⟨_, rfl, rfl⟩, _, rfl, rfl⟩
    exact hne rfl
  · simp only [List.map_cons, List.nodup_cons, List.mem_cons, not_or] at hmodules
    constructor
    · exact fun _ => ⟨e.module, e'.module, hmodules.1.1, ⟨e, by simp, rfl⟩, e', by simp, rfl⟩
    · exact fun _ => by simp

/-- **Exactness**: after the survey of a program without shared paths, the table of a unit has for
each name the location of its first declaration among the nodes of the unit, and it has the names
that the unit exports. If the unit is not resolved, a failure waits for each declaration after the
first, which names the location of the first. The imports of a name are those from the modules that
the unit asks for it and that export and declare it, each of them once, in the order in which they
are first asked, with the location of the declaration there. So there are several of them if and
only if several modules provide the name. And each time a module of the program is asked for a name
that it does not export and declare, a failure waits for that. Nothing waits for a resolved unit. -/
theorem survey_exact (hpaths : P.paths.Nodup) (hu : u ∈ P.units) :
    let failures := (P.survey.run {}).2.found.failuresOf u.path
    ∃ t, (P.survey.run {}).2.tables.lookup u.path = some t ∧
      (∀ name, t.declaration? name = u.firstLocation? name ∧
        (name ∈ t.exports ↔ u.Exports name)) ∧
      (u.isResolved = true → failures = []) ∧
      (u.isResolved = false →
        (∀ name,
          failures.filter (·.cause.repeats name) = repeatsAmong name (u.declarationsOf name) ∧
          t.importsOf name = (u.askedFor name).eraseDups.filterMap (P.importFrom? name) ∧
          ((t.importsOf name).map (·.module)).Nodup ∧
          (1 < (t.importsOf name).length ↔
            ∃ path other, path ≠ other ∧ P.Provides u path name ∧ P.Provides u other name)) ∧
        failures.filter (·.cause.isNotExported) = P.refusals u) := by
  rw [run_survey hpaths]
  refine ⟨_, lookup_surveyed hpaths hu, ?_⟩
  cases hopen : u.isResolved with
  | true =>
      refine ⟨fun name => ⟨u.declaration?_collect name, SourceUnit.mem_exports_collect⟩, ?_, ?_⟩
      · exact fun _ => failuresOf_surveyed_of_isResolved hpaths hu hopen
      · exact fun h => absurd h.symm Bool.false_ne_true
  | false =>
      rw [if_neg Bool.false_ne_true, failuresOf_surveyed hpaths hu hopen]
      refine ⟨fun name => ⟨u.declaration?_importTable P.tables name, ?_⟩,
        fun h => absurd h Bool.false_ne_true, fun _ => ⟨fun name => ⟨?_, ?_, ?_, ?_⟩, ?_⟩⟩
      · rw [SourceUnit.importTable, ModuleTable.exports_addImports,
          SourceUnit.mem_exports_collect]
      · rw [List.filter_append, u.duplicates_collect, repeats_refusals, List.append_nil]
      · exact importsOf_importTable P u name
      · exact nodup_modules P u name
      · exact one_lt_length_importsOf P u name
      · rw [List.filter_append, u.isNotExported_collect, isNotExported_refusals, List.nil_append]

end Program

/-- `import { x, y, x } from "b.ql"; var z; var z; var z;` -/
def repeating : SourceUnit where
  source := { id := 0, name := "a.ql", kind := .module, lineStarts := [0] }
  imports :=
    [.importDecl { location := ⟨1, 1, 0, 31⟩ } "b.ql"
      [.plain "x" 9, .plain "y" 12, .plain "x" 15] none]
  nodes :=
    [.varDecl { location := ⟨1, 33, 32, 6⟩ } (.plain "z" 36) none false,
      .varDecl { location := ⟨1, 40, 39, 6⟩ } (.plain "z" 43) none false,
      .varDecl { location := ⟨1, 47, 46, 6⟩ } (.plain "z" 50) none false]

/-- The program of `repeating` and the module that it imports from, which offers `x` but not `y`. -/
def repeatingProgram : Program where
  entry := "a.ql"
  entryKind := .module
  sources := [repeating, exporting]

/-- The name `x` is imported once, `y` is refused, and two of the declarations of `z` repeat the
first one. -/
theorem survey_exact_repeating :
    ∃ t, (repeatingProgram.survey.run {}).2.tables.lookup "a.ql" = some t ∧
      t.declaration? "z" = some ⟨1, 37, 36, 1⟩ ∧
      t.importsOf "x" = [⟨"x", "b.ql", ⟨1, 5, 4, 1⟩⟩] ∧
      ((repeatingProgram.survey.run {}).2.found.failuresOf "a.ql").filter (·.cause.repeats "z") =
        [⟨.duplicateDeclaration "z" ⟨1, 37, 36, 1⟩, ⟨1, 44, 43, 1⟩⟩,
          ⟨.duplicateDeclaration "z" ⟨1, 37, 36, 1⟩, ⟨1, 51, 50, 1⟩⟩] ∧
      ((repeatingProgram.survey.run {}).2.found.failuresOf "a.ql").filter
          (·.cause.isNotExported) =
        [⟨.notExported "y" "b.ql", ⟨1, 13, 12, 1⟩⟩] := by
  obtain ⟨t, ht, hnames, -, hopen⟩ := Program.survey_exact (P := repeatingProgram)
    (u := repeating) (by decide) (by simp [Program.units, repeatingProgram])
  obtain ⟨hname, hrefused⟩ := hopen rfl
  refine ⟨t, ht, (hnames "z").1.trans (by decide), (hname "x").2.1.trans (by decide),
    (hname "z").1.trans (by decide), hrefused.trans (by decide)⟩

end NameResolution
