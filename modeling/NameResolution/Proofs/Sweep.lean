import NameResolution.Proofs.Locality
import NameResolution.Proofs.Reporting
import NameResolution.Resolver.Sweep

/-!
# Shared tables and the tables of units

A pass over shared tables reads them while it changes them. The changes do not show: what is added
to a table after collecting are imports, and what other units can see of it are declarations and
exports. So the shared tables always offer what the tables made from the units offer
(`Tables.OffersSame`), and every step does what it would do with those.

The layers are

* one import declaration (`Node.run_surveyImport`), the imports of a unit
  (`SourceUnit.run_surveyImports`), and those of all units (`Program.run_survey`);
* the tables in the end (`Program.lookup_surveyed`), and the walks that read them
  (`Program.sharedWalk_surveyed`).

Main statement: `Program.sweep_eq_pass`.
-/

namespace NameResolution

/-- A stateful action on a list, run on its head and then on the others. -/
theorem run_mapM_cons {σ α β : Type} (f : α → StateM σ β) (a : α) (as : List α) (s : σ) :
    ((a :: as).mapM f).run s =
      (((f a).run s).1 :: ((as.mapM f).run ((f a).run s).2).1,
        ((as.mapM f).run ((f a).run s).2).2) := by
  rw [List.mapM_cons]
  rfl

/-- **A traversal with a state**: if each step is known as long as an invariant holds, so is the
whole traversal. -/
theorem run_mapM_of_step {σ α β : Type} {f : α → StateM σ β} {g : α → β} {next : σ → α → σ}
    {Inv : σ → Prop} {as : List α}
    (hstep : ∀ a ∈ as, ∀ s, Inv s → (f a).run s = (g a, next s a) ∧ Inv (next s a)) :
    ∀ s, Inv s → (as.mapM f).run s = (as.map g, as.foldl next s) ∧ Inv (as.foldl next s) := by
  induction as with
  | nil => exact fun s hs => ⟨rfl, hs⟩
  | cons a as ih =>
      intro s hs
      obtain ⟨hrun, hnext⟩ := hstep a List.mem_cons_self s hs
      obtain ⟨hrest, hlast⟩ := ih (fun b hb => hstep b (List.mem_cons_of_mem a hb)) _ hnext
      refine ⟨?_, hlast⟩
      rw [run_mapM_cons, hrun, hrest]
      rfl

/-! ## findings -/

namespace Findings

variable {α : Type}

theorem append_assoc (a b c : Findings) : a ++ b ++ c = a ++ (b ++ c) := by
  simp only [HAppend.hAppend, Append.append]
  simp [Nat.add_assoc]

@[simp] theorem empty_append (a : Findings) : {} ++ a = a := by
  simp only [HAppend.hAppend, Append.append]
  simp

@[simp] theorem append_empty (a : Findings) : a ++ {} = a := by
  simp only [HAppend.hAppend, Append.append]
  simp

/-- What is found step by step is what is found in all members. -/
theorem found_foldl {next : Survey → α → Survey} {f : α → Findings}
    (h : ∀ s a, (next s a).found = s.found ++ f a) (as : List α) (s : Survey) :
    (as.foldl next s).found = s.found ++ gather f as := by
  induction as generalizing s with
  | nil => simp [gather]
  | cons a as ih => rw [List.foldl_cons, ih, h, append_assoc, gather]

/-- Finding nothing in resolved units is gathering from the open ones. -/
theorem gather_open (f : SourceUnit → Findings) (us : List SourceUnit) :
    gather (fun u => if u.isResolved then {} else f u) us =
      gather f (us.filter (!·.isResolved)) := by
  induction us with
  | nil => rfl
  | cons u us ih =>
      cases h : u.isResolved with
      | true => simp [gather, h, ih]
      | false => simp [gather, h, ih]

theorem gather_map {β : Type} (f : β → Findings) (g : α → β) (as : List α) :
    gather f (as.map g) = gather (fun a => f (g a)) as := by
  induction as with
  | nil => rfl
  | cons a as ih => rw [List.map_cons, gather, ih, gather]

/-- What is gathered depends on the findings for the items only. -/
theorem gather_congr {f g : α → Findings} {as : List α} (h : ∀ a ∈ as, f a = g a) :
    gather f as = gather g as := by
  induction as with
  | nil => rfl
  | cons a as ih =>
      rw [gather, gather, h a List.mem_cons_self, ih fun b hb => h b (List.mem_cons_of_mem a hb)]

end Findings

/-! ## shared tables -/

/-- An import does not change what a module exports. -/
theorem ModuleTable.exported?_addImport (t : ModuleTable) (entry : ImportEntry) (name : String) :
    (t.addImport entry).exported? name = t.exported? name := by
  unfold addImport
  split <;> rfl

namespace Tables

/-- A table that is put at a path is found there. -/
theorem lookup_put (tables : Tables) (path : String) (t : ModuleTable) (other : String) :
    (tables.put path t).lookup other = if other = path then some t else tables.lookup other := by
  induction tables with
  | nil =>
      rw [put, List.lookup_cons]
      by_cases h : other = path
      · simp [h]
      · simp [beq_false_of_ne h, h]
  | cons entry tables ih =>
      rcases entry with ⟨p, old⟩
      by_cases hpath : p = path
      · subst hpath
        by_cases h : other = p
        · simp [put, h]
        · simp [put, List.lookup_cons, beq_false_of_ne h, h]
      · by_cases h : other = p
        · simp [put, h, hpath]
        · simp [put, List.lookup_cons, hpath, beq_false_of_ne h, ih]

/-- A table at a new path comes last. -/
theorem put_of_new {tables : Tables} {path : String} (h : path ∉ tables.map (·.1))
    (t : ModuleTable) : tables.put path t = tables ++ [(path, t)] := by
  induction tables with
  | nil => rfl
  | cons entry tables ih =>
      rw [List.map_cons, List.mem_cons, not_or] at h
      simp [put, Ne.symm h.1, ih h.2]

/-- A path that is not in the tables has the empty table. -/
theorem tableOf_of_new {tables : Tables} {path : String} (h : path ∉ tables.map (·.1)) :
    tables.tableOf path = {} := by
  have hnone : tables.lookup path = none := by
    rw [List.lookup_eq_none_iff]
    intro entry hentry
    exact bne_iff_ne.mpr fun hpath => h (List.mem_map.mpr ⟨entry, hentry, hpath.symm⟩)
  rw [tableOf, hnone]
  rfl

/-- An import is added to the table of the importer only. -/
theorem lookup_addImport {tables : Tables} {importer : String} {t : ModuleTable}
    (h : tables.lookup importer = some t) (entry : ImportEntry) (path : String) :
    (tables.addImport importer entry).lookup path =
      if path = importer then some (t.addImport entry) else tables.lookup path := by
  rw [addImport, lookup_put, tableOf, h]
  rfl

/-- The table of the importer gets all the imports; the other tables stay as they are. -/
theorem lookup_foldl_addImport {tables : Tables} {importer : String} {t : ModuleTable}
    (h : tables.lookup importer = some t) (entries : List ImportEntry) (path : String) :
    (entries.foldl (addImport importer) tables).lookup path =
      if path = importer then some (t.addImports entries) else tables.lookup path := by
  induction entries generalizing tables t with
  | nil =>
      by_cases hpath : path = importer
      · simp [hpath, h, ModuleTable.addImports]
      · simp [hpath]
  | cons entry entries ih =>
      have hself : (tables.addImport importer entry).lookup importer =
          some (t.addImport entry) := by
        rw [lookup_addImport h, if_pos rfl]
      rw [List.foldl_cons, ih hself]
      by_cases hpath : path = importer
      · simp [hpath, ModuleTable.addImports]
      · simp [hpath, lookup_addImport h]

/-- Two sets of tables have tables at the same paths, and these offer the same names. -/
structure OffersSame (tables tables' : Tables) : Prop where
  known : ∀ path, (tables.lookup path).isSome = (tables'.lookup path).isSome
  site : ∀ path name, (tables.lookup path).bind (·.exported? name) =
    (tables'.lookup path).bind (·.exported? name)

/-- An import finds the same in tables that offer the same. -/
theorem OffersSame.findsSame {tables tables' : Tables} (h : tables.OffersSame tables')
    (i : Import) : i.FindsSame tables tables' :=
  ⟨h.known i.path, fun id _ => h.site i.path id.name⟩

/-- Adding imports changes nothing that other units can see. -/
theorem OffersSame.addImport {tables tables' : Tables} (h : tables.OffersSame tables')
    {importer : String} (hknown : (tables'.lookup importer).isSome) (entry : ImportEntry) :
    (tables.addImport importer entry).OffersSame tables' := by
  obtain ⟨t, ht⟩ := Option.isSome_iff_exists.mp ((h.known importer).trans hknown)
  refine ⟨fun path => ?_, fun path name => ?_⟩
  · rw [← h.known, lookup_addImport ht]
    by_cases hpath : path = importer <;> simp [hpath, ht]
  · rw [← h.site, lookup_addImport ht]
    by_cases hpath : path = importer <;> simp [hpath, ht, ModuleTable.exported?_addImport]

/-- Adding imports to a known table does not change what the tables offer. -/
theorem OffersSame.foldl_addImport {tables tables' : Tables} (h : tables.OffersSame tables')
    {importer : String} (hknown : (tables'.lookup importer).isSome) (entries : List ImportEntry) :
    (entries.foldl (Tables.addImport importer) tables).OffersSame tables' := by
  induction entries generalizing tables with
  | nil => exact h
  | cons entry entries ih => exact ih (h.addImport hknown entry)

end Tables

/-! ## collecting -/

namespace SourceUnit

variable {u : SourceUnit}

/-- **Collecting, one unit**: a unit with a new path gets a table of its own. -/
theorem run_surveyNames {s : Survey} (hnew : u.path ∉ s.tables.map (·.1)) :
    u.surveyNames.run s =
      ((), { tables := s.tables ++ [(u.path, u.collect.table)]
             found := s.found ++ if u.isResolved then {} else u.duplicateFindings }) := by
  have hcollect : u.collectInto (s.tables.tableOf u.path) = u.collect := by
    rw [Tables.tableOf_of_new hnew]
    rfl
  have hput := Tables.put_of_new hnew u.collect.table
  rw [← hput, ← hcollect]
  cases h : u.isResolved with
  | true =>
      rw [if_pos rfl, Findings.append_empty, surveyNames, h]
      rfl
  | false =>
      rw [if_neg Bool.false_ne_true, duplicateFindings, ← hcollect, surveyNames, h]
      rfl

/-- **Collecting, all units**: the shared tables are those made from the units. -/
theorem run_forM_surveyNames {us : List SourceUnit} {s : Survey}
    (hpaths : (s.tables.map (·.1) ++ us.map (·.path)).Nodup) :
    (us.forM (·.surveyNames)).run s =
      ((), { tables := s.tables ++ us.map fun u => (u.path, u.collect.table)
             found := s.found ++ .gather (·.duplicateFindings) (us.filter (!·.isResolved)) }) := by
  induction us generalizing s with
  | nil =>
      have hfound : s.found ++ .gather SourceUnit.duplicateFindings [] = s.found :=
        Findings.append_empty s.found
      rw [List.filter_nil, hfound, List.map_nil, List.append_nil]
      rfl
  | cons u us ih =>
      obtain ⟨-, -, hapart⟩ := List.nodup_append.mp hpaths
      have hnew : u.path ∉ s.tables.map (·.1) := fun hmem => hapart _ hmem _ (by simp) rfl
      have hrest : ((s.tables ++ [(u.path, u.collect.table)]).map (·.1) ++
          us.map (·.path)).Nodup := by
        simpa using hpaths
      have hrun : ((u :: us).forM (·.surveyNames)).run s =
          (us.forM (·.surveyNames)).run (u.surveyNames.run s).2 := rfl
      rw [hrun, run_surveyNames hnew, ih hrest, ← Findings.gather_open, ← Findings.gather_open,
        Findings.gather, Findings.append_assoc]
      simp

end SourceUnit

/-! ## binding imports -/

/-- An import that finds the same in two tables has the same findings. -/
theorem Import.FindsSame.findings {tables tables' : Tables} {i : Import}
    (h : i.FindsSame tables tables') (importer : String) :
    i.findings tables importer = i.findings tables' importer := by
  rw [Import.findings, Import.findings, h.bound, h.unresolved, h.failures, h.known,
    h.programFailures, h.events]

namespace Survey

/-- The state after an import is bound to what the tables `T` offer. -/
def withImport (T : Tables) (importer : String) (s : Survey) (i : Import) : Survey where
  tables := (i.entries T).foldl (Tables.addImport importer) s.tables
  found := s.found ++ i.findings T importer

/-- The state after a node is read, which may be an import declaration. -/
def withNode (T : Tables) (importer : String) (s : Survey) (n : Node) : Survey :=
  match n.import? with
  | some i => s.withImport T importer i
  | none => s

/-- The state after the imports of a unit are bound. -/
def withImports (T : Tables) (s : Survey) (u : SourceUnit) : Survey :=
  if u.isResolved then s else u.importDecls.foldl (withImport T u.path) s

/-- Only the imports among the top-level nodes play a part. -/
theorem foldl_withNode (T : Tables) (importer : String) (ns : List Node) (s : Survey) :
    ns.foldl (withNode T importer) s =
      (ns.filterMap Node.import?).foldl (withImport T importer) s := by
  induction ns generalizing s with
  | nil => rfl
  | cons n ns ih =>
      rw [List.foldl_cons, ih, withNode]
      cases h : n.import? <;> simp [h]

end Survey

variable {T : Tables} {s : Survey}

/-- **Binding imports, one node**: an import reads in the shared tables what it would read in
`T`. -/
theorem Node.run_surveyImport (h : s.tables.OffersSame T) (importer : String) (n : Node) :
    (n.surveyImport importer).run s = (n.bindImport T, s.withNode T importer n) := by
  cases n with
  | importDecl info path names asName =>
      have hfinds := h.findsSame ⟨info.location, path, names⟩
      have hbind : (importDecl info path names asName).bindImport s.tables =
          (importDecl info path names asName).bindImport T :=
        bindImport_congr fun i _ => h.findsSame i
      have hstate : s.withImport T importer ⟨info.location, path, names⟩ =
          s.withImport s.tables importer ⟨info.location, path, names⟩ := by
        rw [Survey.withImport, Survey.withImport, hfinds.entries, hfinds.findings]
      have hnode : s.withNode T importer (.importDecl info path names asName) =
          s.withImport T importer ⟨info.location, path, names⟩ := rfl
      rw [hnode, hstate, ← hbind]
      rfl
  | _ => rfl

namespace Survey

variable {u : SourceUnit} {us : List SourceUnit} {t : ModuleTable}

/-- The imports of a unit add their entries to its table. -/
theorem tables_foldl_withImport (T : Tables) (importer : String) (is : List Import) (s : Survey) :
    (is.foldl (withImport T importer) s).tables =
      (is.flatMap (·.entries T)).foldl (Tables.addImport importer) s.tables := by
  induction is generalizing s with
  | nil => rfl
  | cons i is ih => rw [List.foldl_cons, ih, List.flatMap_cons, List.foldl_append, withImport]

/-- The imports of an open unit add their findings. -/
theorem found_withImports (T : Tables) (s : Survey) (u : SourceUnit) :
    (s.withImports T u).found = s.found ++ if u.isResolved then {} else u.importFindings T := by
  cases h : u.isResolved with
  | true => simp [withImports, h]
  | false =>
      rw [withImports, h, if_neg Bool.false_ne_true, if_neg Bool.false_ne_true]
      exact Findings.found_foldl (fun _ _ => rfl) u.importDecls s

/-- The imports of a unit do not change what the tables offer. -/
theorem offersSame_withImports (hknown : (T.lookup u.path).isSome) (h : s.tables.OffersSame T) :
    (s.withImports T u).tables.OffersSame T := by
  unfold withImports
  split
  · exact h
  · rw [tables_foldl_withImport]
    exact h.foldl_addImport hknown _

/-- Binding the imports of a unit changes its own table and no other. -/
theorem lookup_withImports (ht : s.tables.lookup u.path = some t) (path : String) :
    (s.withImports T u).tables.lookup path =
      if path = u.path then
        some (if u.isResolved then t else t.addImports (u.importDecls.flatMap (·.entries T)))
      else s.tables.lookup path := by
  cases h : u.isResolved with
  | true =>
      by_cases hpath : path = u.path
      · simp [withImports, h, hpath, ht]
      · simp [withImports, h, hpath]
  | false =>
      rw [withImports, h, if_neg Bool.false_ne_true, if_neg Bool.false_ne_true,
        tables_foldl_withImport, Tables.lookup_foldl_addImport ht]

/-- The imports of units do not change the tables at other paths. -/
theorem lookup_foldl_withImports_of_not_mem {path : String} (hnot : path ∉ us.map (·.path))
    (hknown : ∀ v ∈ us, (T.lookup v.path).isSome) (h : s.tables.OffersSame T) :
    (us.foldl (withImports T) s).tables.lookup path = s.tables.lookup path := by
  induction us generalizing s with
  | nil => rfl
  | cons v us ih =>
      rw [List.map_cons, List.mem_cons, not_or] at hnot
      have hv := hknown v List.mem_cons_self
      obtain ⟨t, ht⟩ := Option.isSome_iff_exists.mp ((h.known v.path).trans hv)
      rw [List.foldl_cons, ih hnot.2 (fun w hw => hknown w (List.mem_cons_of_mem v hw))
        (offersSame_withImports hv h), lookup_withImports ht, if_neg hnot.1]

/-- **Binding imports, the tables**: in the end the table of each unit that is not resolved has the
imports of the unit added. -/
theorem lookup_foldl_withImports (hpaths : (us.map (·.path)).Nodup) (hu : u ∈ us)
    (hknown : ∀ v ∈ us, (T.lookup v.path).isSome) (h : s.tables.OffersSame T)
    (ht : s.tables.lookup u.path = some t) :
    (us.foldl (withImports T) s).tables.lookup u.path =
      some (if u.isResolved then t else t.addImports (u.importDecls.flatMap (·.entries T))) := by
  induction us generalizing s with
  | nil => simp at hu
  | cons v us ih =>
      obtain ⟨hnew, hrest⟩ := List.nodup_cons.mp hpaths
      have hv := hknown v List.mem_cons_self
      have hothers : ∀ w ∈ us, (T.lookup w.path).isSome :=
        fun w hw => hknown w (List.mem_cons_of_mem v hw)
      have hnext := offersSame_withImports hv h
      rw [List.foldl_cons]
      rcases List.mem_cons.mp hu with rfl | hmem
      · rw [lookup_foldl_withImports_of_not_mem hnew hothers hnext, lookup_withImports ht,
          if_pos rfl]
      · have hne : u.path ≠ v.path := fun hpath => hnew (List.mem_map.mpr ⟨u, hmem, hpath⟩)
        obtain ⟨t', ht'⟩ := Option.isSome_iff_exists.mp ((h.known v.path).trans hv)
        refine ih hrest hmem hothers hnext ?_
        rw [lookup_withImports ht', if_neg hne, ht]

end Survey

namespace SourceUnit

variable {u : SourceUnit}

/-- **Binding imports, one unit.** -/
theorem run_surveyImports (hknown : (T.lookup u.path).isSome) (h : s.tables.OffersSame T) :
    u.surveyImports.run s =
      (if u.isResolved then u else u.bindImports T, s.withImports T u) := by
  cases hopen : u.isResolved with
  | true =>
      have hsame : s.withImports T u = s := by
        rw [Survey.withImports, hopen, if_pos rfl]
      rw [hsame, surveyImports, hopen]
      rfl
  | false =>
      have hstep : ∀ n : Node, ∀ s : Survey, s.tables.OffersSame T →
          (n.surveyImport u.path).run s = (n.bindImport T, s.withNode T u.path n) ∧
            (s.withNode T u.path n).tables.OffersSame T := by
        intro n s hs
        refine ⟨n.run_surveyImport hs u.path, ?_⟩
        unfold Survey.withNode
        split
        · exact hs.foldl_addImport hknown _
        · exact hs
      obtain ⟨himports, hmiddle⟩ := run_mapM_of_step (fun n (_ : n ∈ u.imports) => hstep n) s h
      obtain ⟨hnodes, -⟩ := run_mapM_of_step (fun n (_ : n ∈ u.nodes) => hstep n) _ hmiddle
      have hstate : s.withImports T u = u.nodes.foldl (Survey.withNode T u.path)
          (u.imports.foldl (Survey.withNode T u.path) s) := by
        rw [← List.foldl_append, Survey.foldl_withNode, Survey.withImports, hopen,
          if_neg Bool.false_ne_true, importDecls, topLevel]
      have hrun : u.surveyImports.run s =
          ({ u with
              imports := ((u.imports.mapM (Node.surveyImport u.path)).run s).1
              nodes := ((u.nodes.mapM (Node.surveyImport u.path)).run
                ((u.imports.mapM (Node.surveyImport u.path)).run s).2).1 },
            ((u.nodes.mapM (Node.surveyImport u.path)).run
              ((u.imports.mapM (Node.surveyImport u.path)).run s).2).2) := by
        rw [surveyImports, hopen]
        rfl
      rw [hstate, hrun, himports, hnodes]
      rfl

end SourceUnit

namespace Program

variable {P : Program}

/-- A traversal of a program, if each step is known as long as an invariant holds. -/
theorem run_traverse_of_step {f : SourceUnit → StateM Survey SourceUnit}
    {g : SourceUnit → SourceUnit} {next : Survey → SourceUnit → Survey} (Inv : Survey → Prop)
    (hstep : ∀ u ∈ P.units, ∀ s, Inv s → (f u).run s = (g u, next s u) ∧ Inv (next s u))
    (hs : Inv s) :
    (P.traverse f).run s = (P.mapUnits g, P.units.foldl next s) := by
  obtain ⟨hvalues, hmiddle⟩ :=
    run_mapM_of_step (fun u hu => hstep u (List.mem_append_left _ hu)) s hs
  obtain ⟨hsources, -⟩ :=
    run_mapM_of_step (fun u hu => hstep u (List.mem_append_right _ hu)) _ hmiddle
  have hrun : (P.traverse f).run s =
      ({ P with
          values := ((P.values.mapM f).run s).1
          sources := ((P.sources.mapM f).run ((P.values.mapM f).run s).2).1 },
        ((P.sources.mapM f).run ((P.values.mapM f).run s).2).2) := rfl
  rw [hrun, hvalues, hsources, units, List.foldl_append]
  rfl

/-- As paths differ, the table at the path of a unit is the one collected from it. -/
theorem lookup_tables_of_mem (hpaths : P.paths.Nodup) {u : SourceUnit} (hu : u ∈ P.units) :
    P.tables.lookup u.path = some u.collect.table := by
  rw [lookup_tables, (unit?_eq_some_iff hpaths).mpr ⟨hu, rfl⟩]
  rfl

/-- What is known when all imports are bound. -/
def surveyed (P : Program) : Survey :=
  P.units.foldl (Survey.withImports P.tables)
    { tables := P.tables
      found := { events := [.collecting] } ++ .gather (·.duplicateFindings) P.openUnits ++
        { events := [.bindingImports] } }

/-- **The survey**: collecting and binding imports in shared tables. -/
theorem run_survey (hpaths : P.paths.Nodup) :
    P.survey.run {} =
      (P.mapUnits fun u => if u.isResolved then u else u.bindImports P.tables, P.surveyed) := by
  let start : Survey := { found := { events := [.collecting] } }
  have hcollect : (P.units.forM (·.surveyNames)).run start =
      ((), { tables := P.tables
             found := start.found ++ .gather (·.duplicateFindings) P.openUnits }) :=
    SourceUnit.run_forM_surveyNames hpaths
  have hrun : P.survey.run {} = (P.traverse (·.surveyImports)).run
      ((Survey.note { events := [.bindingImports] }).run
        ((P.units.forM (·.surveyNames)).run start).2).2 := rfl
  have hknown : ∀ u ∈ P.units, (P.tables.lookup u.path).isSome := by
    intro u hu
    rw [lookup_tables_of_mem hpaths hu]
    rfl
  rw [hrun, hcollect]
  refine run_traverse_of_step (fun s => s.tables.OffersSame P.tables) (fun u hu s hs => ?_) ?_
  · exact ⟨SourceUnit.run_surveyImports (hknown u hu) hs,
      Survey.offersSame_withImports (hknown u hu) hs⟩
  · exact ⟨fun _ => rfl, fun _ _ => rfl⟩

/-- The table of a unit when all imports are bound. -/
theorem lookup_surveyed (hpaths : P.paths.Nodup) {u : SourceUnit} (hu : u ∈ P.units) :
    P.surveyed.tables.lookup u.path =
      some (if u.isResolved then u.collect.table else u.importTable P.tables) := by
  refine Survey.lookup_foldl_withImports hpaths hu (fun v hv => ?_)
    ⟨fun _ => rfl, fun _ _ => rfl⟩ (lookup_tables_of_mem hpaths hu)
  rw [lookup_tables_of_mem hpaths hv]
  rfl

/-- What a survey finds: duplicates of all open units, and then failing imports. -/
theorem found_surveyed (P : Program) :
    P.surveyed.found =
      { events := [.collecting] } ++ .gather (·.duplicateFindings) P.openUnits ++
        { events := [.bindingImports] } ++ .gather (·.importFindings P.tables) P.openUnits := by
  rw [surveyed, Findings.found_foldl (Survey.found_withImports P.tables), Findings.gather_open]
  rfl

end Program

/-! ## walking -/

namespace SourceUnit

/-- What the walk of a unit knows, with its table among others. -/
def sharedContext (config : Config) (tables : Tables) (u : SourceUnit) : WalkContext where
  path := u.path
  table := tables.tableOf u.path
  builtins := config.builtins
  stopAtFirst := config.stopAtFirstUnresolved

/-- The walk of a unit with its table among others. -/
def sharedWalk (config : Config) (tables : Tables) (u : SourceUnit) : SourceUnit × Findings :=
  if u.isResolved then (u, {})
  else
    let cx := u.sharedContext config tables
    ((u.walk cx).1, (u.walk cx).2.findings cx)

end SourceUnit

/-- The state after a unit is walked with the tables `T`. -/
def Survey.withWalk (config : Config) (T : Tables) (s : Survey) (u : SourceUnit) : Survey :=
  { s with found := s.found ++ (u.sharedWalk config T).2 }

/-- The walk over a unit, run on a survey, adds its findings to it. -/
theorem SourceUnit.run_surveyWalk (config : Config) (s : Survey) (u : SourceUnit) :
    (u.surveyWalk config).run s =
      ((u.sharedWalk config s.tables).1, s.withWalk config s.tables u) := by
  cases h : u.isResolved with
  | true =>
      have hsame : s.withWalk config s.tables u = s := by
        simp [Survey.withWalk, sharedWalk, h]
      rw [hsame, surveyWalk, sharedWalk, h]
      rfl
  | false =>
      rw [Survey.withWalk, surveyWalk, sharedWalk, h]
      rfl

namespace Program

variable {P : Program}

/-- After the survey, the walk of a unit is that of the pass. -/
theorem sharedWalk_surveyed (hpaths : P.paths.Nodup) {u : SourceUnit} (hu : u ∈ P.units)
    (config : Config) :
    (if u.isResolved then u else u.bindImports P.tables).sharedWalk config P.surveyed.tables =
      (u.bindNames config P.tables,
        if u.isResolved then {} else u.walkFindings config P.tables) := by
  cases hopen : u.isResolved with
  | true =>
      rw [SourceUnit.bindNames_of_isResolved hopen, if_pos rfl, SourceUnit.sharedWalk, hopen]
      rfl
  | false =>
      have htable : P.surveyed.tables.tableOf u.path = u.importTable P.tables := by
        rw [Tables.tableOf, lookup_surveyed hpaths hu, hopen]
        rfl
      have hcx : (u.bindImports P.tables).sharedContext config P.surveyed.tables =
          u.walkContext config P.tables := by
        rw [SourceUnit.walkContext, ← htable]
        rfl
      have hbound : (u.bindImports P.tables).isResolved = false := hopen
      rw [if_neg Bool.false_ne_true, SourceUnit.sharedWalk, hbound,
        if_neg Bool.false_ne_true, hcx, SourceUnit.bindNames_of_open hopen]
      rfl

/-- **The names**: binding them in shared tables gives what the phases of a pass give. -/
theorem run_surveyAll (hpaths : P.paths.Nodup) (config : Config) :
    ((P.surveyAll config).run {}).1 = P.mapUnits (·.bindNames config P.tables) ∧
      ((P.surveyAll config).run {}).2.found = P.findings config := by
  let bound : SourceUnit → SourceUnit := fun u =>
    if u.isResolved then u else u.bindImports P.tables
  let start : Survey :=
    { P.surveyed with found := P.surveyed.found ++ { events := [.walkingUnits] } }
  have hstart : start.found = P.surveyed.found ++ { events := [.walkingUnits] } := rfl
  have hrun : (P.surveyAll config).run {} =
      ((P.mapUnits bound).traverse (·.surveyWalk config)).run start := by
    have hsplit : (P.surveyAll config).run {} =
        ((P.survey.run {}).1.traverse (·.surveyWalk config)).run
          ((Survey.note { events := [.walkingUnits] }).run (P.survey.run {}).2).2 := rfl
    rw [hsplit, run_survey hpaths]
    rfl
  have hwalk : ((P.mapUnits bound).traverse (·.surveyWalk config)).run start =
      ((P.mapUnits bound).mapUnits fun u => (u.sharedWalk config P.surveyed.tables).1,
        (P.mapUnits bound).units.foldl (Survey.withWalk config P.surveyed.tables) start) := by
    refine run_traverse_of_step (fun s => s.tables = P.surveyed.tables)
      (fun u _ s hs => ⟨?_, hs⟩) rfl
    rw [SourceUnit.run_surveyWalk, hs]
  rw [hrun, hwalk]
  constructor
  · rw [mapUnits_mapUnits]
    exact mapUnits_congr fun u hu => by rw [sharedWalk_surveyed hpaths hu]
  · rw [Findings.found_foldl fun _ _ => rfl, units_mapUnits, Findings.gather_map,
      Findings.gather_congr fun u hu => by rw [sharedWalk_surveyed hpaths hu],
      Findings.gather_open, hstart, found_surveyed]
    rfl

/-- **Shared tables**: if no two units share a path, a pass over shared tables is a pass with the
tables made from the units. -/
theorem sweep_eq_pass (hpaths : P.paths.Nodup) (config : Config) :
    P.sweep config = P.pass config := by
  have hchecked : P.checkEntry.paths.Nodup := by
    rwa [paths, units_checkEntry]
  obtain ⟨hnamed, hfound⟩ := run_surveyAll hchecked config
  rw [sweep, pass, ← hnamed, ← hfound]
  rfl

end Program

end NameResolution
