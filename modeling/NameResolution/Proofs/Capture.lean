import Mathlib.Data.List.Nodup
import Mathlib.Data.List.Perm.Lattice
import NameResolution.Proofs.Completeness
import NameResolution.Proofs.Locality

/-!
# Names that are bound too early

A pass binds what it can. If a unit imports a name from a module that is not there yet, a use of the
name may still have a meaning: the unit declares the name itself, imports it from another module
too, or it is a builtin. The use is bound, and it keeps its binding when the module comes in, though
it would have another meaning then or none. Such a use is captured.

The layers are

* the imports in a table in terms of the program (`SourceUnit.mem_importsOf_iff`);
* meanings in a program and in a larger one (`Program.means_iff_not_late`);
* the outcome at a position (`SourceUnit.outcomes_agree_iff`);
* two passes against one (`SourceUnit.at?_second_pass`, `SourceUnit.isResolved_second_pass`).
-/

namespace NameResolution

/-! ## imports in a table -/

namespace ModuleTable

/-- Adding imports keeps the entries distinct. -/
theorem nodup_addImports {t : ModuleTable} (h : t.imports.Nodup) (entries : List ImportEntry) :
    (t.addImports entries).imports.Nodup := by
  induction entries generalizing t with
  | nil => exact h
  | cons entry entries ih =>
      refine ih (t := t.addImport entry) ?_
      unfold addImport
      split
      · exact h
      · next hnew =>
        exact List.nodup_append.mpr ⟨h, List.nodup_singleton entry, fun a ha b hb heq =>
          hnew (by rwa [← List.mem_singleton.mp hb, ← heq])⟩

end ModuleTable

namespace SourceUnit

/-- No module is listed twice as a source of a name. -/
theorem nodup_importsOf (tables : Tables) (u : SourceUnit) (name : String) :
    ((u.importTable tables).importsOf name).Nodup := by
  refine List.Nodup.filter _ (ModuleTable.nodup_addImports ?_ _)
  rw [imports_collect]
  exact List.nodup_nil

/-- The imports of a name in the table of a unit are what the unit asks for and the program
offers. -/
theorem mem_importsOf_iff {P : Program} {u : SourceUnit} {name : String} {e : ImportEntry} :
    e ∈ (u.importTable P.tables).importsOf name ↔
      e.name = name ∧ u.Imports e.module name ∧ P.Offers e.module name e.location := by
  constructor
  · intro h
    have hname : e.name = name := by simpa using (List.mem_filter.mp h).2
    obtain ⟨himports, i, hpath, hsite⟩ := exists_of_mem_importsOf h
    rw [Import.site?_eq_some_iff, hpath] at hsite
    exact ⟨hname, himports, hsite⟩
  · rintro ⟨rfl, ⟨i, hi, hpath, id, hid, hname⟩, hoffers⟩
    refine List.mem_filter.mpr ⟨ModuleTable.mem_addImports.mpr (.inr ?_), by simp⟩
    refine List.mem_flatMap.mpr ⟨i, hi, List.mem_filterMap.mpr ⟨id, hid, ?_⟩⟩
    have hsite : i.site? P.tables id.name = some e.location := by
      rw [Import.site?_eq_some_iff, hpath, hname]
      exact hoffers
    rw [hsite, Option.map_some, hname, hpath]

end SourceUnit

/-! ## meanings in a program -/

/-- A name outside all blocks is bound to a declaration of the unit, to an import or to a
builtin. -/
theorem WalkContext.Means.ok_cases {cx : WalkContext} {circular : Prop} {name : String}
    {b : Binding} (h : cx.Means circular name (.ok b)) :
    (∃ location, cx.table.declaration? name = some location ∧ cx.table.importsOf name = [] ∧
      ¬ circular ∧ b = ⟨.module cx.path, ⟨cx.path, name, location⟩⟩) ∨
    (∃ entry, cx.table.declaration? name = none ∧ cx.table.importsOf name = [entry] ∧
      b = ⟨.module entry.module, ⟨entry.module, name, entry.location⟩⟩) ∨
    (cx.table.declaration? name = none ∧ cx.table.importsOf name = [] ∧ name ∈ cx.builtins ∧
      b = ⟨.builtin, ⟨Config.builtinPath, name, .nowhere⟩⟩) := by
  generalize houtcome : Except.ok b = outcome at h
  cases h with
  | declared hdecl himports hcircular =>
      cases houtcome
      exact .inl ⟨_, hdecl, himports, hcircular, rfl⟩
  | imported hdecl himports =>
      cases houtcome
      exact .inr (.inl ⟨_, hdecl, himports, rfl⟩)
  | builtin hdecl himports hbuiltin =>
      cases houtcome
      exact .inr (.inr ⟨hdecl, himports, hbuiltin, rfl⟩)
  | _ => cases houtcome

namespace Program

/-- The unit imports the name from the module at `path`, and the program has such a module, which
offers it. -/
def Provides (P : Program) (u : SourceUnit) (path name : String) : Prop :=
  u.Imports path name ∧ ∃ location, P.Offers path name location

/-- A module provides a name just if the table of imports lists it for the name. -/
theorem provides_iff {P : Program} {u : SourceUnit} {path name : String} :
    P.Provides u path name ↔ ∃ e ∈ (u.importTable P.tables).importsOf name, e.module = path := by
  constructor
  · rintro ⟨himports, location, hoffers⟩
    exact ⟨⟨name, path, location⟩, SourceUnit.mem_importsOf_iff.mpr ⟨rfl, himports, hoffers⟩, rfl⟩
  · rintro ⟨e, he, rfl⟩
    obtain ⟨-, himports, hoffers⟩ := SourceUnit.mem_importsOf_iff.mp he
    exact ⟨himports, e.location, hoffers⟩

/-- No module is listed for a name just if none provides it. -/
theorem importsOf_eq_nil_iff {P : Program} {u : SourceUnit} {name : String} :
    (u.importTable P.tables).importsOf name = [] ↔ ∀ path, ¬ P.Provides u path name := by
  simp only [provides_iff]
  constructor
  · rintro hnil path ⟨e, he, -⟩
    rw [hnil] at he
    cases he
  · intro h
    exact List.eq_nil_iff_forall_not_mem.mpr fun e he => h e.module ⟨e, he, rfl⟩

/-- A module offers a name at one location only. -/
theorem Offers.unique {P : Program} {path name : String} {location location' : Location}
    (h : P.Offers path name location) (h' : P.Offers path name location') :
    location = location' := by
  obtain ⟨v, hv, -, hlocation⟩ := h
  obtain ⟨v', hv', -, hlocation'⟩ := h'
  obtain rfl : v = v' := Option.some.inj (hv.symm.trans hv')
  exact Option.some.inj (hlocation.symm.trans hlocation')

/-- Imports of one name from one module are one import. -/
theorem importEntry_unique {P : Program} {u : SourceUnit} {name : String} {e e' : ImportEntry}
    (he : e ∈ (u.importTable P.tables).importsOf name)
    (he' : e' ∈ (u.importTable P.tables).importsOf name) (h : e.module = e'.module) : e = e' := by
  obtain ⟨hname, -, hoffers⟩ := SourceUnit.mem_importsOf_iff.mp he
  obtain ⟨hname', -, hoffers'⟩ := SourceUnit.mem_importsOf_iff.mp he'
  have hlocation : e.location = e'.location := by
    rw [← h] at hoffers'
    exact hoffers.unique hoffers'
  cases e
  cases e'
  simp_all

/-- A name has a meaning outside all blocks, at the position `p` of a unit: it is declared at the
top level of the unit, or imported from one module, or a builtin, and nothing competes with that. -/
inductive Meant (P : Program) (config : Config) (u : SourceUnit) (p : Position) (name : String) :
    Prop where
  | declared {location : Location} (hfirst : u.firstLocation? name = some location)
      (hnone : ∀ path, ¬ P.Provides u path name) (hout : ¬ u.root.InOwnInitializer p name)
  | imported {path : String} (hfirst : u.firstLocation? name = none)
      (hprovides : P.Provides u path name) (honly : ∀ other, P.Provides u other name → other = path)
  | builtin (hfirst : u.firstLocation? name = none) (hnone : ∀ path, ¬ P.Provides u path name)
      (hbuiltin : name ∈ config.builtins)

/-- The walk looks a name of its own unit up at the first place that declares it. -/
theorem declaration?_walkContext (config : Config) (P : Program) (u : SourceUnit) (name : String) :
    (u.walkContext config P.tables).table.declaration? name = u.firstLocation? name :=
  SourceUnit.declaration?_importTable P.tables u name

/-- A name has a meaning in the program if the table of the unit gives it one. -/
theorem meant_iff {P : Program} {config : Config} {u : SourceUnit} {p : Position} {name : String} :
    P.Meant config u p name ↔ ∃ b, (u.walkContext config P.tables).Means
      (u.root.InOwnInitializer p name) name (.ok b) := by
  have htable := declaration?_walkContext config P u name
  constructor
  · rintro (⟨hfirst, hnone, hout⟩ | ⟨hfirst, hprovides, honly⟩ | ⟨hfirst, hnone, hbuiltin⟩)
    · exact ⟨_, .declared (htable.trans hfirst) (importsOf_eq_nil_iff.mpr hnone) hout⟩
    · obtain ⟨e, he, rfl⟩ := provides_iff.mp hprovides
      have hsingle : (u.importTable P.tables).importsOf name = [e] := by
        refine List.perm_singleton.mp ?_
        refine (List.perm_ext_iff_of_nodup (SourceUnit.nodup_importsOf _ u name)
          (List.nodup_singleton e)).mpr fun e' => ?_
        rw [List.mem_singleton]
        constructor
        · intro he'
          exact importEntry_unique he' he (honly e'.module (provides_iff.mpr ⟨e', he', rfl⟩))
        · rintro rfl
          exact he
      exact ⟨_, .imported (htable.trans hfirst) hsingle⟩
    · exact ⟨_, .builtin (htable.trans hfirst) (importsOf_eq_nil_iff.mpr hnone) hbuiltin⟩
  · rintro ⟨b, hmeans⟩
    rcases hmeans.ok_cases with
      ⟨location, hdecl, himports, hcircular, -⟩ | ⟨entry, hdecl, himports, -⟩ |
        ⟨hdecl, himports, hbuiltin, -⟩
    · exact .declared (htable.symm.trans hdecl) (importsOf_eq_nil_iff.mp himports) hcircular
    · have hmem : ∀ e, e ∈ (u.importTable P.tables).importsOf name ↔ e = entry := by
        intro e
        rw [show (u.importTable P.tables).importsOf name = [entry] from himports,
          List.mem_singleton]
      refine .imported (htable.symm.trans hdecl)
        (provides_iff.mpr ⟨entry, (hmem entry).mpr rfl, rfl⟩) fun other hother => ?_
      obtain ⟨e, he, rfl⟩ := provides_iff.mp hother
      rw [(hmem e).mp he]
    · exact .builtin (htable.symm.trans hdecl) (importsOf_eq_nil_iff.mp himports) hbuiltin

/-! ## a larger program -/

/-- The program has all the units of another one, at the same paths. -/
def Extends (whole early : Program) : Prop :=
  ∀ path v, early.unit? path = some v → whole.unit? path = some v

variable {early whole : Program} {u : SourceUnit} {config : Config} {name : String}

theorem contains_of_unit? {P : Program} {path : String} {v : SourceUnit}
    (h : P.unit? path = some v) : P.contains path = true := by
  obtain ⟨hmem, hpath⟩ := mem_paths_of_unit? h
  exact contains_eq_true_iff.mpr (List.mem_map.mpr ⟨v, hmem, hpath⟩)

/-- What a module offers early, it offers in the whole program. -/
theorem Extends.offers (h : whole.Extends early) {path : String} {location : Location}
    (hearly : early.Offers path name location) : whole.Offers path name location := by
  obtain ⟨v, hv, hoffers⟩ := hearly
  exact ⟨v, h path v hv, hoffers⟩

/-- What a module that is there early offers in the whole program, it offers early. -/
theorem Extends.offers_early (h : whole.Extends early) {path : String} {location : Location}
    (hpath : early.contains path = true) (hwhole : whole.Offers path name location) :
    early.Offers path name location := by
  obtain ⟨v, hv, hoffers⟩ := hwhole
  obtain ⟨v', hv'⟩ := exists_unit?_of_mem_paths (contains_eq_true_iff.mp hpath)
  obtain rfl : v = v' := Option.some.inj (hv.symm.trans (h path v' hv'))
  exact ⟨v, hv', hoffers⟩

/-- A module that came later provides the name. -/
def Late (early whole : Program) (u : SourceUnit) (name : String) : Prop :=
  ∃ path, early.contains path = false ∧ whole.Provides u path name

/-- The imports of a name in the larger program: those that were there, and those from modules that
came later. -/
theorem mem_importsOf_whole (h : whole.Extends early) {e : ImportEntry} :
    e ∈ (u.importTable whole.tables).importsOf name ↔
      e ∈ (u.importTable early.tables).importsOf name ∨
        early.contains e.module = false ∧ e ∈ (u.importTable whole.tables).importsOf name := by
  constructor
  · intro he
    cases hpath : early.contains e.module with
    | false => exact .inr ⟨rfl, he⟩
    | true =>
        obtain ⟨hname, himports, hoffers⟩ := SourceUnit.mem_importsOf_iff.mp he
        exact .inl (SourceUnit.mem_importsOf_iff.mpr
          ⟨hname, himports, h.offers_early hpath hoffers⟩)
  · rintro (he | ⟨-, he⟩)
    · obtain ⟨hname, himports, hoffers⟩ := SourceUnit.mem_importsOf_iff.mp he
      exact SourceUnit.mem_importsOf_iff.mpr ⟨hname, himports, h.offers hoffers⟩
    · exact he

/-- A name comes late just if a module that is not there early is listed for it. -/
theorem late_iff {early whole : Program} {u : SourceUnit} {name : String} :
    Late early whole u name ↔ ∃ e ∈ (u.importTable whole.tables).importsOf name,
      early.contains e.module = false := by
  constructor
  · rintro ⟨path, hpath, hprovides⟩
    obtain ⟨e, he, rfl⟩ := provides_iff.mp hprovides
    exact ⟨e, he, hpath⟩
  · rintro ⟨e, he, hpath⟩
    exact ⟨e.module, hpath, provides_iff.mpr ⟨e, he, rfl⟩⟩

/-- The modules listed for a name are in the program. -/
theorem contains_of_mem_importsOf {P : Program} {e : ImportEntry}
    (he : e ∈ (u.importTable P.tables).importsOf name) : P.contains e.module = true := by
  obtain ⟨-, -, v, hv, -⟩ := SourceUnit.mem_importsOf_iff.mp he
  exact contains_of_unit? hv

/-- Without a late module the imports of a name are the same, up to their order. -/
theorem perm_importsOf (h : whole.Extends early) (hnot : ¬ Late early whole u name) :
    ((u.importTable whole.tables).importsOf name).Perm
      ((u.importTable early.tables).importsOf name) := by
  refine (List.perm_ext_iff_of_nodup (SourceUnit.nodup_importsOf _ u name)
    (SourceUnit.nodup_importsOf _ u name)).mpr fun e => ?_
  rw [mem_importsOf_whole h]
  constructor
  · rintro (he | ⟨hpath, he⟩)
    · exact he
    · exact absurd (late_iff.mpr ⟨e, he, hpath⟩) hnot
  · exact .inl

/-- **Meanings in a larger program**: what a name means is what it means in the larger program too,
unless a module that came later provides the name. -/
theorem means_iff_not_late (h : whole.Extends early) {circular : Prop} {b : Binding}
    (hearly : (u.walkContext config early.tables).Means circular name (.ok b)) :
    (u.walkContext config whole.tables).Means circular name (.ok b) ↔
      ¬ Late early whole u name := by
  have hdecl : (u.walkContext config whole.tables).table.declaration? name =
      (u.walkContext config early.tables).table.declaration? name := by
    rw [declaration?_walkContext, declaration?_walkContext]
  constructor
  · intro hwhole hlate
    obtain ⟨late, hlate, hnew⟩ := late_iff.mp hlate
    have hne : (u.importTable whole.tables).importsOf name ≠ [] := List.ne_nil_of_mem hlate
    -- With a late import in the table, the only meaning can be that import.
    rcases hwhole.ok_cases with ⟨_, -, hnil, -⟩ | ⟨entry, hnone, hsingle, hb⟩ | ⟨-, hnil, -⟩
    · exact hne hnil
    · rcases hearly.ok_cases with ⟨_, hsome, -⟩ | ⟨other, -, hother, -⟩ | ⟨-, -, -, hb'⟩
      · rw [hdecl, hsome] at hnone
        cases hnone
      · have hmem : other ∈ (u.importTable early.tables).importsOf name := by
          rw [show (u.importTable early.tables).importsOf name = [other] from hother]
          exact List.mem_singleton_self other
        have hmem' := (mem_importsOf_whole h).mpr (.inl hmem)
        have hsame : late = other := by
          rw [show (u.importTable whole.tables).importsOf name = [entry] from hsingle,
            List.mem_singleton] at hlate hmem'
          rw [hlate, hmem']
        rw [hsame, contains_of_mem_importsOf hmem] at hnew
        cases hnew
      · rw [hb] at hb'
        cases hb'
    · exact hne hnil
  · intro hnot
    have hperm : ((u.walkContext config whole.tables).table.importsOf name).Perm
        ((u.walkContext config early.tables).table.importsOf name) := perm_importsOf h hnot
    rcases hearly.ok_cases with
      ⟨location, hsome, hnil, hout, rfl⟩ | ⟨entry, hnone, hsingle, rfl⟩ |
        ⟨hnone, hnil, hbuiltin, rfl⟩
    · rw [hnil] at hperm
      exact .declared (hdecl.trans hsome) hperm.eq_nil hout
    · rw [hsingle] at hperm
      exact .imported (hdecl.trans hnone) (List.perm_singleton.mp hperm)
    · rw [hnil] at hperm
      exact .builtin (hdecl.trans hnone) hperm.eq_nil hbuiltin

end Program

/-! ## captured uses -/

/-- A use in a unit of the program `early` is captured in the program `whole`: no block around it
declares its name, the name has a meaning in `early`, and a module that came later provides it. -/
structure SourceUnit.Captured (early whole : Program) (config : Config) (u : SourceUnit)
    (p : Position) (id : Identifier) : Prop where
  first : early.contains u.path = true
  use : u.root.roleAt p = .use
  unseen : id.isLocal = true → id.isMarked = false →
    ∀ q d decl, u.root.Sees p q d decl → decl.name ≠ id.name
  meant : early.Meant config u p id.name
  late : Program.Late early whole u id.name

/-- A name that is found in the scopes at a position is declared in sight of it. -/
theorem Node.exists_sees_of_lookup {n m : Node} {p : Position} (hp : n.at? p = some m)
    {name : String} {found : UInt32 × Location}
    (h : (n.startView p).scopes.lookup name = some found) :
    ∃ q d decl, n.Sees p q d decl ∧ decl.name = name := by
  rw [lookup_startView hp, List.findSome?_eq_some_iff] at h
  obtain ⟨inner, f, outer, hframes, hoffer, -⟩ := h
  obtain ⟨⟨d, decl⟩, hfind, -⟩ := Option.map_eq_some_iff.mp hoffer
  have hf : f ∈ n.frames p := by simp [hframes]
  refine ⟨f.block, d, decl, sees_of_mem_finished hf (List.mem_of_find?_eq_some hfind), ?_⟩
  have hname := List.find?_some hfind
  simpa using hname

/-- What the walk makes of a name outside all blocks is what the name means there. -/
theorem WalkContext.resolveGlobal_eq_iff {cx : WalkContext} {pending : Option String}
    {name : String} {circular : Prop} (hcircular : circular ↔ pending = some name)
    {outcome : Except Cause Binding} :
    cx.resolveGlobal pending name = outcome ↔ cx.Means circular name outcome := by
  have hmeans := cx.means_resolveGlobal hcircular
  constructor
  · rintro rfl
    exact hmeans
  · exact fun h => h.unique hmeans

namespace SourceUnit

variable {early whole : Program} {config : Config} {u : SourceUnit} {p : Position}
  {id : Identifier}

/-- Outside all blocks, the outcomes of a use agree unless a module that came later provides a name
that had a meaning before. -/
theorem globals_agree_iff (h : whole.Extends early) (hp : u.root.at? p = some (.identifier id)) :
    (∀ b, (u.walkContext config early.tables).resolveGlobal (u.root.startView p).pending id.name =
        .ok b →
      (u.walkContext config whole.tables).resolveGlobal (u.root.startView p).pending id.name =
        .ok b) ↔
      ¬ (early.Meant config u p id.name ∧ Program.Late early whole u id.name) := by
  have hcircular := Node.inOwnInitializer_iff hp id.name
  simp only [WalkContext.resolveGlobal_eq_iff hcircular]
  rw [Program.meant_iff]
  constructor
  · rintro hagree ⟨⟨b, hmeans⟩, hlate⟩
    exact (Program.means_iff_not_late h hmeans).mp (hagree b hmeans) hlate
  · intro hnot b hmeans
    exact (Program.means_iff_not_late h hmeans).mpr fun hlate => hnot ⟨⟨b, hmeans⟩, hlate⟩

/-- The outcomes of a use agree unless it is captured. -/
theorem uses_agree_iff (h : whole.Extends early) (hfirst : early.contains u.path = true)
    (hp : u.root.at? p = some (.identifier id)) (hrole : u.root.roleAt p = .use) :
    (∀ b, (u.walkContext config early.tables).resolve (u.root.startView p).pending
        (u.root.startView p).scopes id = .ok b →
      (u.walkContext config whole.tables).resolve (u.root.startView p).pending
        (u.root.startView p).scopes id = .ok b) ↔
      ¬ u.Captured early whole config p id := by
  cases hfound : (if id.isLocal && !id.isMarked
      then (u.root.startView p).scopes.lookup id.name else none) with
  | some found =>
      -- A name that is found in a block means the same in every program.
      obtain ⟨hsees, hlookup⟩ : (id.isLocal && !id.isMarked) = true ∧
          (u.root.startView p).scopes.lookup id.name = some found := by
        simpa using hfound
      have hresolve : ∀ P : Program, (u.walkContext config P.tables).resolve
          (u.root.startView p).pending (u.root.startView p).scopes id =
            .ok (.inScope found.1 u.path id.name found.2) := by
        intro P
        rw [WalkContext.resolve, hfound]
        rfl
      rw [hresolve, hresolve]
      refine ⟨fun _ hcaptured => ?_, fun _ b hb => hb⟩
      obtain ⟨q, d, decl, hdecl, hname⟩ := Node.exists_sees_of_lookup hp hlookup
      obtain ⟨hlocal, hmarked⟩ : id.isLocal = true ∧ id.isMarked = false := by
        simpa using hsees
      exact hcaptured.unseen hlocal hmarked q d decl hdecl hname
  | none =>
      have hresolve : ∀ cx : WalkContext, cx.resolve (u.root.startView p).pending
          (u.root.startView p).scopes id =
            cx.resolveGlobal (u.root.startView p).pending id.name := by
        intro cx
        rw [WalkContext.resolve, hfound]
      have hunseen : id.isLocal = true → id.isMarked = false →
          ∀ q d decl, u.root.Sees p q d decl → decl.name ≠ id.name := by
        intro hlocal hmarked
        refine Node.not_sees_of_lookup hp ?_
        simpa [hlocal, hmarked] using hfound
      rw [hresolve, hresolve, globals_agree_iff h hp]
      refine not_congr ⟨fun hglobal => ?_, fun hcaptured => ⟨hcaptured.meant, hcaptured.late⟩⟩
      exact ⟨hfirst, hrole, hunseen, hglobal.1, hglobal.2⟩

/-- What is not a use has the same outcome in every program. -/
theorem outcomeAt?_of_not_use (hrole : u.root.roleAt p ≠ .use) :
    u.root.outcomeAt? (u.walkContext config whole.tables) p id =
      u.root.outcomeAt? (u.walkContext config early.tables) p id := by
  have hdecl : (u.walkContext config whole.tables).table.declaration? id.name =
      (u.walkContext config early.tables).table.declaration? id.name := by
    rw [Program.declaration?_walkContext, Program.declaration?_walkContext]
  rw [Node.outcomeAt?, Node.outcomeAt?]
  cases h : u.root.roleAt p with
  | use => exact absurd h hrole
  | declared =>
      dsimp only
      rw [WalkContext.declare?, WalkContext.declare?, WalkContext.resolveDeclared?,
        WalkContext.resolveDeclared?, hdecl]
      rfl
  | imported => rfl
  | exported =>
      dsimp only
      rw [WalkContext.resolveExport, WalkContext.resolveExport, hdecl]
      rfl

/-- **Outcomes in a larger program**: an occurrence that is bound in a program is bound in the same
way in the larger one, unless it is captured. Imported names at the top level stand apart. -/
theorem outcomes_agree_iff (h : whole.Extends early) (hfirst : early.contains u.path = true)
    (hp : u.root.at? p = some (.identifier id)) :
    (∀ b, u.root.outcomeAt? (u.walkContext config early.tables) p id = some (.ok b) →
      u.root.outcomeAt? (u.walkContext config whole.tables) p id = some (.ok b)) ↔
      ¬ u.Captured early whole config p id := by
  by_cases hrole : u.root.roleAt p = .use
  · have houtcome : ∀ cx : WalkContext, u.root.outcomeAt? cx p id =
        some (cx.resolve (u.root.startView p).pending (u.root.startView p).scopes id) := by
      intro cx
      rw [Node.outcomeAt?, hrole]
    simp only [houtcome, Option.some.injEq]
    exact uses_agree_iff h hfirst hp hrole
  · rw [outcomeAt?_of_not_use hrole]
    exact ⟨fun _ hcaptured => hrole hcaptured.use, fun _ b hb => hb⟩

end SourceUnit

/-! ## two passes against one -/

/-- Filling an identifier twice gives what the second outcome alone gives, unless the first one
binds it in another way. -/
theorem Identifier.fill_fill_eq_iff {id : Identifier} (hid : id.binding = none)
    {outcome other : Option (Except Cause Binding)} :
    (id.fill outcome).fill other = id.fill other ↔
      ∀ b, outcome = some (.ok b) → other = some (.ok b) := by
  rcases outcome with _ | cause | b
  · simp
  · simp
  · have hbound : (id.fill (some (.ok b))).isBound = true := by
      rw [fill_ok hid]
      rfl
    rw [fill_of_isBound hbound, fill_ok hid]
    rcases other with _ | cause | b'
    · constructor
      · intro heq
        rw [fill_none] at heq
        rw [← heq] at hid
        cases hid
      · intro h
        cases h b rfl
    · constructor
      · intro heq
        rw [fill_error] at heq
        rw [← heq] at hid
        cases hid
      · intro h
        cases h b rfl
    · rw [fill_ok hid]
      simpa using eq_comm

namespace SourceUnit

variable {early whole : Program} {config : Config} {u : SourceUnit}

/-- An imported name gets the same binding, whether its module was there in the first pass or came
later. -/
theorem bindName_second_pass (h : whole.Extends early) {i j : Import} (hpath : j.path = i.path)
    {id : Identifier} (hid : id.binding = none) :
    j.bindName whole.tables (i.bindName early.tables id) = i.bindName whole.tables id := by
  rw [Import.bindName_bindName_eq_fill early.tables whole.tables hpath,
    Import.bindName_eq_fill whole.tables i, Identifier.fill_fill_eq_iff hid]
  intro b hb
  obtain ⟨location, hsite, heq⟩ := Option.map_eq_some_iff.mp hb
  have hoffers := h.offers (Import.site?_eq_some_iff.mp hsite)
  rw [Import.outcome?, Import.site?_eq_some_iff.mpr hoffers, Option.map_some, heq]

/-- What a first pass leaves at a position that is no imported name at the top level, seen by the
second pass. -/
theorem at?_bindImports_second_pass {p : Position} {id : Identifier}
    (hp : u.root.at? p = some (.identifier id)) (hnot : ∀ i, ¬ u.ImportsAt p i)
    (hstop : config.stopAtFirstUnresolved = false) :
    ((u.resolveNow config early.tables).unit.bindImports whole.tables).root.at? p =
      some (.identifier
        (id.fill (u.root.outcomeAt? (u.walkContext config early.tables) p id))) := by
  refine at?_bindImports (at?_resolveNow hp hnot hstop early.tables) (fun i hi => ?_) whole.tables
  obtain ⟨j, hj, -⟩ := exists_importsAt_of_skeleton (skeleton_resolveNow config early.tables u) hi
  exact hnot j hj

/-- **A second pass, positions**: after a pass in the smaller program and one in the larger, an
identifier of a fresh unit is what one pass in the larger program makes of it, unless it is
captured. -/
theorem at?_second_pass (h : whole.Extends early) (hfirst : early.contains u.path = true)
    (hfresh : u.IsFresh) (hstop : config.stopAtFirstUnresolved = false) {p : Position}
    {id : Identifier} (hp : u.root.at? p = some (.identifier id)) :
    ∃ now single, ((u.resolveNow config early.tables).unit.resolveNow config
        whole.tables).unit.root.at? p = some (.identifier now) ∧
      (u.resolveNow config whole.tables).unit.root.at? p = some (.identifier single) ∧
      (now = single ↔ ¬ u.Captured early whole config p id) := by
  have hid : id.binding = none := hfresh.unbound id (mem_identifiers.mpr ⟨p, hp⟩)
  have hskeleton := skeleton_resolveNow config early.tables u
  by_cases himport : ∃ i, u.ImportsAt p i
  · obtain ⟨i, hi⟩ := himport
    obtain ⟨j, hj, hpath, -⟩ := exists_importsAt_of_skeleton hskeleton.symm hi
    have hbefore := at?_resolveNow_of_importsAt hi hp config early.tables
    refine ⟨_, _, at?_resolveNow_of_importsAt hj hbefore config whole.tables,
      at?_resolveNow_of_importsAt hi hp config whole.tables, ?_⟩
    refine ⟨fun _ hcaptured => ?_, fun _ => bindName_second_pass h hpath hid⟩
    have himported := roleAt_of_importsAt hi
    rw [hcaptured.use] at himported
    cases himported
  · have hnot : ∀ i, ¬ u.ImportsAt p i := fun i hi => himport ⟨i, hi⟩
    have hbefore := at?_resolveNow hp hnot hstop early.tables
    have hnot' : ∀ i, ¬ (u.resolveNow config early.tables).unit.ImportsAt p i := by
      intro i hi
      obtain ⟨j, hj, -⟩ := exists_importsAt_of_skeleton hskeleton hi
      exact hnot j hj
    have houtcome : (u.resolveNow config early.tables).unit.root.skeleton = u.root.skeleton := by
      rw [← root_skeleton, hskeleton, root_skeleton]
    refine ⟨_, _, at?_resolveNow hbefore hnot' hstop whole.tables,
      at?_resolveNow hp hnot hstop whole.tables, ?_⟩
    rw [walkContext_of_skeleton hskeleton,
      Node.outcomeAt?_of_skeleton houtcome (Identifier.unbound_fill id _),
      Identifier.fill_fill_eq_iff hid]
    exact outcomes_agree_iff h hfirst hp

/-- If one pass in the larger program binds all captured uses, then the tree that the first pass
leaves is underway to what that pass makes of it. -/
theorem underway_second_pass (h : whole.Extends early) (hfirst : early.contains u.path = true)
    (hfresh : u.IsFresh) (hstop : config.stopAtFirstUnresolved = false)
    (hbound : ∀ p id single, u.root.at? p = some (.identifier id) →
      u.Captured early whole config p id →
      (u.resolveNow config whole.tables).unit.root.at? p = some (.identifier single) →
      single.isBound = true) :
    Node.Pointwise Identifier.Underway (u.bindImports whole.tables).root
      ((u.resolveNow config early.tables).unit.bindImports whole.tables).root
      ((u.bindImports whole.tables).root.walk (u.walkContext config whole.tables) none {}).1 := by
  intro p before now done hbefore hnow hdone
  obtain ⟨id, hp, -⟩ := exists_at?_of_skeleton (skeleton_bindImports whole.tables u) hbefore
  have hid : id.binding = none := hfresh.unbound id (mem_identifiers.mpr ⟨p, hp⟩)
  have hsingle : (u.resolveNow config whole.tables).unit.root.at? p = some (.identifier done) := by
    rw [walk_root] at hdone
    exact hdone
  by_cases himport : ∃ i, u.ImportsAt p i
  · obtain ⟨i, hi⟩ := himport
    obtain ⟨j, hj, hpath, -⟩ :=
      exists_importsAt_of_skeleton (skeleton_resolveNow config early.tables u).symm hi
    have hafter := at?_resolveNow_of_importsAt hi hp config early.tables
    have hnow' := at?_bindImports_of_importsAt hj hafter whole.tables
    rw [hnow, bindName_second_pass h hpath hid] at hnow'
    have hbefore' := at?_bindImports_of_importsAt hi hp whole.tables
    rw [hbefore] at hbefore'
    exact .inl (by simpa using hnow'.trans hbefore'.symm)
  · have hnot : ∀ i, ¬ u.ImportsAt p i := fun i hi => himport ⟨i, hi⟩
    obtain rfl : before = id := by
      rw [at?_bindImports hp hnot] at hbefore
      simpa using hbefore.symm
    obtain rfl : now =
        before.fill (u.root.outcomeAt? (u.walkContext config early.tables) p before) := by
      rw [at?_bindImports_second_pass hp hnot hstop] at hnow
      simpa using hnow.symm
    rcases before.fill_eq_or_isBound (u.root.outcomeAt? (u.walkContext config early.tables) p
      before) with hsame | hnowBound
    · exact .inl hsame
    · refine .inr ⟨hnowBound, ?_⟩
      by_cases hcaptured : u.Captured early whole config p before
      · exact hbound p before done hp hcaptured hsingle
      · -- The single pass binds it in the same way.
        have hagree := (Identifier.fill_fill_eq_iff hid).mpr
          ((outcomes_agree_iff h hfirst hp).mpr hcaptured)
        rw [Identifier.fill_of_isBound hnowBound] at hagree
        have hdone' := at?_resolveNow hp hnot hstop whole.tables
        rw [hsingle, ← hagree] at hdone'
        obtain rfl : done = _ := by simpa using hdone'
        exact hnowBound

/-- **A second pass, failures**: then the two passes leave the unit resolved exactly if the one pass
does. -/
theorem isResolved_second_pass (h : whole.Extends early) (hfirst : early.contains u.path = true)
    (hfresh : u.IsFresh) (hstop : config.stopAtFirstUnresolved = false)
    (hbound : ∀ p id single, u.root.at? p = some (.identifier id) →
      u.Captured early whole config p id →
      (u.resolveNow config whole.tables).unit.root.at? p = some (.identifier single) →
      single.isBound = true) :
    ((u.resolveNow config early.tables).unit.resolveNow config whole.tables).unit.isResolved =
      (u.resolveNow config whole.tables).unit.isResolved := by
  have hskeleton := skeleton_resolveNow config early.tables u
  have hwalked := walked_failures_of_underway hskeleton
    (underway_second_pass h hfirst hfresh hstop hbound)
  rw [isResolved_resolveNow, isResolved_resolveNow, foundFailures_of_walked hskeleton hwalked,
    programFailures_of_skeleton hskeleton]

/-- One pass that resolves a unit binds all uses in it. -/
theorem isBound_of_captured {p : Position} {id single : Identifier}
    (hresolved : (u.resolveNow config whole.tables).unit.isResolved = true)
    (hp : u.root.at? p = some (.identifier id)) (hcaptured : u.Captured early whole config p id)
    (hsingle : (u.resolveNow config whole.tables).unit.root.at? p = some (.identifier single)) :
    single.isBound = true := by
  obtain ⟨after, hafter, hfate⟩ := fate hp config whole.tables
  obtain rfl : after = single := by
    rw [hsingle] at hafter
    simpa using hafter.symm
  cases hbinding : after.binding with
  | some b => simp [Identifier.isBound, hbinding]
  | none =>
      have huse := hcaptured.use
      rcases skipped_of_isResolved hp hfate hbinding hresolved with ⟨hrole, -⟩ | ⟨hrole, -⟩
      · rw [hrole] at huse
        cases huse
      · rw [hrole] at huse
        cases huse

/-- Two outcomes for a unit, `v` and `w`, have the same identifier at each position except for
certain occurrences of the unit `u`; and `w` is resolved if `v` is and these are bound in `w`. -/
structure AgreesExcept (except : Position → Identifier → Prop) (u v w : SourceUnit) : Prop where
  identifiers : ∀ p id, u.root.at? p = some (.identifier id) →
    ∃ a b, v.root.at? p = some (.identifier a) ∧ w.root.at? p = some (.identifier b) ∧
      (a = b ↔ ¬ except p id)
  isResolved : w.isResolved = true ↔ v.isResolved = true ∧
    ∀ p id b, u.root.at? p = some (.identifier id) → except p id →
      w.root.at? p = some (.identifier b) → b.isBound = true

theorem agreesExcept_self {except : Position → Identifier → Prop} {v : SourceUnit}
    (hskeleton : v.skeleton = u.skeleton)
    (h : ∀ p id, u.root.at? p = some (.identifier id) → ¬ except p id) :
    AgreesExcept except u v v := by
  refine ⟨fun p id hp => ?_, fun hresolved => ⟨hresolved, fun p id b hp hexcept => ?_⟩,
    fun hresolved => hresolved.1⟩
  · obtain ⟨a, ha, -⟩ := exists_at?_of_skeleton hskeleton.symm hp
    exact ⟨a, a, ha, ha, fun _ => h p id hp, fun _ => rfl⟩
  · exact absurd hexcept (h p id hp)

/-- If all modules that a unit imports are there, a larger program gives the unit nothing else. -/
theorem resolve_of_known (h : whole.Extends early)
    (hknown : ∀ i ∈ u.importDecls, early.contains i.path = true) (config : Config) :
    u.resolve config early.tables = u.resolve config whole.tables := by
  refine resolve_congr (fun i hi => ?_) config
  refine Program.findsSame_tables ?_ fun id _ location =>
    ⟨h.offers, h.offers_early (hknown i hi)⟩
  obtain ⟨v, hv⟩ := Program.exists_unit?_of_mem_paths
    (Program.contains_eq_true_iff.mp (hknown i hi))
  rw [hknown i hi, Program.contains_of_unit? (h i.path v hv)]

/-- **Two passes against one**: a fresh unit that is in the smaller program becomes the same by a
pass there and one in the larger program as by one pass in the larger program, except for captured
uses. -/
theorem agreesExcept_captured (h : whole.Extends early) (hfirst : early.contains u.path = true)
    (hfresh : u.IsFresh) (hstop : config.stopAtFirstUnresolved = false) :
    AgreesExcept (u.Captured early whole config) u
      ((u.resolve config early.tables).unit.resolve config whole.tables).unit
      (u.resolve config whole.tables).unit := by
  rw [resolve_of_open hfresh.isResolved, resolve_of_open hfresh.isResolved]
  cases hafter : (u.resolveNow config early.tables).unit.isResolved with
  | true =>
      have hknown : ∀ i ∈ u.importDecls, early.contains i.path = true := by
        intro i hi
        rw [← Program.isKnown_tables]
        exact isKnown_of_isResolved hafter hi
      have hsame := resolve_of_known h hknown config
      rw [resolve_of_open hfresh.isResolved, resolve_of_open hfresh.isResolved] at hsame
      rw [resolve_of_isResolved hafter, hsame]
      refine agreesExcept_self (skeleton_resolveNow config whole.tables u)
        fun p id _ hcaptured => ?_
      obtain ⟨path, hnew, ⟨i, hi, rfl, -⟩, -⟩ := hcaptured.late
      rw [hknown i hi] at hnew
      cases hnew
  | false =>
      rw [resolve_of_open hafter]
      refine ⟨fun p id hp => at?_second_pass h hfirst hfresh hstop hp, fun hresolved => ?_, ?_⟩
      · have hbound : ∀ p id single, u.root.at? p = some (.identifier id) →
            u.Captured early whole config p id →
            (u.resolveNow config whole.tables).unit.root.at? p = some (.identifier single) →
            single.isBound = true :=
          fun p id single hp hcaptured hsingle =>
            isBound_of_captured hresolved hp hcaptured hsingle
        exact ⟨(isResolved_second_pass h hfirst hfresh hstop hbound).trans hresolved, hbound⟩
      · rintro ⟨hresolved, hbound⟩
        exact (isResolved_second_pass h hfirst hfresh hstop hbound).symm.trans hresolved

end SourceUnit

end NameResolution
