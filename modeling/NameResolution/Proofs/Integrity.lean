import NameResolution.Proofs.History

/-!
# Bindings refer to declarations

Whatever happens to a program whose identifiers start out unbound, a binding in it refers to a
declaration that is there: to the first declaration of the name among the nodes of a unit, to the
first declaration of the name in a block around the identifier, or to a builtin. What makes this an
invariant is that a reference is a matter of the skeletons of the units, which no action changes.

Main statements:

* `Program.refers_of_fate`: a pass binds identifiers to declarations;
* `Program.Integrity.perform`: one action keeps the invariant;
* `Program.run_refers`: every binding after a history refers to a declaration, and the namespace
  with the path and name of the declaration determines the binding.
-/

namespace NameResolution

/-- The binding of a name at the position `p` of the unit `u` refers to a declaration. A builtin
comes from one of the configurations in `used`. -/
inductive Program.Refers (P : Program) (used : Config → Prop) (u : SourceUnit) (p : Position)
    (name : String) : Binding → Prop where
  /-- The first declaration of the name among the nodes of the unit at `path`; if that is another
  unit, it exports the name and `u` imports it from there. -/
  | inModule {path : String} {v : SourceUnit} {location : Location} (hv : P.unit? path = some v)
      (hfirst : v.firstLocation? name = some location)
      (hforeign : path ≠ u.path → v.Exports name ∧ u.Imports path name) :
      P.Refers used u p name ⟨.module path, ⟨path, name, location⟩⟩
  /-- The first declaration of the name in a block around `p`; the number of the block is its index
  among all blocks of the unit in pre-order. -/
  | inScope {scope : UInt32} {q d : Position} {decl : Identifier}
      (hblock : u.root.blocks[scope.toNat]? = some q) (hencloses : Position.Above q p)
      (hfirst : u.root.FirstIn q d decl) (hname : decl.name = name) :
      P.Refers used u p name ⟨.scope scope, ⟨u.path, name, decl.info.location⟩⟩
  | builtin {config : Config} (hused : used config) (hname : name ∈ config.builtins) :
      P.Refers used u p name ⟨.builtin, ⟨Config.builtinPath, name, .nowhere⟩⟩

/-! ## references and skeletons -/

/-- Bindings play no part in what is declared first in a block. -/
theorem SourceUnit.exists_firstIn_of_skeleton {u v : SourceUnit} (h : u.skeleton = v.skeleton)
    {q d : Position} {decl : Identifier} (hfirst : u.root.FirstIn q d decl) :
    ∃ decl', v.root.FirstIn q d decl' ∧ decl.unbound = decl'.unbound := by
  have hskeleton : u.root.skeleton.FirstIn q d decl.unbound :=
    Node.firstIn_skeleton.mpr ⟨decl, hfirst, rfl⟩
  rw [← SourceUnit.root_skeleton, h, SourceUnit.root_skeleton] at hskeleton
  exact Node.firstIn_skeleton.mp hskeleton

namespace Program

variable {used : Config → Prop}

/-- A reference in a block is one in every unit with the same skeleton. -/
theorem refers_inScope {P : Program} {u v : SourceUnit} (h : u.skeleton = v.skeleton)
    {p q d : Position} {decl : Identifier} {scope : UInt32}
    (hblock : u.root.blocks[scope.toNat]? = some q) (hencloses : Position.Above q p)
    (hfirst : u.root.FirstIn q d decl) :
    P.Refers used v p decl.name ⟨.scope scope, ⟨v.path, decl.name, decl.info.location⟩⟩ := by
  obtain ⟨decl', hfirst', hunbound⟩ := SourceUnit.exists_firstIn_of_skeleton h hfirst
  rw [SourceUnit.blocks_of_skeleton h] at hblock
  rw [Identifier.info_eq_of_unbound hunbound]
  exact .inScope hblock hencloses hfirst' (Identifier.name_eq_of_unbound hunbound).symm

/-- An action changes no reference, and neither does a pass over the unit. -/
theorem Refers.perform {P : Program} (hpaths : P.paths.Nodup) {u v : SourceUnit} {p : Position}
    {name : String} {b : Binding} (h : P.Refers used u p name b)
    (hskeleton : u.skeleton = v.skeleton) (action : Action) :
    (P.perform action).Refers used v p name b := by
  have hpath : u.path = v.path := SourceUnit.path_of_skeleton hskeleton
  cases h with
  | inModule hv hfirst hforeign =>
      obtain ⟨v', hv', hsame⟩ := exists_unit?_perform hpaths action hv
      rw [SourceUnit.firstLocation?_of_skeleton hsame] at hfirst
      refine .inModule hv' hfirst fun hne => ?_
      rw [← hpath] at hne
      obtain ⟨hexports, himports⟩ := hforeign hne
      exact ⟨(SourceUnit.exports_of_skeleton hsame).mp hexports,
        (SourceUnit.imports_of_skeleton hskeleton).mp himports⟩
  | inScope hblock hencloses hfirst hname =>
      subst hname
      rw [hpath]
      exact refers_inScope hskeleton hblock hencloses hfirst
  | builtin hused hname => exact .builtin hused hname

/-! ## a pass binds to declarations -/

section

variable {P : Program} {config : Config} {u : SourceUnit} {p : Position}

/-- A reference to a top-level declaration of the unit itself. -/
theorem refers_own (hu : P.unit? u.path = some u) {tables : Tables} {name : String}
    {location : Location} (h : (u.importTable tables).declaration? name = some location) :
    P.Refers used u p name (.inModule u.path name location) := by
  rw [SourceUnit.declaration?_importTable] at h
  exact .inModule hu h fun hne => absurd rfl hne

/-- A reference to what another unit offers. -/
theorem refers_imported {i : Import} {name : String} {location : Location}
    (hsite : i.site? P.tables name = some location) (himports : u.Imports i.path name) :
    P.Refers used u p name (.inModule i.path name location) := by
  obtain ⟨v, hv, hexports, hfirst⟩ := Import.exists_of_site? hsite
  exact .inModule hv hfirst fun _ => ⟨hexports, himports⟩

/-- Outside all blocks a name means a declaration of the unit, an imported one or a builtin. -/
theorem refers_of_means (hu : P.unit? u.path = some u) (hused : used config) {circular : Prop}
    {name : String} {b : Binding}
    (h : (u.walkContext config P.tables).Means circular name (.ok b)) :
    P.Refers used u p name b := by
  cases h with
  | declared hdecl _ _ => exact refers_own hu hdecl
  | @imported entry _ himports =>
      have hmem : entry ∈ (u.importTable P.tables).importsOf name := by
        rw [show (u.importTable P.tables).importsOf name = [entry] from himports]
        exact List.mem_singleton_self entry
      obtain ⟨hlists, i, hpath, hsite⟩ := SourceUnit.exists_of_mem_importsOf hmem
      rw [← hpath] at hlists ⊢
      exact refers_imported hsite hlists
  | builtin _ _ hbuiltin => exact .builtin hused hbuiltin

/-- What the walk answers to an occurrence is a declaration. -/
theorem refers_of_answer (hu : P.unit? u.path = some u) (hused : used config)
    (hsize : u.root.blocks.length < UInt32.size) {id : Identifier} {b : Binding}
    {outcome : Except Cause Binding}
    (h : (u.bindImports P.tables).root.Answer (u.walkContext config P.tables) p id outcome)
    (hok : outcome = .ok b) : P.Refers used u p id.name b := by
  have hskeleton := SourceUnit.skeleton_bindImports P.tables u
  rw [← SourceUnit.blocks_of_skeleton hskeleton] at hsize
  cases h with
  | used _ hmeans =>
      have hmeans := hmeans hsize
      rw [hok] at hmeans
      cases hmeans with
      | inBlock _ _ hfinds hscope =>
          rw [← hfinds.name_eq]
          exact refers_inScope hskeleton hscope hfinds.sees.encloses hfinds.firstIn
      | global _ hmeans => exact refers_of_means hu hused hmeans
  | exported _ =>
      unfold WalkContext.resolveExport at hok
      split at hok
      · next location hdecl =>
          cases hok
          exact refers_own hu hdecl
      · cases hok
  | declared _ _ _ htable =>
      cases hok
      exact refers_own hu htable
  | undeclared _ _ _ _ => cases hok
  | @inBlock q d _ hp hfirst hscope =>
      cases hok
      have hencloses : Position.Above q p := by
        rw [hp]
        exact Position.above_concat_iff.mpr hfirst.directlyIn.above.1
      exact refers_inScope hskeleton (hscope hsize) hencloses hfirst
  | repeated _ _ _ => cases hok

/-- **References of a pass**: what a pass binds, it binds to a declaration. -/
theorem refers_of_fate (hu : P.unit? u.path = some u) (hused : used config)
    (hsize : u.root.blocks.length < UInt32.size) {id after : Identifier} {b : Binding}
    (hp : u.root.at? p = some (.identifier id)) (hfate : u.Fate config P.tables p id after)
    (hid : id.binding = none) (hafter : after.binding = some b) :
    P.Refers used u p id.name b := by
  have hchanged : after ≠ id := by
    rintro rfl
    rw [hid] at hafter
    cases hafter
  cases hfate with
  | @imported i hi heq =>
      rcases i.bindName_cases P.tables id with ⟨hsame, -⟩ | ⟨-, location, hsite, hbound⟩
      · exact absurd (heq.trans hsame) hchanged
      · obtain ⟨hmem, hname⟩ := SourceUnit.mem_of_importsAt hi hp
        obtain rfl : .inModule i.path id.name location = b := by
          rw [heq, hbound] at hafter
          exact Option.some.inj hafter
        exact refers_imported hsite ⟨i, hmem, rfl, id, hname, rfl⟩
  | walked _ hfate =>
      rcases hfate.eq_or_answered with hsame | ⟨-, outcome, hanswer, hsettled⟩
      · exact absurd hsame hchanged
      · exact refers_of_answer hu hused hsize hanswer (hsettled.outcome_eq hid hafter)

end

/-! ## histories -/

/-- The invariant of a history: every binding refers to a declaration. -/
structure Integrity (P : Program) (used : Config → Prop) : Prop where
  paths : P.paths.Nodup
  size : ∀ u ∈ P.units, u.root.blocks.length < UInt32.size
  refers : ∀ u ∈ P.units, ∀ p id b, u.root.at? p = some (.identifier id) →
    id.binding = some b → P.Refers used u p id.name b

end Program

/-- No identifier of the unit is bound, and its blocks can be numbered. -/
structure SourceUnit.IsUnbound (u : SourceUnit) : Prop where
  unbound : ∀ id ∈ u.identifiers, id.binding = none
  size : u.root.blocks.length < UInt32.size

namespace Program

variable {used : Config → Prop}

/-- A unit without bindings has nothing to refer to. -/
theorem refers_of_isUnbound {P : Program} {u : SourceUnit} (h : u.IsUnbound) {p : Position}
    {id : Identifier} {b : Binding} (hp : u.root.at? p = some (.identifier id))
    (hb : id.binding = some b) : P.Refers used u p id.name b := by
  rw [h.unbound id (SourceUnit.mem_identifiers.mpr ⟨p, hp⟩)] at hb
  cases hb

/-- A program without bindings has integrity. -/
theorem integrity_of_isUnbound {P : Program} (hpaths : P.paths.Nodup)
    (h : ∀ u ∈ P.units, u.IsUnbound) (used : Config → Prop) : P.Integrity used where
  paths := hpaths
  size u hu := (h u hu).size
  refers u hu _ _ _ hp hb := refers_of_isUnbound (h u hu) hp hb

/-- Every binding of a unit after a pass was there before or refers to a declaration. -/
theorem Integrity.refers_resolve {P : Program} (h : P.Integrity used) {config : Config}
    (hused : used config) {u : SourceUnit} (hu : u ∈ P.units) {p : Position} {id : Identifier}
    {b : Binding} (hp : (u.resolve config P.tables).unit.root.at? p = some (.identifier id))
    (hb : id.binding = some b) : P.Refers used u p id.name b := by
  have hunit : P.unit? u.path = some u := (unit?_eq_some_iff h.paths).mpr ⟨hu, rfl⟩
  cases hopen : u.isResolved with
  | true =>
      rw [SourceUnit.resolve, hopen, if_pos rfl] at hp
      exact h.refers u hu p id b hp hb
  | false =>
      rw [SourceUnit.resolve, hopen, if_neg Bool.false_ne_true] at hp
      obtain ⟨before, hbefore, hunbound, hfate⟩ := SourceUnit.exists_fate hp
      rw [← Identifier.name_eq_of_unbound hunbound]
      cases hbinding : before.binding with
      | none => exact refers_of_fate hunit hused (h.size u hu) hbefore hfate hbinding hb
      | some b' =>
          have hkept : id = before := hfate.eq_of_binding hbinding
          subst hkept
          exact h.refers u hu p id b hbefore hb

/-- **Integrity, one action**: adding a unit without bindings or running the resolver keeps the
invariant. -/
theorem Integrity.perform {P : Program} (h : P.Integrity used) {action : Action}
    (hinsert : ∀ store u, action = .insert store u → u.IsUnbound)
    (hused : ∀ config, action = .resolve config → used config) :
    (P.perform action).Integrity used := by
  refine ⟨nodup_paths_perform h.paths action, ?_, ?_⟩
  · intro u hu
    rcases mem_units_perform hu with hold | ⟨store, rfl⟩ | ⟨config, rfl, v, hv, rfl⟩
    · exact h.size u hold
    · exact (hinsert store u rfl).size
    · rw [SourceUnit.blocks_of_skeleton (SourceUnit.skeleton_resolve config P.tables v)]
      exact h.size v hv
  · intro u hu p id b hp hb
    rcases mem_units_perform hu with hold | ⟨store, rfl⟩ | ⟨config, rfl, v, hv, rfl⟩
    · exact (h.refers u hold p id b hp hb).perform h.paths rfl action
    · exact refers_of_isUnbound (hinsert store u rfl) hp hb
    · have hskeleton := SourceUnit.skeleton_resolve config P.tables v
      exact (h.refers_resolve (hused config rfl) hv hp hb).perform h.paths hskeleton.symm _

/-- Integrity survives any history that inserts unbound units. -/
theorem Integrity.run {P : Program} (h : P.Integrity used) {actions : List Action}
    (hinsert : ∀ store u, .insert store u ∈ actions → u.IsUnbound)
    (hused : ∀ config, .resolve config ∈ actions → used config) :
    (P.run actions).Integrity used := by
  induction actions generalizing P with
  | nil => exact h
  | cons action actions ih =>
      have hstep : (P.perform action).Integrity used :=
        h.perform (fun store u heq => hinsert store u (by simp [heq]))
          (fun config heq => hused config (by simp [heq]))
      exact ih hstep (fun store u hmem => hinsert store u (List.mem_cons_of_mem _ hmem))
        (fun config hmem => hused config (List.mem_cons_of_mem _ hmem))

/-! ## what determines a binding -/

/-- Of two references to one namespace, the path and name of the declaration decide whether they
are the same. -/
theorem Refers.unique {P : Program} (hpaths : P.paths.Nodup) {u v : SourceUnit}
    (hu : u ∈ P.units) (hv : v ∈ P.units) {p p' : Position} {name name' : String}
    {b b' : Binding} (h : P.Refers used u p name b) (h' : P.Refers used v p' name' b')
    (hspace : b.space = b'.space) (hpath : b.declaration.path = b'.declaration.path)
    (hname : b.declaration.name = b'.declaration.name) : b = b' := by
  cases h with
  | inModule hw hfirst _ =>
      cases h' with
      | inModule hw' hfirst' _ =>
          cases hpath
          cases hname
          rw [hw] at hw'
          cases hw'
          rw [hfirst] at hfirst'
          cases hfirst'
          rfl
      | inScope _ _ _ _ => cases hspace
      | builtin _ _ => cases hspace
  | inScope hblock _ hfirst hdecl =>
      cases h' with
      | inModule _ _ _ => cases hspace
      | inScope hblock' _ hfirst' hdecl' =>
          -- Scopes are numbered per unit; the path tells the units apart.
          obtain rfl : u = v := List.inj_on_of_nodup_map hpaths hu hv hpath
          cases hspace
          cases hname
          rw [hblock] at hblock'
          cases hblock'
          rw [hfirst.unique hfirst' (hdecl'.trans hdecl.symm)]
      | builtin _ _ => cases hspace
  | builtin _ _ =>
      cases h' with
      | inModule _ _ _ => cases hspace
      | inScope _ _ _ _ => cases hspace
      | builtin _ _ =>
          cases hname
          rfl

/-- **Referential integrity**: in a history that starts without bindings, adds units without
bindings and runs the resolver with any configurations, every binding refers to a declaration under
the identifier's own name. The namespace with the path and name of the declaration determines the
whole binding. -/
theorem run_refers (P : Program) (actions : List Action) (hpaths : P.paths.Nodup)
    (hstart : ∀ u ∈ P.units, u.IsUnbound)
    (hinsert : ∀ store u, .insert store u ∈ actions → u.IsUnbound) :
    (∀ u ∈ (P.run actions).units, ∀ p id b, u.root.at? p = some (.identifier id) →
      id.binding = some b →
      (P.run actions).Refers (fun config => .resolve config ∈ actions) u p id.name b) ∧
    ∀ id ∈ (P.run actions).identifiers, ∀ id' ∈ (P.run actions).identifiers, ∀ b b',
      id.binding = some b → id'.binding = some b' → b.space = b'.space →
      b.declaration.path = b'.declaration.path → b.declaration.name = b'.declaration.name →
      b = b' := by
  have hrun : (P.run actions).Integrity (fun config => .resolve config ∈ actions) :=
    (integrity_of_isUnbound hpaths hstart _).run hinsert fun _ hmem => hmem
  refine ⟨hrun.refers, ?_⟩
  intro id hid id' hid' b b' hb hb'
  obtain ⟨u, hu, hmem⟩ := List.mem_flatMap.mp hid
  obtain ⟨v, hv, hmem'⟩ := List.mem_flatMap.mp hid'
  obtain ⟨p, hp⟩ := SourceUnit.mem_identifiers.mp hmem
  obtain ⟨p', hp'⟩ := SourceUnit.mem_identifiers.mp hmem'
  exact (hrun.refers u hu p id b hp hb).unique hrun.paths hu hv
    (hrun.refers v hv p' id' b' hp' hb')

end Program

/-- `import { x } from "b.ql"; { var y; y; x; print }`: a name of each namespace. -/
def referring : SourceUnit where
  source := { id := 0, name := "a.ql", kind := .module, lineStarts := [0] }
  imports := [.importDecl { location := ⟨1, 1, 0, 25⟩ } "b.ql" [.plain "x" 9] none]
  nodes :=
    [.block { location := ⟨1, 27, 26, 22⟩ }
      [.varDecl { location := ⟨1, 29, 28, 6⟩ } (.plain "y" 32) none false,
        .identifier (.plain "y" 35), .identifier (.plain "x" 38), .identifier (.plain "print" 41)]]

/-- The program of the module `b.ql` alone, which offers `x` to units that come later. -/
def library : Program where
  entry := "a.ql"
  entryKind := .module
  sources := [exporting]

/-- The importing unit comes after a first pass, and a second one follows. -/
def referringHistory : List Action :=
  [.resolve {}, .insert .sources referring, .resolve { builtins := ["print"] }]

/-- The three names used in the block refer to an exported declaration, to the declaration in the
block and to a builtin. -/
theorem refers_referring :
    ∃ u ∈ (library.run referringHistory).units, u.path = "a.ql" ∧
      (library.run referringHistory).Refers (fun config => .resolve config ∈ referringHistory) u
        [1, 2] "x" (.inModule "b.ql" "x" ⟨1, 5, 4, 1⟩) ∧
      (library.run referringHistory).Refers (fun config => .resolve config ∈ referringHistory) u
        [1, 1] "y" (.inScope 0 "a.ql" "y" ⟨1, 33, 32, 1⟩) ∧
      (library.run referringHistory).Refers (fun config => .resolve config ∈ referringHistory) u
        [1, 3] "print" ⟨.builtin, ⟨Config.builtinPath, "print", .nowhere⟩⟩ := by
  have hpaths : library.paths.Nodup := List.nodup_singleton "b.ql"
  have hstart : ∀ u ∈ library.units, u.IsUnbound := by
    intro u hu
    obtain rfl : u = exporting := List.mem_singleton.mp hu
    exact ⟨by decide, by decide⟩
  have hinsert : ∀ store u, .insert store u ∈ referringHistory → u.IsUnbound := by
    intro store u hmem
    obtain ⟨-, rfl⟩ : store = .sources ∧ u = referring := by
      simpa [referringHistory] using hmem
    exact ⟨by decide, by decide⟩
  obtain ⟨hrefers, -⟩ := Program.run_refers library referringHistory hpaths hstart hinsert
  have hunits : (library.run referringHistory).units[1]? =
      some (((library.run referringHistory).units[1]?).getD default) := rfl
  have hmem := List.mem_of_getElem? hunits
  refine ⟨_, hmem, rfl, ?_, ?_, ?_⟩
  · exact hrefers _ hmem [1, 2] _ _ rfl rfl
  · exact hrefers _ hmem [1, 1] _ _ rfl rfl
  · exact hrefers _ hmem [1, 3] _ _ rfl rfl

end NameResolution
