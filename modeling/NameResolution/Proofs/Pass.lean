import NameResolution.Proofs.Fate
import NameResolution.Proofs.Tables

/-!
# What a pass does to a unit

A pass binds the imports of a unit, walks the unit and records what it found. This module puts the
phases together: what becomes of each occurrence of the unit, and why an occurrence can be left
unbound.

Main statements:

* `SourceUnit.skeleton_resolve`: a pass only binds identifiers and records diagnostics;
* `SourceUnit.fate`: what a pass does to an occurrence;
* `SourceUnit.unbound_cases`: an occurrence that is left unbound by a pass that does not halt is
  reported, or belongs to the import of an unknown module, or is one of the two kinds of
  occurrences that no phase deals with;
* `Program.units_resolve`: a pass treats every unit by itself.
-/

namespace NameResolution

namespace SourceUnit

/-! ## imports at the top level -/

/-- A name of the import declaration `i` at the top level of the unit stands at `p`. -/
def ImportsAt (u : SourceUnit) (p : Position) (i : Import) : Prop :=
  ∃ k j n, p = [k, j] ∧ u.topLevel[k]? = some n ∧ n.import? = some i

/-- The imports of a unit are bound node by node. -/
theorem topLevel_bindImports (tables : Tables) (u : SourceUnit) :
    (u.bindImports tables).topLevel = u.topLevel.map (·.bindImport tables) := by
  simp [bindImports, topLevel]

/-- Every top-level node stands below the root. -/
theorem at?_root_cons {u : SourceUnit} {k : Nat} {n : Node} (h : u.topLevel[k]? = some n)
    (p : Position) : u.root.at? (k :: p) = n.at? p := by
  rw [Node.at?_cons, children_root, h, Option.bind_some]

/-- A name of a top-level import belongs to a declaration that the pass knows. -/
theorem mem_of_importsAt {u : SourceUnit} {p : Position} {i : Import} {id : Identifier}
    (h : u.ImportsAt p i) (hp : u.root.at? p = some (.identifier id)) :
    i ∈ u.importDecls ∧ id ∈ i.names := by
  obtain ⟨k, j, n, rfl, hk, hn⟩ := h
  refine ⟨List.mem_filterMap.mpr ⟨n, List.mem_of_getElem? hk, hn⟩, ?_⟩
  rw [at?_root_cons hk] at hp
  cases n with
  | importDecl info path names asName =>
      obtain rfl : Import.mk info.location path names = i := by simpa [Node.import?] using hn
      have hj : names[j]? = some id := by simpa [Node.children] using hp
      exact List.mem_of_getElem? hj
  | _ => simp [Node.import?] at hn

theorem roleAt_of_importsAt {u : SourceUnit} {p : Position} {i : Import} (h : u.ImportsAt p i) :
    u.root.roleAt p = .imported := by
  obtain ⟨k, j, n, rfl, hk, hn⟩ := h
  have hroot : u.root.at? [k] = some n := at?_root_cons hk []
  rw [← List.singleton_append, Node.roleAt_concat hroot]
  cases n <;> simp_all [Node.import?, Node.childRole]

/-- An imported name that does not stand at the top level stands deeper. -/
theorem length_of_roleAt {u : SourceUnit} {p : Position} {id : Identifier}
    (hp : u.root.at? p = some (.identifier id)) (hrole : u.root.roleAt p = .imported)
    (hnot : ∀ i, ¬ u.ImportsAt p i) : 2 < p.length := by
  obtain ⟨q, j, info, path, names, asName, rfl, hq, -⟩ := Node.importDecl_of_roleAt hp hrole
  rcases q with _ | ⟨k, _ | ⟨l, q⟩⟩
  · simp [root] at hq
  · have hk : u.topLevel[k]? = some (.importDecl info path names asName) := by
      simpa [root, Node.children] using hq
    exact absurd ⟨k, j, _, rfl, hk, rfl⟩ (hnot ⟨info.location, path, names⟩)
  · simp

/-- Units with one skeleton have the same import declarations at the same positions. -/
theorem exists_importsAt_of_skeleton {u v : SourceUnit} (h : u.skeleton = v.skeleton)
    {p : Position} {i : Import} (hi : u.ImportsAt p i) :
    ∃ i', v.ImportsAt p i' ∧ i'.path = i.path ∧ i'.location = i.location := by
  obtain ⟨k, j, n, rfl, hk, hn⟩ := hi
  have htop : v.topLevel.map Node.skeleton = u.topLevel.map Node.skeleton := by
    rw [← topLevel_skeleton, ← topLevel_skeleton, h]
  have hskeleton : (v.topLevel[k]?).map Node.skeleton = some n.skeleton := by
    rw [← List.getElem?_map, htop, List.getElem?_map, hk]
    rfl
  obtain ⟨n', hk', heq⟩ := Option.map_eq_some_iff.mp hskeleton
  have himport : n'.import?.map (·.unbound) = some i.unbound := by
    rw [← Node.import?_skeleton, heq, Node.import?_skeleton, hn]
    rfl
  obtain ⟨i', hn', hunbound⟩ := Option.map_eq_some_iff.mp himport
  have hpath : i'.unbound.path = i.unbound.path := by rw [hunbound]
  have hlocation : i'.unbound.location = i.unbound.location := by rw [hunbound]
  exact ⟨i', ⟨k, j, n', rfl, hk', hn'⟩, hpath, hlocation⟩

/-! ## binding imports -/

/-- The names of an import declaration at the top level are bound. -/
theorem at?_bindImports_of_importsAt {u : SourceUnit} {p : Position} {i : Import} {id : Identifier}
    (h : u.ImportsAt p i) (hp : u.root.at? p = some (.identifier id)) (tables : Tables) :
    (u.bindImports tables).root.at? p = some (.identifier (i.bindName tables id)) := by
  obtain ⟨k, j, n, rfl, hk, hn⟩ := h
  have hk' : (u.bindImports tables).topLevel[k]? = some (n.bindImport tables) := by
    rw [topLevel_bindImports, List.getElem?_map, hk, Option.map_some]
  rw [at?_root_cons hk] at hp
  rw [at?_root_cons hk']
  cases n with
  | importDecl info path names asName =>
      obtain rfl : Import.mk info.location path names = i := by simpa [Node.import?] using hn
      have hj : names[j]? = some id := by simpa [Node.children] using hp
      simp [Node.bindImport, Node.children, hj]
  | _ => simp [Node.import?] at hn

/-- All other occurrences are left as they are. -/
theorem at?_bindImports {u : SourceUnit} {p : Position} {id : Identifier}
    (hp : u.root.at? p = some (.identifier id)) (h : ∀ i, ¬ u.ImportsAt p i) (tables : Tables) :
    (u.bindImports tables).root.at? p = some (.identifier id) := by
  cases p with
  | nil => simp [root] at hp
  | cons k p =>
      obtain ⟨n, hk, hn⟩ := Option.bind_eq_some_iff.mp hp
      have hk' : (u.bindImports tables).topLevel[k]? = some (n.bindImport tables) := by
        rw [topLevel_bindImports, List.getElem?_map]
        exact congrArg (Option.map _) hk
      rw [at?_root_cons hk']
      cases n with
      | importDecl info path names asName =>
          rcases p with _ | ⟨j, _ | ⟨l, p⟩⟩
          · simp at hn
          · exact absurd ⟨k, j, _, rfl, hk, rfl⟩ (h ⟨info.location, path, names⟩)
          · -- An identifier has nothing below it.
            obtain ⟨c, hj, hc⟩ := Option.bind_eq_some_iff.mp hn
            obtain ⟨d, hl, -⟩ := Option.bind_eq_some_iff.mp hc
            have hrole := Node.childRole_of_children hj hl
            simp [Node.childRole] at hrole
      | _ => exact hn

end SourceUnit

/-- Binding an imported name: it is left as it is, or bound to what its module offers. -/
theorem Import.bindName_cases (tables : Tables) (i : Import) (id : Identifier) :
    (i.bindName tables id = id ∧ (id.isBound = true ∨ i.site? tables id.name = none)) ∨
      (id.binding = none ∧ ∃ location, i.site? tables id.name = some location ∧
        i.bindName tables id =
          { id with binding := some (.inModule i.path id.name location) }) := by
  cases hsite : i.site? tables id.name with
  | none => exact .inl ⟨by rw [Import.bindName, hsite], .inr rfl⟩
  | some location =>
      cases hbinding : id.binding with
      | none =>
          refine .inr ⟨rfl, location, rfl, ?_⟩
          rw [Import.bindName, hsite]
          dsimp only
          rw [Identifier.bind_of_binding hbinding]
      | some b =>
          refine .inl ⟨?_, .inl (by simp [Identifier.isBound, hbinding])⟩
          have hkept : id.bind (.inModule i.path id.name location) =
              .error (.alreadyBound id.info.location id.name) := by
            rw [Identifier.bind, hbinding]
            rfl
          rw [Import.bindName, hsite]
          dsimp only
          rw [hkept]

namespace SourceUnit

/-! ## the phases of a pass -/

/-- The unit after its imports are bound and it is walked, and the state of the walk. -/
def walked (config : Config) (tables : Tables) (u : SourceUnit) : SourceUnit × Walker :=
  (u.bindImports tables).walk (u.walkContext config tables)

/-- All failures that a pass finds in a unit. -/
def foundFailures (config : Config) (tables : Tables) (u : SourceUnit) : List Failure :=
  u.collect.duplicates ++ u.importDecls.flatMap (·.failures tables) ++
    (u.walked config tables).2.failures

theorem root_resolveNow (config : Config) (tables : Tables) (u : SourceUnit) :
    (u.resolveNow config tables).unit.root = (u.walked config tables).1.root := rfl

theorem isResolved_resolveNow (config : Config) (tables : Tables) (u : SourceUnit) :
    (u.resolveNow config tables).unit.isResolved = ((u.foundFailures config tables).isEmpty &&
      (u.importDecls.flatMap (·.programFailures tables u.path)).isEmpty) := rfl

/-- A unit that a pass leaves resolved has no failures. -/
theorem failures_of_isResolved {config : Config} {tables : Tables} {u : SourceUnit}
    (h : (u.resolveNow config tables).unit.isResolved = true) :
    u.foundFailures config tables = [] ∧
      u.importDecls.flatMap (·.programFailures tables u.path) = [] := by
  simpa [isResolved_resolveNow] using h

/-- If a pass resolves a unit, the walk has not failed. -/
theorem walked_failures_of_isResolved {config : Config} {tables : Tables} {u : SourceUnit}
    (h : (u.resolveNow config tables).unit.isResolved = true) :
    (u.walked config tables).2.failures = [] :=
  (List.append_eq_nil_iff.mp (failures_of_isResolved h).1).2

/-- A unit that a pass leaves resolved imports only modules that are there. -/
theorem isKnown_of_isResolved {config : Config} {tables : Tables} {u : SourceUnit}
    (h : (u.resolveNow config tables).unit.isResolved = true) {i : Import}
    (hi : i ∈ u.importDecls) : i.isKnown tables = true := by
  have hnone := List.flatMap_eq_nil_iff.mp (failures_of_isResolved h).2 i hi
  rw [Import.programFailures] at hnone
  split at hnone
  · assumption
  · cases hnone

/-- The walk changes nothing but bindings. -/
theorem skeleton_walked (config : Config) (tables : Tables) (u : SourceUnit) :
    (u.walked config tables).1.skeleton = u.skeleton := by
  rw [walked, skeleton_walk, skeleton_bindImports]

/-- A pass only binds identifiers and records diagnostics. -/
theorem skeleton_resolve (config : Config) (tables : Tables) (u : SourceUnit) :
    (u.resolve config tables).unit.skeleton = u.skeleton := by
  unfold resolve
  split
  · rfl
  · exact skeleton_walked config tables u

theorem path_resolve (config : Config) (tables : Tables) (u : SourceUnit) :
    (u.resolve config tables).unit.path = u.path :=
  path_of_skeleton (skeleton_resolve config tables u)

/-- Without a cap every failure is recorded. -/
theorem mem_diagnostics_resolveNow {config : Config} (hcap : config.maxDiagnosticsPerUnit = none)
    {tables : Tables} {u : SourceUnit} {f : Failure} (hf : f ∈ u.foundFailures config tables) :
    f.diagnostic ∈ (u.resolveNow config tables).unit.diagnostics := by
  have hdiagnostics : (u.resolveNow config tables).unit.diagnostics =
      ((u.walked config tables).1.record config.maxDiagnosticsPerUnit
        (u.foundFailures config tables)).diagnostics := rfl
  rw [hdiagnostics, hcap]
  refine Diagnostic.mem_pushAllNew.mpr (.inr (List.mem_map.mpr ⟨f, ?_, rfl⟩))
  exact (perm_sortBy _ _).mem_iff.mpr hf

/-! ## the fate of an occurrence -/

/-- What a pass makes of an occurrence. -/
inductive Fate (config : Config) (tables : Tables) (u : SourceUnit) (p : Position)
    (id after : Identifier) : Prop where
  | imported {i : Import} (hi : u.ImportsAt p i) (hafter : after = i.bindName tables id)
  | walked (hnot : ∀ i, ¬ u.ImportsAt p i)
      (hfate : (u.bindImports tables).root.Fate (u.walkContext config tables) p id after
        (u.walked config tables).2)

end SourceUnit

/-- The walk does not touch an imported name. -/
theorem Node.Fate.eq_of_imported {cx : WalkContext} {n : Node} {p : Position}
    {id after : Identifier} {w : Walker} (h : n.Fate cx p id after w)
    (hrole : n.roleAt p = .imported) : after = id := by
  have hother : ∀ {d : Position} {decl : Identifier}, p = d ++ [0] →
      n.declaredAt? d = some decl → False := by
    rintro d decl rfl hdecl
    rw [roleAt_of_declaredAt? hdecl] at hrole
    cases hrole
  rcases h.eq_or_answered with hsame | ⟨-, outcome, hanswer, -⟩
  · exact hsame
  · cases hanswer with
    | used hrole' _ => rw [hrole] at hrole'; cases hrole'
    | exported hrole' => rw [hrole] at hrole'; cases hrole'
    | declared hp hdecl _ _ => exact (hother hp hdecl).elim
    | undeclared hp hdecl _ _ => exact (hother hp hdecl).elim
    | inBlock hp hfirst _ => exact (hother hp hfirst.declared).elim
    | repeated hp hdecl _ => exact (hother hp hdecl).elim

namespace SourceUnit

/-- **Fates in a pass**: what becomes of an occurrence in a unit that is not resolved. -/
theorem fate {u : SourceUnit} {p : Position} {id : Identifier}
    (hp : u.root.at? p = some (.identifier id)) (config : Config) (tables : Tables) :
    ∃ after, (u.resolveNow config tables).unit.root.at? p = some (.identifier after) ∧
      u.Fate config tables p id after := by
  rw [root_resolveNow]
  have hroot := walk_root (u.walkContext config tables) (u.bindImports tables)
  by_cases himport : ∃ i, u.ImportsAt p i
  · obtain ⟨i, hi⟩ := himport
    have hbound := at?_bindImports_of_importsAt hi hp tables
    obtain ⟨after, hafter, hfate⟩ := Node.fate hbound (u.walkContext config tables)
    rw [hroot] at hafter
    have hrole : (u.bindImports tables).root.roleAt p = .imported := by
      rw [roleAt_of_skeleton (skeleton_bindImports tables u), roleAt_of_importsAt hi]
    exact ⟨after, hafter, .imported hi (hfate.eq_of_imported hrole)⟩
  · have hnot : ∀ i, ¬ u.ImportsAt p i := fun i hi => himport ⟨i, hi⟩
    obtain ⟨after, hafter, hfate⟩ :=
      Node.fate (at?_bindImports hp hnot tables) (u.walkContext config tables)
    rw [hroot] at hafter hfate
    exact ⟨after, hafter, .walked hnot hfate⟩

/-- An identifier that is bound stays as it is. -/
theorem Fate.eq_of_binding {u : SourceUnit} {config : Config} {tables : Tables} {p : Position}
    {id after : Identifier} {b : Binding} (h : u.Fate config tables p id after)
    (hid : id.binding = some b) : after = id := by
  cases h with
  | @imported i _ hafter =>
      rcases i.bindName_cases tables id with ⟨hsame, -⟩ | ⟨hnone, -⟩
      · exact hafter.trans hsame
      · rw [hid] at hnone
        cases hnone
  | walked _ hfate =>
      rcases hfate.eq_or_answered with hsame | ⟨hnone, -⟩
      · exact hsame
      · rw [hid] at hnone
        cases hnone

/-- An occurrence after a pass was there before, and the pass made of it what it is. -/
theorem exists_fate {u : SourceUnit} {p : Position} {id : Identifier} {config : Config}
    {tables : Tables} (hp : (u.resolveNow config tables).unit.root.at? p = some (.identifier id)) :
    ∃ before, u.root.at? p = some (.identifier before) ∧ before.unbound = id.unbound ∧
      u.Fate config tables p before id := by
  obtain ⟨before, hbefore, hunbound⟩ :=
    exists_at?_of_skeleton (skeleton_walked config tables u) hp
  obtain ⟨after, hafter, hfate⟩ := fate hbefore config tables
  obtain rfl : id = after := by
    rw [hp] at hafter
    simpa using hafter
  exact ⟨before, hbefore, hunbound, hfate⟩

/-! ## what is left unbound -/

/-- A declared name that no phase deals with: it stands outside all blocks, and the unit's first
declaration of the name is another one, at another location. -/
def Overlooked (u : SourceUnit) (p : Position) (id : Identifier) : Prop :=
  u.root.roleAt p = .declared ∧ u.root.OutsideBlocks p ∧
    ∃ location, u.firstLocation? id.name = some location ∧ location ≠ id.info.location

/-- Whether a name is overlooked is a matter of the skeleton. -/
theorem overlooked_of_skeleton {u v : SourceUnit} (h : u.skeleton = v.skeleton) {p : Position}
    {id id' : Identifier} (hid : id.unbound = id'.unbound) :
    u.Overlooked p id ↔ v.Overlooked p id' := by
  rw [Overlooked, Overlooked, roleAt_of_skeleton h, outsideBlocks_of_skeleton h,
    firstLocation?_of_skeleton h, Identifier.name_eq_of_unbound hid,
    Identifier.info_eq_of_unbound hid]

end SourceUnit

/-- The failure of a look-up names the identifier. -/
theorem WalkContext.name?_of_resolve {cx : WalkContext} {pending : Option String}
    {scopes : ScopeStack} {id : Identifier} {cause : Cause}
    (h : cx.resolve pending scopes id = .error cause) : cause.name? = some id.name := by
  unfold WalkContext.resolve at h
  split at h
  · cases h
  · unfold WalkContext.resolveGlobal at h
    split at h
    · split at h
      · cases h
        rfl
      · cases h
    · cases h
    · split at h
      · cases h
      · cases h
        rfl
    · cases h
      rfl

/-- Whatever the walk finds wrong with an occurrence, it names the identifier. -/
theorem Node.Answer.name?_of_error {cx : WalkContext} {n : Node} {p : Position} {id : Identifier}
    {outcome : Except Cause Binding} {cause : Cause} (h : n.Answer cx p id outcome)
    (herror : outcome = .error cause) : cause.name? = some id.name := by
  cases h with
  | used _ _ => exact WalkContext.name?_of_resolve herror
  | exported _ =>
      unfold WalkContext.resolveExport at herror
      split at herror
      · cases herror
      · cases herror
        rfl
  | declared _ _ _ _ => cases herror
  | undeclared _ _ _ _ => cases herror; rfl
  | inBlock _ _ _ => cases herror
  | repeated _ _ _ => cases herror; rfl

/-- The name of a declaration stands outside all blocks if the declaration does. -/
theorem Node.outsideBlocks_concat {n : Node} {d : Position} {id : Identifier}
    (hdecl : n.declaredAt? d = some id) (i : Nat) :
    n.OutsideBlocks (d ++ [i]) ↔ n.OutsideBlocks d := by
  constructor
  · intro h q hq hblock
    exact h q (Position.above_concat_iff.mpr hq.1) hblock
  · intro h q hq hblock
    have hpre := Position.above_concat_iff.mp hq
    by_cases heq : q = d
    · subst heq
      obtain ⟨m, hm, hname⟩ := Option.bind_eq_some_iff.mp hdecl
      have hm' : m.isBlock = true := by simpa [IsBlockAt, hm] using hblock
      rw [declaredName?_of_isBlock hm'] at hname
      cases hname
    · exact h q ⟨hpre, heq⟩ hblock

namespace SourceUnit

/-- A repeated declaration directly among the nodes of a unit is reported. -/
theorem exists_duplicate {u : SourceUnit} {k : Nat} {id : Identifier}
    (hp : u.root.at? [u.imports.length + k, 0] = some (.identifier id))
    (h : u.Overlooked [u.imports.length + k, 0] id) :
    ∃ previous, ⟨.duplicateDeclaration id.name previous, id.info.location⟩ ∈
      u.collect.duplicates := by
  obtain ⟨hrole, -, location, hfirst, hne⟩ := h
  obtain ⟨d, info, init, isConst, heq, hd⟩ := Node.varDecl_of_roleAt hp hrole
  have hsame : [u.imports.length + k] ++ [0] = d ++ [0] := heq
  obtain rfl := List.append_cancel_right hsame
  have hnode : u.nodes[k]? = some (.varDecl info id init isConst) := by
    have htop : u.topLevel[u.imports.length + k]? = some (.varDecl info id init isConst) := by
      simpa using hd
    rwa [topLevel, List.getElem?_append_right (Nat.le_add_right _ _), Nat.add_sub_cancel_left]
      at htop
  refine exists_mem_duplicates (List.mem_of_getElem? hnode) rfl ?_
  rw [declaration?_collect, hfirst]
  exact fun h => hne (Option.some.inj h)

/-- **Unbound occurrences**: an occurrence that a pass without a halt leaves unbound is reported,
or belongs to the import of an unknown module, or is a name of a nested import declaration or an
overlooked declaration. -/
theorem unbound_cases {config : Config} {tables : Tables} {u : SourceUnit} {p : Position}
    {id after : Identifier} (hp : u.root.at? p = some (.identifier id))
    (hfate : u.Fate config tables p id after) (hafter : after.binding = none)
    (hhalt : (u.walked config tables).2.halted (u.walkContext config tables) = false) :
    (∃ cause : Cause, cause.name? = some id.name ∧
        ⟨cause, id.info.location⟩ ∈ u.foundFailures config tables) ∨
      (∃ i, u.ImportsAt p i ∧ i.isKnown tables = false) ∨
      (u.root.roleAt p = .imported ∧ 2 < p.length) ∨
      (u.Overlooked p id ∧ ∀ k, p ≠ [u.imports.length + k, 0]) := by
  have hskeleton := skeleton_bindImports tables u
  cases hfate with
  | @imported i hi heq =>
      rcases i.bindName_cases tables id with ⟨hsame, hwhy⟩ | ⟨-, location, -, hbound⟩
      · rw [hsame] at heq
        subst heq
        have hsite : i.site? tables after.name = none := by
          rcases hwhy with hbound | hsite
          · simp [Identifier.isBound, hafter] at hbound
          · exact hsite
        cases hknown : i.isKnown tables with
        | false => exact .inr (.inl ⟨i, hi, hknown⟩)
        | true =>
            obtain ⟨hmem, hname⟩ := mem_of_importsAt hi hp
            have hfailure : ⟨.notExported after.name i.path, after.info.location⟩ ∈
                i.failures tables := by
              refine List.mem_map.mpr ⟨after, ?_, rfl⟩
              rw [Import.missing, hknown, if_pos rfl]
              exact List.mem_filter.mpr ⟨hname, by simp [hsite]⟩
            refine .inl ⟨.notExported after.name i.path, rfl, ?_⟩
            refine List.mem_append_left _ (List.mem_append_right _ ?_)
            exact List.mem_flatMap.mpr ⟨i, hmem, hfailure⟩
      · rw [heq, hbound] at hafter
        cases hafter
  | walked hnot hfate =>
      cases hfate with
      | kept heq hbound =>
          rw [← heq, Identifier.isBound, hafter] at hbound
          cases hbound
      | halted _ hhalted => simp [hhalt] at hhalted
      | @answered outcome hid hanswer hsettled =>
          cases outcome with
          | ok b =>
              obtain rfl : after = { id with binding := some b } := hsettled
              cases hafter
          | error cause =>
              exact .inl ⟨cause, hanswer.name?_of_error rfl, List.mem_append_right _ hsettled.2⟩
      | imported _ hrole =>
          rw [roleAt_of_skeleton hskeleton] at hrole
          exact .inr (.inr (.inl ⟨hrole, length_of_roleAt hp hrole hnot⟩))
      | @silent d location _ hpos hdecl hout htable hne =>
          have hover : u.Overlooked p id := by
            refine ⟨?_, ?_, location, ?_, hne⟩
            · rw [← roleAt_of_skeleton hskeleton, hpos]
              exact Node.roleAt_of_declaredAt? hdecl
            · rw [← outsideBlocks_of_skeleton hskeleton, hpos]
              exact (Node.outsideBlocks_concat hdecl 0).mpr hout
            · rw [← declaration?_importTable tables]
              exact htable
          by_cases hdirect : ∃ k, p = [u.imports.length + k, 0]
          · obtain ⟨k, rfl⟩ := hdirect
            obtain ⟨previous, hmem⟩ := exists_duplicate hp hover
            exact .inl ⟨.duplicateDeclaration id.name previous, rfl,
              List.mem_append_left _ (List.mem_append_left _ hmem)⟩
          · exact .inr (.inr (.inr ⟨hover, fun k hk => hdirect ⟨k, hk⟩⟩))

end SourceUnit

/-! ## the units of a program -/

namespace Program

/-- The check of the entry leaves the units as they are. -/
theorem units_checkEntry (p : Program) : p.checkEntry.units = p.units := by
  unfold checkEntry
  split <;> rfl

theorem tables_checkEntry (p : Program) : p.checkEntry.tables = p.tables := by
  rw [tables, units_checkEntry, tables]

/-- A pass treats every unit by itself. -/
theorem units_resolve (config : Config) (p : Program) :
    (p.resolve config).program.units = p.units.map fun u => (u.resolve config p.tables).unit := by
  have hunits : (p.resolve config).program.units =
      p.checkEntry.units.map fun u => (u.resolve config p.checkEntry.tables).unit := by
    simp [resolve, units, Function.comp_def]
  rw [hunits, units_checkEntry, tables_checkEntry]

/-- The program after a pass. -/
theorem program_resolve (config : Config) (p : Program) :
    (p.resolve config).program =
      { p with
        values := p.values.map fun u => (u.resolve config p.tables).unit
        sources := p.sources.map fun u => (u.resolve config p.tables).unit
        diagnostics := Diagnostic.pushAllNew p.checkEntry.diagnostics
          ((p.units.flatMap fun u => (u.resolve config p.tables).programFailures).map
            (·.diagnostic)) } := by
  obtain ⟨ds, hchecked⟩ : ∃ ds, p.checkEntry = { p with diagnostics := ds } := by
    unfold checkEntry
    split
    · exact ⟨_, rfl⟩
    · exact ⟨_, rfl⟩
  have htables : Program.tables { p with diagnostics := ds } = p.tables := rfl
  simp only [resolve, hchecked, htables, units, List.map_map, List.flatMap_append, List.flatMap_map]
  rfl

theorem values_resolve (config : Config) (p : Program) :
    (p.resolve config).program.values =
      p.values.map fun u => (u.resolve config p.tables).unit := by
  rw [program_resolve]

theorem sources_resolve (config : Config) (p : Program) :
    (p.resolve config).program.sources =
      p.sources.map fun u => (u.resolve config p.tables).unit := by
  rw [program_resolve]

/-- The report of a pass. -/
theorem report_resolve (config : Config) (p : Program) :
    (p.resolve config).report =
      { bound := total (p.units.map fun u => (u.resolve config p.tables).bound)
        unresolved := total (p.units.map fun u => (u.resolve config p.tables).unresolved)
        resolvedUnits := ((p.resolve config).program.units.filter (·.isResolved)).map (·.path)
        unresolvedUnits :=
          ((p.resolve config).program.units.filter (!·.isResolved)).map (·.path) } := by
  have hunits : (p.resolve config).program.units =
      (p.units.map (·.resolve config p.tables)).map (·.unit) := by
    rw [units_resolve, List.map_map]
    rfl
  have hall : p.checkEntry.values.map (·.resolve config p.checkEntry.tables) ++
      p.checkEntry.sources.map (·.resolve config p.checkEntry.tables) =
        p.units.map (·.resolve config p.tables) := by
    rw [tables_checkEntry, ← List.map_append, ← units_checkEntry p, units]
  rw [hunits]
  simp only [resolve, hall, List.map_map]
  rfl

theorem paths_resolve (config : Config) (p : Program) :
    (p.resolve config).program.paths = p.paths := by
  simp [paths, units_resolve, SourceUnit.path_resolve]

/-- The failures of all units that concern the program are recorded. -/
theorem mem_diagnostics_resolve {config : Config} {p : Program} {u : SourceUnit} {f : Failure}
    (hu : u ∈ p.units) (hf : f ∈ (u.resolve config p.tables).programFailures) :
    f.diagnostic ∈ (p.resolve config).program.diagnostics := by
  refine Diagnostic.mem_pushAllNew.mpr (.inr (List.mem_map.mpr ⟨f, ?_, rfl⟩))
  rw [tables_checkEntry, ← List.map_append]
  refine List.mem_flatMap.mpr ⟨u.resolve config p.tables, List.mem_map.mpr ⟨u, ?_, rfl⟩, hf⟩
  have hunits := units_checkEntry p
  rw [units] at hunits
  rw [hunits]
  exact hu

/-- A pass keeps the paths of a program. -/
theorem contains_resolve (config : Config) (p : Program) (path : String) :
    (p.resolve config).program.contains path = p.contains path := by
  simp [contains, units_resolve, SourceUnit.path_resolve, Function.comp_def]

/-- A module is known if a unit of the program has its path. -/
theorem isKnown_tables (p : Program) (i : Import) : i.isKnown p.tables = p.contains i.path := by
  rw [Bool.eq_iff_iff, Import.isKnown, lookup_tables, Option.isSome_map, unit?,
    List.find?_isSome, contains, List.any_eq_true]

end Program

end NameResolution
