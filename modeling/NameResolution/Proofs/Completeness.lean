import NameResolution.Proofs.History

/-!
# What a resolved unit leaves unbound

A unit is marked as resolved when a pass finds nothing wrong with it. No phase of a pass looks at
the names of an import declaration below the top level, nor at a declared name outside all blocks
if the first declaration of the name is another one, so these stay unbound without a failure. In a
resolved unit every other identifier is bound.

Main statement: `Program.unbound_iff_skipped`.
-/

namespace NameResolution

namespace SourceUnit

/-- The occurrences that no phase of a pass deals with: names of an import declaration below the
top level, and overlooked declarations. -/
def Skipped (u : SourceUnit) (p : Position) (id : Identifier) : Prop :=
  (u.root.roleAt p = .imported ∧ 2 < p.length) ∨ u.Overlooked p id

/-- Bindings play no part in which occurrences are skipped. -/
theorem skipped_of_skeleton {u v : SourceUnit} (h : u.skeleton = v.skeleton) {p : Position}
    {id id' : Identifier} (hid : id.unbound = id'.unbound) :
    u.Skipped p id ↔ v.Skipped p id' := by
  rw [Skipped, Skipped, roleAt_of_skeleton h, overlooked_of_skeleton h hid]

/-- Nothing in the unit is bound and it is not resolved. -/
structure IsFresh (u : SourceUnit) : Prop where
  isResolved : u.isResolved = false
  unbound : ∀ id ∈ u.identifiers, id.binding = none

end SourceUnit

/-! ## skipped occurrences stay as they are -/

/-- The walk has no answer to an overlooked declaration. -/
theorem Node.Fate.eq_of_overlooked {cx : WalkContext} {n : Node} {p : Position}
    {id after : Identifier} {w : Walker} (h : n.Fate cx p id after w)
    (hrole : n.roleAt p = .declared) (hout : n.OutsideBlocks p) {location : Location}
    (htable : cx.table.declaration? id.name = some location)
    (hne : location ≠ id.info.location) : after = id := by
  rcases h.eq_or_answered with hsame | ⟨-, outcome, hanswer, -⟩
  · exact hsame
  · cases hanswer with
    | used hrole' _ => rw [hrole] at hrole'; cases hrole'
    | exported hrole' => rw [hrole] at hrole'; cases hrole'
    | declared _ _ _ htable' =>
        rw [htable] at htable'
        exact absurd (Option.some.inj htable') hne
    | undeclared _ _ _ htable' => rw [htable] at htable'; cases htable'
    | inBlock hp hfirst _ =>
        subst hp
        have hout' := (outsideBlocks_concat hfirst.declared 0).mp hout
        exact absurd hfirst.directlyIn.isBlock (hout' _ hfirst.directlyIn.above)
    | repeated hp hdecl hin =>
        subst hp
        exact absurd ((outsideBlocks_concat hdecl 0).mp hout) hin

namespace SourceUnit

/-- A pass does not touch a skipped occurrence. -/
theorem Fate.eq_of_skipped {config : Config} {tables : Tables} {u : SourceUnit} {p : Position}
    {id after : Identifier} (h : u.Fate config tables p id after) (hskip : u.Skipped p id) :
    after = id := by
  have hskeleton := skeleton_bindImports tables u
  cases h with
  | imported hi _ =>
      have himported := roleAt_of_importsAt hi
      rcases hskip with ⟨-, hdeep⟩ | ⟨hrole, -⟩
      · obtain ⟨k, j, n, rfl, -⟩ := hi
        simp at hdeep
      · rw [himported] at hrole
        cases hrole
  | walked _ hfate =>
      rcases hskip with ⟨hrole, -⟩ | ⟨hrole, hout, location, hfirst, hne⟩
      · rw [← roleAt_of_skeleton hskeleton] at hrole
        exact hfate.eq_of_imported hrole
      · rw [← roleAt_of_skeleton hskeleton] at hrole
        rw [← outsideBlocks_of_skeleton hskeleton] at hout
        rw [← declaration?_importTable tables] at hfirst
        exact hfate.eq_of_overlooked hrole hout hfirst hne

/-! ## the invariant of a unit -/

/-- What is unbound in a unit: skipped occurrences always, and once the unit is resolved nothing
else. -/
structure Finished (u : SourceUnit) : Prop where
  skipped : ∀ p id, u.root.at? p = some (.identifier id) → u.Skipped p id → id.binding = none
  bound : u.isResolved = true → ∀ p id, u.root.at? p = some (.identifier id) →
    id.binding = none → u.Skipped p id

/-- A unit on which no pass has run yet is finished. -/
theorem IsFresh.finished {u : SourceUnit} (h : u.IsFresh) : u.Finished := by
  refine ⟨fun p id hp _ => ?_, fun hresolved => ?_⟩
  · exact h.unbound id (mem_identifiers.mpr ⟨p, hp⟩)
  · rw [h.isResolved] at hresolved
    cases hresolved

/-- A pass that finds nothing wrong with a unit leaves only skipped occurrences unbound. -/
theorem skipped_of_isResolved {config : Config} {tables : Tables} {u : SourceUnit} {p : Position}
    {id after : Identifier} (hp : u.root.at? p = some (.identifier id))
    (hfate : u.Fate config tables p id after) (hafter : after.binding = none)
    (hresolved : (u.resolveNow config tables).unit.isResolved = true) : u.Skipped p id := by
  have hwalk := walked_failures_of_isResolved hresolved
  rcases unbound_cases hp hfate hafter (Walker.halted_of_failures hwalk) with
    ⟨cause, -, hmem⟩ | ⟨i, hi, hunknown⟩ | hnested | ⟨hover, -⟩
  · rw [(failures_of_isResolved hresolved).1] at hmem
    cases hmem
  · rw [isKnown_of_isResolved hresolved (mem_of_importsAt hi hp).1] at hunknown
    cases hunknown
  · exact .inl hnested
  · exact .inr hover

/-- **Finished units, one pass**: a pass keeps the invariant. -/
theorem Finished.resolve {u : SourceUnit} (h : u.Finished) (config : Config) (tables : Tables) :
    (u.resolve config tables).unit.Finished := by
  unfold SourceUnit.resolve
  split
  · exact h
  · have hskeleton := skeleton_walked config tables u
    refine ⟨fun p id hp hskip => ?_, fun hresolved p id hp hid => ?_⟩
    · obtain ⟨before, hbefore, hunbound, hfate⟩ := exists_fate hp
      have hskip' := (skipped_of_skeleton hskeleton hunbound.symm).mp hskip
      rw [hfate.eq_of_skipped hskip']
      exact h.skipped p before hbefore hskip'
    · obtain ⟨before, hbefore, hunbound, hfate⟩ := exists_fate hp
      have hskip := skipped_of_isResolved hbefore hfate hid hresolved
      exact (skipped_of_skeleton hskeleton hunbound.symm).mpr hskip

end SourceUnit

/-! ## resolved units -/

/-- **Resolved units**: in a history that starts with fresh units, adds fresh units and runs the
resolver with any configurations, an identifier of a resolved unit is unbound exactly if it is one
that no phase deals with. -/
theorem Program.unbound_iff_skipped (P : Program) (actions : List Action)
    (hstart : ∀ u ∈ P.units, u.IsFresh)
    (hinsert : ∀ store u, Action.insert store u ∈ actions → u.IsFresh) {u : SourceUnit}
    (hu : u ∈ (P.run actions).units) (hresolved : u.isResolved = true) {p : Position}
    {id : Identifier} (hp : u.root.at? p = some (.identifier id)) :
    id.binding = none ↔ u.Skipped p id := by
  have hfinished : u.Finished :=
    Program.forall_units_run (fun v hv => (hstart v hv).finished)
      (fun store v hmem => (hinsert store v hmem).finished)
      (fun config tables v hv => hv.resolve config tables) u hu
  exact ⟨hfinished.bound hresolved p id hp, hfinished.skipped p id hp⟩

/-- `{ import { x } from "b.ql"; }`: an import below the top level. -/
def nestedImport : SourceUnit where
  source := { id := 0, name := "a.ql", kind := .module, lineStarts := [0] }
  nodes :=
    [.block { location := ⟨1, 1, 0, 29⟩ }
      [.importDecl { location := ⟨1, 3, 2, 25⟩ } "b.ql" [.plain "x" 11] none]]

/-- The program of the unit with the nested import and the module that this import asks for. -/
def nesting : Program where
  entry := "a.ql"
  entryKind := .module
  sources := [nestedImport, exporting]

theorem isFresh_nesting : ∀ u ∈ nesting.units, u.IsFresh := by
  have hunits : nesting.units = [nestedImport, exporting] := rfl
  rw [hunits]
  intro u hu
  obtain rfl | rfl : u = nestedImport ∨ u = exporting := by simpa using hu
  · exact ⟨rfl, by decide⟩
  · exact ⟨rfl, by decide⟩

/-- The imported name is skipped, and the declaration that it asks for is not. -/
theorem skipped_nestedImport :
    (nestedImport.resolve {} nesting.tables).unit.Skipped [0, 0, 0] (.plain "x" 11) ∧
      ¬ (exporting.resolve {} nesting.tables).unit.Skipped [0, 0]
        { Identifier.plain "x" 4 with
          binding := some (.inModule "b.ql" "x" ⟨1, 5, 4, 1⟩) } := by
  have hinsert : ∀ store u, Action.insert store u ∈ [Action.resolve {}] → u.IsFresh := by
    intro store u hmem
    cases List.mem_singleton.mp hmem
  have hunits : (nesting.run [.resolve {}]).units =
      [(nestedImport.resolve {} nesting.tables).unit,
        (exporting.resolve {} nesting.tables).unit] := rfl
  constructor
  · exact (Program.unbound_iff_skipped nesting [.resolve {}] isFresh_nesting hinsert
      (by rw [hunits]; exact List.mem_cons_self) rfl rfl).mp rfl
  · intro hskip
    have hbinding := (Program.unbound_iff_skipped nesting [.resolve {}] isFresh_nesting hinsert
      (by rw [hunits]; exact List.mem_cons_of_mem _ List.mem_cons_self) rfl rfl).mpr hskip
    cases hbinding

/-- A unit that a single pass over fresh units resolves, with an unbound identifier in it. -/
theorem isResolved_nestedImport :
    (∀ u ∈ nesting.units, u.IsFresh) ∧
      ∃ u ∈ (nesting.run [.resolve {}]).units, u.isResolved = true ∧
        ∃ id ∈ u.identifiers, id.isBound = false := by
  refine ⟨isFresh_nesting, (nestedImport.resolve {} nesting.tables).unit, ?_, rfl, ?_⟩
  · exact List.mem_cons_self
  · exact ⟨.plain "x" 11, List.mem_cons_self, rfl⟩

end NameResolution
