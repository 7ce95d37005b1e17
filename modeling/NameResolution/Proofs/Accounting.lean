import NameResolution.Proofs.Pass

/-!
# Every unbound identifier is accounted for

After a pass that neither stops at a failure nor caps its diagnostics, an identifier that is still
unbound has a reason: a diagnostic at the identifier, a diagnostic about its module, or one of two
places in the tree that the resolver does not look at.

Main statement: `Program.accounts_of_unbound`.
-/

namespace NameResolution

/-! ## reasons to be unbound -/

/-- Why an identifier at the position `p` of the unit `u` of a program is unbound. -/
inductive Program.Accounts (P : Program) (u : SourceUnit) (p : Position) (id : Identifier) :
    Prop where
  /-- An error of the unit at the identifier says what is wrong with its name. -/
  | reported {cause : Cause} (hname : cause.name? = some id.name)
      (hmem : .error cause.message (some id.info.location) ∈ u.diagnostics)
  /-- It is imported from a module that is not part of the program, and an error of the program at
  the import declaration says so. -/
  | unknownModule {i : Import} (hi : u.ImportsAt p i) (hunknown : P.contains i.path = false)
      (hmem : .error (Cause.unknownModule i.path u.path).message (some i.location) ∈
        P.diagnostics)
  /-- It is a name of an import declaration below the top level. -/
  | nestedImport (hrole : u.root.roleAt p = .imported) (hdeep : 2 < p.length)
  /-- It is declared outside all blocks, but not directly among the nodes of the unit, where the
  first declaration of the name is at another location. -/
  | overlooked (hover : u.Overlooked p id) (hdeep : ∀ k, p ≠ [u.imports.length + k, 0])

/-- **Accounting**: after a pass that does not stop at a failure and does not cap diagnostics,
every identifier that is unbound in a unit that the pass worked on is accounted for, whatever was
bound, resolved or recorded before. -/
theorem Program.accounts_of_unbound (P : Program) (config : Config)
    (hstop : config.stopAtFirstUnresolved = false) (hcap : config.maxDiagnosticsPerUnit = none)
    {k : Nat} {u v : SourceUnit} (hu : P.units[k]? = some u) (hopen : u.isResolved = false)
    (hv : (P.resolve config).program.units[k]? = some v) {p : Position} {id : Identifier}
    (hp : v.root.at? p = some (.identifier id)) (hid : id.binding = none) :
    (P.resolve config).program.Accounts v p id := by
  have hresolve : u.resolve config P.tables = u.resolveNow config P.tables := by
    rw [SourceUnit.resolve, hopen, if_neg Bool.false_ne_true]
  obtain rfl : (u.resolveNow config P.tables).unit = v := by
    rw [Program.units_resolve, List.getElem?_map, hu, Option.map_some, hresolve] at hv
    exact Option.some.inj hv
  have hskeleton := SourceUnit.skeleton_walked config P.tables u
  have hhalt : (u.walked config P.tables).2.halted (u.walkContext config P.tables) = false :=
    Walker.halted_of_going hstop _
  obtain ⟨before, hbefore, hunbound, hfate⟩ := SourceUnit.exists_fate hp
  rcases SourceUnit.unbound_cases hbefore hfate hid hhalt with
    ⟨cause, hcause, hmem⟩ | ⟨i, hi, hunknown⟩ | ⟨hrole, hdeep⟩ | ⟨hover, hdeep⟩
  · rw [Identifier.name_eq_of_unbound hunbound] at hcause
    rw [Identifier.info_eq_of_unbound hunbound] at hmem
    exact .reported hcause (SourceUnit.mem_diagnostics_resolveNow hcap hmem)
  · obtain ⟨i', hi', hpath, hlocation⟩ :=
      SourceUnit.exists_importsAt_of_skeleton hskeleton.symm hi
    have hmem : ⟨.unknownModule i.path u.path, i.location⟩ ∈
        (u.resolve config P.tables).programFailures := by
      rw [hresolve]
      refine List.mem_flatMap.mpr ⟨i, (SourceUnit.mem_of_importsAt hi hbefore).1, ?_⟩
      rw [Import.programFailures, hunknown, if_neg Bool.false_ne_true]
      exact List.mem_singleton_self _
    have hcontains : (P.resolve config).program.contains i'.path = false := by
      rw [Program.isKnown_tables] at hunknown
      rw [Program.contains_resolve, hpath, hunknown]
    refine .unknownModule hi' hcontains ?_
    rw [hpath, hlocation]
    exact Program.mem_diagnostics_resolve (List.mem_of_getElem? hu) hmem
  · rw [← SourceUnit.roleAt_of_skeleton hskeleton] at hrole
    exact .nestedImport hrole hdeep
  · rw [← SourceUnit.length_imports_of_skeleton hskeleton] at hdeep
    exact .overlooked ((SourceUnit.overlooked_of_skeleton hskeleton hunbound.symm).mpr hover) hdeep

/-- An import of an unknown module, a use of an unknown name, a declaration in an expression that
repeats a top-level one, and an import in a block. -/
def strandedUnit : SourceUnit where
  source := { id := 0, name := "a.ql", kind := .module, lineStarts := [0] }
  imports := [.importDecl { location := ⟨1, 1, 0, 24⟩ } "b.ql" [.plain "x" 8] none]
  nodes :=
    [.varDecl { location := ⟨1, 26, 25, 6⟩ } (.plain "y" 29) none false,
      .identifier (.plain "z" 33),
      .unary { location := ⟨1, 37, 36, 8⟩ } .group
        (.varDecl { location := ⟨1, 38, 37, 6⟩ } (.plain "y" 41) none false),
      .block { location := ⟨1, 47, 46, 30⟩ }
        [.importDecl { location := ⟨1, 49, 48, 24⟩ } "a.ql" [.plain "w" 56] none]]

/-- The program that has `strandedUnit` alone, so that the module it asks for is missing. -/
def stranded : Program where
  entry := "a.ql"
  entryKind := .module
  sources := [strandedUnit]

/-- The four identifiers that a pass leaves unbound, each for another reason. -/
theorem accounts_stranded :
    (stranded.resolve {}).program.Accounts (strandedUnit.resolve {} stranded.tables).unit
        [0, 0] (.plain "x" 8) ∧
      (stranded.resolve {}).program.Accounts (strandedUnit.resolve {} stranded.tables).unit
        [2] (.plain "z" 33) ∧
      (stranded.resolve {}).program.Accounts (strandedUnit.resolve {} stranded.tables).unit
        [3, 0, 0] (.plain "y" 41) ∧
      (stranded.resolve {}).program.Accounts (strandedUnit.resolve {} stranded.tables).unit
        [4, 0, 0] (.plain "w" 56) := by
  have hunit : stranded.units[0]? = some strandedUnit := rfl
  have hafter : (stranded.resolve {}).program.units[0]? =
      some (strandedUnit.resolve {} stranded.tables).unit := rfl
  refine ⟨?_, ?_, ?_, ?_⟩
  · exact Program.accounts_of_unbound stranded {} rfl rfl hunit rfl hafter rfl rfl
  · exact Program.accounts_of_unbound stranded {} rfl rfl hunit rfl hafter rfl rfl
  · exact Program.accounts_of_unbound stranded {} rfl rfl hunit rfl hafter rfl rfl
  · exact Program.accounts_of_unbound stranded {} rfl rfl hunit rfl hafter rfl rfl

end NameResolution
