import NameResolution.Proofs.Skeleton

/-!
# The meaning of an identifier

What an identifier in an expression means, told without a walk: from its position in the tree, the
blocks around it and the declarations in them, and the tables of its unit. The walk computes this
meaning from the scopes it has open and the declaration it has pending.

Main statements:

* `Node.Means.unique`: an identifier has at most one meaning;
* `Node.means_resolve`: the look-up in the scopes at a position gives the meaning there;
* `SourceUnit.walk_settles_means`: the walk of a unit binds every identifier in an expression to
  its meaning, or reports why it has none, whatever else is bound in the unit.
-/

namespace NameResolution

namespace Node

/-! ## declarations in sight -/

/-- A declaration is in sight of `p`: it stands at `d` in the block at `q` around `p`, outside any
deeper block, and is finished, initializer included, when `p` is reached. -/
structure Sees (n : Node) (p q d : Position) (decl : Identifier) : Prop where
  encloses : Position.Above q p
  directlyIn : n.DirectlyIn q d
  declared : n.declaredAt? d = some decl
  finished : Position.LeftOf d p

/-- Of the declarations of a name in sight of `p`, the one at `d` is in the innermost block, and in
that block it is the first to be finished. -/
structure Finds (n : Node) (p : Position) (name : String) (q d : Position)
    (decl : Identifier) : Prop where
  sees : n.Sees p q d decl
  name_eq : decl.name = name
  innermost : ∀ q' d' other, n.Sees p q' d' other → other.name = name → q' <+: q
  first : ∀ d' other, n.Sees p q d' other → other.name = name →
    d' ≠ d → Position.FinishesBefore d d'

/-- Of the declarations outside all blocks with `p` in their initializer, the innermost one
declares the name. -/
def InOwnInitializer (n : Node) (p : Position) (name : String) : Prop :=
  ∃ d decl, n.Initializes p d decl ∧ decl.name = name ∧
    ∀ e other, n.Initializes p e other → e <+: d

end Node

/-! ## meanings -/

/-- The meaning of a name outside all blocks. The name is `circular` where it is used in the
initializer of its own declaration. -/
inductive WalkContext.Means (cx : WalkContext) (circular : Prop) (name : String) :
    Except Cause Binding → Prop where
  | declaredAndImported {location : Location} (hdecl : cx.table.declaration? name = some location)
      (himports : cx.table.importsOf name ≠ []) :
      cx.Means circular name (.error (.ambiguousIdentifier name
        (.thisModule :: (cx.table.importsOf name).map fun entry => .imported entry.module)))
  | importedTwice (hdecl : cx.table.declaration? name = none)
      (himports : 1 < (cx.table.importsOf name).length) :
      cx.Means circular name (.error (.ambiguousIdentifier name
        ((cx.table.importsOf name).map fun entry => .imported entry.module)))
  | circularReference {location : Location} (hdecl : cx.table.declaration? name = some location)
      (himports : cx.table.importsOf name = []) (hcircular : circular) :
      cx.Means circular name (.error (.circularReference name))
  | declared {location : Location} (hdecl : cx.table.declaration? name = some location)
      (himports : cx.table.importsOf name = []) (hcircular : ¬ circular) :
      cx.Means circular name (.ok ⟨.module cx.path, ⟨cx.path, name, location⟩⟩)
  | imported {entry : ImportEntry} (hdecl : cx.table.declaration? name = none)
      (himports : cx.table.importsOf name = [entry]) :
      cx.Means circular name
        (.ok ⟨.module entry.module, ⟨entry.module, name, entry.location⟩⟩)
  | builtin (hdecl : cx.table.declaration? name = none) (himports : cx.table.importsOf name = [])
      (hbuiltin : name ∈ cx.builtins) :
      cx.Means circular name (.ok ⟨.builtin, ⟨Config.builtinPath, name, .nowhere⟩⟩)
  | unknown (hdecl : cx.table.declaration? name = none) (himports : cx.table.importsOf name = [])
      (hbuiltin : name ∉ cx.builtins) :
      cx.Means circular name (.error (.unknownIdentifier name))

/-- The meaning of an identifier at the position `p` of a tree. The number of a block is its index
among all blocks of the tree in pre-order. -/
inductive Node.Means (cx : WalkContext) (n : Node) (p : Position) (id : Identifier) :
    Except Cause Binding → Prop where
  | inBlock {q d : Position} {decl : Identifier} {scope : UInt32} (hlocal : id.isLocal = true)
      (hmarked : id.isMarked = false) (hfinds : n.Finds p id.name q d decl)
      (hscope : n.blocks[scope.toNat]? = some q) :
      n.Means cx p id (.ok ⟨.scope scope, ⟨cx.path, id.name, decl.info.location⟩⟩)
  | global {outcome : Except Cause Binding}
      (hunseen : id.isLocal = true → id.isMarked = false →
        ∀ q d decl, n.Sees p q d decl → decl.name ≠ id.name)
      (hmeans : cx.Means (n.InOwnInitializer p id.name) id.name outcome) :
      n.Means cx p id outcome

/-! ## a meaning is unique -/

/-- A name outside all blocks has at most one meaning. -/
theorem WalkContext.Means.unique {cx : WalkContext} {circular : Prop} {name : String}
    {outcome other : Except Cause Binding} (h : cx.Means circular name outcome)
    (h' : cx.Means circular name other) : other = outcome := by
  cases h <;> cases h' <;> simp_all

namespace Node

/-- The declaration that is found is determined by the position and the name. -/
theorem Finds.unique {n : Node} {p q q' d d' : Position} {name : String}
    {decl decl' : Identifier} (h : n.Finds p name q d decl) (h' : n.Finds p name q' d' decl') :
    q' = q ∧ decl' = decl := by
  have hle := h.innermost q' d' decl' h'.sees h'.name_eq
  have hge := h'.innermost q d decl h.sees h.name_eq
  obtain rfl : q' = q := hle.eq_of_length_le hge.length_le
  by_cases hd : d' = d
  · subst hd
    have heq := h.sees.declared.symm.trans h'.sees.declared
    exact ⟨rfl, (Option.some.inj heq).symm⟩
  · have hbefore := h.first d' decl' h'.sees h'.name_eq hd
    have hafter := h'.first d decl h.sees h.name_eq (Ne.symm hd)
    exact absurd hafter hbefore.asymm

/-- **Meanings, uniqueness**: an identifier has at most one meaning. -/
theorem Means.unique {cx : WalkContext} {n : Node} {p : Position} {id : Identifier}
    {outcome other : Except Cause Binding} (h : n.Means cx p id outcome)
    (h' : n.Means cx p id other) : other = outcome := by
  cases h with
  | inBlock hlocal hmarked hfinds hscope =>
      cases h' with
      | inBlock hlocal' hmarked' hfinds' hscope' =>
          rename_i scope _ _ _ scope'
          obtain ⟨rfl, rfl⟩ := hfinds.unique hfinds'
          have hlt : scope.toNat < n.blocks.length := (List.getElem?_eq_some_iff.mp hscope).1
          have hindex := (List.getElem?_inj hlt n.nodup_blocks).mp (hscope.trans hscope'.symm)
          rw [UInt32.toNat_inj.mp hindex]
      | global hunseen' _ =>
          exact absurd hfinds.name_eq (hunseen' hlocal hmarked _ _ _ hfinds.sees)
  | global hunseen hmeans =>
      cases h' with
      | inBlock hlocal' hmarked' hfinds' _ =>
          exact absurd hfinds'.name_eq (hunseen hlocal' hmarked' _ _ _ hfinds'.sees)
      | global _ hmeans' => exact hmeans.unique hmeans'

end Node

/-! ## the look-up at a position -/

/-- The declaration of a name that the frame of a block offers. -/
def Frame.find? (f : Frame) (name : String) : Option (Position × Identifier) :=
  f.finished.find? fun e => e.2.name == name

namespace Node

/-- What the walk sees at a position of a tree if it starts with no scope open and nothing
pending. -/
def startView (n : Node) (p : Position) : View := n.viewAt ⟨{}, none⟩ p

/-- The open scopes at a position are those of the blocks around it. -/
theorem scopes_startView {n m : Node} {p : Position} (hp : n.at? p = some m) :
    (n.startView p).scopes.scopes = (n.frames p).map (Frame.scope 0) := by
  have h := scopes_viewAt hp ⟨{}, none⟩
  rw [ScopeStack.advance_of_isTopLevel rfl, ScopeStack.advance_nil, List.append_nil] at h
  exact h

/-- A name is looked up in the frames from the inside out. -/
theorem lookup_startView {n m : Node} {p : Position} (hp : n.at? p = some m) (name : String) :
    (n.startView p).scopes.lookup name = (n.frames p).findSome? fun f =>
      (f.find? name).map fun e => (UInt32.ofNat f.index, e.2.info.location) := by
  have hframe : ∀ f : Frame, ((Frame.scope 0 f).names.lookup name).map
      (fun location => ((Frame.scope 0 f).id, location)) =
      (f.find? name).map fun e => (UInt32.ofNat f.index, e.2.info.location) := by
    intro f
    rw [Frame.scope, Scope.lookup_addAll, Scope.id_addAll, List.lookup_nil, Option.none_or,
      List.find?_map, UInt32.zero_add, Option.map_map, Option.map_map]
    rfl
  rw [ScopeStack.lookup, scopes_startView hp, List.findSome?_map]
  congr 1
  funext f
  exact hframe f

/-- A frame holds what is in sight in its block. -/
theorem sees_of_mem_finished {n : Node} {p d : Position} {decl : Identifier} {f : Frame}
    (hf : f ∈ n.frames p) (h : (d, decl) ∈ f.finished) : n.Sees p f.block d decl := by
  have hdesc := frame_describes hf
  obtain ⟨hdecl, hin, hleft⟩ := (hdesc.mem_finished d decl).mp h
  exact ⟨hdesc.above, hin, hdecl, hleft⟩

/-- What is seen in the block of a frame is among the finished declarations of the frame. -/
theorem mem_finished_of_sees {n : Node} {p d : Position} {decl : Identifier} {f : Frame}
    (hf : f ∈ n.frames p) (h : n.Sees p f.block d decl) : (d, decl) ∈ f.finished :=
  ((frame_describes hf).mem_finished d decl).mpr ⟨h.declared, h.directlyIn, h.finished⟩

/-- A frame that offers no declaration of a name has none in sight. -/
theorem find?_ne_none_of_sees {n : Node} {p d : Position} {decl : Identifier} {f : Frame}
    (hf : f ∈ n.frames p) (h : n.Sees p f.block d decl) : f.find? decl.name ≠ none := by
  intro hnone
  have hmem := mem_finished_of_sees hf h
  have hname := List.find?_eq_none.mp hnone (d, decl) hmem
  simp at hname

/-- **Look-up, failure**: a name that is not found has no declaration in sight. -/
theorem not_sees_of_lookup {n m : Node} {p : Position} {name : String} (hp : n.at? p = some m)
    (h : (n.startView p).scopes.lookup name = none) (q d : Position) (decl : Identifier)
    (hsees : n.Sees p q d decl) : decl.name ≠ name := by
  rintro rfl
  obtain ⟨f, hf, rfl⟩ := exists_frame hsees.directlyIn.isBlock hsees.encloses
  rw [lookup_startView hp, List.findSome?_eq_none_iff] at h
  exact find?_ne_none_of_sees hf hsees (Option.map_eq_none_iff.mp (h f hf))

/-- What a frame offers for a name is the first declaration of the name to be finished. -/
theorem first_of_find? {n : Node} {p d : Position} {decl : Identifier} {name : String} {f : Frame}
    (hf : f ∈ n.frames p) (h : f.find? name = some (d, decl)) (d' : Position) (other : Identifier)
    (hsees : n.Sees p f.block d' other) (hname : other.name = name) (hne : d' ≠ d) :
    Position.FinishesBefore d d' := by
  obtain ⟨-, before, after, hsplit, hbefore⟩ := List.find?_eq_some_iff_append.mp h
  have horder := (frame_describes hf).inOrder
  rw [InOrder, hsplit, List.pairwise_append] at horder
  have hmem := mem_finished_of_sees hf hsees
  rw [hsplit, List.mem_append, List.mem_cons] at hmem
  rcases hmem with hmem | hmem | hmem
  · have := hbefore (d', other) hmem
    simp [hname] at this
  · exact absurd (congrArg Prod.fst hmem) hne
  · exact (List.pairwise_cons.mp horder.2.1).1 (d', other) hmem

/-- As long as all blocks have different numbers, the number of a scope is that of its block. -/
theorem getElem?_blocks_of_frame {n : Node} {p : Position} {f : Frame} (hf : f ∈ n.frames p)
    (hsize : n.blocks.length < UInt32.size) :
    n.blocks[(UInt32.ofNat f.index).toNat]? = some f.block := by
  have hindex := (frame_describes hf).index
  have hlt : f.index < n.blocks.length := (List.getElem?_eq_some_iff.mp hindex).1
  have hword : f.index < UInt32.size := Nat.lt_trans hlt hsize
  rw [UInt32.toNat_ofNat_of_lt' hword]
  exact hindex

/-- **Look-up, success**: the name is found in the innermost block with a declaration of it in
sight, and there it is the first declaration to be finished. -/
theorem finds_of_lookup {n m : Node} {p : Position} {name : String} {scope : UInt32}
    {location : Location} (hp : n.at? p = some m) (hsize : n.blocks.length < UInt32.size)
    (h : (n.startView p).scopes.lookup name = some (scope, location)) :
    ∃ q d decl, n.Finds p name q d decl ∧ n.blocks[scope.toNat]? = some q ∧
      decl.info.location = location := by
  rw [lookup_startView hp, List.findSome?_eq_some_iff] at h
  obtain ⟨inner, f, outer, hframes, hoffer, hinner⟩ := h
  obtain ⟨⟨d, decl⟩, hfind, heq⟩ := Option.map_eq_some_iff.mp hoffer
  obtain ⟨rfl, rfl⟩ : UInt32.ofNat f.index = scope ∧ decl.info.location = location := by
    simpa using heq
  have hf : f ∈ n.frames p := by simp [hframes]
  refine ⟨f.block, d, decl, ⟨?_, ?_, ?_, ?_⟩, getElem?_blocks_of_frame hf hsize, rfl⟩
  · exact sees_of_mem_finished hf (List.mem_of_find?_eq_some hfind)
  · have hname := List.find?_some hfind
    simpa using hname
  · -- A declaration in a deeper block would have been found there.
    rintro q' d' other hsees rfl
    obtain ⟨g, hg, rfl⟩ := exists_frame hsees.directlyIn.isBlock hsees.encloses
    have hgfind := find?_ne_none_of_sees hg hsees
    have horder := pairwise_frames n p
    rw [hframes] at hg
    rw [hframes, List.pairwise_append] at horder
    rcases List.mem_append.mp hg with hg | hg
    · exact absurd (Option.map_eq_none_iff.mp (hinner g hg)) hgfind
    · rcases List.mem_cons.mp hg with rfl | hg
      · exact List.prefix_rfl
      · exact ((List.pairwise_cons.mp horder.2.1).1 g hg).1
  · exact first_of_find? hf hfind

/-! ## the walk looks up the meaning -/

/-- The declaration pending at a position is the one that makes a reference circular. -/
theorem inOwnInitializer_iff {n m : Node} {p : Position} (hp : n.at? p = some m)
    (name : String) : n.InOwnInitializer p name ↔ (n.startView p).pending = some name := by
  have hpending : (n.startView p).pending = (n.pendingAt? p).map (·.2.name) := by
    rw [startView, pending_viewAt hp rfl, Option.or_none]
  rw [hpending, Option.map_eq_some_iff]
  constructor
  · rintro ⟨d, decl, hinit, rfl, hinner⟩
    cases h : n.pendingAt? p with
    | none => exact absurd hinit (not_initializes_of_pendingAt? hp h d decl)
    | some e =>
        obtain ⟨hinit', hinner'⟩ := initializes_of_pendingAt? hp h
        have hle := hinner e.1 e.2 hinit'
        have hge := hinner' d decl hinit
        have hsame : e.1 = d := hle.eq_of_length_le hge.length_le
        have hdecl := hinit'.declared
        rw [hsame, hinit.declared] at hdecl
        exact ⟨e, rfl, congrArg Identifier.name (Option.some.inj hdecl).symm⟩
  · rintro ⟨e, h, rfl⟩
    obtain ⟨hinit, hinner⟩ := initializes_of_pendingAt? hp h
    exact ⟨e.1, e.2, hinit, rfl, hinner⟩

end Node

/-- The look-up in the tables of a unit gives the meaning of a name outside all blocks. -/
theorem WalkContext.means_resolveGlobal (cx : WalkContext) {pending : Option String}
    {name : String} {circular : Prop} (hcircular : circular ↔ pending = some name) :
    cx.Means circular name (cx.resolveGlobal pending name) := by
  unfold WalkContext.resolveGlobal
  split
  · next location hdecl himports =>
    split
    · next h => exact .circularReference hdecl himports (hcircular.mpr (by simpa using h))
    · next h =>
      exact .declared hdecl himports fun hc => h (by simpa using hcircular.mp hc)
  · next entry hdecl himports => exact .imported hdecl himports
  · next hdecl himports =>
    split
    · next h => exact .builtin hdecl himports (by simpa using h)
    · next h => exact .unknown hdecl himports (by simpa using h)
  · next hdeclared hsingle hnone =>
    -- What is left is a declaration next to imports, or several imports.
    cases hdecl : cx.table.declaration? name with
    | some location =>
        have himports : cx.table.importsOf name ≠ [] := fun h => hdeclared location hdecl h
        have h : cx.Means circular name _ := .declaredAndImported hdecl himports
        simpa [WalkContext.origins, hdecl] using h
    | none =>
        have himports : 1 < (cx.table.importsOf name).length := by
          match h : cx.table.importsOf name with
          | [] => exact absurd h (hnone hdecl)
          | [entry] => exact absurd h (hsingle entry hdecl)
          | _ :: _ :: _ => simp
        have h : cx.Means circular name _ := .importedTwice hdecl himports
        simpa [WalkContext.origins, hdecl] using h

namespace Node

/-- **Meanings, existence**: the look-up in the scopes at a position gives the meaning there. -/
theorem means_resolve {n m : Node} {p : Position} (hp : n.at? p = some m)
    (hsize : n.blocks.length < UInt32.size) (cx : WalkContext) (id : Identifier) :
    n.Means cx p id (cx.resolve (n.startView p).pending (n.startView p).scopes id) := by
  have hglobal := cx.means_resolveGlobal (inOwnInitializer_iff hp id.name)
  unfold WalkContext.resolve
  cases hsees : id.isLocal && !id.isMarked with
  | false =>
      refine .global (fun hlocal hmarked => ?_) hglobal
      simp [hlocal, hmarked] at hsees
  | true =>
      obtain ⟨hlocal, hmarked⟩ : id.isLocal = true ∧ id.isMarked = false := by simpa using hsees
      rw [if_pos rfl]
      cases h : (n.startView p).scopes.lookup id.name with
      | none => exact .global (fun _ _ => not_sees_of_lookup hp h) hglobal
      | some found =>
          obtain ⟨q, d, decl, hfinds, hscope, hlocation⟩ := finds_of_lookup hp hsize h
          have hmeans : n.Means cx p id _ := .inBlock hlocal hmarked hfinds hscope
          rw [hlocation] at hmeans
          exact hmeans

/-! ## meanings and skeletons -/

/-- Bindings play no part in what is seen. -/
theorem sees_skeleton {n : Node} {p q d : Position} {id : Identifier} :
    n.skeleton.Sees p q d id ↔ ∃ decl, n.Sees p q d decl ∧ id = decl.unbound := by
  constructor
  · rintro ⟨habove, hin, hdecl, hleft⟩
    rw [declaredAt?_skeleton] at hdecl
    obtain ⟨decl, hat, rfl⟩ := Option.map_eq_some_iff.mp hdecl
    exact ⟨decl, ⟨habove, (directlyIn_skeleton n q d).mp hin, hat, hleft⟩, rfl⟩
  · rintro ⟨decl, ⟨habove, hin, hdecl, hleft⟩, rfl⟩
    refine ⟨habove, (directlyIn_skeleton n q d).mpr hin, ?_, hleft⟩
    rw [declaredAt?_skeleton, hdecl]
    rfl

/-- What is found in a tree is found in its skeleton. -/
theorem Finds.skeleton {n : Node} {p q d : Position} {name : String} {decl : Identifier}
    (h : n.Finds p name q d decl) : n.skeleton.Finds p name q d decl.unbound := by
  refine ⟨sees_skeleton.mpr ⟨decl, h.sees, rfl⟩, h.name_eq, ?_, ?_⟩
  · intro q' d' id hsees hname
    obtain ⟨other, hother, rfl⟩ := sees_skeleton.mp hsees
    exact h.innermost q' d' other hother hname
  · intro d' id hsees hname
    obtain ⟨other, hother, rfl⟩ := sees_skeleton.mp hsees
    exact h.first d' other hother hname

/-- Bindings play no part in whether a position is in the initializer of a name. -/
theorem inOwnInitializer_skeleton {n : Node} {p : Position} {name : String} :
    n.skeleton.InOwnInitializer p name ↔ n.InOwnInitializer p name := by
  constructor
  · rintro ⟨d, id, hinit, hname, hinner⟩
    obtain ⟨decl, hdecl, rfl⟩ := initializes_skeleton.mp hinit
    refine ⟨d, decl, hdecl, hname, fun e other hother => ?_⟩
    exact hinner e other.unbound (initializes_skeleton.mpr ⟨other, hother, rfl⟩)
  · rintro ⟨d, decl, hinit, hname, hinner⟩
    refine ⟨d, decl.unbound, initializes_skeleton.mpr ⟨decl, hinit, rfl⟩, hname, ?_⟩
    intro e id hid
    obtain ⟨other, hother, -⟩ := initializes_skeleton.mp hid
    exact hinner e other hother

/-- **Meanings and bindings**: the meaning of an identifier does not depend on what is bound. -/
theorem Means.skeleton {cx : WalkContext} {n : Node} {p : Position} {id : Identifier}
    {outcome : Except Cause Binding} (h : n.Means cx p id outcome) :
    n.skeleton.Means cx p id outcome := by
  cases h with
  | inBlock hlocal hmarked hfinds hscope =>
      have hmeans : n.skeleton.Means cx p id _ :=
        .inBlock hlocal hmarked hfinds.skeleton (by rwa [blocks_skeleton])
      exact hmeans
  | global hunseen hmeans =>
      refine .global (fun hlocal hmarked q d other hsees => ?_) ?_
      · obtain ⟨decl, hdecl, rfl⟩ := sees_skeleton.mp hsees
        exact hunseen hlocal hmarked q d decl hdecl
      · rwa [propext inOwnInitializer_skeleton]

end Node

/-! ## identifiers that the walk settles -/

/-- What became of an identifier with the given outcome: it is bound, or it is left as it is and
the cause is among the failures, at its location. -/
def Identifier.Settled (id after : Identifier) (failures : List Failure) :
    Except Cause Binding → Prop
  | .ok b => after = { id with binding := some b }
  | .error cause => after = id ∧ ⟨cause, id.info.location⟩ ∈ failures

/-- An identifier that has become bound was settled with its binding. -/
theorem Identifier.Settled.outcome_eq {id after : Identifier} {failures : List Failure}
    {outcome : Except Cause Binding} {b : Binding} (h : id.Settled after failures outcome)
    (hid : id.binding = none) (hafter : after.binding = some b) : outcome = .ok b := by
  cases outcome with
  | ok b' =>
      obtain rfl : after = { id with binding := some b' } := h
      rw [Option.some.inj hafter]
  | error cause =>
      obtain ⟨rfl, -⟩ := h
      rw [hid] at hafter
      cases hafter

/-- A failure in the trace is a failure of the walk. -/
theorem Walker.mem_failures {w : Walker} {f : Failure} :
    f ∈ w.failures ↔ .failed f ∈ w.trace := by
  rw [failures, steps, List.mem_filterMap]
  constructor
  · rintro ⟨step, hstep, hf⟩
    cases step <;> simp_all [WalkStep.failure?]
  · intro h
    exact ⟨.failed f, List.mem_reverse.mpr h, rfl⟩

/-- A walk halts with its first failure. -/
theorem Walker.halted_eq (cx : WalkContext) (w : Walker) :
    w.halted cx = (cx.stopAtFirst && !w.failures.isEmpty) := by
  have hany : w.trace.any (·.failure?.isSome) = !w.failures.isEmpty := by
    rw [Bool.eq_iff_iff, List.any_eq_true, Bool.not_eq_true', List.isEmpty_eq_false_iff_exists_mem]
    constructor
    · rintro ⟨step, hstep, hsome⟩
      obtain ⟨f, hf⟩ := Option.isSome_iff_exists.mp hsome
      exact ⟨f, List.mem_filterMap.mpr ⟨step, List.mem_reverse.mpr hstep, hf⟩⟩
    · rintro ⟨f, hf⟩
      exact ⟨.failed f, mem_failures.mp hf, rfl⟩
  rw [halted, hany]

/-- A walk without failures does not halt. -/
theorem Walker.halted_of_failures {cx : WalkContext} {w : Walker} (h : w.failures = []) :
    w.halted cx = false := by
  rw [halted_eq, h, List.isEmpty_nil, Bool.not_true, Bool.and_false]

/-- Binding an identifier that is not bound yet. -/
theorem Identifier.bind_of_binding {id : Identifier} (h : id.binding = none) (b : Binding) :
    id.bind b = .ok { id with binding := some b } := by
  rw [bind, h]
  rfl

/-- An identifier that is not bound yet gets the outcome that it is settled with. -/
theorem Walker.settled_settle {id : Identifier} (h : id.binding = none) (w : Walker)
    (outcome : Except Cause Binding) {last : Walker}
    (htrace : (w.settle id outcome).2.trace <:+ last.trace) :
    id.Settled (w.settle id outcome).1 last.failures outcome := by
  cases outcome with
  | ok b =>
      show (w.bind id b).1 = _
      rw [Walker.bind, Identifier.bind_of_binding h]
  | error cause =>
      exact ⟨rfl, mem_failures.mpr (htrace.subset List.mem_cons_self)⟩

/-! ## the walk of a unit as the walk of a tree -/

namespace Node

/-- The walk through two lists of nodes goes through one after the other. -/
theorem walkAll_append (cx : WalkContext) (pending : Option String) (ns ms : List Node)
    (w : Walker) : walkAll cx pending (ns ++ ms) w =
      ((walkAll cx pending ns w).1 ++ (walkAll cx pending ms (walkAll cx pending ns w).2).1,
        (walkAll cx pending ms (walkAll cx pending ns w).2).2) := by
  induction ns generalizing w with
  | nil => rfl
  | cons n ns ih =>
      rw [List.cons_append, walkAll, walkAll, ih]
      rfl

end Node

namespace SourceUnit

/-- The walk of a unit is the walk of its tree, with no scope open and nothing pending. -/
theorem walk_root (cx : WalkContext) (u : SourceUnit) :
    u.root.walk cx none {} = ((u.walk cx).1.root, (u.walk cx).2) := by
  rw [root, topLevel, Node.walk, Node.walkAll_append]
  rfl

end SourceUnit

namespace Node

/-- The walk reaches an identifier in an expression with the view of its position, unless it has
halted by then. -/
theorem exists_useName {n : Node} {p : Position} {id : Identifier}
    (hp : n.at? p = some (.identifier id)) (hrole : n.roleAt p = .use) (cx : WalkContext) :
    ∃ w : Walker,
      (n.walk cx none {}).1.at? p =
          some (.identifier (w.useName cx (n.startView p).pending id).1) ∧
        (w.useName cx (n.startView p).pending id).2.trace <:+ (n.walk cx none {}).2.trace ∧
        (w.halted cx = false → w.scopes = (n.startView p).scopes) := by
  obtain ⟨pending, w, hreached⟩ := exists_reached hp hrole cx none {}
  have hname : w.useName cx (n.startView p).pending id = w.useName cx pending id := by
    cases hw : w.halted cx with
    | true => rw [Walker.useName, Walker.useName, hw, Bool.true_or, if_pos rfl, if_pos rfl]
    | false =>
        have hview : View.mk w.scopes pending = n.startView p := hreached.view hw
        rw [← hview]
  refine ⟨w, ?_, ?_, fun hw => ?_⟩
  · rw [hname]
    exact hreached.node
  · rw [hname]
    exact hreached.trace
  · have hview : View.mk w.scopes pending = n.startView p := hreached.view hw
    rw [← hview]

end Node

/-- An unbound, local and unmarked identifier on the first line of a source. -/
def Identifier.plain (name : String) (offset : UInt32) : Identifier where
  info := { location := ⟨1, offset + 1, offset, name.utf8ByteSize.toUInt32⟩ }
  name := name
  isMarked := false
  isLocal := true

namespace SourceUnit

/-- **The walk finds meanings**: with its table, whatever that holds, and any configuration that
does not stop at a failure, the walk of a unit settles every unbound identifier in an expression
with its one meaning. The meaning is read off the skeleton of the unit, so it does not depend on
which identifiers were bound before. Which failures the walk finds as a whole, and that an
identifier with a binding for its meaning adds none, is `failures_walk_means`. -/
theorem walk_settles_means (u : SourceUnit) (table : ModuleTable) (config : Config)
    (hstop : config.stopAtFirstUnresolved = false) (cx : WalkContext)
    (hcx : cx = ⟨u.path, table, config.builtins, config.stopAtFirstUnresolved⟩)
    (hsize : u.root.blocks.length < UInt32.size) {p : Position} {id : Identifier}
    (hp : u.root.at? p = some (.identifier id)) (hrole : u.root.roleAt p = .use)
    (hid : id.binding = none) :
    ∃ outcome, u.skeleton.root.Means cx p id outcome ∧
      (∀ other, u.skeleton.root.Means cx p id other → other = outcome) ∧
      ∃ after, (u.walk cx).1.root.at? p = some (.identifier after) ∧
        id.Settled after (u.walk cx).2.failures outcome := by
  obtain ⟨w, hafter, htrace, hscopes⟩ := Node.exists_useName hp hrole cx
  have hw : w.halted cx = false := Walker.halted_of_going (by rw [hcx, hstop]) w
  have hmeans := (Node.means_resolve hp hsize cx id).skeleton
  rw [← root_skeleton] at hmeans
  have hsettle : w.useName cx (u.root.startView p).pending id = w.settle id
      (cx.resolve (u.root.startView p).pending (u.root.startView p).scopes id) := by
    simp [Walker.useName, hw, Identifier.isBound, hid, hscopes hw]
  rw [hsettle, walk_root] at hafter htrace
  exact ⟨_, hmeans, fun other hother => hmeans.unique hother, _, hafter,
    Walker.settled_settle hid w _ htrace⟩

/-- `var x; { var x = x; { x } }`: the initializer in the block still means the outer name. -/
def shadowing : SourceUnit where
  source := { id := 0, name := "m.ql", kind := .module, lineStarts := [0] }
  nodes :=
    [.varDecl { location := ⟨1, 1, 0, 6⟩ } (.plain "x" 4) none false,
      .block { location := ⟨1, 8, 7, 20⟩ }
        [.varDecl { location := ⟨1, 10, 9, 10⟩ } (.plain "x" 13)
            (some (.identifier (.plain "x" 17))) false,
          .block { location := ⟨1, 21, 20, 5⟩ } [.identifier (.plain "x" 22)]]]

/-- What the walk of `shadowing` knows. -/
def shadowingContext : WalkContext := ⟨"m.ql", shadowing.collect.table, [], false⟩

/-- The name in the inner block means the declaration in the outer one, and the name in the
initializer means the top-level declaration. -/
theorem means_shadowing :
    shadowing.skeleton.root.Means shadowingContext [1, 1, 0] (.plain "x" 22)
        (.ok (.inScope 0 "m.ql" "x" ⟨1, 14, 13, 1⟩)) ∧
      shadowing.skeleton.root.Means shadowingContext [1, 0, 1] (.plain "x" 17)
        (.ok (.inModule "m.ql" "x" ⟨1, 5, 4, 1⟩)) := by
  have hinner : shadowing.root.at? [1, 1, 0] = some (.identifier (.plain "x" 22)) := rfl
  have hinit : shadowing.root.at? [1, 0, 1] = some (.identifier (.plain "x" 17)) := rfl
  constructor
  · obtain ⟨outcome, hmeans, -, after, hafter, hsettled⟩ :=
      walk_settles_means shadowing shadowing.collect.table {} rfl shadowingContext rfl (by decide)
        hinner rfl rfl
    cases hafter
    rwa [hsettled.outcome_eq rfl rfl] at hmeans
  · obtain ⟨outcome, hmeans, -, after, hafter, hsettled⟩ :=
      walk_settles_means shadowing shadowing.collect.table {} rfl shadowingContext rfl (by decide)
        hinit rfl rfl
    cases hafter
    rwa [hsettled.outcome_eq rfl rfl] at hmeans

end SourceUnit

end NameResolution
