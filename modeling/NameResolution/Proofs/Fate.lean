import NameResolution.Proofs.Meaning

/-!
# What the walk does to an occurrence

Every occurrence of an identifier has one of four roles: it is used, declared, imported or
exported. This module says for each role what the walk of a tree does to the occurrence. Two kinds
of occurrences are left alone without a word: the names of import declarations, and a declared name
outside all blocks if the table has another declaration of the name.

Main statements:

* `Node.firstIn_of_declare`: a name enters the scope of a block with the first declaration of the
  name in that block;
* `Node.fate`: what becomes of an occurrence.
-/

namespace NameResolution

namespace Node

/-! ## first declarations of a block -/

/-- Of the declarations of a name directly in the block at `q`, the one at `d` is the first to be
finished. -/
structure FirstIn (n : Node) (q d : Position) (decl : Identifier) : Prop where
  directlyIn : n.DirectlyIn q d
  declared : n.declaredAt? d = some decl
  first : ∀ d' other, n.DirectlyIn q d' → n.declaredAt? d' = some other →
    other.name = decl.name → d' ≠ d → Position.FinishesBefore d d'

/-- The first declaration of a name in a block is determined by the name. -/
theorem FirstIn.unique {n : Node} {q d d' : Position} {decl decl' : Identifier}
    (h : n.FirstIn q d decl) (h' : n.FirstIn q d' decl') (hname : decl'.name = decl.name) :
    decl' = decl := by
  by_cases hd : d' = d
  · subst hd
    exact Option.some.inj (h'.declared.symm.trans h.declared)
  · have hbefore := h.first d' decl' h'.directlyIn h'.declared hname hd
    have hafter := h'.first d decl h.directlyIn h.declared hname.symm (Ne.symm hd)
    exact absurd hafter hbefore.asymm

/-- What the look-up of a name finds is the first declaration of the name in its block. -/
theorem Finds.firstIn {n : Node} {p q d : Position} {name : String} {decl : Identifier}
    (h : n.Finds p name q d decl) : n.FirstIn q d decl := by
  refine ⟨h.sees.directlyIn, h.sees.declared, ?_⟩
  intro d' other hin hdecl hname hne
  rcases Position.FinishesBefore.total hne with hafter | hbefore
  · -- What is finished earlier is in sight as well.
    have hleft := hafter.leftOf h.sees.finished
    exact h.first d' other ⟨h.sees.encloses, hin, hdecl, hleft⟩ (hname.trans h.name_eq) hne
  · exact hbefore

/-- Bindings play no part in what is declared first in a block. -/
theorem firstIn_skeleton {n : Node} {q d : Position} {id : Identifier} :
    n.skeleton.FirstIn q d id ↔ ∃ decl, n.FirstIn q d decl ∧ id = decl.unbound := by
  constructor
  · rintro ⟨hin, hdecl, hfirst⟩
    rw [declaredAt?_skeleton] at hdecl
    obtain ⟨decl, hat, rfl⟩ := Option.map_eq_some_iff.mp hdecl
    refine ⟨decl, ⟨(directlyIn_skeleton n q d).mp hin, hat, ?_⟩, rfl⟩
    intro d' other hin' hdecl'
    have hat' : n.skeleton.declaredAt? d' = some other.unbound := by
      rw [declaredAt?_skeleton, hdecl']
      rfl
    exact hfirst d' other.unbound ((directlyIn_skeleton n q d').mpr hin') hat'
  · rintro ⟨decl, ⟨hin, hdecl, hfirst⟩, rfl⟩
    refine ⟨(directlyIn_skeleton n q d).mpr hin, ?_, ?_⟩
    · rw [declaredAt?_skeleton, hdecl]
      rfl
    · intro d' id' hin' hdecl'
      rw [declaredAt?_skeleton] at hdecl'
      obtain ⟨other, hat', rfl⟩ := Option.map_eq_some_iff.mp hdecl'
      exact hfirst d' other ((directlyIn_skeleton n q d').mp hin') hat'

/-! ## declaring a name in a block -/

/-- The first frame is that of the innermost block. -/
theorem directlyIn_of_frames {n : Node} {d : Position} {f : Frame} {outer : List Frame}
    (h : n.frames d = f :: outer) : n.DirectlyIn f.block d := by
  have hf : f ∈ n.frames d := by simp [h]
  have hdesc := frame_describes hf
  refine ⟨hdesc.isBlock, hdesc.above, fun r hr hblock => ?_⟩
  obtain ⟨g, hg, rfl⟩ := exists_frame hblock hr
  have horder := pairwise_frames n d
  rw [h] at hg horder
  rcases List.mem_cons.mp hg with rfl | hg
  · exact List.prefix_rfl
  · exact ((List.pairwise_cons.mp horder).1 g hg).1

/-- What stands below a declaration and directly in the declaration's own block stands in the
initializer, outside all blocks there. -/
theorem mem_localsOption_of_directlyIn {n : Node} {q d d' : Position} {info : NodeInfo}
    {id other : Identifier} {init : Option Node} {isConst : Bool}
    (hd : n.at? d = some (.varDecl info id init isConst)) (hq : Position.Above q d)
    (hin : n.DirectlyIn q d') (hdecl : n.declaredAt? d' = some other)
    (hbelow : Position.Above d d') : other ∈ (localsOption init).map (·.2) := by
  obtain ⟨⟨r, rfl⟩, hne⟩ := hbelow
  have hat : ∀ s, n.at? (d ++ s) = (Node.varDecl info id init isConst).at? s := by
    intro s
    rw [at?_append, hd, Option.bind_some]
  have hout : (Node.varDecl info id init isConst).OutsideBlocks r := by
    intro s hs hblock
    have hpre : d ++ s <+: q := by
      refine hin.innermost (d ++ s) ⟨List.prefix_append_right_inj d |>.mpr hs.1, ?_⟩ ?_
      · exact fun h => hs.2 (List.append_cancel_left h)
      · rw [IsBlockAt, hat]
        exact hblock
    have hle := hpre.length_le
    have hlt : q.length < d.length :=
      Nat.lt_of_le_of_ne hq.1.length_le fun h => hq.2 (hq.1.eq_of_length h)
    rw [List.length_append] at hle
    omega
  have hmem : (r, other) ∈ (Node.varDecl info id init isConst).locals := by
    refine mem_locals.mpr ⟨?_, hout⟩
    rw [declaredAt?, hat] at hdecl
    exact hdecl
  rw [locals, List.mem_append] at hmem
  rcases hmem with hmem | hmem
  · exact List.mem_map.mpr ⟨(r, other), hmem, rfl⟩
  · obtain ⟨rfl, -⟩ : r = [] ∧ other = id := by simpa using hmem
    simp at hne

/-- **Declaring in a block**: a name that is new to the innermost scope, once the initializer has
been walked, is declared there for the first time. -/
theorem firstIn_of_declare {n : Node} {d : Position} {f : Frame} {outer : List Frame}
    {info : NodeInfo} {id : Identifier} {init : Option Node} {isConst : Bool}
    (hd : n.at? d = some (.varDecl info id init isConst)) (hframes : n.frames d = f :: outer)
    (hnew : ((f.scope 0).addAll ((localsOption init).map (·.2))).names.lookup id.name = none) :
    n.FirstIn f.block d id := by
  have hf : f ∈ n.frames d := by simp [hframes]
  have hdecl : n.declaredAt? d = some id := by rw [declaredAt?, hd]; rfl
  rw [Frame.scope, ← Scope.addAll_append, Scope.lookup_addAll, List.lookup_nil, Option.none_or,
    Option.map_eq_none_iff, List.find?_eq_none] at hnew
  refine ⟨directlyIn_of_frames hframes, hdecl, fun d' other hin hother hname hne => ?_⟩
  rcases Position.FinishesBefore.total hne with hafter | hbefore
  · -- An earlier declaration would be in the scope already.
    have hmem : other ∈ f.finished.map (·.2) ++ (localsOption init).map (·.2) := by
      rcases hafter with hleft | hbelow
      · have hfinished := ((frame_describes hf).mem_finished d' other).mpr ⟨hother, hin, hleft⟩
        exact List.mem_append_left _ (List.mem_map.mpr ⟨(d', other), hfinished, rfl⟩)
      · exact List.mem_append_right _
          (mem_localsOption_of_directlyIn hd (frame_describes hf).above hin hother hbelow)
    exact absurd hname (by simpa using hnew other hmem)
  · exact hbefore

/-! ## roles and parents -/

/-- A node with something below it is neither a declared, an imported nor an exported name. -/
theorem roleAt_of_child {n m c : Node} {q : Position} {i : Nat} (hq : n.at? q = some m)
    (hc : m.children[i]? = some c) : n.roleAt q = .use := by
  by_cases hnil : q = []
  · subst hnil
    rfl
  · obtain ⟨r, j, parent, rfl, hr, hj⟩ := exists_parent hq hnil
    rw [roleAt_concat hr]
    exact childRole_of_children hj hc

/-- An identifier that is no use stands in a declaration. -/
theorem exists_parent_of_roleAt {n m : Node} {p : Position} (hp : n.at? p = some m)
    (hrole : n.roleAt p ≠ .use) :
    ∃ q i parent, p = q ++ [i] ∧ n.at? q = some parent ∧ parent.children[i]? = some m ∧
      parent.childRole i = n.roleAt p := by
  have hnil : p ≠ [] := by
    rintro rfl
    exact hrole rfl
  obtain ⟨q, i, parent, rfl, hq, hi⟩ := exists_parent hp hnil
  exact ⟨q, i, parent, rfl, hq, hi, (roleAt_concat hq i).symm⟩

/-- A declared name is the first child of its declaration. -/
theorem varDecl_of_roleAt {n : Node} {p : Position} {id : Identifier}
    (hp : n.at? p = some (.identifier id)) (hrole : n.roleAt p = .declared) :
    ∃ d info init isConst, p = d ++ [0] ∧ n.at? d = some (.varDecl info id init isConst) := by
  obtain ⟨d, i, parent, rfl, hd, hi, hparent⟩ := exists_parent_of_roleAt hp (by simp [hrole])
  rw [hrole] at hparent
  cases parent with
  | varDecl info name init isConst =>
      cases i with
      | zero =>
          obtain rfl : name = id := by simpa [children] using hi
          exact ⟨d, info, init, isConst, rfl, hd⟩
      | succ i => simp [childRole] at hparent
  | _ => cases i <;> simp [childRole] at hparent

theorem roleAt_of_declaredAt? {n : Node} {d : Position} {id : Identifier}
    (h : n.declaredAt? d = some id) : n.roleAt (d ++ [0]) = .declared := by
  obtain ⟨m, hd, hname⟩ := Option.bind_eq_some_iff.mp h
  rw [roleAt_concat hd]
  cases m <;> simp_all [declaredName?, childRole]

/-- An exported name is a child of an export declaration. -/
theorem exportDecl_of_roleAt {n : Node} {p : Position} {id : Identifier}
    (hp : n.at? p = some (.identifier id)) (hrole : n.roleAt p = .exported) :
    ∃ q i info names, p = q ++ [i] ∧ n.at? q = some (.exportDecl info names) ∧
      names[i]? = some id := by
  obtain ⟨q, i, parent, rfl, hq, hi, hparent⟩ := exists_parent_of_roleAt hp (by simp [hrole])
  rw [hrole] at hparent
  cases parent with
  | exportDecl info names => exact ⟨q, i, info, names, rfl, hq, by simpa [children] using hi⟩
  | _ => cases i <;> simp [childRole] at hparent

/-- An imported name is a child of an import declaration. -/
theorem importDecl_of_roleAt {n : Node} {p : Position} {id : Identifier}
    (hp : n.at? p = some (.identifier id)) (hrole : n.roleAt p = .imported) :
    ∃ q i info path names asName, p = q ++ [i] ∧
      n.at? q = some (.importDecl info path names asName) ∧ names[i]? = some id := by
  obtain ⟨q, i, parent, rfl, hq, hi, hparent⟩ := exists_parent_of_roleAt hp (by simp [hrole])
  rw [hrole] at hparent
  cases parent with
  | importDecl info path names asName =>
      exact ⟨q, i, info, path, names, asName, rfl, hq, by simpa [children] using hi⟩
  | _ => cases i <;> simp [childRole] at hparent

/-! ## answers and fates -/

/-- What the walk has to say to an unbound occurrence. The numbers of blocks are told apart only
as long as they fit into a word. -/
inductive Answer (cx : WalkContext) (n : Node) (p : Position) (id : Identifier) :
    Except Cause Binding → Prop where
  | used {pending : Option String} {scopes : ScopeStack} (hrole : n.roleAt p = .use)
      (hmeans : n.blocks.length < UInt32.size → n.Means cx p id (cx.resolve pending scopes id)) :
      n.Answer cx p id (cx.resolve pending scopes id)
  | exported (hrole : n.roleAt p = .exported) : n.Answer cx p id (cx.resolveExport id)
  | declared {d : Position} (hp : p = d ++ [0]) (hdecl : n.declaredAt? d = some id)
      (hout : n.OutsideBlocks d)
      (htable : cx.table.declaration? id.name = some id.info.location) :
      n.Answer cx p id (.ok (.inModule cx.path id.name id.info.location))
  | undeclared {d : Position} (hp : p = d ++ [0]) (hdecl : n.declaredAt? d = some id)
      (hout : n.OutsideBlocks d) (htable : cx.table.declaration? id.name = none) :
      n.Answer cx p id (.error (.unknownIdentifier id.name))
  | inBlock {q d : Position} {scope : UInt32} (hp : p = d ++ [0]) (hfirst : n.FirstIn q d id)
      (hscope : n.blocks.length < UInt32.size → n.blocks[scope.toNat]? = some q) :
      n.Answer cx p id (.ok (.inScope scope cx.path id.name id.info.location))
  | repeated {d : Position} {previous : Location} (hp : p = d ++ [0])
      (hdecl : n.declaredAt? d = some id) (hin : ¬ n.OutsideBlocks d) :
      n.Answer cx p id (.error (.duplicateDeclaration id.name previous))

/-- What becomes of an occurrence in a walk that ends in the state `w`. -/
inductive Fate (cx : WalkContext) (n : Node) (p : Position) (id after : Identifier)
    (w : Walker) : Prop where
  /-- The occurrence was bound before. -/
  | kept (hafter : after = id) (hbound : id.isBound = true)
  /-- The walk has halted before it reached the occurrence. -/
  | halted (hafter : after = id) (hhalted : w.halted cx = true)
  | answered {outcome : Except Cause Binding} (hid : id.binding = none)
      (hanswer : n.Answer cx p id outcome) (hsettled : id.Settled after w.failures outcome)
  /-- The walk has nothing to say to an imported name. -/
  | imported (hafter : after = id) (hrole : n.roleAt p = .imported)
  /-- Nor to a declared name outside all blocks if the table has another declaration of it. -/
  | silent {d : Position} {location : Location} (hafter : after = id) (hp : p = d ++ [0])
      (hdecl : n.declaredAt? d = some id) (hout : n.OutsideBlocks d)
      (htable : cx.table.declaration? id.name = some location)
      (hne : location ≠ id.info.location)

/-- An occurrence that the walk changes was answered. -/
theorem Fate.eq_or_answered {cx : WalkContext} {n : Node} {p : Position} {id after : Identifier}
    {w : Walker} (h : n.Fate cx p id after w) :
    after = id ∨ (id.binding = none ∧
      ∃ outcome, n.Answer cx p id outcome ∧ id.Settled after w.failures outcome) := by
  cases h with
  | answered hid hanswer hsettled => exact .inr ⟨hid, _, hanswer, hsettled⟩
  | kept hafter _ => exact .inl hafter
  | halted hafter _ => exact .inl hafter
  | imported hafter _ => exact .inl hafter
  | silent hafter _ _ _ _ _ => exact .inl hafter

/-! ## one occurrence -/

/-- An occurrence that is settled unless it is bound or the walk has halted. -/
theorem fate_of_settle {cx : WalkContext} {n : Node} {p : Position} {id : Identifier}
    {w last : Walker} {outcome : Except Cause Binding} {r : Identifier × Walker}
    (hr : r = if w.halted cx || id.isBound then (id, w) else w.settle id outcome)
    (htrace : r.2.trace <:+ last.trace)
    (hanswer : w.halted cx = false → n.Answer cx p id outcome) : n.Fate cx p id r.1 last := by
  cases hw : w.halted cx with
  | true =>
      obtain rfl : r = (id, w) := by simpa [hw] using hr
      exact .halted rfl (Walker.halted_of_suffix htrace hw)
  | false =>
      cases hbound : id.isBound with
      | true =>
          obtain rfl : r = (id, w) := by simpa [hbound] using hr
          exact .kept rfl hbound
      | false =>
          have hid : id.binding = none := by simpa [Identifier.isBound] using hbound
          obtain rfl : r = w.settle id outcome := by simpa [hw, hbound] using hr
          exact .answered hid (hanswer hw) (Walker.settled_settle hid w outcome htrace)

/-- The names of an export declaration are treated one after another. -/
theorem exists_exportName {ids : List Identifier} {i : Nat} {id : Identifier}
    (h : ids[i]? = some id) (cx : WalkContext) (w : Walker) :
    ∃ w' : Walker, (w.exportNames cx ids).1[i]? = some (w'.exportName cx id).1 ∧
      (w'.exportName cx id).2.trace <:+ (w.exportNames cx ids).2.trace := by
  induction ids generalizing i w with
  | nil => simp at h
  | cons other ids ih =>
      cases i with
      | zero =>
          obtain rfl : other = id := by simpa using h
          exact ⟨w, rfl, Walker.trace_exportNames cx _ ids⟩
      | succ i => exact ih (by simpa using h) (w.exportName cx other).2

/-- The name of a declaration outside all blocks. -/
theorem fate_declareTopLevel {cx : WalkContext} {n : Node} {d : Position} {id : Identifier}
    {w last : Walker} (hdecl : n.declaredAt? d = some id) (hout : n.OutsideBlocks d)
    (htrace : (w.declareTopLevel cx id).2.trace <:+ last.trace) :
    n.Fate cx (d ++ [0]) id (w.declareTopLevel cx id).1 last := by
  cases hbound : id.isBound with
  | true =>
      refine .kept ?_ hbound
      rw [Walker.declareTopLevel, if_pos hbound]
  | false =>
      have hid : id.binding = none := by simpa [Identifier.isBound] using hbound
      cases htable : cx.table.declaration? id.name with
      | none =>
          have hwalk : w.declareTopLevel cx id =
              w.settle id (.error (.unknownIdentifier id.name)) := by
            rw [Walker.declareTopLevel, if_neg (by simp [hbound]), htable]
            rfl
          rw [hwalk] at htrace ⊢
          exact .answered hid (.undeclared rfl hdecl hout htable)
            (Walker.settled_settle hid w _ htrace)
      | some location =>
          by_cases hloc : location = id.info.location
          · subst hloc
            have hwalk : w.declareTopLevel cx id =
                w.settle id (.ok (.inModule cx.path id.name id.info.location)) := by
              simp [Walker.declareTopLevel, hbound, htable, Walker.settle]
            rw [hwalk] at htrace ⊢
            exact .answered hid (.declared rfl hdecl hout htable)
              (Walker.settled_settle hid w _ htrace)
          · refine .silent ?_ rfl hdecl hout htable hloc
            simp [Walker.declareTopLevel, hbound, htable, hloc]

/-- The name of a declaration in a block, in the state after its initializer. -/
theorem fate_declareLocal {cx : WalkContext} {n : Node} {d : Position} {f : Frame}
    {outer : List Frame} {info : NodeInfo} {id : Identifier} {init : Option Node} {isConst : Bool}
    {w last : Walker} {rest : List Scope}
    (hd : n.at? d = some (.varDecl info id init isConst)) (hframes : n.frames d = f :: outer)
    (hscopes : w.scopes.scopes = (f.scope 0).addAll ((localsOption init).map (·.2)) :: rest)
    (htrace : (w.declareLocal cx id).2.trace <:+ last.trace) :
    n.Fate cx (d ++ [0]) id (w.declareLocal cx id).1 last := by
  have hf : f ∈ n.frames d := by simp [hframes]
  have hdecl : n.declaredAt? d = some id := by rw [declaredAt?, hd]; rfl
  have hin : ¬ n.OutsideBlocks d := by
    rw [← frames_eq_nil_iff, hframes]
    exact List.cons_ne_nil f outer
  rcases hdeclare : w.scopes.declare id.name id.info.location with ⟨outcome, scopes⟩
  cases outcome with
  | error previous =>
      have hwalk : w.declareLocal cx id =
          w.settle id (.error (.duplicateDeclaration id.name previous)) := by
        rw [Walker.declareLocal, hdeclare, ScopeStack.declare_eq_error hdeclare]
        rfl
      rw [hwalk] at htrace ⊢
      cases hbinding : id.binding with
      | none =>
          exact .answered hbinding (.repeated rfl hdecl hin)
            (Walker.settled_settle hbinding w _ htrace)
      | some b => exact .kept rfl (by simp [Identifier.isBound, hbinding])
  | ok number =>
      obtain ⟨scope, inner, hs, hid, hnew, -⟩ := ScopeStack.declare_eq_ok hdeclare
      obtain ⟨rfl, rfl⟩ : (f.scope 0).addAll ((localsOption init).map (·.2)) = scope ∧
          rest = inner := by simpa [hscopes] using hs
      have hnumber : number = UInt32.ofNat f.index := by
        rw [← hid, Scope.id_addAll, Frame.scope, Scope.id_addAll, UInt32.zero_add]
      have hwalk : w.declareLocal cx id =
          { w with scopes }.settle id
            (.ok (.inScope number cx.path id.name id.info.location)) := by
        rw [Walker.declareLocal, hdeclare]
        rfl
      rw [hwalk] at htrace ⊢
      cases hbinding : id.binding with
      | none =>
          refine .answered hbinding (.inBlock rfl (firstIn_of_declare hd hframes hnew) ?_)
            (Walker.settled_settle hbinding _ _ htrace)
          intro hsize
          rw [hnumber]
          exact getElem?_blocks_of_frame hf hsize
      | some b =>
          refine .kept ?_ (by simp [Identifier.isBound, hbinding])
          have hkept : id.bind (.inScope number cx.path id.name id.info.location) =
              .error (.alreadyBound id.info.location id.name) := by
            rw [Identifier.bind, hbinding]
            rfl
          rw [Walker.settle, Walker.bind, hkept]

/-- What the walk sees at a position is outside all scopes iff the position is outside all
blocks. -/
theorem isTopLevel_startView {n m : Node} {p : Position} (hp : n.at? p = some m) :
    (n.startView p).scopes.isTopLevel = true ↔ n.OutsideBlocks p := by
  rw [ScopeStack.isTopLevel, scopes_startView hp, List.isEmpty_iff, List.map_eq_nil_iff,
    frames_eq_nil_iff]

/-! ## every occurrence -/

/-- The fate of a declared name. -/
theorem fate_declared {n : Node} {d : Position} {info : NodeInfo} {id : Identifier}
    {init : Option Node} {isConst : Bool} (hd : n.at? d = some (.varDecl info id init isConst))
    (cx : WalkContext) :
    ∃ after, (n.walk cx none {}).1.at? (d ++ [0]) = some (.identifier after) ∧
      n.Fate cx (d ++ [0]) id after (n.walk cx none {}).2 := by
  have hchild : (Node.varDecl info id init isConst).children[0]? = some (.identifier id) := rfl
  have hdecl : n.declaredAt? d = some id := by rw [declaredAt?, hd]; rfl
  obtain ⟨pending, w, hreached⟩ :=
    exists_reached hd (roleAt_of_child hd hchild) cx none {}
  have hat := at?_concat hreached.node 0
  have htrace := hreached.trace
  cases hw : w.halted cx with
  | true =>
      rw [walk_of_halted hw] at hat htrace
      exact ⟨id, hat, .halted rfl (Walker.halted_of_suffix htrace hw)⟩
  | false =>
      have hview : View.mk w.scopes pending = n.startView d := hreached.view hw
      have hscopes : w.scopes = (n.startView d).scopes := by rw [← hview]
      rcases walk_varDecl hw pending info id init isConst rfl with
        ⟨hhalt, hwalk⟩ | ⟨-, htop, hwalk⟩ | ⟨hhalt, htop, hwalk⟩
      · rw [hwalk] at hat htrace
        exact ⟨id, hat, .halted rfl (Walker.halted_of_suffix htrace hhalt)⟩
      · rw [hwalk] at hat htrace
        rw [hscopes, isTopLevel_startView hd] at htop
        exact ⟨_, hat, fate_declareTopLevel hdecl htop htrace⟩
      · rw [hwalk] at hat htrace
        have hinit := scopes_walkOption cx _ init w hhalt
        cases hframes : n.frames d with
        | nil =>
            have hout := (isTopLevel_startView hd).mpr (frames_eq_nil_iff.mp hframes)
            rw [hscopes, hout] at htop
            cases htop
        | cons f outer =>
            have hopen : w.scopes.scopes = f.scope 0 :: outer.map (Frame.scope 0) := by
              rw [hscopes, scopes_startView hd, hframes, List.map_cons]
            rw [ScopeStack.advance, hopen] at hinit
            exact ⟨_, hat, fate_declareLocal hd hframes (congrArg ScopeStack.scopes hinit) htrace⟩

/-- **Fates**: what becomes of an occurrence in the walk of a tree. -/
theorem fate {n : Node} {p : Position} {id : Identifier} (hp : n.at? p = some (.identifier id))
    (cx : WalkContext) :
    ∃ after, (n.walk cx none {}).1.at? p = some (.identifier after) ∧
      n.Fate cx p id after (n.walk cx none {}).2 := by
  cases hrole : n.roleAt p with
  | use =>
      obtain ⟨w, hafter, htrace, hscopes⟩ := exists_useName hp hrole cx
      refine ⟨_, hafter, fate_of_settle rfl htrace fun hw => .used hrole fun hsize => ?_⟩
      rw [hscopes hw]
      exact means_resolve hp hsize cx id
  | declared =>
      obtain ⟨d, info, init, isConst, rfl, hd⟩ := varDecl_of_roleAt hp hrole
      exact fate_declared hd cx
  | imported =>
      obtain ⟨q, i, info, path, names, asName, rfl, hq, hi⟩ := importDecl_of_roleAt hp hrole
      have hchild : (Node.importDecl info path names asName).children[i]? =
          some (.identifier id) := by simp [children, hi]
      obtain ⟨pending, w, hreached⟩ := exists_reached hq (roleAt_of_child hq hchild) cx none {}
      have hat := at?_concat hreached.node i
      exact ⟨id, hat.trans hchild, .imported rfl hrole⟩
  | exported =>
      obtain ⟨q, i, info, names, rfl, hq, hi⟩ := exportDecl_of_roleAt hp hrole
      have hchild : (Node.exportDecl info names).children[i]? = some (.identifier id) := by
        simp [children, hi]
      obtain ⟨pending, w, hreached⟩ := exists_reached hq (roleAt_of_child hq hchild) cx none {}
      obtain ⟨w', hafter, htrace⟩ := exists_exportName hi cx w
      have hat := at?_concat hreached.node i
      refine ⟨_, ?_, fate_of_settle rfl (htrace.trans hreached.trace) fun _ => .exported hrole⟩
      rw [hat, Node.walk, children, List.getElem?_map, hafter]
      rfl

end Node

end NameResolution
