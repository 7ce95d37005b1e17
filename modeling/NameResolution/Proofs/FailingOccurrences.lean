import NameResolution.Proofs.FirstFailure

/-!
# The failures of a walk, occurrence by occurrence

A walk that goes on after a failure comes to every occurrence of an identifier. Whether it fails
there, and why, is read off the outcome at the position, so the failures of the whole walk are those
of the failing occurrences, in the order of the walk.

The layers are

* the occurrences of a tree with their positions, in the order of the walk: all of them are there
  (`Node.mem_occurrences`), as often as the tree has them (`Node.perm_occurrences`);
* the failure of a single step (`Walker.failures_answer`, `Walker.failures_declareName`);
* the run from a node at a position on, given the view at this position
  (`Node.failures_walkFrom`).

Main statements:

* `Node.failures_walk`: the failures of a walk;
* `SourceUnit.failures_walk_means`: the same for a unit, where an identifier in an expression fails
  just if it means nothing, and for the reason why it means nothing.
-/

namespace NameResolution

/-! ## occurrences in the order of the walk -/

/-- The names of an import or export with their positions, the first of which is child `i`. -/
def namesFrom (i : Nat) : List Identifier → List (Position × Identifier)
  | [] => []
  | id :: ids => ([i], id) :: namesFrom (i + 1) ids

namespace Node

mutual

/-- The occurrences of identifiers in a tree, in the order in which the walk comes to them. The name
of a declaration is its first child, but comes behind the initializer. -/
def occurrences : Node → List (Position × Identifier)
  | .empty _ | .literal .. | .type _ => []
  | .block _ body => occurrencesAll 0 body
  | .varDecl _ name init _ => occurrencesOption init ++ [([0], name)]
  | .importDecl _ _ names _ => namesFrom 0 names
  | .exportDecl _ names => namesFrom 0 names
  | .identifier id => [([], id)]
  | .sequence _ _ items => occurrencesAll 0 items
  | .unary _ _ operand => below 0 operand.occurrences
  | .inOf _ left right _ => below 0 left.occurrences ++ below 1 right.occurrences

/-- The occurrences below children that are numbered from `i` on. -/
def occurrencesAll (i : Nat) : List Node → List (Position × Identifier)
  | [] => []
  | n :: ns => below i n.occurrences ++ occurrencesAll (i + 1) ns

/-- The occurrences below an initializer, which is child number one. -/
def occurrencesOption : Option Node → List (Position × Identifier)
  | none => []
  | some n => below 1 n.occurrences

end

theorem map_snd_namesFrom (i : Nat) (ids : List Identifier) :
    (namesFrom i ids).map (·.2) = ids := by
  induction ids generalizing i with
  | nil => rfl
  | cons id ids ih => rw [namesFrom, List.map_cons, ih]

mutual

/-- The walk comes to the identifiers at the occurrences. -/
theorem map_snd_occurrences (n : Node) : n.occurrences.map (·.2) = n.inWalkOrder := by
  cases n with
  | block _ body => exact map_snd_occurrencesAll 0 body
  | varDecl _ name init _ =>
      rw [occurrences, List.map_append, map_snd_occurrencesOption init]
      rfl
  | importDecl _ _ names _ => exact map_snd_namesFrom 0 names
  | exportDecl _ names => exact map_snd_namesFrom 0 names
  | sequence _ _ items => exact map_snd_occurrencesAll 0 items
  | unary _ _ operand =>
      rw [occurrences, map_snd_below]
      exact map_snd_occurrences operand
  | inOf _ left right _ =>
      rw [occurrences, List.map_append, map_snd_below, map_snd_below, map_snd_occurrences left,
        map_snd_occurrences right]
      rfl
  | _ => rfl

/-- The identifiers at the occurrences in a list of nodes, in walk order. -/
theorem map_snd_occurrencesAll (i : Nat) (ns : List Node) :
    (occurrencesAll i ns).map (·.2) = inWalkOrderAll ns := by
  cases ns with
  | nil => rfl
  | cons n ns =>
      rw [occurrencesAll, List.map_append, map_snd_below, map_snd_occurrences n,
        map_snd_occurrencesAll (i + 1) ns]
      rfl

theorem map_snd_occurrencesOption (init : Option Node) :
    (occurrencesOption init).map (·.2) = inWalkOrderOption init := by
  cases init with
  | none => rfl
  | some n =>
      rw [occurrencesOption, map_snd_below]
      exact map_snd_occurrences n

end

/-- The occurrences of a tree have its identifiers, each as often as the tree. -/
theorem perm_occurrences (n : Node) : (n.occurrences.map (·.2)).Perm n.identifiers := by
  rw [map_snd_occurrences]
  exact n.perm_inWalkOrder

/-- The names of an import or export stand at children. -/
theorem exists_of_mem_namesFrom {i : Nat} {ids : List Identifier} {o : Position × Identifier}
    (h : o ∈ namesFrom i ids) : ∃ j, o.1 = [j] := by
  induction ids generalizing i with
  | nil => cases h
  | cons id ids ih =>
      rcases List.mem_cons.mp h with rfl | h
      · exact ⟨i, rfl⟩
      · exact ih h

/-- The names of an import or export are its children. -/
theorem namesFrom_eq (i : Nat) (ids : List Identifier) :
    namesFrom i ids = occurrencesAll i (ids.map .identifier) := by
  induction ids generalizing i with
  | nil => rfl
  | cons id ids ih => rw [namesFrom, ih]; rfl

/-- Up to their order, the occurrences below a node are those below its children. -/
theorem perm_occurrencesAll_children {n : Node} (h : ∀ id, n ≠ .identifier id) :
    n.occurrences.Perm (occurrencesAll 0 n.children) := by
  cases n with
  | identifier id => exact absurd rfl (h id)
  | varDecl _ name init _ =>
      cases init with
      | none => exact .refl _
      | some m =>
          simp only [occurrences, occurrencesOption, children, Option.toList_some, occurrencesAll,
            List.append_nil]
          exact List.perm_append_comm
  | importDecl _ _ names _ => rw [occurrences, namesFrom_eq]; exact .refl _
  | exportDecl _ names => rw [occurrences, namesFrom_eq]; exact .refl _
  | type t => cases t <;> exact .refl _
  | _ => simp [occurrences, children, occurrencesAll]

/-- An occurrence in a list of nodes is an occurrence in one of them. -/
theorem mem_occurrencesAll {k : Nat} {ns : List Node} {p : Position} {id : Identifier} :
    (p, id) ∈ occurrencesAll k ns ↔
      ∃ (i : Nat) (c : Node) (e : Position), p = (k + i) :: e ∧ ns[i]? = some c ∧
        (e, id) ∈ c.occurrences := by
  induction ns generalizing k with
  | nil => simp [occurrencesAll]
  | cons n ns ih =>
      rw [occurrencesAll, List.mem_append, mem_below, ih]
      constructor
      · rintro (⟨e, rfl, he⟩ | ⟨i, c, e, rfl, hc, he⟩)
        · exact ⟨0, n, e, rfl, rfl, he⟩
        · exact ⟨i + 1, c, e, by rw [Nat.add_right_comm]; rfl, hc, he⟩
      · rintro ⟨i, c, e, rfl, hc, he⟩
        cases i with
        | zero =>
            obtain rfl : n = c := by simpa using hc
            exact .inl ⟨e, rfl, he⟩
        | succ i => exact .inr ⟨i, c, e, by rw [Nat.add_right_comm]; rfl, hc, he⟩

/-- **Occurrences**: they are the identifiers at the positions of the tree. -/
theorem mem_occurrences {n : Node} {p : Position} {id : Identifier} :
    (p, id) ∈ n.occurrences ↔ n.at? p = some (.identifier id) := by
  induction p generalizing n with
  | nil =>
      cases n with
      | identifier other => simp [occurrences, eq_comm]
      | _ =>
          rw [(perm_occurrencesAll_children (by simp)).mem_iff, mem_occurrencesAll]
          simp
  | cons i p ih =>
      by_cases h : ∃ other, n = .identifier other
      · obtain ⟨other, rfl⟩ := h
        simp [occurrences, children]
      · rw [(perm_occurrencesAll_children (not_exists.mp h)).mem_iff, mem_occurrencesAll, at?_cons,
          Option.bind_eq_some_iff]
        constructor
        · rintro ⟨j, c, e, heq, hc, he⟩
          obtain ⟨rfl, rfl⟩ : i = j ∧ p = e := by simpa using heq
          exact ⟨c, hc, ih.mp he⟩
        · rintro ⟨c, hc, hp⟩
          exact ⟨i, c, p, by rw [Nat.zero_add], hc, ih.mpr hp⟩

end Node

/-! ## the failure of one step -/

/-- The failure that an outcome means for an identifier. -/
def Identifier.failure? (id : Identifier) : Option (Except Cause Binding) → Option Failure
  | some (.error cause) => some ⟨cause, id.info.location⟩
  | _ => none

namespace Walker

/-- A walk that has not halted adds the failure of the outcome, unless the identifier is bound. -/
theorem failures_answer {cx : WalkContext} {w : Walker} (hw : w.halted cx = false)
    (id : Identifier) (outcome : Option (Except Cause Binding)) :
    (w.answer cx id outcome).2.failures =
      w.failures ++ (if id.isBound then none else id.failure? outcome).toList := by
  cases hid : id.isBound with
  | true => simp [answer_of_isBound hid]
  | false =>
      rw [answer, hw, hid, Bool.false_or, if_neg Bool.false_ne_true, if_neg Bool.false_ne_true]
      rcases outcome with _ | cause | b
      · simp [Identifier.failure?]
      · exact failures_note w _
      · exact (agrees_bind w id b).failures.trans (List.append_nil _).symm

/-- A name that is declared in a block fails whether it is bound or not. -/
theorem failures_declareLocal (cx : WalkContext) (w : Walker) (id : Identifier) :
    (w.declareLocal cx id).2.failures =
      w.failures ++ (id.failure? (some (cx.resolveLocal w.scopes id))).toList := by
  unfold declareLocal WalkContext.resolveLocal
  obtain ⟨outcome, scopes⟩ := w.scopes.declare id.name id.info.location
  cases outcome with
  | error previous => exact failures_note { w with scopes } _
  | ok scope =>
      exact (agrees_bind { w with scopes } id _).failures.trans (List.append_nil _).symm

/-- Declaring a name at any level, unless it is bound at the top level already, adds its failure. -/
theorem failures_declareName {cx : WalkContext} {w : Walker} (hw : w.halted cx = false)
    (id : Identifier) :
    (w.declareName cx w.scopes.isTopLevel id).2.failures = w.failures ++
      (if id.isBound && w.scopes.isTopLevel then none
        else id.failure? (cx.declare? w.scopes id)).toList := by
  rw [declareName, hw, WalkContext.declare?]
  cases htop : w.scopes.isTopLevel with
  | true => simpa [declareTopLevel_eq_answer hw] using failures_answer hw id _
  | false => simpa using failures_declareLocal cx w id

end Walker

/-! ## the walk of a tree -/

namespace Node

/-- The walk takes notice of the occurrence: the identifier is not bound yet, or it is declared in a
block, where a name is declared whether it is bound or not. -/
def noticesAt (n : Node) (p : Position) (id : Identifier) : Bool :=
  !id.isBound || n.roleAt p == .declared && !(n.endView p.dropLast).scopes.isTopLevel

/-- The failure at an occurrence, if the walk fails there. -/
def failureAt? (cx : WalkContext) (n : Node) (p : Position) (id : Identifier) : Option Failure :=
  if n.noticesAt p id then id.failure? (n.outcomeAt? cx p id) else none

theorem localNamesAll_append (ns ms : List Node) :
    localNamesAll (ns ++ ms) = localNamesAll ns ++ localNamesAll ms := by
  induction ns with
  | nil => rfl
  | cons n ns ih => rw [List.cons_append, localNamesAll_cons, localNamesAll_cons, ih,
      List.append_assoc]

section

variable {n m : Node} {q : Position}

/-- The view at a child is the view that its parent gives to it. -/
theorem viewAt_concat {c : Node} {i : Nat} (hq : n.at? q = some m) (hi : m.children[i]? = some c)
    (v : View) : n.viewAt v (q ++ [i]) = m.viewAtChild (n.viewAt v q) i := by
  induction q generalizing n v with
  | nil =>
      obtain rfl : n = m := by simpa using hq
      rw [List.nil_append, viewAt_cons hi]
      rfl
  | cons j q ih =>
      obtain ⟨d, hj, hd⟩ := Option.bind_eq_some_iff.mp hq
      rw [List.cons_append, viewAt_cons hj, viewAt_cons hj, ih hd]

/-- The view at a child is determined by the node and the view at it. -/
theorem startView_concat {c : Node} {i : Nat} (hq : n.at? q = some m)
    (hi : m.children[i]? = some c) :
    n.startView (q ++ [i]) = m.viewAtChild (n.startView q) i :=
  viewAt_concat hq hi _

/-- From a child to the next one, the walk declares the names of the child and uses up the numbers
of its blocks. -/
theorem viewAtChild_succ {front rest : List Node} {c : Node}
    (hchildren : m.children = front ++ c :: rest) (v : View) :
    m.viewAtChild v (front.length + 1) =
      ⟨(m.viewAtChild v front.length).scopes.advance c.localNames c.blocks.length,
        (m.viewAtChild v front.length).pending⟩ := by
  have hnames : localNamesAll (front ++ [c]) = localNamesAll front ++ c.localNames := by
    simp [localNamesAll_append]
  have hblocks : (blocksAll 0 (front ++ [c])).length =
      (blocksAll 0 front).length + c.blocks.length := by
    simp [blocksAll_append, blocksAll]
  have hfront : m.children.take front.length = front := by
    rw [hchildren, List.take_left]
  have hnext : m.children.take (front.length + 1) = front ++ [c] := by
    rw [List.take_add_one, hfront, hchildren, List.getElem?_append_right (Nat.le_refl _),
      Nat.sub_self]
    rfl
  rw [viewAtChild, viewAtChild, hfront, hnext, ScopeStack.advance_advance, hnames, hblocks]

/-- At the first child of a node that is neither a block nor a declaration, the walk sees what it
sees at the node. -/
theorem viewAtChild_zero (hblock : m.isBlock = false) (hname : m.declaredName? = none) (v : View) :
    m.viewAtChild v 0 = v := by
  simp [viewAtChild, hblock, hname, blocksAll]

end

/-- The occurrences below a child, as seen from the root. -/
theorem filterMap_below (cx : WalkContext) (n : Node) (q : Position) (i : Nat)
    (entries : List (Position × Identifier)) :
    ((below i entries).filterMap fun o => n.failureAt? cx (q ++ o.1) o.2) =
      entries.filterMap fun o => n.failureAt? cx (q ++ [i] ++ o.1) o.2 := by
  rw [below, List.filterMap_map]
  congr 1
  funext o
  simp

variable {cx : WalkContext} {n : Node}

/-- The names of an export, one after another. -/
theorem failures_exportNames (hstop : cx.stopAtFirst = false) {info : NodeInfo}
    {names : List Identifier} {q : Position} (hq : n.at? q = some (.exportDecl info names))
    (i : Nat) (ids : List Identifier) (w : Walker) :
    (w.exportNames cx ids).2.failures = w.failures ++
      (namesFrom i ids).filterMap fun o => n.failureAt? cx (q ++ o.1) o.2 := by
  induction ids generalizing i w with
  | nil => simp [Walker.exportNames, namesFrom]
  | cons id ids ih =>
      have hw := Walker.halted_of_going hstop w
      have hrole : n.roleAt (q ++ [i]) = .exported := roleAt_concat hq i
      have hfailure : n.failureAt? cx (q ++ [i]) id =
          if id.isBound then none else id.failure? (some (cx.resolveExport id)) := by
        rw [failureAt?, noticesAt, outcomeAt?, hrole]
        cases id.isBound <;> rfl
      rw [Walker.exportNames, ih (i + 1), Walker.exportName_eq_answer, Walker.failures_answer hw,
        ← hfailure, namesFrom, List.append_assoc, List.filterMap_cons]
      cases n.failureAt? cx (q ++ [i]) id <;> rfl

/-- The name of a declaration, when the initializer has been walked. -/
theorem failures_declared {q : Position} {info : NodeInfo} {name : Identifier}
    {init : Option Node} {isConst : Bool} (hq : n.at? q = some (.varDecl info name init isConst))
    {w : Walker} (hw : w.halted cx = false) (hscopes : w.scopes = (n.endView q).scopes) :
    (w.declareName cx w.scopes.isTopLevel name).2.failures =
      w.failures ++ (n.failureAt? cx (q ++ [0]) name).toList := by
  have hrole : n.roleAt (q ++ [0]) = .declared := roleAt_concat hq 0
  rw [Walker.failures_declareName hw, failureAt?, noticesAt, outcomeAt?, hrole,
    List.dropLast_concat, hscopes]
  cases name.isBound <;> cases (n.endView q).scopes.isTopLevel <;> rfl

mutual

/-- **Failures, the run**: from a node on that the walk reaches with the view of its position, the
walk adds the failures of the occurrences below the node. -/
theorem failures_walkFrom (hstop : cx.stopAtFirst = false) (m : Node) {q : Position}
    (hq : n.at? q = some m) (hrole : n.roleAt q = .use) (pending : Option String) (w : Walker)
    (hview : View.mk w.scopes pending = n.startView q) :
    (m.walk cx pending w).2.failures = w.failures ++
      m.occurrences.filterMap fun o => n.failureAt? cx (q ++ o.1) o.2 := by
  have hhalted := Walker.halted_of_going hstop
  cases m with
  | empty | literal | type => exact (List.append_nil _).symm
  | block info body =>
      rw [walk_block (hhalted w)]
      refine failures_walkAllFrom hstop [] body hq (fun _ => rfl) rfl pending w.enterBlock ?_
      rw [← hview]
      simp [viewAtChild, isBlock, declaredName?, blocksAll, Walker.enterBlock]
  | varDecl info name init isConst =>
      obtain ⟨r, hr⟩ : ∃ r, r = walkOption cx
          (if w.scopes.isTopLevel then some name.name else pending) init w := ⟨_, rfl⟩
      have hinit := failures_walkOptionFrom hstop init hq pending w hview
      have hafter := scopes_walkOption cx
        (if w.scopes.isTopLevel then some name.name else pending) init w (hhalted _)
      rw [← hr] at hinit hafter
      have hscopes : r.2.scopes = (n.endView q).scopes := by
        rw [hafter, scopes_endView_varDecl hq, ← hview]
      have htop : w.scopes.isTopLevel = r.2.scopes.isTopLevel := by
        rw [hafter, ScopeStack.isTopLevel_advance]
      rw [walk_varDecl_eq (hhalted w) pending info name init isConst hr, htop,
        failures_declared hq (hhalted r.2) hscopes, hinit, occurrences, List.filterMap_append,
        List.append_assoc, List.filterMap_cons]
      cases n.failureAt? cx (q ++ [0]) name <;> rfl
  | importDecl info path names asName =>
      -- The walk has nothing to say to the names of an import.
      have hnone : ∀ o ∈ namesFrom 0 names, n.failureAt? cx (q ++ o.1) o.2 = none := by
        intro o ho
        obtain ⟨i, hi⟩ := exists_of_mem_namesFrom ho
        have himported : n.roleAt (q ++ [i]) = .imported := roleAt_concat hq i
        rw [hi, failureAt?, outcomeAt?, himported]
        exact ite_self none
      rw [occurrences, List.filterMap_eq_nil_iff.mpr hnone, List.append_nil]
      rfl
  | exportDecl info names => exact failures_exportNames hstop hq 0 names w
  | identifier id =>
      have hfailure : n.failureAt? cx (q ++ []) id =
          if id.isBound then none else id.failure? (some (cx.resolve pending w.scopes id)) := by
        rw [List.append_nil, failureAt?, noticesAt, outcomeAt?, hrole, ← hview]
        cases id.isBound <;> rfl
      rw [walk, Walker.useName_eq_answer, Walker.failures_answer (hhalted w), ← hfailure,
        occurrences, List.filterMap_cons]
      cases n.failureAt? cx (q ++ []) id <;> rfl
  | sequence info form items =>
      refine failures_walkAllFrom hstop [] items hq (fun _ => rfl) rfl pending w ?_
      rw [List.length_nil, viewAtChild_zero rfl rfl, hview]
  | unary info form operand =>
      have hat : n.at? (q ++ [0]) = some operand := at?_concat hq 0
      have hview' : View.mk w.scopes pending = n.startView (q ++ [0]) := by
        rw [hview, startView_concat hq rfl, viewAtChild_zero rfl rfl]
      rw [occurrences, filterMap_below]
      exact failures_walkFrom hstop operand hat (roleAt_concat hq 0) pending w hview'
  | inOf info left right valueOf =>
      have hview' : View.mk w.scopes pending = n.startView (q ++ [0]) := by
        rw [hview, startView_concat hq rfl, viewAtChild_zero rfl rfl]
      have hleft := failures_walkFrom hstop left (at?_concat hq 0) (roleAt_concat hq 0) pending w
        hview'
      have hview'' : View.mk (left.walk cx pending w).2.scopes pending =
          n.startView (q ++ [1]) := by
        have hchildren : (Node.inOf info left right valueOf).children = [] ++ left :: [right] := rfl
        have hnext := viewAtChild_succ hchildren (n.startView q)
        rw [List.length_nil, viewAtChild_zero rfl rfl, ← hview] at hnext
        rw [startView_concat hq rfl, scopes_walk cx pending left w (hhalted _), ← hview]
        exact hnext.symm
      have hright := failures_walkFrom hstop right (at?_concat hq 1) (roleAt_concat hq 1) pending
        (left.walk cx pending w).2 hview''
      rw [walk, hright, hleft, occurrences, List.filterMap_append, filterMap_below,
        filterMap_below, List.append_assoc]

/-- The failures of the walk through the last children of a node. -/
theorem failures_walkAllFrom (hstop : cx.stopAtFirst = false) (front ns : List Node) {m : Node}
    {q : Position} (hq : n.at? q = some m) (huse : ∀ i, m.childRole i = .use)
    (hchildren : m.children = front ++ ns) (pending : Option String) (w : Walker)
    (hview : View.mk w.scopes pending = m.viewAtChild (n.startView q) front.length) :
    (walkAll cx pending ns w).2.failures = w.failures ++
      (occurrencesAll front.length ns).filterMap fun o => n.failureAt? cx (q ++ o.1) o.2 := by
  cases ns with
  | nil => simp [walkAll, occurrencesAll]
  | cons c ns =>
      have hc : m.children[front.length]? = some c := by simp [hchildren]
      have hat : n.at? (q ++ [front.length]) = some c := by rw [at?_concat hq, hc]
      have hfirst := failures_walkFrom hstop c hat ((roleAt_concat hq _).trans (huse _)) pending w
        (hview.trans (startView_concat hq hc).symm)
      have hscopes := scopes_walk cx pending c w (Walker.halted_of_going hstop _)
      have hnext : View.mk (c.walk cx pending w).2.scopes pending =
          m.viewAtChild (n.startView q) (front ++ [c]).length := by
        rw [List.length_append, List.length_singleton, viewAtChild_succ hchildren, ← hview,
          hscopes]
      have hrest := failures_walkAllFrom hstop (front ++ [c]) ns hq huse (by simp [hchildren])
        pending (c.walk cx pending w).2 hnext
      rw [walkAll, hrest, hfirst, occurrencesAll, List.filterMap_append, filterMap_below,
        List.append_assoc, List.length_append, List.length_singleton]

/-- The failures of the walk through the initializer of a declaration. -/
theorem failures_walkOptionFrom (hstop : cx.stopAtFirst = false) (init : Option Node)
    {info : NodeInfo} {name : Identifier} {isConst : Bool} {q : Position}
    (hq : n.at? q = some (.varDecl info name init isConst)) (pending : Option String) (w : Walker)
    (hview : View.mk w.scopes pending = n.startView q) :
    (walkOption cx (if w.scopes.isTopLevel then some name.name else pending) init w).2.failures =
      w.failures ++
        (occurrencesOption init).filterMap fun o => n.failureAt? cx (q ++ o.1) o.2 := by
  cases init with
  | none => exact (List.append_nil _).symm
  | some m =>
      have hview' : View.mk w.scopes (if w.scopes.isTopLevel then some name.name else pending) =
          n.startView (q ++ [1]) := by
        rw [startView_concat hq rfl, ← hview, viewAtChild]
        simp [children, declaredName?, isBlock, localNames, locals, blocksAll, blocks]
      rw [occurrencesOption, filterMap_below]
      exact failures_walkFrom hstop m (at?_concat hq 1) (roleAt_concat hq 1) _ w hview'

end

/-- **Failures of a walk**: a walk that does not stop at a failure finds the failures of the
occurrences, in the order in which it comes to them. -/
theorem failures_walk (hstop : cx.stopAtFirst = false) (n : Node) :
    (n.walk cx none {}).2.failures =
      n.occurrences.filterMap fun o => n.failureAt? cx o.1 o.2 := by
  have hroot : n.at? [] = some n := rfl
  exact failures_walkFrom hstop n hroot rfl none {} rfl

/-- An unbound identifier in an expression fails just if it means nothing, and for that reason. -/
theorem failureAt?_eq_some_iff_means {p : Position} {id : Identifier}
    (hp : n.at? p = some (.identifier id)) (hrole : n.roleAt p = .use) (hid : id.binding = none)
    (hsize : n.blocks.length < UInt32.size) {f : Failure} :
    n.failureAt? cx p id = some f ↔
      ∃ cause, n.Means cx p id (.error cause) ∧ f = ⟨cause, id.info.location⟩ := by
  have hmeans := means_resolve hp hsize cx id
  have hfailure : n.failureAt? cx p id = id.failure?
      (some (cx.resolve (n.startView p).pending (n.startView p).scopes id)) := by
    rw [failureAt?, noticesAt, outcomeAt?, hrole, Identifier.isBound, hid]
    rfl
  rw [hfailure]
  constructor
  · intro h
    cases houtcome : cx.resolve (n.startView p).pending (n.startView p).scopes id with
    | ok b => simp [houtcome, Identifier.failure?] at h
    | error cause =>
        rw [houtcome] at h hmeans
        exact ⟨cause, hmeans, (Option.some.inj h).symm⟩
  · rintro ⟨cause, hcause, rfl⟩
    rw [hcause.unique hmeans]
    rfl

end Node

namespace SourceUnit

/-- **Failures and meanings**: the walk of a unit that does not stop at a failure comes to every
occurrence of the unit, and its failures are those of the occurrences that fail, in this order. Of
the unbound identifiers in expressions, those fail that mean nothing. -/
theorem failures_walk_means (u : SourceUnit) {cx : WalkContext} (hstop : cx.stopAtFirst = false)
    (hsize : u.root.blocks.length < UInt32.size) :
    (u.walk cx).2.failures =
        (u.root.occurrences.filterMap fun o => u.root.failureAt? cx o.1 o.2) ∧
      (u.root.occurrences.map (·.2)).Perm u.identifiers ∧
      (∀ p id, (p, id) ∈ u.root.occurrences ↔ u.root.at? p = some (.identifier id)) ∧
      ∀ p id, u.root.at? p = some (.identifier id) → u.root.roleAt p = .use →
        id.binding = none → ∀ f, u.root.failureAt? cx p id = some f ↔
          ∃ cause, u.skeleton.root.Means cx p id (.error cause) ∧
            f = ⟨cause, id.info.location⟩ := by
  refine ⟨?_, u.root.perm_occurrences, fun p id => Node.mem_occurrences, ?_⟩
  · rw [← Node.failures_walk hstop u.root, walk_root]
  · intro p id hp hrole hid f
    rw [Node.failureAt?_eq_some_iff_means hp hrole hid hsize, root_skeleton]
    constructor
    · rintro ⟨cause, hmeans, rfl⟩
      exact ⟨cause, hmeans.skeleton, rfl⟩
    · rintro ⟨cause, hmeans, rfl⟩
      refine ⟨cause, ?_, rfl⟩
      have h := Node.means_resolve hp hsize cx id
      rwa [← hmeans.unique h.skeleton]

end SourceUnit

end NameResolution
