import NameResolution.Proofs.Position

/-!
# The blocks around a position

`Node.blocks` numbers the blocks of a tree in pre-order, and `Node.locals` lists the declarations
of a tree outside its blocks in the order in which they are finished. From these two,
`Node.frames` reads off, for a position, the blocks that enclose it from the inside out, each with
the declarations of that block that are finished when the position is reached.

Main statements:

* `Node.mem_blocks`, `Node.preorder_blocks`: the blocks are all there, in pre-order;
* `Node.frame_describes`: a frame is an enclosing block, with its number, and holds exactly the
  finished declarations directly in it, in order;
* `Node.exists_frame`: every enclosing block has a frame;
* `Node.pairwise_frames`: the frames go from the inside out;
* `Node.initializes_of_pendingAt?`: the same for the initializer that a position is in.
-/

namespace NameResolution

/-! ## lists of positions below a child -/

/-- Entries at positions below the `i`-th child, as positions below the parent. -/
def below {α : Type} (i : Nat) (entries : List (Position × α)) : List (Position × α) :=
  entries.map fun e => (i :: e.1, e.2)

/-- The entries below a child are its entries, moved there. -/
theorem mem_below {α : Type} {i : Nat} {entries : List (Position × α)} {d : Position} {a : α} :
    (d, a) ∈ below i entries ↔ ∃ e, d = i :: e ∧ (e, a) ∈ entries := by
  simp only [below, List.mem_map, Prod.mk.injEq, Prod.exists]
  constructor
  · rintro ⟨e, b, hmem, rfl, rfl⟩
    exact ⟨e, rfl, hmem⟩
  · rintro ⟨e, rfl, hmem⟩
    exact ⟨e, a, hmem, rfl, rfl⟩

@[simp] theorem map_snd_below {α : Type} (i : Nat) (entries : List (Position × α)) :
    (below i entries).map (·.2) = entries.map (·.2) := by
  simp [below]

/-- The entries of a list are finished one after another. -/
def InOrder {α : Type} (entries : List (Position × α)) : Prop :=
  entries.Pairwise fun a b => Position.FinishesBefore a.1 b.1

/-- Entries in order are in order when they are moved below a child. -/
theorem inOrder_below {α : Type} {entries : List (Position × α)} (i : Nat) (h : InOrder entries) :
    InOrder (below i entries) := by
  rw [InOrder, below, List.pairwise_map]
  exact h.imp Position.cons_finishesBefore_cons

/-- Entries stand in order if those of the first part stand to the left of the others. -/
theorem inOrder_append {α : Type} {first second : List (Position × α)} (hfirst : InOrder first)
    (hsecond : InOrder second)
    (hleft : ∀ a ∈ first, ∀ b ∈ second, Position.LeftOf a.1 b.1) : InOrder (first ++ second) :=
  List.pairwise_append.mpr ⟨hfirst, hsecond, fun a ha b hb => .inl (hleft a ha b hb)⟩

namespace Node

/-! ## blocks in pre-order -/

mutual

/-- The positions of the blocks of a tree in pre-order. -/
def blocks : Node → List Position
  | .block _ body => [] :: blocksAll 0 body
  | .varDecl _ _ init _ => blocksOption init
  | .sequence _ _ items => blocksAll 0 items
  | .unary _ _ operand => operand.blocks.map (0 :: ·)
  | .inOf _ left right _ => left.blocks.map (0 :: ·) ++ right.blocks.map (1 :: ·)
  | .empty _ | .importDecl .. | .exportDecl .. | .literal .. | .identifier _ | .type _ => []

/-- The positions of the blocks below children that are numbered from `i` on. -/
def blocksAll (i : Nat) : List Node → List Position
  | [] => []
  | n :: ns => n.blocks.map (i :: ·) ++ blocksAll (i + 1) ns

/-- The positions of the blocks below an initializer, which is child number one. -/
def blocksOption : Option Node → List Position
  | none => []
  | some n => n.blocks.map (1 :: ·)

end

/-- The blocks in two lists of nodes: the second list is counted on from the first. -/
theorem blocksAll_append (i : Nat) (ns ms : List Node) :
    blocksAll i (ns ++ ms) = blocksAll i ns ++ blocksAll (i + ns.length) ms := by
  induction ns generalizing i with
  | nil => simp [blocksAll]
  | cons n ns ih =>
      rw [List.cons_append, blocksAll, blocksAll, ih, List.append_assoc, List.length_cons]
      congr 3
      omega

theorem blocksAll_map_identifier (i : Nat) (names : List Identifier) :
    blocksAll i (names.map .identifier) = [] := by
  induction names generalizing i with
  | nil => rfl
  | cons id names ih => simp [blocksAll, blocks, ih]

/-- The blocks of a tree: the root, if it is one, and those below the children. -/
theorem blocks_eq (n : Node) :
    n.blocks = (if n.isBlock then [[]] else []) ++ blocksAll 0 n.children := by
  cases n with
  | block => simp [blocks, isBlock, children]
  | varDecl info name init isConst =>
      cases init <;> simp [blocks, blocksOption, isBlock, children, blocksAll]
  | importDecl => simp [blocks, isBlock, children, blocksAll_map_identifier]
  | exportDecl => simp [blocks, isBlock, children, blocksAll_map_identifier]
  | type t => cases t <;> simp [blocks, isBlock, children, blocksAll]
  | _ => simp [blocks, isBlock, children, blocksAll]

/-- The number of blocks that open before the walk reaches the `i`-th child. -/
def blocksBefore (n : Node) (i : Nat) : Nat :=
  (if n.isBlock then 1 else 0) + (blocksAll 0 (n.children.take i)).length

/-- The children of a node, cut at one of them. -/
theorem children_eq_append {n c : Node} {i : Nat} (h : n.children[i]? = some c) :
    n.children = n.children.take i ++ c :: n.children.drop (i + 1) := by
  obtain ⟨hi, rfl⟩ := List.getElem?_eq_some_iff.mp h
  rw [List.getElem_cons_drop, List.take_append_drop]

/-- The blocks of a child stand together, after those that open before the child is reached. -/
theorem blocks_split {n c : Node} {i : Nat} (h : n.children[i]? = some c) :
    ∃ first rest, n.blocks = first ++ (c.blocks.map (i :: ·) ++ rest) ∧
      first.length = n.blocksBefore i := by
  have hlen : (n.children.take i).length = i := by
    rw [List.length_take]
    have hi := (List.getElem?_eq_some_iff.mp h).1
    omega
  have hall : blocksAll 0 n.children = blocksAll 0 (n.children.take i) ++
      (c.blocks.map (i :: ·) ++ blocksAll (i + 1) (n.children.drop (i + 1))) := by
    have hsplit := congrArg (blocksAll 0) (children_eq_append h)
    rwa [blocksAll_append, hlen, Nat.zero_add, blocksAll] at hsplit
  refine ⟨(if n.isBlock then [[]] else []) ++ blocksAll 0 (n.children.take i),
    blocksAll (i + 1) (n.children.drop (i + 1)), ?_, ?_⟩
  · rw [blocks_eq, hall, List.append_assoc]
  · rw [List.length_append, blocksBefore]
    split <;> rfl

/-- The blocks of a child come after those of the children in front of it. -/
theorem getElem?_blocks_of_child {n c : Node} {i k : Nat} {q : Position}
    (h : n.children[i]? = some c) (hq : c.blocks[k]? = some q) :
    n.blocks[n.blocksBefore i + k]? = some (i :: q) := by
  obtain ⟨first, rest, hsplit, hlen⟩ := blocks_split h
  have hk : k < (c.blocks.map (i :: ·)).length := by
    rw [List.length_map]
    exact (List.getElem?_eq_some_iff.mp hq).1
  rw [hsplit, ← hlen, List.getElem?_append_right (Nat.le_add_right _ _), Nat.add_sub_cancel_left,
    List.getElem?_append_left hk, List.getElem?_map, hq]
  rfl

/-- A block in a list of nodes is a block in one of them. -/
theorem mem_blocksAll {k : Nat} {ns : List Node} {q : Position} :
    q ∈ blocksAll k ns ↔ ∃ i c r, ns[i]? = some c ∧ q = (k + i) :: r ∧ r ∈ c.blocks := by
  induction ns generalizing k with
  | nil => simp [blocksAll]
  | cons n ns ih =>
      rw [blocksAll, List.mem_append, List.mem_map, ih]
      constructor
      · rintro (⟨r, hr, rfl⟩ | ⟨i, c, r, hc, rfl, hr⟩)
        · exact ⟨0, n, r, rfl, rfl, hr⟩
        · refine ⟨i + 1, c, r, by simpa using hc, ?_, hr⟩
          rw [Nat.add_assoc, Nat.add_comm 1 i]
      · rintro ⟨i, c, r, hc, rfl, hr⟩
        cases i with
        | zero =>
            obtain rfl : n = c := by simpa using hc
            exact .inl ⟨r, hr, rfl⟩
        | succ i =>
            refine .inr ⟨i, c, r, by simpa using hc, ?_, hr⟩
            rw [Nat.add_assoc, Nat.add_comm 1 i]

/-- The list holds exactly the positions of blocks. -/
theorem mem_blocks {n : Node} {q : Position} : q ∈ n.blocks ↔ n.IsBlockAt q := by
  induction q generalizing n with
  | nil =>
      have hbelow : [] ∉ blocksAll 0 n.children := by
        rw [mem_blocksAll]
        rintro ⟨i, c, r, -, h, -⟩
        cases h
      cases h : n.isBlock <;> simp [blocks_eq, h, hbelow]
  | cons i q ih =>
      have hroot : i :: q ∉ (if n.isBlock then [([] : Position)] else []) := by
        split <;> simp
      rw [blocks_eq, List.mem_append, isBlockAt_cons, mem_blocksAll]
      constructor
      · rintro (h | ⟨j, c, r, hj, h, hr⟩)
        · exact absurd h hroot
        · obtain ⟨rfl, rfl⟩ : i = j ∧ q = r := by simpa using h
          exact ⟨c, hj, ih.mp hr⟩
      · rintro ⟨c, hc, hq⟩
        exact .inr ⟨i, c, q, hc, by simp, ih.mpr hq⟩

/-- The entries of one list of positions come before those of another below later children. -/
theorem preorder_append {first second : List Position}
    (hfirst : first.Pairwise Position.StartsBefore)
    (hsecond : second.Pairwise Position.StartsBefore)
    (hleft : ∀ a ∈ first, ∀ b ∈ second, Position.LeftOf a b) :
    (first ++ second).Pairwise Position.StartsBefore :=
  List.pairwise_append.mpr ⟨hfirst, hsecond, fun a ha b hb => .inr (hleft a ha b hb)⟩

/-- Blocks in preorder are in preorder when they are moved below a child. -/
theorem preorder_map_cons {qs : List Position} (i : Nat) (h : qs.Pairwise Position.StartsBefore) :
    (qs.map (i :: ·)).Pairwise Position.StartsBefore := by
  rw [List.pairwise_map]
  exact h.imp Position.cons_startsBefore_cons

mutual

/-- The list names the blocks in pre-order. -/
theorem preorder_blocks (n : Node) : n.blocks.Pairwise Position.StartsBefore := by
  cases n with
  | block _ body =>
      refine List.pairwise_cons.mpr ⟨fun q hq => ?_, preorder_blocksAll 0 body⟩
      obtain ⟨i, c, r, -, rfl, -⟩ := mem_blocksAll.mp hq
      exact .inl (Position.nil_above_cons _ r)
  | varDecl _ _ init _ => exact preorder_blocksOption init
  | sequence _ _ items => exact preorder_blocksAll 0 items
  | unary _ _ operand => exact preorder_map_cons 0 (preorder_blocks operand)
  | inOf _ left right _ =>
      refine preorder_append (preorder_map_cons 0 (preorder_blocks left))
        (preorder_map_cons 1 (preorder_blocks right)) ?_
      intro a ha b hb
      obtain ⟨q, -, rfl⟩ := List.mem_map.mp ha
      obtain ⟨r, -, rfl⟩ := List.mem_map.mp hb
      exact .inl (by omega)
  | _ => exact List.Pairwise.nil

/-- The blocks in a list of nodes come in preorder. -/
theorem preorder_blocksAll (k : Nat) (ns : List Node) :
    (blocksAll k ns).Pairwise Position.StartsBefore := by
  cases ns with
  | nil => exact List.Pairwise.nil
  | cons n ns =>
      refine preorder_append (preorder_map_cons k (preorder_blocks n))
        (preorder_blocksAll (k + 1) ns) ?_
      intro a ha b hb
      obtain ⟨q, -, rfl⟩ := List.mem_map.mp ha
      obtain ⟨i, c, r, -, rfl, -⟩ := mem_blocksAll.mp hb
      exact .inl (by omega)

theorem preorder_blocksOption (init : Option Node) :
    (blocksOption init).Pairwise Position.StartsBefore := by
  cases init with
  | none => exact List.Pairwise.nil
  | some n => exact preorder_map_cons 1 (preorder_blocks n)

end

/-- No block is listed twice. -/
theorem nodup_blocks (n : Node) : n.blocks.Nodup := by
  refine (preorder_blocks n).imp ?_
  rintro a b h rfl
  exact Position.not_startsBefore_self a h

/-! ## declarations outside blocks -/

mutual

/-- The declarations of a tree outside its blocks, in the order in which they are finished: those
in an initializer come before the declaration itself. -/
def locals : Node → List (Position × Identifier)
  | .varDecl _ name init _ => localsOption init ++ [([], name)]
  | .sequence _ _ items => localsAll 0 items
  | .unary _ _ operand => below 0 operand.locals
  | .inOf _ left right _ => below 0 left.locals ++ below 1 right.locals
  | .empty _ | .block .. | .importDecl .. | .exportDecl .. | .literal .. | .identifier _
  | .type _ => []

/-- The declarations below children that are numbered from `i` on. -/
def localsAll (i : Nat) : List Node → List (Position × Identifier)
  | [] => []
  | n :: ns => below i n.locals ++ localsAll (i + 1) ns

/-- The declarations below an initializer, which is child number one. -/
def localsOption : Option Node → List (Position × Identifier)
  | none => []
  | some n => below 1 n.locals

end

theorem localsAll_map_identifier (i : Nat) (names : List Identifier) :
    localsAll i (names.map .identifier) = [] := by
  induction names generalizing i with
  | nil => rfl
  | cons id names ih => simp [localsAll, locals, below, ih]

/-- The declarations of a tree: those below the children, unless the root is a block, and then the
root itself. -/
theorem locals_eq (n : Node) :
    n.locals = (if n.isBlock then [] else localsAll 0 n.children) ++
      (n.declaredName?.map fun id => (([] : Position), id)).toList := by
  cases n with
  | block => simp [locals, isBlock, declaredName?]
  | varDecl info name init isConst =>
      cases init <;>
        simp [locals, localsOption, isBlock, children, localsAll, below, declaredName?]
  | importDecl => simp [locals, isBlock, children, localsAll_map_identifier, declaredName?]
  | exportDecl => simp [locals, isBlock, children, localsAll_map_identifier, declaredName?]
  | type t => cases t <;> simp [locals, isBlock, children, localsAll, below, declaredName?]
  | _ => simp [locals, isBlock, children, localsAll, below, declaredName?]

/-- A local name in a list of nodes is a local name in one of them. -/
theorem mem_localsAll {k : Nat} {ns : List Node} {d : Position} {id : Identifier} :
    (d, id) ∈ localsAll k ns ↔
      ∃ i c e, ns[i]? = some c ∧ d = (k + i) :: e ∧ (e, id) ∈ c.locals := by
  induction ns generalizing k with
  | nil => simp [localsAll]
  | cons n ns ih =>
      rw [localsAll, List.mem_append, mem_below, ih]
      constructor
      · rintro (⟨e, rfl, he⟩ | ⟨i, c, e, hc, rfl, he⟩)
        · exact ⟨0, n, e, rfl, rfl, he⟩
        · refine ⟨i + 1, c, e, by simpa using hc, ?_, he⟩
          rw [Nat.add_assoc, Nat.add_comm 1 i]
      · rintro ⟨i, c, e, hc, rfl, he⟩
        cases i with
        | zero =>
            obtain rfl : n = c := by simpa using hc
            exact .inl ⟨e, rfl, he⟩
        | succ i =>
            refine .inr ⟨i, c, e, by simpa using hc, ?_, he⟩
            rw [Nat.add_assoc, Nat.add_comm 1 i]

/-- The list holds exactly the declarations outside all blocks. -/
theorem mem_locals {n : Node} {d : Position} {id : Identifier} :
    (d, id) ∈ n.locals ↔ n.declaredAt? d = some id ∧ n.OutsideBlocks d := by
  induction d generalizing n with
  | nil =>
      rw [locals_eq, List.mem_append]
      have hnone : (([] : Position), id) ∉ (if n.isBlock then [] else localsAll 0 n.children) := by
        split
        · simp
        · rw [mem_localsAll]
          rintro ⟨i, c, e, -, h, -⟩
          cases h
      cases h : n.declaredName? <;> simp [hnone, h, Prod.ext_iff, @eq_comm _ id]
  | cons i d ih =>
      rw [locals_eq, List.mem_append]
      have hroot : (i :: d, id) ∉ (n.declaredName?.map fun id => (([] : Position), id)).toList := by
        cases n.declaredName? <;> simp
      cases hc : n.children[i]? with
      | none =>
          have hnone : (i :: d, id) ∉ (if n.isBlock then [] else localsAll 0 n.children) := by
            split
            · simp
            · rw [mem_localsAll]
              rintro ⟨j, c, e, hj, h, -⟩
              obtain ⟨rfl, rfl⟩ : i = j ∧ d = e := by simpa using h
              simp [hc] at hj
          simp [hroot, hnone, hc]
      | some c =>
          rw [outsideBlocks_cons hc, declaredAt?_cons, hc, Option.bind_some]
          cases hb : n.isBlock with
          | true => simp [hroot]
          | false =>
              simp only [Bool.false_eq_true, if_false, hroot, or_false, true_and]
              rw [← ih, mem_localsAll]
              constructor
              · rintro ⟨j, c', e, hj, h, he⟩
                obtain ⟨rfl, rfl⟩ : i = j ∧ d = e := by simpa using h
                obtain rfl : c = c' := by simpa [hc] using hj
                exact he
              · intro he
                exact ⟨i, c, d, hc, by simp, he⟩

mutual

/-- The list names the declarations in the order in which they are finished. -/
theorem inOrder_locals (n : Node) : InOrder n.locals := by
  cases n with
  | varDecl _ name init _ =>
      refine List.pairwise_append.mpr ⟨inOrder_localsOption init, List.pairwise_singleton _ _, ?_⟩
      intro a ha b hb
      obtain rfl : b = ([], name) := by simpa using hb
      -- Whatever is in the initializer stands below the declaration.
      cases init with
      | none => simp [localsOption] at ha
      | some m =>
          obtain ⟨e, he, -⟩ := mem_below.mp (show (a.1, a.2) ∈ below 1 m.locals from ha)
          rw [he]
          exact .inr (Position.nil_above_cons 1 e)
  | sequence _ _ items => exact inOrder_localsAll 0 items
  | unary _ _ operand => exact inOrder_below 0 (inOrder_locals operand)
  | inOf _ left right _ =>
      refine inOrder_append (inOrder_below 0 (inOrder_locals left))
        (inOrder_below 1 (inOrder_locals right)) ?_
      rintro ⟨d, a⟩ ha ⟨e, b⟩ hb
      obtain ⟨d', rfl, -⟩ := mem_below.mp ha
      obtain ⟨e', rfl, -⟩ := mem_below.mp hb
      exact .inl (by omega)
  | _ => exact List.Pairwise.nil

/-- The local names in a list of nodes come in order. -/
theorem inOrder_localsAll (k : Nat) (ns : List Node) : InOrder (localsAll k ns) := by
  cases ns with
  | nil => exact List.Pairwise.nil
  | cons n ns =>
      refine inOrder_append (inOrder_below k (inOrder_locals n)) (inOrder_localsAll (k + 1) ns) ?_
      rintro ⟨d, a⟩ ha ⟨e, b⟩ hb
      obtain ⟨d', rfl, -⟩ := mem_below.mp ha
      obtain ⟨i, c, e', -, rfl, -⟩ := mem_localsAll.mp hb
      exact .inl (by omega)

theorem inOrder_localsOption (init : Option Node) : InOrder (localsOption init) := by
  cases init with
  | none => exact List.Pairwise.nil
  | some n => exact inOrder_below 1 (inOrder_locals n)

end

/-! ## declarations before a position -/

/-- The declarations below a node that are finished when the walk reaches a position, without
those in blocks below the node. -/
def localsBefore : Node → Position → List (Position × Identifier)
  | _, [] => []
  | n, i :: p =>
    localsAll 0 (n.children.take i) ++
      (n.children[i]?).elim [] fun c => if c.isBlock then [] else below i (c.localsBefore p)

/-- A local name in the first children is one in a child among them. -/
theorem mem_localsAll_take {n : Node} {i : Nat} {d : Position} {id : Identifier} :
    (d, id) ∈ localsAll 0 (n.children.take i) ↔
      ∃ j c e, d = j :: e ∧ n.children[j]? = some c ∧ j < i ∧ (e, id) ∈ c.locals := by
  rw [mem_localsAll]
  constructor
  · rintro ⟨j, c, e, hj, rfl, he⟩
    rw [List.getElem?_take] at hj
    split at hj
    · next hlt => exact ⟨j, c, e, by simp, hj, hlt, he⟩
    · cases hj
  · rintro ⟨j, c, e, rfl, hj, hlt, he⟩
    exact ⟨j, c, e, by rw [List.getElem?_take, if_pos hlt, hj], by simp, he⟩

/-- What is finished before a position: the declarations to its left, outside of further blocks. -/
theorem mem_localsBefore {n : Node} {p d : Position} {id : Identifier} :
    (d, id) ∈ n.localsBefore p ↔
      ∃ j c e, d = j :: e ∧ n.children[j]? = some c ∧ c.declaredAt? e = some id ∧
        c.OutsideBlocks e ∧ Position.LeftOf (j :: e) p := by
  induction p generalizing n d with
  | nil => simp [localsBefore]
  | cons i p ih =>
      rw [localsBefore, List.mem_append, mem_localsAll_take]
      constructor
      · rintro (⟨j, c, e, rfl, hj, hlt, he⟩ | hmem)
        · obtain ⟨hdecl, hout⟩ := mem_locals.mp he
          exact ⟨j, c, e, rfl, hj, hdecl, hout, .inl hlt⟩
        · cases hi : n.children[i]? with
          | none => simp [hi] at hmem
          | some c =>
              rw [hi, Option.elim_some] at hmem
              split at hmem
              · simp at hmem
              · next hblock =>
                obtain ⟨e, rfl, he⟩ := mem_below.mp hmem
                obtain ⟨j, c', e', rfl, hj, hdecl, hout, hleft⟩ := ih.mp he
                refine ⟨i, c, j :: e', rfl, hi, by simpa [hj] using hdecl, ?_, .inr ⟨rfl, hleft⟩⟩
                exact (outsideBlocks_cons hj).mpr ⟨by simpa using hblock, hout⟩
      · rintro ⟨j, c, e, rfl, hj, hdecl, hout, hlt | ⟨rfl, hleft⟩⟩
        · exact .inl ⟨j, c, e, rfl, hj, hlt, mem_locals.mpr ⟨hdecl, hout⟩⟩
        · -- The declaration is below the child on the way to the position: it is no block.
          refine .inr ?_
          cases e with
          | nil => simp at hleft
          | cons k e =>
              obtain ⟨c', hk, hdecl⟩ :
                  ∃ c', c.children[k]? = some c' ∧ c'.declaredAt? e = some id := by
                simpa [Option.bind_eq_some_iff] using hdecl
              obtain ⟨hblock, hout⟩ := (outsideBlocks_cons hk).mp hout
              rw [hj, Option.elim_some, if_neg (by simp [hblock])]
              exact mem_below.mpr ⟨k :: e, rfl, ih.mpr ⟨k, c', e, rfl, hk, hdecl, hout, hleft⟩⟩

/-- The local names before a position come in order. -/
theorem inOrder_localsBefore (n : Node) (p : Position) : InOrder (n.localsBefore p) := by
  induction p generalizing n with
  | nil => exact List.Pairwise.nil
  | cons i p ih =>
      have hchild : InOrder ((n.children[i]?).elim [] fun c =>
          if c.isBlock then [] else below i (c.localsBefore p)) := by
        cases n.children[i]? with
        | none => exact List.Pairwise.nil
        | some c =>
            rw [Option.elim_some]
            split
            · exact List.Pairwise.nil
            · exact inOrder_below i (ih c)
      refine inOrder_append (inOrder_localsAll 0 _) hchild ?_
      rintro ⟨d, a⟩ ha ⟨e, b⟩ hb
      obtain ⟨j, c, d', rfl, -, hlt, -⟩ := mem_localsAll_take.mp ha
      cases hi : n.children[i]? with
      | none => simp [hi] at hb
      | some c =>
          rw [hi, Option.elim_some] at hb
          split at hb
          · simp at hb
          · obtain ⟨e', rfl, -⟩ := mem_below.mp hb
            exact .inl hlt

end Node

/-! ## frames -/

/-- A block around a position: where it stands, its number among the blocks in pre-order, and its
declarations that are finished when the position is reached. -/
structure Frame where
  block : Position
  index : Nat
  finished : List (Position × Identifier)

/-- A frame of the `i`-th child as a frame of the parent. -/
def Frame.lift (n : Node) (i : Nat) (f : Frame) : Frame :=
  ⟨i :: f.block, n.blocksBefore i + f.index, below i f.finished⟩

/-- What the frame of a block around the position `p` is. -/
structure Frame.Describes (f : Frame) (n : Node) (p : Position) : Prop where
  index : n.blocks[f.index]? = some f.block
  isBlock : n.IsBlockAt f.block
  above : Position.Above f.block p
  inOrder : InOrder f.finished
  mem_finished : ∀ d id, (d, id) ∈ f.finished ↔
    n.declaredAt? d = some id ∧ n.DirectlyIn f.block d ∧ Position.LeftOf d p

namespace Node

/-- The frames of the blocks around a position, from the inside out. -/
def frames : Node → Position → List Frame
  | _, [] => []
  | n, i :: p =>
    ((n.children[i]?).elim [] fun c => (c.frames p).map (Frame.lift n i)) ++
      if n.isBlock then [⟨[], 0, n.localsBefore (i :: p)⟩] else []

/-- The frames at a position below a child: those in the child, and one for the node if it is a
block. -/
theorem mem_frames_cons {n : Node} {i : Nat} {p : Position} {f : Frame} :
    f ∈ n.frames (i :: p) ↔
      (∃ c g, n.children[i]? = some c ∧ g ∈ c.frames p ∧ f = g.lift n i) ∨
        n.isBlock = true ∧ f = ⟨[], 0, n.localsBefore (i :: p)⟩ := by
  rw [frames, List.mem_append]
  have hself : f ∈ (if n.isBlock then [(⟨[], 0, n.localsBefore (i :: p)⟩ : Frame)] else []) ↔
      n.isBlock = true ∧ f = ⟨[], 0, n.localsBefore (i :: p)⟩ := by
    split <;> simp_all
  rw [hself]
  refine or_congr ?_ Iff.rfl
  cases hi : n.children[i]? with
  | none => simp
  | some c =>
      constructor
      · intro hf
        obtain ⟨g, hg, rfl⟩ := List.mem_map.mp hf
        exact ⟨c, g, rfl, hg, rfl⟩
      · rintro ⟨c', g, hc, hg, rfl⟩
        obtain rfl : c = c' := by simpa using hc
        exact List.mem_map_of_mem hg

/-- The frame of a block that is the root. -/
theorem describes_root {n : Node} (hblock : n.isBlock = true) (i : Nat) (p : Position) :
    Frame.Describes ⟨[], 0, n.localsBefore (i :: p)⟩ n (i :: p) where
  index := by rw [blocks_eq, hblock]; rfl
  isBlock := (isBlockAt_nil n).mpr hblock
  above := Position.nil_above_cons i p
  inOrder := inOrder_localsBefore n (i :: p)
  mem_finished d id := by
    rw [mem_localsBefore]
    constructor
    · rintro ⟨j, c, e, rfl, hj, hdecl, hout, hleft⟩
      refine ⟨by simpa [hj] using hdecl, ?_, hleft⟩
      exact (directlyIn_nil_cons hj).mpr ⟨hblock, hout⟩
    · rintro ⟨hdecl, hdir, hleft⟩
      cases d with
      | nil => simp at hleft
      | cons j e =>
          obtain ⟨c, hj, hdecl⟩ : ∃ c, n.children[j]? = some c ∧ c.declaredAt? e = some id := by
            simpa [Option.bind_eq_some_iff] using hdecl
          exact ⟨j, c, e, rfl, hj, hdecl, ((directlyIn_nil_cons hj).mp hdir).2, hleft⟩

/-- The frame of a block below a child. -/
theorem describes_lift {n c : Node} {i : Nat} {p : Position} {f : Frame}
    (hi : n.children[i]? = some c) (h : f.Describes c p) : (f.lift n i).Describes n (i :: p) where
  index := getElem?_blocks_of_child hi h.index
  isBlock := (isBlockAt_cons n i f.block).mpr ⟨c, hi, h.isBlock⟩
  above := Position.cons_above_cons.mpr ⟨rfl, h.above⟩
  inOrder := inOrder_below i h.inOrder
  mem_finished d id := by
    rw [Frame.lift, mem_below]
    constructor
    · rintro ⟨e, rfl, he⟩
      obtain ⟨hdecl, hdir, hleft⟩ := (h.mem_finished e id).mp he
      exact ⟨by simpa [hi] using hdecl, (directlyIn_cons_cons hi).mpr hdir, .inr ⟨rfl, hleft⟩⟩
    · rintro ⟨hdecl, hdir, hleft⟩
      cases d with
      | nil => simp at hleft
      | cons j e =>
          obtain ⟨rfl, -⟩ := Position.cons_above_cons.mp hdir.above
          have hleft' : Position.LeftOf e p := by simpa using hleft
          have hdecl' : c.declaredAt? e = some id := by simpa [hi] using hdecl
          exact ⟨e, rfl, (h.mem_finished e id).mpr
            ⟨hdecl', (directlyIn_cons_cons hi).mp hdir, hleft'⟩⟩

/-- **Frames, soundness**: every frame describes a block around the position. -/
theorem frame_describes {n : Node} {p : Position} {f : Frame} (h : f ∈ n.frames p) :
    f.Describes n p := by
  induction p generalizing n f with
  | nil => simp [frames] at h
  | cons i p ih =>
      rcases mem_frames_cons.mp h with ⟨c, g, hi, hg, rfl⟩ | ⟨hblock, rfl⟩
      · exact describes_lift hi (ih hg)
      · exact describes_root hblock i p

/-- **Frames, completeness**: every block around a position has a frame. -/
theorem exists_frame {n : Node} {p q : Position} (hblock : n.IsBlockAt q)
    (habove : Position.Above q p) : ∃ f ∈ n.frames p, f.block = q := by
  induction p generalizing n q with
  | nil => exact absurd habove (Position.not_above_nil q)
  | cons i p ih =>
      cases q with
      | nil =>
          exact ⟨_, mem_frames_cons.mpr (.inr ⟨(isBlockAt_nil n).mp hblock, rfl⟩), rfl⟩
      | cons j q =>
          obtain ⟨rfl, hbelow⟩ := Position.cons_above_cons.mp habove
          obtain ⟨c, hj, hblock⟩ := (isBlockAt_cons n j q).mp hblock
          obtain ⟨g, hg, rfl⟩ := ih hblock hbelow
          exact ⟨g.lift n j, mem_frames_cons.mpr (.inl ⟨c, g, hj, hg, rfl⟩), rfl⟩

/-- **Frames, order**: the frames go from the inside out. -/
theorem pairwise_frames (n : Node) (p : Position) :
    (n.frames p).Pairwise fun f g => Position.Above g.block f.block := by
  induction p generalizing n with
  | nil => exact List.Pairwise.nil
  | cons i p ih =>
      rw [frames]
      refine List.pairwise_append.mpr ⟨?_, ?_, ?_⟩
      · cases n.children[i]? with
        | none => exact List.Pairwise.nil
        | some c =>
            rw [Option.elim_some, List.pairwise_map]
            exact (ih c).imp fun h => Position.cons_above_cons.mpr ⟨rfl, h⟩
      · split
        · exact List.pairwise_singleton _ _
        · exact List.Pairwise.nil
      · intro f hf g hg
        split at hg
        · obtain rfl : g = ⟨[], 0, n.localsBefore (i :: p)⟩ := by simpa using hg
          cases hi : n.children[i]? with
          | none => simp [hi] at hf
          | some c =>
              obtain ⟨f', -, rfl⟩ : ∃ f' ∈ c.frames p, f'.lift n i = f := by simpa [hi] using hf
              exact Position.nil_above_cons i f'.block
        · simp at hg

/-- A position without frames is outside all blocks. -/
theorem frames_eq_nil_iff {n : Node} {p : Position} : n.frames p = [] ↔ n.OutsideBlocks p := by
  constructor
  · intro h q habove hblock
    obtain ⟨f, hf, -⟩ := exists_frame hblock habove
    simp [h] at hf
  · intro h
    refine List.eq_nil_iff_forall_not_mem.mpr fun f hf => ?_
    have hdesc := frame_describes hf
    exact h f.block hdesc.above hdesc.isBlock

/-! ## the pending declaration -/

/-- `d` is a declaration outside all blocks with the position in its initializer. -/
structure Initializes (n : Node) (p d : Position) (id : Identifier) : Prop where
  declared : n.declaredAt? d = some id
  above : Position.Above d p
  outside : n.OutsideBlocks d

/-- The innermost declaration outside all blocks that has a position in its initializer. -/
def pendingAt? : Node → Position → Option (Position × Identifier)
  | _, [] => none
  | n, i :: p =>
    if n.isBlock then none
    else
      ((n.children[i]?).bind fun c => (c.pendingAt? p).map fun e => (i :: e.1, e.2)).or
        (n.declaredName?.map fun id => ([], id))

/-- A declaration in a child initializes the same positions from above, but not from a block. -/
theorem initializes_cons {n c : Node} {i : Nat} {p d : Position} {id : Identifier}
    (hi : n.children[i]? = some c) :
    n.Initializes (i :: p) (i :: d) id ↔ n.isBlock = false ∧ c.Initializes p d id := by
  constructor
  · rintro ⟨hdecl, habove, hout⟩
    obtain ⟨hblock, hout⟩ := (outsideBlocks_cons hi).mp hout
    exact ⟨hblock, by simpa [hi] using hdecl, (Position.cons_above_cons.mp habove).2, hout⟩
  · rintro ⟨hblock, hdecl, habove, hout⟩
    exact ⟨by simpa [hi] using hdecl, Position.cons_above_cons.mpr ⟨rfl, habove⟩,
      (outsideBlocks_cons hi).mpr ⟨hblock, hout⟩⟩

theorem declaredName?_of_isBlock {n : Node} (h : n.isBlock = true) : n.declaredName? = none := by
  cases n <;> simp_all [isBlock, declaredName?]

/-- The pending declaration below a child: the innermost one, and none across a block. -/
theorem pendingAt?_cons {n c : Node} {i : Nat} (p : Position) (hi : n.children[i]? = some c) :
    n.pendingAt? (i :: p) = if n.isBlock then none
      else ((c.pendingAt? p).map fun e => (i :: e.1, e.2)).or
        (n.declaredName?.map fun id => ([], id)) := by
  rw [pendingAt?, hi, Option.bind_some]

/-- Nothing is pending at a position that is in no initializer of a declaration outside blocks. -/
theorem not_initializes_of_pendingAt? {n m : Node} {p : Position} (hp : n.at? p = some m)
    (h : n.pendingAt? p = none) (d : Position) (id : Identifier) : ¬ n.Initializes p d id := by
  induction p generalizing n d with
  | nil => exact fun hinit => Position.not_above_nil d hinit.above
  | cons i p ih =>
      intro hinit
      obtain ⟨c, hi, hc⟩ := Option.bind_eq_some_iff.mp hp
      rw [pendingAt?_cons p hi] at h
      cases d with
      | nil =>
          have hdecl : n.declaredName? = some id := hinit.declared
          split at h
          · next hblock => simp [declaredName?_of_isBlock hblock] at hdecl
          · simp [hdecl] at h
      | cons j d =>
          obtain ⟨rfl, -⟩ := Position.cons_above_cons.mp hinit.above
          obtain ⟨hblock, hinit⟩ := (initializes_cons hi).mp hinit
          rw [if_neg (by simp [hblock])] at h
          have hnone : c.pendingAt? p = none := by
            cases he : c.pendingAt? p with
            | none => rfl
            | some e => simp [he] at h
          exact ih hc hnone d hinit

/-- The pending declaration is one with the position in its initializer, and no such declaration
stands deeper. -/
theorem initializes_of_pendingAt? {n m : Node} {p d : Position} {id : Identifier}
    (hp : n.at? p = some m) (h : n.pendingAt? p = some (d, id)) :
    n.Initializes p d id ∧ ∀ e other, n.Initializes p e other → e <+: d := by
  induction p generalizing n d with
  | nil => simp [pendingAt?] at h
  | cons i p ih =>
      obtain ⟨c, hi, hc⟩ := Option.bind_eq_some_iff.mp hp
      rw [pendingAt?_cons p hi] at h
      split at h
      · cases h
      · next hblock =>
        cases hpend : c.pendingAt? p with
        | some e =>
            obtain ⟨rfl, rfl⟩ : i :: e.1 = d ∧ e.2 = id := by simpa [hpend] using h
            obtain ⟨hinit, hinner⟩ := ih hc hpend
            refine ⟨(initializes_cons hi).mpr ⟨by simpa using hblock, hinit⟩, ?_⟩
            rintro (_ | ⟨j, f⟩) other hother
            · exact List.nil_prefix
            · obtain ⟨rfl, -⟩ := Position.cons_above_cons.mp hother.above
              exact List.cons_prefix_cons.mpr
                ⟨rfl, hinner f other ((initializes_cons hi).mp hother).2⟩
        | none =>
            rw [hpend, Option.map_none, Option.none_or] at h
            obtain ⟨id', hdecl, heq⟩ := Option.map_eq_some_iff.mp h
            obtain ⟨rfl, rfl⟩ : [] = d ∧ id' = id := by simpa using heq
            refine ⟨⟨hdecl, Position.nil_above_cons i p, outsideBlocks_nil n⟩, ?_⟩
            rintro (_ | ⟨j, e⟩) other hother
            · exact List.nil_prefix
            · -- A declaration below the child would be pending there.
              obtain ⟨rfl, -⟩ := Position.cons_above_cons.mp hother.above
              have hinit := ((initializes_cons hi).mp hother).2
              exact absurd hinit (not_initializes_of_pendingAt? hc hpend e other)

end Node

end NameResolution
