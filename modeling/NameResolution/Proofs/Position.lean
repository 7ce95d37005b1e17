import NameResolution.Resolver.ModuleTable

/-!
# Positions in a tree

A position is the list of child numbers that leads from the root of a tree to one of its nodes.
Declared names and the names of import and export declarations are children too, so every
occurrence of an identifier has a position of its own.

Two relations order positions, `Position.Above` (towards the root) and `Position.LeftOf` (in an
earlier branch), and from them come the orders in which the walk of a tree enters and leaves its
nodes, `Position.StartsBefore` and `Position.FinishesBefore`. What a position is worth to the walk
is read off the tree: which blocks enclose it, which block a declaration belongs to, and in which
role an identifier stands there.
-/

namespace NameResolution

/-- A path of child numbers from the root of a tree. -/
abbrev Position := List Nat

/-! ## the order of positions -/

namespace Position

/-- `q` is a proper ancestor of `p`. -/
def Above (q p : Position) : Prop := q <+: p ∧ q ≠ p

instance (q p : Position) : Decidable (Above q p) := inferInstanceAs (Decidable (_ ∧ _))

/-- Where the two positions part, `d` turns into an earlier child than `p`. -/
def LeftOf : Position → Position → Prop
  | i :: d, j :: p => i < j ∨ i = j ∧ LeftOf d p
  | _, _ => False

/-- The node at `q` is entered before the node at `p` is: it stands above or to the left. -/
def StartsBefore (q p : Position) : Prop := Above q p ∨ LeftOf q p

/-- The node at `d` is left before the node at `e` is: it stands to the left or below. -/
def FinishesBefore (d e : Position) : Prop := LeftOf d e ∨ Above e d

@[simp] theorem not_above_nil (q : Position) : ¬ Above q [] := by
  rintro ⟨hpre, hne⟩
  exact hne (List.prefix_nil.mp hpre)

@[simp] theorem nil_above_cons (i : Nat) (p : Position) : Above [] (i :: p) :=
  ⟨List.nil_prefix, by simp⟩

/-- Below a child, standing above is a matter of the rest of the positions. -/
@[simp] theorem cons_above_cons {i j : Nat} {q p : Position} :
    Above (i :: q) (j :: p) ↔ i = j ∧ Above q p := by
  simp only [Above, List.cons_prefix_cons, ne_eq, List.cons.injEq]
  constructor
  · rintro ⟨⟨rfl, hpre⟩, hne⟩
    exact ⟨rfl, hpre, fun h => hne ⟨rfl, h⟩⟩
  · rintro ⟨rfl, hpre, hne⟩
    exact ⟨⟨rfl, hpre⟩, fun h => hne h.2⟩

/-- What is above a child is its parent or above the parent. -/
theorem above_concat_iff {q p : Position} {i : Nat} : Above q (p ++ [i]) ↔ q <+: p := by
  constructor
  · rintro ⟨hpre, hne⟩
    rcases List.prefix_concat_iff.mp hpre with h | h
    · exact absurd h hne
    · exact h
  · intro h
    refine ⟨h.trans (List.prefix_append p [i]), ?_⟩
    rintro rfl
    have hlen := h.length_le
    rw [List.length_append, List.length_singleton] at hlen
    omega

theorem Above.trans {a b c : Position} (hab : Above a b) (hbc : Above b c) : Above a c := by
  refine ⟨hab.1.trans hbc.1, ?_⟩
  rintro rfl
  exact hab.2 (hab.1.eq_of_length_le hbc.1.length_le)

theorem not_above_self (p : Position) : ¬ Above p p := fun h => h.2 rfl

@[simp] theorem not_leftOf_nil (d : Position) : ¬ LeftOf d [] := by
  cases d <;> simp [LeftOf]

@[simp] theorem not_nil_leftOf (p : Position) : ¬ LeftOf [] p := by
  simp [LeftOf]

@[simp] theorem cons_leftOf_cons {i j : Nat} {d p : Position} :
    LeftOf (i :: d) (j :: p) ↔ i < j ∨ i = j ∧ LeftOf d p := Iff.rfl

theorem LeftOf.trans {a b c : Position} (hab : LeftOf a b) (hbc : LeftOf b c) : LeftOf a c := by
  induction a generalizing b c with
  | nil => simp at hab
  | cons i a ih =>
      cases b with
      | nil => simp at hab
      | cons j b =>
          cases c with
          | nil => simp at hbc
          | cons k c =>
              rw [cons_leftOf_cons] at hab hbc ⊢
              rcases hab with hij | ⟨rfl, hab⟩
              · rcases hbc with hjk | ⟨rfl, -⟩
                · exact .inl (by omega)
                · exact .inl hij
              · rcases hbc with hjk | ⟨rfl, hbc⟩
                · exact .inl hjk
                · exact .inr ⟨rfl, ih hab hbc⟩

theorem not_leftOf_self (p : Position) : ¬ LeftOf p p := by
  induction p with
  | nil => simp
  | cons i p ih => simp [ih]

/-- What is below a position stands where the position stands. -/
theorem LeftOf.of_above {d e p : Position} (hdp : LeftOf d p) (hde : Above d e) : LeftOf e p := by
  induction d generalizing e p with
  | nil => simp at hdp
  | cons i d ih =>
      cases p with
      | nil => simp at hdp
      | cons j p =>
          cases e with
          | nil => simp at hde
          | cons k e =>
              rw [cons_above_cons] at hde
              obtain ⟨rfl, hde⟩ := hde
              rcases hdp with hij | ⟨rfl, hdp⟩
              · exact .inl hij
              · exact .inr ⟨rfl, ih hdp hde⟩

/-- What stands above does not stand to the left. -/
theorem not_leftOf_of_above {d e : Position} (h : Above d e) : ¬ LeftOf d e := by
  intro hl
  exact not_leftOf_self e (hl.of_above h)

/-- What finishes before a position to the left of `p` is to the left of `p` itself. -/
theorem FinishesBefore.leftOf {d e p : Position} (h : FinishesBefore d e) (he : LeftOf e p) :
    LeftOf d p := by
  rcases h with h | h
  · exact h.trans he
  · exact he.of_above h

/-- Of two nodes, at most one is finished before the other. -/
theorem FinishesBefore.asymm {d e : Position} (h : FinishesBefore d e) :
    ¬ FinishesBefore e d := by
  rintro (h' | h')
  · rcases h with h | h
    · exact not_leftOf_self d (h.trans h')
    · exact not_leftOf_of_above h h'
  · rcases h with h | h
    · exact not_leftOf_of_above h' h
    · exact not_above_self d (h'.trans h)

theorem not_startsBefore_self (p : Position) : ¬ StartsBefore p p := by
  rintro (h | h)
  · exact not_above_self p h
  · exact not_leftOf_self p h

theorem cons_startsBefore_cons {i : Nat} {q p : Position} (h : StartsBefore q p) :
    StartsBefore (i :: q) (i :: p) := by
  rcases h with h | h
  · exact .inl (cons_above_cons.mpr ⟨rfl, h⟩)
  · exact .inr (.inr ⟨rfl, h⟩)

theorem cons_finishesBefore_cons {i : Nat} {d e : Position} (h : FinishesBefore d e) :
    FinishesBefore (i :: d) (i :: e) := by
  rcases h with h | h
  · exact .inl (.inr ⟨rfl, h⟩)
  · exact .inr (cons_above_cons.mpr ⟨rfl, h⟩)

/-- Of two positions one is finished first. -/
theorem FinishesBefore.total {d e : Position} (h : d ≠ e) :
    FinishesBefore d e ∨ FinishesBefore e d := by
  induction d generalizing e with
  | nil =>
      cases e with
      | nil => exact absurd rfl h
      | cons j e => exact .inr (.inr (nil_above_cons j e))
  | cons i d ih =>
      cases e with
      | nil => exact .inl (.inr (nil_above_cons i d))
      | cons j e =>
          rcases Nat.lt_trichotomy i j with hlt | rfl | hlt
          · exact .inl (.inl (.inl hlt))
          · rcases ih fun he => h (congrArg (i :: ·) he) with hd | he
            · exact .inl (cons_finishesBefore_cons hd)
            · exact .inr (cons_finishesBefore_cons he)
          · exact .inr (.inl (.inl hlt))

end Position

/-! ## nodes at positions -/

/-- The role in which a child of a node stands there, if it is an identifier. -/
inductive Role where
  /-- An expression. -/
  | use
  /-- The name of a variable declaration. -/
  | declared
  /-- A name of an import declaration. -/
  | imported
  /-- A name of an export declaration. -/
  | exported
deriving DecidableEq

namespace Node

/-- The node at a position. -/
def at? : Node → Position → Option Node
  | n, [] => some n
  | n, i :: p => n.children[i]?.bind fun c => c.at? p

/-- The role of the `i`-th child of a node. -/
def childRole : Node → Nat → Role
  | .varDecl .., 0 => .declared
  | .importDecl .., _ => .imported
  | .exportDecl .., _ => .exported
  | _, _ => .use

/-- The role of what stands at a position. -/
def roleAt : Node → Position → Role
  | _, [] => .use
  | n, [i] => n.childRole i
  | n, i :: j :: p => (n.children[i]?).elim .use fun c => c.roleAt (j :: p)

/-- The declared name, if a variable declaration stands at the position. -/
def declaredAt? (n : Node) (d : Position) : Option Identifier := (n.at? d).bind Node.declaredName?

/-- A block stands at the position. -/
def IsBlockAt (n : Node) (q : Position) : Prop := (n.at? q).any Node.isBlock = true

instance (n : Node) (q : Position) : Decidable (n.IsBlockAt q) :=
  inferInstanceAs (Decidable (_ = true))

/-- No block encloses the position. -/
def OutsideBlocks (n : Node) (d : Position) : Prop := ∀ q, Position.Above q d → ¬ n.IsBlockAt q

/-- The block at `q` is the innermost one around `d`: `d` lies in it outside any deeper block. -/
structure DirectlyIn (n : Node) (q d : Position) : Prop where
  isBlock : n.IsBlockAt q
  above : Position.Above q d
  innermost : ∀ r, Position.Above r d → n.IsBlockAt r → r <+: q

@[simp] theorem at?_nil (n : Node) : n.at? [] = some n := rfl

@[simp] theorem at?_cons (n : Node) (i : Nat) (p : Position) :
    n.at? (i :: p) = n.children[i]?.bind fun c => c.at? p := rfl

/-- A position is followed step by step. -/
theorem at?_append (n : Node) (p q : Position) :
    n.at? (p ++ q) = (n.at? p).bind fun m => m.at? q := by
  induction p generalizing n with
  | nil => rfl
  | cons i p ih =>
      rw [List.cons_append, at?_cons, at?_cons]
      cases n.children[i]? with
      | none => rfl
      | some c => simpa using ih c

/-- The node at a child's position is that child of the parent. -/
theorem at?_concat {n m : Node} {p : Position} (h : n.at? p = some m) (i : Nat) :
    n.at? (p ++ [i]) = m.children[i]? := by
  rw [at?_append, h]
  simp

/-- The role of a child is given to it by its parent. -/
theorem roleAt_concat {n m : Node} {p : Position} (h : n.at? p = some m) (i : Nat) :
    n.roleAt (p ++ [i]) = m.childRole i := by
  induction p generalizing n with
  | nil =>
      obtain rfl : n = m := by simpa using h
      rfl
  | cons j p ih =>
      rw [at?_cons] at h
      cases hc : n.children[j]? with
      | none => simp [hc] at h
      | some c =>
          rw [hc, Option.bind_some] at h
          cases p with
          | nil => simpa [roleAt, hc] using ih h
          | cons k p => simpa [roleAt, hc] using ih h

/-- Everything but the root is the child of some node. -/
theorem exists_parent {n m : Node} {p : Position} (h : n.at? p = some m) (hp : p ≠ []) :
    ∃ q i parent, p = q ++ [i] ∧ n.at? q = some parent ∧ parent.children[i]? = some m := by
  obtain ⟨q, i, rfl⟩ : ∃ q i, p = q ++ [i] :=
    ⟨p.dropLast, p.getLast hp, (List.dropLast_concat_getLast hp).symm⟩
  rw [at?_append] at h
  cases hq : n.at? q with
  | none => simp [hq] at h
  | some parent => exact ⟨q, i, parent, rfl, hq, by simpa [hq] using h⟩

@[simp] theorem isBlockAt_nil (n : Node) : n.IsBlockAt [] ↔ n.isBlock = true := by
  simp [IsBlockAt]

/-- A block below a child is a block in the child. -/
@[simp] theorem isBlockAt_cons (n : Node) (i : Nat) (q : Position) :
    n.IsBlockAt (i :: q) ↔ ∃ c, n.children[i]? = some c ∧ c.IsBlockAt q := by
  cases h : n.children[i]? <;> simp [IsBlockAt, h]

@[simp] theorem declaredAt?_nil (n : Node) : n.declaredAt? [] = n.declaredName? := rfl

/-- What is declared below a child is declared in the child. -/
@[simp] theorem declaredAt?_cons (n : Node) (i : Nat) (d : Position) :
    n.declaredAt? (i :: d) = n.children[i]?.bind fun c => c.declaredAt? d := by
  cases h : n.children[i]? <;> simp [declaredAt?, h]

@[simp] theorem outsideBlocks_nil (n : Node) : n.OutsideBlocks [] := by
  intro q hq
  exact absurd hq (Position.not_above_nil q)

/-- A position is outside of blocks if the node is none and it is outside of those in the child. -/
theorem outsideBlocks_cons {n c : Node} {i : Nat} {d : Position} (h : n.children[i]? = some c) :
    n.OutsideBlocks (i :: d) ↔ n.isBlock = false ∧ c.OutsideBlocks d := by
  constructor
  · intro hout
    refine ⟨?_, fun q hq hblock => ?_⟩
    · have hroot := hout [] (Position.nil_above_cons i d)
      simpa using hroot
    · exact hout (i :: q) (Position.cons_above_cons.mpr ⟨rfl, hq⟩)
        ((isBlockAt_cons n i q).mpr ⟨c, h, hblock⟩)
  · rintro ⟨hroot, hout⟩ q hq hblock
    cases q with
    | nil => simp [hroot] at hblock
    | cons j q =>
        obtain ⟨rfl, hbelow⟩ := Position.cons_above_cons.mp hq
        obtain ⟨c', hc', hinner⟩ := (isBlockAt_cons n j q).mp hblock
        obtain rfl : c = c' := by simpa [h] using hc'
        exact hout q hbelow hinner

/-- What a block has below it and outside deeper blocks. -/
theorem directlyIn_nil_cons {n c : Node} {i : Nat} {d : Position} (h : n.children[i]? = some c) :
    n.DirectlyIn [] (i :: d) ↔ n.isBlock = true ∧ c.OutsideBlocks d := by
  constructor
  · rintro ⟨hblock, -, hinner⟩
    refine ⟨by simpa using hblock, fun q hq hq' => ?_⟩
    have hpre := hinner (i :: q) (Position.cons_above_cons.mpr ⟨rfl, hq⟩)
      ((isBlockAt_cons n i q).mpr ⟨c, h, hq'⟩)
    simp at hpre
  · rintro ⟨hblock, hout⟩
    refine ⟨by simpa using hblock, Position.nil_above_cons i d, fun r hr hr' => ?_⟩
    cases r with
    | nil => exact List.nil_prefix
    | cons j r =>
        obtain ⟨rfl, hbelow⟩ := Position.cons_above_cons.mp hr
        obtain ⟨c', hc', hdeeper⟩ := (isBlockAt_cons n j r).mp hr'
        obtain rfl : c = c' := by simpa [h] using hc'
        exact absurd hdeeper (hout r hbelow)

/-- Below a child, standing directly in a block is a matter of the child. -/
theorem directlyIn_cons_cons {n c : Node} {i : Nat} {q d : Position}
    (h : n.children[i]? = some c) : n.DirectlyIn (i :: q) (i :: d) ↔ c.DirectlyIn q d := by
  constructor
  · rintro ⟨hblock, habove, hinner⟩
    obtain ⟨c', hc', hblock⟩ := (isBlockAt_cons n i q).mp hblock
    obtain rfl : c' = c := by simpa [h] using hc'.symm
    refine ⟨hblock, (Position.cons_above_cons.mp habove).2, fun r hr hr' => ?_⟩
    have hpre := hinner (i :: r) (Position.cons_above_cons.mpr ⟨rfl, hr⟩)
      ((isBlockAt_cons n i r).mpr ⟨c', h, hr'⟩)
    exact (List.cons_prefix_cons.mp hpre).2
  · rintro ⟨hblock, habove, hinner⟩
    refine ⟨(isBlockAt_cons n i q).mpr ⟨c, h, hblock⟩,
      Position.cons_above_cons.mpr ⟨rfl, habove⟩, fun r hr hr' => ?_⟩
    cases r with
    | nil => exact List.nil_prefix
    | cons j r =>
        obtain ⟨rfl, hbelow⟩ := Position.cons_above_cons.mp hr
        obtain ⟨c', hc', hdeeper⟩ := (isBlockAt_cons n j r).mp hr'
        obtain rfl : c = c' := by simpa [h] using hc'
        exact List.cons_prefix_cons.mpr ⟨rfl, hinner r hbelow hdeeper⟩

/-! ## occurrences -/

mutual

/-- Every identifier of a tree stands at some position. -/
theorem exists_at?_of_mem_identifiers (n : Node) {id : Identifier} (h : id ∈ n.identifiers) :
    ∃ p, n.at? p = some (.identifier id) := by
  cases n with
  | block info body =>
      obtain ⟨i, c, p, hi, hp⟩ := exists_at?_of_mem_identifiersAll body h
      exact ⟨i :: p, by simp [children, hi, hp]⟩
  | varDecl info name init isConst =>
      rcases List.mem_cons.mp h with rfl | h
      · exact ⟨[0], rfl⟩
      · cases init with
        | none => simp [identifiersOption] at h
        | some m =>
            obtain ⟨p, hp⟩ := exists_at?_of_mem_identifiers m h
            exact ⟨1 :: p, by simp [children, hp]⟩
  | importDecl info path names asName =>
      obtain ⟨i, hi⟩ : ∃ i, names[i]? = some id := List.mem_iff_getElem?.mp h
      exact ⟨[i], by simp [children, hi]⟩
  | exportDecl info names =>
      obtain ⟨i, hi⟩ : ∃ i, names[i]? = some id := List.mem_iff_getElem?.mp h
      exact ⟨[i], by simp [children, hi]⟩
  | identifier other =>
      obtain rfl : id = other := by simpa [identifiers] using h
      exact ⟨[], rfl⟩
  | sequence info form items =>
      obtain ⟨i, c, p, hi, hp⟩ := exists_at?_of_mem_identifiersAll items h
      exact ⟨i :: p, by simp [children, hi, hp]⟩
  | unary info form operand =>
      obtain ⟨p, hp⟩ := exists_at?_of_mem_identifiers operand h
      exact ⟨0 :: p, by simp [children, hp]⟩
  | inOf info left right valueOf =>
      rcases List.mem_append.mp h with h | h
      · obtain ⟨p, hp⟩ := exists_at?_of_mem_identifiers left h
        exact ⟨0 :: p, by simp [children, hp]⟩
      · obtain ⟨p, hp⟩ := exists_at?_of_mem_identifiers right h
        exact ⟨1 :: p, by simp [children, hp]⟩
  | _ => simp [identifiers] at h

/-- An identifier in a list of nodes stands at a position in one of them. -/
theorem exists_at?_of_mem_identifiersAll (ns : List Node) {id : Identifier}
    (h : id ∈ identifiersAll ns) :
    ∃ (i : Nat) (c : Node) (p : Position), ns[i]? = some c ∧ c.at? p = some (.identifier id) := by
  cases ns with
  | nil => simp [identifiersAll] at h
  | cons n ns =>
      rcases List.mem_append.mp h with h | h
      · obtain ⟨p, hp⟩ := exists_at?_of_mem_identifiers n h
        exact ⟨0, n, p, rfl, hp⟩
      · obtain ⟨i, c, p, hi, hp⟩ := exists_at?_of_mem_identifiersAll ns h
        exact ⟨i + 1, c, p, by simpa using hi, hp⟩

end

/-- The identifiers in a list of nodes, node by node. -/
theorem identifiersAll_eq_flatMap (ns : List Node) :
    identifiersAll ns = ns.flatMap identifiers := by
  induction ns with
  | nil => rfl
  | cons n ns ih => rw [identifiersAll, ih, List.flatMap_cons]

/-- The identifiers of a child are identifiers of the node. -/
theorem identifiers_subset_of_child {n c : Node} {i : Nat} (h : n.children[i]? = some c) :
    c.identifiers ⊆ n.identifiers := by
  intro id hid
  have hmem : id ∈ n.children.flatMap identifiers :=
    List.mem_flatMap.mpr ⟨c, List.mem_of_getElem? h, hid⟩
  cases n with
  | varDecl info name init isConst =>
      cases init <;> simpa [children, identifiers, identifiersOption] using hmem
  | empty | literal | identifier => simp [children] at hmem
  | type t => cases t <;> simp [children, identifiers] at hmem
  | _ => simpa [children, identifiers, identifiersAll_eq_flatMap, List.flatMap_map] using hmem

/-- The identifiers of a tree are those at its positions. -/
theorem mem_identifiers {n : Node} {id : Identifier} :
    id ∈ n.identifiers ↔ ∃ p, n.at? p = some (.identifier id) := by
  constructor
  · exact exists_at?_of_mem_identifiers n
  · rintro ⟨p, hp⟩
    induction p generalizing n with
    | nil =>
        obtain rfl : n = .identifier id := by simpa using hp
        exact List.mem_singleton_self id
    | cons i p ih =>
        obtain ⟨c, hi, hc⟩ := Option.bind_eq_some_iff.mp hp
        exact identifiers_subset_of_child hi (ih hc)

end Node

/-! ## a unit as one tree -/

/-- A unit as one tree: its top-level nodes are the children of a root that opens no scope and
declares nothing. A position in the unit is a position in this tree. -/
def SourceUnit.root (u : SourceUnit) : Node := .sequence { location := .nowhere } .list u.topLevel

@[simp] theorem SourceUnit.children_root (u : SourceUnit) : u.root.children = u.topLevel := rfl

/-- The identifiers of a unit are those at its positions. -/
theorem SourceUnit.mem_identifiers {u : SourceUnit} {id : Identifier} :
    id ∈ u.identifiers ↔ ∃ p, u.root.at? p = some (.identifier id) :=
  Node.mem_identifiers (n := u.root)

end NameResolution
