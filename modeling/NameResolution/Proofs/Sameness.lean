import NameResolution.Proofs.Visiting
import NameResolution.Syntax.Equality

/-!
# Sameness of nodes

Two nodes are compared field by field, and two kinds of fields are not compared as they are: floats
compare as numbers and sources as objects. What a node is up to these two is its canonical form,
where every zero is positive and a source is no more than its identity.

Sameness is equality of canonical forms among the trees without a NaN (`Node.same_iff`). So it is
symmetric and transitive, and a tree differs from itself exactly if a NaN is somewhere in it. All
that can be seen of a node, its spans, flags and documentation, can be seen of its canonical form.

Main statement: `Node.same_partialEquivalence`.
-/

namespace NameResolution

/-! ## canonical forms of the fields -/

namespace Binary64

/-- The number with a positive zero for zeros of both signs. -/
def canonical (x : Binary64) : Binary64 := if x.isZero then ⟨0⟩ else x

/-- A double is not a number just if its canonical form is not. -/
theorem isNaN_canonical (x : Binary64) : x.canonical.isNaN = x.isNaN := by
  unfold canonical
  split
  · next h =>
    have hzero : x.magnitude = 0 := by simpa [isZero] using h
    rw [isNaN, isNaN, hzero]
    rfl
  · rfl

/-- Doubles have the same canonical form if they are equal, or are zeros of either sign. -/
theorem canonical_eq_iff {x y : Binary64} :
    x.canonical = y.canonical ↔ x = y ∨ x.isZero = true ∧ y.isZero = true := by
  have hzero : (⟨0⟩ : Binary64).isZero = true := rfl
  unfold canonical
  grind

/-- Numbers are equal if they have one canonical form, which is not a NaN. -/
theorem numericEq_iff {x y : Binary64} :
    x.numericEq y = true ↔ x.canonical = y.canonical ∧ x.isNaN = false := by
  have hnan : x.canonical = y.canonical → x.isNaN = y.isNaN := fun h => by
    rw [← isNaN_canonical, h, isNaN_canonical]
  have hbits : x.bits = y.bits ↔ x = y := ⟨fun h => congrArg mk h, congrArg bits⟩
  rw [canonical_eq_iff] at hnan ⊢
  simp only [numericEq, Bool.and_eq_true, Bool.or_eq_true, Bool.not_eq_true', beq_iff_eq, hbits]
  grind

end Binary64

namespace ConstValue

/-- The constant with a positive zero for zeros of both signs. -/
def canonical : ConstValue → ConstValue
  | float x => float x.canonical
  | v => v

/-- Whether a constant is a float that is not a number. -/
def isNaN : ConstValue → Bool
  | float x => x.isNaN
  | _ => false

@[simp] theorem kind_canonical (v : ConstValue) : v.canonical.kind = v.kind := by
  cases v <;> rfl

/-- A value is not a number just if its canonical form is not. -/
@[simp] theorem isNaN_canonical (v : ConstValue) : v.canonical.isNaN = v.isNaN := by
  cases v with
  | float x => exact x.isNaN_canonical
  | _ => rfl

/-- Values are the same if their canonical forms are equal and not the float that is no number. -/
theorem same_iff {v w : ConstValue} :
    v.same w = true ↔ v.canonical = w.canonical ∧ v.isNaN = false := by
  cases v with
  | float x => cases w <;> simp [same, canonical, isNaN, Binary64.numericEq_iff]
  | _ => cases w <;> simp [same, canonical, isNaN]

end ConstValue

/-- The source object without what it holds. -/
def Source.canonical (s : Source) : Source :=
  { id := s.id, name := "", kind := .module, lineStarts := [] }

theorem sameSource_iff {s t : Option Source} :
    sameSource s t = true ↔ s.map Source.canonical = t.map Source.canonical := by
  cases s <;> cases t <;> simp [sameSource, Source.same, Source.canonical]

/-- The information with its source up to identity. -/
def NodeInfo.canonical (i : NodeInfo) : NodeInfo := { i with source := i.source.map (·.canonical) }

/-- The data of two nodes are the same if their canonical forms are equal. -/
theorem NodeInfo.same_iff {i j : NodeInfo} : i.same j = true ↔ i.canonical = j.canonical := by
  simp [NodeInfo.same, canonical, sameSource_iff, and_assoc]

/-- The identifier with its source up to identity. -/
def Identifier.canonical (id : Identifier) : Identifier := { id with info := id.info.canonical }

theorem Identifier.same_iff {a b : Identifier} : a.same b = true ↔ a.canonical = b.canonical := by
  simp [Identifier.same, canonical, NodeInfo.same_iff, and_assoc]

theorem sameIdentifiers_iff {as bs : List Identifier} :
    sameIdentifiers as bs = true ↔ as.map (·.canonical) = bs.map (·.canonical) := by
  induction as generalizing bs with
  | nil => cases bs <;> simp [sameIdentifiers]
  | cons a as ih => cases bs <;> simp [sameIdentifiers, Identifier.same_iff, ih]

namespace TypeExpr

/-- The type with its sources up to identity. -/
def canonical : TypeExpr → TypeExpr
  | named info name qualifier isLocal => named info.canonical name qualifier isLocal
  | list info element => list info.canonical element.canonical
  | nullable info inner => nullable info.canonical inner.canonical

/-- Types are the same if their canonical forms are equal. -/
theorem same_iff {t u : TypeExpr} : t.same u = true ↔ t.canonical = u.canonical := by
  induction t generalizing u with
  | named => cases u <;> simp [same, canonical, NodeInfo.same_iff, and_assoc]
  | list _ element ih => cases u <;> simp [same, canonical, NodeInfo.same_iff, ih]
  | nullable _ inner ih => cases u <;> simp [same, canonical, NodeInfo.same_iff, ih]

end TypeExpr

/-! ## canonical forms of trees -/

namespace Node

mutual

/-- The tree with its zeros positive and its sources up to identity. -/
def canonical : Node → Node
  | .empty info => .empty info.canonical
  | .block info body => .block info.canonical (canonicalAll body)
  | .varDecl info name init isConst =>
    .varDecl info.canonical name.canonical (canonicalOption init) isConst
  | .importDecl info path names asName =>
    .importDecl info.canonical path (names.map (·.canonical)) asName
  | .exportDecl info names => .exportDecl info.canonical (names.map (·.canonical))
  | .literal info value => .literal info.canonical value.canonical
  | .identifier id => .identifier id.canonical
  | .sequence info form items => .sequence info.canonical form (canonicalAll items)
  | .unary info form operand => .unary info.canonical form operand.canonical
  | .inOf info left right valueOf => .inOf info.canonical left.canonical right.canonical valueOf
  | .type t => .type t.canonical

/-- The trees of a list with their zeros positive and their sources up to identity. -/
def canonicalAll : List Node → List Node
  | [] => []
  | n :: ns => n.canonical :: canonicalAll ns

/-- The tree, if there is one, with its zeros positive and its sources up to identity. -/
def canonicalOption : Option Node → Option Node
  | none => none
  | some n => some n.canonical

end

theorem canonicalAll_eq_map (ns : List Node) : canonicalAll ns = ns.map canonical := by
  induction ns with
  | nil => rfl
  | cons n ns ih => rw [canonicalAll, ih, List.map_cons]

/-- No literal of the tree holds a NaN. -/
def NaNFree (n : Node) : Prop :=
  ∀ p info x, n.at? p = some (.literal info (.float x)) → x.isNaN = false

/-- A tree is free of NaNs if its root is no NaN and its children are free of them. -/
theorem nanFree_iff {n : Node} :
    n.NaNFree ↔ (∀ value, n.constValue = some value → value.isNaN = false) ∧
      ∀ c ∈ n.children, c.NaNFree := by
  constructor
  · intro h
    constructor
    · intro value hvalue
      cases n with
      | literal info v =>
          obtain rfl : v = value := Option.some.inj hvalue
          cases v with
          | float x => exact h [] info x rfl
          | _ => rfl
      | _ => cases hvalue
    · intro c hc p info x hp
      obtain ⟨i, hi⟩ := List.mem_iff_getElem?.mp hc
      exact h (i :: p) info x (by rw [at?_cons, hi, Option.bind_some, hp])
  · rintro ⟨hroot, hchildren⟩ p info x hp
    cases p with
    | nil =>
        obtain rfl := Option.some.inj hp
        exact hroot (.float x) rfl
    | cons i p =>
        rw [at?_cons, Option.bind_eq_some_iff] at hp
        obtain ⟨c, hc, hp⟩ := hp
        exact hchildren c (List.mem_of_getElem? hc) p info x hp

theorem nanFree_identifier (id : Identifier) : (identifier id).NaNFree := by
  rw [nanFree_iff]
  simp [constValue, children]

theorem nanFree_type (t : TypeExpr) : (type t).NaNFree := by
  induction t with
  | named =>
      rw [nanFree_iff]
      simp [constValue, children]
  | list _ element ih | nullable _ element ih =>
      rw [nanFree_iff]
      simpa [constValue, children] using ih

/-! ## sameness by canonical forms -/

mutual

/-- **Sameness** is equality of canonical forms among the trees without a NaN. -/
theorem same_iff (n m : Node) :
    n.same m = true ↔ n.canonical = m.canonical ∧ n.NaNFree := by
  rw [nanFree_iff]
  cases n with
  | empty info => cases m <;> simp [same, canonical, constValue, children, NodeInfo.same_iff]
  | block info body =>
      cases m with
      | block info' body' =>
          simp [same, canonical, constValue, children, NodeInfo.same_iff, sameAll_iff body body',
            and_assoc]
      | _ => simp [same, canonical]
  | varDecl info name init isConst =>
      cases m with
      | varDecl info' name' init' isConst' =>
          -- The name is a child as well, but holds no number.
          simp only [same, canonical, Bool.and_eq_true, beq_iff_eq, NodeInfo.same_iff,
            Identifier.same_iff, sameOption_iff init init', varDecl.injEq, constValue, children,
            List.forall_mem_cons, Option.mem_toList, Option.mem_def, nanFree_identifier]
          grind
      | _ => simp [same, canonical]
  | importDecl info path names asName =>
      cases m with
      | importDecl =>
          simp [same, canonical, constValue, children, NodeInfo.same_iff, sameIdentifiers_iff,
            nanFree_identifier, and_assoc]
      | _ => simp [same, canonical]
  | exportDecl info names =>
      cases m with
      | exportDecl =>
          simp [same, canonical, constValue, children, NodeInfo.same_iff, sameIdentifiers_iff,
            nanFree_identifier]
      | _ => simp [same, canonical]
  | literal info value =>
      cases m with
      | literal =>
          simp [same, canonical, constValue, children, NodeInfo.same_iff, ConstValue.same_iff,
            and_assoc]
      | _ => simp [same, canonical]
  | identifier id => cases m <;> simp [same, canonical, constValue, children, Identifier.same_iff]
  | sequence info form items =>
      cases m with
      | sequence info' form' items' =>
          simp [same, canonical, constValue, children, NodeInfo.same_iff, sameAll_iff items items',
            and_assoc]
      | _ => simp [same, canonical]
  | unary info form operand =>
      cases m with
      | unary info' form' operand' =>
          simp [same, canonical, constValue, children, NodeInfo.same_iff, same_iff operand operand',
            and_assoc]
      | _ => simp [same, canonical]
  | inOf info left right valueOf =>
      cases m with
      | inOf info' left' right' valueOf' =>
          simp only [same, canonical, Bool.and_eq_true, beq_iff_eq, NodeInfo.same_iff,
            same_iff left left', same_iff right right', inOf.injEq, constValue, children,
            List.forall_mem_cons]
          grind
      | _ => simp [same, canonical]
  | type t =>
      cases m with
      | type u =>
          rw [← nanFree_iff]
          simp [same, canonical, TypeExpr.same_iff, nanFree_type]
      | _ => simp [same, canonical]

/-- Lists of nodes are the same if their canonical forms are equal and no literal in them is not a
number. -/
theorem sameAll_iff (ns ms : List Node) :
    sameAll ns ms = true ↔ canonicalAll ns = canonicalAll ms ∧ ∀ n ∈ ns, n.NaNFree := by
  cases ns with
  | nil => cases ms <;> simp [sameAll, canonicalAll]
  | cons n ns =>
      cases ms with
      | nil => simp [sameAll, canonicalAll]
      | cons m ms =>
          simp only [sameAll, canonicalAll, Bool.and_eq_true, same_iff n m, sameAll_iff ns ms,
            List.cons.injEq, List.forall_mem_cons]
          grind

theorem sameOption_iff (o o' : Option Node) :
    sameOption o o' = true ↔ canonicalOption o = canonicalOption o' ∧ ∀ n ∈ o, n.NaNFree := by
  cases o with
  | none => cases o' <;> simp [sameOption, canonicalOption]
  | some n =>
      cases o' with
      | none => simp [sameOption, canonicalOption]
      | some m => simp [sameOption, canonicalOption, same_iff n m]

end

/-! ## what the canonical form shows -/

/-- The children of the canonical form are those of the node, in canonical form. -/
theorem children_canonical (n : Node) : n.canonical.children = n.children.map canonical := by
  cases n with
  | varDecl _ _ init _ => cases init <;> simp [canonical, canonicalOption, children]
  | type t => cases t <;> simp [canonical, TypeExpr.canonical, children]
  | _ => simp [canonical, canonicalAll_eq_map, children]

@[simp] theorem info_canonical (n : Node) : n.canonical.info = n.info.canonical := by
  cases n with
  | type t => cases t <;> rfl
  | _ => rfl

@[simp] theorem kind_canonical (n : Node) : n.canonical.kind = n.kind := by
  cases n with
  | literal _ value => exact value.kind_canonical
  | type t => cases t <;> rfl
  | _ => rfl

@[simp] theorem isStatement_canonical (n : Node) : n.canonical.isStatement = n.isStatement := by
  cases n <;> rfl

theorem isExpression_canonical (n : Node) : n.canonical.isExpression = n.isExpression := by
  rw [isExpression, isStatement_canonical, isExpression]

theorem isBlock_canonical (n : Node) : n.canonical.isBlock = n.isBlock := by
  cases n <;> rfl

theorem isAwait_canonical (n : Node) : n.canonical.isAwait = n.isAwait := by
  rw [isAwait, info_canonical, NodeInfo.canonical, isAwait]

theorem documentation_canonical (n : Node) : n.canonical.documentation = n.documentation := by
  rw [documentation, info_canonical, NodeInfo.canonical, documentation]

@[simp] theorem location_canonical (n : Node) : n.canonical.location = n.location := by
  rw [location, location, info_canonical, NodeInfo.canonical]

/-- Induction over a tree, from the children up. -/
theorem child_induction {motive : Node → Prop}
    (step : ∀ n, (∀ c ∈ n.children, motive c) → motive n) (n : Node) : motive n :=
  step n fun c _ => child_induction step c
termination_by sizeOf n
decreasing_by exact sizeOf_lt_of_mem_children ‹_›

/-- The span collector comes by the same kinds and locations. -/
theorem collect_canonical (n : Node) :
    (Part.node n.canonical).collect = (Part.node n).collect := by
  simp only [Part.collect_eq_spans]
  induction n using child_induction with
  | step n ih =>
      have hbelow : n.children.flatMap (fun c => (Part.node c.canonical).spans) =
          n.children.flatMap fun c => (Part.node c).spans := by
        rw [List.flatMap_def, List.flatMap_def, List.map_congr_left ih]
      rw [Part.spans_eq, Part.spans_eq (.node n)]
      simpa [Part.span?, Part.children, children_canonical, List.flatMap_map] using hbelow

/-- The value of the canonical form is that of the node, in canonical form. -/
theorem constValue_canonical (n : Node) :
    n.canonical.constValue = n.constValue.map (·.canonical) := by
  cases n <;> rfl

/-- A node has a literal that is not a number just if its canonical form does. -/
theorem nanFree_canonical (n : Node) : n.canonical.NaNFree ↔ n.NaNFree := by
  induction n using child_induction with
  | step n ih =>
      rw [nanFree_iff, nanFree_iff, constValue_canonical, children_canonical]
      simp only [Option.map_eq_some_iff, List.mem_map, forall_exists_index, and_imp,
        forall_apply_eq_imp_iff₂, ConstValue.isNaN_canonical]
      exact and_congr_right fun _ => forall₂_congr ih

/-! ## sameness -/

/-- What a node is the same as has no literal that is not a number. -/
theorem nanFree_of_same {a b : Node} (h : a.same b = true) : b.NaNFree := by
  obtain ⟨hform, hfree⟩ := (same_iff a b).mp h
  rwa [← nanFree_canonical, ← hform, nanFree_canonical]

/-- Sameness is symmetric. -/
theorem same_symm {a b : Node} (h : a.same b = true) : b.same a = true :=
  (same_iff b a).mpr ⟨((same_iff a b).mp h).1.symm, nanFree_of_same h⟩

/-- Sameness is transitive. -/
theorem same_trans {a b c : Node} (hab : a.same b = true) (hbc : b.same c = true) :
    a.same c = true := by
  obtain ⟨hform, hfree⟩ := (same_iff a b).mp hab
  obtain ⟨hform', -⟩ := (same_iff b c).mp hbc
  exact (same_iff a c).mpr ⟨hform.trans hform', hfree⟩

/-- A node is the same as itself, unless it has a literal that is not a number. -/
theorem same_self_iff (a : Node) : a.same a = true ↔ a.NaNFree := by
  rw [same_iff, eq_self, true_and]

/-- What the canonical form shows as well is the same of nodes that are the same. -/
theorem eq_of_same {α : Type} {f : Node → α} (hf : ∀ n, f n.canonical = f n) {a b : Node}
    (h : a.same b = true) : f a = f b := by
  rw [← hf a, ((same_iff a b).mp h).1, hf b]

/-- **Sameness is a partial equivalence that fails only on NaN**: it is symmetric and transitive;
a node is the same as itself, or as a copy of it, exactly if no float literal anywhere in it holds a
NaN; and nodes that are the same have the same spans, flags and documentation. -/
theorem same_partialEquivalence :
    (∀ a b : Node, a.same b = true ↔ b.same a = true) ∧
      (∀ a b c : Node, a.same b = true → b.same c = true → a.same c = true) ∧
      (∀ a : Node, a.same a = true ↔
        ∀ p info x, a.at? p = some (.literal info (.float x)) → x.isNaN = false) ∧
      ∀ a b : Node, a.same b = true →
        (Part.node a).collect = (Part.node b).collect ∧ a.isStatement = b.isStatement ∧
          a.isExpression = b.isExpression ∧ a.isBlock = b.isBlock ∧ a.isAwait = b.isAwait ∧
          a.documentation = b.documentation := by
  refine ⟨fun a b => ⟨same_symm, same_symm⟩, fun a b c => same_trans, same_self_iff, ?_⟩
  intro a b h
  have hcollect := eq_of_same (f := fun n => (Part.node n).collect) collect_canonical h
  exact ⟨hcollect, eq_of_same isStatement_canonical h, eq_of_same isExpression_canonical h,
    eq_of_same isBlock_canonical h, eq_of_same isAwait_canonical h,
    eq_of_same documentation_canonical h⟩

end Node

/-- A float literal in brackets, read from the source object of a number. -/
def floatList (id : Nat) (bits : UInt64) : Node :=
  let source : Source := { id, name := "a.ql", kind := .module, lineStarts := [0] }
  .sequence { location := ⟨1, 1, 0, 6⟩ } .list
    [.literal { location := ⟨1, 2, 1, 4⟩, source := some source } (.float ⟨bits⟩)]

/-- Zeros of both signs are the same, twins of a source are not, and no NaN is the same as
itself. -/
theorem same_floatList :
    (floatList 0 0).same (floatList 0 0x8000000000000000) = true ∧
      (floatList 0 0x8000000000000000).same (floatList 0 0) = true ∧
      (Part.node (floatList 0 0)).collect = (Part.node (floatList 0 0x8000000000000000)).collect ∧
      (floatList 0 0).same (floatList 1 0) = false ∧
      (floatList 0 0x7ff8000000000000).same (floatList 0 0x7ff8000000000000) = false := by
  have hzeros : (floatList 0 0).same (floatList 0 0x8000000000000000) = true := by decide +kernel
  obtain ⟨hsymm, -, hself, hshow⟩ := Node.same_partialEquivalence
  refine ⟨hzeros, (hsymm _ _).mp hzeros, (hshow _ _ hzeros).1, by decide +kernel, ?_⟩
  rw [Bool.eq_false_iff, ne_eq, hself]
  intro hnumbers
  have hnan := hnumbers [0] _ ⟨0x7ff8000000000000⟩ rfl
  exact absurd hnan (by decide)

end NameResolution
