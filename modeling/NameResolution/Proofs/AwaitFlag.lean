import NameResolution.Proofs.Visiting
import NameResolution.Syntax.Construction
import NameResolution.Syntax.Literal

/-!
# The flag for awaiting

Whether a node awaits is settled when it is made, by the flags of the parts that it is made of, and
never looked at again. `Node.Made` says which nodes come about that way, from the leaves up, with
sources, annotations and bindings attached anywhere on the way.

Such a flag is a statement about the whole tree. What the constructors ask for is what the traversal
comes by: `Node.hasAwait_iff` says that a tree holds an await if its root is one or a child holds
one, and each constructor sets its flag by that rule (`Node.isAwait_iff_hasAwait`).

Main statement: `Node.isAwait_exact`.
-/

namespace NameResolution

/-! ## how nodes come about -/

/-- An identifier is made from its name or from a token; then a source, annotations and a binding
are attached to it. -/
inductive Identifier.Made : Identifier → Prop
  | make (name : String) (isMarked isLocal : Bool) (location : Location) :
    Made (.make name isMarked isLocal location)
  | token (t : Token) (isMarked isLocal : Bool) : Made (t.identifier isMarked isLocal)
  | withSource {id : Identifier} (h : Made id) (s : Source) : Made (id.withSource s)
  | withAnnotations {id : Identifier} (h : Made id) (as : Annotations) :
    Made (id.withAnnotations as)
  | bind {id bound : Identifier} {b : Binding} (h : Made id) (hbind : id.bind b = .ok bound) :
    Made bound

/-- A type is made from its name or from another type; then a source and annotations are attached
to it. -/
inductive TypeExpr.Made : TypeExpr → Prop
  | named (name : String) (qualifier : Option String) (isLocal : Bool) (location : Location) :
    Made (.mkNamed name qualifier isLocal location)
  | list {element : TypeExpr} (h : Made element) (location : Location) :
    Made (.mkList element location)
  | nullable {inner : TypeExpr} (h : Made inner) (location : Location) :
    Made (.mkNullable inner location)
  | withSource {t : TypeExpr} (h : Made t) (s : Source) : Made (t.withSource s)
  | withAnnotations {t : TypeExpr} (h : Made t) (as : Annotations) : Made (t.withAnnotations as)

/-- The literals that are made from a token. -/
inductive Token.Gives (t : Token) : Node → Prop
  | null : Gives t t.nullLiteral
  | boolean {n : Node} (h : t.booleanLiteral = .ok n) : Gives t n
  | integer {n : Node} (h : t.integerLiteral = .ok n) : Gives t n
  | float {n : Node} (h : t.floatLiteral = .ok n) : Gives t n
  | string : Gives t t.stringLiteral

/-- A node is made by a constructor, from parts that are made, or from a token; then a source and
annotations are attached to it. -/
inductive Node.Made : Node → Prop
  | empty (location : Location) : Made (mkEmpty location)
  | block {body : List Node} (h : ∀ n ∈ body, Made n) (location : Location) :
    Made (mkBlock body location)
  | varDecl {name : Identifier} {init : Option Node} (hname : name.Made) (h : ∀ n ∈ init, Made n)
    (isConst : Bool) (location : Location) : Made (mkVarDecl name init isConst location)
  | importDecl (path : String) {names : List Identifier} (h : ∀ id ∈ names, id.Made)
    (asName : Option String) (location : Location) : Made (mkImportDecl path names asName location)
  | exportDecl {names : List Identifier} (h : ∀ id ∈ names, id.Made) (location : Location) :
    Made (mkExportDecl names location)
  | literal (value : ConstValue) (location : Location) : Made (mkLiteral value location)
  | token {t : Token} {n : Node} (h : t.Gives n) : Made n
  | identifier {id : Identifier} (h : id.Made) : Made (.identifier id)
  | sequence (form : SequenceForm) {items : List Node} (h : ∀ n ∈ items, Made n)
    (location : Location) : Made (mkSequence form items location)
  | unary (form : UnaryForm) {operand : Node} (h : Made operand) (location : Location) :
    Made (mkUnary form operand location)
  | inOf {left right : Node} (hleft : Made left) (hright : Made right) (valueOf : Bool)
    (location : Location) : Made (mkInOf left right valueOf location)
  | type {t : TypeExpr} (h : t.Made) : Made (.type t)
  | withSource {n : Node} (h : Made n) (s : Source) : Made (n.withSource s)
  | withAnnotations {n : Node} (h : Made n) (as : Annotations) : Made (n.withAnnotations as)

/-! ## awaits in a tree -/

/-- A position in a node, taken as part of a program, is a position in the node. -/
theorem Part.at?_node (n : Node) (p : Position) : (Part.node n).at? p = (n.at? p).map .node := by
  induction p generalizing n with
  | nil => rfl
  | cons i p ih =>
      rw [Part.at?, Node.at?_cons, Part.children, List.getElem?_map]
      cases n.children[i]? with
      | none => rfl
      | some c => exact ih c

namespace Node

/-- The span collector lists what stands at some position. -/
theorem mem_collect_iff {n : Node} {k : Kind} {l : Location} :
    (k, l) ∈ (Part.node n).collect ↔
      ∃ p m, n.at? p = some m ∧ m.kind = k ∧ m.location = l := by
  have hnone (r : Part) (p : Position) (x : Part) :
      (p, x) ∈ r.sightings (fun _ => false) ↔ r.at? p = some x := by
    have hall (a : Part) : a.isSkipped (fun _ => false) = false := by cases a <;> rfl
    simp [Part.mem_sightings, hall]
  simp only [Part.collect_eq_spans, Part.spans, List.mem_filterMap, List.mem_map, Prod.exists,
    exists_eq_right, hnone, Part.at?_node, Option.map_eq_some_iff]
  constructor
  · rintro ⟨_, ⟨p, m, hm, rfl⟩, hspan⟩
    simp only [Part.span?, Option.some.injEq, Prod.mk.injEq] at hspan
    exact ⟨p, m, hm, hspan⟩
  · rintro ⟨p, m, hm, rfl, rfl⟩
    exact ⟨_, ⟨p, m, hm, rfl⟩, rfl⟩

/-- The span collector comes by an await. -/
def HasAwait (n : Node) : Prop := ∃ location, (Kind.await, location) ∈ (Part.node n).collect

/-- A tree holds an await if its root is one or a child holds one. -/
theorem hasAwait_iff (n : Node) :
    n.HasAwait ↔ n.kind = .await ∨ ∃ c ∈ n.children, c.HasAwait := by
  simp only [HasAwait, Part.collect_eq_spans]
  rw [Part.spans_eq]
  simp only [Part.span?, Part.children, Option.toList_some, List.mem_append, List.mem_singleton,
    Prod.mk.injEq, List.flatMap_map, List.mem_flatMap]
  constructor
  · rintro ⟨location, ⟨hkind, -⟩ | ⟨c, hc, hmem⟩⟩
    · exact .inl hkind.symm
    · exact .inr ⟨c, hc, location, hmem⟩
  · rintro (hkind | ⟨c, hc, location, hmem⟩)
    · exact ⟨n.location, .inl ⟨hkind.symm, rfl⟩⟩
    · exact ⟨location, .inr ⟨c, hc, hmem⟩⟩

/-- A node that is no await holds one if a child does. -/
theorem hasAwait_iff_children {n : Node} (hkind : n.kind ≠ .await) :
    n.HasAwait ↔ ∃ c ∈ n.children, c.HasAwait := by
  rw [hasAwait_iff, or_iff_right hkind]

theorem not_hasAwait_identifier (id : Identifier) : ¬ (identifier id).HasAwait := by
  rw [hasAwait_iff_children (by simp [kind])]
  simp [children]

theorem not_hasAwait_literal (info : NodeInfo) (value : ConstValue) :
    ¬ (literal info value).HasAwait := by
  rw [hasAwait_iff_children (by cases value <;> simp [kind, ConstValue.kind])]
  simp [children]

theorem not_hasAwait_type (t : TypeExpr) : ¬ (type t).HasAwait := by
  induction t with
  | named =>
      rw [hasAwait_iff_children (by simp [kind, TypeExpr.kind])]
      simp [children]
  | list _ element ih =>
      rw [hasAwait_iff_children (by simp [kind, TypeExpr.kind])]
      simpa [children] using ih
  | nullable _ inner ih =>
      rw [hasAwait_iff_children (by simp [kind, TypeExpr.kind])]
      simpa [children] using ih

/-! ## what is attached to a node -/

@[simp] theorem info_withInfo (info : NodeInfo) (n : Node) : (n.withInfo info).info = info := by
  cases n with
  | type t => cases t <;> rfl
  | _ => rfl

@[simp] theorem kind_withInfo (info : NodeInfo) (n : Node) : (n.withInfo info).kind = n.kind := by
  cases n with
  | type t => cases t <;> rfl
  | _ => rfl

@[simp] theorem children_withInfo (info : NodeInfo) (n : Node) :
    (n.withInfo info).children = n.children := by
  cases n with
  | type t => cases t <;> rfl
  | _ => rfl

/-- Setting the data of a node does not change whether there is an `await` in it. -/
theorem hasAwait_withInfo (info : NodeInfo) (n : Node) :
    (n.withInfo info).HasAwait ↔ n.HasAwait := by
  rw [hasAwait_iff, hasAwait_iff n, kind_withInfo, children_withInfo]

end Node

theorem TypeExpr.info_withInfo (info : NodeInfo) (t : TypeExpr) :
    (t.withInfo info).info = info := by
  cases t <;> rfl

/-! ## the flags of leaves -/

/-- An identifier never awaits: nothing that is attached to it changes that. -/
theorem Identifier.Made.awaits_eq_false {id : Identifier} (h : id.Made) :
    id.info.awaits = false := by
  induction h with
  | make | token => rfl
  | withSource _ _ ih | withAnnotations _ _ ih => exact ih
  | bind _ hbind ih =>
      unfold Identifier.bind at hbind
      split at hbind
      · cases hbind
        exact ih
      · cases hbind

/-- A type that was made does not await. -/
theorem TypeExpr.Made.awaits_eq_false {t : TypeExpr} (h : t.Made) : t.info.awaits = false := by
  induction h with
  | named | list | nullable => rfl
  | withSource _ s ih =>
      rw [TypeExpr.withSource, info_withInfo]
      exact ih
  | withAnnotations _ as ih =>
      rw [TypeExpr.withAnnotations, info_withInfo]
      exact ih

/-- What a token gives is a literal at the location of the token. -/
theorem Token.Gives.exists_literal {t : Token} {n : Node} (h : t.Gives n) :
    ∃ value, n = .literal { location := t.location } value := by
  cases h with
  | null | string => exact ⟨_, rfl⟩
  | boolean h =>
      unfold booleanLiteral at h
      grind [info]
  | integer h =>
      unfold integerLiteral at h
      grind [info]
  | float h =>
      unfold floatLiteral at h
      grind [info]

/-! ## the flag and the tree -/

namespace Node

/-- **The flag tells the truth**: every constructor keeps it so. -/
theorem isAwait_iff_hasAwait {n : Node} (h : n.Made) : n.isAwait = true ↔ n.HasAwait := by
  induction h with
  | empty location =>
      rw [hasAwait_iff_children (by simp [mkEmpty, kind])]
      simp [mkEmpty, isAwait, info, children]
  | block h location ih =>
      rw [hasAwait_iff_children (by simp [mkBlock, kind])]
      simp only [mkBlock, isAwait, info, children, List.any_eq_true]
      exact exists_congr fun c => and_congr_right (ih c)
  | @varDecl name init hname h isConst location ih =>
      rw [hasAwait_iff_children (by simp [mkVarDecl, kind])]
      -- The name is asked by the traversal only, and says no.
      cases init with
      | none => simp [mkVarDecl, isAwait, info, children, not_hasAwait_identifier]
      | some n => simpa [mkVarDecl, isAwait, info, children, not_hasAwait_identifier] using ih n rfl
  | importDecl path h asName location =>
      rw [hasAwait_iff_children (by simp [mkImportDecl, kind])]
      simp [mkImportDecl, isAwait, info, children, not_hasAwait_identifier]
  | exportDecl h location =>
      rw [hasAwait_iff_children (by simp [mkExportDecl, kind])]
      simp [mkExportDecl, isAwait, info, children, not_hasAwait_identifier]
  | literal value location => simp [mkLiteral, isAwait, info, not_hasAwait_literal]
  | token h =>
      obtain ⟨value, rfl⟩ := h.exists_literal
      simp [isAwait, info, not_hasAwait_literal]
  | identifier h => simp [isAwait, info, h.awaits_eq_false, not_hasAwait_identifier]
  | sequence form h location ih =>
      rw [hasAwait_iff_children (by cases form <;> simp [mkSequence, kind, SequenceForm.kind])]
      simp only [mkSequence, isAwait, info, children, List.any_eq_true]
      exact exists_congr fun c => and_congr_right (ih c)
  | unary form h location ih =>
      rw [hasAwait_iff]
      cases form with
      | spread | group => simpa [mkUnary, isAwait, info, kind, UnaryForm.kind, children] using ih
      | await => simp [mkUnary, isAwait, info, kind, UnaryForm.kind]
  | inOf hleft hright valueOf location ihleft ihright =>
      rw [hasAwait_iff_children (by simp [mkInOf, kind])]
      simp [mkInOf, children, ← ihleft, ← ihright, isAwait, info]
  | type h => simp [isAwait, info, h.awaits_eq_false, not_hasAwait_type]
  | withSource h s ih =>
      rw [withSource, hasAwait_withInfo, ← ih, isAwait, info_withInfo]
      rfl
  | withAnnotations h as ih =>
      rw [withAnnotations, hasAwait_withInfo, ← ih, isAwait, info_withInfo]
      rfl

/-- **Awaiting**: the flag of a node that was made from the leaves up is set exactly if an await
stands somewhere in its tree, that is exactly if the span collector comes by one. -/
theorem isAwait_exact {n : Node} (h : n.Made) :
    (n.isAwait = true ↔ ∃ p m, n.at? p = some m ∧ m.kind = .await) ∧
      (n.isAwait = true ↔ ∃ location, (Kind.await, location) ∈ (Part.node n).collect) := by
  refine ⟨?_, isAwait_iff_hasAwait h⟩
  rw [isAwait_iff_hasAwait h, HasAwait]
  simp only [mem_collect_iff]
  constructor
  · rintro ⟨location, p, m, hm, hkind, -⟩
    exact ⟨p, m, hm, hkind⟩
  · rintro ⟨p, m, hm, hkind⟩
    exact ⟨m.location, p, m, hm, hkind, rfl⟩

end Node

/-- The name `x`, bound to a builtin. -/
def builtinX : Identifier :=
  { Token.identifier ⟨"x", ⟨1, 18, 17, 1⟩⟩ false true with
    binding := some ⟨.builtin, ⟨"builtin", "x", .nowhere⟩⟩ }

/-- The block `{ var y = [(await x), 1]; }` with a blank line before the group. -/
def nestedAwait : Node :=
  .mkBlock [.mkVarDecl (.make "y" false true ⟨1, 7, 6, 1⟩)
    (some (.mkSequence .list
      [(Node.mkUnary .group (.mkUnary .await (.identifier builtinX) ⟨1, 12, 11, 7⟩)
          ⟨1, 11, 10, 9⟩).withAnnotations { preceding := [.blankLine ⟨1, 1, 0, 0⟩] },
        .mkLiteral (.integer 1) ⟨1, 22, 21, 1⟩] ⟨1, 10, 9, 14⟩))
    false ⟨1, 3, 2, 22⟩] ⟨1, 1, 0, 26⟩

/-- The flag of the outermost node says that there is an `await` below it. -/
theorem isAwait_nestedAwait :
    nestedAwait.Made ∧ ∃ p m, nestedAwait.at? p = some m ∧ m.kind = .await := by
  have hx : builtinX.Made := .bind (.token ⟨"x", ⟨1, 18, 17, 1⟩⟩ false true) rfl
  have hgroup := Node.Made.withAnnotations (.unary .group (.unary .await (.identifier hx)
    ⟨1, 12, 11, 7⟩) ⟨1, 11, 10, 9⟩) { preceding := [.blankLine ⟨1, 1, 0, 0⟩] }
  have hone := Node.Made.literal (.integer 1) ⟨1, 22, 21, 1⟩
  have hlist := Node.Made.sequence .list
    (List.forall_mem_cons.mpr ⟨hgroup, List.forall_mem_singleton.mpr hone⟩) ⟨1, 10, 9, 14⟩
  have hinit : ∀ n ∈ some _, Node.Made n := fun n hn => Option.some.inj hn ▸ hlist
  have hdecl := Node.Made.varDecl (.make "y" false true ⟨1, 7, 6, 1⟩) hinit false ⟨1, 3, 2, 22⟩
  have hmade : nestedAwait.Made := .block (List.forall_mem_singleton.mpr hdecl) ⟨1, 1, 0, 26⟩
  exact ⟨hmade, (Node.isAwait_exact hmade).1.mp rfl⟩

end NameResolution
