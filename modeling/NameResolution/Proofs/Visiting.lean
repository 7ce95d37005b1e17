import NameResolution.Program.Visitor
import NameResolution.Proofs.Frames

/-!
# What visitors come by

A position leads from a program, a unit or a node down to one of its parts, and `Part.sightings`
lists the parts that a visitor comes by if it stays above nodes of some kinds, each with its
position. Both visitors are run against that list.

Main statements:

* `Part.mem_sightings`, `Part.preorder_sightings`: the list holds exactly the parts with no
  skipped ancestor, in pre-order;
* `Part.run_recorder`: the recorder notes the parts of the list and counts them;
* `Part.filter_sightings`: what the visit of one part adds is what the list has below it;
* `Part.visiting_exact`: all of it together, with the spans that the span collector lists.
-/

namespace NameResolution

namespace Node

theorem sizeOf_le_of_mem_map_identifier {c : Node} {names : List Identifier}
    (h : c ∈ names.map identifier) : sizeOf c ≤ sizeOf names := by
  obtain ⟨id, hmem, rfl⟩ := List.mem_map.mp h
  have hlt := List.sizeOf_lt_of_mem hmem
  rw [identifier.sizeOf_spec]
  omega

/-- Children are smaller than the node. -/
theorem sizeOf_lt_of_mem_children {n c : Node} (h : c ∈ n.children) : sizeOf c < sizeOf n := by
  cases n with
  | block _ body =>
      have hlt := List.sizeOf_lt_of_mem (show c ∈ body from h)
      rw [block.sizeOf_spec]
      omega
  | varDecl info name init isConst => cases init <;> grind [children]
  | importDecl _ _ names _ =>
      have hle := sizeOf_le_of_mem_map_identifier (show c ∈ names.map .identifier from h)
      rw [importDecl.sizeOf_spec]
      omega
  | exportDecl _ names =>
      have hle := sizeOf_le_of_mem_map_identifier (show c ∈ names.map .identifier from h)
      rw [exportDecl.sizeOf_spec]
      omega
  | sequence _ _ items =>
      have hlt := List.sizeOf_lt_of_mem (show c ∈ items from h)
      rw [sequence.sizeOf_spec]
      omega
  | type t => cases t <;> grind [children]
  | _ => grind [children]

end Node

/-! ## parts at positions -/

namespace Part

/-- The children of a part in the order of the source. -/
def children : Part → List Part
  | program p => (p.values ++ p.sources).map unit
  | unit u => (u.imports ++ u.nodes).map node
  | node n => n.children.map node

/-- The part at a position. -/
def at? : Part → Position → Option Part
  | r, [] => some r
  | r, i :: p => r.children[i]?.bind fun c => c.at? p

/-- The proper ancestors of a position, from the root down. -/
def ancestors : Part → Position → List Part
  | _, [] => []
  | r, i :: p => r :: r.children[i]?.elim [] fun c => c.ancestors p

/-- The sort of a part; that of a child is smaller unless both are nodes. -/
def rank : Part → Nat
  | program _ => 2
  | unit _ => 1
  | node _ => 0

/-- The size of a part that is a node. -/
noncomputable def nodeSize : Part → Nat
  | program _ | unit _ => 0
  | node n => sizeOf n

/-- The parts below a part come before it in rank, or in size at the same rank. -/
theorem lt_of_mem_children {r c : Part} (h : c ∈ r.children) :
    Prod.Lex (· < ·) (· < ·) (c.rank, c.nodeSize) (r.rank, r.nodeSize) := by
  cases r with
  | program p =>
      obtain ⟨u, -, rfl⟩ := List.mem_map.mp h
      exact .left _ _ (by simp [rank])
  | unit u =>
      obtain ⟨n, -, rfl⟩ := List.mem_map.mp h
      exact .left _ _ (by simp [rank])
  | node n =>
      obtain ⟨m, hmem, rfl⟩ := List.mem_map.mp h
      exact .right _ (Node.sizeOf_lt_of_mem_children hmem)

/-- Induction over the parts, from the children up. -/
theorem child_induction {motive : Part → Prop}
    (step : ∀ r, (∀ c ∈ r.children, motive c) → motive r) (r : Part) : motive r :=
  step r fun c _ => child_induction step c
termination_by (r.rank, r.nodeSize)
decreasing_by exact lt_of_mem_children ‹_›

/-! ## what is seen below some kinds -/

/-- Entries below each of the children that are numbered from `k` on. -/
def belowAll {α : Type} (k : Nat) : List (List (Position × α)) → List (Position × α)
  | [] => []
  | entries :: rest => below k entries ++ belowAll (k + 1) rest

/-- The parts in pre-order that have no skipped ancestor, with their positions. -/
def sightings (skip : Kind → Bool) (r : Part) : List (Position × Part) :=
  ([], r) :: if r.isSkipped skip then [] else
    belowAll 0 (r.children.attach.map fun c => c.1.sightings skip)
termination_by (r.rank, r.nodeSize)
decreasing_by exact lt_of_mem_children c.2

/-- The sightings in a part: the part itself, and unless it is skipped, those in its children. -/
theorem sightings_eq (skip : Kind → Bool) (r : Part) :
    r.sightings skip = ([], r) :: if r.isSkipped skip then [] else
      belowAll 0 (r.children.map (·.sightings skip)) := by
  rw [sightings, List.attach_map_val (f := fun c : Part => c.sightings skip)]

/-- An entry below all rows is an entry of one of them, moved there. -/
theorem mem_belowAll {α : Type} {k : Nat} {rows : List (List (Position × α))} {p : Position}
    {a : α} : (p, a) ∈ belowAll k rows ↔
      ∃ i entries q, rows[i]? = some entries ∧ p = (k + i) :: q ∧ (q, a) ∈ entries := by
  induction rows generalizing k with
  | nil => simp [belowAll]
  | cons row rows ih =>
      rw [belowAll, List.mem_append, mem_below, ih]
      constructor
      · rintro (⟨q, rfl, hmem⟩ | ⟨i, entries, q, hrow, rfl, hmem⟩)
        · exact ⟨0, row, q, rfl, rfl, hmem⟩
        · exact ⟨i + 1, entries, q, hrow, by rw [Nat.add_right_comm, Nat.add_assoc], hmem⟩
      · rintro ⟨i, entries, q, hrow, rfl, hmem⟩
        cases i with
        | zero =>
            obtain rfl : row = entries := by simpa using hrow
            exact .inl ⟨q, rfl, hmem⟩
        | succ i =>
            exact .inr ⟨i, entries, q, hrow, by rw [Nat.add_right_comm, Nat.add_assoc], hmem⟩

/-- At the empty position the part itself is seen. -/
theorem nil_mem_sightings {skip : Kind → Bool} {r x : Part} :
    ([], x) ∈ r.sightings skip ↔ x = r := by
  have hbelow : ([], x) ∉ belowAll 0 (r.children.map (·.sightings skip)) := by
    simp [mem_belowAll]
  rw [sightings_eq]
  split <;> simp [hbelow]

/-- Below a child is seen what is seen in the child, unless the part is skipped. -/
theorem cons_mem_sightings {skip : Kind → Bool} {r x : Part} {i : Nat} {p : Position} :
    (i :: p, x) ∈ r.sightings skip ↔
      r.isSkipped skip = false ∧ ∃ c, r.children[i]? = some c ∧ (p, x) ∈ c.sightings skip := by
  have hbelow : (i :: p, x) ∈ belowAll 0 (r.children.map (·.sightings skip)) ↔
      ∃ c, r.children[i]? = some c ∧ (p, x) ∈ c.sightings skip := by
    simp only [mem_belowAll, Nat.zero_add, List.cons.injEq, List.getElem?_map,
      Option.map_eq_some_iff]
    constructor
    · rintro ⟨_, _, _, ⟨c, hc, rfl⟩, ⟨rfl, rfl⟩, hmem⟩
      exact ⟨c, hc, hmem⟩
    · rintro ⟨c, hc, hmem⟩
      exact ⟨i, _, p, ⟨c, hc, rfl⟩, ⟨rfl, rfl⟩, hmem⟩
  rw [sightings_eq]
  cases hskip : r.isSkipped skip <;> simp [hbelow]

/-- The list holds exactly the parts that have no skipped proper ancestor. -/
theorem mem_sightings {skip : Kind → Bool} {r x : Part} {p : Position} :
    (p, x) ∈ r.sightings skip ↔
      r.at? p = some x ∧ ∀ a ∈ r.ancestors p, a.isSkipped skip = false := by
  induction p generalizing r with
  | nil => simp [nil_mem_sightings, at?, ancestors, eq_comm (a := x)]
  | cons i p ih =>
      rw [cons_mem_sightings, at?, ancestors]
      cases hc : r.children[i]? with
      | none => simp
      | some c => simp [ih, and_left_comm]

theorem map_fst_below {α : Type} (i : Nat) (entries : List (Position × α)) :
    (below i entries).map (·.1) = (entries.map (·.1)).map (i :: ·) := by
  rw [below, List.map_map, List.map_map]
  rfl

/-- Rows in preorder are in preorder when they are moved below the children. -/
theorem preorder_belowAll {α : Type} (k : Nat) {rows : List (List (Position × α))}
    (h : ∀ row ∈ rows, (row.map (·.1)).Pairwise Position.StartsBefore) :
    ((belowAll k rows).map (·.1)).Pairwise Position.StartsBefore := by
  induction rows generalizing k with
  | nil => exact List.Pairwise.nil
  | cons row rows ih =>
      have hrow := Node.preorder_map_cons k (h row List.mem_cons_self)
      have hrest := ih (k + 1) fun row' hmem => h row' (.tail row hmem)
      rw [belowAll, List.map_append, map_fst_below]
      refine Node.preorder_append hrow hrest fun a ha b hb => ?_
      -- The one turns into child `k`, the other into a later one.
      obtain ⟨q, -, rfl⟩ := List.mem_map.mp ha
      obtain ⟨⟨b, x⟩, hmem, rfl⟩ := List.mem_map.mp hb
      obtain ⟨i, -, q', -, rfl, -⟩ := mem_belowAll.mp hmem
      exact .inl (by omega)

/-- Parts are listed in pre-order. -/
theorem preorder_sightings (skip : Kind → Bool) (r : Part) :
    ((r.sightings skip).map (·.1)).Pairwise Position.StartsBefore := by
  induction r using child_induction with
  | step r ih =>
      rw [sightings_eq, List.map_cons, List.pairwise_cons]
      split
      · simp
      · constructor
        · intro q hq
          obtain ⟨⟨q, x⟩, hmem, rfl⟩ := List.mem_map.mp hq
          obtain ⟨i, -, q', -, rfl, -⟩ := mem_belowAll.mp hmem
          exact .inl (Position.nil_above_cons _ q')
        · refine preorder_belowAll 0 fun row hrow => ?_
          obtain ⟨c, hc, rfl⟩ := List.mem_map.mp hrow
          exact ih c hc

/-! ## the entries of one part -/

theorem filter_below {α : Type} (i : Nat) (entries : List (Position × α)) (q : Position) :
    (below i entries).filter ((i :: q).isPrefixOf ·.1) =
      below i (entries.filter (q.isPrefixOf ·.1)) := by
  simp [below, List.filter_map, Function.comp_def]

theorem filter_below_of_ne {α : Type} {i j : Nat} (hne : i ≠ j) (entries : List (Position × α))
    (q : Position) : (below j entries).filter ((i :: q).isPrefixOf ·.1) = [] := by
  simp [below, List.filter_map, Function.comp_def, hne]

/-- Of the entries below the children, those at or below a position are in one row. -/
theorem filter_belowAll {α : Type} (k : Nat) {rows : List (List (Position × α))} {i : Nat}
    {row : List (Position × α)} (h : rows[i]? = some row) (q : Position) :
    (belowAll k rows).filter (((k + i) :: q).isPrefixOf ·.1) =
      below (k + i) (row.filter (q.isPrefixOf ·.1)) := by
  induction rows generalizing k i with
  | nil => simp at h
  | cons first rows ih =>
      rw [belowAll, List.filter_append]
      cases i with
      | zero =>
          obtain rfl : first = row := by simpa using h
          have hrest : (belowAll (k + 1) rows).filter ((k :: q).isPrefixOf ·.1) = [] := by
            rw [List.filter_eq_nil_iff]
            intro e hmem hpre
            obtain ⟨i, -, q', -, hq', -⟩ := mem_belowAll.mp hmem
            rw [hq'] at hpre
            simp at hpre
            omega
          rw [Nat.add_zero, filter_below, hrest, List.append_nil]
      | succ i =>
          have hrow := ih (k + 1) (i := i) (by simpa using h)
          rw [Nat.add_assoc, Nat.add_comm 1 i] at hrow
          rw [filter_below_of_ne (by omega), List.nil_append, hrow]

/-- The entries at or below a listed part are those of that part itself. -/
theorem filter_sightings {skip : Kind → Bool} {r x : Part} {p : Position}
    (h : (p, x) ∈ r.sightings skip) :
    (r.sightings skip).filter (p.isPrefixOf ·.1) =
      (x.sightings skip).map fun e => (p ++ e.1, e.2) := by
  induction p generalizing r with
  | nil =>
      obtain rfl := nil_mem_sightings.mp h
      simp
  | cons i p ih =>
      obtain ⟨hskip, c, hc, hmem⟩ := cons_mem_sightings.mp h
      have hrow : (r.children.map (·.sightings skip))[i]? = some (c.sightings skip) := by
        simp [hc]
      have hbelow := filter_belowAll 0 hrow p
      rw [Nat.zero_add, ih hmem] at hbelow
      rw [sightings_eq, hskip, List.filter_cons_of_neg (by simp), if_neg (by simp), hbelow]
      simp [below]

/-! ## the recorder -/

/-- To traverse a part is to visit its children one after another. -/
theorem traverse_eq {m : Type → Type} [Monad m] [LawfulMonad m] {ω : Type} (v : Visitor m ω)
    (r : Part) :
    r.traverse v = r.children.forM fun c => discard (c.accept v) := by
  cases r with
  | program p => simp [traverse, children, accept, Program.units]
  | unit u => simp [traverse, traverseUnit, children, accept, Node.acceptAll_eq, Node.accept]
  | node n =>
      rw [traverse, Node.traverse_eq, children, List.forM_eq_forM, List.forM_eq_forM, List.forM_map]
      rfl

/-- The recorder's visits of the noted entries of a part that stands at some depth: the depth of
an entry is the number of its noted ancestors. -/
def log (units : Bool) (depth : Nat) (r : Part) (entries : List (Position × Part)) :
    List ProgramVisit :=
  (entries.filter (·.2.isNoted units)).map fun e =>
    e.2.record (depth + (r.ancestors e.1).countP (·.isNoted units))

theorem log_append (units : Bool) (depth : Nat) (r : Part) (first second : List (Position × Part)) :
    r.log units depth (first ++ second) = r.log units depth first ++ r.log units depth second := by
  simp [log]

/-- The depth of what is inside a part. -/
def depthInside (units : Bool) (depth : Nat) (r : Part) : Nat :=
  if r.isNoted units then depth + 1 else depth

/-- Entries below a child are logged as in the child, at the depth inside the part. -/
theorem log_below {units : Bool} {depth i : Nat} {r c : Part} (hc : r.children[i]? = some c)
    (entries : List (Position × Part)) :
    r.log units depth (below i entries) = c.log units (r.depthInside units depth) entries := by
  have hdepth (q : Position) : depth + (r.ancestors (i :: q)).countP (·.isNoted units) =
      r.depthInside units depth + (c.ancestors q).countP (·.isNoted units) := by
    rw [ancestors, hc, Option.elim_some, List.countP_cons, depthInside]
    split <;> omega
  simp [log, below, List.filter_map, Function.comp_def, hdepth]

/-- Entries below all children are logged child by child. -/
theorem log_belowAll {units : Bool} {depth k : Nat} {r : Part} {cs : List Part}
    (h : ∀ i c, cs[i]? = some c → r.children[k + i]? = some c)
    (entries : Part → List (Position × Part)) :
    r.log units depth (belowAll k (cs.map entries)) =
      cs.flatMap fun c => c.log units (r.depthInside units depth) (entries c) := by
  induction cs generalizing k with
  | nil => rfl
  | cons c cs ih =>
      have hrest : ∀ i c', cs[i]? = some c' → r.children[k + 1 + i]? = some c' := by
        intro i c' hc'
        rw [Nat.add_assoc, Nat.add_comm 1 i]
        exact h (i + 1) c' (by simpa using hc')
      have hfirst : r.children[k]? = some c := h 0 c rfl
      rw [List.map_cons, belowAll, log_append, log_below hfirst, ih hrest, List.flatMap_cons]

/-- The visits that the recorder notes at a part and below. -/
def visits (skip : Kind → Bool) (units : Bool) (depth : Nat) (r : Part) : List ProgramVisit :=
  r.log units depth (r.sightings skip)

/-- There are as many visits as there are sightings that are noted. -/
theorem length_visits (skip : Kind → Bool) (units : Bool) (depth : Nat) (r : Part) :
    (r.visits skip units depth).length = (r.sightings skip).countP (·.2.isNoted units) := by
  rw [visits, log, List.length_map, List.countP_eq_length_filter]

/-- The visits in a part: one if it is noted, and those of its children unless it is skipped. -/
theorem visits_eq (skip : Kind → Bool) (units : Bool) (depth : Nat) (r : Part) :
    r.visits skip units depth =
      (if r.isNoted units then [r.record depth] else []) ++
        if r.isSkipped skip then [] else
          r.children.flatMap (·.visits skip units (r.depthInside units depth)) := by
  have hroot : r.log units depth [([], r)] = if r.isNoted units then [r.record depth] else [] := by
    cases hnoted : r.isNoted units <;> simp [log, ancestors, hnoted]
  have hbelow : r.log units depth (belowAll 0 (r.children.map (·.sightings skip))) =
      r.children.flatMap (·.visits skip units (r.depthInside units depth)) :=
    log_belowAll (fun i c hc => by simpa using hc) _
  rw [visits, sightings_eq, ← List.singleton_append, log_append, hroot]
  cases r.isSkipped skip with
  | true => rfl
  | false => exact congrArg (_ ++ ·) hbelow

/-- Traversing a part leaves what its children leave, one after another. -/
theorem run_traverse {σ ω : Type} (v : Visitor (StateM σ) ω) (r : Part) (s : σ) :
    (r.traverse v).run s = ((), r.children.foldl (fun s c => ((c.accept v).run s).2) s) := by
  rw [traverse_eq]
  induction r.children generalizing s with
  | nil => rfl
  | cons c cs ih => exact ih ((c.accept v).run s).2

/-- What the recorder has after some parts were visited in turn. -/
theorem foldl_recorder {skip : Kind → Bool} {units : Bool} {cs : List Part}
    (h : ∀ c ∈ cs, ∀ s : Recorder, ((c.accept (recorder skip units)).run s).2 =
      { s with visits := s.visits ++ c.visits skip units s.depth }) (s : Recorder) :
    cs.foldl (fun s c => ((c.accept (recorder skip units)).run s).2) s =
      { s with visits := s.visits ++ cs.flatMap (·.visits skip units s.depth) } := by
  induction cs generalizing s with
  | nil => simp
  | cons c cs ih =>
      rw [List.foldl_cons, h c List.mem_cons_self, ih fun c' hc' => h c' (.tail c hc')]
      simp

/-- Only nodes are skipped, and nodes are always noted. -/
theorem isSkipped_of_not_isNoted {skip : Kind → Bool} {units : Bool} {r : Part}
    (h : r.isNoted units = false) : r.isSkipped skip = false := by
  cases r with
  | program p => rfl
  | unit u => rfl
  | node n => simp [isNoted] at h

end Part

namespace Recorder

theorem run_deeper {act : StateM Recorder Unit} {s t : Recorder}
    (h : act.run { s with depth := s.depth + 1 } = ((), t)) :
    (deeper act).run s = ((), { t with depth := t.depth - 1 }) := by
  have hrun : (deeper act).run s = ((), { (act.run { s with depth := s.depth + 1 }).2 with
      depth := (act.run { s with depth := s.depth + 1 }).2.depth - 1 }) := rfl
  rw [hrun, h]

/-- Counting an action gives the number of visits that the action adds. -/
theorem run_counting {act : StateM Recorder Unit} {s t : Recorder} (h : act.run s = ((), t)) :
    (counting act).run s = (t.visits.length - s.visits.length, t) := by
  have hrun : (counting act).run s =
      ((act.run s).2.visits.length - s.visits.length, (act.run s).2) := rfl
  rw [hrun, h]

/-- One visit, given what the children add at each depth. -/
theorem run_visit (skip : Kind → Bool) (units : Bool) (r : Part) {descend : StateM Recorder Unit}
    (added : Nat → List ProgramVisit)
    (h : ∀ t : Recorder, descend.run t = ((), { t with visits := t.visits ++ added t.depth }))
    (s : Recorder) : (visit skip units r descend).run s = ((), { s with visits := s.visits ++
      ((if r.isNoted units then [r.record s.depth] else []) ++
        if r.isSkipped skip then [] else added (r.depthInside units s.depth)) }) := by
  rw [visit, Part.depthInside]
  cases hnoted : r.isNoted units with
  | false =>
      -- A unit or a program that leaves no trace: the children are visited at the same depth.
      rw [Part.isSkipped_of_not_isNoted hnoted]
      exact h s
  | true =>
      cases hskip : r.isSkipped skip with
      | true => rfl
      | false =>
          have hrun (act : StateM Recorder Unit) :
              (do note r.record; act : StateM Recorder Unit).run s =
                act.run { s with visits := s.visits ++ [r.record s.depth] } := rfl
          simp only [if_true, hrun]
          exact (run_deeper (h _)).trans (by simp)

end Recorder

namespace Part

/-- The recorder notes the visits of a part at its present depth, which it keeps, and answers how
many they are. -/
theorem run_recorder (skip : Kind → Bool) (units : Bool) (r : Part) (s : Recorder) :
    (r.accept (recorder skip units)).run s =
      ((r.visits skip units s.depth).length,
        { s with visits := s.visits ++ r.visits skip units s.depth }) := by
  induction r using child_induction generalizing s with
  | step r ih =>
      -- The depth goes up for the children and down again, so what they add is known for any `t`.
      have hbelow (t : Recorder) : (r.traverse (recorder skip units)).run t = ((), { t with
          visits := t.visits ++ r.children.flatMap (·.visits skip units t.depth) }) := by
        rw [run_traverse, foldl_recorder fun c hc t => by rw [ih c hc t]]
      have hvisit := Recorder.run_visit skip units r
        (fun depth => r.children.flatMap (·.visits skip units depth)) hbelow s
      rw [← visits_eq] at hvisit
      have hcount := Recorder.run_counting hvisit
      rw [List.length_append, Nat.add_sub_cancel_left] at hcount
      exact hcount

/-! ## the span collector -/

theorem map_snd_belowAll {α : Type} (k : Nat) (rows : List (List (Position × α))) :
    (belowAll k rows).map (·.2) = rows.flatMap fun row => row.map (·.2) := by
  induction rows generalizing k with
  | nil => rfl
  | cons row rows ih => rw [belowAll, List.map_append, map_snd_below, ih, List.flatMap_cons]

/-- The spans of all nodes of a part, in pre-order. -/
def spans (r : Part) : List Span := ((r.sightings fun _ => false).map (·.2)).filterMap span?

/-- The spans in a part: its own if it has one, and those of its children. -/
theorem spans_eq (r : Part) : r.spans = r.span?.toList ++ r.children.flatMap spans := by
  have hskip : r.isSkipped (fun _ => false) = false := by cases r <;> rfl
  rw [spans, sightings_eq, hskip, if_neg (by simp), List.map_cons, map_snd_belowAll,
    List.flatMap_map, List.filterMap_cons, List.filterMap_flatMap]
  cases r.span? <;> rfl

/-- The spans that are there after some parts were visited in turn. -/
theorem foldl_spanCollector {cs : List Part}
    (h : ∀ c ∈ cs, ∀ s, ((c.accept spanCollector).run s).2 = s ++ c.spans) (s : List Span) :
    cs.foldl (fun s c => ((c.accept spanCollector).run s).2) s = s ++ cs.flatMap spans := by
  induction cs generalizing s with
  | nil => simp
  | cons c cs ih =>
      rw [List.foldl_cons, h c List.mem_cons_self, ih fun c' hc' => h c' (.tail c hc')]
      simp

/-- The collector of spans appends those in the part. -/
theorem run_spanCollector (r : Part) (s : List Span) :
    ((r.accept spanCollector).run s).2 = s ++ r.spans := by
  induction r using child_induction generalizing s with
  | step r ih =>
      have hrun : ((r.accept spanCollector).run s).2 =
          ((r.traverse spanCollector).run (s ++ r.span?.toList)).2 := rfl
      rw [hrun, run_traverse, foldl_spanCollector ih, spans_eq, List.append_assoc]

/-- The span collector lists the spans of all nodes in pre-order. -/
theorem collect_eq_spans (r : Part) : r.collect = r.spans := run_spanCollector r []

end Part

/-- The kind and location of a visited node. -/
def ProgramVisit.span? : ProgramVisit → Option Span
  | program .. | unit .. => none
  | node visit => some (visit.kind, visit.location)

namespace Part

/-- The record of a visit has the span of the part. -/
theorem span?_record (r : Part) (depth : Nat) : (r.record depth).span? = r.span? := by
  cases r <;> rfl

/-- Nodes are noted in any case, so their spans do not depend on what else is. -/
theorem filterMap_span?_log (units : Bool) (depth : Nat) (r : Part)
    (entries : List (Position × Part)) :
    (r.log units depth entries).filterMap ProgramVisit.span? =
      (entries.map (·.2)).filterMap span? := by
  have hnoted (x : Part) : (if x.isNoted units then x.span? else none) = x.span? := by
    cases x <;> cases units <;> rfl
  rw [log, List.filterMap_map, List.filterMap_filter, List.filterMap_map]
  congr 1
  funext e
  simp only [Function.comp_apply, span?_record, hnoted]

/-! ## visiting -/

/-- Visiting is complete, without duplicates and in pre-order, whatever kinds are skipped. For a
program, a unit or a node there is a list of positions with the parts that stand there, such that

* the list holds exactly the parts that have no skipped proper ancestor, in pre-order, with
  children in the order of the source;
* the recorder notes the parts of the list one after another, each with the number of its noted
  ancestors as depth, where nodes are always noted and units and programs if asked to;
* the visit of a part of the list answers how many of the noted parts are at or below it;
* traversing any part leaves the recorder as visiting its children one after another does;
* if nothing is skipped, the noted kinds and locations are those of the span collector. -/
theorem visiting_exact (skip : Kind → Bool) (units : Bool) (r : Part) :
    ∃ entries : List (Position × Part),
      (∀ p x, (p, x) ∈ entries ↔
        r.at? p = some x ∧ ∀ a ∈ r.ancestors p, a.isSkipped skip = false) ∧
      (entries.map (·.1)).Pairwise Position.StartsBefore ∧
      (r.accept (recorder skip units)).run {} =
        (entries.countP (·.2.isNoted units),
          { depth := 0
            visits := (entries.filter (·.2.isNoted units)).map fun e =>
              e.2.record ((r.ancestors e.1).countP (·.isNoted units)) }) ∧
      (∀ p x, (p, x) ∈ entries → ∀ s, ((x.accept (recorder skip units)).run s).1 =
        (entries.filter (p.isPrefixOf ·.1)).countP (·.2.isNoted units)) ∧
      (∀ (x : Part) s, ((x.traverse (recorder skip units)).run s).2 =
        x.children.foldl (fun s c => ((c.accept (recorder skip units)).run s).2) s) ∧
      ((r.accept (recorder (fun _ => false) units)).run {}).2.visits.filterMap
        ProgramVisit.span? = r.collect := by
  refine ⟨r.sightings skip, fun p x => mem_sightings, preorder_sightings skip r, ?_, ?_, ?_, ?_⟩
  · have hlog : r.visits skip units 0 = ((r.sightings skip).filter (·.2.isNoted units)).map
        fun e => e.2.record ((r.ancestors e.1).countP (·.isNoted units)) := by
      simp [visits, log]
    rw [run_recorder, length_visits, hlog, List.nil_append]
  · intro p x hmem s
    rw [run_recorder, length_visits, filter_sightings hmem, List.countP_map]
    rfl
  · intro x s
    rw [run_traverse]
  · rw [run_recorder, List.nil_append, visits, filterMap_span?_log, collect_eq_spans, spans]

end Part

end NameResolution
