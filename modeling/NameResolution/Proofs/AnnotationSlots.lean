import NameResolution.Syntax.Annotation

/-!
# Slots for annotations

Annotations are attached step by step, and a step that finds its slot occupied fails. What is
attached at a place is a list, `Annotations.placed`, and all that a step can do is said through
these four lists: it adds to the list of its place, or fails because its place is a slot with an
annotation in it (`Annotations.attempt_cases`).

So after any run of steps the list of a place is what the steps for that place brought, cut off
after the first if the place is a slot (`Annotations.placed_after`).

Main statement: `Annotations.slots_exact`.
-/

namespace NameResolution

/-- The slot at a place, if there is one. -/
def Placement.slot? : Placement → Option Slot
  | preceding | succeeding => none
  | trailing => some .trailing
  | trailingAfterComma => some .trailingAfterComma

/-- Of some annotations for a place, those that are kept: a slot keeps the first. -/
def Placement.kept (place : Placement) (as : List Annotation) : List Annotation :=
  if place.slot?.isSome then as.take 1 else as

namespace Placement

theorem kept_singleton (place : Placement) (a : Annotation) : place.kept [a] = [a] := by
  unfold kept
  split <;> rfl

/-- A place without a slot keeps everything. -/
theorem kept_of_slot?_eq_none {place : Placement} (h : place.slot? = none)
    (as : List Annotation) : place.kept as = as := by
  simp [kept, h]

/-- A slot keeps the first annotation that is brought to it. -/
theorem kept_of_slot {place : Placement} {slot : Slot} (hslot : place.slot? = some slot)
    (as : List Annotation) : place.kept as = as.head?.toList := by
  cases as <;> simp [kept, hslot]

/-- A slot that holds an annotation takes no other. -/
theorem kept_append_of_ne_nil {place : Placement} {slot : Slot} (hslot : place.slot? = some slot)
    {as : List Annotation} (h : as ≠ []) (bs : List Annotation) :
    place.kept (as ++ bs) = place.kept as := by
  cases as with
  | nil => exact absurd rfl h
  | cons a as => simp [kept, hslot]

/-- What a place keeps can be told from what it has kept so far and what comes after. -/
theorem kept_kept_append (place : Placement) (as bs : List Annotation) :
    place.kept (place.kept as ++ bs) = place.kept (as ++ bs) := by
  unfold kept
  split
  · cases as <;> simp
  · rfl

/-- A place is empty just if nothing was brought to it. -/
theorem kept_eq_nil_iff {place : Placement} {as : List Annotation} :
    place.kept as = [] ↔ as = [] := by
  unfold kept
  split <;> simp

end Placement

/-- The annotations that some steps are to attach at a place. -/
def broughtTo (place : Placement) (steps : List Attachment) : List Annotation :=
  (steps.filter (·.place = place)).map (·.note)

theorem broughtTo_cons (place : Placement) (s : Attachment) (steps : List Attachment) :
    broughtTo place (s :: steps) = broughtTo place [s] ++ broughtTo place steps := by
  by_cases h : s.place = place <;> simp [broughtTo, h]

/-- Something is brought to a place just if one of the steps goes there. -/
theorem broughtTo_ne_nil_iff {place : Placement} {steps : List Attachment} :
    broughtTo place steps ≠ [] ↔ ∃ s ∈ steps, s.place = place := by
  simp [broughtTo]

namespace Annotations

/-- What is attached at a place. -/
def placed (as : Annotations) : Placement → List Annotation
  | .preceding => as.preceding
  | .trailing => as.trailing.toList
  | .trailingAfterComma => as.trailingAfterComma.toList
  | .succeeding => as.succeeding

/-- Annotations are determined by what stands at each place. -/
theorem ext_placed {as bs : Annotations} (h : ∀ place, as.placed place = bs.placed place) :
    as = bs := by
  have htrailing : as.trailing = bs.trailing := by
    simpa [placed] using congrArg List.head? (h .trailing)
  have hcomma : as.trailingAfterComma = bs.trailingAfterComma := by
    simpa [placed] using congrArg List.head? (h .trailingAfterComma)
  have hpreceding : as.preceding = bs.preceding := h .preceding
  have hsucceeding : as.succeeding = bs.succeeding := h .succeeding
  cases as
  cases bs
  simp_all

/-! ## one step -/

section

variable {place : Placement} {slot : Slot}

/-- At the place of a slot stands what the slot holds. -/
theorem placed_slot (as : Annotations) (h : place.slot? = some slot) :
    as.placed place = (as.held slot).toList := by
  cases place <;> cases h <;> rfl

/-- Filling a slot changes what stands at its place, and at no other. -/
theorem placed_put (as : Annotations) (a : Annotation) (h : place.slot? = some slot)
    (other : Placement) :
    (as.put a slot).placed other = if other = place then [a] else as.placed other := by
  cases place <;> cases h <;> cases other <;> rfl

theorem attach_slot {s : Attachment} (h : s.place.slot? = some slot) :
    attach s = fillSlot slot s.note := by
  obtain ⟨place, a⟩ := s
  cases place <;> cases h <;> rfl

end

/-- A slot that is filled refuses the annotation and changes nothing; an empty one takes it. -/
theorem run_fillSlot (as : Annotations) (slot : Slot) (a : Annotation) :
    (fillSlot slot a).run as =
      match as.held slot with
      | some _ => .error (.slotOccupied slot) as
      | none => .ok () (as.put a slot) := by
  cases h : as.held slot <;> simp [fillSlot, h]

/-- What a step can do. -/
theorem attempt_cases (as : Annotations) (s : Attachment) :
    (∃ slot, s.place.slot? = some slot ∧ as.placed s.place ≠ [] ∧
        as.attempt s = (.error (.slotOccupied slot), as)) ∨
      (s.place.slot? = none ∨ as.placed s.place = []) ∧ ∃ bs, as.attempt s = (.ok (), bs) ∧
        ∀ place, bs.placed place =
          if place = s.place then as.placed place ++ [s.note] else as.placed place := by
  obtain ⟨place, a⟩ := s
  cases hslot : place.slot? with
  | none =>
      refine .inr ⟨.inl rfl, ?_⟩
      cases place with
      | preceding => exact ⟨_, rfl, fun other => by cases other <;> rfl⟩
      | succeeding => exact ⟨_, rfl, fun other => by cases other <;> rfl⟩
      | trailing | trailingAfterComma => cases hslot
  | some slot =>
      have hrun := run_fillSlot as slot a
      rw [attempt, attach_slot hslot, placed_slot as hslot, hrun]
      cases hheld : as.held slot with
      | some b => exact .inl ⟨slot, rfl, by simp, rfl⟩
      | none =>
          refine .inr ⟨.inr rfl, as.put a slot, rfl, fun other => ?_⟩
          rw [placed_put as a hslot]
          split
          · next h => simp [h, placed_slot as hslot, hheld]
          · rfl

/-! ## runs of steps -/

/-- What stands at a place is what the place keeps of it. -/
theorem kept_placed (as : Annotations) (place : Placement) :
    place.kept (as.placed place) = as.placed place := by
  unfold Placement.kept
  split
  · next h =>
    obtain ⟨slot, hslot⟩ := Option.isSome_iff_exists.mp h
    rw [placed_slot as hslot]
    cases as.held slot <;> rfl
  · rfl

/-- **One step**: its annotation is kept if there is room for it. -/
theorem placed_attempt (as : Annotations) (s : Attachment) (place : Placement) :
    (as.attempt s).2.placed place = place.kept (as.placed place ++ broughtTo place [s]) := by
  have hkept := as.kept_placed place
  rcases as.attempt_cases s with ⟨slot, hslot, hne, hs⟩ | ⟨hroom, bs, hs, hplaced⟩
  · rw [hs]
    by_cases hplace : s.place = place
    · subst hplace
      rw [Placement.kept_append_of_ne_nil hslot hne, hkept]
    · simp [broughtTo, hplace, hkept]
  · rw [hs, hplaced]
    by_cases hplace : s.place = place
    · subst hplace
      rcases hroom with hnone | hempty
      · simp [broughtTo, Placement.kept_of_slot?_eq_none hnone]
      · simp [broughtTo, hempty, Placement.kept_singleton]
    · simp [broughtTo, hplace, Ne.symm hplace, hkept]

/-- **A run of steps**: a place has what was brought to it, and a slot the first of it. -/
theorem placed_after (as : Annotations) (steps : List Attachment) (place : Placement) :
    (as.after steps).placed place =
      place.kept (as.placed place ++ broughtTo place steps) := by
  induction steps generalizing as with
  | nil => simp [after, broughtTo, kept_placed]
  | cons s steps ih =>
      have hcons : as.after (s :: steps) = (as.attempt s).2.after steps := rfl
      rw [hcons, ih, placed_attempt, Placement.kept_kept_append, List.append_assoc,
        ← broughtTo_cons]

/-- If there were no annotations before, a place has what it keeps of all that was brought. -/
theorem placed_after_empty (steps : List Attachment) (place : Placement) :
    (after {} steps).placed place = place.kept (broughtTo place steps) := by
  have hempty : ({} : Annotations).placed place = [] := by cases place <;> rfl
  rw [placed_after, hempty, List.nil_append]

/-- The entry of a step in the record of a run. -/
theorem getElem?_attemptAll (as : Annotations) (steps : List Attachment) (i : Nat) :
    (as.attemptAll steps)[i]? = steps[i]?.map (as.after (steps.take i)).attempt := by
  induction steps generalizing as i with
  | nil => rfl
  | cons s steps ih =>
      cases i with
      | zero => rfl
      | succ i => exact ih (as.attempt s).2 i

theorem after_take_succ {as : Annotations} {steps : List Attachment} {i : Nat} {s : Attachment}
    (h : steps[i]? = some s) :
    as.after (steps.take (i + 1)) = ((as.after (steps.take i)).attempt s).2 := by
  rw [List.take_add_one, h, after, List.foldl_append]
  rfl

/-- A step fails if its place is a slot that is occupied. -/
theorem attempt_eq_error_iff {as : Annotations} {s : Attachment} {e : TreeError} :
    (as.attempt s).1 = .error e ↔
      ∃ slot, s.place.slot? = some slot ∧ e = .slotOccupied slot ∧ as.placed s.place ≠ [] := by
  rcases as.attempt_cases s with ⟨slot, hslot, hne, hs⟩ | ⟨hroom, bs, hs, -⟩
  · simp [hs, hslot, hne, eq_comm]
  · rcases hroom with hnone | hempty
    · simp [hs, hnone]
    · simp [hs, hempty]

/-- A step that fails changes nothing. -/
theorem attempt_of_error {as : Annotations} {s : Attachment} {e : TreeError}
    (h : (as.attempt s).1 = .error e) : (as.attempt s).2 = as := by
  rcases as.attempt_cases s with ⟨slot, -, -, hs⟩ | ⟨-, bs, hs, -⟩
  · rw [hs]
  · rw [hs] at h
    cases h

/-! ## what is read off -/

theorem toList_eq (as : Annotations) :
    as.toList = as.placed .preceding ++ as.placed .trailing ++ as.placed .trailingAfterComma ++
      as.placed .succeeding := rfl

/-- There are no annotations just if the list of all of them is empty. -/
theorem isEmpty_iff (as : Annotations) : as.isEmpty = true ↔ as.toList = [] := by
  simp [isEmpty, toList, and_assoc]

/-- Appending one line after another is appending all lines at once. -/
theorem foldl_lines (doc : String) (as : List Annotation) :
    as.foldl (fun doc a => doc ++ a.content ++ "\n") doc =
      doc ++ String.join (as.map (·.content ++ "\n")) := by
  induction as generalizing doc with
  | nil => simp
  | cons a as ih => rw [List.foldl_cons, ih, List.map_cons, String.join_cons, String.append_assoc,
      String.append_assoc, String.append_assoc]

/-- The documentation has a line for each documentation comment in front, in their order. -/
theorem documentation_eq (as : Annotations) :
    as.documentation = String.join
      (((as.placed .preceding).filter (·.isDocumentation)).map (·.content ++ "\n")) := by
  rw [documentation, foldl_lines, String.empty_append, placed]

/-! ## steps at different places -/

/-- A step leaves what stands at other places as it is. -/
theorem placed_attempt_of_ne (as : Annotations) {s : Attachment} {place : Placement}
    (h : s.place ≠ place) : (as.attempt s).2.placed place = as.placed place := by
  have hnone : broughtTo place [s] = [] := by simp [broughtTo, h]
  rw [placed_attempt, hnone, List.append_nil, kept_placed]

/-- Whether a step fails is a matter of its own place. -/
theorem outcome_congr {as bs : Annotations} {s : Attachment}
    (h : as.placed s.place = bs.placed s.place) : (as.attempt s).1 = (bs.attempt s).1 := by
  cases hbs : (bs.attempt s).1 with
  | error e =>
      obtain ⟨slot, hslot, he, hne⟩ := attempt_eq_error_iff.mp hbs
      exact attempt_eq_error_iff.mpr ⟨slot, hslot, he, h ▸ hne⟩
  | ok u =>
      cases has : (as.attempt s).1 with
      | ok u => rfl
      | error e =>
          obtain ⟨slot, hslot, he, hne⟩ := attempt_eq_error_iff.mp has
          have hfails := attempt_eq_error_iff.mpr ⟨slot, hslot, he, h ▸ hne⟩
          rw [hbs] at hfails
          cases hfails

/-- Whether a step succeeds does not depend on a step at another place. -/
theorem outcome_after_other (as : Annotations) {s t : Attachment} (h : s.place ≠ t.place) :
    ((as.attempt s).2.attempt t).1 = (as.attempt t).1 :=
  outcome_congr (as.placed_attempt_of_ne h)

/-- Steps at different places can be taken in either order. -/
theorem attempt_comm (as : Annotations) {s t : Attachment} (h : s.place ≠ t.place) :
    ((as.attempt s).2.attempt t).2 = ((as.attempt t).2.attempt s).2 := by
  -- At most one of the steps is for a place, and the other leaves it alone.
  refine ext_placed fun place => ?_
  by_cases hs : s.place = place
  · have ht : t.place ≠ place := hs ▸ h.symm
    rw [placed_attempt_of_ne _ ht, placed_attempt, placed_attempt, placed_attempt_of_ne _ ht]
  · rw [placed_attempt_of_ne _ hs, placed_attempt, placed_attempt_of_ne _ hs, placed_attempt]

/-! ## slots -/

/-- **Slots over any run of steps**, from no annotations on:

* a step fails, with its slot in the error, exactly if it is for a slot that an earlier step was
  for, and a step that fails leaves the annotations as they are;
* in the end, the annotations in order are those that were added before the node, the first for
  the trailing slot, the first for the slot behind the comma, and those added after the node;
* the documentation is made of the documentation comments added before the node, a line each;
* nothing is attached exactly if there is no annotation to list;
* two steps at different places can be made in either order, on any annotations. -/
theorem slots_exact (steps : List Attachment) :
    (∀ i s, steps[i]? = some s → ∃ outcome,
      (attemptAll {} steps)[i]? = some (outcome, after {} (steps.take (i + 1))) ∧
        (∀ e, outcome = .error e ↔ ∃ slot, s.place.slot? = some slot ∧ e = .slotOccupied slot ∧
          ∃ t ∈ steps.take i, t.place = s.place) ∧
        ∀ e, outcome = .error e → after {} (steps.take (i + 1)) = after {} (steps.take i)) ∧
      (after {} steps).toList =
        broughtTo .preceding steps ++ (broughtTo .trailing steps).head?.toList ++
          (broughtTo .trailingAfterComma steps).head?.toList ++ broughtTo .succeeding steps ∧
      (after {} steps).documentation =
        String.join (((broughtTo .preceding steps).filter (·.isDocumentation)).map
          (·.content ++ "\n")) ∧
      ((after {} steps).isEmpty = true ↔ (after {} steps).toList = []) ∧
      ∀ (as : Annotations) (s t : Attachment), s.place ≠ t.place →
        ((as.attempt s).2.attempt t).2 = ((as.attempt t).2.attempt s).2 ∧
          ((as.attempt s).2.attempt t).1 = (as.attempt t).1 ∧
          ((as.attempt t).2.attempt s).1 = (as.attempt s).1 := by
  refine ⟨fun i s hs => ?_, ?_, ?_, isEmpty_iff _, fun as s t h => ?_⟩
  · refine ⟨((after {} (steps.take i)).attempt s).1, ?_, fun e => ?_, fun e he => ?_⟩
    · rw [getElem?_attemptAll, hs, after_take_succ hs]
      rfl
    · rw [attempt_eq_error_iff, placed_after_empty, ne_eq, Placement.kept_eq_nil_iff, ← ne_eq,
        broughtTo_ne_nil_iff]
    · rw [after_take_succ hs, attempt_of_error he]
  · simp only [toList_eq, placed_after_empty]
    rw [Placement.kept_of_slot?_eq_none rfl, Placement.kept_of_slot rfl, Placement.kept_of_slot rfl,
      Placement.kept_of_slot?_eq_none rfl]
  · rw [documentation_eq, placed_after_empty, Placement.kept_of_slot?_eq_none rfl]
  · exact ⟨as.attempt_comm h, as.outcome_after_other h, as.outcome_after_other h.symm⟩

end Annotations

end NameResolution
