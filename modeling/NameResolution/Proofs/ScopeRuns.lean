import Mathlib.Data.List.Basic
import NameResolution.Resolver.ScopeStack

/-!
# Runs of steps on the scopes

Scopes are opened and closed and names are declared in any order. What the scopes are then is said
by the history of the steps alone: a scope is still open if no step since has closed it
(`StillOpen`), its number is the number of scopes opened before it, and it holds what has been
declared since, in it and not in a scope opened in it (`declarations`).

`ScopeStack.Follows` ties the scopes to a history. One step keeps it (`ScopeStack.Follows.perform`),
so it holds after every run, and numbers and lookups are read off it. That a block leaves no trace
is a matter of the scopes below it, which its steps do not reach (`ScopeStack.exists_run_append`).

Main statement: `ScopeStack.scoping_exact`.
-/

namespace NameResolution

/-- A step on the scopes. -/
inductive ScopeStep where
  | push
  | pop
  | declare (name : String) (location : Location)
deriving DecidableEq

namespace ScopeStack

/-- The scopes after a step. -/
def perform (s : ScopeStack) : ScopeStep → ScopeStack
  | .push => s.push.2
  | .pop => s.pop
  | .declare name location => (s.declare name location).2

/-- The scopes after a run of steps. -/
def run (s : ScopeStack) (steps : List ScopeStep) : ScopeStack := steps.foldl perform s

/-- The numbers that a run of steps gives to the scopes that it opens, in their order. -/
def opened (s : ScopeStack) : List ScopeStep → List UInt32
  | [] => []
  | .push :: steps => s.push.1 :: s.push.2.opened steps
  | step :: steps => (s.perform step).opened steps

@[simp] theorem run_nil (s : ScopeStack) : s.run [] = s := rfl

@[simp] theorem run_cons (s : ScopeStack) (step : ScopeStep) (steps : List ScopeStep) :
    s.run (step :: steps) = (s.perform step).run steps := rfl

theorem run_append (s : ScopeStack) (steps more : List ScopeStep) :
    s.run (steps ++ more) = (s.run steps).run more :=
  List.foldl_append

end ScopeStack

/-! ## histories -/

/-- The steps stay inside the scope in which they start: at no time have they closed more scopes
than they have opened. -/
def Inside (steps : List ScopeStep) : Prop :=
  ∀ front, front <+: steps → front.count .pop ≤ front.count .push

/-- The steps open a scope, stay inside it and close it again. -/
def Balanced (steps : List ScopeStep) : Prop :=
  ∃ inner, steps = .push :: inner ++ [.pop] ∧ Inside inner ∧ inner.count .pop = inner.count .push

/-- The history opens a scope after the steps `before`, and the steps `after` have not closed it. -/
structure StillOpen (steps before after : List ScopeStep) : Prop where
  split : steps = before ++ .push :: after
  inside : Inside after

/-- What a step declares. -/
def ScopeStep.declaration? : ScopeStep → Option (String × Location)
  | declare name location => some (name, location)
  | _ => none

/-- What the steps declare in the scope in which they start: the declarations in front of which as
many scopes have been closed as opened. -/
def declarations (steps : List ScopeStep) : List (String × Location) :=
  (List.range steps.length).filterMap fun i =>
    if (steps.take i).count .pop = (steps.take i).count .push then
      steps[i]?.bind ScopeStep.declaration?
    else none

theorem inside_nil : Inside [] := by
  intro front hfront
  rw [List.prefix_nil.mp hfront]
  exact Nat.le_refl _

/-- One step more stays inside unless it closes a scope where none is open. -/
theorem inside_concat_iff {steps : List ScopeStep} {step : ScopeStep} :
    Inside (steps ++ [step]) ↔
      Inside steps ∧ (step = .pop → steps.count .pop < steps.count .push) := by
  constructor
  · intro h
    refine ⟨fun front hfront => h front (hfront.trans (List.prefix_append _ _)), ?_⟩
    rintro rfl
    simpa [Nat.succ_le_iff] using h _ (List.prefix_refl _)
  · rintro ⟨hinside, hpop⟩ front hfront
    rcases List.prefix_concat_iff.mp hfront with rfl | hfront
    · have hle := hinside steps (List.prefix_refl _)
      cases step with
      | push =>
          rw [List.count_append, List.count_append]
          exact Nat.add_le_add hle (Nat.zero_le 1)
      | pop => simpa [Nat.succ_le_iff] using hpop rfl
      | declare name location => simpa using hle
    · exact hinside front hfront

/-- One step more declares in the scope in which the steps start if it finds no other open. -/
theorem declarations_concat (steps : List ScopeStep) (step : ScopeStep) :
    declarations (steps ++ [step]) = declarations steps ++
      if steps.count .pop = steps.count .push then step.declaration?.toList else [] := by
  have hfront : (List.range steps.length).filterMap (fun i =>
        if ((steps ++ [step]).take i).count .pop = ((steps ++ [step]).take i).count .push then
          (steps ++ [step])[i]?.bind ScopeStep.declaration?
        else none) = declarations steps := by
    refine List.filterMap_congr fun i hi => ?_
    have hlt : i < steps.length := List.mem_range.mp hi
    rw [List.take_append_of_le_length (Nat.le_of_lt hlt), List.getElem?_append_left hlt]
  rw [declarations, List.length_append, List.length_singleton, List.range_succ,
    List.filterMap_append, hfront]
  congr 1
  by_cases hlevel : steps.count .pop = steps.count .push
  · cases hdecl : step.declaration? <;> simp [hlevel, hdecl]
  · simp [hlevel]

/-! ## which scopes are open -/

/-- The scope that is opened after the steps `before` is still open, and `k` scopes that are opened
after it are. -/
structure OpenAt (steps before after : List ScopeStep) (k : Nat) : Prop extends
    StillOpen steps before after where
  depth : after.count .push = after.count .pop + k

section

variable {steps before after before' after' : List ScopeStep} {step : ScopeStep} {k j : Nat}

/-- A scope that is still open is open at some depth. -/
theorem StillOpen.exists_openAt (h : StillOpen steps before after) :
    ∃ k, OpenAt steps before after k := by
  have hle := h.inside after (List.prefix_refl _)
  exact ⟨after.count .push - after.count .pop, h, by omega⟩

/-- **Histories, one step**: a scope that is open after a step has just been opened, or it was open
before and the step has not closed it. -/
theorem stillOpen_concat_iff :
    StillOpen (steps ++ [step]) before after ↔
      (step = .push ∧ before = steps ∧ after = []) ∨
        ∃ rest, after = rest ++ [step] ∧ StillOpen steps before rest ∧
          (step = .pop → rest.count .pop < rest.count .push) := by
  constructor
  · rintro ⟨hsplit, hinside⟩
    rcases List.eq_nil_or_concat after with rfl | ⟨rest, last, rfl⟩
    · obtain ⟨rfl, hstep⟩ := List.append_inj' hsplit rfl
      exact .inl ⟨by simpa using hstep, rfl, rfl⟩
    · rw [List.concat_eq_append] at hsplit hinside ⊢
      rw [← List.cons_append, ← List.append_assoc] at hsplit
      obtain ⟨hsteps, hstep⟩ := List.append_inj' hsplit rfl
      obtain rfl : step = last := by simpa using hstep
      obtain ⟨hrest, hpop⟩ := inside_concat_iff.mp hinside
      exact .inr ⟨rest, rfl, ⟨hsteps, hrest⟩, hpop⟩
  · rintro (⟨rfl, rfl, rfl⟩ | ⟨rest, rfl, h, hpop⟩)
    · exact ⟨rfl, inside_nil⟩
    · exact ⟨by rw [h.split, List.append_assoc, List.cons_append],
        inside_concat_iff.mpr ⟨h.inside, hpop⟩⟩

/-- A scope that was just opened is the innermost one. -/
theorem openAt_push_zero : OpenAt (steps ++ [.push]) steps [] 0 :=
  ⟨⟨rfl, inside_nil⟩, rfl⟩

/-- Opening a scope moves the open ones one further out. -/
theorem OpenAt.push (h : OpenAt steps before after k) :
    OpenAt (steps ++ [.push]) before (after ++ [.push]) (k + 1) := by
  refine ⟨stillOpen_concat_iff.mpr (.inr ⟨after, rfl, h.toStillOpen, by simp⟩), ?_⟩
  have hdepth := h.depth
  rw [List.count_append, List.count_append]
  change after.count .push + 1 = after.count .pop + 0 + (k + 1)
  omega

/-- Closing a scope moves the open ones one further in. -/
theorem OpenAt.pop (h : OpenAt steps before after (k + 1)) :
    OpenAt (steps ++ [.pop]) before (after ++ [.pop]) k := by
  have hdepth := h.depth
  refine ⟨stillOpen_concat_iff.mpr (.inr ⟨after, rfl, h.toStillOpen, fun _ => by omega⟩), ?_⟩
  rw [List.count_append, List.count_append]
  change after.count .push + 0 = after.count .pop + 1 + k
  omega

/-- A declaration leaves the open scopes where they are. -/
theorem OpenAt.declare (h : OpenAt steps before after k) (name : String) (location : Location) :
    OpenAt (steps ++ [.declare name location]) before (after ++ [.declare name location]) k := by
  refine ⟨stillOpen_concat_iff.mpr (.inr ⟨after, rfl, h.toStillOpen, by simp⟩), ?_⟩
  simpa using h.depth

/-- The depth of an open scope before a step, if it was open then. -/
theorem OpenAt.before_concat (h : OpenAt (steps ++ [step]) before after k) :
    (step = .push ∧ k = 0) ∨
      ∃ rest j, OpenAt steps before rest j ∧ k + [step].count .pop = j + [step].count .push := by
  have hdepth := h.depth
  rcases stillOpen_concat_iff.mp h.toStillOpen with ⟨hstep, -, rfl⟩ | ⟨rest, rfl, hrest, -⟩
  · exact .inl ⟨hstep, by simpa using hdepth.symm⟩
  · obtain ⟨j, hj⟩ := hrest.exists_openAt
    have hdepth' := hj.depth
    rw [List.count_append, List.count_append] at hdepth
    exact .inr ⟨rest, j, hj, by omega⟩

/-- Of two scopes that are open, one is opened inside the other. -/
theorem StillOpen.exists_between (h : StillOpen steps before after)
    (h' : StillOpen steps before' after') (hlt : before.length < before'.length) :
    ∃ between, before' = before ++ .push :: between ∧ after = between ++ .push :: after' := by
  have hsplit := h.split.symm.trans h'.split
  rcases List.append_eq_append_iff.mp hsplit with ⟨middle, hmiddle, hafter⟩ | ⟨middle, hmiddle, -⟩
  · cases middle with
    | nil => simp [hmiddle] at hlt
    | cons step between =>
        rw [List.cons_append] at hafter
        obtain ⟨rfl, htail⟩ := List.cons.inj hafter
        exact ⟨between, hmiddle, htail⟩
  · rw [hmiddle, List.length_append] at hlt
    omega

/-- A scope that is opened later is further inside. -/
theorem OpenAt.lt_of_length_lt (h : OpenAt steps before after k)
    (h' : OpenAt steps before' after' j) (hlt : before.length < before'.length) : j < k := by
  obtain ⟨between, -, rfl⟩ := h.exists_between h'.toStillOpen hlt
  have hle := h.inside between (List.prefix_append _ _)
  have hdepth := h.depth
  have hdepth' := h'.depth
  simp only [List.count_append, List.count_cons_self] at hdepth
  rw [List.count_cons_of_ne (by simp)] at hdepth
  omega

/-- Of two open scopes, the inner one was opened later. -/
theorem OpenAt.length_lt_of_lt (h : OpenAt steps before after k)
    (h' : OpenAt steps before' after' j) (hlt : j < k) : before.length < before'.length := by
  rcases Nat.lt_trichotomy before.length before'.length with hlength | hlength | hlength
  · exact hlength
  · obtain ⟨rfl, hafter⟩ := List.append_inj (h.split.symm.trans h'.split) hlength
    obtain rfl := (List.cons.inj hafter).2
    have hdepth := h.depth
    have hdepth' := h'.depth
    omega
  · exact absurd (h'.lt_of_length_lt h hlength) (Nat.lt_asymm hlt)

/-- At each depth there is one open scope. -/
theorem OpenAt.unique (h : OpenAt steps before after k) (h' : OpenAt steps before' after' k) :
    before = before' ∧ after = after' := by
  have hlength : before.length = before'.length := by
    rcases Nat.lt_trichotomy before.length before'.length with hlt | heq | hlt
    · exact absurd (h.lt_of_length_lt h' hlt) (Nat.lt_irrefl k)
    · exact heq
    · exact absurd (h'.lt_of_length_lt h hlt) (Nat.lt_irrefl k)
  obtain ⟨hbefore, hafter⟩ := List.append_inj (h.split.symm.trans h'.split) hlength
  exact ⟨hbefore, (List.cons.inj hafter).2⟩

end

/-! ## scopes follow the history -/

/-- A scope is as its history says: its number counts the scopes opened before it, and a name in it
is at its first declaration. -/
structure Scope.Records (scope : Scope) (before after : List ScopeStep) : Prop where
  id : scope.id = UInt32.ofNat (before.count .push)
  names : ∀ name, scope.names.lookup name = (declarations after).lookup name

namespace Scope.Records

variable {scope : Scope} {before after : List ScopeStep}

/-- A step that declares nothing in a scope leaves it as it is. -/
theorem concat (h : scope.Records before after) {step : ScopeStep}
    (hstep : step.declaration? = none ∨ after.count .pop ≠ after.count .push) :
    scope.Records before (after ++ [step]) := by
  refine ⟨h.id, fun name => ?_⟩
  rw [h.names, declarations_concat]
  rcases hstep with hnone | hinner
  · simp [hnone]
  · simp [hinner]

section

variable {name : String} (location : Location)

/-- A new name enters the innermost scope. -/
theorem declare (h : scope.Records before after) (hlevel : after.count .pop = after.count .push) :
    Scope.Records { scope with names := scope.names ++ [(name, location)] } before
      (after ++ [.declare name location]) := by
  refine ⟨h.id, fun other => ?_⟩
  rw [declarations_concat, if_pos hlevel, List.lookup_append, List.lookup_append, h.names]
  rfl

/-- A name that a scope holds is declared in it without effect. -/
theorem redeclare (h : scope.Records before after) {previous : Location}
    (hheld : scope.names.lookup name = some previous)
    (hlevel : after.count .pop = after.count .push) :
    scope.Records before (after ++ [.declare name location]) := by
  refine ⟨h.id, fun other => ?_⟩
  rw [declarations_concat, if_pos hlevel, List.lookup_append, ← h.names]
  by_cases hname : other = name
  · rw [hname, hheld, Option.some_or]
  · have hother : (other == name) = false := by simpa using hname
    simp [ScopeStep.declaration?, List.lookup_cons, hother]

end

end Scope.Records

namespace ScopeStack

/-- The scopes are those that a history leaves open. -/
structure Follows (s : ScopeStack) (steps : List ScopeStep) : Prop where
  nextId : s.nextId = UInt32.ofNat (steps.count .push)
  exists_openAt : ∀ k scope, s.scopes[k]? = some scope →
    ∃ before after, OpenAt steps before after k ∧ scope.Records before after
  lt_length : ∀ before after k, OpenAt steps before after k → k < s.scopes.length

/-- A scope that the history leaves open is there. -/
theorem Follows.exists_scope {s : ScopeStack} {steps before after : List ScopeStep}
    (h : s.Follows steps) (hstill : StillOpen steps before after) :
    ∃ (k : Nat) (scope : Scope), s.scopes[k]? = some scope ∧ OpenAt steps before after k ∧
      scope.Records before after := by
  obtain ⟨k, hk⟩ := hstill.exists_openAt
  have hscope := List.getElem?_eq_getElem (h.lt_length _ _ _ hk)
  obtain ⟨before', after', hopen, hrecords⟩ := h.exists_openAt k _ hscope
  obtain ⟨rfl, rfl⟩ := hk.unique hopen
  exact ⟨k, _, hscope, hk, hrecords⟩

theorem follows_nil : Follows {} [] where
  nextId := rfl
  exists_openAt := by simp
  lt_length := by
    intro before after k h
    have hsplit := h.split
    simp at hsplit

section

variable {s : ScopeStack} {steps : List ScopeStep}

/-- A stack that opens a scope follows one step more. -/
theorem Follows.push (h : s.Follows steps) : s.push.2.Follows (steps ++ [.push]) where
  nextId := by simp [h.nextId, UInt32.ofNat_add]
  exists_openAt := by
    intro k scope hscope
    cases k with
    | zero =>
        obtain rfl : { id := s.nextId } = scope := by simpa [ScopeStack.push] using hscope
        exact ⟨steps, [], openAt_push_zero, h.nextId, fun name => rfl⟩
    | succ k =>
        obtain ⟨before, after, hopen, hrecords⟩ := h.exists_openAt k scope hscope
        exact ⟨before, _, hopen.push, hrecords.concat (.inl rfl)⟩
  lt_length := by
    intro before after k hopen
    have hlength : s.push.2.scopes.length = s.scopes.length + 1 := rfl
    rcases hopen.before_concat with ⟨-, rfl⟩ | ⟨rest, j, hj, hdepth⟩
    · omega
    · have hlt := h.lt_length _ _ _ hj
      change k + 0 = j + 1 at hdepth
      omega

/-- A stack that closes its innermost scope follows one step more. -/
theorem Follows.pop (h : s.Follows steps) : s.pop.Follows (steps ++ [.pop]) where
  nextId := by simp [h.nextId]
  exists_openAt := by
    intro k scope hscope
    have hbelow : s.scopes[k + 1]? = some scope := by simpa [ScopeStack.pop] using hscope
    obtain ⟨before, after, hopen, hrecords⟩ := h.exists_openAt _ scope hbelow
    exact ⟨before, _, hopen.pop, hrecords.concat (.inl rfl)⟩
  lt_length := by
    intro before after k hopen
    have hlength : s.pop.scopes.length = s.scopes.length - 1 := List.length_tail
    rcases hopen.before_concat with ⟨hstep, -⟩ | ⟨rest, j, hj, hdepth⟩
    · cases hstep
    · have hlt := h.lt_length _ _ _ hj
      change k + 1 = j + 0 at hdepth
      omega

/-- A stack that declares a name follows one step more, also if the name is there already. -/
theorem Follows.declare (h : s.Follows steps) (name : String) (location : Location) :
    (s.declare name location).2.Follows (steps ++ [.declare name location]) where
  nextId := by simpa using h.nextId
  exists_openAt := by
    intro k scope hscope
    -- Only the innermost scope can change, and only by a name that it does not hold.
    cases k with
    | zero =>
        rcases s.declare_cases name location with ⟨hscopes, hs⟩ | ⟨inner, outer, hscopes, hinner⟩
        · simp [hs, hscopes] at hscope
        · obtain ⟨before, after, hopen, hrecords⟩ := h.exists_openAt 0 inner (by simp [hscopes])
          have hlevel : after.count .pop = after.count .push := by simpa using hopen.depth.symm
          refine ⟨before, _, hopen.declare name location, ?_⟩
          rcases hinner with ⟨previous, hheld, hs⟩ | ⟨-, hs⟩
          · obtain rfl : inner = scope := by simpa [hs, hscopes] using hscope
            exact hrecords.redeclare location hheld hlevel
          · rw [hs] at hscope
            obtain rfl := Option.some.inj hscope
            exact hrecords.declare location hlevel
    | succ k =>
        rw [← List.getElem?_tail, tail_scopes_declare, List.getElem?_tail] at hscope
        obtain ⟨before, after, hopen, hrecords⟩ := h.exists_openAt _ scope hscope
        have hdepth := hopen.depth
        exact ⟨before, _, hopen.declare name location, hrecords.concat (.inr (by omega))⟩
  lt_length := by
    intro before after k hopen
    rw [length_scopes_declare]
    rcases hopen.before_concat with ⟨hstep, -⟩ | ⟨rest, j, hj, hdepth⟩
    · cases hstep
    · obtain rfl : k = j := by simpa using hdepth
      exact h.lt_length _ _ _ hj

/-- **Following, one step**: the scopes follow the history with the step added to it. -/
theorem Follows.perform (h : s.Follows steps) (step : ScopeStep) :
    (s.perform step).Follows (steps ++ [step]) := by
  cases step with
  | push => exact h.push
  | pop => exact h.pop
  | declare name location => exact h.declare name location

/-- **Following, a run of steps**: the scopes follow the whole history. -/
theorem Follows.run (h : s.Follows steps) (more : List ScopeStep) :
    (s.run more).Follows (steps ++ more) := by
  induction more generalizing s steps with
  | nil => simpa using h
  | cons step more ih => simpa using ih (h.perform step)

end

/-! ## numbers -/

section

variable {s : ScopeStack} {steps : List ScopeStep}

/-- The scopes that are opened get ids in succession, from the next one of the stack on. -/
theorem opened_eq (s : ScopeStack) (steps : List ScopeStep) :
    s.opened steps = (List.range (steps.count .push)).map fun i => s.nextId + UInt32.ofNat i := by
  induction steps generalizing s with
  | nil => rfl
  | cons step steps ih =>
      cases step with
      | push =>
          have hpush : s.opened (.push :: steps) = s.nextId :: s.push.2.opened steps := rfl
          rw [hpush, ih, List.count_cons_self, List.range_succ_eq_map, List.map_cons, List.map_map]
          congr 1
          · simp
          · refine List.map_congr_left fun i _ => ?_
            simp [UInt32.ofNat_add, UInt32.add_assoc, UInt32.add_comm]
      | pop =>
          have hpop : s.opened (.pop :: steps) = s.pop.opened steps := rfl
          rw [hpop, ih, nextId_pop, List.count_cons_of_ne (by simp)]
      | declare name location =>
          have hdeclare : s.opened (.declare name location :: steps) =
              (s.declare name location).2.opened steps := rfl
          rw [hdeclare, ih, nextId_declare, List.count_cons_of_ne (by simp)]

/-- As long as ids do not wrap around, scopes opened later have larger ones. -/
theorem pairwise_opened (hsize : steps.count .push < UInt32.size) :
    (opened {} steps).Pairwise (· < ·) := by
  rw [opened_eq, List.pairwise_map]
  refine List.pairwise_lt_range.imp_of_mem fun {i j} hi hj hij => ?_
  have hi := List.mem_range.mp hi
  have hj := List.mem_range.mp hj
  rw [UInt32.zero_add, UInt32.zero_add, UInt32.lt_iff_toNat_lt,
    UInt32.toNat_ofNat_of_lt' (by omega), UInt32.toNat_ofNat_of_lt' (by omega)]
  exact hij

/-- The number of an open scope counts the scopes opened before it. -/
theorem toNat_id {scope : Scope} {before after : List ScopeStep}
    (hsize : steps.count .push < UInt32.size) (hopen : StillOpen steps before after)
    (hrecords : scope.Records before after) : scope.id.toNat = before.count .push := by
  have hle : before.count .push ≤ steps.count .push := by simp [hopen.split]
  rw [hrecords.id, UInt32.toNat_ofNat_of_lt' (by omega)]

/-- As long as ids do not wrap around, an inner scope has a larger one than an outer scope. -/
theorem Follows.pairwise_id (h : s.Follows steps) (hsize : steps.count .push < UInt32.size) :
    (s.scopes.map (·.id)).Pairwise (· > ·) := by
  rw [List.pairwise_map, List.pairwise_iff_getElem]
  intro j k hj hk hjk
  obtain ⟨before', after', hopen', hrecords'⟩ := h.exists_openAt j _ (List.getElem?_eq_getElem hj)
  obtain ⟨before, after, hopen, hrecords⟩ := h.exists_openAt k _ (List.getElem?_eq_getElem hk)
  obtain ⟨between, rfl, -⟩ :=
    hopen.exists_between hopen'.toStillOpen (hopen.length_lt_of_lt hopen' hjk)
  rw [gt_iff_lt, UInt32.lt_iff_toNat_lt, toNat_id hsize hopen.toStillOpen hrecords,
    toNat_id hsize hopen'.toStillOpen hrecords', List.count_append, List.count_cons_self]
  omega

/-- As long as ids do not wrap around, open scopes have smaller ones than the next to be opened. -/
theorem Follows.id_lt_nextId (h : s.Follows steps) (hsize : steps.count .push < UInt32.size) :
    ∀ scope ∈ s.scopes, scope.id < s.nextId := by
  intro scope hscope
  obtain ⟨k, hk⟩ := List.mem_iff_getElem?.mp hscope
  obtain ⟨before, after, hopen, hrecords⟩ := h.exists_openAt k scope hk
  have hcount : steps.count .push = before.count .push + (after.count .push + 1) := by
    rw [hopen.split, List.count_append, List.count_cons_self]
  rw [UInt32.lt_iff_toNat_lt, toNat_id hsize hopen.toStillOpen hrecords, h.nextId,
    UInt32.toNat_ofNat_of_lt' hsize]
  omega

end

/-! ## lookups -/

/-- A name is found in the innermost scope that declares it. -/
theorem lookup_eq_some_iff {s : ScopeStack} {name : String} {id : UInt32} {location : Location} :
    s.lookup name = some (id, location) ↔
      ∃ (k : Nat) (scope : Scope), s.scopes[k]? = some scope ∧ scope.id = id ∧
        scope.names.lookup name = some location ∧
        ∀ (j : Nat) (other : Scope), j < k → s.scopes[j]? = some other →
          other.names.lookup name = none := by
  rw [lookup, List.findSome?_eq_some_iff]
  constructor
  · rintro ⟨inner, scope, outer, hscopes, hheld, hinner⟩
    obtain ⟨found, hfound, hpair⟩ := Option.map_eq_some_iff.mp hheld
    cases hpair
    refine ⟨inner.length, scope, by simp [hscopes], rfl, hfound, fun j other hj hother => ?_⟩
    rw [hscopes, List.getElem?_append_left hj] at hother
    simpa using hinner other (List.mem_of_getElem? hother)
  · rintro ⟨k, scope, hscope, rfl, hheld, hinner⟩
    obtain ⟨hk, rfl⟩ := List.getElem?_eq_some_iff.mp hscope
    refine ⟨s.scopes.take k, s.scopes[k], s.scopes.drop (k + 1), by simp, by simp [hheld], ?_⟩
    intro other hother
    obtain ⟨j, hj, rfl⟩ := List.mem_take_iff_getElem.mp hother
    rw [hinner j _ (by omega) (List.getElem?_eq_getElem (by omega)), Option.map_none]

/-- **Lookups, by the history**: a name means its first declaration in the innermost scope that is
still open and in which it was declared. -/
theorem Follows.lookup_iff {s : ScopeStack} {steps : List ScopeStep} (h : s.Follows steps)
    (hsize : steps.count .push < UInt32.size) {name : String} {id : UInt32} {location : Location} :
    s.lookup name = some (id, location) ↔
      ∃ before after, StillOpen steps before after ∧ id.toNat = before.count .push ∧
        (declarations after).lookup name = some location ∧
        ∀ before' after', StillOpen steps before' after' → before.length < before'.length →
          (declarations after').lookup name = none := by
  rw [lookup_eq_some_iff]
  constructor
  · rintro ⟨k, scope, hscope, rfl, hheld, hinner⟩
    obtain ⟨before, after, hopen, hrecords⟩ := h.exists_openAt k scope hscope
    refine ⟨before, after, hopen.toStillOpen, toNat_id hsize hopen.toStillOpen hrecords,
      (hrecords.names name).symm.trans hheld, fun before' after' hstill hlt => ?_⟩
    obtain ⟨j, other, hother, hopen', hrecords'⟩ := h.exists_scope hstill
    rw [← hrecords'.names]
    exact hinner j other (hopen.lt_of_length_lt hopen' hlt) hother
  · rintro ⟨before, after, hstill, hid, hdeclared, hinner⟩
    obtain ⟨k, scope, hscope, hopen, hrecords⟩ := h.exists_scope hstill
    refine ⟨k, scope, hscope, ?_, (hrecords.names name).trans hdeclared, ?_⟩
    · rw [← UInt32.toNat_inj, toNat_id hsize hstill hrecords, hid]
    · intro j other hjk hother
      obtain ⟨before', after', hopen', hrecords'⟩ := h.exists_openAt j other hother
      rw [hrecords'.names]
      exact hinner before' after' hopen'.toStillOpen (hopen.length_lt_of_lt hopen' hjk)

/-! ## blocks -/

section

variable {s : ScopeStack} {front outer : List Scope}

/-- **What lies below, one step**: with a scope in `front` to act on, a step does not reach the
scopes below. -/
theorem exists_perform_append (hscopes : s.scopes = front ++ outer) (hopen : 0 < front.length)
    (step : ScopeStep) :
    ∃ front', (s.perform step).scopes = front' ++ outer ∧
      front'.length + [step].count .pop = front.length + [step].count .push := by
  obtain ⟨inner, rest, rfl⟩ := List.exists_cons_of_length_pos hopen
  cases step with
  | push => exact ⟨{ id := s.nextId } :: inner :: rest, by simp [perform, push, hscopes], by simp⟩
  | pop => exact ⟨rest, by simp [perform, pop, hscopes], by simp⟩
  | declare name location =>
      have hlength := s.length_scopes_declare name location
      have htail := s.tail_scopes_declare name location
      rw [hscopes] at hlength htail
      obtain ⟨inner', below, hdeclare⟩ :=
        List.exists_cons_of_length_pos (l := (s.declare name location).2.scopes) (by simp [hlength])
      obtain rfl : below = rest ++ outer := by simpa [hdeclare] using htail
      exact ⟨inner' :: rest, hdeclare, by simp⟩

/-- **What lies below, a run of steps**: as long as a scope in `front` or a newer one is open, steps
do not reach the scopes below. -/
theorem exists_run_append {steps : List ScopeStep} (hscopes : s.scopes = front ++ outer)
    (hsteps : ∀ start, start <+: steps → start.count .pop < start.count .push + front.length) :
    ∃ front', (s.run steps).scopes = front' ++ outer ∧
      front'.length + steps.count .pop = front.length + steps.count .push := by
  induction steps generalizing s front with
  | nil => exact ⟨front, hscopes, rfl⟩
  | cons step steps ih =>
      have hcount (a : ScopeStep) (start : List ScopeStep) :
          (step :: start).count a = [step].count a + start.count a := by
        rw [← List.singleton_append, List.count_append]
      have hopen : 0 < front.length := by simpa using hsteps [] List.nil_prefix
      obtain ⟨front', hperform, hlength⟩ := exists_perform_append hscopes hopen step
      -- What the step opens or closes is made up for by the length of the new front.
      have hrest (start : List ScopeStep) (hstart : start <+: steps) :
          start.count .pop < start.count .push + front'.length := by
        have hlt := hsteps (step :: start) (List.cons_prefix_cons.mpr ⟨rfl, hstart⟩)
        rw [hcount .pop, hcount .push] at hlt
        omega
      obtain ⟨front'', hrun, hlength'⟩ := ih hperform hrest
      refine ⟨front'', hrun, ?_⟩
      rw [hcount .pop, hcount .push]
      omega

end

/-- A balanced run leaves the open scopes as they were. -/
theorem scopes_run_of_balanced {block : List ScopeStep} (h : Balanced block) (s : ScopeStack) :
    (s.run block).scopes = s.scopes := by
  obtain ⟨inner, rfl, hinside, hlevel⟩ := h
  have hpush : s.push.2.scopes = [{ id := s.nextId }] ++ s.scopes := rfl
  obtain ⟨front, hinner, hlength⟩ :=
    exists_run_append hpush fun start hstart => Nat.lt_succ_of_le (hinside start hstart)
  obtain ⟨scope, rfl⟩ : ∃ scope, front = [scope] := by
    rw [List.length_singleton] at hlength
    exact List.length_eq_one_iff.mp (by omega)
  have hrun : s.run (.push :: inner ++ [.pop]) = (s.push.2.run inner).pop := by
    rw [List.cons_append, run_cons, run_append]
    rfl
  rw [hrun, pop, hinner]
  rfl

/-! ## scoping -/

/-- **Scoping, over any run of steps** that starts without scopes and opens fewer of them than there
are words. Let `s` be the scopes in the end.

* The numbers given to scopes increase, so that none is given twice. The numbers of the open scopes
  increase towards the innermost one and lie below the next number.
* A declaration fails exactly if the innermost scope holds the name already. The error is the
  location there, which is what the name means, and the scopes stay as they are. Any other
  declaration makes the name mean the new location in the innermost scope, and no other name means
  anything else than before.
* A name means its first declaration in the innermost scope that is still open and in which it was
  declared.
* Running a block changes the meaning of no name. -/
theorem scoping_exact (steps : List ScopeStep) (hsize : steps.count .push < UInt32.size) :
    let s := run {} steps
    ((opened {} steps).Pairwise (· < ·) ∧ (s.scopes.map (·.id)).Pairwise (· > ·) ∧
      ∀ scope ∈ s.scopes, scope.id < s.nextId) ∧
    (∀ inner outer, s.scopes = inner :: outer → ∀ name location,
      (∀ previous, (s.declare name location).1 = .error previous ↔
        inner.names.lookup name = some previous) ∧
      (∀ previous, inner.names.lookup name = some previous →
        (s.declare name location).2 = s ∧ s.lookup name = some (inner.id, previous)) ∧
      (inner.names.lookup name = none → ∃ t, s.declare name location = (.ok inner.id, t) ∧
        t.lookup name = some (inner.id, location) ∧
        ∀ other, other ≠ name → t.lookup other = s.lookup other)) ∧
    (∀ name id location, s.lookup name = some (id, location) ↔
      ∃ before after, StillOpen steps before after ∧ id.toNat = before.count .push ∧
        (declarations after).lookup name = some location ∧
        ∀ before' after', StillOpen steps before' after' → before.length < before'.length →
          (declarations after').lookup name = none) ∧
    ∀ block, Balanced block → ∀ name, (s.run block).lookup name = s.lookup name := by
  intro s
  have hfollows : s.Follows steps := follows_nil.run steps
  refine ⟨⟨pairwise_opened hsize, hfollows.pairwise_id hsize, hfollows.id_lt_nextId hsize⟩, ?_,
    fun name id location => hfollows.lookup_iff hsize, fun block hblock name => ?_⟩
  · intro inner outer hscopes name location
    rcases s.declare_cases name location with ⟨hnone, -⟩ | ⟨inner', outer', hscopes', hinner⟩
    · cases hscopes.symm.trans hnone
    · obtain ⟨rfl, rfl⟩ := List.cons.inj (hscopes.symm.trans hscopes')
      rcases hinner with ⟨earlier, hheld, hs⟩ | ⟨hnew, hs⟩
      · refine ⟨by simp [hs, hheld], fun previous hprevious => ⟨by rw [hs], ?_⟩, by simp [hheld]⟩
        simp [lookup, hscopes, hprevious]
      · exact ⟨by simp [hs, hnew], by simp [hnew], fun _ =>
          ⟨_, hs, lookup_of_declare hs, fun other hother => lookup_of_declare_of_ne hs hother⟩⟩
  · rw [lookup, lookup, scopes_run_of_balanced hblock]

/-- Three scopes are opened and the second one is closed again. The name `x` is declared in the
first and twice in the third, and `y` in the second. -/
def shadowing : List ScopeStep :=
  [.push, .declare "x" ⟨1, 1, 0, 1⟩, .push, .declare "y" ⟨1, 3, 2, 1⟩, .pop, .push,
    .declare "x" ⟨1, 6, 5, 1⟩, .declare "x" ⟨1, 10, 9, 1⟩]

/-- There `x` means its first declaration in the third scope, which is still open, and it is not
declared in it again. Another block, with an `x` of its own, changes nothing about that. -/
theorem scoping_shadowing :
    shadowing.count .push < UInt32.size ∧
      (opened {} shadowing = [0, 1, 2] ∧ [(0 : UInt32), 1, 2].Pairwise (· < ·)) ∧
      (∃ before after, StillOpen shadowing before after ∧ before.count .push = 2 ∧
        (declarations after).lookup "x" = some ⟨1, 6, 5, 1⟩) ∧
      (declare (run {} shadowing) "x" ⟨2, 1, 12, 1⟩).2 = run {} shadowing ∧
      ((run {} shadowing).run [.push, .declare "x" ⟨2, 1, 12, 1⟩, .pop]).lookup "x" =
        some (2, ⟨1, 6, 5, 1⟩) := by
  have hsize : shadowing.count .push < UInt32.size := by decide
  have hopened : opened {} shadowing = [0, 1, 2] := by decide
  have hx : (run {} shadowing).lookup "x" = some (2, ⟨1, 6, 5, 1⟩) := by decide
  have hinside : Inside ([] ++ [.declare "x" ⟨2, 1, 12, 1⟩]) :=
    inside_concat_iff.mpr ⟨inside_nil, by simp⟩
  have hbalanced : Balanced [.push, .declare "x" ⟨2, 1, 12, 1⟩, .pop] := ⟨_, rfl, hinside, rfl⟩
  obtain ⟨⟨hnumbers, -⟩, hdeclare, hlookup, hblock⟩ := scoping_exact shadowing hsize
  obtain ⟨before, after, hstill, hbefore, hdeclared, -⟩ := (hlookup "x" _ _).mp hx
  exact ⟨hsize, ⟨hopened, hopened ▸ hnumbers⟩, ⟨before, after, hstill, hbefore.symm, hdeclared⟩,
    ((hdeclare _ _ rfl "x" _).2.1 ⟨1, 6, 5, 1⟩ (by decide)).1, (hblock _ hbalanced "x").trans hx⟩

end ScopeStack

end NameResolution
