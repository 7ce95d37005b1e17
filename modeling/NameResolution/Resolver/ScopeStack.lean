import NameResolution.Syntax.Binding

/-!
# Scopes of blocks

While a unit is walked, each open block has a scope with the names declared in it so far. Scopes
are numbered in the order in which they open, and a number is never used again. A name is looked up
from the innermost scope outwards.
-/

namespace NameResolution

/-- The scope of an open block. -/
structure Scope where
  id : UInt32
  /-- The names declared in the block so far, with their locations. -/
  names : List (String × Location) := []
deriving DecidableEq, Inhabited

/-- The scopes of the open blocks. -/
structure ScopeStack where
  /-- The open scopes, innermost first. -/
  scopes : List Scope := []
  /-- The number of the next scope. -/
  nextId : UInt32 := 0
deriving DecidableEq, Inhabited

namespace ScopeStack

/-- No block is open. -/
def isTopLevel (s : ScopeStack) : Bool := s.scopes.isEmpty

/-- Opens a scope and gives its number. -/
def push (s : ScopeStack) : UInt32 × ScopeStack :=
  (s.nextId, { scopes := { id := s.nextId } :: s.scopes, nextId := s.nextId + 1 })

/-- Closes the innermost scope. -/
def pop (s : ScopeStack) : ScopeStack := { s with scopes := s.scopes.tail }

/-- Declares a name in the innermost scope and gives the number of that scope. If the scope holds
the name already, or no scope is open, the location of the other declaration is the error. Either
way there are scopes afterwards. -/
def declare (s : ScopeStack) (name : String) (location : Location) :
    Except Location UInt32 × ScopeStack :=
  match s.scopes with
  | [] => (.error location, s)
  | scope :: outer =>
    match scope.names.lookup name with
    | some previous => (.error previous, s)
    | none =>
      (.ok scope.id,
        { s with scopes := { scope with names := scope.names ++ [(name, location)] } :: outer })

/-- The innermost scope with a name: its number and where the name is declared in it. -/
def lookup (s : ScopeStack) (name : String) : Option (UInt32 × Location) :=
  s.scopes.findSome? fun scope => (scope.names.lookup name).map fun location => (scope.id, location)

/-! ## What the operations do to numbers and lookups -/

/-- Closing a scope that was just opened gives the scopes before. -/
@[simp] theorem scopes_pop_push (s : ScopeStack) : s.push.2.pop.scopes = s.scopes := rfl

@[simp] theorem nextId_push (s : ScopeStack) : s.push.2.nextId = s.nextId + 1 := rfl

@[simp] theorem nextId_pop (s : ScopeStack) : s.pop.nextId = s.nextId := rfl

/-- A scope that has just been opened holds no name. -/
theorem lookup_push (s : ScopeStack) (name : String) : s.push.2.lookup name = s.lookup name := rfl

/-- What a declaration can do: it fails and changes nothing, as no scope is open or the innermost
one holds the name, or it puts the name into the innermost scope. -/
theorem declare_cases (s : ScopeStack) (name : String) (location : Location) :
    (s.scopes = [] ∧ s.declare name location = (.error location, s)) ∨
      ∃ inner outer, s.scopes = inner :: outer ∧
        ((∃ previous, inner.names.lookup name = some previous ∧
            s.declare name location = (.error previous, s)) ∨
          inner.names.lookup name = none ∧ s.declare name location = (.ok inner.id,
            { s with
              scopes := { inner with names := inner.names ++ [(name, location)] } :: outer })) := by
  cases hscopes : s.scopes with
  | nil => exact .inl ⟨rfl, by simp [declare, hscopes]⟩
  | cons inner outer =>
      refine .inr ⟨inner, outer, rfl, ?_⟩
      cases hheld : inner.names.lookup name with
      | some previous => exact .inl ⟨previous, rfl, by simp [declare, hscopes, hheld]⟩
      | none => exact .inr ⟨rfl, by simp [declare, hscopes, hheld]⟩

/-- A declaration puts one name into the innermost scope, which did not hold it. -/
theorem declare_eq_ok {s t : ScopeStack} {name : String} {location : Location} {id : UInt32}
    (h : s.declare name location = (.ok id, t)) :
    ∃ scope outer, s.scopes = scope :: outer ∧ scope.id = id ∧ scope.names.lookup name = none ∧
      t = { s with
        scopes := { scope with names := scope.names ++ [(name, location)] } :: outer } := by
  rcases s.declare_cases name location with
    ⟨-, hs⟩ | ⟨inner, outer, hscopes, ⟨previous, -, hs⟩ | ⟨hnew, hs⟩⟩
  · cases h.symm.trans hs
  · cases h.symm.trans hs
  · cases h.symm.trans hs
    exact ⟨inner, outer, hscopes, rfl, hnew, rfl⟩

/-- A declaration that fails changes nothing. -/
theorem declare_eq_error {s t : ScopeStack} {name : String} {location previous : Location}
    (h : s.declare name location = (.error previous, t)) : t = s := by
  rcases s.declare_cases name location with
    ⟨-, hs⟩ | ⟨inner, outer, -, ⟨earlier, -, hs⟩ | ⟨-, hs⟩⟩
  · cases h.symm.trans hs
    rfl
  · cases h.symm.trans hs
    rfl
  · cases h.symm.trans hs

@[simp] theorem nextId_declare (s : ScopeStack) (name : String) (location : Location) :
    (s.declare name location).2.nextId = s.nextId := by
  rcases s.declare_cases name location with
    ⟨-, hs⟩ | ⟨inner, outer, -, ⟨previous, -, hs⟩ | ⟨-, hs⟩⟩ <;> rw [hs]

/-- A declaration changes no scope but the innermost. -/
@[simp] theorem tail_scopes_declare (s : ScopeStack) (name : String) (location : Location) :
    (s.declare name location).2.scopes.tail = s.scopes.tail := by
  rcases s.declare_cases name location with
    ⟨-, hs⟩ | ⟨inner, outer, hscopes, ⟨previous, -, hs⟩ | ⟨-, hs⟩⟩
  · rw [hs]
  · rw [hs]
  · rw [hs, hscopes]
    rfl

/-- A declaration neither opens nor closes a scope. -/
@[simp] theorem length_scopes_declare (s : ScopeStack) (name : String) (location : Location) :
    (s.declare name location).2.scopes.length = s.scopes.length := by
  rcases s.declare_cases name location with
    ⟨-, hs⟩ | ⟨inner, outer, hscopes, ⟨previous, -, hs⟩ | ⟨-, hs⟩⟩
  · rw [hs]
  · rw [hs]
  · rw [hs, hscopes]
    rfl

/-- A declared name is found in the scope that it was declared in. -/
theorem lookup_of_declare {s t : ScopeStack} {name : String} {location : Location} {id : UInt32}
    (h : s.declare name location = (.ok id, t)) : t.lookup name = some (id, location) := by
  obtain ⟨scope, outer, -, rfl, hn, rfl⟩ := declare_eq_ok h
  simp [lookup, List.lookup_append, hn]

/-- A declaration does not change what another name means. -/
theorem lookup_of_declare_of_ne {s t : ScopeStack} {name other : String} {location : Location}
    {id : UInt32} (h : s.declare name location = (.ok id, t)) (hne : other ≠ name) :
    t.lookup other = s.lookup other := by
  obtain ⟨scope, outer, hs, rfl, -, rfl⟩ := declare_eq_ok h
  have hb : (other == name) = false := by simpa using hne
  rw [lookup, lookup, hs, List.findSome?_cons, List.findSome?_cons]
  simp [List.lookup_append, List.lookup_cons, List.lookup_nil, hb]

end ScopeStack

end NameResolution
