import NameResolution.Syntax.Binding
import NameResolution.Order.StableSort

/-!
# Diagnostics

A diagnostic is a message of some severity, at a location or about the whole program. Diagnostics
are recorded once: `Diagnostic.pushAllNew` leaves out those that are there already.
-/

namespace NameResolution

/-- How bad a diagnostic is. -/
inductive Severity where
  | note
  | warning
  | error
deriving DecidableEq, Inhabited

namespace Severity

/-- The name of a severity. -/
def name : Severity → String
  | note => "note"
  | warning => "warning"
  | error => "error"

instance : ToString Severity := ⟨name⟩

/-- The severity of a given name. -/
def ofName? (s : String) : Option Severity := [note, warning, error].find? (·.name == s)

/-- Every severity is found by its name. -/
theorem ofName?_name (s : Severity) : ofName? s.name = some s := by
  cases s <;> decide

/-- Severities are ordered: a note is less than a warning, and a warning less than an error. -/
def rank : Severity → Nat
  | note => 0
  | warning => 1
  | error => 2

end Severity

/-- A message for the user. -/
structure Diagnostic where
  severity : Severity
  message : String
  location : Option Location
deriving DecidableEq, Inhabited

namespace Diagnostic

/-- An error with a message. -/
def error (message : String) (location : Option Location) : Diagnostic :=
  ⟨.error, message, location⟩

/-- Whether a diagnostic is an error. -/
def isError (d : Diagnostic) : Bool := d.severity == .error

/-- A diagnostic is shown as location, severity and message. -/
def render (d : Diagnostic) : String :=
  match d.location with
  | some l => s!"{l}: {d.severity}: {d.message}"
  | none => s!"{d.severity}: {d.message}"

instance : ToString Diagnostic := ⟨render⟩

/-- The severities of a list of diagnostics, from notes to errors. -/
def severities (ds : List Diagnostic) : List Severity := sortBy Severity.rank (ds.map (·.severity))

/-- Adds a diagnostic behind the others, unless it is among them. -/
def pushNew (ds : List Diagnostic) (d : Diagnostic) : List Diagnostic :=
  if d ∈ ds then ds else ds ++ [d]

/-- Adds diagnostics one after another, each at most once. -/
def pushAllNew (ds new : List Diagnostic) : List Diagnostic := new.foldl pushNew ds

theorem mem_pushNew {ds : List Diagnostic} {d e : Diagnostic} :
    e ∈ pushNew ds d ↔ e ∈ ds ∨ e = d := by
  unfold pushNew
  split <;> simp_all

/-- After recording some diagnostics, all of them are among those recorded. -/
theorem mem_pushAllNew {ds new : List Diagnostic} {e : Diagnostic} :
    e ∈ pushAllNew ds new ↔ e ∈ ds ∨ e ∈ new := by
  induction new generalizing ds with
  | nil => simp [pushAllNew]
  | cons d new ih =>
      have h : pushAllNew ds (d :: new) = pushAllNew (pushNew ds d) new := rfl
      rw [h, ih, mem_pushNew, List.mem_cons, or_assoc]

/-- A diagnostic that is recorded goes to the end. -/
theorem pushNew_eq_append (ds : List Diagnostic) (d : Diagnostic) :
    ∃ added, pushNew ds d = ds ++ added := by
  unfold pushNew
  split
  · exact ⟨[], (List.append_nil ds).symm⟩
  · exact ⟨[d], rfl⟩

/-- Diagnostics that are there stay where they are. -/
theorem pushAllNew_eq_append (ds new : List Diagnostic) :
    ∃ added, pushAllNew ds new = ds ++ added := by
  induction new generalizing ds with
  | nil => exact ⟨[], (List.append_nil ds).symm⟩
  | cons d new ih =>
      obtain ⟨first, hfirst⟩ := pushNew_eq_append ds d
      obtain ⟨rest, hrest⟩ := ih (pushNew ds d)
      refine ⟨first ++ rest, ?_⟩
      have h : pushAllNew ds (d :: new) = pushAllNew (pushNew ds d) new := rfl
      rw [h, hrest, hfirst, List.append_assoc]

end Diagnostic

end NameResolution
