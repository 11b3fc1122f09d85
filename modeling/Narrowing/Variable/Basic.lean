import Narrowing.Variable.Absolute

/-!
Variables: domains, and absolute views of other variables. The view of `x` stands for `|x|` and
stores nothing; all that is known about it is worked out from what is known about `x`.
-/

namespace Narrowing

/-- A domain, or the absolute value of another variable. -/
inductive Variable where
  | domain (id : DomainId)
  | abs (inner : Variable)
  deriving DecidableEq, Repr

namespace Variable

/-- The domain at the bottom of a variable. -/
def base : Variable → DomainId
  | .domain id => id
  | .abs x => x.base

/-- A variable in print. -/
def render : Variable → String
  | .domain id => id.render
  | .abs x => "|" ++ x.render ++ "|"

/-- The variable that a view looks at. -/
def viewed? : Variable → Option Variable
  | .domain _ => none
  | .abs x => some x

/-- The value of a variable when every domain has the value that `σ` says. -/
def eval (σ : DomainId → Int) : Variable → Int
  | .domain id => σ id
  | .abs x => (x.eval σ).natAbs

/-- What has to be watched to learn of `events` of a variable: its domain and the events there. Any
event of the domain can be any event of a view. -/
def watched : Variable → EventSet → Option (DomainId × EventSet)
  | .domain id, events => some (id, events)
  | .abs x, events => if events.isEmpty then none else x.watched .all

/-- The events of a variable that events of its domain amount to. -/
def perceived : Variable → EventSet → EventSet
  | .domain _, events => events
  | .abs x, events => if (x.perceived events).isEmpty then ∅ else .all

/-- Answer a question about a variable. -/
def answer (s : Domains) : Variable → Oracle
  | .domain id => s.answer id
  | .abs x => Absolute.answer (x.answer s)

/-- A question in the middle of a restriction. -/
def ask {α : Type} (x : Variable) (q : Query α) : Restricting α := fun s =>
  Absolute.checked (x.answer s α q) s

/-- Restrict a variable, and tell whether its domain changed. -/
def restrict (cause : Cause) : Variable → Restriction → Restricting Bool
  | .domain id, r => Domains.restrict id r cause
  | .abs x, r => Absolute.restrict (fun _ q => (Variable.abs x).ask q) (x.restrict cause) r

/-- The smallest value. -/
def lower (x : Variable) (s : Domains) : Checked Int := x.answer s _ .lower

/-- The greatest value. -/
def upper (x : Variable) (s : Domains) : Checked Int := x.answer s _ .upper

/-- The number of values. -/
def size (x : Variable) (s : Domains) : Checked Nat := x.answer s _ .size

/-- Whether a value is among those of a variable. -/
def contains (x : Variable) (s : Domains) (v : Int) : Checked Bool := x.answer s _ (.contains v)

/-- Whether one value is left. -/
def isFixed (x : Variable) (s : Domains) : Checked Bool := do
  return (← x.lower s) = (← x.upper s)

/-- The value of a variable with one value left. -/
def fixedValue? (x : Variable) (s : Domains) : Checked (Option Int) := do
  if ← x.isFixed s then return some (← x.lower s) else return none

/-- The value of a variable of which the caller knows that one value is left. -/
def fixedValue (x : Variable) (s : Domains) : Checked Int := do
  demand (← x.isFixed s) (x.render ++ " is not fixed, so it has no value")
  x.lower s

/-- All values upwards. -/
def values (x : Variable) (s : Domains) : Checked (List Int) :=
  x.answer s _ (.ascending Value.count)

/-- A view in print, with its bounds. -/
def describe (x : Variable) (s : Domains) : Checked String := do
  let lo ← x.lower s
  let hi ← x.upper s
  return s!"{x.render} = [{lo},{hi}]"

theorem base_of_watched {x : Variable} {events : EventSet} {id : DomainId} {mask : EventSet}
    (h : x.watched events = some (id, mask)) : id = x.base := by
  induction x generalizing events with
  | domain _ => simp [watched] at h; exact h.1.symm
  | abs x ih =>
    simp only [watched] at h
    split at h
    · simp at h
    · exact ih h

end Variable

end Narrowing
