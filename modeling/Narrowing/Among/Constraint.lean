import Narrowing.Variable.Basic

/-!
The Among constraint: a counter equals the number of variables of a scope that take a value out of a
list of tracked values. Variables may occur several times in the scope, and the counter may be one
of them.
-/

namespace Narrowing

/-- `counter` is the number of variables in `scope` with a value in `tracked`. -/
structure Among where
  scope : List Variable
  counter : Variable
  tracked : List Int
  deriving DecidableEq, Repr

namespace Among

/-- Whether the constraint holds when every domain has the value that `σ` says. -/
def Satisfied (c : Among) (σ : DomainId → Int) : Prop :=
  c.counter.eval σ = (c.scope.countP fun x => x.eval σ ∈ c.tracked)

instance (c : Among) (σ : DomainId → Int) : Decidable (c.Satisfied σ) :=
  inferInstanceAs (Decidable (_ = _))

/-- How the values of a variable stand to the tracked ones. -/
inductive Standing where
  /-- All of them are tracked. -/
  | sure
  /-- Some of them are tracked, but not all. -/
  | possible
  /-- None of them is tracked. -/
  | impossible
  deriving DecidableEq, Repr

/-- How many of the listed values a variable may take. -/
def countTracked (x : Variable) (s : Domains) : List Int → Checked Nat
  | [] => .ok 0
  | v :: rest => do
    let here ← x.contains s v
    let others ← countTracked x s rest
    return (if here then others + 1 else others)

/-- How a variable stands to the tracked values. -/
def standing (c : Among) (s : Domains) (x : Variable) : Checked Standing := do
  let count ← countTracked x s c.tracked
  if count = (← x.size s) then return .sure
  else if 0 < count then return .possible
  else return .impossible

/-- The constraint in print. -/
def render (c : Among) : String :=
  let scope := ",".intercalate (c.scope.map Variable.render)
  let tracked := ",".intercalate (c.tracked.map toString)
  "AMONG([" ++ scope ++ "],\x7b" ++ tracked ++ "\x7d," ++ c.counter.render ++ ")"

end Among

end Narrowing
