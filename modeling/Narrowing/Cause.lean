import Narrowing.Table

/-!
Who changed a domain, and why propagation came to an end. A change is either a decision of the
caller or made by a propagator. A contradiction is reported with its cause; it is a result of
propagation, not a fault.
-/

namespace Narrowing

/-- Names a propagator. -/
structure PropagatorId where
  index : Nat
  deriving DecidableEq, Repr

instance : Key PropagatorId := ⟨PropagatorId.index, PropagatorId.mk, fun _ => rfl, fun _ => rfl⟩

/-- Tells the variables of one propagator apart. -/
abbrev LocalId := Nat

/-- A propagator in print. -/
def PropagatorId.render (p : PropagatorId) : String := s!"PropagatorId({p.index})"

/-- Who asked for a change. -/
inductive Cause where
  | decision
  | propagator (id : PropagatorId)
  deriving DecidableEq, Repr

/-- A cause in print. -/
def Cause.render : Cause → String
  | .decision => "decision"
  | .propagator id => id.render

/-- Why propagation stopped short of a fixed point. -/
inductive Contradiction where
  /-- A change would have left a domain without values. -/
  | emptyDomain (cause : Cause)
  /-- A propagator found that nothing in the domains satisfies its constraint. -/
  | conflict (cause : Cause) (text : String)
  deriving DecidableEq, Repr

namespace Contradiction

/-- Who ran into the contradiction. -/
def cause : Contradiction → Cause
  | .emptyDomain c => c
  | .conflict c _ => c

/-- A contradiction in print. -/
def render : Contradiction → String
  | .emptyDomain c => s!"a domain became empty due to {c.render}"
  | .conflict c text => s!"{c.render} detected a conflict: {text}"

end Contradiction

end Narrowing
