import Narrowing.Cause

/-!
The agenda: the propagators of which a pass is requested. The propagator with the highest priority
comes first, and among equals the one whose pass was requested first. A propagator stands on the
agenda once; a further request adds to what its pass is for and leaves its place, even if it comes
with another priority.
-/

namespace Narrowing

/-- How early a propagator gets its turn. -/
inductive Priority where
  | high
  | medium
  | low
  | veryLow
  deriving DecidableEq, Repr

namespace Priority

/-- The place of a priority; the smaller comes first. -/
def rank : Priority → Nat
  | .high => 0
  | .medium => 1
  | .low => 2
  | .veryLow => 3

/-- The name of a priority. -/
def name : Priority → String
  | .high => "High"
  | .medium => "Medium"
  | .low => "Low"
  | .veryLow => "VeryLow"

/-- Priorities are compared by their place, so the highest priority is the least. -/
instance : Ord Priority := ⟨fun a b => compare a.rank b.rank⟩

end Priority

/-- What a pass is for: everything from scratch, what changed, or both. -/
structure Passes where
  full : Bool := false
  custom : Bool := false
  deriving DecidableEq, Repr

namespace Passes

instance : Union Passes := ⟨fun a b => ⟨a.full || b.full, a.custom || b.custom⟩⟩

/-- A pass from scratch. -/
def fromScratch : Passes := { full := true }

/-- A pass that takes up changes. -/
def takingUp : Passes := { custom := true }

end Passes

/-- A propagator on the agenda. -/
structure Request where
  propagator : PropagatorId
  priority : Priority
  passes : Passes
  deriving DecidableEq, Repr

/-- The requests in the order in which they are met, and how many they are. -/
structure Agenda where
  requests : List Request := []
  waiting : Nat := 0
  deriving DecidableEq

namespace Agenda

/-- Whether no pass is requested. -/
def isEmpty (a : Agenda) : Bool := a.waiting == 0

/-- Whether a pass of a propagator is requested. -/
def has (a : Agenda) (p : PropagatorId) : Bool := a.requests.any (·.propagator = p)

/-- Add to what the pass of a propagator is for. -/
def extend (p : PropagatorId) (passes : Passes) : List Request → List Request
  | [] => []
  | r :: rest =>
    if r.propagator = p then { r with passes := r.passes ∪ passes } :: rest
    else r :: extend p passes rest

/-- Put a request behind those that come no later. -/
def enter (new : Request) : List Request → List Request
  | [] => [new]
  | r :: rest =>
    if new.priority.rank < r.priority.rank then new :: r :: rest else r :: enter new rest

/-- Request a pass of a propagator. -/
def request (a : Agenda) (p : PropagatorId) (priority : Priority) (passes : Passes) : Agenda :=
  if a.has p then { a with requests := extend p passes a.requests }
  else ⟨enter ⟨p, priority, passes⟩ a.requests, a.waiting + 1⟩

/-- The request that is met first, and the agenda without it. -/
def pop? (a : Agenda) : Option (Request × Agenda) :=
  match a.requests with
  | [] => none
  | first :: rest => some (first, ⟨rest, a.waiting - 1⟩)

theorem length_extend (p : PropagatorId) (passes : Passes) (rs : List Request) :
    (extend p passes rs).length = rs.length := by
  induction rs with
  | nil => rfl
  | cons r rest ih => simp only [extend]; split <;> simp [ih]

theorem length_enter (new : Request) (rs : List Request) :
    (enter new rs).length = rs.length + 1 := by
  induction rs with
  | nil => rfl
  | cons r rest ih => simp only [enter]; split <;> simp [ih]

/-- The count follows the requests when one is added. -/
theorem waiting_request {a : Agenda} (h : a.waiting = a.requests.length) (p : PropagatorId)
    (priority : Priority) (passes : Passes) :
    (a.request p priority passes).waiting = (a.request p priority passes).requests.length := by
  unfold request
  split
  · simp [length_extend, h]
  · simp [length_enter, h]

/-- The count follows the requests when one is met. -/
theorem waiting_pop? {a a' : Agenda} {r : Request} (h : a.waiting = a.requests.length)
    (hp : a.pop? = some (r, a')) : a'.waiting = a'.requests.length := by
  unfold pop? at hp
  split at hp
  · cases hp
  · next hr => cases hp; simp [h, hr]

end Agenda

end Narrowing
