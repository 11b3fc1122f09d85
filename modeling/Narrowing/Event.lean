/-!
What can happen to a domain, as far as anyone is told about it, and sets of such events.
-/

namespace Narrowing

/-- A way in which a domain changed. -/
inductive Event where
  /-- One value is left. -/
  | assign
  /-- The smallest value went up. -/
  | lowerBound
  /-- The greatest value went down. -/
  | upperBound
  /-- A value between the bounds is gone. -/
  | removal
  deriving DecidableEq, Repr

namespace Event

/-- All events in the order in which sets list them. -/
def all : List Event := [.assign, .lowerBound, .upperBound, .removal]

/-- The name of an event within a set. -/
def name : Event → String
  | .assign => "Assign"
  | .lowerBound => "LowerBound"
  | .upperBound => "UpperBound"
  | .removal => "Removal"

/-- The label of an event on its own. -/
def label : Event → String
  | .assign => "[Event:Assign]"
  | .lowerBound => "[Event:LB]"
  | .upperBound => "[Event:UB]"
  | .removal => "[Event:Remove]"

end Event

/-- A set of events. -/
structure EventSet where
  assign : Bool := false
  lowerBound : Bool := false
  upperBound : Bool := false
  removal : Bool := false
  deriving DecidableEq, Repr

namespace EventSet

/-- Whether an event is in a set. -/
def has (s : EventSet) : Event → Bool
  | .assign => s.assign
  | .lowerBound => s.lowerBound
  | .upperBound => s.upperBound
  | .removal => s.removal

instance : Membership Event EventSet := ⟨fun s e => s.has e = true⟩

instance (e : Event) (s : EventSet) : Decidable (e ∈ s) :=
  inferInstanceAs (Decidable (s.has e = true))

instance : EmptyCollection EventSet := ⟨{}⟩

instance : Union EventSet :=
  ⟨fun a b => ⟨a.assign || b.assign, a.lowerBound || b.lowerBound, a.upperBound || b.upperBound,
    a.removal || b.removal⟩⟩

instance : Inter EventSet :=
  ⟨fun a b => ⟨a.assign && b.assign, a.lowerBound && b.lowerBound, a.upperBound && b.upperBound,
    a.removal && b.removal⟩⟩

/-- The set of one event. -/
def single : Event → EventSet
  | .assign => { assign := true }
  | .lowerBound => { lowerBound := true }
  | .upperBound => { upperBound := true }
  | .removal => { removal := true }

/-- Every event. -/
def all : EventSet := ⟨true, true, true, true⟩

/-- The events of a bound. -/
def bounds : EventSet := { lowerBound := true, upperBound := true }

/-- The events of a bound, and the one of the last value left. -/
def assignAndBounds : EventSet := { assign := true, lowerBound := true, upperBound := true }

/-- Whether there is no event in a set. -/
def isEmpty (s : EventSet) : Bool := !(s.assign || s.lowerBound || s.upperBound || s.removal)

/-- The set of the listed events. -/
def ofList (events : List Event) : EventSet := events.foldl (fun s e => s ∪ single e) ∅

/-- The events of a set, in the order of `Event.all`. -/
def toList (s : EventSet) : List Event := Event.all.filter s.has

/-- A set in print. -/
def render (s : EventSet) : String :=
  "EnumSet(" ++ " | ".intercalate (s.toList.map Event.name) ++ ")"

@[simp] theorem mem_union {e : Event} {a b : EventSet} : e ∈ a ∪ b ↔ e ∈ a ∨ e ∈ b := by
  cases e <;> simp [Membership.mem, has, Union.union]

@[simp] theorem mem_inter {e : Event} {a b : EventSet} : e ∈ a ∩ b ↔ e ∈ a ∧ e ∈ b := by
  cases e <;> simp [Membership.mem, has, Inter.inter]

@[simp] theorem not_mem_empty (e : Event) : ¬ e ∈ (∅ : EventSet) := by
  cases e <;> decide

/-- Sets with the same events are equal. -/
theorem ext {a b : EventSet} (h : ∀ e : Event, e ∈ a ↔ e ∈ b) : a = b := by
  have same : ∀ x y : Bool, (x = true ↔ y = true) → x = y := by decide
  obtain ⟨a₁, a₂, a₃, a₄⟩ := a
  obtain ⟨b₁, b₂, b₃, b₄⟩ := b
  rw [same a₁ b₁ (h .assign), same a₂ b₂ (h .lowerBound), same a₃ b₃ (h .upperBound),
    same a₄ b₄ (h .removal)]

theorem isEmpty_iff {s : EventSet} : s.isEmpty = true ↔ s = ∅ := by
  obtain ⟨a, b, c, d⟩ := s
  revert a b c d
  decide

theorem ofList_single (e : Event) : ofList [e] = single e := by
  cases e <;> rfl

end EventSet

end Narrowing
