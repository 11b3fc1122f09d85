import Narrowing.Fault

/-!
Sets of numbers below a fixed capacity, kept as an array that is cut in two by a boundary: the
members stand before it, everything else behind it. A second array says where each number stands.
Adding or removing a number swaps it with the number at the boundary and moves the boundary by one,
so either takes constant time. The order of the members is an outcome of the swaps made so far.
-/

namespace Narrowing

/-- The numbers below the capacity in their current order, where each of them stands, and how many
are members. -/
structure SwapSet where
  elements : Array Nat
  positions : Array Nat
  size : Nat
  deriving DecidableEq

namespace SwapSet

/-- The empty set over the numbers below `n`. -/
def ofCapacity (n : Nat) : SwapSet := ⟨Array.range n, Array.range n, 0⟩

/-- How many numbers there are to choose from. -/
def capacity (s : SwapSet) : Nat := s.elements.size

/-- A number is a member when it stands before the boundary. -/
def contains (s : SwapSet) (e : Nat) : Bool :=
  match s.positions[e]? with
  | some p => p < s.size
  | none => false

/-- The members in the order in which they stand. -/
def members (s : SwapSet) : List Nat := s.elements.toList.take s.size

/-- Swap a number with the one that stands at `target`. -/
def moveTo (s : SwapSet) (e target : Nat) : Checked SwapSet :=
  match s.positions[e]?, s.elements[target]? with
  | some here, some displaced =>
    .ok { s with
      elements := (s.elements.setIfInBounds here displaced).setIfInBounds target e
      positions := (s.positions.setIfInBounds displaced here).setIfInBounds e target }
  | _, _ => .error .outOfBounds

/-- Add a number, and tell whether it was no member yet. -/
def insert (s : SwapSet) (e : Nat) : Checked (Bool × SwapSet) :=
  if s.contains e then .ok (false, s)
  else do
    let moved ← s.moveTo e s.size
    return (true, { moved with size := s.size + 1 })

/-- Remove a number, and tell whether it was a member. -/
def erase (s : SwapSet) (e : Nat) : Checked (Bool × SwapSet) :=
  if s.contains e then do
    let moved ← s.moveTo e (s.size - 1)
    return (true, { moved with size := s.size - 1 })
  else .ok (false, s)

@[simp] theorem capacity_ofCapacity (n : Nat) : (ofCapacity n).capacity = n := by
  simp [ofCapacity, capacity]

@[simp] theorem members_ofCapacity (n : Nat) : (ofCapacity n).members = [] := by
  simp [ofCapacity, members]

/-- Adding a member changes nothing. -/
theorem insert_of_contains {s : SwapSet} {e : Nat} (h : s.contains e = true) :
    s.insert e = .ok (false, s) := by
  simp [insert, h]

/-- Removing what is no member changes nothing. -/
theorem erase_of_not_contains {s : SwapSet} {e : Nat} (h : s.contains e = false) :
    s.erase e = .ok (false, s) := by
  simp [erase, h]

end SwapSet

end Narrowing
