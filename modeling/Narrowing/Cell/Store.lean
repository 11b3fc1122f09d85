import Narrowing.Table
import Narrowing.Trail
import Narrowing.Cell.SwapSet

/-!
Cells are memory that follows the checkpoints: integers and sets whose contents return to what they
were when a checkpoint is left. Propagators keep what they know between calls in them.

Every checkpoint gets a stamp of its own. An integer bears the stamp of the frame in which its value
was last saved, so a write saves the old value only if the integer does not bear the stamp of the
current frame; the stamp is part of what is saved. Sets record every effective insertion and
removal.
-/

namespace Narrowing

/-- Names a trailed integer. -/
structure CellId where
  index : Nat
  deriving DecidableEq, Repr

instance : Key CellId := ⟨CellId.index, CellId.mk, fun _ => rfl, fun _ => rfl⟩

/-- Names a trailed set. -/
structure SetId where
  index : Nat
  deriving DecidableEq, Repr

instance : Key SetId := ⟨SetId.index, SetId.mk, fun _ => rfl, fun _ => rfl⟩

/-- A trailed integer: its value, and the stamp of the frame that saved it last, if any did. -/
structure Cell where
  value : Int
  stamp : Option Nat := none
  deriving DecidableEq

/-- An undo record. -/
inductive CellChange where
  /-- An integer was written for the first time in a frame; before that it was `old`. -/
  | written (cell : CellId) (old : Cell)
  | inserted (set : SetId) (element : Nat)
  | erased (set : SetId) (element : Nat)
  deriving DecidableEq

/-- All trailed integers and sets. `stamps` has the stamp of every open frame, the current one
first. -/
structure Cells where
  integers : Table CellId Cell := {}
  sets : Table SetId SwapSet := {}
  trail : Trail CellChange := {}
  stamps : List Nat := [0]
  nextStamp : Nat := 1
  deriving DecidableEq

/-- A change of one cell. -/
inductive CellOp where
  | assign (cell : CellId) (value : Int)
  | add (cell : CellId) (amount : Int)
  | insert (set : SetId) (element : Nat)
  | erase (set : SetId) (element : Nat)
  | clear (set : SetId)
  deriving DecidableEq

namespace Cells

/-- The current checkpoint. -/
def level (s : Cells) : Nat := s.trail.level

/-- Add an integer. It stays when the checkpoint of its creation is left. -/
def newInteger (s : Cells) (value : Int) : Cells := { s with integers := s.integers.push { value } }

/-- Add an empty set over the numbers below `capacity`. It stays when the checkpoint of its creation
is left. -/
def newSet (s : Cells) (capacity : Nat) : Cells :=
  { s with sets := s.sets.push (.ofCapacity capacity) }

/-- The value of an integer. -/
def read (s : Cells) (c : CellId) : Checked Int := do
  return (← s.integers.fetch c).value

/-- The set under a name. -/
def set (s : Cells) (k : SetId) : Checked SwapSet := s.sets.fetch k

/-- The members of a set, in the order in which the set keeps them. -/
def members (s : Cells) (k : SetId) : Checked (List Nat) := do
  return (← s.set k).members

/-- The stamp of the current frame. -/
def stamp (s : Cells) : Nat := s.stamps.headD 0

/-- Write an integer. Writing the value it has is no change. -/
def assign (s : Cells) (c : CellId) (value : Int) : Checked Cells := do
  let cell ← s.integers.fetch c
  if cell.value = value then
    return s
  else
    let trail := if cell.stamp = some s.stamp then s.trail else s.trail.push (.written c cell)
    return { s with trail, integers := s.integers.put c ⟨value, some s.stamp⟩ }

/-- Write the sum of an integer and `amount`. -/
def add (s : Cells) (c : CellId) (amount : Int) : Checked Cells := do
  let sum ← Amount.check ((← s.read c) + amount)
  s.assign c sum

/-- Add an element to a set, and tell whether it was no member yet. -/
def insert (s : Cells) (k : SetId) (e : Nat) : Checked (Bool × Cells) := do
  let (fresh, set) ← (← s.set k).insert e
  let trail := if fresh then s.trail.push (.inserted k e) else s.trail
  return (fresh, { s with trail, sets := s.sets.put k set })

/-- Remove an element from a set, and tell whether it was a member. -/
def erase (s : Cells) (k : SetId) (e : Nat) : Checked (Bool × Cells) := do
  let (found, set) ← (← s.set k).erase e
  let trail := if found then s.trail.push (.erased k e) else s.trail
  return (found, { s with trail, sets := s.sets.put k set })

/-- Remove each of the listed elements from a set. -/
def eraseAll (s : Cells) (k : SetId) : List Nat → Checked Cells
  | [] => .ok s
  | e :: rest => do
    let (_, s) ← s.erase k e
    s.eraseAll k rest

/-- Remove every member of a set, in the order in which the members stand at the call. -/
def clear (s : Cells) (k : SetId) : Checked Cells := do
  s.eraseAll k (← s.members k)

/-- Make one change. The answer tells whether a set changed; it is `false` for integers and
clearings. -/
def perform (s : Cells) : CellOp → Checked (Bool × Cells)
  | .assign c value => do return (false, ← s.assign c value)
  | .add c amount => do return (false, ← s.add c amount)
  | .insert k e => s.insert k e
  | .erase k e => s.erase k e
  | .clear k => do return (false, ← s.clear k)

/-- Open a frame, with a stamp that was never used before. -/
def mark (s : Cells) : Cells :=
  { s with trail := s.trail.mark, stamps := s.nextStamp :: s.stamps, nextStamp := s.nextStamp + 1 }

/-- Take back one recorded change. -/
def undo (s : Cells) : CellChange → Checked Cells
  | .written c old => .ok { s with integers := s.integers.put c old }
  | .inserted k e => do
    let (_, set) ← (← s.set k).erase e
    return { s with sets := s.sets.put k set }
  | .erased k e => do
    let (_, set) ← (← s.set k).insert e
    return { s with sets := s.sets.put k set }

/-- Take back recorded changes one after the other. -/
def undoAll (s : Cells) : List CellChange → Checked Cells
  | [] => .ok s
  | change :: rest => do (← s.undo change).undoAll rest

/-- Return every cell to what it held when level `k` was left for the next one. -/
def rewind (s : Cells) (k : Nat) : Checked Cells := do
  let (undone, trail) ← s.trail.rewind k
  let s ← { s with trail }.undoAll undone
  return { s with stamps := s.stamps.drop (s.stamps.length - (k + 1)) }

/-- The number of records in the frame of level `k`. -/
def changesAt (s : Cells) (k : Nat) : Checked Nat := do
  return (← s.trail.frame k).length

@[simp] theorem level_mark (s : Cells) : s.mark.level = s.level + 1 := by
  simp [mark, level]

@[simp] theorem stamp_mark (s : Cells) : s.mark.stamp = s.nextStamp := rfl

/-- Writing the value that is there leaves the store as it is. -/
theorem assign_of_read {s : Cells} {c : CellId} {value : Int} (h : s.read c = .ok value) :
    s.assign c value = .ok s := by
  unfold read at h
  unfold assign
  cases hc : s.integers.fetch c with
  | error f => simp [hc, bind, Except.bind] at h
  | ok cell =>
    have hv : cell.value = value := by simpa [hc, bind, Except.bind, pure, Except.pure] using h
    simp [bind, Except.bind, pure, Except.pure, hv]

end Cells

end Narrowing
