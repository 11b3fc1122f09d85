import Mathlib.Data.List.Sort
import Narrowing.Engine.Agenda

/-!
The agenda in levels. Every priority has a queue of its own; beside the queues stand what the pass of
each propagator is for, how many propagators are queued, and which queues are not empty.
-/

namespace Narrowing

/-- The queues of propagators, and what is kept beside them. -/
structure Levels where
  /-- The propagators of each priority, in the order of their turns. -/
  queues : Table Nat (List PropagatorId) := ⟨#[[], [], [], []]⟩
  /-- What the pass of each propagator is for; nothing, if none is requested. -/
  pending : Table PropagatorId Passes := {}
  /-- How many propagators are queued. -/
  enqueued : Nat := 0
  /-- The places of the queues that are not empty, the least on top. -/
  present : List Nat := []
  deriving DecidableEq

namespace Levels

/-- Whether no pass is requested. -/
def isEmpty (l : Levels) : Bool := l.enqueued == 0

/-- Room for what the pass of a propagator is for. -/
def accommodate (p : PropagatorId) (pending : Table PropagatorId Passes) : Table PropagatorId Passes :=
  ⟨pending.entries ++ Array.replicate (p.index + 1 - pending.entries.size) ({} : Passes)⟩

/-- Put a place among those of the queues that are not empty. -/
def heapPush (n : Nat) (heap : List Nat) : List Nat := heap.orderedInsert (· ≤ ·) n

/-- Request a pass of a propagator. -/
def request (l : Levels) (p : PropagatorId) (priority : Priority) (passes : Passes) :
    Checked Levels := do
  let pending := accommodate p l.pending
  let before ← pending.fetch p
  if before ≠ {} then
    return { l with pending := pending.put p (before ∪ passes) }
  let queue ← l.queues.fetch priority.rank
  return {
    queues := l.queues.put priority.rank (queue ++ [p])
    pending := pending.put p passes
    enqueued := l.enqueued + 1
    present := if queue = [] then heapPush priority.rank l.present else l.present
  }

/-- The propagator that gets its turn with what its pass is for, and the levels without it. -/
def pop? (l : Levels) : Checked (Option ((PropagatorId × Passes) × Levels)) :=
  match l.present with
  | [] => .ok none
  | top :: others => do
    let queue ← l.queues.fetch top
    match queue with
    | [] => return none
    | p :: rest =>
      if l.enqueued = 0 then .error .overflow
      let passes ← l.pending.fetch p
      return some ((p, passes), {
        queues := l.queues.put top rest
        pending := l.pending.put p {}
        enqueued := l.enqueued - 1
        present := if rest = [] then others else l.present
      })

/-- Drop all requests. -/
def clear (l : Levels) : Levels where
  queues := ⟨Array.replicate l.queues.size []⟩
  pending := ⟨Array.replicate l.pending.size {}⟩

theorem size_accommodate (p : PropagatorId) (pending : Table PropagatorId Passes) :
    p.index < (accommodate p pending).size := by
  simp only [Table.size, accommodate, Array.size_append, Array.size_replicate]
  omega

theorem exists_accommodate (p : PropagatorId) (pending : Table PropagatorId Passes) :
    ∃ passes, (accommodate p pending).get? p = some passes :=
  ⟨_, Array.getElem?_eq_getElem (size_accommodate p pending)⟩

/-- The room that is made holds nothing. -/
theorem get?_accommodate (p q : PropagatorId) (pending : Table PropagatorId Passes) :
    ((accommodate p pending).get? q).getD {} = (pending.get? q).getD {} := by
  simp only [Table.get?, accommodate, Array.getElem?_append, Array.getElem?_replicate]
  split
  · rfl
  · next hge =>
    rw [Array.getElem?_eq_none (Nat.le_of_not_lt hge)]
    split <;> rfl

theorem mem_heapPush {n k : Nat} {heap : List Nat} : k ∈ heapPush n heap ↔ k = n ∨ k ∈ heap :=
  List.mem_orderedInsert _

/-- A place that is put among others where it is not yet leaves no place twice. -/
theorem pairwise_heapPush {n : Nat} {heap : List Nat} (h : heap.Pairwise (· < ·)) (hn : n ∉ heap) :
    (heapPush n heap).Pairwise (· < ·) := by
  have hsorted : (heapPush n heap).Pairwise (· ≤ ·) := (h.imp Nat.le_of_lt).orderedInsert n heap
  have hnodup : (heapPush n heap).Nodup := by
    rw [heapPush, (List.perm_orderedInsert _ n heap).nodup_iff, List.nodup_cons]
    exact ⟨hn, h.imp Nat.ne_of_lt⟩
  exact hsorted.imp₂ (fun _ _ hle hne => Nat.lt_of_le_of_ne hle hne) hnodup

end Levels

end Narrowing
