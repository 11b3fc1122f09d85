import Narrowing.Cause
import Narrowing.Domain.Basic
import Narrowing.Trail

/-!
All domains, the trail of their changes, and the events that nobody was told about yet. A
restriction either is refused, and then leaves everything as it was, or makes its changes one by
one; each of them is put on the trail and reported as a set of events together with its cause.
-/

namespace Narrowing

/-- Names a domain. -/
structure DomainId where
  index : Nat
  deriving DecidableEq, Repr

instance : Key DomainId := ⟨DomainId.index, DomainId.mk, fun _ => rfl, fun _ => rfl⟩

/-- A domain in print. -/
def DomainId.render (d : DomainId) : String := s!"x{d.index}"

/-- A change of a domain, as it is reported. -/
structure Occurrence where
  domain : DomainId
  events : EventSet
  cause : Cause
  deriving DecidableEq, Repr

/-- The domains. `trail` and `unreported` have their changes. -/
structure Domains where
  table : Table DomainId Domain := {}
  trail : Trail (DomainId × Change) := {}
  unreported : Array Occurrence := #[]
  deriving DecidableEq

/-- A step on the domains that is refused when it would leave a domain empty. -/
abbrev Restricting (α : Type) := EStateM Refusal Domains α

namespace Domains

/-- The current checkpoint. -/
def level (s : Domains) : Nat := s.trail.level

/-- The number of changes on record. -/
def position (s : Domains) : Nat := s.trail.length

/-- The domain under a name. -/
def domain (s : Domains) (id : DomainId) : Checked Domain := s.table.fetch id

/-- Add a domain. It stays when the checkpoint of its creation is left. -/
def push (s : Domains) (d : Domain) : Domains := { s with table := s.table.push d }

/-- The recorded changes of one domain since there were `position` changes on record. -/
def changesSince (s : Domains) (id : DomainId) (position : Nat) : List Change :=
  (s.trail.chronicle.drop position).filterMap fun (owner, change) =>
    if owner = id then some change else none

/-- Answer a question about a domain. -/
def answer (s : Domains) (id : DomainId) : (α : Type) → Query α → Checked α
  | _, .lower => do return (← s.domain id).lower
  | _, .upper => do return (← s.domain id).upper
  | _, .size => do return (← s.domain id).size
  | _, .enumerated => do return (← s.domain id).enumerated
  | _, .contains v => do (← s.domain id).contains v
  | _, .next v => do (← s.domain id).next v
  | _, .previous v => do (← s.domain id).previous v
  | _, .ascending limit => do (← s.domain id).ascending limit
  | _, .descending limit => do (← s.domain id).descending limit
  | _, .runs => do return (← s.domain id).runs
  | _, .runsDown => do return (← s.domain id).runsDown
  | _, .removedSince position limit => do
    (← s.domain id).lostToAll limit (s.changesSince id position)

/-- Make one change of a domain, record it and note its events. -/
def change (s : Domains) (id : DomainId) (cause : Cause) (c : Change) : Domains where
  table := s.table.update id (·.apply c)
  trail := s.trail.push (id, c)
  unreported := s.unreported.push ⟨id, c.events, cause⟩

/-- Make changes of a domain one after the other. -/
def changeAll (s : Domains) (id : DomainId) (cause : Cause) (cs : List Change) : Domains :=
  cs.foldl (fun s c => s.change id cause c) s

/-- Restrict a domain, and tell whether it changed. -/
def restrict (id : DomainId) (r : Restriction) (cause : Cause) : Restricting Bool := fun s =>
  match s.domain id with
  | .error f => .error (.fault f) s
  | .ok d =>
    match d.plan r with
    | .error refusal => .error refusal s
    | .ok changes => .ok (!changes.isEmpty) (s.changeAll id cause changes)

/-- Open a frame. -/
def mark (s : Domains) : Domains := { s with trail := s.trail.mark }

/-- Take back one recorded change. -/
def undo (table : Table DomainId Domain) : DomainId × Change → Table DomainId Domain
  | (id, c) => table.update id (·.undo c)

/-- Return every domain to what it was when level `k` was left for the next one. Changes that nobody
was told about are forgotten. -/
def rewind (s : Domains) (k : Nat) : Checked Domains := do
  let (undone, trail) ← s.trail.rewind k
  return { table := undone.foldl undo s.table, trail, unreported := #[] }

/-- The domains once every change is reported. -/
def reported (s : Domains) : Domains := { s with unreported := #[] }

@[simp] theorem level_mark (s : Domains) : s.mark.level = s.level + 1 := by
  simp [mark, level]

@[simp] theorem level_change (s : Domains) (id : DomainId) (cause : Cause) (c : Change) :
    (s.change id cause c).level = s.level := rfl

/-- A restriction that is refused leaves everything as it was. -/
theorem eq_of_restrict_error {id : DomainId} {r : Restriction} {cause : Cause} {s s' : Domains}
    {e : Refusal} (h : restrict id r cause s = .error e s') : s' = s := by
  unfold restrict at h
  split at h
  · cases h; rfl
  · split at h <;> cases h
    rfl

end Domains

end Narrowing
