import Narrowing.Domain.Store
import Narrowing.Engine.Backlog

/-!
The notifier knows who watches which domain for which events. It turns reported changes into
notifications for the watching propagators and keeps them until they are picked up. A propagator is
notified per variable: what happens while a notification waits is added to it.
-/

namespace Narrowing

/-- One of the variables of a propagator, as the receiver of notifications. -/
structure Listener where
  propagator : PropagatorId
  localId : LocalId
  deriving DecidableEq, Repr

/-- The events of a domain that a listener wants to hear of. -/
structure Watch where
  listener : Listener
  events : EventSet
  deriving DecidableEq, Repr

/-- What one reported change means for one listener. -/
structure Notice where
  occurrence : Occurrence
  listener : Listener
  events : EventSet
  deriving DecidableEq, Repr

/-- The watches of every domain and the notifications that wait. -/
structure Notifier where
  watches : Table DomainId (List Watch) := {}
  pending : Backlog Listener EventSet := {}
  /-- Whether propagators hear nothing of the changes they make themselves. -/
  skipsOwn : Bool := false
  deriving DecidableEq

namespace Notifier

/-- Make room for the watches of a further domain. -/
def grow (n : Notifier) : Notifier := { n with watches := n.watches.push [] }

/-- Add a watch to those of a domain. A listener watches a domain once, for all events it asked for.
-/
def addWatch (new : Watch) : List Watch → List Watch
  | [] => [new]
  | w :: rest =>
    if w.listener = new.listener then { w with events := w.events ∪ new.events } :: rest
    else w :: addWatch new rest

/-- Watch a domain for a listener. -/
def watch (n : Notifier) (id : DomainId) (new : Watch) : Checked Notifier := do
  let watches ← n.watches.fetch id
  return { n with watches := n.watches.put id (addWatch new watches) }

/-- What a reported change means for the listener of a watch, if it means anything. -/
def notice? (n : Notifier) (o : Occurrence) (w : Watch) : Option Notice :=
  if n.skipsOwn && o.cause == .propagator w.listener.propagator then none
  else
    let events := w.events ∩ o.events
    if events.isEmpty then none else some ⟨o, w.listener, events⟩

/-- What a reported change means for everyone who watches the domain. -/
def notices (n : Notifier) (o : Occurrence) : Checked (List Notice) := do
  return (← n.watches.fetch o.domain).filterMap (n.notice? o)

/-- What reported changes mean for everyone, in the order of the changes. -/
def noticesOfAll (n : Notifier) : List Occurrence → Checked (List Notice)
  | [] => .ok []
  | o :: rest => do
    let here ← n.notices o
    return here ++ (← n.noticesOfAll rest)

/-- Add notices to the notifications that wait. -/
def accept (n : Notifier) (notices : List Notice) : Notifier :=
  { n with pending := n.pending.addAll (notices.map fun x => (x.listener, x.events)) }

/-- The notification that has waited longest, with the events that gathered for it. -/
def pop? (n : Notifier) : Option ((Listener × EventSet) × Notifier) :=
  n.pending.pop?.map fun (first, pending) => (first, { n with pending })

/-- Whether a notification waits. -/
def hasPending (n : Notifier) : Bool := !n.pending.isEmpty

/-- Drop all notifications. -/
def clear (n : Notifier) : Notifier := { n with pending := {} }

/-- The number of watches, over all domains. -/
def watchCount (n : Notifier) : Nat := n.watches.toList.flatten.length

@[simp] theorem hasPending_clear (n : Notifier) : n.clear.hasPending = false := rfl

/-- A notice is never about nothing. -/
theorem events_of_notice? {n : Notifier} {o : Occurrence} {w : Watch} {x : Notice}
    (h : n.notice? o w = some x) : x.events ≠ ∅ := by
  unfold notice? at h
  split at h
  · cases h
  · dsimp only at h
    split at h
    · cases h
    · next he =>
      cases h
      exact fun hx => he (EventSet.isEmpty_iff.2 hx)

theorem accept_append (n : Notifier) (notices others : List Notice) :
    n.accept (notices ++ others) = (n.accept notices).accept others := by
  simp only [accept, Backlog.addAll, List.map_append, List.foldl_append]

/-- What changes mean does not depend on what waits. -/
theorem noticesOfAll_accept (n : Notifier) (notices : List Notice) (os : List Occurrence) :
    (n.accept notices).noticesOfAll os = n.noticesOfAll os := by
  induction os with
  | nil => rfl
  | cons o rest ih => rw [noticesOfAll, noticesOfAll, ih]; rfl

/-- The first notification is picked up, and the others go on waiting. -/
theorem pop?_eq_some {n n' : Notifier} {l : Listener} {events : EventSet}
    (h : n.pop? = some ((l, events), n')) :
    ∃ rest, n.pending = ⟨(l, events) :: rest⟩ ∧ n' = { n with pending := ⟨rest⟩ } := by
  obtain ⟨watches, ⟨entries⟩, skipsOwn⟩ := n
  cases entries with
  | nil => exact nomatch h
  | cons first rest =>
      obtain ⟨rfl, rfl⟩ := Prod.mk.inj (Option.some.inj h)
      exact ⟨rest, rfl, rfl⟩

theorem pop?_eq_none {n : Notifier} : n.pop? = none ↔ n.pending.keys = [] := by
  obtain ⟨watches, ⟨entries⟩, skipsOwn⟩ := n
  cases entries with
  | nil => exact iff_of_true rfl rfl
  | cons first rest => exact iff_of_false nofun nofun

end Notifier

end Narrowing
