import Mathlib.Data.Finmap
import Narrowing.Engine.Notifier

/-!
The notifier with its backlog in two parts. A queue tells in which order the listeners came to wait, a
map what has gathered for each of them. Changes are taken up as they are reported, one watch after the
other.
-/

namespace Narrowing

/-- The watches of every domain, and the notifications that wait. -/
structure Dispatcher where
  watches : Table DomainId (List Watch) := {}
  /-- The listeners for which a notification waits, the longest waiting one first. -/
  queue : List Listener := []
  /-- The events that have gathered for a listener. -/
  pending : Finmap fun _ : Listener => EventSet := ∅
  /-- Whether propagators hear nothing of the changes they make themselves. -/
  skipsOwn : Bool := false
  deriving DecidableEq

namespace Dispatcher

/-- Make room for the watches of a further domain. -/
def grow (d : Dispatcher) : Dispatcher := { d with watches := d.watches.push [] }

/-- Watch a domain for a listener. -/
def watch (d : Dispatcher) (id : DomainId) (new : Watch) : Checked Dispatcher := do
  let watches ← d.watches.fetch id
  return { d with watches := d.watches.put id (Notifier.addWatch new watches) }

/-- Add events for a listener. It joins the queue if nothing has gathered for it yet. -/
def add (d : Dispatcher) (l : Listener) (events : EventSet) : Dispatcher :=
  match d.pending.lookup l with
  | some before => { d with pending := d.pending.insert l (before ∪ events) }
  | none => { d with pending := d.pending.insert l events, queue := d.queue ++ [l] }

/-- Take up a reported change for the listener of a watch. -/
def tell (o : Occurrence) (d : Dispatcher) (w : Watch) : Dispatcher :=
  if d.skipsOwn && o.cause == .propagator w.listener.propagator then d
  else
    let relevant := w.events ∩ o.events
    if relevant.isEmpty then d else d.add w.listener relevant

/-- Take up reported changes for everyone who watches the domains, in the order of the changes. -/
def notify (d : Dispatcher) : List Occurrence → Checked Dispatcher
  | [] => .ok d
  | o :: rest => do
    let watches ← d.watches.fetch o.domain
    (watches.foldl (tell o) d).notify rest

/-- The notification that has waited longest, with the events that gathered for it. -/
def pop? (d : Dispatcher) : Option ((Listener × EventSet) × Dispatcher) :=
  match d.queue with
  | [] => none
  | l :: rest =>
    some ((l, (d.pending.lookup l).getD ∅), { d with queue := rest, pending := d.pending.erase l })

/-- Whether a notification waits. -/
def hasPending (d : Dispatcher) : Bool := !d.queue.isEmpty

/-- Drop all notifications. -/
def clear (d : Dispatcher) : Dispatcher := { d with queue := [], pending := ∅ }

end Dispatcher

end Narrowing
