import Narrowing.Engine.Basic

/-!
Propagation to a fixed point. In every round the changes made so far are turned into notifications;
then the notification that has waited longest is delivered, or, when there is none, the pass that is
due first is made. It ends when nothing is pending or a propagator comes to a contradiction.

The number of rounds is bounded in advance. Every change costs a domain a value, so the values that
are left and the changes not yet reported bound the notifications to come; a round either delivers
one of them, which may bring a pass onto the agenda, or makes one of the passes on the agenda.
-/

namespace Narrowing.Engine

variable {P : Type} [Propagator P]

/-- Turn the changes that nobody was told about into notifications. -/
def report : EStateM Stop (Engine P) Unit := fun e =>
  match e.notifier.noticesOfAll e.domains.unreported.toList with
  | .error f => .error (.fault f) e
  | .ok notices => .ok () { e with
      domains := e.domains.reported
      journal := e.journal ++ notices.map (@Message.notified (Propagator.Note P))
      notifier := e.notifier.accept notices }

/-- Have the propagator `self` act. -/
def act {α : Type} (self : PropagatorId) (action : Action (Propagator.Note P) α) :
    EStateM Stop (Engine P) α :=
  fun ⟨workspace, notifier, agenda, propagators, contradiction⟩ =>
    match action.run self workspace with
    | .ok a workspace => .ok a ⟨workspace, notifier, agenda, propagators, contradiction⟩
    | .error stop workspace => .error stop ⟨workspace, notifier, agenda, propagators, contradiction⟩

/-- An operation in the middle of propagation. -/
def within {α : Type} (m : Operation P α) : EStateM Stop (Engine P) α := fun e =>
  match m e with
  | .ok a e => .ok a e
  | .error f e => .error (.fault f) e

/-- What there is to do in a round. -/
inductive Task where
  /-- Tell a propagator of the events of one of its variables. -/
  | notify (listener : Listener) (events : EventSet)
  /-- Make a pass of a propagator. -/
  | pass (request : Request)
  deriving DecidableEq, Repr

/-- What is to be done next, and the engine in which it is no longer pending: the notification that
has waited longest, or, when none waits, the pass that is due first. -/
def due (e : Engine P) : Option (Task × Engine P) :=
  match e.notifier.pop? with
  | some ((listener, events), notifier) => some (.notify listener events, { e with notifier })
  | none => e.agenda.pop?.map fun (request, agenda) => (.pass request, { e with agenda })

/-- Do what there is to do. A propagator that was told of events gets onto the agenda if it wants a
pass. -/
def carryOut : Task → EStateM Stop (Engine P) Unit
  | .notify listener events => do
    let id := listener.propagator
    let p ← within (propagator id)
    match ← act id (Propagator.notified p id listener.localId events) with
    | .enqueue => within (requestPass id .takingUp)
    | .skip => return
  | .pass request => do
    let id := request.propagator
    let p ← within (propagator id)
    act id (Propagator.pass p id request.passes)

/-- One round. The answer tells whether there was anything to do. -/
def round : EStateM Stop (Engine P) Bool := do
  report
  match (← get).due with
  | none => return false
  | some (task, e) =>
    set e
    carryOut task
    return true

/-- Rounds until there is nothing to do, at most `n` of them. -/
def rounds : Nat → EStateM Stop (Engine P) Unit
  | 0 => throw (.fault .diverged)
  | n + 1 => do if ← round then rounds n

/-- A bound on the number of rounds. -/
def roundBound (e : Engine P) : Nat :=
  let values := e.domains.table.toList.foldl (fun n d => n + d.size) 0
  let notifications := e.notifier.pending.entries.length +
    e.notifier.watchCount * (e.domains.unreported.size + values)
  2 * notifications + e.agenda.waiting + 1

/-- Come to a contradiction: nothing is pending any more, and the engine keeps the contradiction. -/
def fail (e : Engine P) (c : Contradiction) : Engine P :=
  { e with
    journal := e.journal.push (.contradicted e.level c)
    agenda := {}
    notifier := e.notifier.clear
    contradiction := some c }

/-- Propagate to a fixed point. An engine that came to a contradiction repeats it. -/
def settle : Operation P (Except Contradiction Unit) := fun e =>
  match e.contradiction with
  | some c => .ok (.error c) e
  | none =>
    match rounds e.roundBound e with
    | .ok () e => .ok (.ok ()) e
    | .error (.contradiction c) e => .ok (.error c) (e.fail c)
    | .error (.fault f) e => .error f e

/-- Add a propagator for good: at the root, and propagated at once. -/
def addConstraint (p : Posting P) : Operation P (Except AddError PropagatorId) := do
  let e ← get
  if e.level ≠ 0 then return .error .notAtRoot
  if e.contradiction.isSome then return .error .infeasibleState
  let id ← add p
  match ← settle with
  | .ok () => return .ok id
  | .error _ => return .error .infeasiblePropagator

/-- An engine with a contradiction stays as it is. -/
theorem settle_of_contradiction {e : Engine P} {c : Contradiction} (h : e.contradiction = some c) :
    settle e = .ok (.error c) e := by
  simp [settle, h]

end Narrowing.Engine
