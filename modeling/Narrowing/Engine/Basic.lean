import Narrowing.Propagator.Basic

/-!
The engine: domains and cells, the propagators over them, who is to be told of what, and whose pass
is due. The caller makes variables, adds propagators, takes decisions, opens and leaves checkpoints,
and has the engine propagate in between; a search is built from these operations alone.
-/

namespace Narrowing

/-- An engine for propagators of type `P`. After a contradiction the engine keeps it until a
checkpoint is left. -/
structure Engine (P : Type) [Propagator P] extends Workspace (Propagator.Note P) where
  notifier : Notifier := {}
  agenda : Agenda := {}
  propagators : Table PropagatorId P := {}
  contradiction : Option Contradiction := none

/-- An operation of an engine. A fault leaves the engine as it was when the fault came up. -/
abbrev Operation (P : Type) [Propagator P] (α : Type) := EStateM Fault (Engine P) α

/-- Why a constraint could not be added for good. -/
inductive AddError where
  | notAtRoot
  | infeasibleState
  | infeasiblePropagator
  deriving DecidableEq, Repr

namespace AddError

/-- The name of an error. -/
def name : AddError → String
  | .notAtRoot => "NotAtRoot"
  | .infeasibleState => "InfeasibleState"
  | .infeasiblePropagator => "InfeasiblePropagator"

/-- An error in words. -/
def message : AddError → String
  | .notAtRoot => "Adding the constraint failed because the state is not at the root"
  | .infeasibleState => "Adding the constraint failed because the state is in an infeasible state"
  | .infeasiblePropagator => "Adding the constraint failed because it is infeasible at the root"

end AddError

namespace Engine

variable {P : Type} [Propagator P]

/-- An engine without variables and propagators. -/
def init (skipsOwn : Bool) : Engine P := { notifier := { skipsOwn } }

/-- The current checkpoint; the root is `0`. -/
def level (e : Engine P) : Nat := e.domains.level

/-- A checked computation as an operation. -/
def checked {α : Type} (c : Checked α) : Operation P α := fun e =>
  match c with
  | .ok a => .ok a e
  | .error f => .error f e

/-- Write into the journal. -/
def log (m : Message (Propagator.Note P)) : Operation P Unit :=
  modify fun e => { e with journal := e.journal.push m }

/-- Add a domain, which nobody watches yet. -/
def addDomain (d : Domain) : Operation P DomainId := fun e =>
  .ok e.domains.table.nextKey { e with domains := e.domains.push d, notifier := e.notifier.grow }

/-- Make a variable that takes every value from `lo` to `hi`, and can lose values at its bounds
only. -/
def newInterval (lo hi : Int) : Operation P DomainId := do
  checked (demand (lo ≤ hi) s!"the domain [{lo}, {hi}] is empty")
  addDomain (.interval lo hi)

/-- Add a domain that is taken to have values. -/
def addIfAny (d : Option Domain) : Operation P DomainId :=
  match d with
  | some d => addDomain d
  | none => throw (.assertion (some "the domain of a variable cannot be empty"))

/-- Make a variable that takes the listed values. -/
def newListed (values : List Int) : Operation P DomainId := addIfAny (Domain.listed values)

/-- Make a variable that takes every value from `lo` to `hi`, and can lose any of them. -/
def newEnumerated (lo hi : Int) : Operation P DomainId := addIfAny (Domain.full lo hi)

/-- Restrict a variable by a decision. The answer tells whether the domain changed; there is none if
the decision is refused because it would leave nothing. -/
def impose (x : Variable) (r : Restriction) : Operation P (Option Bool) := fun e =>
  match x.restrict .decision r e.domains with
  | .ok changed domains => .ok (some changed) { e with domains }
  | .error .empty domains => .ok none { e with domains }
  | .error (.fault f) domains => .error f { e with domains }

/-- Look at the domains. -/
def onDomains {α : Type} (f : Domains → Checked α) : Operation P α := do
  checked (f (← get).domains)

/-- Look at a propagator. -/
def propagator (id : PropagatorId) : Operation P P := do
  checked ((← get).propagators.fetch id)

/-- Put another propagator in the place of one. -/
def replace (id : PropagatorId) (p : P) : Operation P Unit := do
  let propagators ← checked ((← get).propagators.store id p)
  modify fun e => { e with propagators }

/-- Request a pass of a propagator. -/
def requestPass (id : PropagatorId) (passes : Passes) : Operation P Unit := do
  let p ← propagator id
  modify fun e => { e with agenda := e.agenda.request id (Propagator.priority p) passes }

/-- Request a pass from scratch of a propagator. -/
def forceFull (id : PropagatorId) : Operation P Unit := requestPass id .fromScratch

/-- What can be said about the constraint of a propagator. -/
def entailment (id : PropagatorId) : Operation P Entailment := do
  let p ← propagator id
  let e ← get
  checked (Propagator.entailment p e.domains e.cells)

/-- Watch the variables of a propagator. -/
def watchAll (id : PropagatorId) : List Interest → Operation P Unit
  | [] => return
  | interest :: rest => do
    match interest.subject.watched interest.events with
    | none => pure ()
    | some (domain, events) =>
      let notifier ← checked ((← get).notifier.watch domain ⟨⟨id, interest.localId⟩, events⟩)
      modify fun e => { e with notifier }
    watchAll id rest

/-- Add a propagator and request its first pass. Nothing is propagated yet. -/
def add (p : Posting P) : Operation P PropagatorId := do
  let id := (← get).propagators.nextKey
  watchAll id p.interests
  let notes ← onDomains (p.opening id)
  let cells := (← get).cells
  let made := p.build (fun i => ⟨cells.integers.size + i⟩) (fun i => ⟨cells.sets.size + i⟩)
  modify fun e => { e with
    journal := e.journal ++ notes.map Message.note
    cells := p.sets.foldl Cells.newSet (p.integers.foldl Cells.newInteger e.cells)
    propagators := e.propagators.push made }
  log (.added (Propagator.name made) id)
  forceFull id
  return id

/-- Open a checkpoint, with no pass due and no notification waiting. -/
def newCheckpoint : Operation P Unit := do
  let e ← get
  checked (demand (e.agenda.isEmpty && !e.notifier.hasPending)
    "Can only create a new checkpoint when all propagation has occurred")
  checked (demand e.contradiction.isNone
    "Cannot create a checkpoint in a state with a contradiction")
  modify fun e => { e with domains := e.domains.mark, cells := e.cells.mark }
  log (.entered (← get).level)

/-- The number of changes of cells on record above level `k`, at most `n` levels of them. -/
def cellChangesAbove (cells : Cells) (k : Nat) : Nat → Checked Nat
  | 0 => .ok 0
  | n + 1 => do
    let here ← cells.changesAt (k + 1)
    return here + (← cellChangesAbove cells (k + 1) n)

/-- Leave all checkpoints above level `k`: domains and cells are again what they were when that
level was left for the next one, and whatever is pending is dropped. At level `k` nothing happens.
-/
def restoreTo (k : Nat) : Operation P Unit := do
  let e ← get
  checked (demand (k ≤ e.level)
    s!"cannot restore to checkpoint {k}, the current checkpoint is {e.level}")
  if k = e.level then return
  let cellChanges ← checked (cellChangesAbove e.cells k (e.level - k))
  let domains ← checked (e.domains.rewind k)
  let cells ← checked (e.cells.rewind k)
  set { e with domains, cells, agenda := {}, notifier := e.notifier.clear, contradiction := none }
  log (.restored k (e.domains.position - domains.position) cellChanges)

/-- Leave the current checkpoint. -/
def popCheckpoint : Operation P Unit := do
  let e ← get
  checked (demand (0 < e.level) "cannot pop the root checkpoint")
  restoreTo (e.level - 1)

end Engine

end Narrowing
