import Narrowing.Engine.Agenda
import Narrowing.Propagator.Action

/-!
What makes a type a type of propagators, and what has to be said to add one. A propagator is a value
that never changes by itself: what it remembers between calls lives in cells, so that leaving a
checkpoint takes it back.

Calls come in two kinds. A propagator is *notified* of events of one of its variables, cheaply and
often, and may ask for a *pass*, in which it looks at its constraint as a whole.
-/

namespace Narrowing

/-- What a propagator wants after it was notified. -/
inductive Response where
  /-- A pass that takes up the change. -/
  | enqueue
  | skip
  deriving DecidableEq, Repr

/-- What can be said about a constraint without changing any domain. -/
inductive Entailment where
  /-- Every choice of values satisfies it. -/
  | entailed
  /-- No choice of values satisfies it. -/
  | refuted
  /-- Neither is known. -/
  | undecided
  deriving DecidableEq, Repr

/-- The name of an answer. -/
def Entailment.name : Entailment → String
  | .entailed => "True"
  | .refuted => "False"
  | .undecided => "Undefined"

/-- A type of propagators. Only a name and a pass are needed. -/
class Propagator (P : Type) where
  /-- What these propagators write into the journal. -/
  Note : Type
  /-- A note in words, if it is for reading. -/
  describe : Note → Option String := fun _ => none
  name : P → String
  priority : P → Priority := fun _ => .veryLow
  /-- The events of a variable that matter. -/
  conditions : P → LocalId → EventSet := fun _ _ => .all
  /-- A pass of the propagator with the given name. -/
  pass : P → PropagatorId → Passes → Action Note Unit
  /-- What to do on events of the domain behind a variable. -/
  notified : P → PropagatorId → LocalId → EventSet → Action Note Response :=
    fun _ _ _ _ => .done .enqueue
  entailment : P → Domains → Cells → Checked Entailment := fun _ _ _ => .ok .undecided

/-- A variable to be watched for events, under the number that the propagator gives it. -/
structure Interest where
  subject : Variable
  events : EventSet
  localId : LocalId
  deriving DecidableEq, Repr

/-- What is needed to add a propagator: what it watches, the initial values of its integers and the
capacities of its sets, and the propagator itself, given the names of these cells. -/
structure Posting (P : Type) [Propagator P] where
  interests : List Interest
  integers : List Int
  sets : List Nat
  /-- Notes left once the variables are watched. -/
  opening : PropagatorId → Domains → Checked (List (Propagator.Note P)) := fun _ _ => .ok []
  build : (Nat → CellId) → (Nat → SetId) → P

namespace Action

/-- An action whose notes become notes of another type. -/
def mapNotes {ν μ α : Type} (f : ν → μ) : Action ν α → Action μ α
  | .done a => .done a
  | .contradict c => .contradict c
  | .abandon e => .abandon e
  | .look k => .look fun domains cells => (k domains cells).mapNotes f
  | .restrict x r k => .restrict x r fun result => (k result).mapNotes f
  | .change op k => .change op fun result => (k result).mapNotes f
  | .note content k => .note (f content) (k.mapNotes f)

end Action

/-- Propagators of either of two types. -/
instance {P Q : Type} [Propagator P] [Propagator Q] : Propagator (P ⊕ Q) where
  Note := Propagator.Note P ⊕ Propagator.Note Q
  describe
    | .inl n => @Propagator.describe P _ n
    | .inr n => @Propagator.describe Q _ n
  name
    | .inl p => Propagator.name p
    | .inr q => Propagator.name q
  priority
    | .inl p => Propagator.priority p
    | .inr q => Propagator.priority q
  conditions
    | .inl p => Propagator.conditions p
    | .inr q => Propagator.conditions q
  pass
    | .inl p => fun self passes => (Propagator.pass p self passes).mapNotes .inl
    | .inr q => fun self passes => (Propagator.pass q self passes).mapNotes .inr
  notified
    | .inl p => fun self x events => (Propagator.notified p self x events).mapNotes .inl
    | .inr q => fun self x events => (Propagator.notified q self x events).mapNotes .inr
  entailment
    | .inl p => Propagator.entailment p
    | .inr q => Propagator.entailment q

namespace Posting

variable {P Q : Type} [Propagator P] [Propagator Q]

/-- A posting where propagators of a second type are welcome too. -/
def inl (p : Posting P) : Posting (P ⊕ Q) where
  interests := p.interests
  integers := p.integers
  sets := p.sets
  opening self domains := do
    return (← p.opening self domains).map (@Sum.inl (Propagator.Note P) (Propagator.Note Q))
  build cell set := .inl (p.build cell set)

/-- A posting where propagators of a first type are welcome too. -/
def inr (p : Posting Q) : Posting (P ⊕ Q) where
  interests := p.interests
  integers := p.integers
  sets := p.sets
  opening self domains := do
    return (← p.opening self domains).map (@Sum.inr (Propagator.Note P) (Propagator.Note Q))
  build cell set := .inr (p.build cell set)

end Posting

end Narrowing
