import Narrowing.Cell.Store
import Narrowing.Journal
import Narrowing.Variable.Basic

/-!
What a propagator does when it is called, written down as data: it looks at the domains and cells,
restricts variables, changes cells, leaves notes, and comes to an end with an answer or with a
contradiction. Nothing else is possible, and every action ends after finitely many steps, because it
is a well-founded tree. Looking gives the whole of the domains and cells, so what comes next may be
any function of them.

A refused restriction does not end an action; the action learns of the contradiction and usually
ends with it.
-/

namespace Narrowing

/-- The part of an engine on which actions work. -/
structure Workspace (ν : Type) where
  domains : Domains := {}
  cells : Cells := {}
  journal : Array (Message ν) := #[]

/-- Why an action stopped without an answer. -/
inductive Stop where
  | contradiction (c : Contradiction)
  | fault (f : Fault)
  deriving DecidableEq, Repr

/-- The steps of a propagator on the way to an answer in `α`, with notes in `ν`. -/
inductive Action (ν α : Type) where
  | done (a : α)
  | contradict (c : Contradiction)
  | abandon (f : Fault)
  | look (k : Domains → Cells → Action ν α)
  | restrict (x : Variable) (r : Restriction) (k : Except Contradiction Bool → Action ν α)
  | change (op : CellOp) (k : Bool → Action ν α)
  | note (content : ν) (k : Action ν α)

namespace Action

variable {ν α β : Type}

/-- Go on with what the answer calls for. -/
def bind : Action ν α → (α → Action ν β) → Action ν β
  | .done a, f => f a
  | .contradict c, _ => .contradict c
  | .abandon e, _ => .abandon e
  | .look k, f => .look fun domains cells => (k domains cells).bind f
  | .restrict x r k, f => .restrict x r fun result => (k result).bind f
  | .change op k, f => .change op fun result => (k result).bind f
  | .note content k, f => .note content (k.bind f)

instance : Monad (Action ν) where
  pure := .done
  bind := bind

/-- A computation that may be abandoned, as an action. -/
def ofChecked : Checked α → Action ν α
  | .ok a => .done a
  | .error f => .abandon f

/-- Look at the domains. -/
def onDomains (f : Domains → Checked α) : Action ν α := .look fun domains _ => ofChecked (f domains)

/-- Look at the cells. -/
def onCells (f : Cells → Checked α) : Action ν α := .look fun _ cells => ofChecked (f cells)

/-- Restrict a variable, and end with the contradiction if that is refused. The answer tells whether
the domain changed. -/
def narrow (x : Variable) (r : Restriction) : Action ν Bool :=
  .restrict x r fun
    | .ok changed => .done changed
    | .error c => .contradict c

/-- Change a cell. The answer tells whether a set changed. -/
def set (op : CellOp) : Action ν Bool := .change op .done

/-- Leave a note. -/
def remark (content : ν) : Action ν Unit := .note content (.done ())

/-- Carry out an action of the propagator `self`. What was done before a stop stays done. -/
def run (self : PropagatorId) : Action ν α → EStateM Stop (Workspace ν) α
  | .done a => fun w => .ok a w
  | .contradict c => fun w => .error (.contradiction c) w
  | .abandon f => fun w => .error (.fault f) w
  | .look k => fun w => (k w.domains w.cells).run self w
  | .restrict x r k => fun ⟨domains, cells, journal⟩ =>
    match x.restrict (.propagator self) r domains with
    | .ok changed domains => (k (.ok changed)).run self ⟨domains, cells, journal⟩
    | .error .empty domains =>
      (k (.error (.emptyDomain (.propagator self)))).run self ⟨domains, cells, journal⟩
    | .error (.fault f) domains => .error (.fault f) ⟨domains, cells, journal⟩
  | .change op k => fun w =>
    match w.cells.perform op with
    | .ok (answer, cells) => (k answer).run self { w with cells }
    | .error f => .error (.fault f) w
  | .note content k => fun w => k.run self { w with journal := w.journal.push (.note content) }

@[simp] theorem run_pure (self : PropagatorId) (a : α) (w : Workspace ν) :
    (pure a : Action ν α).run self w = .ok a w := rfl

/-- Carrying out a sequence of two actions is carrying out the one after the other. -/
theorem run_bind (self : PropagatorId) (m : Action ν α) (f : α → Action ν β) (w : Workspace ν) :
    (m >>= f).run self w =
      match m.run self w with
      | .ok a w' => (f a).run self w'
      | .error e w' => .error e w' := by
  change (m.bind f).run self w = _
  induction m generalizing w with
  | done a => rfl
  | contradict c => rfl
  | abandon e => rfl
  | look k ih => exact ih _ _ _
  | restrict x r k ih =>
    simp only [bind, run]
    split <;> first | exact ih _ _ | rfl
  | change op k ih =>
    simp only [bind, run]
    split <;> first | exact ih _ _ | rfl
  | note content k ih => exact ih _

end Action

end Narrowing
