import Narrowing.Propagator.Basic

/-!
Scripts: propagators written down as lists of commands, one list for each kind of call. Every call
is noted together with what its commands answered, which makes scripts a means to watch an engine at
work. A command that fails ends the call.
-/

namespace Narrowing

/-- A command of a script. Cells are named by their places among those of the script. -/
inductive Command where
  | restrict (x : Variable) (r : Restriction)
  /-- Make `x` at most `y + offset`, by the bounds of both. -/
  | atMostPlus (x y : Variable) (offset : Int)
  /-- Make `x` and `y` differ: the value of one that is fixed goes from the other. -/
  | differ (x y : Variable)
  | assign (integer : Nat) (value : Int)
  | add (integer : Nat) (amount : Int)
  | insert (set element : Nat)
  | erase (set element : Nat)
  | clear (set : Nat)
  | conflict (text : String)
  | readVariable (x : Variable)
  | readValue (x : Variable) (v : Int)
  | readInteger (integer : Nat)
  | readSet (set : Nat)
  deriving DecidableEq, Repr

/-- What a command answered. -/
inductive Answer where
  | flag (b : Bool)
  | flags (a b : Bool)
  | nothing
  | variable (lower upper : Int) (size : Nat) (fixed : Bool) (runs : List Span)
  | value (contained : Bool) (next previous : Option Int)
  | integer (n : Int)
  | members (size : Nat) (elements : List Nat)
  | failed (c : Contradiction)
  deriving DecidableEq, Repr

/-- A call of a script, as it is noted. -/
inductive Call where
  /-- The bounds of the watched variables when the script was added. -/
  | created (bounds : List (Int × Int))
  | pass (self : PropagatorId) (passes : Passes) (answers : List Answer)
  | event (self : PropagatorId) (x : LocalId) (events : EventSet) (answers : List Answer)
  deriving DecidableEq, Repr

/-- A script with its cells. -/
structure Script where
  name : String
  priority : Priority := .veryLow
  interests : List Interest := []
  onPass : List Command := []
  /-- What to do in a pass from scratch, if that is something else. -/
  onFull : Option (List Command) := none
  onEvent : List Command := []
  /-- Whether an event calls for a pass. -/
  enqueues : Bool := true
  entailed : Option Bool := none
  /-- A bare script has a name and passes, and nothing else. -/
  bare : Bool := false
  integers : List CellId := []
  sets : List SetId := []
  deriving DecidableEq, Repr

namespace Script

/-- A step of a script. -/
abbrev Step (α : Type) := Action Call α

open Narrowing.Action (onDomains onCells remark)

/-- The integer at a place. -/
def integer (s : Script) (i : Nat) : Step CellId :=
  match s.integers[i]? with
  | some c => .done c
  | none => .abandon .outOfBounds

/-- The set at a place. -/
def set (s : Script) (i : Nat) : Step SetId :=
  match s.sets[i]? with
  | some k => .done k
  | none => .abandon .outOfBounds

/-- Restrict a variable and learn what came of it. -/
def attempt (x : Variable) (r : Restriction) : Step (Except Contradiction Bool) :=
  .restrict x r .done

/-- Take the value of `x`, if it is fixed, from `y`. -/
def separate (x y : Variable) : Step (Except Contradiction Bool) := do
  if ← onDomains x.isFixed then
    let v ← onDomains x.lower
    attempt y (.without v)
  else return .ok false

/-- Two steps that may fail, the second after the first; the answers of both. -/
def both (first second : Step (Except Contradiction Bool)) : Step Answer := do
  match ← first with
  | .error c => return .failed c
  | .ok a =>
    match ← second with
    | .error c => return .failed c
    | .ok b => return .flags a b

/-- Look at a variable. -/
def inspect (x : Variable) (s : Domains) : Checked Answer := do
  let lo ← x.lower s
  let hi ← x.upper s
  let size ← x.size s
  let fixed ← x.isFixed s
  let runs ← (← x.answer s _ .runs).toList
  return .variable lo hi size fixed runs

/-- Look at a value of a variable. -/
def inspectValue (x : Variable) (v : Int) (s : Domains) : Checked Answer := do
  let contained ← x.contains s v
  let next ← x.answer s _ (.next v)
  let previous ← x.answer s _ (.previous v)
  return .value contained next previous

/-- Carry out a command. -/
def perform (s : Script) (self : PropagatorId) : Command → Step Answer
  | .restrict x r => do
    match ← attempt x r with
    | .ok b => return .flag b
    | .error c => return .failed c
  | .atMostPlus x y offset =>
    both
      (do attempt x (.atMost (← onDomains fun d => do Value.check ((← y.upper d) + offset))))
      (do attempt y (.atLeast (← onDomains fun d => do Value.check ((← x.lower d) - offset))))
  | .differ x y => both (separate x y) (separate y x)
  | .assign i value => do
    let _ ← Action.set (.assign (← s.integer i) value)
    return .nothing
  | .add i amount => do
    let _ ← Action.set (.add (← s.integer i) amount)
    return .nothing
  | .insert i element => do return .flag (← Action.set (.insert (← s.set i) element))
  | .erase i element => do return .flag (← Action.set (.erase (← s.set i) element))
  | .clear i => do
    let _ ← Action.set (.clear (← s.set i))
    return .nothing
  | .conflict text => return .failed (.conflict (.propagator self) text)
  | .readVariable x => onDomains (inspect x)
  | .readValue x v => onDomains (inspectValue x v)
  | .readInteger i => do
    let c ← s.integer i
    return .integer (← onCells (·.read c))
  | .readSet i => do
    let k ← s.set i
    let set ← onCells (·.set k)
    return .members set.size set.members.mergeSort

/-- Carry out commands up to the first one that fails; the answers of all of them, and the failure.
-/
def performAll (s : Script) (self : PropagatorId) :
    List Command → Step (List Answer × Option Contradiction)
  | [] => return ([], none)
  | command :: rest => do
    match ← s.perform self command with
    | .failed c => return ([.failed c], some c)
    | answer =>
      let (answers, failure) ← s.performAll self rest
      return (answer :: answers, failure)

/-- Carry out commands, note the call, and end with the failure if there was one. -/
def call (s : Script) (self : PropagatorId) (commands : List Command) (note : List Answer → Call) :
    Step Unit := do
  let (answers, failure) ← s.performAll self commands
  remark (note answers)
  match failure with
  | none => return
  | some c => .contradict c

/-- The first interest of every number. -/
def distinctInterests : List Interest → List Interest
  | [] => []
  | interest :: rest => interest :: (distinctInterests rest).filter (·.localId ≠ interest.localId)

/-- The interest under a number. -/
def interest? (s : Script) (x : LocalId) : Option Interest := s.interests.find? (·.localId = x)

/-- A pass. -/
def pass (s : Script) (self : PropagatorId) (passes : Passes) : Step Unit :=
  let commands := if passes.full then s.onFull.getD s.onPass else s.onPass
  s.call self commands (.pass self passes)

/-- What to do on events of a variable. -/
def notified (s : Script) (self : PropagatorId) (x : LocalId) (events : EventSet) :
    Step Response := do
  if s.bare then return .enqueue
  let perceived := match s.interest? x with
    | some interest => interest.subject.perceived events
    | none => events
  s.call self s.onEvent (.event self x perceived)
  return if s.enqueues then .enqueue else .skip

instance : Propagator Script where
  Note := Call
  name := Script.name
  priority s := if s.bare then .veryLow else s.priority
  conditions s x :=
    match s.bare, s.interest? x with
    | false, some interest => interest.events
    | _, _ => .all
  pass := pass
  notified := notified
  entailment s _ _ :=
    match s.bare, s.entailed with
    | false, some true => .ok .entailed
    | false, some false => .ok .refuted
    | _, _ => .ok .undecided

/-- The bounds of variables. -/
def boundsOf (s : Domains) : List Interest → Checked (List (Int × Int))
  | [] => .ok []
  | interest :: rest => do
    let lo ← interest.subject.lower s
    let hi ← interest.subject.upper s
    return (lo, hi) :: (← boundsOf s rest)

/-- What has to be said to add a script with integers of the given values and sets of the given
capacities. `announced` scripts note the bounds of what they watch when they are added. -/
def posting (s : Script) (integers : List Int) (sets : List Nat) (announced : Bool) :
    Posting Script where
  interests := s.interests
  integers
  sets
  opening _ domains := do
    if !announced then return []
    return [.created (← boundsOf domains (distinctInterests s.interests))]
  build cell set :=
    { s with
      integers := (List.range integers.length).map cell
      sets := (List.range sets.length).map set }

end Script

end Narrowing
