import Narrowing.Among.Constraint
import Narrowing.Propagator.Basic
import Narrowing.Variable.Hull

/-!
The propagator of the Among constraint. Two cells hold what it knows between calls: the number of
variables that are sure to count, and the set of those that may or may not count. The counter is
kept between that number and the sum of both. Once the counter is fixed to one of these extremes,
the variables that may count are forced not to, or to.

Of a variable that can only lose values at its bounds, the bounds are moved inwards past the values
that have to go; what is left between them may still hold such values.
-/

namespace Narrowing

/-- An Among constraint with its cells: `possible` has the places in the scope of the variables that
may count, and `sure` the number of those that count in any case. -/
structure AmongPropagator extends Among where
  possible : SetId
  sure : CellId
  /-- Whether a fixed counter has an effect on the scope. -/
  backPropagates : Bool
  deriving DecidableEq, Repr

namespace AmongPropagator

/-- What the propagator has to say about its work. -/
inductive Remark where
  | excluded (x : Variable) (tracked : List Int)
  | included (x : Variable) (tracked : List Int)
  | surely (x : Variable) (constraint : Among) (atLeast : Int)
  | never (x : Variable) (constraint : Among) (atMost : Int)
  deriving DecidableEq, Repr

/-- A list of values in print. -/
def renderValues (values : List Int) : String :=
  "[" ++ ", ".intercalate (values.map toString) ++ "]"

/-- A remark in words. -/
def Remark.render : Remark → String
  | .excluded x tracked => s!"{x.render} cannot take a value in {renderValues tracked}"
  | .included x tracked => s!"{x.render} has to take a value in {renderValues tracked}"
  | .surely x c atLeast => s!"{x.render} is surely tracked, {c.render} counts at least {atLeast}"
  | .never x c atMost => s!"{x.render} is never tracked, {c.render} counts at most {atMost}"

/-- A step of the propagator. -/
abbrev Step (α : Type) := Action Remark α

open Narrowing.Action (narrow remark onDomains onCells)

/-- Change a cell, whatever comes of it. -/
def write (op : CellOp) : Step Unit := do
  let _ ← Action.set op

/-- Restrict a variable, whether or not that changes anything. -/
def force (x : Variable) (r : Restriction) : Step Unit := do
  let _ ← narrow x r

/-- The number under which the counter is watched: it comes behind the scope. -/
def counterId (p : AmongPropagator) : LocalId := p.scope.length

/-- The events that matter: of the counter those of its bounds, of the scope all. -/
def conditions (p : AmongPropagator) (x : LocalId) : EventSet :=
  if x = p.counterId then .assignAndBounds else .all

/-- The variable at a place of the scope. -/
def subject (p : AmongPropagator) (i : Nat) : Step Variable :=
  match p.scope[i]? with
  | some x => .done x
  | none => .abandon .outOfBounds

/-- Go through the scope from place `i` on: put the places of those that may count into the set, and
add the number of those that are sure to `sure`. -/
def enlist (p : AmongPropagator) : Nat → Int → List Variable → Step Int
  | _, sure, [] => return sure
  | i, sure, x :: rest => do
    match ← onDomains (p.standing · x) with
    | .sure => p.enlist (i + 1) (sure + 1) rest
    | .possible =>
      write (.insert p.possible i)
      p.enlist (i + 1) sure rest
    | .impossible => p.enlist (i + 1) sure rest

/-- Work out both cells from the domains. -/
def initialise (p : AmongPropagator) : Step Unit := do
  write (.clear p.possible)
  let sure ← p.enlist 0 0 p.scope
  write (.assign p.sure sure)

/-- The smallest and the greatest count that the cells allow for. Both cells are taken for values, so
they are cut down where the scope has too many places to be counted. -/
def countBounds (p : AmongPropagator) (s : Cells) : Checked (Int × Int) := do
  let sure := Value.truncate (← s.read p.sure)
  let possible := Value.truncate (← s.set p.possible).size
  return (sure, ← Value.check (sure + possible))

/-- Take values from a variable one by one. -/
def forceOut (x : Variable) : List Int → Step Unit
  | [] => return
  | v :: rest => do
    force x (.without v)
    forceOut x rest

/-- Move the bounds of a variable inwards past the values that have to go, and tell where they are
now. -/
def forceInward (x : Variable) (goes : Int → Bool) : Step (Int × Int) := do
  let (lo, hi) ← onDomains (x.hull · goes)
  force x (.atLeast lo)
  force x (.atMost hi)
  return (lo, hi)

/-- Make the variables at the listed places take values that are not tracked; all tracked values lie
between `smallest` and `largest`. A variable that cannot count any more leaves the set. -/
def excludeEach (p : AmongPropagator) (smallest largest : Int) : List Nat → Step Unit
  | [] => return
  | i :: rest => do
    let x ← p.subject i
    remark (.excluded x p.tracked)
    if ← onDomains (x.answer · _ .enumerated) then
      forceOut x p.tracked
      write (.erase p.possible i)
    else
      let (lo, hi) ← forceInward x (p.tracked.contains ·)
      if largest < lo ∨ hi < smallest then write (.erase p.possible i)
    p.excludeEach smallest largest rest

/-- The place `i` is sure to count from now on. -/
def settlePlace (p : AmongPropagator) (i : Nat) : Step Unit := do
  write (.erase p.possible i)
  write (.add p.sure 1)

/-- Make the variables at the listed places take tracked values, which lie between `smallest` and
`largest`. A variable that is sure to count then moves from the set to the number. -/
def includeEach (p : AmongPropagator) (smallest largest : Int) : List Nat → Step Unit
  | [] => return
  | i :: rest => do
    let x ← p.subject i
    remark (.included x p.tracked)
    if ← onDomains (x.answer · _ .enumerated) then
      let untracked := (← onDomains x.values).filter (!p.tracked.contains ·)
      forceOut x untracked
      p.settlePlace i
    else
      force x (.atLeast smallest)
      force x (.atMost largest)
      let _ ← forceInward x (!p.tracked.contains ·)
      if ← onDomains x.isFixed then p.settlePlace i
    p.includeEach smallest largest rest

/-- Treat every variable that may count, in the order in which the set has them at the call. Without
tracked values there is nothing to do. -/
def eachPossible (p : AmongPropagator) (treat : Int → Int → List Nat → Step Unit) : Step Unit := do
  match p.tracked.head?, p.tracked.getLast? with
  | some smallest, some largest => treat smallest largest (← onCells (·.members p.possible))
  | _, _ => return

/-- Keep the counter within the counts that the cells allow for, and let a counter fixed to an
extreme decide about the variables that may count. -/
def filter (p : AmongPropagator) (self : PropagatorId) : Step Unit := do
  let (least, most) ← onCells p.countBounds
  let outside := .conflict (.propagator self) "the counter is outside of the achievable counts"
  if (← onDomains p.counter.upper) < least then .contradict outside
  else if most < (← onDomains p.counter.lower) then .contradict outside
  else
    force p.counter (.atLeast least)
    force p.counter (.atMost most)
    if !p.backPropagates then return
    if !(← onDomains p.counter.isFixed) then return
    if least = most then return
    let count ← onDomains p.counter.lower
    if count = least then p.eachPossible p.excludeEach
    else if count = most then p.eachPossible p.includeEach

/-- A pass: from scratch if that is asked for, then the filtering. -/
def pass (p : AmongPropagator) (self : PropagatorId) (passes : Passes) : Step Unit := do
  if passes.full then p.initialise
  p.filter self

/-- A place of the scope changed. One that may count is classified anew; if it is decided now, the
cells and a bound of the counter follow. -/
def reconsider (p : AmongPropagator) (i : Nat) (x : Variable) : Step Unit := do
  if ← onCells (fun s => return (← s.set p.possible).contains i) then
    match ← onDomains (p.standing · x) with
    | .sure =>
      p.settlePlace i
      let (least, _) ← onCells p.countBounds
      remark (.surely x p.toAmong least)
      force p.counter (.atLeast least)
    | .impossible =>
      write (.erase p.possible i)
      let (_, most) ← onCells p.countBounds
      remark (.never x p.toAmong most)
      force p.counter (.atMost most)
    | .possible => return

/-- What to do on events of the counter or of a place of the scope. -/
def notified (p : AmongPropagator) (x : LocalId) (events : EventSet) : Step Response := do
  if x = p.counterId then
    return if (p.counter.perceived events ∩ p.conditions x).isEmpty then .skip else .enqueue
  else
    let subject ← p.subject x
    if (subject.perceived events ∩ p.conditions x).isEmpty then return .skip
    else
      p.reconsider x subject
      return .enqueue

/-- The number of variables that are sure to count and the number of those that are not ruled out, with
one variable more. -/
def withOneMore (least most : Int) : Among.Standing → Checked (Int × Int)
  | .sure => do return (← Value.check (least + 1), ← Value.check (most + 1))
  | .possible => do return (least, ← Value.check (most + 1))
  | .impossible => .ok (least, most)

/-- Go through a scope and count, and tell, too, whether all variables are fixed. -/
def survey (c : Among) (s : Domains) (least most : Int) (allFixed : Bool) :
    List Variable → Checked (Int × Int × Bool)
  | [] => .ok (least, most, allFixed)
  | x :: rest => do
    let (least, most) ← withOneMore least most (← c.standing s x)
    let fixed ← x.isFixed s
    survey c s least most (allFixed && fixed) rest

/-- What can be said about the constraint from the domains alone. -/
def entailment (c : Among) (s : Domains) : Checked Entailment := do
  let counterFixed ← c.counter.isFixed s
  let (least, most, allFixed) ← survey c s 0 0 counterFixed c.scope
  if (← c.counter.upper s) < least then return .refuted
  else if most < (← c.counter.lower s) then return .refuted
  else if allFixed then return .entailed
  else return .undecided

instance : Propagator AmongPropagator where
  Note := Remark
  describe r := some r.render
  name _ := "Among"
  priority _ := .low
  conditions := conditions
  pass := pass
  notified p _ x events := p.notified x events
  entailment p s _ := AmongPropagator.entailment p.toAmong s

/-- What has to be said to add an Among propagator. The tracked values may be listed in any order
and repeatedly. -/
def posting (scope : List Variable) (counter : Variable) (tracked : List Int)
    (backPropagates : Bool) : Posting AmongPropagator where
  interests :=
    scope.zipIdx.map (fun (x, i) => ⟨x, .all, i⟩) ++ [⟨counter, .assignAndBounds, scope.length⟩]
  integers := [0]
  sets := [scope.length]
  build cell set := ⟨⟨scope, counter, Ascending.ofList tracked⟩, set 0, cell 0, backPropagates⟩

/-- The places of the scope that may count, in increasing order. -/
def possiblePlaces (p : AmongPropagator) (s : Cells) : Checked (List Nat) := do
  return (← s.members p.possible).mergeSort

/-- The number of variables that are sure to count. -/
def sureCount (p : AmongPropagator) (s : Cells) : Checked Int := s.read p.sure

end AmongPropagator

end Narrowing
