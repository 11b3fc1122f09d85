import Narrowing.Ascending
import Narrowing.Domain.Query
import Narrowing.Event

/-!
The domain of one variable: the values it may still take. A domain of interval shape holds every
value between its bounds. A domain of listed shape keeps one bit for every value between the bounds
it started with; bits of values that were cut off by a bound stay as they are, so that undoing a
change of the bounds brings those values back.

Restrictions are planned before they are made: `plan` says which changes a restriction comes down
to, `apply` and `undo` carry one change out and take it back.
-/

namespace Narrowing

/-- How membership between the bounds is kept. -/
inductive Shape where
  /-- Every value between the bounds is in the domain. -/
  | interval
  /-- `present` at `i` tells whether `offset + i` is in the domain, the bounds aside. -/
  | listed (offset : Int) (present : Array Bool)
  deriving DecidableEq

/-- The values between `lower` and `upper` that the shape has as present, `size` of them. -/
structure Domain where
  shape : Shape
  lower : Int
  upper : Int
  size : Nat
  deriving DecidableEq

/-- One change of a domain, with what is needed to take it back. -/
inductive Change where
  /-- The bounds moved inwards. -/
  | narrowed (fromLower fromUpper toLower toUpper : Int) (fromSize toSize : Nat)
  /-- A value strictly between the bounds was removed. -/
  | punctured (v : Int)
  deriving DecidableEq, Repr

/-- The events by which a change is reported. -/
def Change.events : Change → EventSet
  | .narrowed fromLower fromUpper toLower toUpper _ _ =>
    { assign := toLower = toUpper, lowerBound := fromLower < toLower,
      upperBound := toUpper < fromUpper }
  | .punctured _ => .single .removal

namespace Domain

/-- The domain of all values from `lo` to `hi`, of which only the bounds are kept. -/
def interval (lo hi : Int) : Domain := ⟨.interval, lo, hi, (hi - lo + 1).toNat⟩

/-- The domain of exactly the listed values; there has to be one. -/
def listed (values : List Int) : Option Domain :=
  let values := Ascending.ofList values
  match values.head?, values.getLast? with
  | some lo, some hi =>
    let absent := Array.replicate (hi - lo + 1).toNat false
    let present := values.foldl (fun bits v => bits.setIfInBounds (v - lo).toNat true) absent
    some ⟨.listed lo present, lo, hi, values.length⟩
  | _, _ => none

/-- The domain of all values from `lo` to `hi`, any of which can be lost; there has to be one. -/
def full (lo hi : Int) : Option Domain :=
  let size := (hi - lo + 1).toNat
  if lo ≤ hi then some ⟨.listed lo (Array.replicate size true), lo, hi, size⟩ else none

/-- Whether values between the bounds can be missing. -/
def enumerated (d : Domain) : Bool :=
  match d.shape with
  | .interval => false
  | .listed _ _ => true

/-- Membership, the bounds aside. -/
def isPresent (d : Domain) (v : Int) : Checked Bool :=
  match d.shape with
  | .interval => .ok true
  | .listed offset present =>
    if v < offset then .error .outOfBounds
    else match present[(v - offset).toNat]? with
      | some bit => .ok bit
      | none => .error .outOfBounds

/-- Membership. -/
def contains (d : Domain) (v : Int) : Checked Bool :=
  if d.lower ≤ v ∧ v ≤ d.upper then d.isPresent v else .ok false

/-- The first present value among the `n` values from `v` upwards. -/
def seekUp (d : Domain) : Nat → Int → Checked (Option Int)
  | 0, _ => .ok none
  | n + 1, v => do if ← d.isPresent v then return some v else d.seekUp n (v + 1)

/-- The first present value among the `n` values from `v` downwards. -/
def seekDown (d : Domain) : Nat → Int → Checked (Option Int)
  | 0, _ => .ok none
  | n + 1, v => do if ← d.isPresent v then return some v else d.seekDown n (v - 1)

/-- The smallest value above `v`. -/
def next (d : Domain) (v : Int) : Checked (Option Int) :=
  if v < d.lower then .ok (some d.lower)
  else if d.upper ≤ v then .ok none
  else do d.seekUp (d.upper - v).toNat (← Value.check (v + 1))

/-- The greatest value below `v`. -/
def previous (d : Domain) (v : Int) : Checked (Option Int) :=
  if d.upper < v then .ok (some d.upper)
  else if v ≤ d.lower then .ok none
  else d.seekDown (v - d.lower).toNat (v - 1)

/-- The first `limit` present values among the `n` values from `v` upwards. -/
def listUp (d : Domain) : Nat → Nat → Int → Checked (List Int)
  | 0, _, _ => .ok []
  | _ + 1, 0, _ => .ok []
  | n + 1, limit + 1, v => do
    if ← d.isPresent v then return v :: (← d.listUp n limit (v + 1))
    else d.listUp n (limit + 1) (v + 1)

/-- The first `limit` present values among the `n` values from `v` downwards. -/
def listDown (d : Domain) : Nat → Nat → Int → Checked (List Int)
  | 0, _, _ => .ok []
  | _ + 1, 0, _ => .ok []
  | n + 1, limit + 1, v => do
    if ← d.isPresent v then return v :: (← d.listDown n limit (v - 1))
    else d.listDown n (limit + 1) (v - 1)

/-- The number of values from the lower to the upper bound, missing ones included. -/
def width (d : Domain) : Nat := (d.upper - d.lower + 1).toNat

/-- The first `limit` values upwards. -/
def ascending (d : Domain) (limit : Nat) : Checked (List Int) := d.listUp d.width limit d.lower

/-- The first `limit` values downwards. -/
def descending (d : Domain) (limit : Nat) : Checked (List Int) := d.listDown d.width limit d.upper

/-- Go up from `v` as long as the next of at most `n` values is present. -/
def climb (d : Domain) : Nat → Int → Checked Int
  | 0, v => .ok v
  | n + 1, v => do
    let above ← Value.check (v + 1)
    if ← d.isPresent above then d.climb n above else return v

/-- Go down from `v` as long as the next of at most `n` values is present. -/
def descend (d : Domain) : Nat → Int → Checked Int
  | 0, v => .ok v
  | n + 1, v => do
    let below ← Value.check (v - 1)
    if ← d.isPresent below then d.descend n below else return v

/-- The last value of the run of consecutive values that starts at `v`. -/
def endOfRun (d : Domain) (v : Int) : Checked Int :=
  match d.shape with
  | .interval => .ok d.upper
  | .listed _ _ => d.climb (d.upper - v).toNat v

/-- The first value of the run of consecutive values that ends at `v`. -/
def startOfRun (d : Domain) (v : Int) : Checked Int :=
  match d.shape with
  | .interval => .ok d.lower
  | .listed _ _ => d.descend (v - d.lower).toNat v

/-- Where the run that starts at `first` ends, and where the next run starts. -/
def runStartingAt (d : Domain) (first : Int) : Checked (Int × Option Int) := do
  let last ← d.endOfRun first
  return (last, ← d.next last)

/-- Where the run that ends at `last` starts, and where the run before it ends. -/
def runEndingAt (d : Domain) (last : Int) : Checked (Int × Option Int) := do
  let first ← d.startOfRun last
  return (first, ← d.previous first)

/-- The runs upwards from the one that starts at `first`, at most `n` of them. -/
def runsFrom (d : Domain) : Nat → Int → Enumeration Span
  | 0, _ => .fault .diverged
  | n + 1, first =>
    match d.runStartingAt first with
    | .error f => .fault f
    | .ok (last, none) => .item ⟨first, last⟩ .done
    | .ok (last, some following) => .item ⟨first, last⟩ (d.runsFrom n following)

/-- The runs downwards from the one that ends at `last`, at most `n` of them. -/
def runsDownFrom (d : Domain) : Nat → Int → Enumeration Span
  | 0, _ => .fault .diverged
  | n + 1, last =>
    match d.runEndingAt last with
    | .error f => .fault f
    | .ok (first, none) => .item ⟨first, last⟩ .done
    | .ok (first, some following) => .item ⟨first, last⟩ (d.runsDownFrom n following)

/-- The maximal runs of consecutive values upwards. -/
def runs (d : Domain) : Enumeration Span := d.runsFrom d.width d.lower

/-- The maximal runs of consecutive values downwards. -/
def runsDown (d : Domain) : Enumeration Span := d.runsDownFrom d.width d.upper

/-- The number of present values among the `n` values from `v` upwards, on top of those `counted`
before. -/
def countUp (d : Domain) : Nat → Int → Nat → Checked Nat
  | 0, _, counted => .ok counted
  | n + 1, v, counted => do
    d.countUp n (v + 1) (if ← d.isPresent v then counted + 1 else counted)

/-- The number of present values from `lo` to `hi`. -/
def countPresent (d : Domain) (lo hi : Int) : Checked Nat :=
  if hi < lo then .ok 0
  else match d.shape with
    | .interval => .ok (hi - lo + 1).toNat
    | .listed _ _ => d.countUp (hi - lo + 1).toNat lo 0

/-- The values that a lower bound of `lo` cuts off. -/
def countBelow (d : Domain) (lo : Int) : Checked Nat :=
  if d.lower < lo then do d.countPresent d.lower (← Value.check (lo - 1)) else .ok 0

/-- The values that an upper bound of `hi` cuts off. -/
def countAbove (d : Domain) (hi : Int) : Checked Nat :=
  if hi < d.upper then do d.countPresent (← Value.check (hi + 1)) d.upper else .ok 0

/-- The change of the bounds to `lo` and `hi`. -/
def narrow (d : Domain) (lo hi : Int) : Checked Change := do
  let cut := (← d.countBelow lo) + (← d.countAbove hi)
  if d.size < cut then .error .overflow
  else return .narrowed d.lower d.upper lo hi d.size (d.size - cut)

/-- What a lower bound of `v` comes down to: the bound moves up to the first value that is there. -/
def planAtLeast (d : Domain) (v : Int) : Except Refusal (List Change) :=
  if v ≤ d.lower then .ok []
  else if d.upper < v then .error .empty
  else Refusal.guard do
    let first ← d.seekUp (d.upper - v + 1).toNat v
    return [← d.narrow (first.getD d.upper) d.upper]

/-- What an upper bound of `v` comes down to: the bound moves down to the first value that is there.
-/
def planAtMost (d : Domain) (v : Int) : Except Refusal (List Change) :=
  if d.upper ≤ v then .ok []
  else if v < d.lower then .error .empty
  else Refusal.guard do
    let first ← d.seekDown (v - d.lower + 1).toNat v
    return [← d.narrow d.lower (first.getD d.lower)]

/-- What the removal of `v` comes down to. A value between the bounds of an interval stays. -/
def planWithout (d : Domain) (v : Int) : Except Refusal (List Change) := do
  if !(← Refusal.guard (d.contains v)) then return []
  else if d.lower = d.upper then throw .empty
  else if v = d.lower then d.planAtLeast (← Refusal.guard (Value.check (v + 1)))
  else if v = d.upper then d.planAtMost (← Refusal.guard (Value.check (v - 1)))
  else if d.enumerated then return [.punctured v]
  else return []

/-- What the removal of the values from `lo` to `hi` comes down to. Values between the bounds of an
interval stay unless a bound is among those that go. -/
def planOutside (d : Domain) (lo hi : Int) : Except Refusal (List Change) :=
  if hi < lo ∨ hi < d.lower ∨ d.upper < lo then .ok []
  else if lo ≤ d.lower ∧ d.upper ≤ hi then .error .empty
  else if lo ≤ d.lower then do d.planAtLeast (← Refusal.guard (Value.check (hi + 1)))
  else if d.upper ≤ hi then do d.planAtMost (← Refusal.guard (Value.check (lo - 1)))
  else if d.enumerated then Refusal.guard do
    let width := (hi - lo + 1).toNat
    return (← d.listUp width width lo).map .punctured
  else .ok []

/-- What the choice of `v` comes down to. -/
def planExactly (d : Domain) (v : Int) : Except Refusal (List Change) := do
  if !(← Refusal.guard (d.contains v)) then throw .empty
  else if d.lower = d.upper then return []
  else Refusal.guard do return [← d.narrow v v]

/-- The changes that a restriction comes down to. A restriction that would leave nothing is refused.
-/
def plan (d : Domain) : Restriction → Except Refusal (List Change)
  | .atLeast v => d.planAtLeast v
  | .atMost v => d.planAtMost v
  | .without v => d.planWithout v
  | .outside lo hi => d.planOutside lo hi
  | .exactly v => d.planExactly v

/-- Set whether a value is present, which leaves `size` values. -/
def setPresent (d : Domain) (v : Int) (bit : Bool) (size : Nat) : Domain :=
  match d with
  | ⟨.interval, lower, upper, _⟩ => ⟨.interval, lower, upper, size⟩
  | ⟨.listed offset present, lower, upper, _⟩ =>
    ⟨.listed offset (present.setIfInBounds (v - offset).toNat bit), lower, upper, size⟩

/-- Carry out a change. -/
def apply (d : Domain) : Change → Domain
  | .narrowed _ _ lo hi _ size => { d with lower := lo, upper := hi, size := size }
  | .punctured v => d.setPresent v false (d.size - 1)

/-- Take back a change. -/
def undo (d : Domain) : Change → Domain
  | .narrowed lo hi _ _ size _ => { d with lower := lo, upper := hi, size := size }
  | .punctured v => d.setPresent v true (d.size + 1)

/-- The values that a change cost the domain, with the first `limit` of them listed: a removed value
as it is, those cut off by a bound as far as they are present now, the ones below first. -/
def lostTo (d : Domain) (limit : Nat) : Change → Checked (List Int)
  | .narrowed fromLower fromUpper toLower toUpper _ _ => do
    let below ← d.listUp (toLower - fromLower).toNat limit fromLower
    let above ← d.listUp (fromUpper - toUpper).toNat (limit - below.length) (toUpper + 1)
    return below ++ above
  | .punctured v => return [v].take limit

/-- The values that a series of changes cost the domain, the first `limit` of them. -/
def lostToAll (d : Domain) (limit : Nat) : List Change → Checked (List Int)
  | [] => .ok []
  | change :: rest => do
    let lost ← d.lostTo limit change
    return lost ++ (← d.lostToAll (limit - lost.length) rest)

theorem contains_of_lt_lower {d : Domain} {v : Int} (h : v < d.lower) :
    d.contains v = .ok false := by
  simp [contains, Int.not_le.2 h]

theorem contains_of_upper_lt {d : Domain} {v : Int} (h : d.upper < v) :
    d.contains v = .ok false := by
  simp [contains, Int.not_le.2 h]

theorem isPresent_of_interval {d : Domain} (h : d.shape = .interval) (v : Int) :
    d.isPresent v = .ok true := by
  simp [isPresent, h]

end Domain

end Narrowing
