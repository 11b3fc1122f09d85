import Narrowing.Domain.Store

/-!
The absolute view of something that answers questions and obeys restrictions. Its values are the
absolute values of what it looks at: every question is answered by asking about both signs, and
every restriction becomes restrictions of what lies below.

Listings walk away from zero (or towards it) on both signs at once; a value met on both sides is
listed once.
-/

namespace Narrowing.Absolute

/-- The negation of a value. -/
def negate (v : Int) : Checked Int := Value.check (-v)

/-- The negation of a value that may be missing. -/
def negate? : Option Int → Checked (Option Int)
  | none => .ok none
  | some v => do return some (← negate v)

/-- Of two values that may be missing, the one that `better` picks. -/
def pick (better : Int → Int → Int) : Option Int → Option Int → Option Int
  | some a, some b => some (better a b)
  | some a, none => some a
  | none, b => b

variable (ask : Oracle)

/-- The smallest absolute value. Where the values straddle zero without containing it, it is one of
the two values next to zero. -/
def lower : Checked Int := do
  if ← ask _ (.contains 0) then return 0
  let lo ← ask _ .lower
  let hi ← ask _ .upper
  if 0 < lo then return lo
  else if hi < 0 then negate hi
  else
    let above := (← ask _ (.next 0)).getD hi
    let below := (← ask _ (.previous 0)).getD lo
    return min above (← negate below)

/-- The greatest absolute value. -/
def upper : Checked Int := do
  let lo ← ask _ .lower
  let hi ← ask _ .upper
  return max (← negate lo) hi

/-- A value is there when it or its negation is. -/
def contains (v : Int) : Checked Bool :=
  if v < 0 then .ok false
  else do
    if ← ask _ (.contains v) then return true
    ask _ (.contains (← negate v))

/-- The smallest absolute value above `v`. -/
def next (v : Int) : Checked (Option Int) :=
  if v < 0 then do return some (← lower ask)
  else do
    let above ← ask _ (.next v)
    let below ← negate? (← ask _ (.previous (← negate v)))
    return pick min above below

/-- The greatest absolute value below `v`. -/
def previous (v : Int) : Checked (Option Int) :=
  if v ≤ 0 then .ok none
  else do
    let above := (← ask _ (.previous v)).filter (0 ≤ ·)
    let below ← negate? ((← ask _ (.next (← negate v))).filter (· ≤ 0))
    return pick max above below

/-- At most `n` absolute values upwards; `positive` and `negative` are the next values on either
side of zero. -/
def climb : Nat → Option Int → Option Int → Checked (List Int)
  | 0, _, _ => .ok []
  | n + 1, positive, negative => do
    let opposite ← negate? negative
    match pick min positive opposite with
    | none => return []
    | some v =>
      let positive ← if positive = some v then ask _ (.next v) else pure positive
      let negative ← if opposite = some v then ask _ (.previous (-v)) else pure negative
      return v :: (← climb n positive negative)

/-- At most `n` absolute values downwards; `positive` and `negative` are the next values on either
side of zero. -/
def descend : Nat → Option Int → Option Int → Checked (List Int)
  | 0, _, _ => .ok []
  | n + 1, positive, negative => do
    let opposite ← negate? negative
    match pick max positive opposite with
    | none => return []
    | some v =>
      let positive ←
        if positive = some v then (·.filter (0 ≤ ·)) <$> ask _ (.previous v) else pure positive
      let negative ←
        if opposite = some v then (·.filter (· < 0)) <$> ask _ (.next (-v)) else pure negative
      return v :: (← descend n positive negative)

/-- The first `limit` absolute values upwards. -/
def ascending (limit : Nat) : Checked (List Int) := do
  let positive ← if ← ask _ (.contains 0) then pure (some 0) else ask _ (.next 0)
  let negative ← ask _ (.previous 0)
  climb ask limit positive negative

/-- The first `limit` absolute values downwards. -/
def descending (limit : Nat) : Checked (List Int) := do
  let hi ← ask _ .upper
  let lo ← ask _ .lower
  descend ask limit (if 0 ≤ hi then some hi else none) (if lo < 0 then some lo else none)

/-- What a run has of the values that are not negative. -/
def upperHalf (s : Span) : Option (Checked Span) :=
  if 0 ≤ s.last then some (.ok ⟨max s.first 0, s.last⟩) else none

/-- What a run has of the values that are not positive, turned over, unless it has no negative
value. -/
def lowerHalf (s : Span) : Option (Checked Span) :=
  if s.first < 0 then some (do return ⟨← negate (min s.last 0), ← negate s.first⟩) else none

/-- Two runs as one, when the second starts no later than right behind the first. -/
def joinUp (a b : Span) : Checked (Option Span) := do
  let behind ← Value.check (a.last + 1)
  return if b.first ≤ behind then some ⟨a.first, max a.last b.last⟩ else none

/-- Two runs as one, when the second ends no earlier than right before the first. -/
def joinDown (a b : Span) : Checked (Option Span) := do
  let behind ← Value.check (b.last + 1)
  return if a.first ≤ behind then some ⟨min a.first b.first, a.last⟩ else none

/-- The maximal runs of absolute values upwards. -/
def runs : Checked (Enumeration Span) := do
  let positive := (← ask _ .runs).filterMap upperHalf
  let negative := (← ask _ .runsDown).filterMap lowerHalf
  return (Enumeration.merge (fun a b => a.first ≤ b.first) positive negative).joinNeighbours joinUp

/-- The maximal runs of absolute values downwards. -/
def runsDown : Checked (Enumeration Span) := do
  let positive := (← ask _ .runsDown).filterMap upperHalf
  let negative := (← ask _ .runs).filterMap lowerHalf
  return (Enumeration.merge (fun a b => b.last ≤ a.last) positive negative).joinNeighbours joinDown

/-- Of some values, the absolute values that are not there. -/
def absent : List Int → Checked (List Int)
  | [] => .ok []
  | v :: rest => do
    let size ← Value.check v.natAbs
    let here ← contains ask size
    let others ← absent rest
    return if here then others else size :: others

/-- The absolute values lost since there were `position` changes on record, upwards. A value that is
lost below is lost to the view once its negation is gone as well. -/
def removedSince (position limit : Nat) : Checked (List Int) := do
  let lost ← ask _ (.removedSince position Value.count)
  return (Ascending.ofList (← absent ask lost)).take limit

/-- Answer a question about the absolute values. -/
def answer : (α : Type) → Query α → Checked α
  | _, .lower => lower ask
  | _, .upper => upper ask
  | _, .size => do return (← ascending ask Value.count).length
  | _, .enumerated => ask _ .enumerated
  | _, .contains v => contains ask v
  | _, .next v => next ask v
  | _, .previous v => previous ask v
  | _, .ascending limit => ascending ask limit
  | _, .descending limit => descending ask limit
  | _, .runs => runs ask
  | _, .runsDown => runsDown ask
  | _, .removedSince position limit => removedSince ask position limit

section Restrict

variable (view : (α : Type) → Query α → Restricting α) (inner : Restriction → Restricting Bool)

/-- A checked computation within a restriction. -/
def checked {α : Type} (c : Checked α) : Restricting α := fun s =>
  match c with
  | .ok a => .ok a s
  | .error f => .error (.fault f) s

/-- Take out everything closer to zero than `v`, which is positive. -/
def widenGap (v : Int) : Restricting Bool := do
  let lo ← checked (do Value.check ((← negate v) + 1))
  let hi ← checked (Value.check (v - 1))
  inner (.outside lo hi)

/-- Take out everything further from zero than `v`. -/
def clamp (v : Int) : Restricting Bool := do
  let upperChanged ← inner (.atMost v)
  let lowerChanged ← inner (.atLeast (← checked (negate v)))
  return upperChanged || lowerChanged

/-- Keep absolute values from `v` on. -/
def atLeast (v : Int) : Restricting Bool := do
  if v ≤ (← view _ .lower) then return false
  else if (← view _ .upper) < v then throw .empty
  else widenGap inner v

/-- Keep absolute values up to `v`. -/
def atMost (v : Int) : Restricting Bool := do
  if v < 0 then throw .empty
  else if v < (← view _ .lower) then throw .empty
  else if (← view _ .upper) ≤ v then return false
  else clamp inner v

/-- Take out `v` and its negation. -/
def without (v : Int) : Restricting Bool := do
  if !(← view _ (.contains v)) then return false
  else if (← view _ .lower) = (← view _ .upper) then throw .empty
  else
    let positive ← inner (.without v)
    if v = 0 then return positive
    let negative ← inner (.without (← checked (negate v)))
    return positive || negative

/-- Take out the values from `lo` to `hi` and their negations. -/
def outside (lo hi : Int) : Restricting Bool := do
  if hi < 0 ∨ hi < lo then return false
  let lo := max lo 0
  if lo ≤ (← view _ .lower) then
    if (← view _ .upper) ≤ hi then throw .empty
  let positive ← inner (.outside lo hi)
  let negative ← inner (.outside (← checked (negate hi)) (← checked (negate lo)))
  return positive || negative

/-- Keep `v` and its negation only. -/
def exactly (v : Int) : Restricting Bool := do
  if !(← view _ (.contains v)) then throw .empty
  else if v = 0 then inner (.exactly 0)
  else
    let clamped ← clamp inner v
    let widened ← widenGap inner v
    return clamped || widened

/-- Restrict what lies below so that the absolute values obey a restriction, and tell whether it
changed. `view` answers questions about the absolute values. -/
def restrict : Restriction → Restricting Bool
  | .atLeast v => atLeast view inner v
  | .atMost v => atMost view inner v
  | .without v => without view inner v
  | .outside lo hi => outside view inner lo hi
  | .exactly v => exactly view inner v

end Restrict

end Narrowing.Absolute
