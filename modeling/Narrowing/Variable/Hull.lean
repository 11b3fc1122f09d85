import Narrowing.Variable.Basic

/-!
The hull of what remains of a variable when some of its values have to go but only its bounds can
move: both bounds move inwards past the values that have to go. If all of them have to, the bounds
cross.
-/

namespace Narrowing.Variable

/-- Move a lower bound up: as long as the candidate lies within `limit` and has to go, the bound
moves right behind it and the next value of the variable is the candidate. At most `n` candidates
are looked at. -/
def raise (x : Variable) (s : Domains) (goes : Int → Bool) (limit : Int) :
    Nat → Option Int → Int → Checked Int
  | 0, _, _ => .error .diverged
  | _ + 1, none, bound => .ok bound
  | n + 1, some v, bound =>
    if v ≤ limit ∧ goes v then do
      let bound ← Value.check (v + 1)
      let candidate ← x.answer s _ (.next v)
      x.raise s goes limit n candidate bound
    else .ok bound

/-- Move an upper bound down: as long as the candidate lies within `limit` and has to go, the bound
moves right before it and the previous value of the variable is the candidate. At most `n`
candidates are looked at. -/
def sink (x : Variable) (s : Domains) (goes : Int → Bool) (limit : Int) :
    Nat → Option Int → Int → Checked Int
  | 0, _, _ => .error .diverged
  | _ + 1, none, bound => .ok bound
  | n + 1, some v, bound =>
    if limit ≤ v ∧ goes v then do
      let bound ← Value.check (v - 1)
      let candidate ← x.answer s _ (.previous v)
      x.sink s goes limit n candidate bound
    else .ok bound

/-- The bounds after the values that have to go were cut off at either end. -/
def hull (x : Variable) (s : Domains) (goes : Int → Bool) : Checked (Int × Int) := do
  let lo ← x.lower s
  let hi ← x.upper s
  let steps := (hi - lo).toNat + 2
  let lo' ← x.raise s goes hi steps (some lo) lo
  let hi' ← x.sink s goes lo' steps (some hi) hi
  return (lo', hi')

end Narrowing.Variable
