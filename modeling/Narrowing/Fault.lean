/-!
How a run can be abandoned, and the machine widths that arithmetic has to respect. Values of domains
are 32-bit integers and trailed integers are 64-bit integers; a sum, difference or negation that
leaves its width is a fault, never a wrap-around. Only where an amount is taken for a value is it cut
down without a word. Faults are programming errors of the caller: nothing handles them, unlike the
refusals and contradictions that propagation works with.
-/

namespace Narrowing

/-- Why a run was abandoned. -/
inductive Fault where
  /-- The result of an addition, subtraction or negation does not fit its machine width. -/
  | overflow
  /-- An identifier or index names nothing. -/
  | outOfBounds
  /-- A precondition does not hold; some preconditions have a text of their own. -/
  | assertion (text : Option String)
  /-- A loop outlived the bound computed for it. -/
  | diverged
  deriving DecidableEq, Repr

/-- A computation without effects that may be abandoned. -/
abbrev Checked (α : Type) := Except Fault α

/-- A sequence of two computations that was not abandoned is one after the other. -/
theorem Checked.bind_eq_ok {α β : Type} {x : Checked α} {f : α → Checked β} {b : β}
    (h : x >>= f = .ok b) : ∃ a, x = .ok a ∧ f a = .ok b := by
  cases x with
  | ok a => exact ⟨a, rfl, h⟩
  | error e => exact nomatch h

/-- Insist on a precondition that has a text of its own. -/
def demand (condition : Bool) (text : String) : Checked Unit :=
  if condition then .ok () else .error (.assertion (some text))

/-- Insist on a precondition that has no text. -/
def demandSilently (condition : Bool) : Checked Unit :=
  if condition then .ok () else .error (.assertion none)

theorem demand_eq_ok {condition : Bool} {text : String} {u : Unit}
    (h : demand condition text = .ok u) : condition = true := by
  cases condition
  · exact nomatch h
  · rfl

theorem demandSilently_eq_ok {condition : Bool} {u : Unit}
    (h : demandSilently condition = .ok u) : condition = true := by
  cases condition
  · exact nomatch h
  · rfl

namespace Value

/-- The smallest value a domain can hold. -/
def least : Int := -2147483648

/-- The greatest value a domain can hold. -/
def greatest : Int := 2147483647

/-- A value is a 32-bit integer. -/
def InRange (v : Int) : Prop := least ≤ v ∧ v ≤ greatest

instance (v : Int) : Decidable (InRange v) := inferInstanceAs (Decidable (_ ∧ _))

/-- Accept a result that is a value. -/
def check (v : Int) : Checked Int :=
  if InRange v then .ok v else .error .overflow

/-- Cut a number down to a value: of its binary digits the lowest 32 are kept. -/
def truncate (n : Int) : Int := n.bmod 4294967296

/-- The number of different values, which bounds every listing of values. -/
def count : Nat := 4294967296

theorem check_eq_ok {v : Int} (h : InRange v) : check v = .ok v := by
  simp [check, h]

theorem eq_of_check {v w : Int} (h : check v = .ok w) : w = v := by
  unfold check at h
  split at h
  · exact (Except.ok.inj h).symm
  · exact nomatch h

theorem check_eq_overflow {v : Int} (h : ¬ InRange v) : check v = .error .overflow := by
  simp [check, h]

theorem inRange_truncate (n : Int) : InRange (truncate n) := by
  have hle := Int.le_bmod (x := n) (m := 4294967296) (by decide)
  have hlt := Int.bmod_lt (x := n) (m := 4294967296) (by decide)
  unfold InRange truncate least greatest
  omega

/-- A value is not cut down. -/
theorem truncate_eq {v : Int} (h : InRange v) : truncate v = v := by
  unfold InRange least greatest at h
  exact Int.bmod_eq_of_le (by omega) (by omega)

end Value

namespace Amount

/-- A trailed integer is a 64-bit integer. -/
def InRange (n : Int) : Prop := -9223372036854775808 ≤ n ∧ n ≤ 9223372036854775807

instance (n : Int) : Decidable (InRange n) := inferInstanceAs (Decidable (_ ∧ _))

/-- Accept a result that fits a trailed integer. -/
def check (n : Int) : Checked Int :=
  if InRange n then .ok n else .error .overflow

theorem check_eq_ok {n : Int} (h : InRange n) : check n = .ok n := by
  simp [check, h]

theorem eq_of_check {n m : Int} (h : check n = .ok m) : m = n := by
  unfold check at h
  split at h
  · exact (Except.ok.inj h).symm
  · exact nomatch h

end Amount

end Narrowing
