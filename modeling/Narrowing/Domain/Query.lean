import Narrowing.Enumeration

/-!
The questions that can be asked about the values a variable may take, and the restrictions that can
be put on them. Domains answer and obey them from what they store; views turn them into questions
to, and restrictions of, the variable they look at.
-/

namespace Narrowing

/-- A run of consecutive values. -/
structure Span where
  first : Int
  last : Int
  deriving DecidableEq, Repr

/-- A question about the current values, indexed by the type of its answer. Listings give at most
`limit` values. -/
inductive Query : Type → Type where
  /-- The smallest value. -/
  | lower : Query Int
  /-- The greatest value. -/
  | upper : Query Int
  /-- The number of values. -/
  | size : Query Nat
  /-- Whether values between the bounds can be missing. -/
  | enumerated : Query Bool
  /-- Whether `v` is among the values. -/
  | contains (v : Int) : Query Bool
  /-- The smallest value above `v`. -/
  | next (v : Int) : Query (Option Int)
  /-- The greatest value below `v`. -/
  | previous (v : Int) : Query (Option Int)
  /-- The values upwards. -/
  | ascending (limit : Nat) : Query (List Int)
  /-- The values downwards. -/
  | descending (limit : Nat) : Query (List Int)
  /-- The maximal runs of consecutive values upwards. -/
  | runs : Query (Enumeration Span)
  /-- The maximal runs of consecutive values downwards. -/
  | runsDown : Query (Enumeration Span)
  /-- The values lost since there were `position` changes of domains on record. -/
  | removedSince (position limit : Nat) : Query (List Int)

/-- Something that answers questions. -/
abbrev Oracle := ∀ α : Type, Query α → Checked α

/-- A demand on the values that may stay. -/
inductive Restriction where
  | atLeast (v : Int)
  | atMost (v : Int)
  | without (v : Int)
  /-- Neither `lo`, nor `hi`, nor anything between them. -/
  | outside (lo hi : Int)
  | exactly (v : Int)
  deriving DecidableEq, Repr

namespace Restriction

/-- Whether a value may stay. -/
def Allows : Restriction → Int → Prop
  | .atLeast v, x => v ≤ x
  | .atMost v, x => x ≤ v
  | .without v, x => x ≠ v
  | .outside lo hi, x => ¬ (lo ≤ x ∧ x ≤ hi)
  | .exactly v, x => x = v

instance (r : Restriction) (x : Int) : Decidable (r.Allows x) := by
  cases r <;> unfold Allows <;> infer_instance

end Restriction

/-- Why a restriction did not take effect. -/
inductive Refusal where
  /-- Nothing would be left. -/
  | empty
  | fault (f : Fault)
  deriving DecidableEq, Repr

/-- A checked computation within a restriction. -/
def Refusal.guard {α : Type} : Checked α → Except Refusal α
  | .ok a => .ok a
  | .error f => .error (.fault f)

end Narrowing
