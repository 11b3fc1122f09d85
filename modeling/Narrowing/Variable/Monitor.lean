import Narrowing.Variable.Basic

/-!
Monitors report which values a variable lost since their owner last looked. A monitor remembers how
many changes were on record at that time. When changes are taken back the record can become shorter
than that; the owner then has to move the monitor back to the end of the record.
-/

namespace Narrowing

/-- A variable, and the number of changes that were on record when it was last looked at. -/
structure Monitor where
  subject : Variable
  position : Nat
  deriving DecidableEq, Repr

namespace Monitor

/-- A monitor for what is lost from now on. -/
def start (subject : Variable) (s : Domains) : Monitor := ⟨subject, s.position⟩

/-- The values lost since the monitor last moved, the first `limit` of them. -/
def lost (m : Monitor) (s : Domains) (limit : Nat) : Checked (List Int) :=
  m.subject.answer s _ (.removedSince m.position limit)

/-- Take everything lost so far as seen. -/
def advance (m : Monitor) (s : Domains) : Monitor := { m with position := s.position }

/-- Move back to the end of the record after changes were taken back. -/
def clamp (m : Monitor) (s : Domains) : Monitor := { m with position := min m.position s.position }

end Monitor

end Narrowing
