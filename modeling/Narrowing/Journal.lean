import Narrowing.Engine.Notifier

/-!
The journal: what an engine did, as far as it says so. Entries are kept as data and put into words
only when someone reads them. Propagators may leave notes of a type of their own.
-/

namespace Narrowing

/-- How much detail an entry is about. -/
inductive Severity where
  | debug
  | trace
  deriving DecidableEq, Repr

/-- The name of a severity. -/
def Severity.name : Severity → String
  | .debug => "DEBUG"
  | .trace => "TRACE"

/-- An entry; `ν` is the type of notes. -/
inductive Message (ν : Type) where
  | added (name : String) (id : PropagatorId)
  | entered (level : Nat)
  | restored (level domainChanges cellChanges : Nat)
  | contradicted (level : Nat) (reason : Contradiction)
  | notified (notice : Notice)
  | note (content : ν)
  deriving DecidableEq

namespace Message

/-- An entry in words. `describe` puts notes into words; a note for which it has none is not for
reading. -/
def render {ν : Type} (describe : ν → Option String) : Message ν → Option (Severity × String)
  | .added name id => some (.debug, s!"added {name} as {id.render}")
  | .entered level => some (.debug, s!"entered checkpoint {level}")
  | .restored level domainChanges cellChanges =>
    some (.debug, s!"restored to checkpoint {level}: undid {domainChanges} domain changes and " ++
      s!"{cellChanges} trailed changes")
  | .contradicted level reason =>
    some (.debug, s!"contradiction at checkpoint {level}: {reason.render}")
  | .notified ⟨o, listener, events⟩ =>
    some (.trace, s!"{o.domain.render} changed by {o.cause.render}: notify " ++
      s!"{listener.propagator.render} (local id {listener.localId}) of {events.render}")
  | .note content => (describe content).map fun text => (.trace, text)

end Message

end Narrowing
