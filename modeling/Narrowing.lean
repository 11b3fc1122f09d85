import Narrowing.Among.Propagator
import Narrowing.Script
import Narrowing.Search
import Narrowing.Variable.Monitor
import Narrowing.Proofs.Domain.Members
import Narrowing.Proofs.Ending
import Narrowing.Proofs.Domain.Change
import Narrowing.Proofs.Domain.Creation
import Narrowing.Proofs.Domain.Plan
import Narrowing.Proofs.Domain.Store
import Narrowing.Proofs.Variable.Edits
import Narrowing.Proofs.Variable.Portrayal
import Narrowing.Proofs.Variable.Monitor
import Narrowing.Proofs.Domain.History
import Narrowing.Proofs.Domain.Listings
import Narrowing.Proofs.Domain.Losses
import Narrowing.Proofs.Variable.Answers
import Narrowing.Proofs.Variable.Restriction
import Narrowing.Proofs.Variable.Interval
import Narrowing.Proofs.Cell.Store
import Narrowing.Proofs.Variable.Hull
import Narrowing.Proofs.Propagator.Action
import Narrowing.Proofs.Among.Accounts
import Narrowing.Proofs.Among.Steps
import Narrowing.Proofs.Among.Pass
import Narrowing.Proofs.Among.Notified
import Narrowing.Proofs.Engine.Rounds
import Narrowing.Proofs.Engine.Run
import Narrowing.Proofs.Engine.Checkpoint
import Narrowing.Proofs.Among.Frame
import Narrowing.Proofs.Among.Knowledge
import Narrowing.Proofs.Among.Course
import Narrowing.Proofs.Among.Soundness
import Narrowing.Proofs.Among.Recount
import Narrowing.Proofs.Cell.Restoring
import Narrowing.Proofs.Cell.Snapshots
import Narrowing.Proofs.Cell.Records
import Narrowing.Proofs.Cell.Undoing
import Narrowing.Proofs.Engine.Restore
import Narrowing.Proofs.Engine.Termination
import Narrowing.Proofs.Engine.FirstPass
import Narrowing.Proofs.Among.Abreast
import Narrowing.Proofs.Among.Spared
import Narrowing.Proofs.Among.Support
import Narrowing.Proofs.Variable.Spent
import Narrowing.Proofs.Propagator.Success
import Narrowing.Proofs.Among.Spent
import Narrowing.Proofs.Among.Exhaustion
import Narrowing.Proofs.Among.Repetition
import Narrowing.Proofs.Engine.Arrival
import Narrowing.Proofs.Among.Spending
import Narrowing.Proofs.Variable.Verdict
import Narrowing.Proofs.Variable.Runs
import Narrowing.Proofs.Variable.Arithmetic
import Narrowing.Proofs.Domain.Reports
import Narrowing.Proofs.Variable.Lowering
import Narrowing.Proofs.Variable.Idempotence
import Narrowing.Proofs.Variable.Nested
import Narrowing.Proofs.Engine.Gathering
import Narrowing.Proofs.Engine.Deliveries
import Narrowing.Proofs.Engine.Turns
import Narrowing.Proofs.Among.Entailment
import Narrowing.Proofs.Propagator.Risk
import Narrowing.Proofs.Variable.Overrun
import Narrowing.Proofs.Variable.Remainder
import Narrowing.Proofs.Among.Strain
import Narrowing.Proofs.Among.Ownership
import Narrowing.Proofs.Engine.Abandonment
import Narrowing.Proofs.Among.Arrangement
import Narrowing.Proofs.Among.Abandonment
