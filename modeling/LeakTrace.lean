import LeakTrace.Input.Collaborators
import LeakTrace.Lifecycle.Scenario
import LeakTrace.Proofs.Alias.Finishing
import LeakTrace.Proofs.Alias.Independence
import LeakTrace.Proofs.Alike.Flows
import LeakTrace.Proofs.Announcements
import LeakTrace.Proofs.Assignments.InstanceTests
import LeakTrace.Proofs.Batches
import LeakTrace.Proofs.Calls.Coverage
import LeakTrace.Proofs.Calls.ReturnSearches
import LeakTrace.Proofs.ControlFlow
import LeakTrace.Proofs.Dispatch.Signatures
import LeakTrace.Proofs.Entailment
import LeakTrace.Proofs.GlobalTaints
import LeakTrace.Proofs.Graph.Reverse
import LeakTrace.Proofs.Graph.Summaries
import LeakTrace.Proofs.Lifecycle.Cancellation
import LeakTrace.Proofs.Lifecycle.Completion
import LeakTrace.Proofs.Path.Histories
import LeakTrace.Proofs.ResultLimit
import LeakTrace.Proofs.ResultStore
import LeakTrace.Proofs.Solve.Exits
import LeakTrace.Proofs.Solve.Limit
import LeakTrace.Proofs.Solve.Origins
import LeakTrace.Proofs.Solve.Stopping
import LeakTrace.Proofs.Startup
import LeakTrace.Proofs.Types.Casts
import LeakTrace.Session.Args
