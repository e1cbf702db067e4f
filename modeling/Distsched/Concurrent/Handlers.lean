/-
Handlers that run at the same time: submissions, cancellations, polls, reports, requeued leases and promotions,
interleaved at their store calls and locked sections.
-/
import Distsched.Lib.Pool
import Distsched.Scheduler.Run

namespace Distsched.Concurrent

open Scheduler Prog

inductive Request
  | submitJob (job : Option Job)
  | cancelJob (jobID : String)
  | pollTask (workerID : String) (maxTasks : Int)
  | reportTask (taskID : String) (result : TaskResult) (error : String)
  | requeueLease (taskID reason : String)
  | tryPromote (jobID : String)

inductive Reply
  | submitted (r : Except Status String)
  | canceled (r : Except Status Job)
  | polled (r : Except Status (List TaskAssignment))
  | reported (r : Except Status Bool)
  | done

/-- The handler of a request. -/
def Request.prog (cfg : Config) (parseStandard : Cron) : Request → M Reply
  | .submitJob job => do pure (.submitted (← Scheduler.submitJob cfg parseStandard job))
  | .cancelJob jobID => do pure (.canceled (← Scheduler.cancelJob cfg jobID))
  | .pollTask workerID maxTasks => do pure (.polled (← Scheduler.pollTask cfg workerID maxTasks))
  | .reportTask taskID result error => do
    pure (.reported (← Scheduler.reportTask cfg parseStandard taskID result error))
  | .requeueLease taskID reason => do
    Scheduler.requeueLease parseStandard taskID reason
    pure .done
  | .tryPromote jobID => do
    Scheduler.tryPromote parseStandard jobID
    pure .done

/-- The handlers of the requests, about to begin in state `s`. -/
def handlers {γ : Type} (cfg : Config) (ps : Cron) (notes : Request → γ) (rs : List Request) (s : Server) :
    Pool Op Op.Resp Server γ Reply :=
  Pool.spawn (Request.prog cfg ps) notes rs s

end Distsched.Concurrent
