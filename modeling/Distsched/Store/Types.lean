/-
The messages of `proto/distsched/v1` that the scheduler stores and exchanges. Instants and
durations are integers in nanoseconds (an instant since the Unix epoch; a duration is cut to the
range of int64 where the source computes one), 32-bit counters are integers (the limit on attempts,
which a client sets, is kept in its range), doubles are rationals; an absent message field is `none`
and its getter's default is applied where the field is read.
-/
import Mathlib.Data.Rat.Defs
import Mathlib.Algebra.Group.Nat.Defs

namespace Distsched

inductive JobState
  | unspecified
  | pending
  | queued
  | running
  | succeeded
  | failed
  | canceled
  deriving DecidableEq, Repr

/-- The name that `String()` prints. -/
def JobState.name : JobState → String
  | .unspecified => "JOB_STATE_UNSPECIFIED"
  | .pending => "JOB_STATE_PENDING"
  | .queued => "JOB_STATE_QUEUED"
  | .running => "JOB_STATE_RUNNING"
  | .succeeded => "JOB_STATE_SUCCEEDED"
  | .failed => "JOB_STATE_FAILED"
  | .canceled => "JOB_STATE_CANCELED"

inductive WorkerState
  | unspecified
  | alive
  | suspect
  | dead
  deriving DecidableEq, Repr

inductive TaskResult
  | unspecified
  | succeeded
  | failed
  deriving DecidableEq, Repr

structure TaskSpec where
  command : String := ""
  args : List String := []
  env : List (String × String) := []
  timeout : Option Int := none
  payload : List UInt8 := []
  deriving DecidableEq

structure RetryPolicy where
  maxAttempts : Int32 := 0
  initialBackoff : Option Int := none
  maxBackoff : Option Int := none
  backoffMultiplier : ℚ := 0
  jitter : ℚ := 0
  deriving DecidableEq

/-- The `kind` of a schedule: one run at an instant, or a recurring cron expression. -/
inductive ScheduleKind
  | runAt (at_ : Int)
  | cronExpr (expr : String)
  deriving DecidableEq, Repr

structure Schedule where
  kind : Option ScheduleKind := none
  timezone : String := ""
  deriving DecidableEq, Repr

def Schedule.getCronExpr (s : Schedule) : String := match s.kind with
  | some (.cronExpr e) => e
  | _ => ""

def Schedule.getRunAt (s : Schedule) : Option Int := match s.kind with
  | some (.runAt t) => some t
  | _ => none

structure Job where
  id : String := ""
  name : String := ""
  priority : Int := 0
  spec : Option TaskSpec := none
  dependsOn : List String := []
  schedule : Option Schedule := none
  retryPolicy : Option RetryPolicy := none
  state : JobState := .unspecified
  attempt : Int := 0
  assignedWorkerId : String := ""
  lastError : String := ""
  createdAt : Option Int := none
  updatedAt : Option Int := none
  scheduledAt : Option Int := none
  startedAt : Option Int := none
  finishedAt : Option Int := none
  deriving DecidableEq

/-- `job.GetSchedule().GetCronExpr()`. -/
def Job.cronExpr (j : Job) : String := (j.schedule.map Schedule.getCronExpr).getD ""

/-- `job.GetSpec().GetCommand()`. -/
def Job.command (j : Job) : String := (j.spec.map TaskSpec.command).getD ""

structure WorkerInfo where
  id : String := ""
  address : String := ""
  capacity : Int := 0
  labels : List (String × String) := []
  state : WorkerState := .unspecified
  lastHeartbeat : Option Int := none
  runningTasks : Int := 0
  deriving DecidableEq, Repr

/-- An absent timestamp reads as the Unix epoch. -/
def asTime (t : Option Int) : Int := t.getD 0

/-- A Go `time.Time`: the instant, and the location in which its calendar fields are read. -/
structure Time where
  ns : Int
  loc : String
  deriving DecidableEq, Repr

/-- `AsTime` yields UTC. -/
def Time.utc (ns : Int) : Time := ⟨ns, "UTC"⟩

/-- The greatest `time.Duration`, about 292 years. -/
def maxDuration : Int := 9223372036854775807

/-- `Time.Sub` and `time.Until`: the duration from `u` to `t`, cut off at the ends of the range of int64. -/
def durationTo (t u : Int) : Int := max (-9223372036854775808) (min maxDuration (t - u))

/-- A timer for `t`, set at `n`, is not due before `v` if that is within the range. -/
theorem le_add_durationTo {t u v n : Int} (hu : u ≤ n) (h : v ≤ t) (hv : v ≤ n + maxDuration) :
    v ≤ n + durationTo t u := by
  simp only [durationTo, maxDuration] at *
  omega

/-- A duration below the greatest one. -/
def belowMax (d : Int) : Bool := -9223372036854775808 ≤ d ∧ d < maxDuration

theorem belowMax_iff {d : Int} : belowMax d = true ↔ -9223372036854775808 ≤ d ∧ d < maxDuration := by simp [belowMax]

theorem durationTo_le_iff {t u d : Int} (h : belowMax d = true) : durationTo t u ≤ d ↔ t - u ≤ d := by
  rw [belowMax_iff] at h
  simp only [durationTo, maxDuration] at *
  omega

/-- One change of the leader's durable state, as shipped to followers. -/
inductive Mutation
  | upsertJob (job : Job)
  | upsertWorker (worker : WorkerInfo)
  | deleteJobId (id : String)
  deriving DecidableEq

structure ReplicationEntry where
  seq : Int
  mutation : Option Mutation
  deriving DecidableEq

/-- Whether a job state is final. -/
def terminal : JobState → Bool
  | .succeeded | .failed | .canceled => true
  | _ => false

/-- The value of a 32-bit signed integer after wrapping. -/
def int32 (x : Int) : Int := Int.bmod x (2 ^ 32)

/-! ## gRPC statuses -/

inductive Code
  | invalidArgument
  | notFound
  | failedPrecondition
  | internal
  deriving DecidableEq, Repr

structure Status where
  code : Code
  message : String
  deriving DecidableEq, Repr

end Distsched
