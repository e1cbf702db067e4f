/-
The handlers of a scheduler node: dispatch and reports (`dispatch.go`), the reaper
(`recovery.go`), the job and worker services (`job.go`, `worker.go`), and recovery of the scheduling
state (`server.go`).
-/
import Distsched.Scheduler.Deps

namespace Distsched.Scheduler

section

variable (cfg : Config) (parseStandard : Cron)

/-! ## Leadership -/

def leaderAddr : M String := do
  let id ← act .leaderID
  pure ((cfg.members.reverse.lookup id).getD "")

def notLeaderError (leaderAddr : String) : Status :=
  ⟨.failedPrecondition, "not leader; leader_addr=" ++ leaderAddr⟩

/-- The error to return if this node does not lead. -/
def requireLeader : M (Option Status) := do
  if ← isLeader then pure none
  else
    let addr ← leaderAddr cfg
    pure (some (notLeaderError addr))

theorem requireLeader_leading {env : Env} {s : Server} (h : s.node.isLeader = true) :
    Prog.Sat (handle env) (requireLeader cfg) s fun r s' => r = none ∧ s' = s.ticked := by
  refine Prog.Sat.bind (Q := fun r s₁ => r = true ∧ s₁ = s.ticked) ⟨h, rfl⟩ ?_
  rintro _ _ ⟨rfl, rfl⟩
  exact ⟨rfl, rfl⟩

theorem requireLeader_frame {env : Env} (s : Server) :
    Prog.Sat (handle env) (requireLeader cfg) s fun _ s' => ∃ t, s' = { s with tick := t } := by
  refine Prog.Sat.bind (Q := fun _ s₁ => s₁ = s.ticked) rfl ?_
  rintro leads _ rfl
  cases leads with
  | true => exact ⟨_, rfl⟩
  | false => exact ⟨_, rfl⟩

/-! ## Dispatch -/

/-- The most tasks one poll may lease. -/
def maxBatch : Nat := 64

structure TaskAssignment where
  taskId : String
  jobId : String
  attempt : Int
  spec : Option TaskSpec
  leaseDeadline : Int
  deriving DecidableEq

/-- A job as it is handed to a worker. -/
def dispatched (job : Job) (workerID : String) (now : Int) : Job :=
  { job with
    state := .running, attempt := int32 (job.attempt + 1), assignedWorkerId := workerID, scheduledAt := none,
    startedAt := some now, updatedAt := some now }

/-- The loop of `PollTask`. -/
def pollLoop (workerID : String) (now : Int) (n : Nat) : Nat → List TaskAssignment → M (List TaskAssignment)
  | 0, out => pure out
  | fuel + 1, out =>
    if out.length < n then do
      match ← Queue.pop with
      | none => pure out
      | some jobID =>
        match ← Db.getJob jobID with
        | .error _ => pollLoop workerID now n fuel out
        | .ok job =>
          if job.state ≠ .queued then pollLoop workerID now n fuel out
          else
            let taskID ← newID "task"
            let deadline := now + cfg.leaseTTL
            let job := dispatched job workerID now
            match ← putJob job with
            | .error _ =>
              let _ ← Queue.push jobID job.priority (asTime job.createdAt)
              pure out
            | .ok () =>
              addLease ⟨taskID, jobID, workerID, job.attempt, deadline⟩
              pollLoop workerID now n fuel (out ++ [⟨taskID, jobID, job.attempt, job.spec, deadline⟩])
    else pure out

/-- The batch size of a poll, from the requested one. -/
def batchSize (maxTasks : Int) : Nat := min (if maxTasks ≤ 0 then 1 else maxTasks.toNat) maxBatch

def pollTask (workerID : String) (maxTasks : Int) : M (Except Status (List TaskAssignment)) := do
  match ← requireLeader cfg with
  | some e => pure (.error e)
  | none =>
    match ← act (.getCached workerID) with
    | none => pure (.error ⟨.failedPrecondition, "unknown worker " ++ workerID.quote ++ "; re-register"⟩)
    | some _ =>
      let now ← timeNow
      let bound ← act .queueBound
      let out ← pollLoop cfg workerID now.ns (batchSize maxTasks) (bound + 1) []
      pure (.ok out)

/-- The record of a job that waits for its next attempt. -/
def retried (job : Job) (now delay : Int) : Job :=
  { job with state := .queued, scheduledAt := some (now + delay) }

/-- Schedules a backoff retry, or dead-letters the job once its attempts are used up. -/
def handleFailure (job : Job) (errMsg : String) (now : Time) : M (Except Status Unit) := do
  let job := { job with lastError := errMsg, assignedWorkerId := "", updatedAt := some now.ns }
  if job.attempt < Retry.maxAttempts job.retryPolicy then
    let chance ← act .float64
    let delay := Retry.backoff job.retryPolicy job.attempt chance
    match ← putJob (retried job now.ns delay) with
    | .error e => pure (.error ⟨.internal, "persist retry: " ++ e⟩)
    | .ok () =>
      armEnqueue job.id delay
      pure (.ok ())
  else
    let (rescheduled, job) ← maybeRescheduleCron parseStandard job now
    if rescheduled then pure (.ok ())
    else
      let job := { job with state := .failed, finishedAt := some now.ns }
      match ← Db.putDeadLetter job with
      | .error e => pure (.error ⟨.internal, "persist dead-letter: " ++ e⟩)
      | .ok () =>
        match ← putJob job with
        | .error e => pure (.error ⟨.internal, "persist failure: " ++ e⟩)
        | .ok () =>
          removeFromIndex job.id
          cancelCascade job.id (upstreamFailed job.id)
          pure (.ok ())

/-- The record of a job that has succeeded. -/
def completed (job : Job) (now : Int) : Job :=
  { job with
    state := .succeeded, assignedWorkerId := "", lastError := "", finishedAt := some now, updatedAt := some now }

/-- The success branch of `ReportTask`. -/
def reportSuccess (taskID : String) (job : Job) (now : Time) : M (Except Status Bool) := do
  removeLease taskID
  let (rescheduled, job) ← maybeRescheduleCron parseStandard job now
  if rescheduled then pure (.ok true)
  else
    match ← putJob (completed job now.ns) with
    | .error e => pure (.error ⟨.internal, "persist success: " ++ e⟩)
    | .ok () =>
      removeFromIndex job.id
      promoteDependents parseStandard job.id
      pure (.ok true)

/-- Records the result of a leased task; returns the acknowledgement. -/
def reportTask (taskID : String) (result : TaskResult) (error : String) : M (Except Status Bool) := do
  match ← requireLeader cfg with
  | some e => pure (.error e)
  | none =>
    match ← getLease taskID with
    | none => pure (.ok true)
    | some ls =>
      match ← Db.getJob ls.jobID with
      | .error _ =>
        removeLease taskID
        pure (.ok true)
      | .ok job =>
        if job.state ≠ .running then
          removeLease taskID
          pure (.ok true)
        else
          let now ← timeNow
          match result with
          | .succeeded => reportSuccess parseStandard taskID job now
          | .failed =>
            match ← handleFailure parseStandard job error now with
            | .error e => pure (.error e)
            | .ok () =>
              removeLease taskID
              pure (.ok true)
          | .unspecified => pure (.error ⟨.invalidArgument, "task result is required"⟩)

/-! ## Workers -/

/-- Persists a worker, hands it to replication and refreshes the cache. -/
def putWorker (w : WorkerInfo) : M (Except String Unit) := do
  match ← Db.putWorker w with
  | .error e => pure (.error e)
  | .ok () =>
    appendRepl (.upsertWorker w)
    act (.cacheWorker w)
    pure (.ok ())

theorem putWorker_frame {env : Env} (w : WorkerInfo) (s : Server) : Prog.Sat (handle env) (putWorker w) s fun _ s' =>
    s'.leases = s.leases ∧ s'.store.jobs = s.store.jobs ∧
      (s'.workers = s.workers ∨ s'.workers = s.workers.insert w.id w) := by
  have hput : Prog.Sat (handle env) (Db.putWorker w) s fun _ s₁ =>
      s₁.leases = s.leases ∧ s₁.store.jobs = s.store.jobs ∧ s₁.workers = s.workers := by
    unfold Prog.Sat
    simp only [Db.putWorker, act, Prog.exec_perform, handle, Server.write]
    split <;> exact ⟨rfl, rfl, rfl⟩
  refine hput.bind ?_
  rintro r s₁ ⟨hl, hj, hw⟩
  cases r with
  | error e => exact ⟨hl, hj, .inl hw⟩
  | ok u =>
    refine (appendRepl_frame _ s₁).bind fun _ s₂ h₂ => ?_
    rw [h₂]
    exact ⟨hl, hj, .inr (congrArg (·.insert w.id w) hw)⟩

/-- The ID of a registering worker: its own, or a new one. -/
def workerIDFor (w : WorkerInfo) : M String := if w.id = "" then newID "worker" else pure w.id

/-- Returns the worker's ID and the address of this node. -/
def registerWorker (worker : Option WorkerInfo) : M (Except Status (String × String)) := do
  match ← requireLeader cfg with
  | some e => pure (.error e)
  | none =>
    match worker with
    | none => pure (.error ⟨.invalidArgument, "worker is required"⟩)
    | some w =>
      let id ← workerIDFor w
      let now ← timeNow
      let w := { w with
        id := id, capacity := if w.capacity ≤ 0 then 1 else w.capacity, state := .alive,
        lastHeartbeat := some now.ns, runningTasks := 0 }
      match ← putWorker w with
      | .error e => pure (.error ⟨.internal, "persist worker: " ++ e⟩)
      | .ok () => pure (.ok (w.id, (cfg.members.reverse.lookup cfg.nodeID).getD ""))

/-- Returns whether the worker is known. -/
def heartbeat (workerID : String) (runningTasks : Nat) : M (Except Status Bool) := do
  match ← requireLeader cfg with
  | some e => pure (.error e)
  | none =>
    match ← act (.getCached workerID) with
    | none => pure (.ok false)
    | some cur =>
      let now ← timeNow
      match ← putWorker { cur with
        state := .alive, lastHeartbeat := some now.ns, runningTasks := int32 runningTasks } with
      | .error e => pure (.error ⟨.internal, "persist heartbeat: " ++ e⟩)
      | .ok () => pure (.ok true)

/-! ## The reaper -/

/-- Drops a lease and treats its attempt as failed. -/
def requeueLease (taskID reason : String) : M Unit := do
  match ← getLease taskID with
  | none => pure ()
  | some l =>
    removeLease taskID
    match ← Db.getJob l.jobID with
    | .error _ => pure ()
    | .ok job =>
      if job.state ≠ .running then pure ()
      else
        let now ← timeNow
        let _ ← handleFailure parseStandard job reason now

def requeueLeasesForWorker (workerID reason : String) : M Unit := do
  let ls ← act .listLeases
  ((ls.filter fun p => p.2.workerID = workerID).map Prod.fst).forM fun τ => requeueLease parseStandard τ reason

/-- The liveness a worker's last heartbeat amounts to. -/
def liveness (now : Int) (w : WorkerInfo) : WorkerState :=
  let age := durationTo now (asTime w.lastHeartbeat)
  if age > cfg.heartbeatTimeout then .dead else if age > cfg.heartbeatTimeout.tdiv 2 then .suspect else .alive

theorem liveness_ne_dead {now : Int} {w : WorkerInfo} :
    liveness cfg now w ≠ .dead ↔ now - asTime w.lastHeartbeat ≤ cfg.heartbeatTimeout := by
  rw [← durationTo_le_iff cfg.heartbeatTimeout_range]
  unfold liveness
  dsimp only
  split
  · simp only [ne_eq, not_true_eq_false, false_iff]
    omega
  · split <;> simp only [ne_eq, reduceCtorEq, not_false_eq_true, true_iff] <;> omega

/-- The cached workers whose liveness has worsened, with their new state. -/
def downgraded (now : Int) (cached : List (String × WorkerInfo)) : List (String × WorkerInfo) :=
  (cached.filter fun p => liveness cfg now p.2 ≠ .alive ∧ p.2.state ≠ liveness cfg now p.2).map fun p =>
    (p.1, { p.2 with state := liveness cfg now p.2 })

/-- One sweep: marks workers, and requeues the leases of dead ones and those past their deadline. -/
def reapOnce : M Unit := do
  let now ← timeNow
  let cached ← act .listCached
  let changed := downgraded cfg now.ns cached
  changed.forM fun p => do
    let _ ← putWorker p.2
  ((changed.filter fun p => p.2.state = .dead).map Prod.fst).forM fun id =>
    requeueLeasesForWorker parseStandard id "worker missed heartbeats"
  let ls ← act .listLeases
  ((ls.filter fun p => now.ns > p.2.deadline).map Prod.fst).forM fun τ =>
    requeueLease parseStandard τ "lease deadline exceeded"

/-- One turn of `reaperLoop`. -/
def reaperTick : M Unit := do
  if ← isLeader then reapOnce cfg parseStandard else pure ()

/-! ## Jobs -/

/-- The ID of a submitted job: its own, or a new one. -/
def assignID (job : Job) : M Job := do
  if job.id = "" then
    let id ← newID "job"
    pure { job with id := id }
  else pure job

/-- The cycle check, made only for a job with dependencies. -/
def formsCycle (job : Job) : M Bool :=
  if job.dependsOn.length > 0 then wouldCreateCycle job.id job.dependsOn else pure false

/-- The parts of `SubmitJob` after the ID is settled. -/
def acceptJob (job : Job) : M (Except Status String) := do
  let cyclic ← formsCycle job
  if cyclic then pure (.error ⟨.invalidArgument, "dependencies form a cycle"⟩)
  else
    let now ← timeNow
    placeNewJob parseStandard { job with
      attempt := 0, assignedWorkerId := "", lastError := "", createdAt := some now.ns, updatedAt := some now.ns }
      (.utc now.ns)
    pure (.ok job.id)

/-- Validates and places a job; returns its ID. -/
def submitJob (req : Option Job) : M (Except Status String) := do
  match ← requireLeader cfg with
  | some e => pure (.error e)
  | none =>
    match req with
    | none => pure (.error ⟨.invalidArgument, "job is required"⟩)
    | some job =>
      if job.command = "" then pure (.error ⟨.invalidArgument, "job.spec.command is required"⟩)
      else if job.cronExpr = "" then
        let job ← assignID job
        acceptJob parseStandard job
      else
        let now ← timeNow
        match nextCron parseStandard job.cronExpr now with
        | .error e => pure (.error ⟨.invalidArgument, "invalid cron_expr: " ++ e⟩)
        | .ok _ =>
          let job ← assignID job
          acceptJob parseStandard job

def loadJob (id : String) : M (Except Status Job) := do
  if id = "" then pure (.error ⟨.invalidArgument, "job_id is required"⟩)
  else
    match ← Db.getJob id with
    | .error .notFound => pure (.error ⟨.notFound, "job " ++ id.quote ++ " not found"⟩)
    | .error (.failed e) => pure (.error ⟨.internal, "load job: " ++ e⟩)
    | .ok job => pure (.ok job)

/-- Marks a non-terminal job CANCELED, takes it from the queue and cancels what waits on it. -/
def cancelJob (jobID : String) : M (Except Status Job) := do
  match ← requireLeader cfg with
  | some e => pure (.error e)
  | none =>
    match ← loadJob jobID with
    | .error e => pure (.error e)
    | .ok job =>
      if job.state = .canceled then pure (.ok job)
      else if job.state = .succeeded ∨ job.state = .failed then
        pure (.error ⟨.failedPrecondition,
          "job " ++ job.id.quote ++ " already in terminal state " ++ job.state.name⟩)
      else
        let now ← timeNow
        let job := { job with state := .canceled, updatedAt := some now.ns }
        match ← putJob job with
        | .error e => pure (.error ⟨.internal, "persist cancel: " ++ e⟩)
        | .ok () =>
          let _ ← Queue.remove job.id
          cancelCascade job.id ("upstream dependency " ++ job.id ++ " was canceled")
          pure (.ok job)

/-! ## Recovery of the scheduling state -/

/-- Empties the queue, stops the timers, and drops the leases and the dependency index. -/
def clearSchedulingState : M Unit := do
  Queue.clear
  act .clearDispatch
  act .clearIndex

/-- The reverse dependency index is rebuilt for every non-terminal job. -/
def reindex (j : Job) : M Unit := if terminal j.state then pure () else addDeps j

/-- The first pass of a rebuild over one job: its dependencies are indexed, a QUEUED job is queued or
armed, and a RUNNING one, whose lease is lost, counts as failed. -/
def rebuildJob (now : Time) (j : Job) : M Unit := do
  reindex j
  match j.state with
  | .queued =>
    if j.scheduledAt.isNone ∨ asTime j.scheduledAt ≤ now.ns then
      let _ ← Queue.push j.id j.priority (asTime j.createdAt)
    else armEnqueue j.id (durationTo (asTime j.scheduledAt) now.ns)
  | .running =>
    let _ ← handleFailure parseStandard j "reclaimed orphaned task after leadership change" now
  | _ => pure ()

/-- Repopulates the scheduling state from the store. -/
def rebuildSchedulingState : M Unit := do
  clearSchedulingState
  match ← Db.listJobs with
  | .error _ => pure ()
  | .ok jobs =>
    let now ← timeNow
    jobs.forM (rebuildJob parseStandard now)
    (jobs.filter fun j => j.state = .pending).forM fun j => tryPromote parseStandard j.id

/-- Resets the replication log to a snapshot of the store. -/
def seedReplication : M Unit := do
  let jobs ← Db.listJobs
  let workers ← Db.listWorkers
  act (.installLog (jobs.toOption.getD []) (workers.toOption.getD []))

def onBecomeLeader : M Unit := do
  rebuildSchedulingState parseStandard
  seedReplication

/-- Halts dispatching. -/
def onStepDown : M Unit := clearSchedulingState

/-- Loads the worker cache of a new process. -/
def recover : M (Except String Unit) := do
  match ← Db.listWorkers with
  | .error e => pure (.error ("recover workers: " ++ e))
  | .ok ws =>
    ws.forM fun w => act (.cacheWorker w)
    pure (.ok ())

/-- `New`, up to the point where the node leads as `node`. A process that cannot load its workers
gives up. -/
def boot (node : Cluster.Node) : M Unit := do
  match ← recover with
  | .error _ => pure ()
  | .ok () =>
    act (.gainLead node)
    onBecomeLeader parseStandard

end

end Distsched.Scheduler
