/-
Placement, promotion and cancellation of jobs (`internal/scheduler/deps.go`), with the parts of
`server.go` they rest on: persisting with replication, and arming the ready queue.
-/
import Distsched.Scheduler.Server

namespace Distsched.Scheduler

/-! ## Store calls and locked sections -/

namespace Db

abbrev getJob (id : String) : M (Except StoreError Job) := act (.getJob id)
abbrev putJob (job : Job) : M (Except String Unit) := act (.putJob job)
abbrev listJobs : M (Except String (List Job)) := act .listJobs
abbrev putDeadLetter (job : Job) : M (Except String Unit) := act (.putDeadLetter job)
abbrev putWorker (w : WorkerInfo) : M (Except String Unit) := act (.putWorker w)
abbrev listWorkers : M (Except String (List WorkerInfo)) := act .listWorkers

end Db

namespace Queue

abbrev push (jobID : String) (priority createdAt : Int) : M Bool := act (.push jobID priority createdAt)
abbrev pop : M (Option String) := act .pop
abbrev remove (jobID : String) : M Bool := act (.remove jobID)
abbrev clear : M Unit := act .clearQueue

end Queue

abbrev addLease (l : Lease) : M Unit := act (.addLease l)
abbrev getLease (taskID : String) : M (Option Lease) := act (.getLease taskID)
abbrev removeLease (taskID : String) : M Unit := act (.removeLease taskID)
abbrev addDeps (job : Job) : M Unit := act (.addDeps job)
abbrev removeFromIndex (jobID : String) : M Unit := act (.removeFromIndex jobID)
abbrev dependentsOf (depID : String) : M (List String) := act (.dependentsOf depID)
abbrev isLeader : M Bool := act .isLeader
abbrev timeNow : M Time := act .now
abbrev newID (kind : String) : M String := act (.newID kind)

/-! ## Persisting and arming -/

/-- Appends to the replication log, on the leader only. -/
def appendRepl (m : Mutation) : M Unit := do
  if ← isLeader then act (.appendLog m) else pure ()

/-- Persists a job and hands it to replication. -/
def putJob (job : Job) : M (Except String Unit) := do
  match ← Db.putJob job with
  | .error e => pure (.error e)
  | .ok () =>
    appendRepl (.upsertJob job)
    pure (.ok ())

section Store

variable {env : Env}

/-- What a read of a job can answer. -/
inductive Reads (env : Env) (s : Server) (id : String) : Except StoreError Job → Prop
  | failed {e : String} (he : env.fails s.tick = some e) : Reads env s id (.error (.failed e))
  | missing (he : env.fails s.tick = none) (hj : s.store.jobs.get id = none) : Reads env s id (.error .notFound)
  | found {j : Job} (he : env.fails s.tick = none) (hj : s.store.jobs.get id = some j) : Reads env s id (.ok j)

theorem getJob_reads (id : String) (s : Server) :
    Prog.Sat (handle env) (Db.getJob id) s fun r s' => Reads env s id r ∧ s' = s.ticked := by
  refine ⟨?_, rfl⟩
  simp only [Db.getJob, act, Prog.exec_perform, handle]
  cases he : env.fails s.tick with
  | some e => exact .failed he
  | none =>
    cases hj : s.store.jobs.get id with
    | none => exact .missing he hj
    | some j => exact .found he hj

theorem appendRepl_frame (m : Mutation) (s : Server) :
    Prog.Sat (handle env) (appendRepl m) s fun _ s' => s' = { s with repl := s'.repl, tick := s'.tick } := by
  refine Prog.Sat.bind (Q := fun _ s₁ => s₁ = s.ticked) rfl ?_
  rintro leads _ rfl
  cases leads <;> rfl

/-- What `putJob` can do. Besides the stored jobs it touches the replication log only. -/
inductive Writes (env : Env) (j : Job) (s : Server) : Except String Unit → Server → Prop
  | failed {e : String} (he : env.fails s.tick = some e) : Writes env j s (.error e) s.ticked
  | stored {s' : Server} (he : env.fails s.tick = none)
    (hs : s' = { s with store := { s.store with jobs := s.store.jobs.put j }, repl := s'.repl, tick := s'.tick }) :
    Writes env j s (.ok ()) s'

theorem putJob_writes (j : Job) (s : Server) :
    Prog.Sat (handle env) (putJob j) s fun r s' => Writes env j s r s' := by
  have hput : Prog.Sat (handle env) (Db.putJob j) s fun r s₁ => Writes env j s r s₁ := by
    unfold Prog.Sat
    simp only [Db.putJob, act, Prog.exec_perform, handle, Server.write]
    cases he : env.fails s.tick with
    | some e => exact .failed he
    | none => exact .stored he rfl
  refine hput.bind ?_
  rintro r s₁ h₁
  cases h₁ with
  | failed he => exact .failed he
  | stored he hs =>
    refine (appendRepl_frame _ s₁).bind fun _ s₂ h₂ => .stored he (h₂.trans ?_)
    rw [hs]
    rfl

/-- What the store answers a read that is known not to fail. -/
theorem getJob_answers {C : Op × Server → Prop} (id : String) (s : Server)
    (hc : C (.getJob id, s) → env.fails s.tick = none) :
    Prog.SatIf (handle env) C (Db.getJob id) s fun r s' =>
      (match s.store.jobs.get id with
        | none => r = .error .notFound
        | some j => r = .ok j) ∧ s' = s.ticked := by
  intro h
  have hok : env.fails s.tick = none := hc (h _ List.mem_cons_self)
  refine (getJob_reads id s).mono ?_
  rintro r _ ⟨hr, rfl⟩
  refine ⟨?_, rfl⟩
  cases hr with
  | failed hf => cases hok.symm.trans hf
  | missing _ hj => rw [hj]
  | found _ hj => rw [hj]

/-- What the store answers while it works. -/
theorem getJob_reliable (he : env.Reliable) (id : String) (s : Server) :
    Prog.Sat (handle env) (Db.getJob id) s fun r s' =>
      (match s.store.jobs.get id with
        | none => r = .error .notFound
        | some j => r = .ok j) ∧ s' = s.ticked :=
  getJob_answers id s (fun _ : True => he s.tick) fun _ _ => trivial

/-- A write that fails. -/
theorem exec_putJob_lost {s : Server} (j : Job) {err : String} (he : env.fails s.tick = some err) :
    Prog.exec (handle env) (putJob j) s = (.error err, s.ticked) := by
  simp only [putJob, Db.putJob, act, Prog.exec_bind, Prog.exec_perform, handle, Server.write, he]
  rfl

/-- While the store works, a write goes through. -/
theorem putJob_reliable (he : env.Reliable) (j : Job) (s : Server) :
    Prog.Sat (handle env) (putJob j) s fun r s' => r = .ok () ∧
      s' = { s with store := { s.store with jobs := s.store.jobs.put j }, repl := s'.repl, tick := s'.tick } := by
  refine (putJob_writes j s).mono fun r s' h => ?_
  cases h with
  | failed hf => cases (he s.tick).symm.trans hf
  | stored _ hs => exact ⟨rfl, hs⟩

end Store

/-- Pushes a job onto the ready queue if it is still QUEUED and this node leads. -/
def enqueueJob (jobID : String) : M Unit := do
  if ← act .isClosed then pure ()
  else if ← isLeader then
    match ← Db.getJob jobID with
    | .error _ => pure ()
    | .ok job =>
      if job.state ≠ .queued then pure ()
      else do
        let _ ← Queue.push job.id job.priority (asTime job.createdAt)
  else pure ()

/-- A non-positive delay enqueues at once; otherwise a timer does, in the place of an earlier one. -/
def armEnqueue (jobID : String) (delay : Int) : M Unit :=
  if delay ≤ 0 then enqueueJob jobID else act (.startTimer jobID delay)

/-- What an armed timer runs when it fires. -/
def timerFired (jobID : String) : M Unit := do
  act (.deleteTimer jobID)
  enqueueJob jobID

/-! ## Dependencies -/

/-- The parser of `robfig/cron`: a parsed expression maps an instant to its next fire time. -/
abbrev Cron := String → Except String (Time → Time)

def nextCron (parseStandard : Cron) (expr : String) (now : Time) : Except String Time :=
  match parseStandard expr with
  | .error e => .error e
  | .ok next => .ok (next now)

/-- Whether every dependency has SUCCEEDED, and the first one in the list that failed, if it is
reached before one that is missing or unfinished. -/
def depsSatisfied : List String → M (Bool × String)
  | [] => pure (true, "")
  | depID :: rest => do
    match ← Db.getJob depID with
    | .error _ => pure (false, "")
    | .ok dep => match dep.state with
      | .succeeded => depsSatisfied rest
      | .failed | .canceled => pure (false, depID)
      | _ => pure (false, "")

/-- The depth-first search from `n`: `none` if it meets a node on its own path (`stack`), else the
nodes visited. The first argument bounds the depth. -/
def dfs (graph : String → List String) : Nat → List String → String → List String → Option (List String)
  | 0, _, _, visited => some visited
  | fuel + 1, stack, n, visited =>
    (graph n).foldlM (fun visited d =>
      if d ∈ n :: stack then none
      else if d ∈ visited then some visited
      else dfs graph fuel (n :: stack) d visited) (n :: visited)

/-- The dependency edges of the listed jobs, with those of `newID` replaced. -/
def depGraph (jobs : List Job) (newID : String) (deps : List String) (n : String) : List String :=
  if n = newID then deps else ((jobs.find? (·.id = n)).map Job.dependsOn).getD []

def wouldCreateCycle (newID : String) (deps : List String) : M Bool := do
  match ← Db.listJobs with
  | .error _ => pure false
  | .ok jobs =>
    let edges := (jobs.map fun j => j.dependsOn.length).sum + deps.length
    pure (dfs (depGraph jobs newID deps) (edges + 1) [] newID []).isNone

section Scheduling

variable (parseStandard : Cron)

/-- The schedule part of `makeReady`: the job with its fire time, and the delay until then. -/
def fireTime (job : Job) (now : Time) : M (Job × Int) :=
  match job.schedule with
  | none => pure (job, 0)
  | some sched =>
    if sched.getCronExpr ≠ "" then
      match nextCron parseStandard sched.getCronExpr now with
      | .error _ => pure (job, 0)
      | .ok next => do
        let t ← timeNow
        pure ({ job with scheduledAt := some next.ns }, durationTo next.ns t.ns)
    else match sched.getRunAt with
      | none => pure (job, 0)
      | some ra =>
        if ra > now.ns then do
          let t ← timeNow
          pure ({ job with scheduledAt := some ra }, durationTo ra t.ns)
        else pure (job, 0)

/-- Moves a job into QUEUED, at its fire time if it has one. -/
def makeReady (job : Job) (now : Time) : M Unit := do
  let (job, delay) ← fireTime parseStandard job now
  match ← putJob { job with state := .queued, updatedAt := some now.ns } with
  | .error _ => pure ()
  | .ok () => armEnqueue job.id delay

/-- The text recorded in a job that cannot run because of `dep`. -/
def upstreamFailed (dep : String) : String := "upstream dependency " ++ dep ++ " did not succeed"

/-- The initial state of a freshly submitted job. -/
def placeNewJob (job : Job) (now : Time) : M Unit := do
  let (ready, failedDep) ← depsSatisfied job.dependsOn
  if failedDep ≠ "" then
    let _ ← putJob { job with state := .canceled, lastError := upstreamFailed failedDep, updatedAt := some now.ns }
  else if !ready then
    let _ ← putJob { job with state := .pending, updatedAt := some now.ns }
    addDeps job
  else makeReady parseStandard job now

/-- The body of the cascade for one job: cancels it unless it is missing or already final. -/
def cancelOne (cur reason : String) (now : Int) : M Unit := do
  match ← Db.getJob cur with
  | .error _ => pure ()
  | .ok job =>
    if terminal job.state then pure ()
    else
      let _ ← putJob { job with state := .canceled, lastError := reason, updatedAt := some now }
      let _ ← Queue.remove cur

/-- The loop of `cancelCascade`. `work` is the source's slice with its last element first. -/
def cascadeLoop (now : Int) : Nat → List String → List String → String → M Unit
  | 0, _, _, _ => pure ()
  | _ + 1, _, [], _ => pure ()
  | fuel + 1, visited, cur :: work, reason =>
    if cur ∈ visited then cascadeLoop now fuel visited work reason
    else do
      cancelOne cur reason now
      let dependents ← dependentsOf cur
      removeFromIndex cur
      cascadeLoop now fuel (cur :: visited) (dependents.reverse ++ work) (upstreamFailed cur)

/-- Cancels a job and, transitively, every non-terminal job recorded as waiting on it. -/
def cancelCascade (jobID reason : String) : M Unit := do
  let now ← timeNow
  let bound ← act .indexBound
  cascadeLoop now.ns (bound + 1) [] [jobID] reason

/-- Advances a PENDING job whose dependencies are satisfied; cancels it if one failed. -/
def tryPromote (jobID : String) : M Unit := do
  match ← Db.getJob jobID with
  | .error _ => pure ()
  | .ok job =>
    if job.state ≠ .pending then pure ()
    else
      let (ready, failedDep) ← depsSatisfied job.dependsOn
      if failedDep ≠ "" then cancelCascade jobID (upstreamFailed failedDep)
      else if ready then
        makeReady parseStandard job (← timeNow)
        removeFromIndex jobID
      else pure ()

/-- Re-evaluates everything waiting on a job that has succeeded. -/
def promoteDependents (depID : String) : M Unit := do
  let dependents ← dependentsOf depID
  dependents.forM (tryPromote parseStandard)

/-- Re-arms a cron job for its next occurrence. Returns whether it did, and the record, whose fields
stay rewritten when persisting it failed. -/
def maybeRescheduleCron (job : Job) (now : Time) : M (Bool × Job) :=
  if job.cronExpr = "" then pure (false, job)
  else match nextCron parseStandard job.cronExpr now with
    | .error _ => pure (false, job)
    | .ok next => do
      let job := { job with
        state := .queued, attempt := 0, assignedWorkerId := "", lastError := "", finishedAt := none,
        scheduledAt := some next.ns, updatedAt := some now.ns }
      match ← putJob job with
      | .error _ => pure (false, job)
      | .ok () =>
        let t ← timeNow
        armEnqueue job.id (durationTo next.ns t.ns)
        pure (true, job)

end Scheduling

end Distsched.Scheduler
