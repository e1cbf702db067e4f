/-
The worker agent as a whole (`internal/worker/agent.go`, `internal/worker/executor.go`): the main loop that finds the leader,
registers, sends heartbeats and polls, and a goroutine for each task that executes it and reports the result. Any of them
may find the leader gone, and then looks for the new one and registers again, at the same time as others.

The agent keeps one identity. A worker ID is read before each call and written after each registration, by any goroutine at
any time; but the first registration is over before there is a second goroutine, and a registration under an ID answers with
that ID. So every later call carries the ID of the first registration. What the agent reports, it has been handed by an
earlier poll and has executed.
-/
import Distsched.Lib.Pool
import Distsched.Scheduler.Reads
import Distsched.Scheduler.Run
import Distsched.Worker.Agent
import Mathlib.Data.Finset.Sort
import Mathlib.Data.String.Basic

namespace Distsched.Worker

open Scheduler (TaskAssignment ClusterStatus)

/-! ## Calls of the agent -/

/-- The status codes of gRPC other than `OK`. -/
inductive StatusCode
  | canceled
  | unknown
  | invalidArgument
  | deadlineExceeded
  | notFound
  | alreadyExists
  | permissionDenied
  | resourceExhausted
  | failedPrecondition
  | aborted
  | outOfRange
  | unimplemented
  | internal
  | unavailable
  | dataLoss
  | unauthenticated
  deriving DecidableEq

/-- An error, with the code that `status.Code` gives for it. -/
structure Failure where
  code : StatusCode
  message : String
  deriving DecidableEq

/-- A request of the worker service. -/
inductive Call
  | registerWorker (worker : WorkerInfo)
  | heartbeat (workerID : String) (runningTaskIDs : List String)
  | pollTask (workerID : String) (maxTasks : Int32)
  | reportTask (workerID taskID : String) (result : TaskResult) (output : ByteArray) (error : String)

@[reducible] def Call.Reply : Call → Type
  | .registerWorker _ => String × String
  | .heartbeat .. => Bool
  | .pollTask .. => List TaskAssignment
  | .reportTask .. => Unit

/-- The worker ID that a request carries. -/
def Call.workerID : Call → String
  | .registerWorker w => w.id
  | .heartbeat id _ | .pollTask id _ | .reportTask id .. => id

/-- The worker ID that the answer to a registration grants. -/
def Call.grants : (c : Call) → Except Failure c.Reply → Option String
  | .registerWorker _, .ok p => some p.1
  | _, _ => none

/-- What the select of the main loop takes. -/
inductive Tick
  | done
  | heartbeat
  | poll

/-! ## Operations -/

/-- The steps of the agent's goroutines: calls over a client, which is the address it is connected to, sections under the
two mutexes, and what the runtime decides. -/
inductive Act
  -- gRPC
  | newClient (addr : String)
  | getClusterStatus (addr : String)
  | call (client : Option String) (c : Call)
  -- under connMu
  | connect (addr : String)
  | workerClient
  | currentWorkerID
  | setWorkerID (id : String)
  -- under mu
  | freeCapacity
  | runningTaskIDs
  | tryStart (taskID : String)
  | finish (taskID : String)
  -- the runtime
  | goRun (task : TaskAssignment)
  /-- runs a command, for the task with that ID -/
  | command (taskID : String) (spec : TaskSpec)
  | select
  /-- waits, and says whether the context was canceled meanwhile -/
  | wait (cancelable : Bool) (duration : Int)
  /-- how many more turns of a loop there are to see -/
  | turns

@[reducible] def Act.Resp : Act → Type
  | .newClient _ => Option String
  | .getClusterStatus _ => Except Failure ClusterStatus
  | .call _ c => Except Failure c.Reply
  | .workerClient => Option String
  | .currentWorkerID => String
  | .freeCapacity => Int
  | .runningTaskIDs => List String
  | .tryStart _ | .wait .. => Bool
  | .command .. => ByteArray × Option String
  | .select => Tick
  | .turns => Nat
  | .connect _ | .setWorkerID _ | .finish _ | .goRun _ => Unit

abbrev A := Prog Act Act.Resp

abbrev step (a : Act) : A a.Resp := Prog.perform a

/-! ## Programs -/

/-- The settings of a worker. -/
structure Settings extends Config where
  schedulers : List String
  advertise : String := ""
  labels : List (String × String) := []

/-- The address of the leader that a status names. -/
def leaderOf (st : ClusterStatus) : Option String :=
  if st.holderId = "" then none else (st.schedulers.find? fun n => n.id = st.holderId).map (·.address)

/-- The loop of `discoverLeader` over the seeds. -/
def discoverAmong (all : List String) : List String → Option Failure → A (Except Failure String)
  | [], lastErr => pure (.error (lastErr.getD ⟨.unknown, "no leader elected among seeds [" ++ " ".intercalate all ++ "]"⟩))
  | seed :: seeds, lastErr => do
    match ← step (.newClient seed) with
    | some e => discoverAmong all seeds (some ⟨.unknown, e⟩)
    | none =>
      match ← step (.getClusterStatus seed) with
      | .error e => discoverAmong all seeds (some e)
      | .ok st =>
        match leaderOf st with
        | some addr => pure (.ok addr)
        | none => discoverAmong all seeds lastErr

section

variable (cfg : Settings)

def discoverLeader : A (Except Failure String) := discoverAmong cfg.schedulers cfg.schedulers none

def connectLeader : A (Except Failure Unit) := do
  match ← discoverLeader cfg with
  | .error e => pure (.error e)
  | .ok addr =>
    match ← step (.newClient addr) with
    | some e => pure (.error ⟨.unknown, e⟩)
    | none =>
      step (.connect addr)
      pure (.ok ())

def register : A (Except Failure Unit) := do
  let client ← step .workerClient
  let id ← step .currentWorkerID
  match ← step (.call client (.registerWorker
    { id := id, address := cfg.advertise, capacity := cfg.toConfig.withDefaults.capacity.toInt, labels := cfg.labels })) with
  | .error e => pure (.error e)
  | .ok (workerID, _) =>
    step (.setWorkerID workerID)
    pure (.ok ())

/-- One turn of the loop of `bootstrap`. -/
def join : A Bool := do
  match ← connectLeader cfg with
  | .error _ => pure false
  | .ok () =>
    match ← register cfg with
    | .error _ => pure false
    | .ok () => pure true

/-- How a call of `bootstrap` stands: it has registered, its context was canceled, or it is still trying. -/
inductive Boot
  | registered
  | canceled
  | trying
  deriving DecidableEq

def bootstrapLoop (ctx : Bool) : Nat → Int → A Boot
  | 0, _ => pure .trying
  | n + 1, backoff => do
    if ← join cfg then pure .registered
    else if ← step (.wait ctx backoff) then pure .canceled
    else bootstrapLoop ctx n (if backoff < 5 * 1000000000 then backoff * 2 else backoff)

def bootstrap (ctx : Bool) : A Boot := do
  let n ← step .turns
  bootstrapLoop cfg ctx n (300 * 1000000)

/-- Whether it handled the error; nothing while it is still trying. -/
def onLeadershipError (ctx : Bool) (err : Failure) : A (Option Bool) := do
  if err.code ≠ .failedPrecondition ∧ err.code ≠ .unavailable then pure (some false)
  else
    match ← bootstrap cfg ctx with
    | .trying => pure none
    | _ => pure (some true)

/-- Nothing is returned while the heartbeat is still looking for the leader. -/
def heartbeat : A (Option Unit) := do
  let client ← step .workerClient
  let id ← step .currentWorkerID
  let running ← step .runningTaskIDs
  match ← step (.call client (.heartbeat id running)) with
  | .error e => do
    let handled ← onLeadershipError cfg true e
    pure (handled.map fun _ => ())
  | .ok ok =>
    if ok then pure (some ())
    else
      let _ ← register cfg
      pure (some ())

/-- Starts a task of an answer, unless it is a duplicate or there is no slot for it. -/
def startTask (task : TaskAssignment) : A Unit := do
  if ← step (.tryStart task.taskId) then step (.goRun task)

def poll : A (Option Unit) := do
  let free ← step .freeCapacity
  if free ≤ 0 then pure (some ())
  else
    let client ← step .workerClient
    let id ← step .currentWorkerID
    match ← step (.call client (.pollTask id (Int32.ofInt free))) with
    | .error e => do
      let handled ← onLeadershipError cfg true e
      pure (handled.map fun _ => ())
    | .ok tasks =>
      tasks.forM startTask
      pure (some ())

/-- The result of an execution: what is reported of it. -/
structure Outcome where
  result : TaskResult
  output : ByteArray
  error : String

def maxOutputBytes : Nat := 8 * 1024

def truncate (s : ByteArray) : ByteArray :=
  if s.size > maxOutputBytes then s.extract 0 maxOutputBytes ++ "...(truncated)".toUTF8 else s

/-- Runs the command of a task, if it has one, for at most the time it is given. -/
def execute (taskID : String) (spec : Option TaskSpec) : A Outcome := do
  let spec := spec.getD {}
  if spec.command = "" then pure ⟨.failed, .empty, "empty command"⟩
  else
    let (buf, err) ← step (.command taskID spec)
    match err with
    | some e => pure ⟨.failed, truncate buf, e⟩
    | none => pure ⟨.succeeded, truncate buf, ""⟩

/-- The loop of `report`, with the attempts that are left of five. -/
def reportLoop (taskID : String) (o : Outcome) : Nat → A (Option Unit)
  | 0 => pure (some ())
  | n + 1 => do
    let client ← step .workerClient
    let id ← step .currentWorkerID
    match ← step (.call client (.reportTask id taskID o.result o.output o.error)) with
    | .ok () => pure (some ())
    | .error e =>
      match ← onLeadershipError cfg false e with
      | none => pure none
      | some true => reportLoop taskID o n
      | some false =>
        let _ ← step (.wait false ((5 - n : Int) * (500 * 1000000)))
        reportLoop taskID o n

def report (taskID : String) (o : Outcome) : A (Option Unit) := reportLoop cfg taskID o 5

/-- The goroutine of a task. Its slot is freed when the report is over. -/
def run (task : TaskAssignment) : A Unit := do
  let o ← execute task.taskId task.spec
  match ← report cfg task.taskId o with
  | none => pure ()
  | some () => step (.finish task.taskId)

def runLoop : Nat → A Unit
  | 0 => pure ()
  | n + 1 => do
    match ← step .select with
    | .done => pure ()
    | .heartbeat =>
      match ← heartbeat cfg with
      | none => pure ()
      | some () => runLoop n
    | .poll =>
      match ← poll cfg with
      | none => pure ()
      | some () => runLoop n

/-- The main goroutine (`Run`). -/
def main : A Unit := do
  match ← bootstrap cfg true with
  | .registered =>
    let n ← step .turns
    runLoop cfg n
  | _ => pure ()

end

/-! ## The process -/

/-- What the agent leaves to its surroundings. The first argument of each field is the number of steps taken so far. -/
structure Env where
  newClient : Nat → String → Option String
  status : Nat → String → Except Failure ClusterStatus
  reply : Nat → Option String → (c : Call) → Except Failure c.Reply
  command : Nat → TaskSpec → ByteArray × Option String
  select : Nat → Tick
  canceled : Nat → Bool
  turns : Nat → Nat
  clock : Nat → Int
  /-- The order in which `range` visits the tasks that run. -/
  order : Nat → List String → List String

/-- What the agent has done: a call over a client, with its answer, or a command for a task, with what came of it. -/
inductive Record
  | call (client : Option String) (c : Call) (r : Except Failure c.Reply)
  | command (taskID : String) (spec : TaskSpec) (r : ByteArray × Option String)

def Record.sent : Record → Option (Option String × Call)
  | .call client c _ => some (client, c)
  | .command .. => none

structure Process where
  /-- the address that the client is connected to -/
  client : Option String := none
  workerID : String := ""
  agent : Agent
  /-- the goroutines started that have not taken a step -/
  launched : List TaskAssignment := []
  /-- what was done so far, the last first -/
  log : List Record := []
  /-- the steps taken so far -/
  tick : Nat := 0

/-- The calls made, the last first, each with the client it was made over. -/
def Process.sent (s : Process) : List (Option String × Call) := s.log.filterMap Record.sent

def Process.ticked (s : Process) : Process := { s with tick := s.tick + 1 }

def Process.logged (s : Process) (q : Record) : Process := { s.ticked with log := q :: s.log }

def handle (env : Env) : Prog.Handler Act Act.Resp Process
  | .newClient addr, s => (env.newClient s.tick addr, s.ticked)
  | .getClusterStatus addr, s => (env.status s.tick addr, s.ticked)
  | .call client c, s => (env.reply s.tick client c, s.logged (.call client c (env.reply s.tick client c)))
  | .connect addr, s => ((), { s.ticked with client := some addr })
  | .workerClient, s => (s.client, s.ticked)
  | .currentWorkerID, s => (s.workerID, s.ticked)
  | .setWorkerID id, s => ((), { s.ticked with workerID := id })
  | .freeCapacity, s => (s.agent.freeCapacity, s.ticked)
  | .runningTaskIDs, s => (env.order s.tick (s.agent.running.sort (· ≤ ·)), s.ticked)
  | .tryStart id, s => ((s.agent.tryStart id).2, { s.ticked with agent := (s.agent.tryStart id).1 })
  | .finish id, s => ((), { s.ticked with agent := s.agent.finish id (env.clock s.tick) })
  | .goRun task, s => ((), { s.ticked with launched := task :: s.launched })
  | .command taskID spec, s => (env.command s.tick spec, s.logged (.command taskID spec (env.command s.tick spec)))
  | .select, s => (env.select s.tick, s.ticked)
  | .wait cancelable _, s => (cancelable && env.canceled s.tick, s.ticked)
  | .turns, s => (env.turns s.tick, s.ticked)

/-- The goroutines of an agent, and what they share. -/
abbrev Goroutines := Prog.Pool Act Act.Resp Process Unit Unit

def unnoted : Prog.Protocol Act Act.Resp Unit where
  permits _ _ := True
  answers _ _ _ := True
  next _ _ _ := ()

/-- The agent as it is made (`New`), about to run. -/
def launch (cfg : Settings) : Goroutines := ⟨{ agent := { cfg := cfg.toConfig.withDefaults } }, [⟨main cfg, ()⟩]⟩

/-- The goroutine of a task takes its place among the others. -/
def Goroutines.begin (cfg : Settings) (c : Goroutines) (task : TaskAssignment) : Goroutines :=
  Prog.Pool.enter { c with state := { c.state with launched := c.state.launched.erase task } } (run cfg task) ()

/-- What an agent can come to, its goroutines taking their steps in any order. -/
inductive Runs (env : Env) (cfg : Settings) : Goroutines → Prop
  | launch : Runs env cfg (launch cfg)
  | step {c c' : Goroutines} {i : Nat} : Runs env cfg c → c.step (handle env) unnoted i = some c' → Runs env cfg c'
  | begin {c : Goroutines} {task : TaskAssignment} : Runs env cfg c → task ∈ c.state.launched →
    Runs env cfg (c.begin cfg task)

/-! ## What the schedulers answer -/

/-- The answers of a cluster: a registration is answered by some node that serves it, and so is a question for the status,
by a node with these members. Errors may come at any time. -/
structure Served (env : Env) (members : List (String × String)) : Prop where
  register : ∀ t a w r, env.reply t a (.registerWorker w) = .ok r → ∃ node : Scheduler.Env,
    Prog.Yields (Scheduler.handle node) (Scheduler.registerWorker node.cfg (some w)) (.ok r)
  status : ∀ t a st, env.status t a = .ok st → ∃ (node : Scheduler.Env)
    (order : List (String × String) → List (String × String)) (term : Int), node.cfg.members = members ∧
      (∀ l, (order l).Perm l) ∧ Prog.Yields (Scheduler.handle node) (Scheduler.getClusterStatus node.cfg order term) (.ok st)

/-- An address at which a member is configured. -/
def AtMember (members : List (String × String)) (addr : String) : Prop :=
  ∃ id, id ≠ "" ∧ members.reverse.lookup id = some addr

theorem Served.leaderOf {env : Env} {members : List (String × String)} (h : Served env members) {t : Nat} {a : String}
    {st : ClusterStatus} (hst : env.status t a = .ok st) {addr : String} (hl : leaderOf st = some addr) :
    AtMember members addr := by
  obtain ⟨node, order, term, rfl, horder, hy⟩ := h.status t a st hst
  unfold Worker.leaderOf at hl
  split at hl
  · cases hl
  · rename_i hne
    obtain ⟨n, hfind, rfl⟩ := Option.map_eq_some_iff.1 hl
    have hid : n.id = st.holderId := by simpa using List.find?_some hfind
    refine ⟨n.id, by rwa [hid], ?_⟩
    exact Scheduler.getClusterStatus_members horder hy n (List.mem_of_find?_eq_some hfind)

/-! ## What a report tells of -/

/-- A poll was answered with the task. -/
def Received (log : List Record) (task : TaskAssignment) : Prop :=
  ∃ client id n tasks, Record.call client (.pollTask id n) (.ok tasks) ∈ log ∧ task ∈ tasks

/-- The outcome is that of an execution of the task. -/
def Came (log : List Record) (task : TaskAssignment) (o : Outcome) : Prop :=
  if (task.spec.getD {}).command = "" then o = ⟨.failed, .empty, "empty command"⟩
  else ∃ buf err, Record.command task.taskId (task.spec.getD {}) (buf, err) ∈ log ∧ o.output = truncate buf ∧
    ((err = none ∧ o.result = .succeeded ∧ o.error = "") ∨ (err = some o.error ∧ o.result = .failed))

/-- The task was received and executed, with that outcome. -/
def Executed (log : List Record) (taskID : String) (o : Outcome) : Prop :=
  ∃ task, Received log task ∧ task.taskId = taskID ∧ Came log task o

/-- A report tells of an execution. -/
def Earned (log : List Record) : Call → Prop
  | .reportTask _ taskID result output error => Executed log taskID ⟨result, output, error⟩
  | _ => True

/-- Every call of a log went to a member, and every report was earned by what had been done before. -/
def Honest (members : List (String × String)) : List Record → Prop
  | [] => True
  | .call client c _ :: log => ((∃ a, client = some a ∧ AtMember members a) ∧ Earned log c) ∧ Honest members log
  | .command .. :: log => Honest members log

section Log

variable {log log' : List Record} {task : TaskAssignment} {o : Outcome}

theorem Received.mono (h : Received log task) (hl : log ⊆ log') : Received log' task := by
  obtain ⟨client, id, n, tasks, hq, ht⟩ := h
  exact ⟨client, id, n, tasks, hl hq, ht⟩

theorem Came.mono (h : Came log task o) (hl : log ⊆ log') : Came log' task o := by
  unfold Came at h ⊢
  split at h
  · rename_i hempty
    rw [if_pos hempty]
    exact h
  · rename_i hcommand
    rw [if_neg hcommand]
    obtain ⟨buf, err, hq, h⟩ := h
    exact ⟨buf, err, hl hq, h⟩

theorem Executed.mono {taskID : String} (h : Executed log taskID o) (hl : log ⊆ log') : Executed log' taskID o := by
  obtain ⟨task, ht, hid, ho⟩ := h
  exact ⟨task, ht.mono hl, hid, ho.mono hl⟩

theorem Earned.mono {c : Call} (h : Earned log c) (hl : log ⊆ log') : Earned log' c := by
  cases c with
  | reportTask workerID taskID result output error => exact Executed.mono h hl
  | registerWorker | heartbeat | pollTask => trivial

theorem Honest.split {members : List (String × String)} {client : Option String} {c : Call} {r : Except Failure c.Reply}
    {later : List Record} (h : Honest members (later ++ .call client c r :: log)) :
    (∃ a, client = some a ∧ AtMember members a) ∧ Earned log c := by
  induction later with
  | nil => exact h.1
  | cons q later ih =>
    cases q with
    | call => exact ih h.2
    | command => exact ih h

end Log

/-! ## Papers

The rules of the goroutines, and the notes of what one of them knows.
-/

structure Papers where
  /-- no registration has succeeded yet -/
  fresh : Bool
  /-- a client has been connected -/
  linked : Bool
  /-- the worker ID as last read or written -/
  id : String
  /-- the ID of the last registration -/
  granted : String
  /-- what it has done, and what had been done when it was started -/
  seen : List Record

namespace Papers

/-- A call names the ID that was read, over a client of a member; before the first registration it is a registration. -/
structure Permits (members : List (String × String)) (g : Papers) (client : Option String) (c : Call) : Prop where
  client : ∃ a, client = some a ∧ AtMember members a
  id : c.workerID = g.id
  fresh : g.fresh → ∃ w, c = .registerWorker w
  earned : Earned g.seen c

end Papers

open Prog

def papers (members : List (String × String)) : Protocol Act Act.Resp Papers where
  permits
    | .connect addr, _ => AtMember members addr
    | .call client c, g => Papers.Permits members g client c
    | .setWorkerID id, g => id = g.granted ∧ id ≠ "" ∧ g.linked = true
    | .goRun task, g => g.fresh = false ∧ Received g.seen task
    | _, _ => True
  answers
    | .getClusterStatus _, r, _ => ∀ st, r = .ok st → ∀ a, leaderOf st = some a → AtMember members a
    | .workerClient, r, g => g.linked → ∃ a, r = some a ∧ AtMember members a
    | .call _ c, r, _ => ∀ id, c.grants r = some id → id ≠ "" ∧ (c.workerID ≠ "" → id = c.workerID)
    | _, _, _ => True
  next
    | .connect _, _, g => { g with linked := true }
    | .currentWorkerID, r, g => { g with id := r }
    | .call client c, r, g => { g with granted := (c.grants r).getD g.granted, seen := .call client c r :: g.seen }
    | .command taskID spec, r, g => { g with seen := .command taskID spec r :: g.seen }
    | .setWorkerID id, _, g => { g with fresh := false, id := id }
    | _, _, g => g

/-! ## The programs keep to the rules -/

section Rules

variable {members : List (String × String)} {cfg : Settings} {g : Papers} {α : Type}

/-- Registered and connected. -/
structure Papers.Enrolled (g : Papers) : Prop where
  fresh : g.fresh = false
  linked : g.linked = true

abbrev Obeys (members : List (String × String)) (p : A α) (g : Papers) (Q : α → Papers → Prop) : Prop :=
  Meets (papers members) p g Q

/-- A program of a goroutine that is registered and connected. -/
def Steady (members : List (String × String)) (p : A α) : Prop :=
  ∀ g : Papers, g.Enrolled → Obeys members p g fun _ g' => g'.Enrolled

/-- Nothing that was seen is forgotten. -/
theorem Steady.grows {p : A α} (h : Steady members p) (hg : g.Enrolled) :
    Obeys members p g fun _ g' => g'.Enrolled ∧ g.seen ⊆ g'.seen := by
  refine Meets.grows (R := fun g g' => g.seen ⊆ g'.seen) (fun g => List.Subset.refl _) List.Subset.trans (fun a r g => ?_)
    (h g hg)
  cases a with
  | call client c => exact List.subset_cons_self ..
  | command taskID spec => exact List.subset_cons_self ..
  | _ => exact List.Subset.refl _

theorem Steady.pure (a : α) : Steady members (pure a) := fun _ hg => hg

end Rules

/-! ## Whole runs -/

section Whole

variable {env : Env} {members : List (String × String)} {cfg : Settings} {s : Process} {gs : List Papers}

/-- A registration that asks for an ID. -/
def Call.Asks (c : Call) : Prop := ∃ w, c = .registerWorker w ∧ w.id = ""

/-- What holds before the first registration: there is the main goroutine only, and it has only asked for an ID. -/
structure Anonymous (s : Process) (gs : List Papers) : Prop where
  id : s.workerID = ""
  alone : gs.length = 1
  fresh : ∀ g ∈ gs, g.fresh = true ∧ g.id = ""
  launched : s.launched = []
  sent : ∀ q ∈ s.sent, q.2.Asks

/-- What holds after it: every goroutine goes by the ID of the agent, and so do the calls since. -/
structure Identified (s : Process) (gs : List Papers) : Prop where
  id : s.workerID ≠ ""
  client : s.client.isSome
  known : ∀ g ∈ gs, g.fresh = false ∧ g.id = s.workerID ∧ g.granted = s.workerID
  sent : ∃ later earlier, s.sent = later ++ earlier ∧ (∀ q ∈ later, q.2.workerID = s.workerID) ∧ ∀ q ∈ earlier, q.2.Asks

structure Accountable (members : List (String × String)) (s : Process) (gs : List Papers) : Prop where
  name : Anonymous s gs ∨ Identified s gs
  client : ∀ a, s.client = some a → AtMember members a
  linked : ∀ g ∈ gs, g.linked = true → s.client.isSome
  seen : ∀ g ∈ gs, g.seen ⊆ s.log
  launched : ∀ task ∈ s.launched, Received s.log task
  honest : Honest members s.log

theorem forall_set {φ : Papers → Prop} {i : Nat} {g' : Papers} (h : ∀ g ∈ gs, φ g) (hg : φ g') : ∀ g ∈ gs.set i g', φ g := by
  intro g hmem
  rcases List.mem_or_eq_of_mem_set hmem with hmem | rfl
  · exact h g hmem
  · exact hg

/-- A step that neither does nor writes anything of the session. -/
structure Process.Same (s s' : Process) : Prop where
  client : s'.client = s.client
  workerID : s'.workerID = s.workerID
  launched : s'.launched = s.launched
  log : s'.log = s.log

theorem Accountable.same (h : Accountable members s gs) {s' : Process} (hs : s.Same s') : Accountable members s' gs := by
  obtain ⟨hname, hclient, hlinked, hseen, hlaunched, hhonest⟩ := h
  have hsent : s'.sent = s.sent := congrArg (List.filterMap Record.sent) hs.log
  refine ⟨?_, by rwa [hs.client], by rwa [hs.client], by rwa [hs.log], by rwa [hs.launched, hs.log], by rwa [hs.log]⟩
  rcases hname with ⟨hid, halone, hfresh, hl, hq⟩ | ⟨hid, hc, hknown, hq⟩
  · exact .inl ⟨hs.workerID.trans hid, halone, hfresh, hs.launched.trans hl, by rwa [hsent]⟩
  · exact .inr ⟨by rwa [hs.workerID], by rwa [hs.client], by rwa [hs.workerID], by rwa [hs.workerID, hsent]⟩

variable {g : Papers} {i : Nat}

/-- What the goroutine has just done is in the log, and what was there before still is. -/
theorem Accountable.seen_logged (h : Accountable members s gs) (hg : g ∈ gs) {g' : Papers} {q : Record}
    (hseen : g'.seen = q :: g.seen) : ∀ g ∈ gs.set i g', g.seen ⊆ q :: s.log := by
  refine forall_set (fun g₁ hg₁ => List.subset_cons_of_subset q (h.seen g₁ hg₁)) ?_
  rw [hseen]
  exact List.cons_subset_cons q (h.seen g hg)

/-- A call is made; what the goroutine knows of its ID stays as it was. -/
theorem Accountable.call (h : Accountable members s gs) (hi : gs[i]? = some g) {client : Option String} {c : Call}
    {r : Except Failure c.Reply} (hp : Papers.Permits members g client c) {id : String}
    (hid : Identified s gs → id = s.workerID) :
    Accountable members (s.logged (.call client c r))
      (gs.set i { g with granted := id, seen := .call client c r :: g.seen }) := by
  have hg : g ∈ gs := List.mem_of_getElem? hi
  have hlater : s.log ⊆ Record.call client c r :: s.log := List.subset_cons_self ..
  constructor
  · rcases h.name with hn | hn
    · obtain ⟨hfresh, hempty⟩ := hn.fresh g hg
      obtain ⟨w, rfl⟩ := hp.fresh hfresh
      have hasks : Call.Asks (.registerWorker w) := ⟨w, rfl, hp.id.trans hempty⟩
      refine .inl ⟨hn.id, by simpa using hn.alone, forall_set hn.fresh ⟨hfresh, hempty⟩, hn.launched, ?_⟩
      exact List.forall_mem_cons.2 ⟨hasks, hn.sent⟩
    · obtain ⟨hfresh, hknown, -⟩ := hn.known g hg
      refine .inr ⟨hn.id, hn.client, forall_set hn.known ⟨hfresh, hknown, hid hn⟩, ?_⟩
      obtain ⟨later, earlier, hsplit, hlater, hearlier⟩ := hn.sent
      refine ⟨(client, c) :: later, earlier, congrArg ((client, c) :: ·) hsplit, ?_, hearlier⟩
      exact List.forall_mem_cons.2 ⟨hp.id.trans hknown, hlater⟩
  · exact h.client
  · exact forall_set h.linked (h.linked g hg)
  · exact h.seen_logged hg rfl
  · exact fun task ht => (h.launched task ht).mono hlater
  · exact ⟨⟨hp.client, hp.earned.mono (h.seen g hg)⟩, h.honest⟩

/-- A command is run. -/
theorem Accountable.command (h : Accountable members s gs) (hi : gs[i]? = some g) {taskID : String} {spec : TaskSpec}
    {r : ByteArray × Option String} : Accountable members (s.logged (.command taskID spec r))
      (gs.set i { g with seen := .command taskID spec r :: g.seen }) := by
  have hg : g ∈ gs := List.mem_of_getElem? hi
  have hlater : s.log ⊆ Record.command taskID spec r :: s.log := List.subset_cons_self ..
  constructor
  · rcases h.name with hn | hn
    · exact .inl ⟨hn.id, by simpa using hn.alone, forall_set hn.fresh (hn.fresh g hg), hn.launched, hn.sent⟩
    · exact .inr ⟨hn.id, hn.client, forall_set hn.known (hn.known g hg), hn.sent⟩
  · exact h.client
  · exact forall_set h.linked (h.linked g hg)
  · exact h.seen_logged hg rfl
  · exact fun task ht => (h.launched task ht).mono hlater
  · exact h.honest

/-- A client is connected. -/
theorem Accountable.connect (h : Accountable members s gs) (hi : gs[i]? = some g) {addr : String}
    (haddr : AtMember members addr) :
    Accountable members { s.ticked with client := some addr } (gs.set i { g with linked := true }) := by
  have hg : g ∈ gs := List.mem_of_getElem? hi
  constructor
  · rcases h.name with hn | hn
    · exact .inl ⟨hn.id, by simpa using hn.alone, forall_set hn.fresh (hn.fresh g hg), hn.launched, hn.sent⟩
    · exact .inr ⟨hn.id, rfl, forall_set hn.known (hn.known g hg), hn.sent⟩
  · intro a ha
    cases ha
    exact haddr
  · exact fun _ _ _ => rfl
  · exact forall_set h.seen (h.seen g hg)
  · exact h.launched
  · exact h.honest

/-- The ID is read. -/
theorem Accountable.read (h : Accountable members s gs) (hi : gs[i]? = some g) :
    Accountable members s.ticked (gs.set i { g with id := s.workerID }) := by
  have hg : g ∈ gs := List.mem_of_getElem? hi
  constructor
  · rcases h.name with hn | hn
    · have hfresh := (hn.fresh g hg).1
      exact .inl ⟨hn.id, by simpa using hn.alone, forall_set hn.fresh ⟨hfresh, hn.id⟩, hn.launched, hn.sent⟩
    · obtain ⟨hfresh, -, hgranted⟩ := hn.known g hg
      exact .inr ⟨hn.id, hn.client, forall_set hn.known ⟨hfresh, rfl, hgranted⟩, hn.sent⟩
  · exact h.client
  · exact forall_set h.linked (h.linked g hg)
  · exact forall_set h.seen (h.seen g hg)
  · exact h.launched
  · exact h.honest

/-- The ID of a registration is written: the first one, or the one there is. -/
theorem Accountable.write (h : Accountable members s gs) (hi : gs[i]? = some g) {id : String} (hid : id = g.granted)
    (hne : id ≠ "") (hl : g.linked = true) :
    Accountable members { s.ticked with workerID := id } (gs.set i { g with fresh := false, id := id }) := by
  have hg : g ∈ gs := List.mem_of_getElem? hi
  constructor
  · rcases h.name with hn | hn
    · -- the goroutine is the only one
      obtain ⟨g₀, rfl⟩ := List.length_eq_one_iff.1 hn.alone
      obtain rfl : i = 0 := by
        obtain ⟨hlt, -⟩ := List.getElem?_eq_some_iff.1 hi
        simpa using hlt
      refine .inr ⟨hne, h.linked g hg hl, ?_, [], s.sent, rfl, nofun, hn.sent⟩
      simp [hid]
    · obtain ⟨-, -, hgranted⟩ := hn.known g hg
      obtain rfl : id = s.workerID := hid.trans hgranted
      exact .inr ⟨hne, hn.client, forall_set hn.known ⟨rfl, rfl, hgranted⟩, hn.sent⟩
  · exact h.client
  · exact forall_set h.linked (h.linked g hg)
  · exact forall_set h.seen (h.seen g hg)
  · exact h.launched
  · exact h.honest

/-- A goroutine is started. -/
theorem Accountable.goRun (h : Accountable members s gs) (hg : g ∈ gs) (hfresh : g.fresh = false) {task : TaskAssignment}
    (ht : Received g.seen task) : Accountable members { s.ticked with launched := task :: s.launched } gs := by
  constructor
  · rcases h.name with hn | hn
    · have hfresh' := (hn.fresh g hg).1
      rw [hfresh] at hfresh'
      cases hfresh'
    · exact .inr ⟨hn.id, hn.client, hn.known, hn.sent⟩
  · exact h.client
  · exact h.linked
  · exact h.seen
  · exact List.forall_mem_cons.2 ⟨ht.mono (h.seen g hg), h.launched⟩
  · exact h.honest

/-- A registration is answered with an ID, and with the one it names if it names one. -/
theorem Served.grants (hserved : Served env members) {t : Nat} {client : Option String} {c : Call} {id : String}
    (h : c.grants (env.reply t client c) = some id) : id ≠ "" ∧ (c.workerID ≠ "" → id = c.workerID) := by
  cases c with
  | registerWorker w =>
    cases hr : env.reply t client (.registerWorker w) with
    | error e =>
      rw [hr] at h
      cases h
    | ok p =>
      rw [hr] at h
      cases h
      obtain ⟨node, hy⟩ := hserved.register _ _ _ _ hr
      exact Scheduler.registerWorker_id hy
  | heartbeat | pollTask | reportTask => cases h

/-- One more goroutine, which goes by the ID of the agent. -/
theorem Accountable.begin (h : Accountable members s gs) {task : TaskAssignment} (ht : task ∈ s.launched) :
    Accountable members s (gs ++ [⟨false, true, s.workerID, s.workerID, s.log⟩]) := by
  rcases h.name with hn | hn
  · rw [hn.launched] at ht
    cases ht
  · refine { h with name := .inr { hn with known := ?_ }, linked := fun _ _ _ => hn.client, seen := ?_ }
    · exact List.forall_mem_append.2 ⟨hn.known, List.forall_mem_singleton.2 ⟨rfl, rfl, rfl⟩⟩
    · exact List.forall_mem_append.2 ⟨h.seen, List.forall_mem_singleton.2 (List.Subset.refl _)⟩

theorem Accountable.erase (h : Accountable members s gs) (task : TaskAssignment) :
    Accountable members { s with launched := s.launched.erase task } gs := by
  refine ⟨?_, h.client, h.linked, h.seen, fun t ht => h.launched t (List.mem_of_mem_erase ht), h.honest⟩
  rcases h.name with hn | hn
  · refine .inl { hn with launched := ?_ }
    simp [hn.launched]
  · exact .inr { hn with }

/-- Two schedulers. -/
def pair : Scheduler.Env :=
  { Scheduler.Env.steady with
    cfg := { Scheduler.Config.defaults with nodeID := "n1", members := [("n1", "h1:7070"), ("n2", "h2:7070")] } }

/-- What one of them tells of the leader. -/
def told (leader : String) : ClusterStatus :=
  ⟨leader, 1, (Scheduler.Config.memberMap pair.cfg).map fun m => ⟨m.1, m.2, if m.1 = leader then .leader else .follower⟩, []⟩

/-- The leader changes while the agent runs its first task, so its report fails and it registers again. -/
def succession : Env where
  newClient _ _ := none
  status t _ := .ok (told (if t < 20 then "n1" else "n2"))
  reply
    | _, _, .registerWorker w => .ok (if w.id = "" then "worker-" else w.id, "h1:7070")
    | _, _, .heartbeat .. => .ok true
    | _, _, .pollTask .. => .ok [⟨"task-", "job", 1, some { command := "true" }, 0⟩]
    | t, _, .reportTask .. => if t = 20 then .error ⟨.unavailable, "connection refused"⟩ else .ok ()
  command _ _ := (.empty, none)
  select _ := .poll
  canceled _ := false
  turns _ := 1
  clock _ := 0
  order _ l := l

def seeded : Settings := { capacity := 1, schedulers := ["h1:7070"] }

/-- The next goroutine to take a step, or the start of one. -/
inductive Move
  | step (i : Nat)
  | begin

def play (env : Env) (cfg : Settings) : Goroutines → List Move → Option Goroutines
  | c, [] => some c
  | c, .step i :: moves => (c.step (handle env) unnoted i).bind (play env cfg · moves)
  | c, .begin :: moves => (c.state.launched.head?).bind fun task => play env cfg (c.begin cfg task) moves

theorem Runs.play {moves : List Move} : ∀ {c c' : Goroutines}, Runs env cfg c → Worker.play env cfg c moves = some c' →
    Runs env cfg c' := by
  induction moves with
  | nil =>
    intro c c' h hp
    cases hp
    exact h
  | cons m moves ih =>
    intro c c' h hp
    cases m with
    | step i =>
      obtain ⟨c₁, hs, hp⟩ := Option.bind_eq_some_iff.1 hp
      exact ih (h.step hs) hp
    | begin =>
      obtain ⟨task, ht, hp⟩ := Option.bind_eq_some_iff.1 hp
      exact ih (h.begin (List.mem_of_mem_head? ht)) hp

end Whole

end Distsched.Worker
