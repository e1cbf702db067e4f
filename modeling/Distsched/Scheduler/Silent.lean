/-
Parts of the handlers under any protocol that takes no note of their operations, and the operations that each program
performs at all. The parts which move jobs neither lease a job nor store one RUNNING or SUCCEEDED, and leave leases and
workers alone.
-/
import Distsched.Scheduler.Handlers

namespace Distsched.Scheduler

open Prog

variable {γ : Type} {P : Protocol Op Op.Resp γ} {g : γ}

theorem meets_requireLeader (cfg : Config) (hl : Silent P .isLeader) (ha : Silent P .leaderID) :
    Meets P (requireLeader cfg) g fun _ g' => g' = g := by
  refine Meets.bind (hl.meets g) ?_
  rintro leads g rfl
  cases leads with
  | true => exact rfl
  | false =>
    have haddr : Meets P (leaderAddr cfg) g fun _ g' => g' = g := Meets.bind (ha.meets g) fun _ _ h => h
    exact haddr.bind fun _ _ h => h

theorem meets_appendRepl (m : Mutation) (hl : Silent P .isLeader) (ha : Silent P (.appendLog m)) :
    Meets P (appendRepl m) g fun _ g' => g' = g := by
  refine Meets.bind (hl.meets g) ?_
  rintro leads g rfl
  cases leads with
  | true => exact ha.meets g
  | false => exact rfl

/-- The schedule part of a job decides its fire time and nothing else. -/
theorem meets_fireTime (ps : Cron) (job : Job) (now : Time) (hn : Silent P .now) :
    Meets P (fireTime ps job now) g fun r g' => g' = g ∧ ∃ t, r.1 = { job with scheduledAt := t } := by
  have htime : ∀ (f : Time → Job × Int), (∀ t, ∃ at_, (f t).1 = { job with scheduledAt := at_ }) →
      Meets P (do let t ← timeNow; pure (f t)) g fun r g' => g' = g ∧ ∃ t, r.1 = { job with scheduledAt := t } :=
    fun f hf => (hn.meets g).bind fun t _ hg => ⟨hg, hf t⟩
  unfold fireTime
  split
  · exact ⟨rfl, job.scheduledAt, rfl⟩
  · split
    · split
      · exact ⟨rfl, job.scheduledAt, rfl⟩
      · exact htime _ fun _ => ⟨_, rfl⟩
    · split
      · exact ⟨rfl, job.scheduledAt, rfl⟩
      · split
        · exact htime _ fun _ => ⟨_, rfl⟩
        · exact ⟨rfl, job.scheduledAt, rfl⟩

theorem meets_depsSatisfied (hg : ∀ id, Silent P (.getJob id)) : ∀ (deps : List String) (g : γ),
    Meets P (depsSatisfied deps) g fun _ g' => g' = g
  | [], _ => rfl
  | d :: rest, g => by
    refine Meets.bind ((hg d).meets g) ?_
    rintro r g rfl
    cases r with
    | error e => exact rfl
    | ok dep =>
      dsimp only
      cases dep.state
      case succeeded => exact meets_depsSatisfied hg rest g
      all_goals exact rfl

theorem meets_enqueueJob (x : String) (hc : Silent P .isClosed) (hl : Silent P .isLeader)
    (hg : ∀ id, Silent P (.getJob id)) (hp : ∀ id p c, Silent P (.push id p c)) :
    Meets P (enqueueJob x) g fun _ g' => g' = g := by
  refine Meets.bind (hc.meets g) ?_
  rintro closed g rfl
  cases closed with
  | true => exact rfl
  | false =>
    refine Meets.bind (hl.meets g) ?_
    rintro leads g rfl
    cases leads with
    | false => exact rfl
    | true =>
      refine Meets.bind ((hg x).meets g) ?_
      rintro r g rfl
      cases r with
      | error e => exact rfl
      | ok job =>
        dsimp only
        split
        · exact rfl
        · exact Meets.bind ((hp job.id job.priority (asTime job.createdAt)).meets g) fun _ _ h => h

theorem meets_armEnqueue (x : String) (delay : Int) (hc : Silent P .isClosed) (hl : Silent P .isLeader)
    (hg : ∀ id, Silent P (.getJob id)) (hp : ∀ id p c, Silent P (.push id p c))
    (ht : ∀ id d, Silent P (.startTimer id d)) : Meets P (armEnqueue x delay) g fun _ g' => g' = g := by
  unfold armEnqueue
  split
  · exact meets_enqueueJob x hc hl hg hp
  · exact (ht x delay).meets g

/-! ## Moving jobs -/

theorem silent_of_ok {ok : Op → Prop} {op : Op} (h : ok op) :
    Silent (⟨fun op (_ : Unit) => ok op, fun _ _ _ => True, fun _ _ _ => ()⟩ : Protocol Op Op.Resp Unit) op :=
  fun _ => ⟨h, fun _ _ => rfl⟩

theorem uses_appendRepl {ok : Op → Prop} (m : Mutation) (hl : ok .isLeader) (ha : ok (.appendLog m)) :
    Uses ok (appendRepl m) :=
  (meets_appendRepl m (silent_of_ok hl) (silent_of_ok ha)).mono fun _ _ _ => trivial

theorem uses_armEnqueue {ok : Op → Prop} (x : String) (delay : Int) (hc : ok .isClosed) (hl : ok .isLeader)
    (hg : ∀ id, ok (.getJob id)) (hp : ∀ id p c, ok (.push id p c)) (ht : ∀ id d, ok (.startTimer id d)) :
    Uses ok (armEnqueue x delay) :=
  (meets_armEnqueue x delay (silent_of_ok hc) (silent_of_ok hl) (fun id => silent_of_ok (hg id))
    (fun id p c => silent_of_ok (hp id p c)) fun id d => silent_of_ok (ht id d)).mono fun _ _ _ => trivial

theorem uses_requireLeader {ok : Op → Prop} (cfg : Config) (hl : ok .isLeader) (ha : ok .leaderID) :
    Uses ok (requireLeader cfg) :=
  (meets_requireLeader cfg (silent_of_ok hl) (silent_of_ok ha)).mono fun _ _ _ => trivial

theorem uses_putJob {ok : Op → Prop} {j : Job} (hp : ok (.putJob j)) (hl : ok .isLeader) (ha : ∀ m, ok (.appendLog m)) :
    Uses ok (putJob j) := by
  refine Uses.bind (Uses.perform hp) fun r => ?_
  cases r with
  | error e => exact Uses.pure _
  | ok u => exact Uses.bind (uses_appendRepl _ hl (ha _)) fun _ => Uses.pure _

theorem uses_reindex {ok : Op → Prop} {j : Job} (h : ok (.addDeps j)) : Uses ok (reindex j) := by
  unfold reindex
  split
  · exact Uses.pure _
  · exact Uses.perform h

theorem uses_putWorker {ok : Op → Prop} {w : WorkerInfo} (hp : ok (.putWorker w)) (hl : ok .isLeader)
    (ha : ∀ m, ok (.appendLog m)) (hc : ok (.cacheWorker w)) : Uses ok (putWorker w) := by
  refine Uses.bind (Uses.perform hp) fun r => ?_
  cases r with
  | error e => exact Uses.pure _
  | ok u => exact Uses.bind (uses_appendRepl _ hl (ha _)) fun _ => Uses.bind (Uses.perform hc) fun _ => Uses.pure _

/-- A write of a job under a watch that takes no note of the log. -/
theorem watch_putJob {env : Env} {B : Op × Server → Prop} {d : Prop} (hl : ∀ s, ¬ B (.isLeader, s))
    (ha : ∀ m s, ¬ B (.appendLog m, s)) (j : Job) (s : Server) : Watch (handle env) B d (putJob j) s fun r d' s' =>
      d' = (d ∨ B (.putJob j, s)) ∧ Writes env j s r s' := by
  have hput : Watch (handle env) B d (Db.putJob j) s fun r d' s' => d' = (d ∨ B (.putJob j, s)) ∧ Writes env j s r s' := by
    refine watch_perform ⟨rfl, ?_⟩
    simp only [handle, Server.write]
    cases he : env.fails s.tick with
    | some e => exact .failed he
    | none => exact .stored he rfl
  refine hput.bind ?_
  rintro r _ s₁ ⟨rfl, h₁⟩
  cases h₁ with
  | failed he => exact watch_pure ⟨rfl, .failed he⟩
  | stored he hs =>
    have huses : Uses (fun op => ∀ s, ¬ B (op, s)) (appendRepl (.upsertJob j)) := uses_appendRepl _ hl (ha _)
    refine ((appendRepl_frame _ s₁).watch fun e he => huses.trace e he e.2).bind ?_
    rintro _ _ s₂ ⟨rfl, h₂⟩
    refine watch_pure ⟨rfl, .stored he (h₂.trans ?_)⟩
    rw [hs]

/-- The operations by which jobs are moved. -/
def Moves : Op → Prop
  | .putJob j => j.state ≠ .running ∧ j.state ≠ .succeeded
  | .addLease _ | .removeLease _ | .clearDispatch | .clearQueue | .clearIndex | .pop | .deleteTimer _ => False
  | .gainLead _ | .leaderID | .putWorker _ | .cacheWorker _ | .installLog .. => False
  | _ => True

theorem leases_of_moves {env : Env} {op : Op} {s : Server} (h : Moves op) : (handle env op s).2.leases = s.leases := by
  cases op with
  | addLease | removeLease | clearDispatch => exact h.elim
  | putJob | putDeadLetter | putWorker =>
    simp only [handle, Server.write]
    split <;> rfl
  | _ => rfl

theorem moves_putJob {job : Job} (h : job.state ≠ .running) (h' : job.state ≠ .succeeded) : Uses Moves (putJob job) :=
  uses_putJob ⟨h, h'⟩ trivial fun _ => trivial

theorem moves_armEnqueue (x : String) (delay : Int) : Uses Moves (armEnqueue x delay) :=
  uses_armEnqueue x delay trivial trivial (fun _ => trivial) (fun _ _ _ => trivial) fun _ _ => trivial

theorem moves_depsSatisfied (deps : List String) : Uses Moves (depsSatisfied deps) :=
  (meets_depsSatisfied (fun _ => silent_of_ok trivial) deps ()).mono fun _ _ _ => trivial

theorem moves_makeReady (ps : Cron) (job : Job) (now : Time) : Uses Moves (makeReady ps job now) := by
  have hfire : Uses Moves (fireTime ps job now) :=
    (meets_fireTime ps job now (silent_of_ok trivial)).mono fun _ _ _ => trivial
  refine Uses.bind hfire fun p => Uses.bind (moves_putJob nofun nofun) fun r => ?_
  cases r with
  | error e => exact Uses.pure _
  | ok u => exact moves_armEnqueue _ _

theorem moves_cascadeLoop (now : Int) : ∀ (fuel : Nat) (visited work : List String) (reason : String),
    Uses Moves (cascadeLoop now fuel visited work reason)
  | 0, _, _, _ => Uses.pure _
  | _ + 1, _, [], _ => Uses.pure _
  | fuel + 1, visited, cur :: work, reason => by
    have hone : Uses Moves (cancelOne cur reason now) := by
      refine Uses.bind (Uses.perform trivial) fun r => ?_
      cases r with
      | error e => exact Uses.pure _
      | ok job =>
        dsimp only
        split
        · exact Uses.pure _
        · exact Uses.bind (moves_putJob nofun nofun) fun _ => Uses.bind (Uses.perform trivial) fun _ => Uses.pure _
    unfold cascadeLoop
    split
    · exact moves_cascadeLoop now fuel visited work reason
    · refine Uses.bind hone fun _ => Uses.bind (Uses.perform trivial) fun _ => Uses.bind (Uses.perform trivial) fun _ => ?_
      exact moves_cascadeLoop now fuel _ _ _

theorem moves_cancelCascade (x reason : String) : Uses Moves (cancelCascade x reason) :=
  Uses.bind (Uses.perform trivial) fun _ => Uses.bind (Uses.perform trivial) fun _ => moves_cascadeLoop _ _ _ _ _

theorem moves_tryPromote (ps : Cron) (x : String) : Uses Moves (tryPromote ps x) := by
  refine Uses.bind (Uses.perform trivial) fun r => ?_
  cases r with
  | error e => exact Uses.pure _
  | ok job =>
    dsimp only
    split
    · exact Uses.pure _
    · refine Uses.bind (moves_depsSatisfied _) fun p => ?_
      split
      · exact moves_cancelCascade _ _
      · split
        · refine Uses.bind (Uses.perform trivial) fun _ => Uses.bind (moves_makeReady ps _ _) fun _ => ?_
          exact Uses.perform trivial
        · exact Uses.pure _

theorem moves_promoteDependents (ps : Cron) (x : String) : Uses Moves (promoteDependents ps x) :=
  Uses.bind (Uses.perform trivial) fun _ => Uses.forM fun y => moves_tryPromote ps y

theorem moves_maybeRescheduleCron (ps : Cron) (job : Job) (now : Time) : Uses Moves (maybeRescheduleCron ps job now) := by
  unfold maybeRescheduleCron
  split
  · exact Uses.pure _
  · split
    · exact Uses.pure _
    · refine Uses.bind (moves_putJob nofun nofun) fun r => ?_
      cases r with
      | error e => exact Uses.pure _
      | ok u =>
        exact Uses.bind (Uses.perform trivial) fun _ => Uses.bind (moves_armEnqueue _ _) fun _ => Uses.pure _

theorem moves_handleFailure (ps : Cron) (job : Job) (err : String) (now : Time) :
    Uses Moves (handleFailure ps job err now) := by
  unfold handleFailure
  dsimp only
  split
  · refine Uses.bind (Uses.perform trivial) fun _ => Uses.bind (moves_putJob nofun nofun) fun r => ?_
    cases r with
    | error e => exact Uses.pure _
    | ok u => exact Uses.bind (moves_armEnqueue _ _) fun _ => Uses.pure _
  · refine Uses.bind (moves_maybeRescheduleCron ps _ now) fun p => ?_
    split
    · exact Uses.pure _
    · refine Uses.bind (Uses.perform trivial) fun r => ?_
      cases r with
      | error e => exact Uses.pure _
      | ok u =>
        refine Uses.bind (moves_putJob nofun nofun) fun r => ?_
        cases r with
        | error e => exact Uses.pure _
        | ok u =>
          exact Uses.bind (Uses.perform trivial) fun _ => Uses.bind (moves_cancelCascade _ _) fun _ => Uses.pure _

/-- What is left of a requeue once the lease is dropped. -/
theorem moves_requeued (ps : Cron) (x reason : String) : Uses Moves (do
    match ← Db.getJob x with
    | .error _ => pure ()
    | .ok job =>
      if job.state ≠ .running then pure ()
      else
        let now ← timeNow
        let _ ← handleFailure ps job reason now) := by
  refine Uses.bind (Uses.perform trivial) fun r => ?_
  cases r with
  | error e => exact Uses.pure _
  | ok job =>
    dsimp only
    split
    · exact Uses.pure _
    · exact Uses.bind (Uses.perform trivial) fun now => Uses.bind (moves_handleFailure ps job reason now) fun _ => Uses.pure _

theorem moves_acceptJob (ps : Cron) (job : Job) : Uses Moves (acceptJob ps job) := by
  have hcheck : Uses Moves (formsCycle job) := by
    unfold formsCycle
    split
    · refine Uses.bind (Uses.perform trivial) fun r => ?_
      cases r <;> exact Uses.pure _
    · exact Uses.pure _
  refine Uses.bind hcheck fun cyclic => ?_
  cases cyclic with
  | true => exact Uses.pure _
  | false =>
    refine Uses.bind (Uses.perform trivial) fun now => Uses.bind ?_ fun _ => Uses.pure _
    refine Uses.bind (moves_depsSatisfied _) fun ⟨ready, failedDep⟩ => ?_
    dsimp only
    split
    · exact Uses.bind (moves_putJob nofun nofun) fun _ => Uses.pure _
    · split
      · exact Uses.bind (moves_putJob nofun nofun) fun _ => Uses.perform trivial
      · exact moves_makeReady ps _ _

theorem moves_rebuildJob (ps : Cron) (now : Time) (j : Job) : Uses Moves (rebuildJob ps now j) := by
  refine Uses.bind (uses_reindex trivial) fun _ => ?_
  split
  · split
    · exact Uses.bind (Uses.perform trivial) fun _ => Uses.pure _
    · exact moves_armEnqueue _ _
  · exact Uses.bind (moves_handleFailure ps _ _ _) fun _ => Uses.pure _
  · exact Uses.pure _

theorem recover_uses : Uses (fun op => op = .listWorkers ∨ ∃ w, op = .cacheWorker w) recover := by
  refine Uses.bind (Uses.perform (.inl rfl)) fun r => ?_
  cases r with
  | error e => exact Uses.pure _
  | ok ws => exact Uses.bind (Uses.forM fun w => Uses.perform (.inr ⟨w, rfl⟩)) fun _ => Uses.pure _

/-! ## The handlers -/

section Handlers

variable {ok : Op → Prop} (hm : ∀ op, Moves op → ok op)

include hm

theorem uses_submitJob (cfg : Config) (ps : Cron) (hl : ok .leaderID) (req : Option Job) :
    Uses ok (submitJob cfg ps req) := by
  have hplace : ∀ job, Uses ok (assignID job >>= acceptJob ps) := by
    intro job
    refine Uses.bind ?_ fun job => (moves_acceptJob ps job).mono hm
    unfold assignID
    split
    · exact Uses.bind (Uses.perform (hm _ trivial)) fun _ => Uses.pure _
    · exact Uses.pure _
  refine Uses.bind (uses_requireLeader cfg (hm _ trivial) hl) fun denied => ?_
  cases denied with
  | some e => exact Uses.pure _
  | none =>
    cases req with
    | none => exact Uses.pure _
    | some job =>
      dsimp only
      split
      · exact Uses.pure _
      · split
        · exact hplace job
        · refine Uses.bind (Uses.perform (hm _ trivial)) fun now => ?_
          split
          · exact Uses.pure _
          · exact hplace job

theorem uses_cancelJob (cfg : Config) (hl : ok .leaderID) (x : String) : Uses ok (cancelJob cfg x) := by
  have hload : Uses ok (loadJob x) := by
    unfold loadJob
    split
    · exact Uses.pure _
    · refine Uses.bind (Uses.perform (hm _ trivial)) fun r => ?_
      rcases r with (_ | _) | _ <;> exact Uses.pure _
  refine Uses.bind (uses_requireLeader cfg (hm _ trivial) hl) fun denied => ?_
  cases denied with
  | some e => exact Uses.pure _
  | none =>
    refine Uses.bind hload fun r => ?_
    cases r with
    | error e => exact Uses.pure _
    | ok job =>
      dsimp only
      split
      · exact Uses.pure _
      · split
        · exact Uses.pure _
        · refine Uses.bind (Uses.perform (hm _ trivial)) fun now => Uses.bind (Uses.mono hm (moves_putJob nofun nofun)) fun r => ?_
          cases r with
          | error e => exact Uses.pure _
          | ok u =>
            refine Uses.bind (Uses.perform (hm _ trivial)) fun _ => ?_
            exact Uses.bind ((moves_cancelCascade _ _).mono hm) fun _ => Uses.pure _

theorem uses_reportTask (cfg : Config) (ps : Cron) (hl : ok .leaderID) (hr : ∀ τ, ok (.removeLease τ))
    (hs : ∀ j, j.state = .succeeded → ok (.putJob j)) (τ : String) (result : TaskResult) (error : String) :
    Uses ok (reportTask cfg ps τ result error) := by
  have hdrop : Uses ok (do removeLease τ; pure (.ok true : Except Status Bool)) :=
    Uses.bind (Uses.perform (hr τ)) fun _ => Uses.pure _
  have hsuccess : ∀ job now, Uses ok (reportSuccess ps τ job now) := by
    intro job now
    refine Uses.bind (Uses.perform (hr τ)) fun _ => Uses.bind ((moves_maybeRescheduleCron ps job now).mono hm) ?_
    rintro ⟨rescheduled, job'⟩
    cases rescheduled with
    | true => exact Uses.pure _
    | false =>
      refine Uses.bind (uses_putJob (hs _ rfl) (hm _ trivial) fun _ => hm _ trivial) fun r => ?_
      cases r with
      | error e => exact Uses.pure _
      | ok u =>
        refine Uses.bind (Uses.perform (hm _ trivial)) fun _ => ?_
        exact Uses.bind ((moves_promoteDependents ps _).mono hm) fun _ => Uses.pure _
  refine Uses.bind (uses_requireLeader cfg (hm _ trivial) hl) fun denied => ?_
  cases denied with
  | some e => exact Uses.pure _
  | none =>
    refine Uses.bind (Uses.perform (hm _ trivial)) fun held => ?_
    cases held with
    | none => exact Uses.pure _
    | some l =>
      refine Uses.bind (Uses.perform (hm _ trivial)) fun r => ?_
      cases r with
      | error e => exact hdrop
      | ok job =>
        dsimp only
        split
        · exact hdrop
        · refine Uses.bind (Uses.perform (hm _ trivial)) fun now => ?_
          cases result with
          | succeeded => exact hsuccess job now
          | failed =>
            refine Uses.bind ((moves_handleFailure ps job error now).mono hm) fun r => ?_
            cases r with
            | error e => exact Uses.pure _
            | ok u => exact hdrop
          | unspecified => exact Uses.pure _

theorem uses_pollLoop (cfg : Config) (w : String) (now : Int) (n : Nat) (hq : ok .pop)
    (hp : ∀ j, j.state = .running → ok (.putJob j)) (ha : ∀ l, l.workerID = w → ok (.addLease l)) :
    ∀ (fuel : Nat) (out : List TaskAssignment), Uses ok (pollLoop cfg w now n fuel out)
  | 0, _ => Uses.pure _
  | fuel + 1, out => by
    have hagain := uses_pollLoop cfg w now n hq hp ha fuel
    unfold pollLoop
    split
    · refine Uses.bind (Uses.perform hq) fun popped => ?_
      cases popped with
      | none => exact Uses.pure _
      | some x =>
        refine Uses.bind (Uses.perform (hm _ trivial)) fun r => ?_
        cases r with
        | error e => exact hagain out
        | ok job =>
          dsimp only
          split
          · exact hagain out
          · refine Uses.bind (Uses.perform (hm _ trivial)) fun τ => ?_
            refine Uses.bind (uses_putJob (hp _ rfl) (hm _ trivial) fun _ => hm _ trivial) fun r => ?_
            cases r with
            | error e => exact Uses.bind (Uses.perform (hm _ trivial)) fun _ => Uses.pure _
            | ok u => exact Uses.bind (Uses.perform (ha _ rfl)) fun _ => hagain _
    · exact Uses.pure _

theorem uses_pollTask (cfg : Config) (hl : ok .leaderID) (hq : ok .pop) (hp : ∀ j, j.state = .running → ok (.putJob j))
    {w : String} (ha : ∀ l, l.workerID = w → ok (.addLease l)) (n : Int) : Uses ok (pollTask cfg w n) := by
  refine Uses.bind (uses_requireLeader cfg (hm _ trivial) hl) fun denied => ?_
  cases denied with
  | some e => exact Uses.pure _
  | none =>
    refine Uses.bind (Uses.perform (hm _ trivial)) fun known => ?_
    cases known with
    | none => exact Uses.pure _
    | some i =>
      refine Uses.bind (Uses.perform (hm _ trivial)) fun now => Uses.bind (Uses.perform (hm _ trivial)) fun bound => ?_
      exact Uses.bind (uses_pollLoop hm cfg w now.ns _ hq hp ha _ []) fun _ => Uses.pure _

theorem uses_workerIDFor (w : WorkerInfo) : Uses ok (workerIDFor w) := by
  unfold workerIDFor
  split
  · exact Uses.perform (hm _ trivial)
  · exact Uses.pure _

theorem uses_registerWorker (cfg : Config) (hl : ok .leaderID) (hp : ∀ w, w.state = .alive → ok (.putWorker w))
    (hc : ∀ w, w.state = .alive → ok (.cacheWorker w)) (worker : Option WorkerInfo) : Uses ok (registerWorker cfg worker) := by
  refine Uses.bind (uses_requireLeader cfg (hm _ trivial) hl) fun denied => ?_
  cases denied with
  | some e => exact Uses.pure _
  | none =>
    cases worker with
    | none => exact Uses.pure _
    | some w =>
      refine Uses.bind (uses_workerIDFor hm w) fun id => Uses.bind (Uses.perform (hm _ trivial)) fun now => ?_
      refine Uses.bind (uses_putWorker (hp _ rfl) (hm _ trivial) (fun _ => hm _ trivial) (hc _ rfl)) fun r => ?_
      cases r <;> exact Uses.pure _

omit hm in
theorem uses_heartbeat (cfg : Config) (hi : ok .isLeader) (hl : ok .leaderID) (hg : ∀ w, ok (.getCached w)) (hn : ok .now)
    (ha : ∀ m, ok (.appendLog m)) (hp : ∀ w, w.state = .alive → ok (.putWorker w))
    (hc : ∀ w, w.state = .alive → ok (.cacheWorker w)) (w : String) (running : Nat) : Uses ok (heartbeat cfg w running) := by
  refine Uses.bind (uses_requireLeader cfg hi hl) fun denied => ?_
  cases denied with
  | some e => exact Uses.pure _
  | none =>
    refine Uses.bind (Uses.perform (hg w)) fun known => ?_
    cases known with
    | none => exact Uses.pure _
    | some cur =>
      refine Uses.bind (Uses.perform hn) fun now => ?_
      refine Uses.bind (uses_putWorker (hp _ rfl) hi ha (hc _ rfl)) fun r => ?_
      cases r <;> exact Uses.pure _

theorem uses_requeueLease (ps : Cron) (hr : ∀ τ, ok (.removeLease τ)) (τ reason : String) :
    Uses ok (requeueLease ps τ reason) := by
  refine Uses.bind (Uses.perform (hm _ trivial)) fun held => ?_
  cases held with
  | none => exact Uses.pure _
  | some l => exact Uses.bind (Uses.perform (hr τ)) fun _ => (moves_requeued ps l.jobID reason).mono hm

/-- What is left of a sweep once the workers are marked. -/
theorem uses_requeues (ps : Cron) (hr : ∀ τ, ok (.removeLease τ)) (ids : List String) (now : Int) : Uses ok (do
    ids.forM fun id => requeueLeasesForWorker ps id "worker missed heartbeats"
    let ls ← act .listLeases
    ((ls.filter fun p => now > p.2.deadline).map Prod.fst).forM fun τ => requeueLease ps τ "lease deadline exceeded") := by
  have hrequeue : ∀ (τs : List String) reason, Uses ok (τs.forM fun τ => requeueLease ps τ reason) :=
    fun _ reason => Uses.forM fun τ => uses_requeueLease hm ps hr τ reason
  refine Uses.bind (Uses.forM fun id => ?_) fun _ => Uses.bind (Uses.perform (hm _ trivial)) fun ls => hrequeue _ _
  exact Uses.bind (Uses.perform (hm _ trivial)) fun ls => hrequeue _ _

theorem uses_timerFired (hd : ∀ x, ok (.deleteTimer x)) (x : String) : Uses ok (timerFired x) :=
  -- a timer with no delay left runs the same program
  Uses.bind (Uses.perform (hd x)) fun _ => (moves_armEnqueue x 0).mono hm

theorem uses_onBecomeLeader (ps : Cron) (hq : ok .clearQueue) (hd : ok .clearDispatch) (hi : ok .clearIndex)
    (hl : ∀ js ws, ok (.installLog js ws)) : Uses ok (onBecomeLeader ps) := by
  have hclear : Uses ok clearSchedulingState :=
    Uses.bind (Uses.perform hq) fun _ => Uses.bind (Uses.perform hd) fun _ => Uses.perform hi
  have hrebuild : Uses ok (rebuildSchedulingState ps) := by
    refine Uses.bind hclear fun _ => Uses.bind (Uses.perform (hm _ trivial)) fun r => ?_
    cases r with
    | error e => exact Uses.pure _
    | ok jobs =>
      refine Uses.bind (Uses.perform (hm _ trivial)) fun now => ?_
      refine Uses.bind (Uses.forM fun j => (moves_rebuildJob ps now j).mono hm) fun _ => ?_
      exact Uses.forM fun j => (moves_tryPromote ps j.id).mono hm
  refine Uses.bind hrebuild fun _ => Uses.bind (Uses.perform (hm _ trivial)) fun js => ?_
  exact Uses.bind (Uses.perform (hm _ trivial)) fun ws => Uses.perform (hl _ _)

end Handlers

end Distsched.Scheduler
