/-
The handlers of a node as compositions. A property of programs that is closed under composition, and holds of single
operations and of a few parts of the handlers, holds of every activity. So what is to be shown of all handlers under a
protocol is shown of the parts that the protocol is about.
-/
import Distsched.Scheduler.Run

namespace Distsched.Scheduler

/-- The operations that neither store a job nor put one into the queue nor arm a timer. -/
def Plain : Op → Prop
  | .putJob _ | .push .. | .startTimer .. => False
  | _ => True

/-- A property of programs, with a clause for each way in which handlers are put together. Of a job that is read it may be
used that it is `Good`, and of an instant that is read that it is a `Stamp`. -/
structure Routine (K : (α : Type) → M α → Prop) (Good : Job → Prop) (Stamp : Time → Prop) : Prop where
  pure : ∀ {α : Type} (a : α), K α (Pure.pure a)
  bind : ∀ {α β : Type} {p : M α} {f : α → M β}, K α p → (∀ a, K β (f a)) → K β (p >>= f)
  act : ∀ op, Plain op → K op.Resp (Scheduler.act op)
  getJob : ∀ {β : Type} (x : String) {f : Except StoreError Job → M β}, (∀ e, K β (f (.error e))) →
    (∀ j, j.id = x → Good j → K β (f (.ok j))) → K β (Db.getJob x >>= f)
  now : ∀ {β : Type} {f : Time → M β}, (∀ t, Stamp t → K β (f t)) → K β (timeNow >>= f)
  utc : ∀ t, Stamp t → Stamp (.utc t.ns)

variable {K : (α : Type) → M α → Prop} {Good : Job → Prop} {Stamp : Time → Prop} {cfg : Config} {ps : Cron}

namespace Routine

variable (h : Routine K Good Stamp)

include h

theorem forM {ι : Type} {f : ι → M PUnit} {l : List ι} (hf : ∀ a ∈ l, K PUnit (f a)) : K PUnit (l.forM f) := by
  induction l with
  | nil => exact h.pure _
  | cons a l ih => exact h.bind (hf a List.mem_cons_self) fun _ => ih fun b hb => hf b (List.mem_cons_of_mem a hb)

theorem appendRepl (m : Mutation) : K Unit (appendRepl m) := by
  refine h.bind (h.act .isLeader trivial) fun leads => ?_
  cases leads with
  | true => exact h.act (.appendLog m) trivial
  | false => exact h.pure _

/-- What a handler does once it is known that the node leads. -/
theorem leading {β : Type} {f : Option Status → M β} (hd : ∀ e, K β (f (some e))) (hf : K β (f none)) :
    K β (requireLeader cfg >>= f) := by
  have hrequire : K (Option Status) (requireLeader cfg) := by
    refine h.bind (h.act .isLeader trivial) fun leads => ?_
    cases leads with
    | true => exact h.pure _
    | false => exact h.bind (h.bind (h.act .leaderID trivial) fun _ => h.pure _) fun _ => h.pure _
  refine h.bind hrequire fun denied => ?_
  cases denied with
  | some e => exact hd e
  | none => exact hf

theorem depsSatisfied (deps : List String) : K (Bool × String) (depsSatisfied deps) := by
  induction deps with
  | nil => exact h.pure _
  | cons d rest ih =>
    refine h.getJob d (fun _ => h.pure _) fun dep _ _ => ?_
    dsimp only
    cases dep.state
    case succeeded => exact ih
    all_goals exact h.pure _

/-! ## Cancellation -/

theorem cancelOne (hput : ∀ j, j.state = .canceled → K _ (putJob j)) (cur reason : String) (now : Int) :
    K Unit (cancelOne cur reason now) := by
  refine h.getJob cur (fun _ => h.pure _) fun job _ _ => ?_
  dsimp only
  split
  · exact h.pure _
  · refine h.bind (hput _ rfl) fun _ => ?_
    exact h.bind (h.act (.remove cur) trivial) fun _ => h.pure _

theorem cascadeLoop (hput : ∀ j, j.state = .canceled → K _ (putJob j)) (now : Int) (fuel : Nat) (visited work : List String)
    (reason : String) : K Unit (cascadeLoop now fuel visited work reason) := by
  induction fuel generalizing visited work reason with
  | zero => exact h.pure _
  | succ fuel ih =>
    cases work with
    | nil => exact h.pure _
    | cons cur work =>
      unfold Scheduler.cascadeLoop
      split
      · exact ih visited work reason
      · refine h.bind (h.cancelOne hput cur reason now) fun _ => ?_
        refine h.bind (h.act (.dependentsOf cur) trivial) fun deps => ?_
        exact h.bind (h.act (.removeFromIndex cur) trivial) fun _ => ih _ _ _

theorem cancelCascade (hput : ∀ j, j.state = .canceled → K _ (putJob j)) (x reason : String) :
    K Unit (cancelCascade x reason) :=
  h.bind (h.act .now trivial) fun _ => h.bind (h.act .indexBound trivial) fun _ => h.cascadeLoop hput _ _ _ _ _

theorem cancelJob (hput : ∀ j, j.state = .canceled → K _ (putJob j)) (x : String) : K _ (cancelJob cfg x) := by
  have hload : K _ (loadJob x) := by
    unfold loadJob
    split
    · exact h.pure _
    · refine h.bind (h.act (.getJob x) trivial) fun r => ?_
      rcases r with (_ | _) | _ <;> exact h.pure _
  refine h.leading (fun _ => h.pure _) (h.bind hload fun r => ?_)
  cases r with
  | error e => exact h.pure _
  | ok job =>
    dsimp only
    split
    · exact h.pure _
    · split
      · exact h.pure _
      · refine h.bind (h.act .now trivial) fun now => h.bind (hput _ rfl) fun r => ?_
        cases r with
        | error e => exact h.pure _
        | ok u =>
          refine h.bind (h.act (.remove _) trivial) fun _ => ?_
          exact h.bind (h.cancelCascade hput _ _) fun _ => h.pure _

/-! ## Workers -/

theorem putWorker (w : WorkerInfo) : K _ (putWorker w) := by
  refine h.bind (h.act (.putWorker w) trivial) fun r => ?_
  cases r with
  | error e => exact h.pure _
  | ok u => exact h.bind (h.appendRepl _) fun _ => h.bind (h.act (.cacheWorker w) trivial) fun _ => h.pure _

theorem registerWorker (worker : Option WorkerInfo) : K _ (registerWorker cfg worker) := by
  refine h.leading (fun _ => h.pure _) ?_
  cases worker with
  | none => exact h.pure _
  | some w =>
    have hid : K _ (workerIDFor w) := by
      unfold workerIDFor
      split
      · exact h.act (.newID "worker") trivial
      · exact h.pure _
    refine h.bind hid fun id => h.bind (h.act .now trivial) fun now => h.bind (h.putWorker _) fun r => ?_
    cases r <;> exact h.pure _

theorem heartbeat (w : String) (running : Nat) : K _ (heartbeat cfg w running) := by
  refine h.leading (fun _ => h.pure _) (h.bind (h.act (.getCached w) trivial) fun known => ?_)
  cases known with
  | none => exact h.pure _
  | some cur =>
    refine h.bind (h.act .now trivial) fun now => h.bind (h.putWorker _) fun r => ?_
    cases r <;> exact h.pure _

/-! ## Recovery -/

theorem clearSchedulingState : K Unit clearSchedulingState :=
  h.bind (h.act .clearQueue trivial) fun _ => h.bind (h.act .clearDispatch trivial) fun _ => h.act .clearIndex trivial

theorem onBecomeLeader (hrebuild : K _ (rebuildSchedulingState ps)) : K Unit (onBecomeLeader ps) := by
  refine h.bind hrebuild fun _ => h.bind (h.act .listJobs trivial) fun _ => ?_
  exact h.bind (h.act .listWorkers trivial) fun _ => h.act (.installLog _ _) trivial

theorem recover : K _ recover := by
  refine h.bind (h.act .listWorkers trivial) fun r => ?_
  cases r with
  | error e => exact h.pure _
  | ok ws => exact h.bind (h.forM fun w _ => h.act (.cacheWorker w) trivial) fun _ => h.pure _

theorem boot (hrebuild : K _ (rebuildSchedulingState ps)) (node : Cluster.Node) : K Unit (boot ps node) := by
  refine h.bind h.recover fun r => ?_
  cases r with
  | error e => exact h.pure _
  | ok u => exact h.bind (h.act (.gainLead node) trivial) fun _ => h.onBecomeLeader hrebuild

end Routine

/-- The parts that place and promote jobs have the property. -/
structure Placing (ps : Cron) (K : (α : Type) → M α → Prop) (Good : Job → Prop) (Stamp : Time → Prop) : Prop extends
    Routine K Good Stamp where
  canceled : ∀ j, j.state = .canceled → K _ (putJob j)
  pending : ∀ j, j.state = .pending → j.attempt = 0 → K _ (putJob j)
  makeReady : ∀ job now, (job.attempt = 0 ∨ Good job ∧ job.state = .pending) → Stamp now → K _ (makeReady ps job now)

namespace Placing

variable (h : Placing ps K Good Stamp)

include h

theorem placeNewJob {job : Job} {now : Time} (ha : job.attempt = 0) (hn : Stamp now) : K Unit (placeNewJob ps job now) := by
  refine h.bind (h.depsSatisfied _) fun ⟨ready, failedDep⟩ => ?_
  dsimp only
  split
  · exact h.bind (h.canceled _ rfl) fun _ => h.pure _
  · split
    · exact h.bind (h.pending _ rfl ha) fun _ => h.act (.addDeps job) trivial
    · exact h.makeReady job now (.inl ha) hn

theorem tryPromote (x : String) : K Unit (tryPromote ps x) := by
  refine h.getJob x (fun _ => h.pure _) fun job _ hgood => ?_
  dsimp only
  split
  · exact h.pure _
  · rename_i hs
    refine h.bind (h.depsSatisfied _) fun p => ?_
    split
    · exact h.cancelCascade h.canceled _ _
    · split
      · refine h.now fun now hn => h.bind (h.makeReady job now (.inr ⟨hgood, not_not.1 hs⟩) hn) fun _ => ?_
        exact h.act (.removeFromIndex x) trivial
      · exact h.pure _

theorem promoteDependents (x : String) : K Unit (promoteDependents ps x) :=
  h.bind (h.act (.dependentsOf x) trivial) fun _ => h.forM fun y _ => h.tryPromote y

theorem acceptJob (job : Job) : K _ (acceptJob ps job) := by
  have hcheck : K _ (formsCycle job) := by
    unfold formsCycle
    split
    · refine h.bind (h.act .listJobs trivial) fun r => ?_
      cases r <;> exact h.pure _
    · exact h.pure _
  refine h.bind hcheck fun cyclic => ?_
  cases cyclic with
  | true => exact h.pure _
  | false => exact h.now fun now hn => h.bind (h.placeNewJob rfl (h.utc now hn)) fun _ => h.pure _

theorem submitJob (req : Option Job) : K _ (submitJob cfg ps req) := by
  have hassign : ∀ job, K _ (assignID job) := by
    intro job
    unfold assignID
    split
    · exact h.bind (h.act (.newID "job") trivial) fun _ => h.pure _
    · exact h.pure _
  refine h.leading (fun _ => h.pure _) ?_
  cases req with
  | none => exact h.pure _
  | some job =>
    dsimp only
    split
    · exact h.pure _
    · split
      · exact h.bind (hassign job) fun job => h.acceptJob job
      · refine h.bind (h.act .now trivial) fun now => ?_
        split
        · exact h.pure _
        · exact h.bind (hassign job) fun job => h.acceptJob job

end Placing

/-- The parts that end an attempt have the property as well. -/
structure Ending (ps : Cron) (K : (α : Type) → M α → Prop) (Good : Job → Prop) (Stamp : Time → Prop) : Prop extends
    Placing ps K Good Stamp where
  handleFailure : ∀ job msg now, Good job → job.state = .running → Stamp now → K _ (handleFailure ps job msg now)
  reportSuccess : ∀ τ job now, Good job → job.state = .running → Stamp now → K _ (reportSuccess ps τ job now)

namespace Ending

variable (h : Ending ps K Good Stamp)

include h

theorem reportTask (τ : String) (result : TaskResult) (error : String) : K _ (reportTask cfg ps τ result error) := by
  have hdrop : K _ (do removeLease τ; pure (.ok true : Except Status Bool)) :=
    h.bind (h.act (.removeLease τ) trivial) fun _ => h.pure _
  refine h.leading (fun _ => h.pure _) (h.bind (h.act (.getLease τ) trivial) fun held => ?_)
  cases held with
  | none => exact h.pure _
  | some ls =>
    refine h.getJob ls.jobID (fun _ => hdrop) fun job _ hgood => ?_
    dsimp only
    split
    · exact hdrop
    · rename_i hs
      have hs : job.state = .running := not_not.1 hs
      refine h.now fun now hn => ?_
      cases result with
      | succeeded => exact h.reportSuccess τ job now hgood hs hn
      | failed =>
        refine h.bind (h.handleFailure job error now hgood hs hn) fun r => ?_
        cases r with
        | error e => exact h.pure _
        | ok u => exact hdrop
      | unspecified => exact h.pure _

theorem requeueLease (τ reason : String) : K Unit (requeueLease ps τ reason) := by
  refine h.bind (h.act (.getLease τ) trivial) fun held => ?_
  cases held with
  | none => exact h.pure _
  | some l =>
    refine h.bind (h.act (.removeLease τ) trivial) fun _ => h.getJob l.jobID (fun _ => h.pure _) fun job _ hgood => ?_
    dsimp only
    split
    · exact h.pure _
    · rename_i hs
      exact h.now fun now hn => h.bind (h.handleFailure job reason now hgood (not_not.1 hs) hn) fun _ => h.pure _

theorem reaperTick : K Unit (reaperTick cfg ps) := by
  have hworker : ∀ w reason, K Unit (requeueLeasesForWorker ps w reason) := fun w reason =>
    h.bind (h.act .listLeases trivial) fun _ => h.forM fun τ _ => h.requeueLease τ reason
  have hreap : K Unit (reapOnce cfg ps) := by
    refine h.bind (h.act .now trivial) fun now => h.bind (h.act .listCached trivial) fun cached => ?_
    refine h.bind (h.forM fun p _ => h.bind (h.putWorker p.2) fun _ => h.pure _) fun _ => ?_
    refine h.bind (h.forM fun id _ => hworker id _) fun _ => ?_
    exact h.bind (h.act .listLeases trivial) fun _ => h.forM fun τ _ => h.requeueLease τ _
  refine h.bind (h.act .isLeader trivial) fun leads => ?_
  cases leads with
  | true => exact hreap
  | false => exact h.pure _

/-- Every activity has the property, if polls, timers and rebuilds have it. -/
theorem call (c : Call) (hpoll : ∀ w n, c = .pollTask w n → K _ (pollTask cfg w n))
    (htimer : ∀ x, c = .timer x → K _ (timerFired x)) (hrebuild : c = .becomeLeader → K _ (rebuildSchedulingState ps)) :
    K Unit (c.prog cfg ps) := by
  cases c with
  | submitJob job => exact h.bind (h.submitJob job) fun _ => h.pure _
  | cancelJob x => exact h.bind (h.cancelJob h.canceled x) fun _ => h.pure _
  | pollTask w n => exact h.bind (hpoll w n rfl) fun _ => h.pure _
  | reportTask τ result error => exact h.bind (h.reportTask τ result error) fun _ => h.pure _
  | registerWorker w => exact h.bind (h.registerWorker w) fun _ => h.pure _
  | heartbeat w n => exact h.bind (h.heartbeat w n) fun _ => h.pure _
  | timer x => exact htimer x rfl
  | reaper => exact h.reaperTick
  | becomeLeader => exact h.onBecomeLeader (hrebuild rfl)

end Ending

end Distsched.Scheduler
