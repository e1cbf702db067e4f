/-
A cron job is to run again and again: an attempt that ends, well or badly, re-arms the job instead of ending it. If the
write that re-arms it fails, the handlers go on as if the job were no cron job, with the record already reset, and the
next write, if it succeeds, stores the job SUCCEEDED or FAILED, its attempt number and last error gone.

So the job lives on as long as no such write fails alone. `Lasting` says so of a run, by its trace: where an operation
fails to store a job QUEUED and the next one, dead letters apart, stores the same job, that fails as well.
-/
import Distsched.Lifecycle.Budget
import Distsched.Scheduler.Aloof
import Distsched.Scheduler.Conduct
import Distsched.Scheduler.Report

namespace Distsched.Lifecycle

open Scheduler Prog

variable {env : Env} {ps : Cron}

/-! ## Writes that are lost -/

/-- The job that an operation has failed to store QUEUED. -/
def lost (env : Env) (e : Op × Server) : Option String := match e.1 with
  | .putJob j => if j.state = .queued ∧ (env.fails e.2.tick).isSome then some j.id else none
  | _ => none

/-- The job whose record an operation writes. -/
def written : Op → Option String
  | .putJob j => some j.id
  | _ => none

/-- Every operation but the writing of a dead letter. -/
def notDeadLetter : Op → Bool
  | .putDeadLetter _ => false
  | _ => true

/-- If the first operation has failed to store a job QUEUED and the second stores the job, that fails as well. -/
def Lasts (env : Env) (e e' : Op × Server) : Prop :=
  ∀ x ∈ lost env e, written e'.1 = some x → (env.fails e'.2.tick).isSome = true

instance (env : Env) : DecidableRel (Lasts env) := fun e e' =>
  inferInstanceAs (Decidable (∀ x ∈ lost env e, written e'.1 = some x → (env.fails e'.2.tick).isSome = true))

/-- Along the trace no write that re-arms a job fails alone. -/
def Lasting (env : Env) (tr : List (Op × Server)) : Prop := (tr.filter fun e => notDeadLetter e.1).IsChain (Lasts env)

instance (env : Env) (tr : List (Op × Server)) : Decidable (Lasting env tr) :=
  inferInstanceAs (Decidable (List.IsChain ..))

theorem Lasting.left {tr tr' : List (Op × Server)} (h : Lasting env (tr ++ tr')) : Lasting env tr := by
  unfold Lasting at h ⊢
  rw [List.filter_append] at h
  exact h.left_of_append

theorem Lasting.right {tr tr' : List (Op × Server)} (h : Lasting env (tr ++ tr')) : Lasting env tr' := by
  unfold Lasting at h ⊢
  rw [List.filter_append] at h
  exact h.right_of_append

/-- An activity that runs to its end, and in which no write that re-arms a job fails alone. -/
def RearmsOrStops (env : Env) (ps : Cron) (s : Server) : Event → Prop
  | .call c => Lasting env (trace (handle env) (c.prog env.cfg ps) s)
  | .crash .. => False

theorem lost_putJob {j : Job} {s : Server} {err : String} (hs : j.state = .queued) (he : env.fails s.tick = some err) :
    lost env (.putJob j, s) = some j.id := by
  simp [lost, hs, he]

theorem lost_putJob_ok {j : Job} {s : Server} (he : env.fails s.tick = none) : lost env (.putJob j, s) = none := by
  simp [lost, he]

theorem lost_other {op : Op} (h : ∀ j, op ≠ .putJob j) (s : Server) : lost env (op, s) = none := by
  unfold lost
  split
  · rename_i j hj
    exact absurd hj (h j)
  · rfl

/-! ## No activity ends a cron job -/

/-- Every record of a cron job that is stored in a state that ends the job was stored before. -/
def EndsNone (ps : Cron) (s s' : Server) : Prop :=
  ∀ x j, s'.store.jobs.get x = some j → Recurs ps j → Concluded j.state → s.store.jobs.get x = some j

theorem EndsNone.refl (s : Server) : EndsNone ps s s := fun _ _ hj _ _ => hj

theorem EndsNone.trans (s₁ s₂ s₃ : Server) (h : EndsNone ps s₁ s₂) (h' : EndsNone ps s₂ s₃) : EndsNone ps s₁ s₃ :=
  fun x j hj hrec hc => h x j (h' x j hj hrec hc) hrec hc

theorem EndsNone.of_table {s s' : Server} (h : table s' = table s) : EndsNone ps s s' := by
  intro x j hj _ _
  exact (congrFun h x).symm.trans hj

/-- The job that a handler knows it could not store QUEUED is the one the operation before it, dead letters apart, has
lost. -/
def Recent (env : Env) (g : Trail) (e : Op × Server) : Prop := ∀ x, g.lost = some x → lost env e = some x

/-- Only a write of a job is remembered as lost. -/
theorem next_lost {op : Op} (hput : ∀ j, op ≠ .putJob j) (hdead : notDeadLetter op = true) (g : Trail) (r : op.Resp) :
    (g.next op r).lost = none := by
  cases op with
  | putJob j => exact absurd rfl (hput j)
  | putDeadLetter j => cases hdead
  | getJob id | listJobs => cases r <;> rfl
  | _ => rfl

theorem Recent.of_none {g : Trail} (h : g.lost = none) (e : Op × Server) : Recent env g e := by
  intro x hx
  rw [h] at hx
  cases hx

section

variable {g : Trail} {s : Server} {e : Op × Server} {j : Job}

/-- A write that the rules allow ends a cron job only after a loss of the same job, and then it fails. -/
theorem Recent.putJob (hg : Recent env g e) (hl : Lasts env e (.putJob j, s)) (hp : (conduct ps).permits (.putJob j) g) :
    Recent env (g.next (.putJob j) (handle env (.putJob j) s).1) (.putJob j, s) ∧
      EndsNone ps s (handle env (.putJob j) s).2 := by
  cases he : env.fails s.tick with
  | some err =>
    simp only [handle, Server.write, he]
    refine ⟨fun x hx => ?_, .of_table rfl⟩
    obtain ⟨hs, rfl⟩ : j.state = .queued ∧ j.id = x := by simpa [Trail.next] using hx
    exact lost_putJob hs he
  | none =>
    simp only [handle, Server.write, he]
    refine ⟨.of_none rfl _, fun x j' hj' hrec hc => ?_⟩
    replace hj' : (s.store.jobs.put j).get x = some j' := hj'
    rw [Bucket.get_put] at hj'
    split at hj'
    · cases hj'
      have hfails := hl j.id (hg j.id (hp.2 hc hrec)) rfl
      rw [he] at hfails
      cases hfails
    · exact hj'

/-- A dead letter is not remembered, and does not make a loss forgotten. -/
theorem Recent.putDeadLetter (hg : Recent env g e) (r : Except String Unit) :
    Recent env (g.next (.putDeadLetter j) r) e := by
  cases r with
  | error err => exact .of_none rfl _
  | ok u => exact hg

/-- Every operation of a handler that keeps the rules. -/
theorem Recent.step (op : Op) (hg : Recent env g e) (hl : notDeadLetter op = true → Lasts env e (op, s))
    (hp : (conduct ps).permits op g) :
    Recent env (g.next op (handle env op s).1) (if notDeadLetter op then (op, s) else e) ∧
      EndsNone ps s (handle env op s).2 := by
  by_cases hput : ∃ j, op = .putJob j
  · obtain ⟨j, rfl⟩ := hput
    exact hg.putJob (hl rfl) hp
  · refine ⟨?_, .of_table (table_handle (not_exists.1 hput))⟩
    split
    · rename_i hdead
      exact .of_none (next_lost (not_exists.1 hput) hdead g _) _
    · rename_i hdead
      cases op with
      | putDeadLetter j => exact hg.putDeadLetter _
      | _ => exact absurd rfl hdead

end

theorem endsNone_call {c : Call} {s : Server} (h : Lasting env (trace (handle env) (c.prog env.cfg ps) s)) :
    EndsNone ps s (after env ps s c) := by
  -- nothing is lost before the activity begins
  have hchain : List.IsChain (Lasts env)
      ((.now, s) :: (trace (handle env) (c.prog env.cfg ps) s).filter fun e => notDeadLetter e.1) :=
    List.isChain_cons.2 ⟨fun _ _ _ hx => (nomatch hx), h⟩
  have hstep : ∀ op g s e, Recent env g e → (notDeadLetter op = true → Lasts env e (op, s)) →
      (conduct ps).permits op g → (conduct ps).answers op (handle env op s).1 g ∧
        Recent env ((conduct ps).next op (handle env op s).1 g) (if notDeadLetter op then (op, s) else e) ∧
        EndsNone ps s (handle env op s).2 :=
    fun op _ s _ hg hl hp => ⟨conduct_answers op s, hg.step op hl hp⟩
  exact Meets.chain EndsNone.refl EndsNone.trans hstep (clean_call env.cfg c {}) (.of_none rfl _) hchain

/-! ## The job over a run -/

section

variable {T T' : Table} {x : String} {j j₀ : Job}

/-- A job keeps what its submission has fixed as long as it is not submitted again. -/
theorem Entries.plan_eq (h : Entries (fun _ y => y ≠ x) T T') (hj : T x = some j₀) :
    ∃ j, T' x = some j ∧ plan j = plan j₀ := by
  induction h with
  | refl => exact ⟨j₀, hj, rfl⟩
  | tail _ he ih =>
    obtain ⟨j₁, hj₁, hp₁⟩ := ih
    cases he with
    | @revise _ j hT hr =>
      by_cases hx : j.id = x
      · subst hx
        obtain rfl := Option.some.inj (hT.symm.trans hj₁)
        exact ⟨j, Function.update_self .., hr.plan_eq.trans hp₁⟩
      · exact ⟨j₁, (Function.update_of_ne (Ne.symm hx) ..).trans hj₁, hp₁⟩
    | place hne => exact ⟨j₁, (Function.update_of_ne (Ne.symm hne) ..).trans hj₁, hp₁⟩

theorem recurs_of_plan (h : plan j = plan j₀) (hrec : Recurs ps j₀) : Recurs ps j := by
  unfold Recurs
  rw [cronExpr_of_plan h]
  exact hrec

/-- A cron job is stored over a whole run as the cron job it is, and never in a state that ends it. -/
theorem recurring_of_runs {s₀ s : Server} (hj : s₀.store.jobs.get x = some j₀) (hrec : Recurs ps j₀)
    (hs : ¬ Concluded j₀.state) (h : Runs env ps (fun s ev => SparesID x env s ev ∧ RearmsOrStops env ps s ev) s₀ s) :
    ∃ j, s.store.jobs.get x = some j ∧ Recurs ps j ∧ ¬ Concluded j.state := by
  induction h with
  | refl => exact ⟨j₀, hj, hrec, hs⟩
  | @step s s' ev _ hev hstep ih =>
    obtain ⟨j, hj, hrec, hs⟩ := ih
    obtain ⟨hspares, hlasting⟩ := hev
    obtain ⟨j', hj', hplan⟩ := Entries.plan_eq (step_entries hspares hstep) hj
    refine ⟨j', hj', recurs_of_plan hplan hrec, fun hc => ?_⟩
    cases ev with
    | crash => exact hlasting
    | call c =>
      obtain ⟨-, ⟨⟩⟩ := Option.ite_none_right_eq_some.1 hstep
      -- a record that ends the job was stored before
      have hold := endsNone_call hlasting x j' hj' (recurs_of_plan hplan hrec) hc
      obtain rfl := Option.some.inj (hold.symm.trans hj)
      exact hs hc

end

/-! ## The record after a lost write -/

/-- In the run of `p` a write that was to store the job QUEUED fails. -/
def Foiled (env : Env) (x : String) {α : Type} (p : M α) (s : Server) : Prop :=
  ∃ e ∈ trace (handle env) p s, lost env e = some x

/-- A run that fails to store the job QUEUED, and in which such failures last, leaves the stored jobs as they are. -/
def Intact (env : Env) (x : String) {α : Type} (p : M α) (s : Server) : Prop :=
  Lasting env (trace (handle env) p s) → Foiled env x p s → (exec (handle env) p s).2.store.jobs = s.store.jobs

/-- The operations that write no job. -/
def OffJobs : Op → Prop
  | .putJob _ => False
  | _ => True

theorem OffJobs.ne {op : Op} (h : OffJobs op) (j : Job) : op ≠ .putJob j := by
  rintro rfl
  exact h

theorem jobs_handle {op : Op} (s : Server) (h : OffJobs op) : (handle env op s).2.store.jobs = s.store.jobs := by
  apply Bucket.ext_get
  intro id
  exact congrFun (table_handle h.ne) id

theorem offJobs_armEnqueue (y : String) (delay : Int) : Uses OffJobs (armEnqueue y delay) :=
  uses_armEnqueue y delay trivial trivial (fun _ => trivial) (fun _ _ _ => trivial) fun _ _ => trivial

theorem offJobs_requireLeader (cfg : Config) : Uses OffJobs (requireLeader cfg) :=
  uses_requireLeader cfg trivial trivial

section

variable {α β : Type} {x : String} {s : Server}

theorem jobs_of_offJobs {p : M α} (hp : Uses OffJobs p) (s : Server) :
    (exec (handle env) p s).2.store.jobs = s.store.jobs :=
  hp.frame (fun s => s.store.jobs) (fun _ s hop => jobs_handle s hop) s

theorem not_foiled {p : M α} (hp : Uses OffJobs p) : ¬ Foiled env x p s := by
  rintro ⟨⟨op, s'⟩, he, hlost⟩
  rw [lost_other (hp.trace _ he).ne] at hlost
  cases hlost

theorem Intact.of_offJobs {p : M α} (hp : Uses OffJobs p) : Intact env x p s := fun _ h => absurd h (not_foiled hp)

theorem foiled_bind {p : M α} {f : α → M β} : Foiled env x (p >>= f) s ↔
    Foiled env x p s ∨ Foiled env x (f (exec (handle env) p s).1) (exec (handle env) p s).2 := by
  simp only [Foiled, trace_bind, List.mem_append, or_and_right, exists_or]

/-- What is done before the first write of a job. -/
theorem Intact.after {p : M α} {f : α → M β} (hp : Uses OffJobs p)
    (hf : Intact env x (f (exec (handle env) p s).1) (exec (handle env) p s).2) : Intact env x (p >>= f) s := by
  intro hchain hfoiled
  rw [trace_bind] at hchain
  rw [exec_bind, hf hchain.right ((foiled_bind.1 hfoiled).resolve_left (not_foiled hp))]
  exact jobs_of_offJobs hp s

theorem Intact.act {op : Op} {f : op.Resp → M β} (hop : OffJobs op)
    (hf : Intact env x (f (handle env op s).1) (handle env op s).2) : Intact env x (Scheduler.act op >>= f) s :=
  Intact.after (Uses.perform hop) hf

/-- What is done after the last one. -/
theorem Intact.andThen {p : M α} {f : α → M β} (hp : Intact env x p s) (hf : ∀ a, Uses OffJobs (f a)) :
    Intact env x (p >>= f) s := by
  intro hchain hfoiled
  rw [trace_bind] at hchain
  rw [exec_bind, jobs_of_offJobs (hf _)]
  exact hp hchain.left ((foiled_bind.1 hfoiled).resolve_right (not_foiled (hf _)))

theorem trace_putJob_lost (j : Job) {err : String} (he : env.fails s.tick = some err) :
    trace (handle env) (putJob j) s = [(.putJob j, s)] := by
  simp only [putJob, trace_bind, Db.putJob, act, exec_perform, handle, Server.write, he]
  rfl

theorem putJob_stored (j : Job) (he : env.fails s.tick = none) :
    (exec (handle env) (putJob j) s).1 = .ok () ∧ ¬ Foiled env x (putJob j) s := by
  have hput : exec (handle env) (Db.putJob j) s = (.ok (), { s.ticked with store.jobs := s.store.jobs.put j }) := by
    simp only [Db.putJob, act, exec_perform, handle, Server.write, he]
    rfl
  constructor
  · simp only [putJob, exec_bind, hput]
    rfl
  · rw [putJob, foiled_bind, hput]
    rintro (⟨e, hmem, hlost⟩ | hfoiled)
    · obtain rfl := List.mem_singleton.1 hmem
      rw [lost_putJob_ok he] at hlost
      cases hlost
    · exact not_foiled (Uses.bind (uses_appendRepl _ trivial trivial) fun _ => Uses.pure _) hfoiled

/-- A write after which nothing more is written. -/
theorem intact_putJob (j : Job) {f : Except String Unit → M β} (hf : ∀ r, Uses OffJobs (f r)) :
    Intact env x (putJob j >>= f) s := by
  apply Intact.andThen _ hf
  intro _ hfoiled
  cases he : env.fails s.tick with
  | some err => rw [exec_putJob_lost j he]; rfl
  | none => exact absurd hfoiled (putJob_stored j he).2

/-- What follows a failure to store the job QUEUED: as the failure lasts, no job is written. -/
def Aftermath (env : Env) (x : String) (p : M β) : Prop := ∀ e s, lost env e = some x → notDeadLetter e.1 = true →
  Lasting env (e :: trace (handle env) p s) → (exec (handle env) p s).2.store.jobs = s.store.jobs

/-- The job is written again at once, and only that. -/
theorem aftermath_putJob {j : Job} (hid : j.id = x) {f : Except String Unit → M β}
    (hf : ∀ err, Uses OffJobs (f (.error err))) : Aftermath env x (putJob j >>= f) := by
  intro e s hlost hkept hlasting
  have hlasts : Lasts env e (.putJob j, s) := by
    unfold Lasting at hlasting
    rw [List.filter_cons, if_pos hkept] at hlasting
    exact (List.isChain_cons_cons.1 hlasting).1
  obtain ⟨err, he⟩ := Option.isSome_iff_exists.1 (hlasts x hlost (congrArg some hid))
  rw [exec_bind, exec_putJob_lost j he, jobs_of_offJobs (hf err)]
  rfl

/-- A dead letter comes in between. -/
theorem aftermath_putDeadLetter {j : Job} {f : Except String Unit → M β} (herr : ∀ err, Uses OffJobs (f (.error err)))
    (hok : Aftermath env x (f (.ok ()))) : Aftermath env x (Db.putDeadLetter j >>= f) := by
  intro e s hlost hkept hlasting
  cases he : env.fails s.tick with
  | some err =>
    have hput : exec (handle env) (Db.putDeadLetter j) s = (.error err, s.ticked) := by
      simp only [Db.putDeadLetter, act, exec_perform, handle, Server.write, he]
    rw [exec_bind, hput, jobs_of_offJobs (herr err)]
    rfl
  | none =>
    have hput : exec (handle env) (Db.putDeadLetter j) s =
        (.ok (), { s.ticked with store := { s.store with deadLetter := s.store.deadLetter.put j } }) := by
      simp only [Db.putDeadLetter, act, exec_perform, handle, Server.write, he]
    rw [trace_bind, hput] at hlasting
    rw [exec_bind, hput]
    refine hok e _ hlost hkept ?_
    -- the dead letter is left out of the trace
    unfold Lasting at hlasting ⊢
    rw [List.filter_cons, List.filter_append] at hlasting
    rw [List.filter_cons]
    exact hlasting

theorem intact_aftermath {j : Job} (hs : j.state = .queued) (hid : j.id = x) {f : Except String Unit → M β}
    (hok : ∀ u, Uses OffJobs (f (.ok u))) (herr : ∀ err, Aftermath env x (f (.error err))) :
    Intact env x (putJob j >>= f) s := by
  intro hlasting hfoiled
  cases he : env.fails s.tick with
  | some err =>
    rw [trace_bind, exec_putJob_lost j he, trace_putJob_lost j he] at hlasting
    rw [exec_bind, exec_putJob_lost j he]
    exact herr err (.putJob j, s) s.ticked (hid ▸ lost_putJob hs he) rfl hlasting
  | none =>
    obtain ⟨hres, hnot⟩ := putJob_stored j he
    rw [foiled_bind, hres] at hfoiled
    exact absurd (hfoiled.resolve_left hnot) (not_foiled (hok ()))

theorem intact_rearm {job : Job} (hrec : Recurs ps job) (hid : job.id = x) (now : Time) {f : Bool × Job → M β}
    (htrue : ∀ j, Uses OffJobs (f (true, j))) (hfalse : ∀ j : Job, j.id = x → Aftermath env x (f (false, j))) :
    Intact env x (maybeRescheduleCron ps job now >>= f) s := by
  obtain ⟨hexpr, next, hnext⟩ := hrec
  unfold maybeRescheduleCron
  simp only [if_neg hexpr, nextCron, hnext, bind_assoc]
  refine intact_aftermath rfl ?_ ?_ ?_
  · exact hid
  · intro u
    simp only [bind_assoc]
    exact Uses.bind (Uses.perform trivial) fun t => Uses.bind (offJobs_armEnqueue _ _) fun _ => htrue _
  · intro err
    exact hfalse _ hid

/-! ## The ends of an attempt -/

theorem intact_handleFailure {job : Job} (hrec : Recurs ps job) (hid : job.id = x) (errMsg : String) (now : Time) :
    Intact env x (handleFailure ps job errMsg now) s := by
  unfold handleFailure
  dsimp only
  split
  · refine Intact.act trivial ?_
    apply intact_putJob
    intro r
    cases r with
    | error e => exact Uses.pure _
    | ok u => exact Uses.bind (offJobs_armEnqueue _ _) fun _ => Uses.pure _
  · refine intact_rearm ?_ ?_ now ?_ ?_
    · exact hrec
    · exact hid
    · intro j
      exact Uses.pure _
    · intro j hj
      refine aftermath_putDeadLetter (fun _ => Uses.pure _) ?_
      refine aftermath_putJob ?_ ?_
      · exact hj
      · intro err
        exact Uses.pure _

theorem intact_reportSuccess (τ : String) {job : Job} (hrec : Recurs ps job) (hid : job.id = x) (now : Time) :
    Intact env x (reportSuccess ps τ job now) s := by
  refine Intact.act trivial ?_
  apply intact_rearm hrec hid now
  · intro j
    exact Uses.pure _
  · intro j hj
    refine aftermath_putJob ?_ ?_
    · exact hj
    · intro err
      exact Uses.pure _

/-- The steps that end an attempt of the job: a report on its task, the reaping of its lease, and the rebuild of the
state from a record of it that was listed. -/
inductive EndsAttempt (cfg : Config) (ps : Cron) (x : String) (s : Server) : M Unit → Prop
  | report {l : Lease} (τ : String) (result : TaskResult) (error : String) (hl : s.leases[τ]? = some l) (hx : l.jobID = x) :
    EndsAttempt cfg ps x s ((Call.reportTask τ result error).prog cfg ps)
  | reap {l : Lease} (τ reason : String) (hl : s.leases[τ]? = some l) (hx : l.jobID = x) :
    EndsAttempt cfg ps x s (requeueLease ps τ reason)
  | rebuild {j : Job} (now : Time) (hx : j.id = x) (hrec : Recurs ps j) : EndsAttempt cfg ps x s (rebuildJob ps now j)

/-- A read returns the stored record, or fails. -/
theorem intact_getJob {j : Job} (hj : s.store.jobs.get x = some j) {f : Except StoreError Job → M β}
    (herr : ∀ e, Uses OffJobs (f (.error e))) (hok : ∀ s', Intact env x (f (.ok j)) s') :
    Intact env x (Db.getJob x >>= f) s := by
  refine Intact.act trivial ?_
  cases he : env.fails s.tick with
  | some err =>
    simp only [handle, he]
    exact .of_offJobs (herr _)
  | none =>
    simp only [handle, he, hj]
    exact hok _

theorem intact_reportTask {l : Lease} {j : Job} (cfg : Config) (τ : String) (result : TaskResult) (error : String)
    (hl : s.leases[τ]? = some l) (hj : s.store.jobs.get l.jobID = some j) (hrec : Recurs ps j) :
    Intact env l.jobID (reportTask cfg ps τ result error) s := by
  have hdrop : Uses OffJobs (do removeLease τ; pure (.ok true : Except Status Bool)) :=
    Uses.bind (Uses.perform trivial) fun _ => Uses.pure _
  have hlead : Untouched s (exec (handle env) (requireLeader cfg) s).2 := requireLeader_untouched cfg s
  rw [← hlead.leases] at hl
  rw [← hlead.jobs] at hj
  apply Intact.after (offJobs_requireLeader cfg)
  cases (exec (handle env) (requireLeader cfg) s).1 with
  | some e => exact .of_offJobs (Uses.pure _)
  | none =>
    refine Intact.act trivial ?_
    simp only [handle, hl]
    refine intact_getJob (j := j) ?_ ?_ ?_
    · exact hj
    · intro e
      exact hdrop
    · intro s'
      dsimp only
      split
      · exact .of_offJobs hdrop
      · refine Intact.act trivial ?_
        cases result with
        | succeeded => exact intact_reportSuccess τ hrec (Bucket.get_id hj) _
        | failed =>
          refine (intact_handleFailure hrec (Bucket.get_id hj) error _).andThen ?_
          intro r
          cases r with
          | error e => exact Uses.pure _
          | ok u => exact hdrop
        | unspecified => exact .of_offJobs (Uses.pure _)

theorem intact_requeueLease {l : Lease} {j : Job} (τ reason : String) (hl : s.leases[τ]? = some l)
    (hj : s.store.jobs.get l.jobID = some j) (hrec : Recurs ps j) : Intact env l.jobID (requeueLease ps τ reason) s := by
  refine Intact.act trivial ?_
  simp only [handle, hl]
  refine Intact.act trivial ?_
  refine intact_getJob (j := j) ?_ ?_ ?_
  · exact hj
  · intro e
    exact Uses.pure _
  · intro s'
    dsimp only
    split
    · exact .of_offJobs (Uses.pure _)
    · refine Intact.act trivial ?_
      exact (intact_handleFailure hrec (Bucket.get_id hj) reason _).andThen fun _ => Uses.pure _

theorem intact_rebuildJob {j : Job} (hrec : Recurs ps j) (now : Time) : Intact env j.id (rebuildJob ps now j) s := by
  apply Intact.after (uses_reindex trivial)
  split
  · apply Intact.of_offJobs
    split
    · exact Uses.bind (Uses.perform trivial) fun _ => Uses.pure _
    · exact offJobs_armEnqueue _ _
  · exact (intact_handleFailure hrec rfl _ now).andThen fun _ => Uses.pure _
  · exact .of_offJobs (Uses.pure _)

theorem EndsAttempt.intact {p : M Unit} {j : Job} (h : EndsAttempt env.cfg ps x s p) (hj : s.store.jobs.get x = some j)
    (hrec : Recurs ps j) : Intact env x p s := by
  cases h with
  | report τ result error hl hx =>
    subst hx
    exact (intact_reportTask env.cfg τ result error hl hj hrec).andThen fun _ => Uses.pure _
  | reap τ reason hl hx =>
    subst hx
    exact intact_requeueLease τ reason hl hj hrec
  | rebuild now hx hrec' =>
    subst hx
    exact intact_rebuildJob hrec' now

end

/-! ## Cron jobs do not end -/

/-- Whatever store calls fail, as long as no write that re-arms a job fails alone: a stored cron job that has not ended is
never stored SUCCEEDED or FAILED unless it is submitted again; and a step that ends one of its attempts and cannot store
it QUEUED leaves its record as it was. -/
theorem cron_never_ends {x : String} {j₀ : Job} {s₀ s : Server} (hj : s₀.store.jobs.get x = some j₀)
    (hrec : Recurs ps j₀) (hs : ¬ Concluded j₀.state)
    (hrun : Runs env ps (fun s ev => SparesID x env s ev ∧ RearmsOrStops env ps s ev) s₀ s) :
    (∃ j, s.store.jobs.get x = some j ∧ ¬ Concluded j.state) ∧
    ∀ (s' : Server) (j : Job) (p : M Unit), s'.store.jobs.get x = some j → Recurs ps j → EndsAttempt env.cfg ps x s' p →
      Lasting env (trace (handle env) p s') → Foiled env x p s' →
      (exec (handle env) p s').2.store.jobs.get x = some j := by
  constructor
  · obtain ⟨j, hj, -, hs⟩ := recurring_of_runs hj hrec hs hrun
    exact ⟨j, hj, hs⟩
  · intro s' j p hj hrec hp hchain hfoiled
    rw [hp.intact hj hrec hchain hfoiled, hj]

/-- A parser for which every expression means an hour later. -/
def hourly : Cron := fun _ => .ok fun t => { t with ns := t.ns + 3600 * 1000000000 }

/-- A cron job that may be tried twice. -/
def hourlyJob : Job where
  id := "a"
  spec := some { command := "true" }
  schedule := some { kind := some (.cronExpr "@hourly") }
  retryPolicy := some { maxAttempts := 2 }

/-- The job is submitted and its first attempt fails; the second one is dispatched. -/
def twice : List Call :=
  [.registerWorker (some { id := "w" }), .submitJob (some hourlyJob), .timer "a", .pollTask "w" 1,
    .reportTask "task-" .failed "exit 1", .timer "a", .pollTask "w" 1]

/-- The state in which the second attempt runs. -/
def rerun (p : Nat → Bool) : Server :=
  twice.foldl (after (.failing p) hourly) (started (.failing p) hourly .empty leading)

/-- The second attempt is reported. -/
def concludes (result : TaskResult) : Call := .reportTask "task-u" result "exit 2"

/-- What is stored of the job. -/
def recordOfJob (s : Server) : Option (String × JobState × Int × String) :=
  (s.store.jobs.get "a").map fun j => (j.cronExpr, j.state, j.attempt, j.lastError)

/-- The store is out for two operations, of which the first is to re-arm the job after a success. -/
def outage (t : Nat) : Bool := t = 71 ∨ t = 72

theorem cron_never_ends_outage : ∃ j, (rerun outage).store.jobs.get "a" = some j ∧ Recurs hourly j ∧ j.state = .running ∧
    Foiled (.failing outage) "a" ((concludes .succeeded).prog (Env.failing outage).cfg hourly) (rerun outage) ∧
    (∃ j', (after (.failing outage) hourly (rerun outage) (concludes .succeeded)).store.jobs.get "a" = some j' ∧
      ¬ Concluded j'.state) ∧
    (after (.failing outage) hourly (rerun outage) (concludes .succeeded)).store.jobs.get "a" = some j := by
  have hout : recordOfJob (rerun outage) = some ("@hourly", .running, 2, "exit 1") := by decide +kernel
  have hfoiled : Foiled (.failing outage) "a" ((concludes .succeeded).prog (Env.failing outage).cfg hourly)
      (rerun outage) := by
    unfold Foiled
    decide +kernel
  have hlasting : RearmsOrStops (.failing outage) hourly (rerun outage) (.call (concludes .succeeded)) := by
    unfold RearmsOrStops
    decide +kernel
  have hlease : (rerun outage).leases["task-u"]?.map Lease.jobID = some "a" := by decide +kernel
  -- the state is not computed again
  generalize rerun outage = s₀ at hout hfoiled hlasting hlease ⊢
  obtain ⟨j, hj, hfields⟩ := Option.map_eq_some_iff.1 hout
  obtain ⟨l, hl, hx⟩ := Option.map_eq_some_iff.1 hlease
  have hexpr : j.cronExpr = "@hourly" := congrArg Prod.fst hfields
  have hstate : j.state = .running := congrArg (fun r => r.2.1) hfields
  have hrec : Recurs hourly j := ⟨by rw [hexpr]; decide, _, rfl⟩
  have hs : ¬ Concluded j.state := by rw [hstate]; decide
  have hspares : SparesID "a" (.failing outage) s₀ (.call (concludes .succeeded)) := by
    rintro job ⟨⟩
  obtain ⟨hnever, hintact⟩ := cron_never_ends hj hrec hs (Runs.refl.call ⟨hspares, hlasting⟩ rfl)
  refine ⟨j, hj, hrec, hstate, hfoiled, hnever, ?_⟩
  exact hintact s₀ j _ hj hrec (.report "task-u" .succeeded "exit 2" hl hx) hlasting hfoiled

/-- One write fails, the one that is to re-arm the job, and the next one ends it: SUCCEEDED after a success, FAILED after a
failure, and each time without the attempt number and the error it was stored with. -/
theorem cron_ends :
    (Runs (.failing (· = 71)) hourly (fun _ _ => True) (started (.failing (· = 71)) hourly .empty leading) (rerun (· = 71)) ∧
      recordOfJob (rerun (· = 71)) = some ("@hourly", .running, 2, "exit 1") ∧
      recordOfJob (after (.failing (· = 71)) hourly (rerun (· = 71)) (concludes .succeeded)) =
        some ("@hourly", .succeeded, 0, "")) ∧
    (Runs (.failing (· = 70)) hourly (fun _ _ => True) (started (.failing (· = 70)) hourly .empty leading) (rerun (· = 70)) ∧
      recordOfJob (rerun (· = 70)) = some ("@hourly", .running, 2, "exit 1") ∧
      recordOfJob (after (.failing (· = 70)) hourly (rerun (· = 70)) (concludes .failed)) =
        some ("@hourly", .failed, 0, "")) := by
  refine ⟨⟨Runs.refl.calls ?_, ?_, ?_⟩, ⟨Runs.refl.calls ?_, ?_, ?_⟩⟩ <;> decide +kernel

end Distsched.Lifecycle
