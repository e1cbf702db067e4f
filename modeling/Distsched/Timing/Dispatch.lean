/-
Polls, and runs of a node whose clock never goes back and whose timers never fire early: no job is leased before its run
time, nor before the delay drawn at its last failure is over.
-/
import Distsched.Lifecycle.Budget
import Distsched.Timing.Activities

namespace Distsched.Timing

open Scheduler Prog
open Lifecycle (Table table Handed issued issued_handed)

variable {env : Env} {strict : Prop} {old : Table} {t₀ : Nat} {a a' : Agenda} {x : String} {job j : Job}

/-! ## Polls -/

/-- The instant at which a poll made the assignment. -/
def leasedAt (env : Env) (asg : TaskAssignment) : Int := asg.leaseDeadline - env.cfg.leaseTTL

/-- The job of an assignment was QUEUED and overdue when the poll leased it, and is RUNNING. -/
structure LeasedDue (env : Env) (strict : Prop) (old : Table) (t₀ : Nat) (a : Agenda) (asg : TaskAssignment) (j j' : Job) :
    Prop where
  before : old asg.jobId = some j
  queued : j.state = .queued
  after : a.jobs asg.jobId = some j'
  running : j'.state = .running
  since : env.clock t₀ ≤ leasedAt env asg
  upTo : leasedAt env asg ≤ a.now
  overdue : Overdue strict (leasedAt env asg) j

/-- What a poll that began at `now` relies on while it goes on. -/
structure Polling (env : Env) (strict : Prop) (old : Table) (t₀ : Nat) (now : Int) (out : List TaskAssignment)
    (a : Agenda) : Prop where
  punctual : Punctual env strict old t₀ a
  instant : a.now = now
  untouched : ∀ x j, a.jobs x = some j → j.state = .queued → old x = some j
  leased : ∀ asg ∈ out, ∃ j j', LeasedDue env strict old t₀ a asg j j'

/-- Nothing but the queue and the UUIDs changes. -/
theorem Polling.congr {now : Int} {out : List TaskAssignment} (h : Polling env strict old t₀ now out a)
    (hp : Punctual env strict old t₀ a') (hj : a'.jobs = a.jobs) (hn : a'.now = a.now) :
    Polling env strict old t₀ now out a' where
  punctual := hp
  instant := hn.trans h.instant
  untouched x j hx := h.untouched x j (hj ▸ hx)
  leased asg hasg := by
    obtain ⟨j, j', hl⟩ := h.leased asg hasg
    exact ⟨j, j', { hl with after := hj ▸ hl.after, upTo := hn ▸ hl.upTo }⟩

/-- One more job is leased. -/
theorem Polling.lease {now : Int} {out : List TaskAssignment} {w : String} {asg : TaskAssignment}
    (h : Polling env strict old t₀ now out a) (hid : a.Idle j.id) (hj : a.jobs j.id = some j) (hs : j.state = .queued)
    (ho : Overdue strict a.now j) (hasg : asg.jobId = j.id) (hτ : leasedAt env asg = now) :
    Polling env strict old t₀ now (out ++ [asg]) (a.put (dispatched j w now)) where
  punctual := by
    refine h.punctual.write hid (h.punctual.superseded fun c hc => ?_) ⟨nofun, nofun, fun _ t ht => ?_, nofun⟩ nofun
    · cases hj.symm.trans hc
      rw [hs]
      exact ⟨rfl, fun _ => ho⟩
    · exact ho t (.inl ht)
  instant := h.instant
  untouched y c hc hq := by
    rw [Agenda.put_jobs, Function.update_apply] at hc
    split at hc
    · cases hc
      cases hq
    · exact h.untouched y c hc hq
  leased b hb := by
    rcases List.mem_append.1 hb with hb | hb
    · obtain ⟨c, c', hc⟩ := h.leased b hb
      -- an earlier lease is of another job, since that one is RUNNING
      have hne : b.jobId ≠ j.id := by
        intro he
        have hrun := hc.running
        have hafter := hc.after
        rw [he, hj] at hafter
        cases hafter
        cases hs.symm.trans hrun
      exact ⟨c, c', { hc with after := (Function.update_of_ne hne _ _).trans hc.after }⟩
    · obtain rfl := List.mem_singleton.1 hb
      rw [h.instant] at ho
      refine ⟨j, dispatched j w now, ?_, hs, ?_, rfl, ?_, ?_, hτ ▸ ho⟩
      · rw [hasg]
        exact h.untouched _ _ hj hs
      · rw [hasg]
        exact Function.update_self ..
      · rw [hτ, ← h.instant]
        exact h.punctual.later
      · exact (hτ.trans h.instant.symm).le

theorem clocked_pollLoop (w : String) (now : Int) (n : Nat) :
    ∀ (fuel : Nat) (out : List TaskAssignment) (a : Agenda), Polling env strict old t₀ now out a →
      Clocked env strict old t₀ (pollLoop env.cfg w now n fuel out) a fun out' a' =>
        Polling env strict old t₀ now out' a'
  | 0, _, _, h => h
  | fuel + 1, out, a, h => by
    have hpop : Clocked env strict old t₀ Queue.pop a fun r a' =>
        (r = none ∧ a' = a) ∨ ∃ x ∈ a.ready, r = some x ∧ a' = a.unready x := by
      refine ⟨trivial, fun r hr => ?_⟩
      cases r with
      | none => exact .inl ⟨rfl, rfl⟩
      | some x => exact .inr ⟨x, hr, rfl, rfl⟩
    unfold pollLoop
    split
    · refine hpop.bind ?_
      rintro r _ (⟨rfl, rfl⟩ | ⟨x, hx, rfl, rfl⟩)
      · exact h
      · refine (clocked_getJob x).bind ?_
        rintro _ _ ⟨rfl, rfl⟩
        obtain ⟨j, hj, hripe⟩ := h.punctual.ready x hx
        obtain rfl : j.id = x := (h.punctual.stored x j hj).1
        rw [Agenda.unready_jobs, hj]
        show Clocked env strict old t₀ (if j.state ≠ .queued then _ else _) _ _
        split
        · exact clocked_pollLoop w now n fuel out _ (h.congr (h.punctual.unready j.id) rfl rfl)
        · rename_i hs
          have hs : j.state = .queued := not_not.1 hs
          rcases hripe with ht | ⟨-, ho, hdue⟩
          · rw [hs] at ht
            cases ht
          · refine Meets.bind (Q := fun _ a' => a' = (a.unready j.id).mint) ⟨trivial, fun _ _ => rfl⟩ ?_
            rintro τ _ rfl
            have hmint : Polling env strict old t₀ now out (a.unready j.id).mint :=
              h.congr (h.punctual.unready j.id).mint rfl rfl
            have hlease : Polling env strict old t₀ now
                (out ++ [⟨τ, j.id, int32 (j.attempt + 1), j.spec, now + env.cfg.leaseTTL⟩])
                ((a.unready j.id).mint.put (dispatched j w now)) :=
              hmint.lease ⟨fun hr => hr.2 rfl, hdue⟩ hj hs ho rfl (add_sub_cancel_right _ _)
            refine (clocked_putJob hlease.punctual).bind ?_
            rintro _ _ ⟨rfl, rfl⟩
            refine (clocked_timeless (.addLease _) trivial).bind ?_
            rintro _ _ rfl
            exact clocked_pollLoop w now n fuel _ _ hlease
    · exact h

theorem clocked_pollTask (w : String) (n : Int) (h : Punctual env strict old t₀ a) (ho : a.jobs = old) :
    Clocked env strict old t₀ (pollTask env.cfg w n) a fun r a' => Punctual env strict old t₀ a' ∧
      ∀ out, r = .ok out → ∀ asg ∈ out, ∃ j j', LeasedDue env strict old t₀ a' asg j j' := by
  refine (clocked_requireLeader env.cfg).bind ?_
  rintro denied a rfl
  cases denied with
  | some e => exact ⟨h, fun _ he => nomatch he⟩
  | none =>
    refine (clocked_timeless (.getCached w) trivial).bind ?_
    rintro cached a rfl
    cases cached with
    | none => exact ⟨h, fun _ he => nomatch he⟩
    | some _ =>
      refine clocked_now.bind ?_
      rintro now _ ⟨rfl, hn⟩
      refine (clocked_timeless .queueBound trivial).bind ?_
      rintro bound _ rfl
      have hstart : Polling env strict old t₀ now.ns [] (a.pass now.ns) :=
        ⟨h.pass hn, rfl, fun x j hj _ => ho ▸ hj, fun _ hasg => absurd hasg List.not_mem_nil⟩
      refine (clocked_pollLoop w now.ns _ _ [] _ hstart).bind ?_
      rintro out a' hp
      refine ⟨hp.punctual, ?_⟩
      rintro _ ⟨⟩
      exact hp.leased

/-! ## Activities -/

/-- A submission comes with no fire time that is still to come. -/
def Elapsed (env : Env) (s : Server) (ev : Event) : Prop :=
  ∀ job t, ev.activity = .submitJob (some job) → job.scheduledAt = some t → t ≤ env.clock s.tick

/-- A submission comes with no run time that is further ahead than the greatest duration. -/
def Foreseeable (env : Env) (s : Server) (ev : Event) : Prop :=
  ∀ job t, ev.activity = .submitJob (some job) → runAt job = some t → t ≤ env.clock s.tick + maxDuration

/-- The events of the runs considered here. -/
structure Proper (env : Env) (strict : Prop) (s : Server) (ev : Event) : Prop where
  vacant : SubmitsWhere Vacant env s ev
  notEarly : NotEarly env s ev
  foreseeable : Foreseeable env s ev
  elapsed : strict → Elapsed env s ev

theorem clocked_call {ps : Cron} (hps : strict → Near (env.clock t₀) ps) {s : Server} {ev : Event}
    (h : Punctual env strict (table s) t₀ (agenda env s))
    (hev : Proper env strict s ev) (hen : ev.activity.enabled s = true) :
    Clocked env strict (table s) t₀ (ev.activity.prog env.cfg ps) (agenda env s) fun _ a' =>
      Punctual env strict (table s) t₀ a' := by
  cases hc : ev.activity with
  | submitJob req =>
    refine Meets.bind (clocked_submitJob env.cfg hps req h ?_) fun _ _ h => h
    rintro job rfl
    exact ⟨hev.vacant job hc, fun hst t ht => hev.elapsed hst job t hc ht, fun t ht => hev.foreseeable job t hc ht⟩
  | cancelJob x => exact Meets.bind (clocked_cancelJob env.cfg x h) fun _ _ h => h
  | pollTask w n => exact Meets.bind (clocked_pollTask w n h rfl) fun _ _ h => h.1
  | reportTask τ result msg => exact Meets.bind (clocked_reportTask env.cfg hps τ result msg h) fun _ _ h => h
  | registerWorker w => exact Meets.bind (clocked_registerWorker env.cfg w h) fun _ _ h => h
  | heartbeat w n => exact Meets.bind (clocked_heartbeat env.cfg w n h) fun _ _ h => h
  | timer x =>
    rw [hc] at hen
    have hmem : x ∈ s.retryTimers := of_decide_eq_true hen
    refine clocked_timerFired h ?_
    cases ht : s.retryTimers[x]? with
    | none =>
      rw [Std.ExtTreeMap.mem_iff_isSome_getElem?, ht] at hmem
      cases hmem
    | some t => exact ⟨t, ht, hev.notEarly x t hc ht⟩
  | reaper => exact clocked_reaperTick env.cfg hps h
  | becomeLeader => exact clocked_onBecomeLeader hps h

/-! ## Runs -/

section

variable {ps : Cron} {node : Cluster.Node} {s s' : Server} (hm : Monotone env.clock) (hr : env.Reliable)
  (hps : strict → Near (env.clock 0) ps)

include hm hr hps

/-- A step keeps the node timely, and what it changes since the state before it is in order. -/
theorem step_punctual {ev : Event} (h : Timely env strict (agenda env s)) (hev : Proper env strict s ev)
    (hstep : step env ps s ev = some s') : Punctual env strict (table s) s.tick (agenda env s') := by
  have hstart : Punctual env strict (table s) s.tick (agenda env s) := .start h (le_refl _)
  have hshows := Shows.of_agenda hstart
  have hnear : strict → Near (env.clock s.tick) ps := fun hst => (hps hst).mono (hm s.tick.zero_le)
  have hen : ev.activity.enabled s = true := by
    cases ev with
    | call c => exact (Option.ite_none_right_eq_some.1 hstep).1
    | crash c ops aborted node => exact (Option.ite_none_right_eq_some.1 hstep).1.1
  have hboot : ∀ s₁ node, (Dormant env strict (table s) s.tick s → Dormant env strict (table s) s.tick s₁) →
      ∃ a, Shows env strict (table s) s.tick a s₁.fresh ∧
        Clocked env strict (table s) s.tick (boot ps node) a fun _ _ => True := by
    intro s₁ node hs₁
    have hp := hs₁ hshows.dormant
    exact ⟨_, .of_agenda hp, (clocked_boot hnear node hp).mono fun _ _ _ => trivial⟩
  obtain ⟨⟨a, ha⟩, -⟩ := step_honours (honours_clockwork hm hr strict (table s) s.tick) (fun _ h => h) hshows
    ((clocked_call hnear hstart hev hen).mono fun _ _ _ => trivial) hboot hstep
  exact ha.agenda

theorem runs_timely (h : Timely env strict (agenda env s)) (hrun : Runs env ps (Proper env strict) s s') :
    Timely env strict (agenda env s') := by
  induction hrun with
  | refl => exact h
  | step _ hev hstep ih => exact (step_punctual hm hr hps ih hev hstep).toTimely

theorem timely_of_runs (h : Runs env ps (Proper env strict) (started env ps .empty node) s) :
    Timely env strict (agenda env s) := by
  refine runs_timely hm hr hps ?_ h
  have hempty : Punctual env strict (table (.off .empty 0 0)) 0 (agenda env (.off .empty 0 0)) := by
    have hnone : ∀ x, table (.off .empty 0 0) x = none := fun x => Bucket.get_empty x
    refine Punctual.start (a := agenda env (.off .empty 0 0)) ⟨fun x j hj => ?_, fun x hx => ?_, fun x t ht => ?_⟩
      (le_refl _)
    · cases (hnone x).symm.trans hj
    · exact absurd hx (PriorityQueue.not_holds_empty x)
    · exact (no_timer_empty ht).elim
  obtain ⟨⟨a, ha, -⟩, -⟩ := Meets.exec (honours_clockwork hm hr strict _ 0) (clocked_boot hps node hempty)
    (Shows.of_agenda hempty)
  exact ha.agenda.toTimely

/-- A QUEUED job of a run stays as it is until it is overdue, or is over. -/
theorem held_of_runs (h : Timely env strict (agenda env s)) (hj : table s x = some j) (hs : j.state = .queued)
    (hrun : Runs env ps (Proper env strict) s s') :
    table s' x = some j ∨ Overdue strict (env.clock s'.tick) j ∨ (agenda env s').Done x := by
  induction hrun with
  | refl => exact .inl hj
  | step hrun hev hstep ih =>
    have hp := step_punctual hm hr hps (runs_timely hm hr hps h hrun) hev hstep
    rcases ih with hsame | ho | ⟨c, hc, ht⟩
    · exact hp.held x j hsame hs
    · exact .inr (.inl (ho.mono hp.later))
    · exact .inr (.inr (hp.final x c hc ht))

omit hps in
/-- What a poll hands out is overdue. -/
theorem overdue_of_issued (ps : Cron) {w : String} {n : Int} {asg : TaskAssignment} (h : Timely env strict (agenda env s))
    (hasg : asg ∈ issued env s (.call (.pollTask w n))) :
    ∃ j, table s asg.jobId = some j ∧ j.state = .queued ∧ env.clock s.tick ≤ leasedAt env asg ∧
      leasedAt env asg ≤ env.clock (after env ps s (.pollTask w n)).tick ∧ Overdue strict (leasedAt env asg) j := by
  have hstart : Punctual env strict (table s) s.tick (agenda env s) := .start h (le_refl _)
  obtain ⟨⟨a, ha, -, hleased⟩, -⟩ := Meets.exec (honours_clockwork hm hr strict (table s) s.tick)
    (clocked_pollTask w n hstart rfl) (Shows.of_agenda hstart)
  have hafter : after env ps s (.pollTask w n) = (exec (handle env) (pollTask env.cfg w n) s).2 := by
    unfold after Call.prog
    rw [exec_bind]
    rfl
  simp only [issued] at hasg
  cases hres : (exec (handle env) (pollTask env.cfg w n) s).1 with
  | error e =>
    rw [hres] at hasg
    cases hasg
  | ok out =>
    rw [hres] at hasg
    obtain ⟨j, j', hl⟩ := hleased out hres asg hasg
    exact ⟨j, hl.before, hl.queued, hl.since, hafter ▸ hl.upTo.trans ha.now, hl.overdue⟩

end

/-- A submission is of an ID that is not stored, with a run time for which a timer can be set, and no timer is early. -/
def Orderly (env : Env) (s : Server) (ev : Event) : Prop :=
  SubmitsWhere Vacant env s ev ∧ NotEarly env s ev ∧ Foreseeable env s ev

/-- No job is leased before its run time, and after a recorded failure none is leased before the delay drawn then is
over, whatever happens to the node in between. -/
theorem not_dispatched_early {ps : Cron} {node : Cluster.Node} {s : Server} (hm : Monotone env.clock) (hr : env.Reliable)
    (h : Runs env ps (Orderly env) (started env ps .empty node) s) :
    (∀ w n, ∀ asg ∈ issued env s (.call (.pollTask w n)),
      env.clock s.tick ≤ leasedAt env asg ∧ leasedAt env asg ≤ env.clock (after env ps s (.pollTask w n)).tick ∧
      ∃ j, s.store.jobs.get asg.jobId = some j ∧ ∀ t, runAt j = some t → t ≤ leasedAt env asg) ∧
    ∀ ev s' x j, Orderly env s ev → step env ps s ev = some s' → s'.store.jobs.get x = some j → j.state = .queued → 1 ≤ j.attempt →
      s.store.jobs.get x ≠ some j → ∃ t k, env.clock s.tick ≤ t ∧ t ≤ env.clock s'.tick ∧ j.updatedAt = some t ∧
        s.tick ≤ k ∧ k < s'.tick ∧
        j.scheduledAt = some (t + Retry.backoff j.retryPolicy j.attempt (env.float64 k)) ∧
        ∀ s₁, Runs env ps (Orderly env) s' s₁ → ∀ w n, ∀ asg ∈ issued env s₁ (.call (.pollTask w n)), asg.jobId = x →
          t + Retry.backoff j.retryPolicy j.attempt (env.float64 k) ≤ leasedAt env asg := by
  have hproper : ∀ s ev, Orderly env s ev → Proper env False s ev :=
    fun _ _ hev => ⟨hev.1, hev.2.1, hev.2.2, False.elim⟩
  have htimely : Timely env False (agenda env s) := timely_of_runs hm hr False.elim (h.mono hproper)
  refine ⟨fun w n asg hasg => ?_, fun ev s' x j hev hstep hj hs ha hnew => ?_⟩
  · obtain ⟨j, hj, -, hsince, hupTo, ho⟩ := overdue_of_issued hm hr ps htimely hasg
    exact ⟨hsince, hupTo, j, hj, fun t ht => ho t (.inl ht)⟩
  · have hp : Punctual env False (table s) s.tick (agenda env s') :=
      step_punctual hm hr False.elim htimely (hproper s ev hev) hstep
    obtain ⟨t, k, hk, hk', hlow, hup, hsched⟩ := (hp.fresh x j hj hs ha).resolve_left hnew
    obtain ⟨t', -, hle, hup', -⟩ := (hp.stored x j hj).2.retried hs ha
    obtain rfl : t = t' := Option.some.inj (hup.symm.trans hup')
    refine ⟨t, k, hlow, hle, hup, hk, hk', hsched, fun s₁ hrun w n asg hasg hx => ?_⟩
    have hrun := hrun.mono hproper
    obtain ⟨j₁, hj₁, hs₁, hsince, -, ho⟩ := overdue_of_issued hm hr ps (runs_timely hm hr False.elim hp.toTimely hrun) hasg
    rw [hx] at hj₁
    have hwait : NotBefore False j (t + Retry.backoff j.retryPolicy j.attempt (env.float64 k)) :=
      .inr ⟨.inr ha, hsched⟩
    -- the record polled is the one of the failure, unless that one was overdue earlier
    rcases held_of_runs hm hr False.elim hp.toTimely hj hs hrun with hsame | ho' | ⟨c, hc, ht⟩
    · cases hj₁.symm.trans hsame
      exact ho _ hwait
    · exact (ho' _ hwait).trans hsince
    · cases hj₁.symm.trans hc
      rw [hs₁] at ht
      cases ht

/-- What a run of given activities has to meet, as a check of each activity. -/
def fits (env : Env) (s : Server) : Call → Bool
  | .submitJob (some job) => (s.store.jobs.get (submitID env s.minted job)).isNone &&
      (runAt job).all (· ≤ env.clock s.tick + maxDuration) && job.scheduledAt.all (· ≤ env.clock s.tick)
  | .timer x => s.retryTimers[x]?.all (· ≤ env.clock s.tick)
  | _ => true

theorem proper_of_fits {s : Server} {c : Call} (h : fits env s c = true) : Proper env True s (.call c) := by
  constructor
  · rintro job rfl
    simp only [fits, Bool.and_eq_true] at h
    exact Option.isNone_iff_eq_none.1 h.1.1
  · rintro x t rfl ht
    simpa [fits, ht] using h
  · rintro job t rfl ht
    simp only [fits, Bool.and_eq_true, ht] at h
    simpa using h.1.2
  · rintro - job t rfl ht
    simp only [fits, Bool.and_eq_true, ht] at h
    simpa using h.2

/-- A job that runs at the given instant, or at once. -/
def timed (id : String) (at_ : Option Int) : Job :=
  { id := id, spec := some { command := "true" }, schedule := at_.map fun t => { kind := some (.runAt t) } }

/-- A worker fails the first of its jobs, and then the timer for its retry fires, as does that of a job with a run
time. -/
def failing : List Call :=
  [.registerWorker (some { id := "w" }), .submitJob (some (timed "a" none)),
    .submitJob (some (timed "b" (some 20000000000))), .pollTask "w" 2, .reportTask "task-" .failed "exit status 1",
    .heartbeat "w" 0, .timer "a", .timer "b"]

def retrying (n : Nat) : Server := (failing.take n).foldl (after .ticking noCron) (started .ticking noCron .empty leading)

/-- The next poll hands out both jobs, the one for its second attempt. -/
theorem not_dispatched_early_retrying : ∃ j t k, (retrying 5).store.jobs.get "a" = some j ∧ j.updatedAt = some t ∧
    (issued .ticking (retrying 8) (.call (.pollTask "w" 2))).map (fun asg => (asg.jobId, asg.attempt)) =
      [("a", 2), ("b", 1)] ∧ ((retrying 8).store.jobs.get "b").bind runAt = some 20000000000 ∧
    ∀ asg ∈ issued .ticking (retrying 8) (.call (.pollTask "w" 2)),
      (asg.jobId = "a" → t + Retry.backoff j.retryPolicy j.attempt (Env.ticking.float64 k) ≤ leasedAt .ticking asg) ∧
      ∃ j', (retrying 8).store.jobs.get asg.jobId = some j' ∧ ∀ u, runAt j' = some u → u ≤ leasedAt .ticking asg := by
  have hok : ∀ s c, fits .ticking s c = true → Orderly .ticking s (.call c) :=
    fun s c h => ⟨(proper_of_fits h).vacant, (proper_of_fits h).notEarly, (proper_of_fits h).foreseeable⟩
  have hbefore : ((retrying 4).store.jobs.get "a").map Job.state = some .running := by decide +kernel
  have hafter : ((retrying 5).store.jobs.get "a").map (fun j => (j.state, j.attempt)) = some (.queued, 1) := by
    decide +kernel
  obtain ⟨j₀, hj₀, hs₀⟩ := Option.map_eq_some_iff.1 hbefore
  obtain ⟨j, hj, hstate⟩ := Option.map_eq_some_iff.1 hafter
  obtain ⟨hs, ha⟩ := Prod.mk.inj hstate
  have hnew : (retrying 4).store.jobs.get "a" ≠ some j := by
    intro h
    cases hj₀.symm.trans h
    cases hs₀.symm.trans hs
  have hrun : Runs .ticking noCron (Orderly .ticking) (started .ticking noCron .empty leading) (retrying 4) :=
    Runs.fitting hok .refl (by decide +kernel)
  have hrest : Runs .ticking noCron (Orderly .ticking) (retrying 5)
      ((failing.drop 5).foldl (after .ticking noCron) (retrying 5)) := Runs.fitting hok .refl (by decide +kernel)
  have hall : Runs .ticking noCron (Orderly .ticking) (started .ticking noCron .empty leading) (retrying 8) :=
    Runs.fitting hok .refl (by decide +kernel)
  obtain ⟨t, k, -, -, hup, -, -, -, hlease⟩ := (not_dispatched_early monotone_ticking (fun _ => rfl) hrun).2
    (.call (.reportTask "task-" .failed "exit status 1")) (retrying 5) "a" j (hok _ _ rfl) rfl hj hs ha.ge hnew
  refine ⟨j, t, k, hj, hup, by decide +kernel, by decide +kernel, fun asg hasg => ⟨hlease _ hrest "w" 2 asg hasg, ?_⟩⟩
  exact ((not_dispatched_early monotone_ticking (fun _ => rfl) hall).1 "w" 2 asg hasg).2.2

/-- The clock stands at the epoch while a worker registers and a job is submitted that is to run after 300 years, and
then at the end of the greatest duration. -/
def centuries : Env := .leaping 23 maxDuration

def submittedFar (n : Nat) : Server :=
  (List.take n [.registerWorker (some { id := "w" }), .submitJob (some (timed "a" (some (300 * 31557600 * 1000000000)))),
    .timer "a"]).foldl (after centuries noCron) (started centuries noCron .empty leading)

/-- The timer is not early, since it was set for that duration, but a poll then leases the job years ahead of its run
time. -/
theorem dispatched_early : Monotone centuries.clock ∧ centuries.Reliable ∧
    Runs centuries noCron (fun s ev => SubmitsWhere Vacant centuries s ev ∧ NotEarly centuries s ev)
      (started centuries noCron .empty leading) (submittedFar 3) ∧
    ∃ asg j t, asg ∈ issued centuries (submittedFar 3) (.call (.pollTask "w" 1)) ∧
      (submittedFar 3).store.jobs.get asg.jobId = some j ∧ runAt j = some t ∧ leasedAt centuries asg < t := by
  refine ⟨?_, fun _ => rfl, ?_, ?_⟩
  · intro a b hab
    simp only [centuries, Env.leaping, maxDuration]
    split <;> split <;> omega
  · refine ((Runs.refl.call ⟨?_, ?_⟩ rfl).call ⟨?_, ?_⟩ rfl).call ⟨?_, ?_⟩ (by decide +kernel)
    · rintro job ⟨⟩
    · rintro x t ⟨⟩ ht
      have hdue : (submittedFar 2).retryTimers["a"]?.all (· ≤ centuries.clock (submittedFar 2).tick) = true := by
        decide +kernel
      replace ht : (submittedFar 2).retryTimers["a"]? = some t := ht
      rw [ht] at hdue
      exact of_decide_eq_true hdue
    · rintro job ⟨⟩
    · rintro x t ⟨⟩
    · rintro job ⟨⟩
      show _ = none
      decide +kernel
    · rintro x t ⟨⟩
  · have hissued : (issued centuries (submittedFar 3) (.call (.pollTask "w" 1))).map (fun asg =>
        (asg.jobId, leasedAt centuries asg)) = [("a", maxDuration)] := by decide +kernel
    have hstored : ((submittedFar 3).store.jobs.get "a").map runAt = some (some (300 * 31557600 * 1000000000)) := by
      decide +kernel
    obtain ⟨asg, hasg, he⟩ := List.mem_map.1 (hissued.symm ▸ List.mem_singleton_self ("a", maxDuration))
    obtain ⟨hid, hat⟩ := Prod.mk.inj he
    obtain ⟨j, hj, hrun⟩ := Option.map_eq_some_iff.1 hstored
    exact ⟨asg, j, _, hasg, hid ▸ hj, hrun, hat ▸ by decide⟩

end Distsched.Timing
