/-
Every handler of the node keeps to the protocol of the fire times: placement and promotion put a job into the queue only
once its fire time has passed and arm a timer otherwise, a retry waits out its delay, and a rebuild reads the fire times
from the store.
-/
import Distsched.Timing.Clockwork

namespace Distsched.Timing

open Scheduler Prog
open Lifecycle (Table table)

/-- The agenda stays punctual, and what is outside `S` is left alone. -/
structure Arranges (env : Env) (strict : Prop) (old : Table) (t₀ : Nat) (S : Set String) (a a' : Agenda) : Prop where
  punctual : Punctual env strict old t₀ a'
  leaves : Leaves S a a'

variable {env : Env} {strict : Prop} {old : Table} {t₀ : Nat} {a a' : Agenda} {S : Set String} {x : String} {job j : Job}

namespace Arranges

theorem refl (h : Punctual env strict old t₀ a) : Arranges env strict old t₀ S a a := ⟨h, .refl⟩

theorem after {a₁ : Agenda} (h : Arranges env strict old t₀ S a₁ a') (h₁ : Leaves S a a₁) :
    Arranges env strict old t₀ S a a' := ⟨h.punctual, h₁.trans h.leaves⟩

end Arranges

/-! ## Arming -/

theorem clocked_push {p c : Int} (h : Punctual env strict old t₀ (a.push x)) (hx : x ∈ S) :
    Clocked env strict old t₀ (Queue.push x p c) a fun _ a' => Arranges env strict old t₀ S a a' :=
  ⟨h, fun _ _ => ⟨h, .push hx⟩⟩

/-- A job is pushed only if it is QUEUED, so it has to be ripe only then. -/
theorem clocked_enqueueJob (h : Punctual env strict old t₀ a)
    (hx : ∀ j, a.jobs x = some j → j.state = .queued → Overdue strict a.now j ∧ a.due x = none) (hS : x ∈ S) :
    Clocked env strict old t₀ (enqueueJob x) a fun _ a' => Arranges env strict old t₀ S a a' := by
  refine (clocked_timeless .isClosed trivial).bind ?_
  rintro closed a rfl
  cases closed with
  | true => exact .refl h
  | false =>
    refine (clocked_timeless .isLeader trivial).bind ?_
    rintro leads a rfl
    cases leads with
    | false => exact .refl h
    | true =>
      refine (clocked_getJob x).bind ?_
      rintro r a ⟨rfl, rfl⟩
      cases hj : a.jobs x with
      | none => exact .refl h
      | some j =>
        obtain rfl : j.id = x := (h.stored x j hj).1
        show Clocked env strict old t₀ (if j.state ≠ .queued then _ else _) a _
        split
        · exact .refl h
        · rename_i hs
          have hs : j.state = .queued := not_not.1 hs
          have hpush : Punctual env strict old t₀ (a.push j.id) := h.push ⟨j, hj, .inr ⟨hs, hx j hj hs⟩⟩
          exact (clocked_push hpush hS).bind fun _ _ h => h

/-- A job that is neither ready nor armed is put into the queue or gets a timer. -/
theorem clocked_armEnqueue {d : Int} (h : Punctual env strict old t₀ a) (hx : a.Awaits strict x (a.now + max d 0))
    (hid : a.Idle x) (hS : x ∈ S) :
    Clocked env strict old t₀ (armEnqueue x d) a fun _ a' => Arranges env strict old t₀ S a a' := by
  unfold armEnqueue
  split
  · rename_i hd
    rw [max_eq_right hd, add_zero] at hx
    obtain ⟨j, hj, hb⟩ := hx
    refine clocked_enqueueJob h (fun j' hj' hs => ⟨?_, hid.2⟩) hS
    cases hj.symm.trans hj'
    rcases hb with ht | ⟨-, hb⟩
    · rw [hs] at ht
      cases ht
    · exact hb
  · rename_i hd
    rw [max_eq_left (by omega)] at hx
    have harm : Punctual env strict old t₀ (a.arm x d) := h.arm hx fun hr => absurd hr hid.1
    exact ⟨harm, fun _ _ => ⟨harm, .arm hS⟩⟩

/-! ## Placement and promotion -/

/-- The record and the delay of a job that becomes ready agree on when it is due. -/
structure Fires (strict : Prop) (a : Agenda) (job : Job) (r : Job × Int) : Prop where
  record : ∃ t, r.1 = { job with scheduledAt := t }
  queued : ∀ t, NotBefore strict r.1 t → Foreseen a.now r.1 t
  due : ∀ t, NotBefore strict r.1 t → t ≤ a.now + max r.2 0

/-- From instant `n` on, no fire time is so far ahead that no timer can be set for it. -/
def Near (n : Int) (ps : Cron) : Prop :=
  ∀ expr next t, ps expr = .ok next → n ≤ t.ns → (next t).ns ≤ t.ns + maxDuration

theorem Near.mono {ps : Cron} {n n' : Int} (h : Near n ps) (hn : n ≤ n') : Near n' ps :=
  fun expr next t hparse ht => h expr next t hparse (hn.trans ht)

theorem Near.nextCron {ps : Cron} {n : Int} (h : Near n ps) {expr : String} {now next : Time} (hn : n ≤ now.ns)
    (hnext : nextCron ps expr now = .ok next) : next.ns ≤ now.ns + maxDuration := by
  unfold Scheduler.nextCron at hnext
  split at hnext
  · cases hnext
  · rename_i f hf
    cases hnext
    exact h expr f now hf hn

theorem clocked_fireTime {ps : Cron} (hps : strict → Near (env.clock t₀) ps) (now : Time) (ha : job.attempt = 0)
    (h₀ : env.clock t₀ ≤ now.ns) (hn : now.ns ≤ a.now)
    (hsched : strict → ∀ t, job.scheduledAt = some t → t ≤ a.now) (hnear : ∀ t, runAt job = some t → t ≤ a.now + maxDuration) :
    Clocked env strict old t₀ (fireTime ps job now) a fun r a' =>
      (∃ n, a.now ≤ n ∧ a' = a.pass n) ∧ Fires strict a' job r := by
  have hcur : ∀ t, NotBefore strict job t → (∀ ra, runAt job = some ra → ra ≤ a.now) → t ≤ a.now := by
    rintro t (ht | ⟨hst | h1, ht⟩) hrun
    · exact hrun t ht
    · exact hsched hst t ht
    · omega
  -- the job keeps its record and is due at once
  have hnow : (∀ ra, runAt job = some ra → ra ≤ a.now) →
      Clocked env strict old t₀ (pure (job, 0)) a fun r a' => (∃ n, a.now ≤ n ∧ a' = a.pass n) ∧ Fires strict a' job r := by
    intro hrun
    refine ⟨⟨a.now, le_refl _, rfl⟩, ⟨job.scheduledAt, rfl⟩, fun t ht => .inl (hcur t ht hrun), fun t ht => ?_⟩
    have := hcur t ht hrun
    show t ≤ a.now + max 0 0
    omega
  -- the job is stored with its fire time and due after the time left
  have hlater : ∀ u : Int, (∀ ra, runAt job = some ra → ra = u) → (strict → u ≤ a.now + maxDuration) →
      Clocked env strict old t₀ (do let t ← timeNow; pure ({ job with scheduledAt := some u }, durationTo u t.ns)) a
        fun r a' => (∃ n, a.now ≤ n ∧ a' = a.pass n) ∧ Fires strict a' job r := by
    intro u hrun hu
    refine clocked_now.bind ?_
    rintro t _ ⟨rfl, ht⟩
    have hbound : ∀ t', NotBefore strict { job with scheduledAt := some u } t' → t' = u ∧ u ≤ t.ns + maxDuration := by
      rintro t' (ht' | ⟨hst | h1, ht'⟩)
      · obtain rfl := hrun t' ht'
        have := hnear t' ht'
        exact ⟨rfl, by omega⟩
      · have := hu hst
        exact ⟨(Option.some.inj ht').symm, by omega⟩
      · replace h1 : 1 ≤ job.attempt := h1
        omega
    refine ⟨⟨t.ns, ht, rfl⟩, ⟨some u, rfl⟩, fun t' ht' => .inr ?_, fun t' ht' => ?_⟩
    · obtain ⟨rfl, hle⟩ := hbound t' ht'
      exact ⟨hle, t', rfl, le_refl _⟩
    · obtain ⟨rfl, hle⟩ := hbound t' ht'
      have := le_add_durationTo (le_refl t.ns) (le_refl t') hle
      show t' ≤ t.ns + max (durationTo t' t.ns) 0
      omega
  unfold fireTime
  split
  · rename_i hs
    refine hnow fun ra hra => ?_
    rw [runAt, hs] at hra
    cases hra
  · rename_i sched hs
    have hrunAt : runAt job = sched.getRunAt := by rw [runAt, hs]; rfl
    split
    · rename_i hc
      have hnone : runAt job = none := by
        refine runAt_of_cron ?_
        rw [Job.cronExpr, hs]
        exact hc
      split
      · exact hnow fun ra hra => by rw [hnone] at hra; cases hra
      · rename_i next hnext
        refine hlater _ (fun ra hra => by rw [hnone] at hra; cases hra) fun hst => ?_
        have := (hps hst).nextCron h₀ hnext
        omega
    · split
      · rename_i hra
        exact hnow fun ra h => by rw [hrunAt, hra] at h; cases h
      · rename_i ra hra
        have hrun : ∀ ra', runAt job = some ra' → ra' = ra := fun ra' h => by
          rw [hrunAt, hra] at h
          exact (Option.some.inj h).symm
        split
        · exact hlater ra hrun fun _ => hnear ra (hrunAt.trans hra)
        · exact hnow fun ra' h => by rw [hrun ra' h]; omega

/-- A QUEUED record that counts no attempt is written. -/
theorem Punctual.enqueue (h : Punctual env strict old t₀ a) (hid : a.Idle j.id) (ho : Superseded strict old a j.id)
    (hs : j.state = .queued) (ha : j.attempt = 0)
    (hq : ∀ t, NotBefore strict j t → Foreseen a.now j t) :
    Punctual env strict old t₀ (a.put j) := by
  refine h.write hid ho ⟨fun hp => ?_, fun _ => hq, fun hr => ?_, fun _ h1 => ?_⟩ fun _ h1 => ?_
  · cases hs.symm.trans hp
  · cases hs.symm.trans hr
  · omega
  · omega

/-- A job is stored QUEUED with its fire time, and then queued or armed. -/
theorem clocked_makeReady {ps : Cron} (hps : strict → Near (env.clock t₀) ps) (now : Time)
    (h : Punctual env strict old t₀ a) (hid : a.Idle job.id)
    (ho : Superseded strict old a job.id) (ha : job.attempt = 0) (h₀ : env.clock t₀ ≤ now.ns) (hn : now.ns ≤ a.now)
    (hsched : strict → ∀ t, job.scheduledAt = some t → t ≤ a.now)
    (hnear : ∀ t, runAt job = some t → t ≤ a.now + maxDuration) (hS : job.id ∈ S) :
    Clocked env strict old t₀ (makeReady ps job now) a fun _ a' => Arranges env strict old t₀ S a a' := by
  refine (clocked_fireTime hps now ha h₀ hn hsched hnear).bind ?_
  rintro ⟨_, d⟩ _ ⟨⟨n, hle, rfl⟩, ⟨t, rfl⟩, hqueued, hdue⟩
  have hput : Punctual env strict old t₀
      ((a.pass n).put { job with scheduledAt := t, state := .queued, updatedAt := some now.ns }) :=
    (h.pass hle).enqueue hid (ho.mono hle) rfl ha hqueued
  refine (clocked_putJob hput).bind ?_
  rintro _ _ ⟨rfl, rfl⟩
  have hawaits : ((a.pass n).put { job with scheduledAt := t, state := .queued, updatedAt := some now.ns }).Awaits strict
      job.id (n + max d 0) := ⟨_, Function.update_self .., .inr ⟨rfl, hdue⟩⟩
  refine (clocked_armEnqueue hput hawaits hid hS).mono fun _ _ h => ?_
  exact h.after ((Leaves.pass hle).trans (.put hS))

/-- A job that is PENDING, RUNNING or not stored is idle, and bound by no earlier record. -/
theorem Punctual.free (h : Punctual env strict old t₀ a)
    (hx : ∀ j, a.jobs x = some j → j.state = .pending ∨ j.state = .running) : a.Idle x ∧ Superseded strict old a x := by
  have hcur : ∀ j, a.jobs x = some j → terminal j.state = false ∧ j.state ≠ .queued := by
    intro j hj
    rcases hx j hj with hs | hs <;> rw [hs] <;> exact ⟨rfl, nofun⟩
  exact ⟨h.idle hcur, h.superseded fun j hj => ⟨(hcur j hj).1, fun hq => absurd hq (hcur j hj).2⟩⟩

theorem clocked_placeNewJob {ps : Cron} (hps : strict → Near (env.clock t₀) ps) (now : Time) (h : Punctual env strict old t₀ a)
    (hx : a.jobs job.id = none) (ha : job.attempt = 0) (h₀ : env.clock t₀ ≤ now.ns) (hn : now.ns ≤ a.now)
    (hsched : strict → ∀ t, job.scheduledAt = some t → t ≤ a.now)
    (hnear : ∀ t, runAt job = some t → t ≤ a.now + maxDuration) :
    Clocked env strict old t₀ (placeNewJob ps job now) a fun _ a' => Punctual env strict old t₀ a' := by
  obtain ⟨hid, ho⟩ := h.free fun j hj => by
    rw [hx] at hj
    cases hj
  refine (clocked_depsSatisfied job.dependsOn).bind ?_
  rintro ⟨ready, failedDep⟩ a rfl
  dsimp only
  split
  · have hput := h.finish
      (j := { job with state := .canceled, lastError := upstreamFailed failedDep, updatedAt := some now.ns }) rfl
    refine (clocked_putJob hput).bind ?_
    rintro _ _ ⟨-, rfl⟩
    exact hput
  · split
    · have hput : Punctual env strict old t₀ (a.put { job with state := .pending, updatedAt := some now.ns }) :=
        h.write hid ho ⟨fun _ => ⟨ha, hsched, hnear⟩, nofun, nofun, nofun⟩ nofun
      refine (clocked_putJob hput).bind ?_
      rintro _ _ ⟨-, rfl⟩
      exact (clocked_timeless (.addDeps job) trivial).mono fun _ _ he => he ▸ hput
    · refine (clocked_makeReady (S := Set.univ) hps now h hid ho ha h₀ hn hsched hnear (Set.mem_univ _)).mono ?_
      exact fun _ _ h => h.punctual

/-! ## Cancellation -/

theorem clocked_cancelOne (reason : String) (now : Int) (h : Punctual env strict old t₀ a) :
    Clocked env strict old t₀ (cancelOne x reason now) a fun _ a' => Arranges env strict old t₀ S a a' := by
  refine (clocked_getJob x).bind ?_
  rintro r a ⟨rfl, rfl⟩
  cases hj : a.jobs x with
  | none => exact .refl h
  | some job =>
    obtain rfl : job.id = x := (h.stored x job hj).1
    show Clocked env strict old t₀ (if terminal job.state = true then _ else _) a _
    split
    · exact .refl h
    · have hput := h.finish (j := { job with state := .canceled, lastError := reason, updatedAt := some now }) rfl
      refine (clocked_putJob hput).bind ?_
      rintro _ _ ⟨rfl, rfl⟩
      refine ⟨trivial, fun _ _ => ⟨hput.unready job.id, ?_⟩⟩
      exact (Leaves.cancel rfl).trans (.unready ⟨_, Function.update_self .., rfl⟩)

theorem clocked_cascadeLoop (now : Int) : ∀ (fuel : Nat) (visited work : List String) (reason : String) (a : Agenda),
    Punctual env strict old t₀ a →
      Clocked env strict old t₀ (cascadeLoop now fuel visited work reason) a fun _ a' =>
        Arranges env strict old t₀ S a a'
  | 0, _, _, _, _, h => .refl h
  | _ + 1, _, [], _, _, h => .refl h
  | fuel + 1, visited, x :: work, reason, a, h => by
    unfold cascadeLoop
    split
    · exact clocked_cascadeLoop now fuel visited work reason a h
    · refine (clocked_cancelOne (S := S) reason now h).bind fun _ a₁ h₁ => ?_
      refine (clocked_timeless (.dependentsOf x) trivial).bind ?_
      rintro xs a₁ rfl
      refine (clocked_timeless (.removeFromIndex x) trivial).bind ?_
      rintro _ a₁ rfl
      exact (clocked_cascadeLoop now fuel _ _ _ a₁ h₁.punctual).mono fun _ _ h => h.after h₁.leaves

theorem clocked_cancelCascade (reason : String) (h : Punctual env strict old t₀ a) :
    Clocked env strict old t₀ (cancelCascade x reason) a fun _ a' => Arranges env strict old t₀ S a a' := by
  refine clocked_now.bind ?_
  rintro now _ ⟨rfl, hn⟩
  refine (clocked_timeless .indexBound trivial).bind ?_
  rintro bound _ rfl
  exact (clocked_cascadeLoop _ _ _ _ _ _ (h.pass hn)).mono fun _ _ h => h.after (.pass hn)

theorem clocked_tryPromote {ps : Cron} (hps : strict → Near (env.clock t₀) ps) (h : Punctual env strict old t₀ a) (hS : x ∈ S) :
    Clocked env strict old t₀ (tryPromote ps x) a fun _ a' => Arranges env strict old t₀ S a a' := by
  refine (clocked_getJob x).bind ?_
  rintro r a ⟨rfl, rfl⟩
  cases hj : a.jobs x with
  | none => exact .refl h
  | some job =>
    obtain ⟨rfl, hsane⟩ := h.stored x job hj
    show Clocked env strict old t₀ (if job.state ≠ .pending then _ else _) a _
    split
    · exact .refl h
    · rename_i hs
      have hs : job.state = .pending := not_not.1 hs
      obtain ⟨hid, ho⟩ := h.free fun j hj' => by
        cases hj.symm.trans hj'
        exact .inl hs
      obtain ⟨ha, hsched, hnear⟩ := hsane.pending hs
      refine (clocked_depsSatisfied job.dependsOn).bind ?_
      rintro ⟨ready, failedDep⟩ a rfl
      dsimp only
      split
      · exact clocked_cancelCascade _ h
      · split
        · refine clocked_now.bind ?_
          rintro now _ ⟨rfl, hn⟩
          refine (clocked_makeReady hps now (h.pass hn) hid (ho.mono hn) ha (h.later.trans hn) (le_refl _)
            (fun hst t ht => (hsched hst t ht).trans hn) (fun t ht => ?_) hS).bind fun _ a₁ h₁ => ?_
          · have := hnear t ht
            show t ≤ now.ns + maxDuration
            omega
          refine (clocked_timeless (.removeFromIndex job.id) trivial).mono ?_
          rintro _ _ rfl
          exact h₁.after (.pass hn)
        · exact .refl h

theorem clocked_promoteDependents {ps : Cron} (hps : strict → Near (env.clock t₀) ps) (h : Punctual env strict old t₀ a) :
    Clocked env strict old t₀ (promoteDependents ps x) a fun _ a' => Punctual env strict old t₀ a' := by
  refine (clocked_timeless (.dependentsOf x) trivial).bind ?_
  rintro xs a rfl
  refine meets_forM (tryPromote ps) (Punctual env strict old t₀) xs a (fun y a _ ha => ?_) h
  exact (clocked_tryPromote (S := Set.univ) hps ha (Set.mem_univ _)).mono fun _ _ h => h.punctual

/-! ## The end of an attempt -/

/-- A job whose attempt has ended: it is in nobody's hands, and its run time has passed. -/
structure Ended (strict : Prop) (old : Table) (a : Agenda) (job : Job) : Prop where
  idle : a.Idle job.id
  superseded : Superseded strict old a job.id
  ran : ∀ t, runAt job = some t → t ≤ a.now

theorem Punctual.ended (h : Punctual env strict old t₀ a) (hj : a.jobs x = some job) (hs : job.state = .running) :
    Ended strict old a job := by
  obtain ⟨rfl, hsane⟩ := h.stored x job hj
  obtain ⟨hid, ho⟩ := h.free fun j hj' => by
    cases hj.symm.trans hj'
    exact .inr hs
  exact ⟨hid, ho, hsane.running hs⟩

theorem Ended.pass {n : Int} (h : Ended strict old a job) (hn : a.now ≤ n) : Ended strict old (a.pass n) job :=
  ⟨h.idle, h.superseded.mono hn, fun t ht => (h.ran t ht).trans hn⟩

theorem clocked_maybeRescheduleCron {ps : Cron} (hps : strict → Near (env.clock t₀) ps) (now : Time)
    (h : Punctual env strict old t₀ a)
    (he : Ended strict old a job) (h₀ : env.clock t₀ ≤ now.ns) (hn : now.ns ≤ a.now) (hS : job.id ∈ S) :
    Clocked env strict old t₀ (maybeRescheduleCron ps job now) a fun r a' =>
      (r.1 = true ∧ Arranges env strict old t₀ S a a') ∨ (r = (false, job) ∧ a' = a) := by
  unfold maybeRescheduleCron
  split
  · exact .inr ⟨rfl, rfl⟩
  · split
    · exact .inr ⟨rfl, rfl⟩
    · rename_i hcron _ next hnext
      -- the schedule is a cron expression, so the job waits for the stored fire time alone
      have hbound : ∀ t, NotBefore strict { job with
          state := .queued, attempt := 0, assignedWorkerId := "", lastError := "", finishedAt := none,
          scheduledAt := some next.ns, updatedAt := some now.ns } t → t = next.ns ∧ t ≤ a.now + maxDuration := by
        rintro t (ht | ⟨hst | h1, ht⟩)
        · cases (runAt_of_cron hcron).symm.trans ht
        · obtain rfl := Option.some.inj ht
          have := (hps hst).nextCron h₀ hnext
          exact ⟨rfl, by omega⟩
        · exact absurd (show (1 : Int) ≤ 0 from h1) (by decide)
      have hput : Punctual env strict old t₀ (a.put { job with
          state := .queued, attempt := 0, assignedWorkerId := "", lastError := "", finishedAt := none,
          scheduledAt := some next.ns, updatedAt := some now.ns }) := by
        refine h.enqueue he.idle he.superseded rfl rfl fun t ht => ?_
        exact .inr ⟨(hbound t ht).2, next.ns, rfl, (hbound t ht).1.le⟩
      refine (clocked_putJob hput).bind ?_
      rintro _ _ ⟨rfl, rfl⟩
      refine clocked_now.bind ?_
      rintro t _ ⟨rfl, ht⟩
      refine (clocked_armEnqueue (hput.pass ht) ⟨_, Function.update_self .., .inr ⟨rfl, fun u hu => ?_⟩⟩ he.idle hS).bind ?_
      · obtain ⟨rfl, hnear⟩ := hbound u hu
        replace ht : a.now ≤ t.ns := ht
        have := le_add_durationTo (le_refl t.ns) (le_refl next.ns) (by omega)
        show next.ns ≤ t.ns + max (durationTo next.ns t.ns) 0
        omega
      · intro _ a' h'
        exact .inl ⟨rfl, (h'.after (.pass ht)).after (.put hS)⟩

/-- A failure is recorded with a delay that the job then waits out, unless its attempts are used up. -/
theorem clocked_handleFailure {ps : Cron} (hps : strict → Near (env.clock t₀) ps) (msg : String) (now : Time)
    (h : Punctual env strict old t₀ a)
    (he : Ended strict old a job) (h₀ : env.clock t₀ ≤ now.ns) (hn : now.ns ≤ a.now) (hS : job.id ∈ S) :
    Clocked env strict old t₀ (handleFailure ps job msg now) a fun _ a' => Arranges env strict old t₀ S a a' := by
  have begun := h.begun
  unfold handleFailure
  dsimp only
  split
  · refine (clocked_float64 h).bind ?_
    rintro _ _ ⟨k, hk, rfl, rfl, h⟩
    have hdrawn : Leaves S a { a with tick := k + 1 } :=
      ⟨le_refl _, fun _ _ h => h, fun _ _ => rfl, fun _ _ => .inl ⟨rfl, id⟩⟩
    set d := Retry.backoff job.retryPolicy job.attempt (env.float64 k) with hd
    have hbound : ∀ t, NotBefore strict (retried { job with
        lastError := msg, assignedWorkerId := "", updatedAt := some now.ns } now.ns d) t →
          t ≤ a.now ∨ t = now.ns + d := by
      rintro t (ht | ⟨-, ht⟩)
      · exact .inl (he.ran t ht)
      · exact .inr (Option.some.inj ht).symm
    have hshort : d ≤ maxDuration := Retry.backoff_le ..
    have hput : Punctual env strict old t₀ (Agenda.put { a with tick := k + 1 } (retried { job with
        lastError := msg, assignedWorkerId := "", updatedAt := some now.ns } now.ns d)) := by
      refine h.write he.idle he.superseded ⟨nofun, fun _ t ht => ?_, nofun, fun _ _ => ⟨now.ns, k, hn, rfl, rfl⟩⟩
        fun _ _ => ⟨now.ns, k, begun.trans hk, Nat.lt_succ_self k, h₀, rfl, rfl⟩
      refine (hbound t ht).imp_right fun h => ⟨?_, now.ns + d, rfl, h.le⟩
      show t ≤ a.now + maxDuration
      omega
    refine (clocked_putJob hput).bind ?_
    rintro _ _ ⟨rfl, rfl⟩
    refine (clocked_armEnqueue hput ⟨_, Function.update_self .., .inr ⟨rfl, fun t ht => ?_⟩⟩ he.idle hS).bind ?_
    · show t ≤ a.now + max d 0
      rcases hbound t ht with hle | rfl <;> omega
    · exact fun _ _ h' => (h'.after (.put hS)).after hdrawn
  · have hended : Ended strict old a { job with lastError := msg, assignedWorkerId := "", updatedAt := some now.ns } :=
      ⟨he.idle, he.superseded, he.ran⟩
    refine (clocked_maybeRescheduleCron hps now h hended h₀ hn hS).bind ?_
    rintro r a' (⟨hr, h'⟩ | ⟨rfl, rfl⟩)
    · obtain ⟨b, job'⟩ := r
      obtain rfl : b = true := hr
      exact h'
    · have hput := h.finish (j := { job with
        lastError := msg, assignedWorkerId := "", updatedAt := some now.ns, state := .failed,
        finishedAt := some now.ns }) rfl
      have hbury : ∀ j : Job, Clocked env strict old t₀ (Db.putDeadLetter j) a' fun r a'' => a'' = a' ∧ r = .ok () :=
        fun j => ⟨trivial, fun _ hr => ⟨rfl, hr⟩⟩
      refine (hbury _).bind ?_
      rintro _ a ⟨rfl, rfl⟩
      refine (clocked_putJob hput).bind ?_
      rintro _ _ ⟨rfl, rfl⟩
      refine (clocked_timeless (.removeFromIndex job.id) trivial).bind ?_
      rintro _ _ rfl
      exact (clocked_cancelCascade _ hput).bind fun _ _ h' => h'.after (.put hS)

end Distsched.Timing
