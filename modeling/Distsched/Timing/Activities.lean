/-
The activities of the node under the protocol of the fire times, each as a whole: reports, sweeps, submissions,
cancellations, timers and rebuilds. Polls follow in `Dispatch`.
-/
import Distsched.Timing.Handlers

namespace Distsched.Timing

open Scheduler Prog
open Lifecycle (Table table)

variable {env : Env} {strict : Prop} {old : Table} {t₀ : Nat} {a a' : Agenda} {S : Set String} {x : String} {job j : Job}

/-! ## Reports and sweeps -/

theorem clocked_reportSuccess {ps : Cron} (hps : strict → Near (env.clock t₀) ps) (τ : String) (now : Time)
    (h : Punctual env strict old t₀ a)
    (he : Ended strict old a job) (h₀ : env.clock t₀ ≤ now.ns) (hn : now.ns ≤ a.now) :
    Clocked env strict old t₀ (reportSuccess ps τ job now) a fun _ a' => Punctual env strict old t₀ a' := by
  refine (clocked_timeless (.removeLease τ) trivial).bind ?_
  rintro _ a rfl
  refine (clocked_maybeRescheduleCron (S := Set.univ) hps now h he h₀ hn (Set.mem_univ _)).bind ?_
  rintro r a' (⟨hr, h'⟩ | ⟨rfl, rfl⟩)
  · obtain ⟨b, job'⟩ := r
    obtain rfl : b = true := hr
    exact h'.punctual
  · have hput := h.finish (j := completed job now.ns) rfl
    refine (clocked_putJob hput).bind ?_
    rintro _ _ ⟨rfl, rfl⟩
    refine (clocked_timeless (.removeFromIndex job.id) trivial).bind ?_
    rintro _ _ rfl
    exact (clocked_promoteDependents hps hput).bind fun _ _ h => h

theorem clocked_reportTask (cfg : Config) {ps : Cron} (hps : strict → Near (env.clock t₀) ps) (τ : String)
    (result : TaskResult) (msg : String)
    (h : Punctual env strict old t₀ a) :
    Clocked env strict old t₀ (reportTask cfg ps τ result msg) a fun _ a' => Punctual env strict old t₀ a' := by
  have hrelease : ∀ (a : Agenda) (r : Except Status Bool), Punctual env strict old t₀ a →
      Clocked env strict old t₀ (do removeLease τ; pure r) a fun _ a' => Punctual env strict old t₀ a' := by
    intro a r ha
    refine (clocked_timeless (.removeLease τ) trivial).bind ?_
    rintro _ _ rfl
    exact ha
  refine (clocked_requireLeader cfg).bind ?_
  rintro denied a rfl
  cases denied with
  | some e => exact h
  | none =>
    refine (clocked_timeless (.getLease τ) trivial).bind ?_
    rintro lease a rfl
    cases lease with
    | none => exact h
    | some l =>
      refine (clocked_getJob l.jobID).bind ?_
      rintro r a ⟨rfl, rfl⟩
      cases hj : a.jobs l.jobID with
      | none => exact hrelease a _ h
      | some job =>
        show Clocked env strict old t₀ (if job.state ≠ .running then _ else _) a _
        split
        · exact hrelease a _ h
        · rename_i hs
          have he : Ended strict old a job := h.ended hj (not_not.1 hs)
          refine clocked_now.bind ?_
          rintro now _ ⟨rfl, hn⟩
          cases result with
          | succeeded => exact clocked_reportSuccess hps τ now (h.pass hn) (he.pass hn) (h.later.trans hn) (le_refl _)
          | failed =>
            refine (clocked_handleFailure (S := Set.univ) hps msg now (h.pass hn) (he.pass hn) (h.later.trans hn)
              (le_refl _) (Set.mem_univ _)).bind fun r a₁ h₁ => ?_
            cases r with
            | error e => exact h₁.punctual
            | ok _ => exact hrelease a₁ _ h₁.punctual
          | unspecified => exact h.pass hn

theorem clocked_requeueLease {ps : Cron} (hps : strict → Near (env.clock t₀) ps) (τ reason : String)
    (h : Punctual env strict old t₀ a) :
    Clocked env strict old t₀ (requeueLease ps τ reason) a fun _ a' => Punctual env strict old t₀ a' := by
  refine (clocked_timeless (.getLease τ) trivial).bind ?_
  rintro lease a rfl
  cases lease with
  | none => exact h
  | some l =>
    refine (clocked_timeless (.removeLease τ) trivial).bind ?_
    rintro _ a rfl
    refine (clocked_getJob l.jobID).bind ?_
    rintro r a ⟨rfl, rfl⟩
    cases hj : a.jobs l.jobID with
    | none => exact h
    | some job =>
      show Clocked env strict old t₀ (if job.state ≠ .running then _ else _) a _
      split
      · exact h
      · rename_i hs
        have he : Ended strict old a job := h.ended hj (not_not.1 hs)
        refine clocked_now.bind ?_
        rintro now _ ⟨rfl, hn⟩
        exact (clocked_handleFailure (S := Set.univ) hps reason now (h.pass hn) (he.pass hn) (h.later.trans hn)
          (le_refl _) (Set.mem_univ _)).bind fun _ _ h₁ => h₁.punctual

theorem clocked_requeueLeases {ps : Cron} (hps : strict → Near (env.clock t₀) ps) (reason : String) (l : List String)
    (h : Punctual env strict old t₀ a) :
    Clocked env strict old t₀ (l.forM fun τ => requeueLease ps τ reason) a fun _ a' => Punctual env strict old t₀ a' :=
  meets_forM _ (Punctual env strict old t₀) l a (fun τ _ _ h => clocked_requeueLease hps τ reason h) h

theorem clocked_putWorker (w : WorkerInfo) : Clocked env strict old t₀ (putWorker w) a fun _ a' => a' = a := by
  refine (clocked_timeless (.putWorker w) trivial).bind ?_
  rintro r a rfl
  cases r with
  | error e => exact rfl
  | ok _ =>
    refine (meets_appendRepl (.upsertWorker w) (silent_timeless trivial) (silent_timeless trivial)).bind ?_
    rintro _ a rfl
    exact (clocked_timeless (.cacheWorker w) trivial).bind fun _ _ h => h

theorem clocked_reaperTick (cfg : Config) {ps : Cron} (hps : strict → Near (env.clock t₀) ps) (h : Punctual env strict old t₀ a) :
    Clocked env strict old t₀ (reaperTick cfg ps) a fun _ a' => Punctual env strict old t₀ a' := by
  refine (clocked_timeless .isLeader trivial).bind ?_
  rintro leads a rfl
  cases leads with
  | false => exact h
  | true =>
    show Clocked env strict old t₀ (reapOnce cfg ps) a _
    refine clocked_now.bind ?_
    rintro now _ ⟨rfl, hn⟩
    refine (clocked_timeless .listCached trivial).bind ?_
    rintro cached _ rfl
    refine Meets.bind (Q := fun _ => Punctual env strict old t₀) ?_ fun _ a₁ h₁ => ?_
    · refine meets_forM _ (Punctual env strict old t₀) _ _ (fun p a _ ha => ?_) (h.pass hn)
      exact (clocked_putWorker p.2).bind fun _ _ he => he ▸ ha
    · refine Meets.bind (Q := fun _ => Punctual env strict old t₀) ?_ fun _ a₂ h₂ => ?_
      · refine meets_forM _ (Punctual env strict old t₀) _ _ (fun id a _ ha => ?_) h₁
        refine (clocked_timeless .listLeases trivial).bind ?_
        rintro ls a rfl
        exact clocked_requeueLeases hps _ _ ha
      · refine (clocked_timeless .listLeases trivial).bind ?_
        rintro ls _ rfl
        exact clocked_requeueLeases hps _ _ h₂

/-! ## Workers -/

theorem Punctual.mint (h : Punctual env strict old t₀ a) : Punctual env strict old t₀ a.mint :=
  h.less rfl (le_refl _) (le_refl _) subset_rfl fun _ t ht => ⟨t, ht, le_refl t⟩

theorem clocked_registerWorker (cfg : Config) (worker : Option WorkerInfo) (h : Punctual env strict old t₀ a) :
    Clocked env strict old t₀ (registerWorker cfg worker) a fun _ a' => Punctual env strict old t₀ a' := by
  refine (clocked_requireLeader cfg).bind ?_
  rintro denied a rfl
  cases denied with
  | some e => exact h
  | none =>
    cases worker with
    | none => exact h
    | some w =>
      have hid : Clocked env strict old t₀ (workerIDFor w) a fun _ a' => Punctual env strict old t₀ a' := by
        unfold workerIDFor
        split
        · exact ⟨trivial, fun _ _ => h.mint⟩
        · exact h
      refine hid.bind fun id a₁ h₁ => ?_
      refine clocked_now.bind ?_
      rintro now _ ⟨rfl, hn⟩
      refine (clocked_putWorker _).bind ?_
      rintro r _ rfl
      cases r with
      | error e => exact h₁.pass hn
      | ok _ => exact h₁.pass hn

theorem clocked_heartbeat (cfg : Config) (w : String) (n : Nat) (h : Punctual env strict old t₀ a) :
    Clocked env strict old t₀ (heartbeat cfg w n) a fun _ a' => Punctual env strict old t₀ a' := by
  refine (clocked_requireLeader cfg).bind ?_
  rintro denied a rfl
  cases denied with
  | some e => exact h
  | none =>
    refine (clocked_timeless (.getCached w) trivial).bind ?_
    rintro cached a rfl
    cases cached with
    | none => exact h
    | some cur =>
      refine clocked_now.bind ?_
      rintro now _ ⟨rfl, hn⟩
      refine (clocked_putWorker _).bind ?_
      rintro r _ rfl
      cases r with
      | error e => exact h.pass hn
      | ok _ => exact h.pass hn

/-! ## Jobs -/

theorem clocked_acceptJob {ps : Cron} (hps : strict → Near (env.clock t₀) ps) (h : Punctual env strict old t₀ a)
    (hx : a.jobs job.id = none)
    (hsched : strict → ∀ t, job.scheduledAt = some t → t ≤ a.now)
    (hnear : ∀ t, runAt job = some t → t ≤ a.now + maxDuration) :
    Clocked env strict old t₀ (acceptJob ps job) a fun _ a' => Punctual env strict old t₀ a' := by
  have hcycle : Clocked env strict old t₀ (formsCycle job) a fun _ a' => a' = a := by
    unfold formsCycle
    split
    · refine (clocked_timeless .listJobs trivial).bind ?_
      rintro r a rfl
      cases r with
      | error e => exact rfl
      | ok jobs => exact rfl
    · exact rfl
  refine hcycle.bind ?_
  rintro cyclic a rfl
  cases cyclic with
  | true => exact h
  | false =>
    refine clocked_now.bind ?_
    rintro now _ ⟨rfl, hn⟩
    have hplace : Clocked env strict old t₀ (placeNewJob ps { job with
        attempt := 0, assignedWorkerId := "", lastError := "", createdAt := some now.ns, updatedAt := some now.ns }
        (.utc now.ns)) (a.pass now.ns) fun _ a' => Punctual env strict old t₀ a' := by
      refine clocked_placeNewJob hps _ (h.pass hn) hx rfl (h.later.trans hn) (le_refl _)
        (fun hst t ht => (hsched hst t ht).trans hn) ?_
      intro t ht
      have := hnear t ht
      show t ≤ now.ns + maxDuration
      omega
    exact hplace.bind fun _ _ h => h

/-- A submission to a place that is vacant, with a fire time that has passed if `strict`, and a run time for which a
timer can be set. -/
theorem clocked_submitJob (cfg : Config) {ps : Cron} (hps : strict → Near (env.clock t₀) ps) (req : Option Job)
    (h : Punctual env strict old t₀ a)
    (hreq : ∀ job, req = some job → a.jobs (submitID env a.minted job) = none ∧
      (strict → ∀ t, job.scheduledAt = some t → t ≤ a.now) ∧ ∀ t, runAt job = some t → t ≤ a.now + maxDuration) :
    Clocked env strict old t₀ (submitJob cfg ps req) a fun _ a' => Punctual env strict old t₀ a' := by
  have hassign : ∀ (a : Agenda) (job : Job), Punctual env strict old t₀ a →
      a.jobs (submitID env a.minted job) = none → (strict → ∀ t, job.scheduledAt = some t → t ≤ a.now) →
      (∀ t, runAt job = some t → t ≤ a.now + maxDuration) →
      Clocked env strict old t₀ (assignID job >>= acceptJob ps) a fun _ a' => Punctual env strict old t₀ a' := by
    intro a job h hx hsched hnear
    unfold submitID at hx
    unfold assignID
    split
    · rename_i hid
      rw [if_pos hid] at hx
      have hnew : Clocked env strict old t₀ (newID "job") a fun id a' =>
          a' = a.mint ∧ id = "job" ++ "-" ++ env.uuid a.minted := ⟨trivial, fun _ he => ⟨rfl, he⟩⟩
      have hnamed : Clocked env strict old t₀ (do let id ← newID "job"; pure { job with id := id }) a fun j a' =>
          a' = a.mint ∧ j = { job with id := "job" ++ "-" ++ env.uuid a.minted } := by
        refine hnew.bind ?_
        rintro _ _ ⟨rfl, rfl⟩
        exact ⟨rfl, rfl⟩
      refine hnamed.bind ?_
      rintro _ _ ⟨rfl, rfl⟩
      exact clocked_acceptJob hps h.mint hx hsched hnear
    · rename_i hid
      rw [if_neg hid] at hx
      exact clocked_acceptJob hps h hx hsched hnear
  refine (clocked_requireLeader cfg).bind ?_
  rintro denied a rfl
  cases denied with
  | some e => exact h
  | none =>
    cases req with
    | none => exact h
    | some job =>
      obtain ⟨hx, hsched, hnear⟩ := hreq job rfl
      show Clocked env strict old t₀ (if job.command = "" then _ else if job.cronExpr = "" then _ else _) a _
      split
      · exact h
      · split
        · exact hassign a job h hx hsched hnear
        · refine clocked_now.bind ?_
          rintro now _ ⟨rfl, hn⟩
          split
          · exact h.pass hn
          · refine hassign _ job (h.pass hn) hx (fun hst t ht => (hsched hst t ht).trans hn) fun t ht => ?_
            have := hnear t ht
            show t ≤ now.ns + maxDuration
            omega

theorem clocked_cancelJob (cfg : Config) (x : String) (h : Punctual env strict old t₀ a) :
    Clocked env strict old t₀ (cancelJob cfg x) a fun _ a' => Punctual env strict old t₀ a' := by
  have hload : Clocked env strict old t₀ (loadJob x) a fun _ a' => a' = a := by
    unfold loadJob
    split
    · exact rfl
    · refine (clocked_getJob x).bind ?_
      rintro r a ⟨rfl, rfl⟩
      cases a.jobs x with
      | none => exact rfl
      | some j => exact rfl
  refine (clocked_requireLeader cfg).bind ?_
  rintro denied a rfl
  cases denied with
  | some e => exact h
  | none =>
    refine hload.bind ?_
    rintro r a rfl
    cases r with
    | error e => exact h
    | ok job =>
      show Clocked env strict old t₀ (if job.state = .canceled then _ else if _ then _ else _) a _
      split
      · exact h
      · split
        · exact h
        · refine clocked_now.bind ?_
          rintro now _ ⟨rfl, hn⟩
          have hput := (h.pass hn).finish (j := { job with state := .canceled, updatedAt := some now.ns }) rfl
          refine (clocked_putJob hput).bind ?_
          rintro _ _ ⟨rfl, rfl⟩
          refine Meets.bind (Q := fun _ => Punctual env strict old t₀) ⟨trivial, fun _ _ => hput.unready job.id⟩ ?_
          intro _ a₁ h₁
          exact (clocked_cancelCascade (S := Set.univ) _ h₁).bind fun _ _ h₂ => h₂.punctual

/-- A timer that is not early. -/
theorem clocked_timerFired (h : Punctual env strict old t₀ a) (ht : ∃ t, a.due x = some t ∧ t ≤ a.now) :
    Clocked env strict old t₀ (timerFired x) a fun _ a' => Punctual env strict old t₀ a' := by
  obtain ⟨t, hdue, hle⟩ := ht
  have hdel : Clocked env strict old t₀ (act (.deleteTimer x)) a fun _ a' => a' = a.unarm x :=
    ⟨trivial, fun _ _ => rfl⟩
  refine hdel.bind ?_
  rintro _ _ rfl
  refine (clocked_enqueueJob (S := Set.univ) (h.unarm x) (fun j hj hs => ⟨fun u hu => ?_, Function.update_self ..⟩)
    (Set.mem_univ _)).mono fun _ _ h => h.punctual
  obtain ⟨j', hj', hfin | ⟨-, hb⟩⟩ := h.armed x t hdue
  · cases hj.symm.trans hj'
    rw [hs] at hfin
    cases hfin
  · cases hj.symm.trans hj'
    exact (hb u hu).trans hle

/-! ## Recovery -/

/-- What a rebuild relies on for a listed job it has not come to yet. A cascade may have canceled the job since. -/
structure Unvisited (strict : Prop) (old : Table) (a : Agenda) (j : Job) : Prop where
  idle : a.Idle j.id
  stored : a.jobs j.id = some j ∨ a.Canceled j.id
  running : j.state = .running → Ended strict old a j

theorem Unvisited.leaves (h : Unvisited strict old a j) (hl : Leaves S a a') (hj : j.id ∉ S) :
    Unvisited strict old a' j := by
  have hidle : a'.Idle j.id := ⟨fun hr => h.idle.1 (hl.ready _ hj hr), (hl.due _ hj).trans h.idle.2⟩
  refine ⟨hidle, ?_, fun hs => ?_⟩
  · rcases hl.kept _ hj with ⟨hsame, -⟩ | hd
    · refine h.stored.imp hsame.trans ?_
      rintro ⟨j', hj', ht⟩
      exact ⟨j', hsame.trans hj', ht⟩
    · exact .inr hd
  · exact ⟨hidle, (h.running hs).superseded.mono hl.now, fun t ht => ((h.running hs).ran t ht).trans hl.now⟩

/-- At instant `n` the stored fire time of the job has passed. -/
def Due (n : Int) (j : Job) : Prop := ∀ t, j.scheduledAt = some t → t ≤ n

theorem Due.overdue {n : Int} (h : Due n j) (hn : n ≤ a.now) (hs : Sane env strict a.now j) (hq : j.state = .queued) :
    Overdue strict a.now j := by
  intro t ht
  rcases hs.queued hq t ht with hle | ⟨-, u, hu, hle⟩
  · exact hle
  · exact hle.trans ((h u hu).trans hn)

theorem asTime_le_iff {o : Option Int} {n : Int} : o.isNone ∨ asTime o ≤ n ↔ ∀ t, o = some t → t ≤ n := by
  cases o with
  | none => simp
  | some t => simp [asTime]

theorem clocked_rebuildJob {ps : Cron} (hps : strict → Near (env.clock t₀) ps) {now : Time}
    (h : Punctual env strict old t₀ a) (hj : Unvisited strict old a j)
    (h₀ : env.clock t₀ ≤ now.ns) (hn : now.ns ≤ a.now) :
    Clocked env strict old t₀ (rebuildJob ps now j) a fun _ a' => Arranges env strict old t₀ {j.id} a a' ∧
      (j.state = .queued → Due now.ns j → j.id ∈ a'.ready) := by
  have hreindex : Clocked env strict old t₀ (reindex j) a fun _ a' => a' = a := by
    unfold reindex
    split
    · exact rfl
    · exact clocked_timeless (.addDeps j) trivial
  refine hreindex.bind ?_
  rintro _ a rfl
  cases hs : j.state with
  | queued =>
    show Clocked env strict old t₀ (if _ then _ else _) a _
    split
    · rename_i hdue
      have hdue : Due now.ns j := asTime_le_iff.1 hdue
      have hripe : a.Ripe strict j.id := by
        rcases hj.stored with hst | hc
        · exact ⟨j, hst, .inr ⟨hs, hdue.overdue hn (h.stored _ _ hst).2 hs, hj.idle.2⟩⟩
        · obtain ⟨j', hj', ht⟩ := hc.done
          exact ⟨j', hj', .inl ht⟩
      have hpush := h.push hripe
      exact ⟨hpush, fun _ _ => ⟨⟨hpush, .push rfl⟩, fun _ _ => .inl rfl⟩⟩
    · rename_i hdue
      have hlate : ¬ Due now.ns j := fun hd => hdue (asTime_le_iff.2 hd)
      refine (clocked_armEnqueue h ?_ hj.idle (Set.mem_singleton _)).mono fun _ _ h' => ⟨h', fun _ hd => absurd hd hlate⟩
      rcases hj.stored with hst | hc
      · refine ⟨j, hst, .inr ⟨hs, fun t ht => ?_⟩⟩
        rcases (h.stored _ _ hst).2.queued hs t ht with hle | ⟨hnear, u, hu, hle⟩
        · omega
        · rw [hu]
          show t ≤ a.now + max (durationTo u now.ns) 0
          have := le_add_durationTo hn hle hnear
          omega
      · obtain ⟨j', hj', ht⟩ := hc.done
        exact ⟨j', hj', .inl ht⟩
  | running =>
    exact (clocked_handleFailure hps _ now h (hj.running hs) h₀ hn (Set.mem_singleton _)).bind
      fun _ _ h' => ⟨h', nofun⟩
  | _ => exact ⟨.refl h, nofun⟩

/-- What a rebuild has achieved for the jobs it has been through. -/
def Requeued (n : Int) (l : List Job) (a : Agenda) : Prop :=
  ∀ j ∈ l, j.state = .queued → Due n j → j.id ∈ a.ready ∨ a.Canceled j.id

theorem Requeued.leaves {n : Int} {l : List Job} (h : Requeued n l a) (hl : Leaves S a a')
    (hS : ∀ j ∈ l, j.state = .queued → j.id ∉ S) : Requeued n l a' := by
  intro j hj hs hd
  rcases hl.kept j.id (hS j hj hs) with ⟨hsame, hr⟩ | hdone
  · refine (h j hj hs hd).imp hr ?_
    rintro ⟨j', hj', ht⟩
    exact ⟨j', hsame.trans hj', ht⟩
  · exact .inr hdone

/-- The agenda after the first pass of a rebuild has been through `d`. -/
structure FirstPass (env : Env) (strict : Prop) (old : Table) (t₀ : Nat) (now : Int) (l d : List Job) (a : Agenda) :
    Prop where
  punctual : Punctual env strict old t₀ a
  passed : now ≤ a.now
  unvisited : ∀ j ∈ l, j ∉ d → Unvisited strict old a j
  requeued : Requeued now d a

theorem clocked_firstPass {ps : Cron} (hps : strict → Near (env.clock t₀) ps) {now : Time} {l : List Job}
    (hl : (l.map Job.id).Nodup)
    (h₀ : env.clock t₀ ≤ now.ns) (h : FirstPass env strict old t₀ now.ns l [] a) :
    Clocked env strict old t₀ (l.forM (rebuildJob ps now)) a fun _ a' => FirstPass env strict old t₀ now.ns l l a' := by
  refine Meets.forM (FirstPass env strict old t₀ now.ns l) (fun d j r a hsplit h => ?_) h
  have hnodup : (d ++ j :: r).Nodup := hsplit ▸ hl.of_map Job.id
  have hjl : j ∈ l := by rw [hsplit]; simp
  have hjd : j ∉ d := fun hj => (List.nodup_append.1 hnodup).2.2 j hj j (by simp) rfl
  have hne : ∀ j' ∈ l, j' ≠ j → j'.id ∉ ({j.id} : Set String) := fun j' hj' hne he =>
    hne (List.inj_on_of_nodup_map hl hj' hjl he)
  refine (clocked_rebuildJob hps h.punctual (h.unvisited j hjl hjd) h₀ h.passed).mono ?_
  rintro _ a' ⟨h', hready⟩
  refine ⟨h'.punctual, h.passed.trans h'.leaves.now, fun j' hj' hnot => ?_, fun j' hj' hs hd => ?_⟩
  · rw [List.mem_append, List.mem_singleton, not_or] at hnot
    exact (h.unvisited j' hj' hnot.1).leaves h'.leaves (hne j' hj' hnot.2)
  · rcases List.mem_append.1 hj' with hj' | hj'
    · refine h.requeued.leaves h'.leaves (fun i hi _ => hne i ?_ ?_) j' hj' hs hd
      · rw [hsplit]
        exact List.mem_append_left _ hi
      · rintro rfl
        exact hjd hi
    · obtain rfl := List.mem_singleton.1 hj'
      exact .inl (hready hs hd)

/-- A rebuild puts every QUEUED job whose stored fire time has passed into the queue, unless it cancels the job. -/
theorem clocked_rebuildSchedulingState {ps : Cron} (hps : strict → Near (env.clock t₀) ps) (h : Punctual env strict old t₀ a) :
    Clocked env strict old t₀ (rebuildSchedulingState ps) a fun _ a' => Punctual env strict old t₀ a' ∧
      ∀ j, a.jobs j.id = some j → j.state = .queued → Due a.now j → j.id ∈ a'.ready ∨ a'.Canceled j.id := by
  have hclear : Clocked env strict old t₀ clearSchedulingState a fun _ a' => a' = a.clearQueue.clearTimers :=
    ⟨trivial, fun _ _ => ⟨trivial, fun _ _ => ⟨trivial, fun _ _ => rfl⟩⟩⟩
  have hempty : Punctual env strict old t₀ a.clearQueue.clearTimers :=
    h.less rfl (le_refl _) (le_refl _) (Set.empty_subset _) fun _ _ ht => absurd ht (Option.some_ne_none _).symm
  have hlist : Clocked env strict old t₀ Db.listJobs a.clearQueue.clearTimers fun r a' => a' = a.clearQueue.clearTimers ∧
      ∃ l, r = .ok l ∧ (l.map Job.id).Nodup ∧ ∀ j, j ∈ l ↔ a.jobs j.id = some j := ⟨trivial, fun _ hr => ⟨rfl, hr⟩⟩
  refine hclear.bind ?_
  rintro _ _ rfl
  refine hlist.bind ?_
  rintro _ _ ⟨rfl, l, rfl, hnodup, hl⟩
  refine clocked_now.bind ?_
  rintro now _ ⟨rfl, hn⟩
  have hstart : FirstPass env strict old t₀ now.ns l [] (a.clearQueue.clearTimers.pass now.ns) := by
    refine ⟨hempty.pass hn, le_refl _, fun j hj _ => ⟨⟨id, rfl⟩, .inl ((hl j).1 hj), fun hs => ?_⟩,
      fun _ hj => absurd hj List.not_mem_nil⟩
    exact (hempty.ended ((hl j).1 hj) hs).pass hn
  refine (clocked_firstPass hps hnodup (h.later.trans hn) hstart).bind fun _ a₁ h₁ => ?_
  refine (meets_forM (fun j : Job => tryPromote ps j.id)
    (fun a => Punctual env strict old t₀ a ∧ Requeued now.ns l a) _ a₁ (fun j a₂ hj h₂ => ?_)
    ⟨h₁.punctual, h₁.requeued⟩).mono ?_
  · -- the second pass leaves the QUEUED jobs alone
    obtain ⟨hjl, hpend⟩ := List.mem_filter.1 hj
    refine (clocked_tryPromote hps h₂.1 (Set.mem_singleton j.id)).mono fun _ a₃ h₃ => ⟨h₃.punctual, ?_⟩
    refine h₂.2.leaves h₃.leaves fun i hi hs he => ?_
    obtain rfl := List.inj_on_of_nodup_map hnodup hi hjl he
    rw [hs] at hpend
    cases hpend
  · rintro _ a' ⟨hp, hreq⟩
    refine ⟨hp, fun j hj hs hd => hreq j ((hl j).2 hj) hs fun t ht => (hd t ht).trans hn⟩

theorem clocked_onBecomeLeader {ps : Cron} (hps : strict → Near (env.clock t₀) ps) (h : Punctual env strict old t₀ a) :
    Clocked env strict old t₀ (onBecomeLeader ps) a fun _ a' => Punctual env strict old t₀ a' := by
  refine (clocked_rebuildSchedulingState hps h).bind fun _ a₁ h₁ => ?_
  refine (clocked_timeless .listJobs trivial).bind ?_
  rintro jobs a₁ rfl
  refine (clocked_timeless .listWorkers trivial).bind ?_
  rintro workers a₁ rfl
  exact (clocked_timeless (.installLog _ _) trivial).mono fun _ _ he => he ▸ h₁.1

theorem clocked_boot {ps : Cron} (hps : strict → Near (env.clock t₀) ps) (node : Cluster.Node) (h : Punctual env strict old t₀ a) :
    Clocked env strict old t₀ (boot ps node) a fun _ a' => Punctual env strict old t₀ a' := by
  have hrecover : Clocked env strict old t₀ recover a fun _ a' => Punctual env strict old t₀ a' := by
    refine (clocked_timeless .listWorkers trivial).bind ?_
    rintro r a rfl
    cases r with
    | error e => exact h
    | ok ws =>
      refine Meets.bind (meets_forM _ (Punctual env strict old t₀) ws a (fun w a _ ha => ?_) h) fun _ _ h => h
      exact (clocked_timeless (.cacheWorker w) trivial).mono fun _ _ he => he ▸ ha
  refine hrecover.bind fun r a₁ h₁ => ?_
  cases r with
  | error e => exact h₁
  | ok _ =>
    refine (clocked_timeless (.gainLead node) trivial).bind ?_
    rintro _ a₁ rfl
    exact clocked_onBecomeLeader hps h₁

end Distsched.Timing
