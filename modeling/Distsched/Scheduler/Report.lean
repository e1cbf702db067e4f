/-
`ReportTask` when the store fails. The lease is to be removed only after the change of state is stored, so that a worker
that gets an error can report again. A failed attempt is handled in that order. A successful one is not: the lease is
removed first, and if the write fails after that, the next report of the worker is taken for a duplicate.

An error never leaves the stored record changed. It leaves the lease in place exactly if it is not the write of a SUCCEEDED
record that failed.
-/
import Distsched.Scheduler.Run
import Distsched.Scheduler.Silent

namespace Distsched.Scheduler

open Prog

variable {env : Env} {ps : Cron}

/-- The stored jobs and the leases are as they were. -/
structure Untouched (s s' : Server) : Prop where
  jobs : s'.store.jobs = s.store.jobs
  leases : s'.leases = s.leases

theorem Untouched.refl (s : Server) : Untouched s s := ⟨rfl, rfl⟩

theorem Untouched.trans {s s' s'' : Server} (h : Untouched s s') (h' : Untouched s' s'') : Untouched s s'' :=
  ⟨h'.jobs.trans h.jobs, h'.leases.trans h.leases⟩

/-- A write that fails has done nothing. -/
theorem putJob_fails (j : Job) (s : Server) :
    Sat (handle env) (putJob j) s fun r s' => ∀ e, r = .error e → Untouched s s' := by
  refine (putJob_writes j s).mono fun r s' h e hr => ?_
  cases h with
  | failed => exact ⟨rfl, rfl⟩
  | stored => cases hr

/-- A job that was not re-armed is stored as it was. -/
theorem maybeRescheduleCron_declines (job : Job) (now : Time) (s : Server) :
    Sat (handle env) (maybeRescheduleCron ps job now) s fun r s' => r.1 = false → Untouched s s' := by
  unfold maybeRescheduleCron
  split
  · exact fun _ => .refl s
  · split
    · exact fun _ => .refl s
    · refine (putJob_fails _ s).bind fun r s₁ h₁ => ?_
      cases r with
      | error e => exact fun _ => h₁ e rfl
      | ok u =>
        refine Sat.bind (Q := fun _ _ => True) trivial fun _ _ _ => ?_
        exact Sat.bind (Q := fun _ _ => True) trivial fun _ _ _ => nofun

/-- A failed attempt that could not be recorded has changed neither the stored jobs nor the leases. -/
theorem handleFailure_fails (job : Job) (errMsg : String) (now : Time) (s : Server) :
    Sat (handle env) (handleFailure ps job errMsg now) s fun r s' => ∀ e, r = .error e → Untouched s s' := by
  unfold handleFailure
  dsimp only
  split
  · refine Sat.bind (Q := fun _ s₁ => Untouched s s₁) ⟨rfl, rfl⟩ fun draw s₁ h₁ => ?_
    refine (putJob_fails _ s₁).bind fun r s₂ h₂ => ?_
    cases r with
    | error e => exact fun _ _ => h₁.trans (h₂ e rfl)
    | ok u => exact Sat.bind (Q := fun _ _ => True) trivial fun _ _ _ => nofun
  · refine (maybeRescheduleCron_declines _ now s).bind ?_
    rintro ⟨rescheduled, job'⟩ s₁ h₁
    cases rescheduled with
    | true => exact nofun
    | false =>
      have h₁ := h₁ rfl
      have hput : Sat (handle env) (Db.putDeadLetter { job' with state := .failed, finishedAt := some now.ns }) s₁
          fun _ s₂ => Untouched s₁ s₂ := by
        unfold Sat
        simp only [Db.putDeadLetter, act, exec_perform, handle, Server.write]
        split <;> exact ⟨rfl, rfl⟩
      refine hput.bind fun r s₂ h₂ => ?_
      cases r with
      | error e => exact fun _ _ => h₁.trans h₂
      | ok u =>
        refine (putJob_fails _ s₂).bind fun r s₃ h₃ => ?_
        cases r with
        | error e => exact fun _ _ => h₁.trans (h₂.trans (h₃ e rfl))
        | ok u =>
          refine Sat.bind (Q := fun _ _ => True) trivial fun _ _ _ => ?_
          exact Sat.bind (Q := fun _ _ => True) trivial fun _ _ _ => nofun

/-! ## The write of the SUCCEEDED record -/

/-- The write of a SUCCEEDED record fails. -/
def SuccessLost (env : Env) (e : Op × Server) : Prop :=
  ∃ j, e.1 = .putJob j ∧ j.state = .succeeded ∧ env.fails e.2.tick ≠ none

theorem not_successLost_of_moves {op : Op} (h : Moves op) (s : Server) : ¬ SuccessLost env (op, s) := by
  rintro ⟨j, rfl, hj, -⟩
  exact h.2 hj

abbrev SuccessWatch {α : Type} (env : Env) (d : Prop) (p : M α) (s : Server) (Q : α → Prop → Server → Prop) : Prop :=
  Watch (handle env) (SuccessLost env) d p s Q

section Watch

variable {d : Prop}

/-- What moves jobs writes no SUCCEEDED record, and leaves the leases alone. -/
theorem successWatch_moves {α : Type} {p : M α} {s : Server} {Q : α → Server → Prop} (hp : Uses Moves p)
    (h : Sat (handle env) p s Q) : SuccessWatch env d p s fun a d' s' => d' = d ∧ s'.leases = s.leases ∧ Q a s' := by
  have hleases : Sat (handle env) p s fun _ s' => s'.leases = s.leases :=
    Uses.keeps (I := fun s' : Server => s'.leases = s.leases) (fun _ _ hop hs => (leases_of_moves hop).trans hs) hp rfl
  have hboth : Sat (handle env) p s fun a s' => s'.leases = s.leases ∧ Q a s' := ⟨hleases, h⟩
  exact hboth.watch fun e he => not_successLost_of_moves (hp.trace e he) e.2

theorem successWatch_putSuccess {j : Job} (hj : j.state = .succeeded) (s : Server) :
    SuccessWatch env d (putJob j) s fun r d' s' => d' = (d ∨ ∃ e, r = .error e) ∧ s'.leases = s.leases ∧
      ∀ e, r = .error e → s'.store.jobs = s.store.jobs := by
  have hlog : ∀ m s, ¬ SuccessLost env (.appendLog m, s) := fun _ => not_successLost_of_moves trivial
  refine (watch_putJob (not_successLost_of_moves trivial) hlog j s).mono ?_
  rintro r _ s' ⟨rfl, h⟩
  cases h with
  | failed he =>
    have hlost : SuccessLost env (.putJob j, s) := ⟨j, rfl, hj, he ▸ Option.some_ne_none _⟩
    exact ⟨by simp [hlost], rfl, fun _ _ => rfl⟩
  | stored he hs =>
    have hkept : ¬ SuccessLost env (.putJob j, s) := fun ⟨_, _, _, hfail⟩ => hfail he
    exact ⟨by simp [hkept], by rw [hs], nofun⟩

theorem successWatch_removeLease (τ : String) (s : Server) : SuccessWatch env d (removeLease τ) s fun _ d' s' =>
    d' = d ∧ s'.leases[τ]? = none ∧ s'.store.jobs = s.store.jobs :=
  watch_unseen (fun ⟨_, h, _⟩ => Op.noConfusion h) ⟨rfl, Std.ExtTreeMap.getElem?_erase_self, rfl⟩

/-- The lease of a success is gone, and an error means that the write of the SUCCEEDED record has failed. -/
theorem successWatch_reportSuccess (τ : String) (job : Job) (now : Time) (s : Server) :
    SuccessWatch env d (reportSuccess ps τ job now) s fun r d' s' => d' = (d ∨ ∃ e, r = .error e) ∧ s'.leases[τ]? = none ∧
      ∀ e, r = .error e → s'.store.jobs = s.store.jobs := by
  refine (successWatch_removeLease τ s).bind ?_
  rintro _ _ s₁ ⟨rfl, hl₁, hj₁⟩
  refine (successWatch_moves (moves_maybeRescheduleCron ps job now) (maybeRescheduleCron_declines job now s₁)).bind ?_
  rintro ⟨rescheduled, job'⟩ _ s₂ ⟨rfl, hl₂, h₂⟩
  have hgone₂ : s₂.leases[τ]? = none := by rw [hl₂, hl₁]
  cases rescheduled with
  | true => exact watch_pure ⟨by simp, hgone₂, nofun⟩
  | false =>
    refine (successWatch_putSuccess rfl s₂).bind ?_
    rintro r _ s₃ ⟨rfl, hl₃, h₃⟩
    have hgone₃ : s₃.leases[τ]? = none := by rw [hl₃, hgone₂]
    cases r with
    | error e => exact watch_pure ⟨by simp, hgone₃, fun _ _ => (h₃ e rfl).trans ((h₂ rfl).jobs.trans hj₁)⟩
    | ok u =>
      have hrest : Uses Moves (do
          removeFromIndex job'.id
          promoteDependents ps job'.id
          pure (.ok true : Except Status Bool)) :=
        Uses.bind (Uses.perform trivial) fun _ => Uses.bind (moves_promoteDependents ps _) fun _ => Uses.pure _
      have hok : Sat (handle env) (do
          removeFromIndex job'.id
          promoteDependents ps job'.id
          pure (.ok true : Except Status Bool)) s₃ fun r _ => r = .ok true :=
        Sat.bind (Q := fun _ _ => True) trivial fun _ _ _ => Sat.bind (Q := fun _ _ => True) trivial fun _ _ _ => rfl
      refine (successWatch_moves hrest hok).mono ?_
      rintro r _ s₄ ⟨rfl, hl₄, rfl⟩
      exact ⟨by simp, by rw [hl₄, hgone₃], nofun⟩

theorem requireLeader_untouched (cfg : Config) (s : Server) :
    Sat (handle env) (requireLeader cfg) s fun _ s' => Untouched s s' := by
  refine (requireLeader_frame cfg s).mono ?_
  rintro _ _ ⟨_, rfl⟩
  exact ⟨rfl, rfl⟩

/-- How a report can end that returns an error. -/
structure Errs (τ : String) (s : Server) (r : Except Status Bool) (lost : Prop) (s' : Server) : Prop where
  gone : lost → (∃ e, r = .error e) ∧ s'.leases[τ]? = none
  kept : ¬ lost → ∀ e, r = .error e → s'.leases = s.leases
  jobs : ∀ e, r = .error e → s'.store.jobs = s.store.jobs

theorem Errs.untouched {τ : String} {s s' : Server} {r : Except Status Bool} (h : ∀ e, r = .error e → Untouched s s') :
    Errs τ s r False s' :=
  ⟨False.elim, fun _ e he => (h e he).leases, fun e he => (h e he).jobs⟩

theorem successWatch_reportTask (cfg : Config) (τ : String) (result : TaskResult) (error : String) (s : Server) :
    SuccessWatch env False (reportTask cfg ps τ result error) s (Errs τ s) := by
  have hact : ∀ (op : Op) (s₁ : Server), Moves op → (handle env op s₁).2 = s₁.ticked → Untouched s s₁ →
      SuccessWatch env False (act op) s₁ fun _ d s₂ => d = False ∧ Untouched s s₂ := by
    intro op s₁ hop hs h
    refine watch_unseen (not_successLost_of_moves hop s₁) ⟨rfl, ?_⟩
    rw [hs]
    exact ⟨h.jobs, h.leases⟩
  have hdrop : ∀ s₁, SuccessWatch env False (do removeLease τ; pure (.ok true : Except Status Bool)) s₁ (Errs τ s) := by
    intro s₁
    refine (successWatch_removeLease τ s₁).bind ?_
    rintro _ _ s₂ ⟨rfl, -⟩
    exact watch_pure (.untouched nofun)
  have hlead : SuccessWatch env False (requireLeader cfg) s fun _ d s₁ => d = False ∧ Untouched s s₁ := by
    have huses : Uses (fun op => ∀ s, ¬ SuccessLost env (op, s)) (requireLeader cfg) :=
      uses_requireLeader cfg (not_successLost_of_moves trivial) fun _ ⟨_, h, _⟩ => Op.noConfusion h
    exact (requireLeader_untouched cfg s).watch fun e he => huses.trace e he e.2
  refine hlead.bind ?_
  rintro denied _ s₁ ⟨rfl, h₁⟩
  cases denied with
  | some e => exact watch_pure (.untouched fun _ _ => h₁)
  | none =>
    refine (hact (.getLease τ) s₁ trivial rfl h₁).bind ?_
    rintro held _ s₂ ⟨rfl, h₂⟩
    cases held with
    | none => exact watch_pure (.untouched nofun)
    | some l =>
      refine (hact (.getJob l.jobID) s₂ trivial rfl h₂).bind ?_
      rintro r _ s₃ ⟨rfl, h₃⟩
      cases r with
      | error e => exact hdrop s₃
      | ok job =>
        dsimp only
        split
        · exact hdrop s₃
        · refine (hact .now s₃ trivial rfl h₃).bind ?_
          rintro now _ s₄ ⟨rfl, h₄⟩
          cases result with
          | succeeded =>
            refine (successWatch_reportSuccess τ job now s₄).mono ?_
            rintro r _ s₅ ⟨rfl, hgone, hjobs⟩
            rw [false_or]
            exact ⟨fun he => ⟨he, hgone⟩, fun hno e he => absurd ⟨e, he⟩ hno, fun e he => (hjobs e he).trans h₄.jobs⟩
          | failed =>
            refine (successWatch_moves (moves_handleFailure ps job error now) (handleFailure_fails job error now s₄)).bind ?_
            rintro r _ s₅ ⟨rfl, -, h₅⟩
            cases r with
            | error e => exact watch_pure (.untouched fun _ _ => h₄.trans (h₅ e rfl))
            | ok u => exact hdrop s₅
          | unspecified => exact watch_pure (.untouched fun _ _ => h₄)

end Watch

/-- Whatever store calls fail: a report of a leased task that returns an error leaves its job stored as it was; and it leaves
the lease held, so that the report can be sent again, exactly if no write of a SUCCEEDED record failed in the call. -/
theorem report_error_atomic {cfg : Config} {s : Server} {τ error : String} {result : TaskResult} {l : Lease} {j : Job}
    (hl : s.leases[τ]? = some l) (hj : s.store.jobs.get l.jobID = some j) :
    (∀ e s', exec (handle env) (reportTask cfg ps τ result error) s = (.error e, s') →
      s'.store.jobs.get l.jobID = some j) ∧
    ((∀ e s', exec (handle env) (reportTask cfg ps τ result error) s = (.error e, s') →
      s'.leases[τ]? = some l ∧ s'.store.jobs.get l.jobID = some j) ↔
    ∀ e ∈ trace (handle env) (reportTask cfg ps τ result error) s, ¬ SuccessLost env e) := by
  have hwatch : SuccessWatch env False (reportTask cfg ps τ result error) s (Errs τ s) :=
    successWatch_reportTask cfg τ result error s
  unfold SuccessWatch Watch at hwatch
  rw [false_or] at hwatch
  obtain ⟨hlost, hkept, hjobs⟩ := hwatch
  have hstored : ∀ e s', exec (handle env) (reportTask cfg ps τ result error) s = (.error e, s') →
      s'.store.jobs.get l.jobID = some j := by
    intro e s' h
    rw [h] at hjobs
    rw [hjobs e rfl, hj]
  refine ⟨hstored, fun h x hx hbad => ?_, fun h e s' hrun => ⟨?_, hstored e s' hrun⟩⟩
  · obtain ⟨⟨e, he⟩, hgone⟩ := hlost ⟨x, hx, hbad⟩
    have hheld := (h e _ (Prod.ext he rfl)).1
    rw [hgone] at hheld
    cases hheld
  · rw [hrun] at hkept
    rw [hkept (fun ⟨x, hx, hbad⟩ => h x hx hbad) e rfl, hl]

/-- The store fails at the write of the first report. -/
def flaky : Env := .failing (· = 41)

/-- A worker has been handed a job. -/
def leased : Server :=
  [Call.registerWorker (some { id := "w" }), submitting "a" [], .pollTask "w" 1].foldl (after flaky noCron)
    (started flaky noCron .empty leading)

/-- The answer to a report on the task, and the state after it. -/
def reported (result : TaskResult) (s : Server) : Except Status Bool × Server :=
  exec (handle flaky) (reportTask flaky.cfg noCron "task-" result "") s

/-- The operation writes a SUCCEEDED record. -/
def storesSuccess : Op → Bool
  | .putJob j => j.state == .succeeded
  | _ => false

theorem runs_leased : Runs flaky noCron (fun _ _ => True) (started flaky noCron .empty leading) leased :=
  ((Runs.refl.call trivial rfl).call trivial rfl).call trivial rfl

/-- A failed attempt whose retry cannot be stored keeps its lease. A success that cannot be stored does not. -/
theorem report_error_atomic_failed : ∃ l j e s', leased.leases["task-"]? = some l ∧ leased.store.jobs.get l.jobID = some j ∧
    reported .failed leased = (.error e, s') ∧ s'.store.jobs.get l.jobID = some j ∧ s'.leases["task-"]? = some l ∧
    ∃ x ∈ trace (handle flaky) (reportTask flaky.cfg noCron "task-" .succeeded "") leased, SuccessLost flaky x := by
  have hout : (leased.leases["task-"]?.bind fun l => leased.store.jobs.get l.jobID).isSome = true ∧
      (reported .failed leased).1 = .error ⟨.internal, "persist retry: disk full"⟩ ∧
      (trace (handle flaky) (reportTask flaky.cfg noCron "task-" .failed "") leased).all (fun e => !storesSuccess e.1) = true ∧
      (reported .succeeded leased).1 = .error ⟨.internal, "persist success: disk full"⟩ ∧
      (reported .succeeded leased).2.leases["task-"]? = none := by decide +kernel
  obtain ⟨hleased, hfailed, hwrites, hsuccess, hgone⟩ := hout
  obtain ⟨j, hj⟩ := Option.isSome_iff_exists.1 hleased
  obtain ⟨l, hl, hj⟩ := Option.bind_eq_some_iff.1 hj
  have hrun : reported .failed leased = (.error ⟨.internal, "persist retry: disk full"⟩, (reported .failed leased).2) :=
    Prod.ext hfailed rfl
  have hkept := (report_error_atomic hl hj).2.2 (fun x hx hlost => ?_) _ _ hrun
  · refine ⟨l, j, _, _, hl, hj, hrun, hkept.2, hkept.1, ?_⟩
    by_contra hnone
    have hrun' : reported .succeeded leased =
      (.error ⟨.internal, "persist success: disk full"⟩, (reported .succeeded leased).2) := Prod.ext hsuccess rfl
    have hheld := (report_error_atomic hl hj).2.2 (fun x hx hlost => hnone ⟨x, hx, hlost⟩) _ _ hrun'
    cases hgone.symm.trans hheld.1
  · obtain ⟨j', hop, hs, -⟩ := hlost
    have hno := List.all_eq_true.1 hwrites x hx
    rw [hop] at hno
    simp [storesSuccess, hs] at hno

/-- A success is reported twice. The first report returns an error and has lost the lease, the second is taken for a
duplicate, and the job stays RUNNING. -/
theorem success_swallowed : Runs flaky noCron (fun _ _ => True) (started flaky noCron .empty leading) leased ∧
    (leased.leases["task-"]?.map Lease.jobID = some "a" ∧ (leased.store.jobs.get "a").map Job.state = some .running) ∧
    (reported .succeeded leased).1 = .error ⟨.internal, "persist success: disk full"⟩ ∧
    (reported .succeeded leased).2.leases["task-"]? = none ∧
    (reported .succeeded (reported .succeeded leased).2).1 = .ok true ∧
    ((reported .succeeded (reported .succeeded leased).2).2.store.jobs.get "a").map Job.state = some .running := by
  refine ⟨runs_leased, ?_⟩
  decide +kernel

end Distsched.Scheduler
