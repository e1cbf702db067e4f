/-
What the history of the stored jobs guarantees to clients and workers, whatever store calls fail and
whenever the node crashes: work starts only after its dependencies, and what is finished stays
finished, as long as no submission takes the ID of a finished job.
-/
import Distsched.Lifecycle.History

namespace Distsched.Lifecycle

open Scheduler Prog

variable {env : Env} {ps : Cron} {node : Cluster.Node} {s : Server}

/-! ## Gating -/

theorem gated_of_runs (h : Runs env ps (SubmitsWhere Vacant env) (started env ps .empty node) s) : Gated (table s) := by
  have hempty : Gated (table (.off .empty 0 0)) := by
    intro x j hx
    replace hx : Bucket.empty.get x = some j := hx
    rw [Bucket.get_empty] at hx
    cases hx
  exact (hempty.writes (restart_writes Vacant.unfinished node _)).writes (runs_writes Vacant.unfinished h)

/-- The jobs a poll hands out are stored RUNNING after it. -/
theorem polled_running (env : Env) (w : String) (n : Int) (s : Server) : Sat (handle env) (pollTask env.cfg w n) s
    fun r s' => Writes Vacant (table s) (table s') ∧
      ∀ out, r = .ok out → ∀ a ∈ out, ∃ j, table s' a.jobId = some j ∧ j.state = .running := by
  obtain ⟨⟨g', hg', hran⟩, hw⟩ := Meets.exec (honours env Vacant.unfinished) (keeping_pollTask env.cfg w n rfl)
    (faithful_empty (s := s))
  exact ⟨hw, fun out hout a ha => hg'.ran _ (hran out hout a ha)⟩

/-- In every state of a run in which submissions take IDs not yet stored, a job past PENDING (and not
CANCELED) has its dependencies SUCCEEDED; so has every job that a poll in this state hands out. -/
theorem dag_gating (h : Runs env ps (SubmitsWhere Vacant env) (started env ps .empty node) s) :
    (∀ (x : String) (j : Job), s.store.jobs.get x = some j → Released j.state →
      ∀ d ∈ j.dependsOn, ∃ jd, s.store.jobs.get d = some jd ∧ jd.state = .succeeded) ∧
    ∀ (w : String) (n : Int), Sat (handle env) (pollTask env.cfg w n) s fun r s' =>
      ∀ out, r = .ok out → ∀ a ∈ out, ∃ j, s'.store.jobs.get a.jobId = some j ∧ j.state = .running ∧
        ∀ d ∈ j.dependsOn, ∃ jd, s'.store.jobs.get d = some jd ∧ jd.state = .succeeded := by
  have hg := gated_of_runs h
  refine ⟨hg, fun w n => (polled_running env w n s).mono ?_⟩
  rintro r s' ⟨hw, hrun⟩ out hout a ha
  obtain ⟨j, hj, hs⟩ := hrun out hout a ha
  refine ⟨j, hj, hs, (hg.writes hw) _ j hj ?_⟩
  rw [hs]
  trivial

/-- `b` depends on `a`, which a worker completes. -/
def unblocked : Server :=
  [Call.registerWorker (some { id := "w" }),
    .submitJob (some { id := "b", spec := some { command := "true" }, dependsOn := ["a"] }),
    .submitJob (some { id := "a", spec := some { command := "true" } }), .pollTask "w" 1,
    .reportTask "task-" .succeeded ""].foldl (after .steady noCron) (started .steady noCron .empty leading)

theorem dag_gating_unblocked : ∃ j, unblocked.store.jobs.get "b" = some j ∧ j.state = .queued ∧
    ∀ d ∈ j.dependsOn, ∃ jd, unblocked.store.jobs.get d = some jd ∧ jd.state = .succeeded := by
  have hstate : (unblocked.store.jobs.get "b").map Job.state = some .queued := by decide +kernel
  obtain ⟨j, hj, hs⟩ := Option.map_eq_some_iff.1 hstate
  have hrun : Runs .steady noCron (SubmitsWhere Vacant .steady) (started .steady noCron .empty leading) unblocked := by
    refine ((((Runs.refl.call ?_ rfl).call ?_ rfl).call ?_ rfl).call ?_ rfl).call ?_ rfl
    · rintro job ⟨⟩
    · rintro job ⟨⟩
      show _ = none
      decide +kernel
    · rintro job ⟨⟩
      show _ = none
      decide +kernel
    · rintro job ⟨⟩
    · rintro job ⟨⟩
  refine ⟨j, hj, hs, (dag_gating hrun).1 "b" j hj ?_⟩
  rw [hs]
  trivial

/-! ## Finality -/

/-- From any state on, in a run in which no submission takes the ID of a finished job, a finished job
keeps its record. -/
theorem terminal_final {s' : Server} (h : Runs env ps (SubmitsWhere Unfinished env) s s') {x : String} {j : Job}
    (hj : s.store.jobs.get x = some j) (ht : terminal j.state = true) : s'.store.jobs.get x = some j :=
  (runs_writes (fun _ h => h) h).final (fun _ h => h) hj ht

/-- The submission of a job under the ID `a`. -/
def submitA : Call := .submitJob (some { id := "a", spec := some { command := "true" } })

/-- A job is submitted and canceled. -/
def canceled : Server :=
  [submitA, .cancelJob "a"].foldl (after .steady noCron) (started .steady noCron .empty leading)

theorem terminal_final_canceled : ∃ j, canceled.store.jobs.get "a" = some j ∧ j.state = .canceled ∧
    (after .steady noCron canceled (.cancelJob "a")).store.jobs.get "a" = some j := by
  have hstate : (canceled.store.jobs.get "a").map Job.state = some .canceled := by decide +kernel
  obtain ⟨j, hj, hs⟩ := Option.map_eq_some_iff.1 hstate
  have hrun : Runs .steady noCron (SubmitsWhere Unfinished .steady) canceled
      (after .steady noCron canceled (.cancelJob "a")) := by
    refine Runs.refl.call ?_ rfl
    rintro job ⟨⟩
  exact ⟨j, hj, hs, terminal_final hrun hj (by rw [hs]; rfl)⟩

/-- Submitting the canceled job's ID again puts the job back to QUEUED. -/
theorem resubmitted_revives : ∃ s, Runs .steady noCron (fun _ _ => True) (started .steady noCron .empty leading) s ∧
    ∃ j, s.store.jobs.get "a" = some j ∧ terminal j.state = true ∧
      ∃ s', step .steady noCron s (.call submitA) = some s' ∧
        ∃ j', s'.store.jobs.get "a" = some j' ∧ j'.state ≠ j.state := by
  have hstate : (canceled.store.jobs.get "a").map Job.state = some .canceled := by decide +kernel
  have hagain : ((after .steady noCron canceled submitA).store.jobs.get "a").map Job.state = some .queued := by
    decide +kernel
  obtain ⟨j, hj, hs⟩ := Option.map_eq_some_iff.1 hstate
  obtain ⟨j', hj', hs'⟩ := Option.map_eq_some_iff.1 hagain
  have hrun : Runs .steady noCron (fun _ _ => True) (started .steady noCron .empty leading) canceled :=
    (Runs.refl.call trivial rfl).call trivial rfl
  refine ⟨canceled, hrun, j, hj, by rw [hs]; rfl, _, rfl, j', hj', ?_⟩
  rw [hs, hs']
  decide

end Distsched.Lifecycle
