/-
No job is stranded: in every run of a leader that started on a store of any content, between two
activities, every QUEUED job is ready or armed, every RUNNING job has a lease, and every PENDING job
has a dependency that has not succeeded.
-/
import Distsched.Lifecycle.Turn

namespace Distsched.Lifecycle

open Scheduler Prog

variable {env : Env}

/-- Between two activities of a leader, started on a store of any content and crashed and restarted any
number of times, no job is stranded. -/
theorem no_stranded_job {ps : Cron} {store : Store} {node : Cluster.Node} {s : Server} {x : String} {j : Job}
    (he : Sound env) (hn : node.isLeader = true) (h : Runs env ps (fun _ _ => True) (started env ps store node) s)
    (hj : s.store.jobs.get x = some j) :
    (j.state = .queued → s.queue.Holds x ∨ x ∈ s.retryTimers) ∧
      (j.state = .running → ∃ (τ : String) (l : Lease), s.leases[τ]? = some l ∧ l.jobID = x) ∧
      (j.state = .pending → ∃ d ∈ j.dependsOn, ∀ jd, s.store.jobs.get d = some jd → jd.state ≠ .succeeded) := by
  obtain ⟨_, hb⟩ := Runs.board he hn (I := Settled) (fun _ hr => hr.settled) (fun _ _ _ _ hb ht => hb.turn ht) h
  refine ⟨hb.armed x j hj, hb.leased x j hj, fun hs => ?_⟩
  have hnot := hb.blocked x j hj hs
  by_contra hall
  push Not at hall
  exact hnot hall

theorem no_stranded_job_polled : ∃ j, polled.store.jobs.get "a" = some j ∧ j.state = .running ∧
    ∃ (τ : String) (l : Lease), polled.leases[τ]? = some l ∧ l.jobID = "a" := by
  have hstate : (polled.store.jobs.get "a").map Job.state = some .running := by decide +kernel
  obtain ⟨j, hj, hs⟩ := Option.map_eq_some_iff.1 hstate
  have hrun : Runs .steady noCron (fun _ _ => True) (started .steady noCron .empty leading) polled :=
    ((Runs.refl.call trivial rfl).call trivial rfl).call trivial rfl
  exact ⟨j, hj, hs, (no_stranded_job steady_sound rfl hrun hj).2.1 hs⟩

end Distsched.Lifecycle
