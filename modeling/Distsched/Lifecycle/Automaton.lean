/-
What becomes of one job, seen from outside: an automaton over its state and its attempt number, with the plan of its
submission as a parameter. Every run of a node projects to a path of the automaton for each stored job, whatever store
calls fail and wherever the node crashes, and the plan stays as it was submitted.
-/
import Distsched.Lifecycle.History

namespace Distsched.Lifecycle

open Scheduler

/-- How far a job has come. -/
structure Progress where
  state : JobState
  attempt : Int
  deriving DecidableEq, Repr

def progress (j : Job) : Progress := ⟨j.state, j.attempt⟩

/-- The steps of a job with the plan `p`. Of a cron job whose occurrence ends, the attempt number may be lost. -/
inductive Advance (p : Job) : Progress → Progress → Prop
  | promote {a : Int} : Advance p ⟨.pending, a⟩ ⟨.queued, a⟩
  | dispatch {a : Int} : Advance p ⟨.queued, a⟩ ⟨.running, int32 (a + 1)⟩
  | retry {a : Int} (h : a < Retry.maxAttempts p.retryPolicy) : Advance p ⟨.running, a⟩ ⟨.queued, a⟩
  | rearm {a : Int} (h : p.cronExpr ≠ "") : Advance p ⟨.running, a⟩ ⟨.queued, 0⟩
  | succeed {a b : Int} (h : b = a ∨ p.cronExpr ≠ "") : Advance p ⟨.running, a⟩ ⟨.succeeded, b⟩
  | bury {a b : Int} (ha : Retry.maxAttempts p.retryPolicy ≤ a) (h : b = a ∨ p.cronExpr ≠ "") :
    Advance p ⟨.running, a⟩ ⟨.failed, b⟩
  | cancel {st : JobState} {a : Int} (h : terminal st = false) : Advance p ⟨st, a⟩ ⟨.canceled, a⟩

abbrev Advances (p : Job) : Progress → Progress → Prop := Relation.ReflTransGen (Advance p)

/-- A revision of a record is a step of the automaton. -/
theorem Revision.advance {j₀ j p : Job} (h : Revision j₀ j) (hp : plan j₀ = plan p) :
    Advance p (progress j₀) (progress j) := by
  have hretry := retryPolicy_of_plan hp
  have hcron := cronExpr_of_plan hp
  unfold progress
  cases h with
  | promote h _ hs ha =>
    rw [h, hs, ha]
    exact .promote
  | dispatch workerID now h =>
    rw [h]
    exact .dispatch
  | retry h hlt _ hs ha =>
    rw [h, hs, ha]
    exact .retry (hretry ▸ hlt)
  | rearm h hc _ hs ha =>
    rw [h, hs, ha]
    exact .rearm (hcron ▸ hc)
  | succeed h _ hs ha =>
    rw [h, hs]
    exact .succeed (hcron ▸ ha)
  | bury h hle _ hs ha =>
    rw [h, hs]
    exact .bury (hretry ▸ hle) (hcron ▸ ha)
  | cancel h _ hs ha =>
    rw [hs, ha]
    exact .cancel h

/-- A place in the store, before and after: the job there has gone along the automaton, or has been submitted since and gone
along it from its first record. -/
inductive Follows : Option Job → Option Job → Prop
  | vacant : Follows none none
  | submitted {st : JobState} {j : Job} (hs : st = .pending ∨ st = .queued ∨ st = .canceled)
    (h : Advances (plan j) ⟨st, 0⟩ (progress j)) : Follows none (some j)
  | advanced {j₀ j : Job} (hp : plan j = plan j₀) (h : Advances (plan j₀) (progress j₀) (progress j)) :
    Follows (some j₀) (some j)

theorem Follows.refl : ∀ o : Option Job, Follows o o
  | none => .vacant
  | some _ => .advanced rfl .refl

/-- One more revision of the job. -/
theorem Follows.revise {o : Option Job} {j₀ j : Job} (h : Follows o (some j₀)) (hr : Revision j₀ j) : Follows o (some j) := by
  cases h with
  | submitted hs h =>
    refine .submitted hs ?_
    rw [hr.plan_eq]
    exact h.tail (hr.advance rfl)
  | advanced hp h => exact .advanced (hr.plan_eq.trans hp) (h.tail (hr.advance hp))

theorem Follows.write {T₀ T T' : Table} (h : ∀ x, Follows (T₀ x) (T x)) (hw : Write Vacant T T') (x : String) :
    Follows (T₀ x) (T' x) := by
  cases hw with
  | @revise j₀ j hj hr _ =>
    rw [Function.update_apply]
    split
    · rename_i hx
      subst hx
      exact (hj ▸ h j.id).revise hr
    · exact h x
  | @place j hf ha hs =>
    rw [Function.update_apply]
    split
    · rename_i hx
      subst hx
      -- a place that is vacant now was vacant before
      have hvacant := h j.id
      rw [show T j.id = none from hf] at hvacant
      generalize T₀ j.id = o at hvacant
      cases hvacant
      refine @Follows.submitted j.state j ?_ ?_
      · exact hs.imp_right (Or.rec (.inr ·) fun hq => .inl hq.1)
      · rw [progress, ha]
    · exact h x

theorem Follows.writes {T₀ T : Table} (h : Writes Vacant T₀ T) (x : String) : Follows (T₀ x) (T x) := by
  induction h generalizing x with
  | refl => exact .refl _
  | tail _ hw ih => exact Follows.write ih hw x

/-- From any state of the node to any later one, a stored job stays stored with the plan of its submission, and goes along
the automaton; a job stored in between has gone along it from PENDING, QUEUED or CANCELED with no attempt made. -/
theorem jobs_follow_automaton {env : Env} {ps : Cron} {s₀ s : Server} (h : Runs env ps (SubmitsWhere Vacant env) s₀ s)
    (x : String) : Follows (s₀.store.jobs.get x) (s.store.jobs.get x) :=
  Follows.writes (runs_writes Vacant.unfinished h) x

/-- The job is handed out, reported failed, handed out again and canceled. -/
def wayward : Server :=
  [.pollTask "w" 1, .reportTask "task-" .failed "exit status 1", .timer "a", .pollTask "w" 1, .cancelJob "a"].foldl
    (after .steady noCron) lodged

theorem jobs_follow_automaton_wayward : ∃ j₀ j, lodged.store.jobs.get "a" = some j₀ ∧ progress j₀ = ⟨.queued, 0⟩ ∧
    wayward.store.jobs.get "a" = some j ∧ progress j = ⟨.canceled, 2⟩ ∧
    plan j = plan j₀ ∧ Advances (plan j₀) (progress j₀) (progress j) := by
  have hrun : Runs .steady noCron (SubmitsWhere Vacant .steady) lodged wayward := by
    refine ((((Runs.refl.call ?_ rfl).call ?_ rfl).call ?_ (by decide +kernel)).call ?_ rfl).call ?_ rfl
    all_goals rintro job ⟨⟩
  have hstart : (lodged.store.jobs.get "a").map progress = some ⟨.queued, 0⟩ := by decide +kernel
  have hend : (wayward.store.jobs.get "a").map progress = some ⟨.canceled, 2⟩ := by decide +kernel
  obtain ⟨j₀, hj₀, h₀⟩ := Option.map_eq_some_iff.1 hstart
  obtain ⟨j, hj, h⟩ := Option.map_eq_some_iff.1 hend
  have hfollows := jobs_follow_automaton hrun "a"
  rw [hj₀, hj] at hfollows
  cases hfollows with
  | advanced hp hadv => exact ⟨j₀, j, hj₀, h₀, hj, h, hp, hadv⟩

end Distsched.Lifecycle
