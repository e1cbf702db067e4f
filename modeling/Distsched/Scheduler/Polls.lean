/-
The loop of `PollTask` has no bound in the source. In the model it has one, which a poll that runs alone never reaches:
each turn takes a job from the ready queue, and only a turn that ends the poll puts one back.
-/
import Distsched.Scheduler.Silent

namespace Distsched.Scheduler

open Prog

variable {env : Env}

/-- The operations that leave the ready queue alone. -/
def OffQueue : Op → Prop
  | .push .. | .pop | .remove _ | .clearQueue => False
  | _ => True

theorem queue_handle (op : Op) (s : Server) (h : OffQueue op) : (handle env op s).2.queue = s.queue := by
  cases op with
  | push | pop | remove | clearQueue => exact h.elim
  | putJob | putDeadLetter | putWorker =>
    simp only [handle, Server.write]
    split <;> rfl
  | _ => rfl

theorem sat_offQueue {α : Type} {p : M α} (hp : Uses OffQueue p) (s : Server) :
    Sat (handle env) p s fun _ s' => s'.queue = s.queue := hp.frame Server.queue queue_handle s

theorem sat_act_offQueue (op : Op) (h : OffQueue op) (s : Server) :
    Sat (handle env) (act op) s fun _ s' => s'.queue = s.queue := queue_handle op s h

theorem putJob_offQueue (j : Job) : Uses OffQueue (putJob j) := uses_putJob trivial trivial fun _ => trivial

/-- Alone, the loop of a poll ends before its bound: each turn takes a job from the queue. -/
theorem exec_pollLoop_succ (cfg : Config) (w : String) (now : Int) (n : Nat) :
    ∀ (fuel : Nat) (out : List TaskAssignment) (s : Server), s.queue.items.length < fuel →
      exec (handle env) (pollLoop cfg w now n (fuel + 1) out) s = exec (handle env) (pollLoop cfg w now n fuel out) s
  | 0, _, _, h => absurd h (Nat.not_lt_zero _)
  | fuel + 1, out, s, h => by
    have hpop : Sat (handle env) Queue.pop s fun r s' => r = none ∨ s'.queue.items.length < fuel := by
      show s.queue.pop.1 = none ∨ s.queue.pop.2.items.length < fuel
      cases hx : s.queue.pop.1 with
      | none => exact .inl rfl
      | some x =>
        have := PriorityQueue.pop_length hx
        exact .inr (by omega)
    rw [pollLoop.eq_def cfg w now n (fuel + 1 + 1), pollLoop.eq_def cfg w now n (fuel + 1)]
    dsimp only
    split
    · refine hpop.exec_congr ?_
      rintro r s₁ h₁
      cases r with
      | none => rfl
      | some x =>
        have h₁ := h₁.resolve_left (Option.some_ne_none x)
        refine (sat_act_offQueue (.getJob x) trivial s₁).exec_congr fun r s₂ h₂ => ?_
        rw [← h₂] at h₁
        cases r with
        | error e => exact exec_pollLoop_succ cfg w now n fuel out s₂ h₁
        | ok job =>
          dsimp only
          split
          · exact exec_pollLoop_succ cfg w now n fuel out s₂ h₁
          · refine (sat_act_offQueue (.newID "task") trivial s₂).exec_congr fun τ s₃ h₃ => ?_
            rw [← h₃] at h₁
            refine (sat_offQueue (putJob_offQueue _) s₃).exec_congr fun r s₄ h₄ => ?_
            rw [← h₄] at h₁
            cases r with
            | error e => rfl
            | ok u =>
              refine (sat_act_offQueue (.addLease _) trivial s₄).exec_congr fun _ s₅ h₅ => ?_
              rw [← h₅] at h₁
              exact exec_pollLoop_succ cfg w now n fuel _ s₅ h₁
    · rfl

/-- No larger bound makes a poll go on. -/
theorem exec_pollLoop_add (cfg : Config) (w : String) (now : Int) (n : Nat) (fuel : Nat) (out : List TaskAssignment)
    (s : Server) (h : s.queue.items.length < fuel) (k : Nat) :
    exec (handle env) (pollLoop cfg w now n (fuel + k) out) s = exec (handle env) (pollLoop cfg w now n fuel out) s := by
  induction k with
  | zero => rfl
  | succ k ih => exact (exec_pollLoop_succ cfg w now n (fuel + k) out s (by omega)).trans ih

end Distsched.Scheduler
