/-
The election node as the leadership callbacks see it. They ask it only whether it leads, so their runs do not depend on
what else changes in it.
-/
import Distsched.Scheduler.Silent

namespace Distsched.Scheduler

open Prog
open Cluster (Node)

/-- Neither changes the node nor asks it who leads. -/
def Aloof : Op → Prop
  | .gainLead _ | .leaderID => False
  | _ => True

theorem aloof_onBecomeLeader (ps : Cron) : Uses Aloof (onBecomeLeader ps) := by
  refine uses_onBecomeLeader (fun op hop => ?_) ps trivial trivial trivial fun _ _ => trivial
  cases op <;> first | exact hop.elim | trivial

section

variable {env : Env} {s : Server} {op : Op}

theorem handle_node (h : Aloof op) {n : Node} (hn : n.isLeader = s.node.isLeader) :
    handle env op { s with node := n } = ((handle env op s).1, { (handle env op s).2 with node := n }) := by
  cases op with
  | gainLead | leaderID => exact h.elim
  | isLeader =>
    show (n.isLeader, _) = (s.node.isLeader, _)
    rw [hn]
    rfl
  | putJob | putDeadLetter | putWorker =>
    simp only [handle, Server.write]
    split <;> rfl
  | _ => rfl

theorem node_handle (h : Aloof op) : (handle env op s).2.node = s.node := by
  cases op with
  | gainLead | leaderID => exact h.elim
  | putJob | putDeadLetter | putWorker =>
    simp only [handle, Server.write]
    split <;> rfl
  | _ => rfl

/-- A run does not depend on what else changes in the node. -/
theorem exec_node {α : Type} : ∀ {p : M α} {s : Server} {n : Node}, Uses Aloof p → n.isLeader = s.node.isLeader →
    exec (handle env) p { s with node := n } =
      ((exec (handle env) p s).1, { (exec (handle env) p s).2 with node := n })
  | .ret _, _, _, _, _ => rfl
  | .call op k, s, n, hp, hn => by
    show exec _ (k (handle env op { s with node := n }).1) (handle env op { s with node := n }).2 = _
    rw [handle_node hp.1 hn]
    refine exec_node (hp.2 _ trivial) ?_
    rw [node_handle hp.1]
    exact hn

theorem sat_node {α : Type} {p : M α} {n : Node} {Q : α → Server → Prop} (hp : Uses Aloof p)
    (hn : n.isLeader = s.node.isLeader) (h : Sat (handle env) p s fun a s' => Q a { s' with node := n }) :
    Sat (handle env) p { s with node := n } Q := by
  unfold Sat
  rw [exec_node hp hn]
  exact h

end

end Distsched.Scheduler
