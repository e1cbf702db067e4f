/-
The board a node shows, and what each operation does to it while the node leads, its store works and
the UUIDs it draws are distinct.
-/
import Distsched.Lifecycle.Board
import Distsched.Scheduler.Handlers

namespace Distsched.Lifecycle

open Scheduler Prog

/-- The task ID made from the `n`-th UUID. -/
def taskID (env : Env) (n : Nat) : String := "task" ++ "-" ++ env.uuid n

def view (env : Env) (s : Server) : Board where
  jobs := s.store.jobs.get
  ready := {x | s.queue.Holds x}
  timers := {x | x ∈ s.retryTimers}
  leases τ := s.leases[τ]?
  waits d := {x | RevIndex.Waits s.revIndex d x}
  issued := {τ | ∃ n < s.minted, τ = taskID env n}
  minted := s.minted

/-- The node leads and is open, and its leases are on task IDs it has drawn. -/
structure Serving (env : Env) (s : Server) : Prop where
  leads : s.node.isLeader = true
  opened : s.closed = false
  traced : ∀ τ l, s.leases[τ]? = some l → τ ∈ (view env s).issued

/-- The serving node `s` shows the board `b`. -/
def Shows (env : Env) (b : Board) (s : Server) : Prop := Serving env s ∧ view env s = b

/-- The store works, and no UUID is drawn twice. -/
structure Sound (env : Env) : Prop where
  reliable : env.Reliable
  distinct : Function.Injective env.uuid

/-- What a program does to the board. -/
abbrev DoesOn {α : Type} (env : Env) (p : M α) (b : Board) (Q : α → Board → Prop) : Prop :=
  Does (handle env) (Shows env) p b Q

theorem taskID_injective {env : Env} (hu : Function.Injective env.uuid) : Function.Injective (taskID env) := by
  intro m n h
  exact hu (String.append_right_inj _ |>.1 h)

section Rules

variable {env : Env} {b : Board}

/-- The rule of an operation: what it answers, and the board it leaves. -/
theorem does_act {op : Op} {Q : op.Resp → Board → Prop}
    (h : ∀ s, Serving env s → view env s = b → Serving env (handle env op s).2 ∧
      Q (handle env op s).1 (view env (handle env op s).2)) : DoesOn env (act op) b Q := by
  rintro s ⟨hs, hv⟩
  obtain ⟨h1, h2⟩ := h s hs hv
  exact ⟨_, ⟨h1, rfl⟩, h2⟩

/-- Two descriptions of a run meet in the one board it leaves. -/
theorem DoesOn.and {α : Type} {p : M α} {Q Q' : α → Board → Prop} (h : DoesOn env p b Q) (h' : DoesOn env p b Q') :
    DoesOn env p b fun a b' => Q a b' ∧ Q' a b' := by
  intro s hs
  obtain ⟨b₁, ⟨hs₁, hv₁⟩, hq⟩ := h s hs
  obtain ⟨b₂, ⟨_, hv₂⟩, hq'⟩ := h' s hs
  cases hv₁.symm.trans hv₂
  exact ⟨b₁, ⟨hs₁, hv₁⟩, hq, hq'⟩

/-- The operations that leave the board as it is, whatever they answer. -/
def Silent : Op → Prop
  | .putDeadLetter _ | .putWorker _ | .listWorkers | .getCached _ | .cacheWorker _ | .listCached | .appendLog _
  | .installLog .. | .leaderID | .now | .float64 | .queueBound | .indexBound => True
  | _ => False

theorem does_silent (op : Op) (h : Silent op) : DoesOn env (act op) b fun _ b' => b' = b := by
  refine does_act fun s hs hv => ?_
  subst hv
  cases op <;> first
    | exact h.elim
    | exact ⟨⟨hs.leads, hs.opened, hs.traced⟩, rfl⟩
    | skip
  all_goals
    simp only [handle, Server.write]
    cases env.fails s.tick <;> exact ⟨⟨hs.leads, hs.opened, hs.traced⟩, rfl⟩

theorem does_isLeader : DoesOn env isLeader b fun r b' => r = true ∧ b' = b :=
  does_act fun _ hs hv => ⟨⟨hs.leads, hs.opened, hs.traced⟩, hs.leads, hv⟩

theorem does_isClosed : DoesOn env (act .isClosed) b fun r b' => r = false ∧ b' = b :=
  does_act fun _ hs hv => ⟨⟨hs.leads, hs.opened, hs.traced⟩, hs.opened, hv⟩

theorem does_getJob (he : Sound env) (id : String) : DoesOn env (Db.getJob id) b fun r b' =>
    b' = b ∧ ((r = .error .notFound ∧ b.jobs id = none) ∨ ∃ j, r = .ok j ∧ b.jobs id = some j ∧ j.id = id) := by
  refine does_act fun s hs hv => ⟨⟨hs.leads, hs.opened, hs.traced⟩, hv, ?_⟩
  subst hv
  simp only [handle, he.reliable s.tick]
  cases hj : s.store.jobs.get id with
  | none => exact .inl ⟨rfl, hj⟩
  | some j => exact .inr ⟨j, rfl, hj, Bucket.get_id hj⟩

theorem does_listJobs (he : Sound env) : DoesOn env Db.listJobs b fun r b' =>
    b' = b ∧ ∃ js, r = .ok js ∧ (∀ j ∈ js, b.jobs j.id = some j) ∧
      (∀ x j, b.jobs x = some j → j ∈ js ∧ j.id = x) ∧ (js.map Job.id).Nodup := by
  refine does_act fun s hs hv => ⟨⟨hs.leads, hs.opened, hs.traced⟩, hv, s.store.jobs.list, ?_, ?_, ?_, ?_⟩
  · simp only [handle, he.reliable s.tick]
  · subst hv
    exact fun j hj => Bucket.mem_list.1 hj
  · subst hv
    intro x j hj
    have hid : j.id = x := Bucket.get_id hj
    exact ⟨Bucket.mem_list.2 (hid ▸ hj), hid⟩
  · exact Bucket.list_nodup _

/-- The listing is determined by the jobs stored. -/
theorem does_listJobs_list (he : Sound env) : DoesOn env Db.listJobs b fun r _ =>
    ∀ B : Bucket Job.id, B.get = b.jobs → r = .ok B.list := by
  refine does_act fun s hs hv => ⟨⟨hs.leads, hs.opened, hs.traced⟩, fun B hB => ?_⟩
  subst hv
  obtain rfl : B = s.store.jobs := Bucket.ext_get fun id => congrFun hB id
  simp only [handle, he.reliable s.tick]

theorem does_putDeadLetter (he : Sound env) (j : Job) :
    DoesOn env (Db.putDeadLetter j) b fun r b' => r = .ok () ∧ b' = b := by
  refine does_act fun s hs hv => ?_
  simp only [handle, Server.write, he.reliable s.tick]
  exact ⟨⟨hs.leads, hs.opened, hs.traced⟩, trivial, hv⟩

theorem does_dbPutJob (he : Sound env) (j : Job) :
    DoesOn env (Db.putJob j) b fun r b' => r = .ok () ∧ b' = b.put j := by
  refine does_act fun s hs hv => ?_
  subst hv
  simp only [handle, Server.write, he.reliable s.tick]
  refine ⟨⟨hs.leads, hs.opened, hs.traced⟩, trivial, ?_⟩
  unfold view Board.put
  congr 1
  funext id
  rw [Function.update_apply]
  exact Bucket.get_put ..

theorem does_push (x : String) (p c : Int) : DoesOn env (Queue.push x p c) b fun _ b' => b' = b.push x := by
  refine does_act fun s hs hv => ⟨⟨hs.leads, hs.opened, hs.traced⟩, ?_⟩
  subst hv
  unfold view Board.push
  congr 1
  ext y
  exact PriorityQueue.holds_push ..

theorem does_remove (x : String) : DoesOn env (Queue.remove x) b fun _ b' => b' = b.unready x := by
  refine does_act fun s hs hv => ⟨⟨hs.leads, hs.opened, hs.traced⟩, ?_⟩
  subst hv
  unfold view Board.unready
  congr 1
  ext y
  exact (PriorityQueue.holds_remove ..).trans and_comm

theorem does_pop : DoesOn env Queue.pop b fun r b' =>
    (r = none ∧ b' = b) ∨ ∃ x ∈ b.ready, r = some x ∧ b' = b.unready x := by
  refine does_act fun s hs hv => ⟨⟨hs.leads, hs.opened, hs.traced⟩, ?_⟩
  subst hv
  simp only [handle]
  cases hp : s.queue.pop.1 with
  | none =>
    refine .inl ⟨rfl, ?_⟩
    rw [(PriorityQueue.pop_none hp).1]
    rfl
  | some x =>
    refine .inr ⟨x, ?_, rfl, ?_⟩
    · exact PriorityQueue.holds_of_pop hp
    · unfold view Board.unready
      congr 1
      ext y
      exact (PriorityQueue.holds_pop hp y).trans and_comm

theorem does_addLease {l : Lease} (hl : l.taskID ∈ b.issued) :
    DoesOn env (addLease l) b fun _ b' => b' = b.lease l := by
  refine does_act fun s hs hv => ?_
  subst hv
  have hget : ∀ τ, (s.leases.insert l.taskID l)[τ]? = if τ = l.taskID then some l else s.leases[τ]? := by
    intro τ
    rw [Std.ExtTreeMap.getElem?_insert]
    simp only [compare_keys, eq_comm (a := τ)]
  refine ⟨⟨hs.leads, hs.opened, fun τ l' hl' => ?_⟩, ?_⟩
  · rw [show (handle env (.addLease l) s).2.leases = s.leases.insert l.taskID l from rfl, hget] at hl'
    split at hl'
    · rename_i he
      exact he ▸ hl
    · exact hs.traced τ l' hl'
  · unfold view Board.lease
    congr 1
    funext τ
    rw [Function.update_apply]
    exact hget τ

theorem does_getLease (τ : String) : DoesOn env (getLease τ) b fun r b' => r = b.leases τ ∧ b' = b := by
  refine does_act fun s hs hv => ⟨⟨hs.leads, hs.opened, hs.traced⟩, ?_, hv⟩
  subst hv
  rfl

theorem does_removeLease (τ : String) : DoesOn env (removeLease τ) b fun _ b' => b' = b.unlease τ := by
  refine does_act fun s hs hv => ?_
  subst hv
  have hget : ∀ τ', (s.leases.erase τ)[τ']? = if τ' = τ then none else s.leases[τ']? := by
    intro τ'
    rw [Std.ExtTreeMap.getElem?_erase]
    simp only [compare_keys, eq_comm (a := τ')]
  refine ⟨⟨hs.leads, hs.opened, fun τ' l' hl' => ?_⟩, ?_⟩
  · rw [show (handle env (.removeLease τ) s).2.leases = s.leases.erase τ from rfl, hget] at hl'
    split at hl'
    · cases hl'
    · exact hs.traced τ' l' hl'
  · unfold view Board.unlease
    congr 1
    funext τ'
    rw [Function.update_apply]
    exact hget τ'

theorem does_listLeases : DoesOn env (act .listLeases) b fun r b' =>
    b' = b ∧ ∀ τ l, (τ, l) ∈ r ↔ b.leases τ = some l := by
  refine does_act fun s hs hv => ⟨⟨hs.leads, hs.opened, hs.traced⟩, hv, fun τ l => ?_⟩
  subst hv
  exact mem_range env s.tick s.leases τ l

theorem does_startTimer (x : String) (d : Int) : DoesOn env (act (.startTimer x d)) b fun _ b' => b' = b.arm x := by
  refine does_act fun s hs hv => ⟨⟨hs.leads, hs.opened, hs.traced⟩, ?_⟩
  subst hv
  unfold view Board.arm
  congr 1
  ext y
  refine Std.ExtTreeMap.mem_insert.trans ?_
  simp only [compare_keys, eq_comm (a := x)]
  rfl

theorem does_deleteTimer (x : String) : DoesOn env (act (.deleteTimer x)) b fun _ b' => b' = b.unarm x := by
  refine does_act fun s hs hv => ⟨⟨hs.leads, hs.opened, hs.traced⟩, ?_⟩
  subst hv
  unfold view Board.unarm
  congr 1
  ext y
  refine Std.ExtTreeMap.mem_erase.trans ?_
  simp only [ne_eq, compare_keys, eq_comm (a := x)]
  exact and_comm

theorem does_addDeps (j : Job) : DoesOn env (addDeps j) b fun _ b' => b' = b.park j := by
  refine does_act fun s hs hv => ⟨⟨hs.leads, hs.opened, hs.traced⟩, ?_⟩
  subst hv
  unfold view Board.park
  congr 1
  funext d
  ext y
  refine (RevIndex.waits_addDeps ..).trans ?_
  by_cases hd : d ∈ j.dependsOn <;> simp [hd, or_comm]

theorem does_removeFromIndex (x : String) : DoesOn env (removeFromIndex x) b fun _ b' => b' = b.unpark x := by
  refine does_act fun s hs hv => ⟨⟨hs.leads, hs.opened, hs.traced⟩, ?_⟩
  subst hv
  unfold view Board.unpark
  congr 1
  funext d
  ext y
  exact RevIndex.waits_removeFromIndex ..

theorem does_dependentsOf (d : String) : DoesOn env (dependentsOf d) b fun r b' =>
    b' = b ∧ ∀ x, x ∈ r ↔ x ∈ b.waits d := by
  refine does_act fun s hs hv => ⟨⟨hs.leads, hs.opened, hs.traced⟩, hv, fun x => ?_⟩
  subst hv
  exact (env.order_perm _ _).mem_iff.trans (RevIndex.mem_dependentsOf ..)

/-- Drawing any ID uses up a UUID, and with it a task ID that is new. -/
theorem does_newID (he : Sound env) (kind : String) : DoesOn env (newID kind) b fun r b' =>
    r = kind ++ "-" ++ env.uuid b.minted ∧
      ∃ τ, τ ∉ b.issued ∧ b.leases τ = none ∧ b' = b.draw τ ∧ (kind = "task" → r = τ) := by
  refine does_act fun s hs hv => ?_
  subst hv
  have hissued : ∀ τ, τ ∈ (view env (handle env (.newID kind) s).2).issued ↔
      τ = taskID env s.minted ∨ τ ∈ (view env s).issued := by
    intro τ
    show (∃ n < s.minted + 1, τ = taskID env n) ↔ τ = taskID env s.minted ∨ ∃ n < s.minted, τ = taskID env n
    constructor
    · rintro ⟨n, hn, rfl⟩
      rcases Nat.lt_succ_iff_lt_or_eq.1 hn with hn | rfl
      · exact .inr ⟨n, hn, rfl⟩
      · exact .inl rfl
    · rintro (rfl | ⟨n, hn, rfl⟩)
      · exact ⟨_, Nat.lt_succ_self _, rfl⟩
      · exact ⟨n, Nat.lt_succ_of_lt hn, rfl⟩
  have hnew : taskID env s.minted ∉ (view env s).issued := by
    rintro ⟨n, hn, h⟩
    exact Nat.lt_irrefl _ (taskID_injective he.distinct h ▸ hn)
  refine ⟨⟨hs.leads, hs.opened, fun τ l hl => (hissued τ).2 (.inr (hs.traced τ l hl))⟩, rfl,
    taskID env s.minted, hnew, ?_, ?_, ?_⟩
  · cases hl : s.leases[taskID env s.minted]? with
    | none => exact hl
    | some l => exact absurd (hs.traced _ l hl) hnew
  · have : (view env (handle env (.newID kind) s).2).issued = insert (taskID env s.minted) (view env s).issued :=
      Set.ext hissued
    unfold Board.draw
    rw [← this]
    rfl
  · rintro rfl
    rfl

theorem does_clearQueue : DoesOn env Queue.clear b fun _ b' => b' = { b with ready := ∅ } := by
  refine does_act fun s hs hv => ⟨⟨hs.leads, hs.opened, hs.traced⟩, ?_⟩
  subst hv
  unfold view
  congr 1
  exact Set.eq_empty_of_forall_notMem PriorityQueue.not_holds_empty

theorem does_clearDispatch :
    DoesOn env (act .clearDispatch) b fun _ b' => b' = { b with timers := ∅, leases := fun _ => none } := by
  refine does_act fun s hs hv => ⟨⟨hs.leads, hs.opened, fun τ l hl => ?_⟩, ?_⟩
  · have : (∅ : Std.ExtTreeMap String Lease)[τ]? = some l := hl
    rw [Std.ExtTreeMap.getElem?_empty] at this
    cases this
  · subst hv
    refine Board.ext rfl rfl ?_ ?_ rfl rfl rfl
    · exact Set.eq_empty_of_forall_notMem fun x => Std.ExtTreeMap.not_mem_empty
    · funext τ
      exact Std.ExtTreeMap.getElem?_empty

theorem does_clearIndex : DoesOn env (act .clearIndex) b fun _ b' => b' = { b with waits := fun _ => ∅ } := by
  refine does_act fun s hs hv => ⟨⟨hs.leads, hs.opened, hs.traced⟩, ?_⟩
  subst hv
  unfold view
  congr 1
  funext d
  exact Set.eq_empty_of_forall_notMem fun x => RevIndex.not_waits_empty d x

theorem does_clearSchedulingState : DoesOn env clearSchedulingState b fun _ b' => b' = b.cleared := by
  refine does_clearQueue.bind ?_
  rintro _ _ rfl
  refine does_clearDispatch.bind ?_
  rintro _ _ rfl
  refine does_clearIndex.mono ?_
  rintro _ _ rfl
  rfl

end Rules

end Distsched.Lifecycle
