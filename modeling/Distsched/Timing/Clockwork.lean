/-
The protocol of the fire times: a handler may put a job into the ready queue, arm a timer or write a record only if the
agenda stays punctual. A node whose clock never goes back and whose store works honours it, so what every handler keeps
under the protocol holds of its runs, broken off or not.
-/
import Distsched.Scheduler.Silent
import Distsched.Timing.Agenda
import Mathlib.Order.Lattice.Nat
import Mathlib.Order.ConditionallyCompleteLattice.Indexed
import Mathlib.Data.Int.ConditionallyCompleteOrder

namespace Distsched.Timing

open Scheduler Prog
open Lifecycle (Table table table_put table_handle)

/-! ## The protocol -/

/-- The answer to a read of the store. -/
def fetched : Option Job → Except StoreError Job
  | none => .error .notFound
  | some j => .ok j

namespace Agenda

def clearQueue (a : Agenda) : Agenda := { a with ready := ∅ }
def clearTimers (a : Agenda) : Agenda := { a with due := fun _ => none }
def mint (a : Agenda) : Agenda := { a with minted := a.minted + 1 }

/-- The first operation from the agenda on that can have drawn `q` has been performed. -/
noncomputable def draw (env : Env) (a : Agenda) (q : Retry.Chance) : Agenda :=
  { a with tick := sInf { k | a.tick ≤ k ∧ env.float64 k = q } + 1 }

/-- The agenda after the answer to an operation. -/
noncomputable def next (env : Env) (a : Agenda) : (op : Op) → op.Resp → Agenda
  | .putJob j, _ => a.put j
  | .push x _ _, _ => a.push x
  | .pop, some x => a.unready x
  | .remove x, _ => a.unready x
  | .clearQueue, _ => a.clearQueue
  | .startTimer x d, _ => a.arm x d
  | .deleteTimer x, _ => a.unarm x
  | .clearDispatch, _ => a.clearTimers
  | .now, t => a.pass t.ns
  | .newID _, _ => a.mint
  | .float64, q => a.draw env q
  | _, _ => a

def Answers (env : Env) (a : Agenda) : (op : Op) → op.Resp → Prop
  | .getJob x, r => r = fetched (a.jobs x)
  | .putJob _, r => r = .ok ()
  | .putDeadLetter _, r => r = .ok ()
  | .listJobs, r => ∃ l, r = .ok l ∧ (l.map Job.id).Nodup ∧ ∀ j, j ∈ l ↔ a.jobs j.id = some j
  | .pop, some x => x ∈ a.ready
  | .now, t => a.now ≤ t.ns
  | .newID kind, id => id = kind ++ "-" ++ env.uuid a.minted
  | .float64, q => ∃ k, a.tick ≤ k ∧ env.float64 k = q
  | _, _ => True

end Agenda

section

variable (env : Env) (strict : Prop) (old : Table) (t₀ : Nat)

noncomputable def clockwork : Protocol Op Op.Resp Agenda where
  permits op a := match op with
    | .putJob j => Punctual env strict old t₀ (a.put j)
    | .push x _ _ => Punctual env strict old t₀ (a.push x)
    | .startTimer x d => Punctual env strict old t₀ (a.arm x d)
    | _ => True
  answers op r a := a.Answers env op r
  next op r a := a.next env op r

/-- What a node shows of the times at which its jobs run. -/
def agenda (s : Server) : Agenda where
  jobs := table s
  ready := { x | s.queue.Holds x }
  due x := s.retryTimers[x]?
  now := env.clock s.tick
  minted := s.minted
  tick := s.tick

/-- The agenda a handler works with is the node's, except that time may have passed. -/
structure Shows (a : Agenda) (s : Server) : Prop where
  punctual : Punctual env strict old t₀ a
  jobs : table s = a.jobs
  ready : ∀ x, s.queue.Holds x ↔ x ∈ a.ready
  due : ∀ (x : String) t, s.retryTimers[x]? = some t → ∃ t' ≤ t, a.due x = some t'
  now : a.now ≤ env.clock s.tick
  minted : s.minted = a.minted
  tick : a.tick ≤ s.tick

/-- The agenda of a process started on the store is punctual. -/
def Dormant (s : Server) : Prop := Punctual env strict old t₀ (agenda env s.fresh)

end

variable {env : Env} {strict : Prop} {old : Table} {t₀ : Nat} {a a' : Agenda} {s s' : Server}

theorem no_timer_empty {x : String} {t : Int} (h : (∅ : Std.ExtTreeMap String Int)[x]? = some t) : False := by
  rw [Std.ExtTreeMap.getElem?_empty] at h
  cases h

namespace Shows

/-- The agenda after an operation, part by part. -/
theorem after (hm : Monotone env.clock) (h : Shows env strict old t₀ a s) (hp : Punctual env strict old t₀ a')
    (hj : table s' = a'.jobs) (hq : ∀ x, s'.queue.Holds x ↔ x ∈ a'.ready)
    (hd : ∀ (x : String) t, s'.retryTimers[x]? = some t → ∃ t' ≤ t, a'.due x = some t') (hn : a'.now ≤ env.clock s.tick)
    (hmint : s'.minted = a'.minted) (ha : a'.tick ≤ a.tick) (ht : s'.tick = s.tick + 1) : Shows env strict old t₀ a' s' where
  punctual := hp
  jobs := hj
  ready := hq
  due := hd
  now := hn.trans (hm (by omega))
  minted := hmint
  tick := by have := h.tick; omega

/-- An operation that changes nothing of the agenda. -/
theorem ticked (hm : Monotone env.clock) (h : Shows env strict old t₀ a s) (hj : table s' = table s)
    (hq : s'.queue = s.queue) (hr : s'.retryTimers = s.retryTimers) (hmint : s'.minted = s.minted)
    (ht : s'.tick = s.tick + 1) : Shows env strict old t₀ a s' :=
  h.after hm h.punctual (hj.trans h.jobs) (hq ▸ h.ready) (hr ▸ h.due) h.now (hmint.trans h.minted) (le_refl _) ht

theorem agenda (h : Shows env strict old t₀ a s) : Punctual env strict old t₀ (agenda env s) := by
  refine h.punctual.less h.jobs h.now h.tick (fun x hx => (h.ready x).1 hx) fun x t ht => ?_
  obtain ⟨t', hle, ht'⟩ := h.due x t ht
  exact ⟨t', ht', hle⟩

/-- What a crash leaves of it. -/
theorem dormant (h : Shows env strict old t₀ a s) : Dormant env strict old t₀ s := by
  refine h.punctual.less h.jobs h.now h.tick (fun x hx => absurd hx (PriorityQueue.not_holds_empty x)) fun x t ht => ?_
  exact (no_timer_empty ht).elim

/-- A handler begins with the agenda of its node. -/
theorem of_agenda (h : Punctual env strict old t₀ (Timing.agenda env s)) :
    Shows env strict old t₀ (Timing.agenda env s) s where
  punctual := h
  jobs := rfl
  ready _ := Iff.rfl
  due _ t ht := ⟨t, le_refl t, ht⟩
  now := le_refl _
  minted := rfl
  tick := le_refl _

theorem answers (hr : env.Reliable) (h : Shows env strict old t₀ a s) (op : Op) :
    a.Answers env op (handle env op s).1 := by
  cases op with
  | getJob x =>
    show (handle env (.getJob x) s).1 = fetched (a.jobs x)
    rw [← h.jobs]
    simp only [handle, hr s.tick]
    show _ = fetched (s.store.jobs.get x)
    cases s.store.jobs.get x <;> rfl
  | putJob j | putDeadLetter j =>
    simp only [handle, Server.write, hr s.tick]
    rfl
  | listJobs =>
    refine ⟨s.store.jobs.list, ?_, s.store.jobs.list_nodup, fun j => ?_⟩
    · simp only [handle, hr s.tick]
    · rw [← h.jobs]
      exact Bucket.mem_list
  | pop =>
    cases hpop : s.queue.pop.1 with
    | none => simp only [handle, hpop]; trivial
    | some x =>
      simp only [handle, hpop]
      exact (h.ready x).1 (PriorityQueue.holds_of_pop hpop)
  | now => exact h.now
  | newID kind =>
    show kind ++ "-" ++ env.uuid s.minted = _
    rw [h.minted]
  | float64 => exact ⟨s.tick, h.tick, rfl⟩
  | _ => trivial

theorem next (hm : Monotone env.clock) (hr : env.Reliable) (h : Shows env strict old t₀ a s) (op : Op)
    (hop : (clockwork env strict old t₀).permits op a) :
    Shows env strict old t₀ (a.next env op (handle env op s).1) (handle env op s).2 := by
  cases op with
  | putJob j =>
    simp only [handle, Server.write, hr s.tick]
    refine h.after hm hop ?_ h.ready h.due h.now h.minted (le_refl _) rfl
    show (s.store.jobs.put j).get = _
    rw [table_put, h.jobs]
    rfl
  | push x p c =>
    refine h.after hm hop h.jobs (fun y => ?_) h.due h.now h.minted (le_refl _) rfl
    show (s.queue.push x p c).2.Holds y ↔ y ∈ insert x a.ready
    rw [PriorityQueue.holds_push, h.ready y]
    exact Iff.rfl
  | pop =>
    cases hpop : s.queue.pop.1 with
    | none =>
      simp only [handle, hpop]
      exact h.ticked hm rfl (PriorityQueue.pop_none hpop).1 rfl rfl rfl
    | some x =>
      simp only [handle, hpop]
      refine h.after hm (h.punctual.unready x) h.jobs (fun y => ?_) h.due h.now h.minted (le_refl _) rfl
      show s.queue.pop.2.Holds y ↔ y ∈ a.ready \ {x}
      rw [PriorityQueue.holds_pop hpop, h.ready y]
      exact and_comm
  | remove x =>
    refine h.after hm (h.punctual.unready x) h.jobs (fun y => ?_) h.due h.now h.minted (le_refl _) rfl
    show (s.queue.remove x).2.Holds y ↔ y ∈ a.ready \ {x}
    rw [PriorityQueue.holds_remove, h.ready y]
    exact and_comm
  | clearQueue =>
    have hp : Punctual env strict old t₀ a.clearQueue :=
      h.punctual.less rfl (le_refl _) (le_refl _) (Set.empty_subset _) fun _ t ht => ⟨t, ht, le_refl t⟩
    refine h.after hm hp h.jobs (fun y => ?_) h.due h.now h.minted (le_refl _) rfl
    exact iff_of_false (PriorityQueue.not_holds_empty y) id
  | startTimer x d =>
    refine h.after hm hop h.jobs h.ready (fun y t ht => ?_) h.now h.minted (le_refl _) rfl
    replace ht : (s.retryTimers.insert x (env.clock s.tick + d))[y]? = some t := ht
    show ∃ t' ≤ t, Function.update a.due x (some (a.now + d)) y = some t'
    rw [Std.ExtTreeMap.getElem?_insert] at ht
    split at ht
    · rename_i hxy
      cases ht
      rw [compare_keys.1 hxy, Function.update_self]
      exact ⟨a.now + d, by have := h.now; omega, rfl⟩
    · rename_i hxy
      rw [Function.update_of_ne fun he => hxy (compare_keys.2 he.symm)]
      exact h.due y t ht
  | deleteTimer x =>
    refine h.after hm (h.punctual.unarm x) h.jobs h.ready (fun y t ht => ?_) h.now h.minted (le_refl _) rfl
    replace ht : (s.retryTimers.erase x)[y]? = some t := ht
    show ∃ t' ≤ t, Function.update a.due x none y = some t'
    rw [Std.ExtTreeMap.getElem?_erase] at ht
    split at ht
    · cases ht
    · rename_i hxy
      rw [Function.update_of_ne fun he => hxy (compare_keys.2 he.symm)]
      exact h.due y t ht
  | clearDispatch =>
    have hp : Punctual env strict old t₀ a.clearTimers :=
      h.punctual.less rfl (le_refl _) (le_refl _) subset_rfl fun _ _ ht => absurd ht (Option.some_ne_none _).symm
    exact h.after hm hp h.jobs h.ready (fun _ _ ht => (no_timer_empty ht).elim) h.now h.minted (le_refl _) rfl
  | now => exact h.after hm (h.punctual.pass h.now) h.jobs h.ready h.due (le_refl _) h.minted (le_refl _) rfl
  | newID kind =>
    have hp : Punctual env strict old t₀ a.mint :=
      h.punctual.less rfl (le_refl _) (le_refl _) subset_rfl fun _ t ht => ⟨t, ht, le_refl t⟩
    refine h.after hm hp h.jobs h.ready h.due h.now ?_ (le_refl _) rfl
    show s.minted + 1 = a.minted + 1
    rw [h.minted]
  | float64 =>
    have hmem : s.tick ∈ { k | a.tick ≤ k ∧ env.float64 k = env.float64 s.tick } := ⟨h.tick, rfl⟩
    obtain ⟨hle, -⟩ := Nat.sInf_mem ⟨_, hmem⟩
    have hp : Punctual env strict old t₀ (a.draw env (env.float64 s.tick)) :=
      h.punctual.less rfl (le_refl _) (hle.trans (Nat.le_succ _)) subset_rfl fun _ t ht => ⟨t, ht, le_refl t⟩
    exact ⟨hp, h.jobs, h.ready, h.due, h.now.trans (hm (Nat.le_succ _)), h.minted, Nat.succ_le_succ (Nat.sInf_le hmem)⟩
  | putDeadLetter j | putWorker w =>
    simp only [handle, Server.write, hr s.tick]
    exact h.ticked hm rfl rfl rfl rfl rfl
  | _ => exact h.ticked hm rfl rfl rfl rfl rfl

end Shows

/-- A handler that runs on a node with a working store and a clock that never goes back works with the node's agenda,
and so leaves the store punctual wherever it is broken off. -/
theorem honours_clockwork (hm : Monotone env.clock) (hr : env.Reliable) (strict : Prop) (old : Table) (t₀ : Nat) :
    Honours (handle env) (clockwork env strict old t₀) (Shows env strict old t₀) fun s s' =>
      Dormant env strict old t₀ s → Dormant env strict old t₀ s' where
  refl _ h := h
  trans _ _ _ h h' hs := h' (h hs)
  step op _ _ h hop := ⟨h.answers hr op, h.next hm hr op hop, fun _ => (h.next hm hr op hop).dormant⟩

/-! ## Operations -/

/-- `p`, begun with agenda `a`, meets the protocol and ends with a result and an agenda satisfying `Q`. -/
abbrev Clocked {α : Type} (env : Env) (strict : Prop) (old : Table) (t₀ : Nat) (p : M α) (a : Agenda)
    (Q : α → Agenda → Prop) : Prop := Meets (clockwork env strict old t₀) p a Q

/-- The operations that leave the agenda alone, and whose answers it does not decide. -/
def Timeless : Op → Prop
  | .putJob _ | .push .. | .pop | .remove _ | .clearQueue | .startTimer .. | .deleteTimer _ | .clearDispatch | .now
  | .newID _ | .float64 => False
  | _ => True

theorem silent_timeless {op : Op} (h : Timeless op) : Silent (clockwork env strict old t₀) op := by
  cases op <;> first | exact h.elim | exact fun _ => ⟨trivial, fun _ _ => rfl⟩

theorem clocked_timeless (op : Op) (h : Timeless op) : Clocked env strict old t₀ (act op) a fun _ a' => a' = a :=
  (silent_timeless h).meets a

theorem clocked_getJob (x : String) : Clocked env strict old t₀ (Db.getJob x) a fun r a' =>
    a' = a ∧ r = fetched (a.jobs x) := ⟨trivial, fun _ hr => ⟨rfl, hr⟩⟩

theorem clocked_now : Clocked env strict old t₀ timeNow a fun t a' => a' = a.pass t.ns ∧ a.now ≤ t.ns :=
  ⟨trivial, fun _ ht => ⟨rfl, ht⟩⟩

/-- The operation that drew the number is one of the activity. -/
theorem clocked_float64 (h : Punctual env strict old t₀ a) : Clocked env strict old t₀ (act .float64) a fun q a' =>
    ∃ k, a.tick ≤ k ∧ q = env.float64 k ∧ a' = { a with tick := k + 1 } ∧ Punctual env strict old t₀ a' := by
  refine ⟨trivial, fun q hq => ?_⟩
  obtain ⟨hle, hdraw⟩ := Nat.sInf_mem hq
  refine ⟨_, hle, hdraw.symm, rfl, ?_⟩
  exact h.less rfl (le_refl _) (hle.trans (Nat.le_succ _)) subset_rfl fun _ t ht => ⟨t, ht, le_refl t⟩

theorem clocked_putJob {j : Job} (h : Punctual env strict old t₀ (a.put j)) :
    Clocked env strict old t₀ (putJob j) a fun r a' => r = .ok () ∧ a' = a.put j := by
  have hput : Clocked env strict old t₀ (Db.putJob j) a fun r a' => r = .ok () ∧ a' = a.put j :=
    ⟨h, fun _ hr => ⟨hr, rfl⟩⟩
  refine hput.bind ?_
  rintro _ a₁ ⟨rfl, rfl⟩
  refine (meets_appendRepl (.upsertJob j) (silent_timeless trivial) (silent_timeless trivial)).bind ?_
  rintro _ _ rfl
  exact ⟨rfl, rfl⟩

theorem clocked_requireLeader (cfg : Config) : Clocked env strict old t₀ (requireLeader cfg) a fun _ a' => a' = a :=
  meets_requireLeader cfg (silent_timeless trivial) (silent_timeless trivial)

theorem clocked_depsSatisfied (deps : List String) :
    Clocked env strict old t₀ (depsSatisfied deps) a fun _ a' => a' = a :=
  meets_depsSatisfied (fun _ => silent_timeless trivial) deps a

end Distsched.Timing
