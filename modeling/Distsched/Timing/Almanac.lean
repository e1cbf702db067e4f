/-
When an occurrence of a cron job is put into the ready queue, whatever store calls fail and whatever IDs are submitted
again. An occurrence is armed by a write that stores the job QUEUED with no attempt counted and, as `scheduled_at`, the
time the cron library gives for the instant of arming. Then it is put into the queue at once or by a timer.

The almanac of a handler shows the stored jobs, the ready queue and an instant that has passed. It also names the job
stored last, whose timer, if an earlier one is left, may be due before the new record is; the handler has to see to it
before it stores another job or ends. And no record of a job that recurs is replaced by one for a later time while the job
is in the queue, since a poll may put back what it has taken from there.
-/
import Distsched.Lifecycle.Entries
import Distsched.Scheduler.Conduct
import Mathlib.Order.ConditionallyCompleteLattice.Indexed
import Mathlib.Data.Int.ConditionallyCompleteOrder

namespace Distsched.Timing

open Scheduler Prog
open Lifecycle (Table table table_put)

/-! ## Records -/

/-- A time as handlers come by it: an instant read from the clock, in UTC or in the server's zone. -/
def Stamp (env : Env) (t : Time) : Prop := (∃ n, t.ns = env.clock n) ∧ (t.loc = "UTC" ∨ t.loc = env.zone)

/-- The job waits for the first attempt of an occurrence. -/
def Occurrence (ps : Cron) (j : Job) : Prop := j.state = .queued ∧ j.attempt = 0 ∧ Recurs ps j

/-- The record was stored at `now` for the time the cron library gives then. -/
structure ArmedAt (env : Env) (ps : Cron) (j : Job) (now : Time) : Prop where
  stamp : Stamp env now
  updated : j.updatedAt = some now.ns
  scheduled : ∃ next, ps j.cronExpr = .ok next ∧ j.scheduledAt = some (next now).ns

/-- What holds of every stored record. -/
structure Good (env : Env) (ps : Cron) (j : Job) : Prop where
  pending : j.state = .pending → j.attempt = 0
  queued : j.state = .queued → 0 ≤ j.attempt ∧ j.attempt < Retry.maxAttempts j.retryPolicy
  running : j.state = .running → 1 ≤ j.attempt
  armed : Occurrence ps j → ∃ now, ArmedAt env ps j now

variable {env : Env} {ps : Cron} {j : Job} {x : String}

theorem Good.of_terminal (h : terminal j.state = true) : Good env ps j := by
  have hne : ∀ st, terminal st = false → j.state ≠ st := by
    rintro st hst rfl
    rw [h] at hst
    cases hst
  exact ⟨fun hs => absurd hs (hne _ rfl), fun hs => absurd hs (hne _ rfl), fun hs => absurd hs (hne _ rfl),
    fun ho => absurd ho.1 (hne _ rfl)⟩

theorem Good.of_pending (hs : j.state = .pending) (ha : j.attempt = 0) : Good env ps j where
  pending _ := ha
  queued hq := by cases hs.symm.trans hq
  running hr := by cases hs.symm.trans hr
  armed ho := by cases hs.symm.trans ho.1

/-- A record of a first attempt. -/
theorem Good.of_first (hs : j.state = .queued) (ha : j.attempt = 0) (h : Recurs ps j → ∃ now, ArmedAt env ps j now) :
    Good env ps j where
  pending _ := ha
  queued _ := by
    have := Retry.one_le_maxAttempts j.retryPolicy
    omega
  running hr := by cases hs.symm.trans hr
  armed ho := h ho.2.2

/-- A failed attempt that is not the last one. -/
theorem Good.retried (h : Good env ps j) (hs : j.state = .running) (hlt : j.attempt < Retry.maxAttempts j.retryPolicy)
    (msg : String) (now delay : Int) :
    Good env ps (retried { j with lastError := msg, assignedWorkerId := "", updatedAt := some now } now delay) ∧
      ¬ Occurrence ps (retried { j with lastError := msg, assignedWorkerId := "", updatedAt := some now } now delay) := by
  have h1 := h.running hs
  have hno : ¬ Occurrence ps
      (Scheduler.retried { j with lastError := msg, assignedWorkerId := "", updatedAt := some now } now delay) := by
    rintro ⟨-, h0, -⟩
    replace h0 : j.attempt = 0 := h0
    omega
  exact ⟨⟨nofun, fun _ => ⟨by show 0 ≤ j.attempt; omega, hlt⟩, nofun, fun ho => absurd ho hno⟩, hno⟩

/-- The next attempt of a QUEUED job is counted. -/
theorem Good.dispatched (h : Good env ps j) (hs : j.state = .queued) (w : String) (now : Int) :
    Good env ps (dispatched j w now) := by
  obtain ⟨h0, hlt⟩ := h.queued hs
  have := Retry.maxAttempts_lt j.retryPolicy
  refine ⟨nofun, nofun, fun _ => ?_, fun ho => absurd ho.1 nofun⟩
  show 1 ≤ int32 (j.attempt + 1)
  unfold int32
  rw [Int.bmod_def]
  omega

/-! ## The protocol -/

structure Almanac where
  jobs : Table
  /-- The jobs in the ready queue. -/
  ready : Set String
  /-- An instant that has passed. -/
  now : Int
  /-- The UUIDs drawn so far. -/
  minted : Nat
  /-- The job stored last, until it has been armed. -/
  loose : Option String := none

namespace Almanac

def put (a : Almanac) (j : Job) : Almanac :=
  { a with jobs := Function.update a.jobs j.id (some j), loose := some j.id }

def push (a : Almanac) (x : String) : Almanac := { a with ready := insert x a.ready }

def unready (a : Almanac) (x : String) : Almanac := { a with ready := a.ready \ {x} }

def pass (a : Almanac) (n : Int) : Almanac := { a with now := max a.now n }

def arm (a : Almanac) (x : String) : Almanac := { a with loose := if a.loose = some x then none else a.loose }

def mint (a : Almanac) : Almanac := { a with minted := a.minted + 1 }

/-- The almanac after the answer to an operation. -/
def next (a : Almanac) : (op : Op) → op.Resp → Almanac
  | .putJob j, .ok _ => a.put j
  | .push x _ _, _ => a.push x
  | .pop, some x => a.unready x
  | .remove x, _ => a.unready x
  | .clearQueue, _ => { a with ready := ∅ }
  | .startTimer x _, _ => a.arm x
  | .now, t => a.pass t.ns
  | .newID _, _ => a.mint
  | _, _ => a

variable (ps)

/-- If the job waits for the first attempt of an occurrence, that is due by `n`. -/
def DueBy (a : Almanac) (x : String) (n : Int) : Prop :=
  ∀ j t, a.jobs x = some j → Occurrence ps j → j.scheduledAt = some t → t ≤ n

/-- The job may be in the ready queue: if it recurs it is QUEUED or over, and its occurrence is due. -/
def Fit (a : Almanac) (x : String) : Prop :=
  (∀ j, a.jobs x = some j → Recurs ps j → terminal j.state = true ∨ j.state = .queued) ∧ a.DueBy ps x a.now

/-- What is in the ready queue may be there. -/
def Calm (a : Almanac) : Prop := ∀ x ∈ a.ready, a.Fit ps x

/-- The job stored last has been seen to as well. -/
structure Settled (a : Almanac) : Prop where
  calm : a.Calm ps
  loose : ∀ x, a.loose = some x → a.DueBy ps x a.now

/-- Every occurrence was armed by `n`. -/
def Past (a : Almanac) (n : Int) : Prop :=
  ∀ x j u, a.jobs x = some j → Occurrence ps j → j.updatedAt = some u → u ≤ n

/-- The record may be stored. -/
structure Storable (a : Almanac) (j : Job) : Prop where
  settled : a.Settled ps
  /-- a job in the queue that recurs keeps its record until it is over -/
  unready : j.id ∈ a.ready → Recurs ps j → terminal j.state = true
  past : Occurrence ps j → ∀ u, j.updatedAt = some u → u ≤ a.now

end Almanac

/-- The protocol of the occurrences. -/
def arming (env : Env) (ps : Cron) : Protocol Op Op.Resp Almanac where
  permits op a := match op with
    | .putJob j => Good env ps j ∧ a.Storable ps j
    | .push x _ _ => a.Fit ps x
    | .startTimer x d => a.DueBy ps x (a.now + d)
    | _ => True
  answers op r a := match op, r with
    | .getJob x, .ok j => j.id = x ∧ a.jobs x = some j ∧ Good env ps j
    | .listJobs, .ok js => (js.map Job.id).Nodup ∧ ∀ j ∈ js, a.jobs j.id = some j ∧ Good env ps j
    | .pop, some x => x ∈ a.ready
    | .now, t => Stamp env t ∧ a.Past ps t.ns
    | .newID kind, id => id = kind ++ "-" ++ env.uuid a.minted
    | _, _ => True
  next op r a := a.next op r

/-! ## The node -/

variable {s s' : Server} {a a' : Almanac}

/-- Every stored record is in order. -/
def AllGood (env : Env) (ps : Cron) (s : Server) : Prop := ∀ x j, table s x = some j → Good env ps j

/-- Every stored occurrence was armed in the past. -/
def AllPast (env : Env) (ps : Cron) (s : Server) : Prop :=
  ∀ x j u, table s x = some j → Occurrence ps j → j.updatedAt = some u → u ≤ env.clock s.tick

/-- What a crash leaves behind is in order. -/
structure Kept (env : Env) (ps : Cron) (s : Server) : Prop where
  good : AllGood env ps s
  past : AllPast env ps s

/-- The almanac is true of the node. A timer is due no earlier than the occurrence it was started for, unless that is due
by now or the job has just been stored. -/
structure Shown (env : Env) (ps : Cron) (a : Almanac) (s : Server) : Prop extends Kept env ps s where
  jobs : table s = a.jobs
  ready : ∀ x, s.queue.Holds x ↔ x ∈ a.ready
  minted : s.minted = a.minted
  now : a.now ≤ env.clock s.tick
  timers : ∀ (x : String) due j t, s.retryTimers[x]? = some due → table s x = some j → Occurrence ps j →
    j.scheduledAt = some t → t ≤ due ∨ t ≤ env.clock s.tick ∨ a.loose = some x

theorem Shown.answers (h : Shown env ps a s) (op : Op) : (arming env ps).answers op (handle env op s).1 a := by
  cases op with
  | getJob id =>
    simp only [handle]
    split
    · trivial
    · split
      · trivial
      · rename_i j hj
        exact ⟨Bucket.get_id hj, h.jobs ▸ hj, h.good id j hj⟩
  | listJobs =>
    simp only [handle]
    split
    · trivial
    · refine ⟨s.store.jobs.list_nodup, fun j hj => ?_⟩
      have hstored : table s j.id = some j := Bucket.mem_list.1 hj
      exact ⟨h.jobs ▸ hstored, h.good j.id j hstored⟩
  | pop =>
    cases hpop : s.queue.pop.1 with
    | none => simp only [handle, hpop]; trivial
    | some x =>
      simp only [handle, hpop]
      exact (h.ready x).1 (PriorityQueue.holds_of_pop hpop)
  | now => exact ⟨⟨⟨s.tick, rfl⟩, .inr rfl⟩, fun x j u hj => h.past x j u (h.jobs ▸ hj)⟩
  | newID kind =>
    show kind ++ "-" ++ env.uuid s.minted = _
    rw [h.minted]
  | _ => trivial

/-- An operation that changes no job and starts no timer. -/
theorem Shown.ticked (hm : Monotone env.clock) (h : Shown env ps a s) (hj : table s' = table s)
    (hr : ∀ (x : String) due, s'.retryTimers[x]? = some due → s.retryTimers[x]? = some due) (ht : s'.tick = s.tick + 1)
    (haj : a'.jobs = a.jobs) (hq : ∀ x, s'.queue.Holds x ↔ x ∈ a'.ready) (hmint : s'.minted = a'.minted)
    (hn : a'.now ≤ env.clock s.tick) (hl : a'.loose = a.loose) : Shown env ps a' s' := by
  have hclock : env.clock s.tick ≤ env.clock s'.tick := hm (by omega)
  constructor
  · constructor
    · exact fun x j hx => h.good x j (hj ▸ hx)
    · exact fun x j u hx ho hu => (h.past x j u (hj ▸ hx) ho hu).trans hclock
  · rw [hj, haj, h.jobs]
  · exact hq
  · exact hmint
  · exact hn.trans hclock
  · intro x due j t hdue hx ho ht
    rw [hl]
    rcases h.timers x due j t (hr x due hdue) (hj ▸ hx) ho ht with h | h | h
    · exact .inl h
    · exact .inr (.inl (h.trans hclock))
    · exact .inr (.inr h)

/-- An operation of which the almanac takes no note. -/
theorem Shown.idle (hm : Monotone env.clock) (h : Shown env ps a s) (hj : table s' = table s)
    (hr : ∀ (x : String) due, s'.retryTimers[x]? = some due → s.retryTimers[x]? = some due) (ht : s'.tick = s.tick + 1)
    (hq : s'.queue = s.queue) (hmint : s'.minted = s.minted) : Shown env ps a s' :=
  h.ticked hm hj hr ht rfl (hq ▸ h.ready) (hmint.trans h.minted) h.now rfl

theorem Shown.put (hm : Monotone env.clock) (h : Shown env ps a s) (hg : Good env ps j) (ha : a.Storable ps j)
    (hj : table s' = Function.update (table s) j.id (some j)) (hr : s'.retryTimers = s.retryTimers)
    (ht : s'.tick = s.tick + 1) (hq : s'.queue = s.queue) (hmint : s'.minted = s.minted) : Shown env ps (a.put j) s' := by
  have hclock : env.clock s.tick ≤ env.clock s'.tick := hm (by omega)
  constructor
  · constructor
    · intro x j' hx
      rw [hj, Function.update_apply] at hx
      split at hx
      · cases hx
        exact hg
      · exact h.good x j' hx
    · intro x j' u hx ho hu
      rw [hj, Function.update_apply] at hx
      split at hx
      · cases hx
        exact (ha.past ho u hu).trans (h.now.trans hclock)
      · exact (h.past x j' u hx ho hu).trans hclock
  · rw [hj, h.jobs]
    rfl
  · exact hq ▸ h.ready
  · exact hmint.trans h.minted
  · exact h.now.trans hclock
  · intro x due j' t hdue hx ho hsched
    by_cases he : x = j.id
    · exact .inr (.inr (he ▸ rfl))
    · rw [hj, Function.update_of_ne he] at hx
      rcases h.timers x due j' t (hr ▸ hdue) hx ho hsched with h₁ | h₁ | h₁
      · exact .inl h₁
      · exact .inr (.inl (h₁.trans hclock))
      · -- the job that was loose has been seen to
        exact .inr (.inl ((ha.settled.loose x h₁ j' t (h.jobs ▸ hx) ho hsched).trans (h.now.trans hclock)))

theorem Shown.startTimer (hm : Monotone env.clock) (h : Shown env ps a s) {d : Int} (hdue : a.DueBy ps x (a.now + d)) :
    Shown env ps (a.arm x) (handle env (.startTimer x d) s).2 := by
  have hclock : env.clock s.tick ≤ env.clock (s.tick + 1) := hm (Nat.le_succ _)
  constructor
  · exact ⟨h.good, fun x j u hx ho hu => (h.past x j u hx ho hu).trans hclock⟩
  · exact h.jobs
  · exact h.ready
  · exact h.minted
  · exact h.now.trans hclock
  · intro y due j t hy hj ho ht
    replace hy : (s.retryTimers.insert x (env.clock s.tick + d))[y]? = some due := hy
    rw [Std.ExtTreeMap.getElem?_insert] at hy
    split at hy
    · rename_i hxy
      obtain rfl : x = y := compare_keys.1 hxy
      cases hy
      have := hdue j t (h.jobs ▸ hj) ho ht
      have := h.now
      exact .inl (by omega)
    · rename_i hxy
      rcases h.timers y due j t hy hj ho ht with h₁ | h₁ | h₁
      · exact .inl h₁
      · exact .inr (.inl (h₁.trans hclock))
      · refine .inr (.inr ?_)
        have hne : a.loose ≠ some x := by
          rw [h₁]
          rintro ⟨⟩
          exact hxy (compare_keys.2 rfl)
        show (if a.loose = some x then none else a.loose) = some y
        rw [if_neg hne]
        exact h₁

theorem Shown.next (hm : Monotone env.clock) (h : Shown env ps a s) (op : Op) (hop : (arming env ps).permits op a) :
    Shown env ps (a.next op (handle env op s).1) (handle env op s).2 := by
  cases op with
  | putJob j =>
    simp only [handle, Server.write]
    split
    · exact h.idle hm rfl (fun _ _ h => h) rfl rfl rfl
    · exact h.put hm hop.1 hop.2 (table_put s j) rfl rfl rfl rfl
  | push x p c =>
    refine h.ticked hm rfl (fun _ _ h => h) rfl rfl (fun y => ?_) h.minted h.now rfl
    show (s.queue.push x p c).2.Holds y ↔ y ∈ insert x a.ready
    rw [PriorityQueue.holds_push, h.ready y]
    exact Iff.rfl
  | pop =>
    cases hpop : s.queue.pop.1 with
    | none =>
      simp only [handle, hpop]
      exact h.idle hm rfl (fun _ _ h => h) rfl (PriorityQueue.pop_none hpop).1 rfl
    | some x =>
      simp only [handle, hpop]
      refine h.ticked hm rfl (fun _ _ h => h) rfl rfl (fun y => ?_) h.minted h.now rfl
      show s.queue.pop.2.Holds y ↔ y ∈ a.ready \ {x}
      rw [PriorityQueue.holds_pop hpop, h.ready y]
      exact and_comm
  | remove x =>
    refine h.ticked hm rfl (fun _ _ h => h) rfl rfl (fun y => ?_) h.minted h.now rfl
    show (s.queue.remove x).2.Holds y ↔ y ∈ a.ready \ {x}
    rw [PriorityQueue.holds_remove, h.ready y]
    exact and_comm
  | clearQueue =>
    refine h.ticked hm rfl (fun _ _ h => h) rfl rfl (fun y => ?_) h.minted h.now rfl
    exact iff_of_false (PriorityQueue.not_holds_empty y) id
  | startTimer x d => exact h.startTimer hm hop
  | now => exact h.ticked hm rfl (fun _ _ h => h) rfl rfl h.ready h.minted (max_le h.now (le_refl _)) rfl
  | newID kind =>
    refine h.ticked hm rfl (fun _ _ h => h) rfl rfl h.ready ?_ h.now rfl
    show s.minted + 1 = a.minted + 1
    rw [h.minted]
  | deleteTimer x =>
    refine h.idle hm rfl (fun y due hy => ?_) rfl rfl rfl
    replace hy : (s.retryTimers.erase x)[y]? = some due := hy
    rw [Std.ExtTreeMap.getElem?_erase] at hy
    exact (Option.ite_none_left_eq_some.1 hy).2
  | clearDispatch =>
    refine h.idle hm rfl (fun y due hy => ?_) rfl rfl rfl
    replace hy : (∅ : Std.ExtTreeMap String Int)[y]? = some due := hy
    rw [Std.ExtTreeMap.getElem?_empty] at hy
    cases hy
  | putDeadLetter j | putWorker w =>
    simp only [handle, Server.write]
    split <;> exact h.idle hm rfl (fun _ _ h => h) rfl rfl rfl
  | _ => exact h.idle hm rfl (fun _ _ h => h) rfl rfl rfl

/-- The almanac of a node between two activities. -/
def almanac (env : Env) (s : Server) : Almanac where
  jobs := table s
  ready := { x | s.queue.Holds x }
  now := env.clock s.tick
  minted := s.minted

/-- Between two activities no timer is due before the occurrence it was started for, unless that is due by now, and what
is in the ready queue is due. -/
structure OnTime (env : Env) (ps : Cron) (s : Server) : Prop extends Kept env ps s where
  timers : ∀ (x : String) due j t, s.retryTimers[x]? = some due → table s x = some j → Occurrence ps j →
    j.scheduledAt = some t → t ≤ due ∨ t ≤ env.clock s.tick
  calm : (almanac env s).Calm ps

theorem OnTime.settled (h : OnTime env ps s) : (almanac env s).Settled ps := ⟨h.calm, nofun⟩

end Distsched.Timing
