/-
When jobs run. `PollTask` and `enqueueJob` never look at a fire time: what is in the ready queue is handed out. So the
claim that nothing is dispatched early is one about which jobs are in the queue and which have a timer, and an agenda
shows just that: the stored jobs, the ready queue, the timers with the instants before which they do not fire, and an
instant that has passed.
-/
import Distsched.Lifecycle.Entries

namespace Distsched.Timing

open Scheduler Prog
open Lifecycle (Table table table_put)

/-! ## What a job waits for -/

def runAt (j : Job) : Option Int := j.schedule.bind Schedule.getRunAt

/-- A schedule is a cron expression or a run time, not both. -/
theorem runAt_of_cron {j : Job} (h : j.cronExpr ≠ "") : runAt j = none := by
  unfold Job.cronExpr at h
  unfold runAt
  cases hs : j.schedule with
  | none => rfl
  | some sched =>
    rw [hs] at h
    replace h : sched.getCronExpr ≠ "" := h
    show sched.getRunAt = none
    unfold Schedule.getCronExpr at h
    unfold Schedule.getRunAt
    split
    · rename_i hk
      rw [hk] at h
      exact absurd rfl h
    · rfl

/-- A QUEUED job is not to be dispatched before `t`. The fire time stored with it counts for a retry, and if `strict` for
any job. -/
def NotBefore (strict : Prop) (j : Job) (t : Int) : Prop :=
  runAt j = some t ∨ ((strict ∨ 1 ≤ j.attempt) ∧ j.scheduledAt = some t)

/-- At instant `n` the job waits for nothing any more. -/
def Overdue (strict : Prop) (n : Int) (j : Job) : Prop := ∀ t, NotBefore strict j t → t ≤ n

/-- At instant `n` the instant `t` has passed, or the fire time stored with the job is no earlier and a timer can be
set for `t`. -/
def Foreseen (n : Int) (j : Job) (t : Int) : Prop :=
  t ≤ n ∨ t ≤ n + maxDuration ∧ ∃ u, j.scheduledAt = some u ∧ t ≤ u

/-- What holds of a record stored at instant `n`. -/
structure Sane (env : Env) (strict : Prop) (n : Int) (j : Job) : Prop where
  pending : j.state = .pending → j.attempt = 0 ∧ (strict → ∀ t, j.scheduledAt = some t → t ≤ n) ∧
    ∀ t, runAt j = some t → t ≤ n + maxDuration
  queued : j.state = .queued → ∀ t, NotBefore strict j t → Foreseen n j t
  running : j.state = .running → ∀ t, runAt j = some t → t ≤ n
  /-- a retry is stored with the instant of the failure and that instant plus a drawn delay -/
  retried : j.state = .queued → 1 ≤ j.attempt → ∃ t k, t ≤ n ∧ j.updatedAt = some t ∧
    j.scheduledAt = some (t + Retry.backoff j.retryPolicy j.attempt (env.float64 k))

variable {env : Env} {strict : Prop} {n n' : Int} {j : Job} {x : String}

theorem Overdue.mono (h : Overdue strict n j) (hn : n ≤ n') : Overdue strict n' j := fun t ht => (h t ht).trans hn

theorem Foreseen.mono {t : Int} (h : Foreseen n j t) (hn : n ≤ n') : Foreseen n' j t := by
  rcases h with hle | ⟨hnear, hu⟩
  · exact .inl (hle.trans hn)
  · exact .inr ⟨by omega, hu⟩

theorem Sane.mono (h : Sane env strict n j) (hn : n ≤ n') : Sane env strict n' j where
  pending hs := by
    obtain ⟨ha, hsched, hrun⟩ := h.pending hs
    exact ⟨ha, fun hst t ht => (hsched hst t ht).trans hn, fun t ht => by have := hrun t ht; omega⟩
  queued hs t ht := (h.queued hs t ht).mono hn
  running hs t ht := (h.running hs t ht).trans hn
  retried hs ha := by
    obtain ⟨t, k, ht, hrest⟩ := h.retried hs ha
    exact ⟨t, k, ht.trans hn, hrest⟩

theorem Sane.of_terminal (h : terminal j.state = true) : Sane env strict n j := by
  constructor <;> intro hs <;> rw [hs] at h <;> cases h

/-! ## Agendas -/

@[ext] structure Agenda where
  jobs : Table
  ready : Set String
  /-- The armed timers, each with an instant before which it does not fire. -/
  due : String → Option Int
  /-- An instant that has passed. -/
  now : Int
  /-- The UUIDs drawn so far. -/
  minted : Nat
  /-- A number of operations that have been performed. -/
  tick : Nat

namespace Agenda

@[simps] def put (a : Agenda) (j : Job) : Agenda := { a with jobs := Function.update a.jobs j.id (some j) }
def push (a : Agenda) (x : String) : Agenda := { a with ready := insert x a.ready }
@[simps] def unready (a : Agenda) (x : String) : Agenda := { a with ready := a.ready \ {x} }
@[simps] def arm (a : Agenda) (x : String) (d : Int) : Agenda :=
  { a with due := Function.update a.due x (some (a.now + d)) }
@[simps] def unarm (a : Agenda) (x : String) : Agenda := { a with due := Function.update a.due x none }
@[simps] def pass (a : Agenda) (n : Int) : Agenda := { a with now := n }

/-- The job is stored and its record is final. -/
def Done (a : Agenda) (x : String) : Prop := ∃ j, a.jobs x = some j ∧ terminal j.state = true

/-- The job is stored CANCELED. -/
def Canceled (a : Agenda) (x : String) : Prop := ∃ j, a.jobs x = some j ∧ j.state = .canceled

theorem Canceled.done {a : Agenda} {x : String} (h : a.Canceled x) : a.Done x := by
  obtain ⟨j, hj, hs⟩ := h
  exact ⟨j, hj, by rw [hs]; rfl⟩

/-- The job is neither ready nor armed. -/
def Idle (a : Agenda) (x : String) : Prop := x ∉ a.ready ∧ a.due x = none

end Agenda

/-- The job may be in the queue. A final one does no harm there. -/
def Agenda.Ripe (strict : Prop) (a : Agenda) (x : String) : Prop :=
  ∃ j, a.jobs x = some j ∧ (terminal j.state = true ∨ (j.state = .queued ∧ Overdue strict a.now j ∧ a.due x = none))

/-- The job may have a timer that does not fire before `t`. -/
def Agenda.Awaits (strict : Prop) (a : Agenda) (x : String) (t : Int) : Prop :=
  ∃ j, a.jobs x = some j ∧ (terminal j.state = true ∨ (j.state = .queued ∧ ∀ u, NotBefore strict j u → u ≤ t))

/-- What ties the queue and the timers to the fire times of the jobs. -/
structure Timely (env : Env) (strict : Prop) (a : Agenda) : Prop where
  stored : ∀ x j, a.jobs x = some j → j.id = x ∧ Sane env strict a.now j
  ready : ∀ x ∈ a.ready, a.Ripe strict x
  armed : ∀ x t, a.due x = some t → a.Awaits strict x t

/-- What has happened since operation `t₀`, when `old` was stored. -/
structure Since (env : Env) (strict : Prop) (old : Table) (t₀ : Nat) (a : Agenda) : Prop where
  begun : t₀ ≤ a.tick
  later : env.clock t₀ ≤ a.now
  /-- a retry that was not stored then has been stored since, with a delay drawn since -/
  fresh : ∀ x j, a.jobs x = some j → j.state = .queued → 1 ≤ j.attempt → old x = some j ∨ ∃ t k, t₀ ≤ k ∧
    k < a.tick ∧ env.clock t₀ ≤ t ∧ j.updatedAt = some t ∧
      j.scheduledAt = some (t + Retry.backoff j.retryPolicy j.attempt (env.float64 k))
  /-- a QUEUED job stored then is still stored, or is overdue, or is over -/
  held : ∀ x j, old x = some j → j.state = .queued → a.jobs x = some j ∨ Overdue strict a.now j ∨ a.Done x
  final : ∀ x j, old x = some j → terminal j.state = true → a.Done x

/-- The invariant of an activity that begins at operation `t₀` with `old` stored. -/
structure Punctual (env : Env) (strict : Prop) (old : Table) (t₀ : Nat) (a : Agenda) : Prop extends
  Timely env strict a, Since env strict old t₀ a

/-- The record that was stored at first no longer binds the job. -/
def Superseded (strict : Prop) (old : Table) (a : Agenda) (x : String) : Prop :=
  ∀ j, old x = some j → terminal j.state = false ∧ (j.state = .queued → Overdue strict a.now j)

theorem Superseded.mono {old : Table} {a a' : Agenda} (h : Superseded strict old a x) (hn : a.now ≤ a'.now) :
    Superseded strict old a' x := fun j hj => ⟨(h j hj).1, fun hs => ((h j hj).2 hs).mono hn⟩

namespace Punctual

variable {old : Table} {t₀ : Nat} {a a' : Agenda}

/-- Time passes, and jobs leave the queue and the timers. -/
theorem less (h : Punctual env strict old t₀ a) (hj : a'.jobs = a.jobs) (hn : a.now ≤ a'.now) (ht : a.tick ≤ a'.tick)
    (hr : a'.ready ⊆ a.ready) (hd : ∀ x t', a'.due x = some t' → ∃ t, a.due x = some t ∧ t ≤ t') :
    Punctual env strict old t₀ a' where
  stored x j hx := by
    obtain ⟨hid, hs⟩ := h.stored x j (hj ▸ hx)
    exact ⟨hid, hs.mono hn⟩
  ready x hx := by
    obtain ⟨j, hstored, hj'⟩ := h.ready x (hr hx)
    refine ⟨j, hj ▸ hstored, hj'.imp_right fun ⟨hs, ho, hdue⟩ => ⟨hs, ho.mono hn, ?_⟩⟩
    rw [Option.eq_none_iff_forall_ne_some]
    intro t' ht'
    obtain ⟨t, ht, _⟩ := hd x t' ht'
    rw [hdue] at ht
    cases ht
  armed x t' ht' := by
    obtain ⟨t, ht, hle⟩ := hd x t' ht'
    obtain ⟨j, hstored, hj'⟩ := h.armed x t ht
    exact ⟨j, hj ▸ hstored, hj'.imp_right fun ⟨hs, hb⟩ => ⟨hs, fun u hu => (hb u hu).trans hle⟩⟩
  begun := h.begun.trans ht
  later := h.later.trans hn
  fresh x j hx hs ha := by
    refine (h.fresh x j (hj ▸ hx) hs ha).imp_right ?_
    rintro ⟨t, k, hk, hlt, hrest⟩
    exact ⟨t, k, hk, hlt.trans_le ht, hrest⟩
  held x j hx hs := by
    unfold Agenda.Done
    rw [hj]
    rcases h.held x j hx hs with h | h | h
    · exact .inl h
    · exact .inr (.inl (h.mono hn))
    · exact .inr (.inr h)
  final x j hx ht := by
    unfold Agenda.Done
    rw [hj]
    exact h.final x j hx ht

theorem pass (h : Punctual env strict old t₀ a) (hn : a.now ≤ n) : Punctual env strict old t₀ (a.pass n) :=
  h.less rfl hn (le_refl _) subset_rfl fun _ t ht => ⟨t, ht, le_refl t⟩

theorem unready (h : Punctual env strict old t₀ a) (x : String) : Punctual env strict old t₀ (a.unready x) :=
  h.less rfl (le_refl _) (le_refl _) Set.sdiff_subset fun _ t ht => ⟨t, ht, le_refl t⟩

theorem unarm (h : Punctual env strict old t₀ a) (x : String) : Punctual env strict old t₀ (a.unarm x) := by
  refine h.less rfl (le_refl _) (le_refl _) subset_rfl fun y t ht => ⟨t, ?_, le_refl t⟩
  rw [Agenda.unarm_due, Function.update_apply] at ht
  exact (Option.ite_none_left_eq_some.1 ht).2

/-- A job that is PENDING, RUNNING or not stored is neither ready nor armed. -/
theorem idle (h : Punctual env strict old t₀ a)
    (hx : ∀ j, a.jobs x = some j → terminal j.state = false ∧ j.state ≠ .queued) : a.Idle x := by
  refine ⟨fun hr => ?_, Option.eq_none_iff_forall_ne_some.2 fun t ht => ?_⟩
  · obtain ⟨j, hj, ht | ⟨hs, _⟩⟩ := h.ready x hr
    · rw [(hx j hj).1] at ht
      cases ht
    · exact (hx j hj).2 hs
  · obtain ⟨j, hj, ht | ⟨hs, _⟩⟩ := h.armed x t ht
    · rw [(hx j hj).1] at ht
      cases ht
    · exact (hx j hj).2 hs

/-- A job whose current record is not final, and overdue if it is QUEUED, is not bound by an earlier one. -/
theorem superseded (h : Punctual env strict old t₀ a)
    (hx : ∀ j, a.jobs x = some j → terminal j.state = false ∧ (j.state = .queued → Overdue strict a.now j)) :
    Superseded strict old a x := by
  have hdone : ¬ a.Done x := by
    rintro ⟨j, hj, ht⟩
    rw [(hx j hj).1] at ht
    cases ht
  refine fun j hj => ⟨Bool.eq_false_iff.2 fun ht => hdone (h.final x j hj ht), fun hs => ?_⟩
  rcases h.held x j hj hs with hsame | ho | hd
  · exact (hx j hsame).2 hs
  · exact ho
  · exact absurd hd hdone

/-- A final record may be written at any time. -/
theorem finish (h : Punctual env strict old t₀ a) (ht : terminal j.state = true) :
    Punctual env strict old t₀ (a.put j) where
  stored y j' hj' := by
    rw [Agenda.put_jobs, Function.update_apply] at hj'
    split at hj'
    · rename_i he
      cases hj'
      exact ⟨he.symm, .of_terminal ht⟩
    · exact h.stored y j' hj'
  ready y hy := by
    unfold Agenda.Ripe
    rw [Agenda.put_jobs, Function.update_apply]
    split
    · exact ⟨j, rfl, .inl ht⟩
    · exact h.ready y hy
  armed y t hy := by
    unfold Agenda.Awaits
    rw [Agenda.put_jobs, Function.update_apply]
    split
    · exact ⟨j, rfl, .inl ht⟩
    · exact h.armed y t hy
  begun := h.begun
  later := h.later
  fresh y j' hj' hs := by
    rw [Agenda.put_jobs, Function.update_apply] at hj'
    split at hj'
    · cases hj'
      rw [hs] at ht
      cases ht
    · exact h.fresh y j' hj' hs
  held y j' hj' hs := by
    unfold Agenda.Done
    rw [Agenda.put_jobs, Function.update_apply]
    split
    · exact .inr (.inr ⟨j, rfl, ht⟩)
    · exact h.held y j' hj' hs
  final y j' hj' hs := by
    unfold Agenda.Done
    rw [Agenda.put_jobs, Function.update_apply]
    split
    · exact ⟨j, rfl, ht⟩
    · exact h.final y j' hj' hs

/-- A record of an idle job is written, if the job is not bound by an earlier one. -/
theorem write (h : Punctual env strict old t₀ a) (hid : a.Idle j.id) (ho : Superseded strict old a j.id)
    (hs : Sane env strict a.now j) (hf : j.state = .queued → 1 ≤ j.attempt → ∃ t k, t₀ ≤ k ∧ k < a.tick ∧
      env.clock t₀ ≤ t ∧ j.updatedAt = some t ∧
        j.scheduledAt = some (t + Retry.backoff j.retryPolicy j.attempt (env.float64 k))) :
    Punctual env strict old t₀ (a.put j) where
  stored y j' hj' := by
    rw [Agenda.put_jobs, Function.update_apply] at hj'
    split at hj'
    · rename_i he
      cases hj'
      exact ⟨he.symm, hs⟩
    · exact h.stored y j' hj'
  ready y hy := by
    unfold Agenda.Ripe
    rw [Agenda.put_jobs, Function.update_of_ne]
    · exact h.ready y hy
    · rintro rfl
      exact hid.1 hy
  armed y t hy := by
    unfold Agenda.Awaits
    rw [Agenda.put_jobs, Function.update_of_ne]
    · exact h.armed y t hy
    · rintro rfl
      rw [Agenda.put_due, hid.2] at hy
      cases hy
  begun := h.begun
  later := h.later
  fresh y j' hj' hq ha := by
    rw [Agenda.put_jobs, Function.update_apply] at hj'
    split at hj'
    · cases hj'
      exact .inr (hf hq ha)
    · exact h.fresh y j' hj' hq ha
  held y j' hj' hq := by
    unfold Agenda.Done
    rw [Agenda.put_jobs, Function.update_apply]
    split
    · rename_i he
      exact .inr (.inl ((ho j' (he ▸ hj')).2 hq))
    · exact h.held y j' hj' hq
  final y j' hj' ht := by
    unfold Agenda.Done
    rw [Agenda.put_jobs, Function.update_apply]
    split
    · rename_i he
      rw [(ho j' (he ▸ hj')).1] at ht
      cases ht
    · exact h.final y j' hj' ht

theorem push (h : Punctual env strict old t₀ a) (hx : a.Ripe strict x) : Punctual env strict old t₀ (a.push x) where
  stored := h.stored
  ready y hy := by
    rcases hy with rfl | hy
    · exact hx
    · exact h.ready y hy
  armed := h.armed
  begun := h.begun
  later := h.later
  fresh := h.fresh
  held := h.held
  final := h.final

theorem arm {d : Int} (h : Punctual env strict old t₀ a) (hx : a.Awaits strict x (a.now + d))
    (hr : x ∈ a.ready → a.Done x) : Punctual env strict old t₀ (a.arm x d) where
  stored := h.stored
  ready y hy := by
    by_cases hyx : y = x
    · obtain ⟨j, hj, ht⟩ := hr (hyx ▸ hy)
      exact ⟨j, hyx ▸ hj, .inl ht⟩
    · unfold Agenda.Ripe
      rw [Agenda.arm_due, Function.update_of_ne hyx]
      exact h.ready y hy
  armed y t hy := by
    rw [Agenda.arm_due, Function.update_apply] at hy
    split at hy
    · rename_i he
      cases hy
      exact he ▸ hx
    · exact h.armed y t hy
  begun := h.begun
  later := h.later
  fresh := h.fresh
  held := h.held
  final := h.final

/-- An activity begins in a timely state. -/
theorem start (h : Timely env strict a) (hn : env.clock a.tick ≤ a.now) : Punctual env strict a.jobs a.tick a where
  toTimely := h
  begun := le_refl _
  later := hn
  fresh _ _ hj _ _ := .inl hj
  held _ _ hj _ := .inl hj
  final _ j hj ht := ⟨j, hj, ht⟩

end Punctual

/-! ## What an activity leaves alone -/

/-- Between `a` and `a'` nothing outside `S` became ready or armed, and each job outside `S` is as it was, or canceled. -/
structure Leaves (S : Set String) (a a' : Agenda) : Prop where
  now : a.now ≤ a'.now
  ready : ∀ x ∉ S, x ∈ a'.ready → x ∈ a.ready
  due : ∀ x ∉ S, a'.due x = a.due x
  kept : ∀ x ∉ S, (a'.jobs x = a.jobs x ∧ (x ∈ a.ready → x ∈ a'.ready)) ∨ a'.Canceled x

namespace Leaves

variable {S : Set String} {a a' a'' : Agenda}

theorem refl : Leaves S a a := ⟨le_refl _, fun _ _ h => h, fun _ _ => rfl, fun _ _ => .inl ⟨rfl, id⟩⟩

theorem trans (h : Leaves S a a') (h' : Leaves S a' a'') : Leaves S a a'' where
  now := h.now.trans h'.now
  ready x hx hr := h.ready x hx (h'.ready x hx hr)
  due x hx := (h'.due x hx).trans (h.due x hx)
  kept x hx := by
    rcases h'.kept x hx with ⟨hj, hr⟩ | hd
    · rcases h.kept x hx with ⟨hj₁, hr₁⟩ | ⟨j, hdone, ht⟩
      · exact .inl ⟨hj.trans hj₁, fun h => hr (hr₁ h)⟩
      · exact .inr ⟨j, hj.trans hdone, ht⟩
    · exact .inr hd

theorem pass (hn : a.now ≤ n) : Leaves S a (a.pass n) :=
  ⟨hn, fun _ _ h => h, fun _ _ => rfl, fun _ _ => .inl ⟨rfl, id⟩⟩

theorem put (hj : j.id ∈ S) : Leaves S a (a.put j) where
  now := le_refl _
  ready _ _ h := h
  due _ _ := rfl
  kept x hx := by
    refine .inl ⟨Function.update_of_ne ?_ _ _, id⟩
    rintro rfl
    exact hx hj

theorem push (hx : x ∈ S) : Leaves S a (a.push x) where
  now := le_refl _
  ready _ hy h := h.resolve_left fun he => hy (he ▸ hx)
  due _ _ := rfl
  kept _ _ := .inl ⟨rfl, fun h => .inr h⟩

theorem arm {d : Int} (hx : x ∈ S) : Leaves S a (a.arm x d) where
  now := le_refl _
  ready _ _ h := h
  due y hy := by
    refine Function.update_of_ne ?_ _ _
    rintro rfl
    exact hy hx
  kept _ _ := .inl ⟨rfl, id⟩

/-- A canceled job may leave the queue. -/
theorem unready (hd : a.Canceled x) : Leaves S a (a.unready x) where
  now := le_refl _
  ready _ _ h := h.1
  due _ _ := rfl
  kept y _ := by
    by_cases hyx : y = x
    · exact .inr (hyx ▸ hd)
    · exact .inl ⟨rfl, fun h => ⟨h, hyx⟩⟩

theorem cancel (hs : j.state = .canceled) : Leaves S a (a.put j) where
  now := le_refl _
  ready _ _ h := h
  due _ _ := rfl
  kept y _ := by
    by_cases hy : y = j.id
    · exact .inr ⟨j, by rw [hy]; exact Function.update_self .., hs⟩
    · exact .inl ⟨Function.update_of_ne hy _ _, id⟩

end Leaves

end Distsched.Timing
