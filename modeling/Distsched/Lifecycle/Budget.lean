/-
The attempts of a job, over runs in which any store call may fail, any activity may be broken off and any ID may be
submitted again. A dispatch counts the attempt, and a failure compares the count with the policy; the record keeps within
the budget in every state between.
-/
import Distsched.Lifecycle.Entries

namespace Distsched.Lifecycle

open Scheduler Prog

variable {env : Env} {places : Table → String → Prop} {T T' : Table} {x : String} {j j₀ : Job}

theorem int32_of_lt {n : Int} (h₀ : 0 ≤ n) (h : n < 2 ^ 31) : int32 n = n := by
  unfold int32
  rw [Int.bmod_def]
  omega

/-! ## The budget of a record -/

/-- What the state of a record says of its attempts. -/
def Budget (j : Job) : Prop := match j.state with
  | .pending | .queued => 0 ≤ j.attempt ∧ j.attempt < Retry.maxAttempts j.retryPolicy
  | .running => 1 ≤ j.attempt ∧ j.attempt ≤ Retry.maxAttempts j.retryPolicy
  | .failed => j.cronExpr = "" → j.attempt = Retry.maxAttempts j.retryPolicy
  | _ => True

theorem Budget.waiting (h : Budget j) (hs : j.state = .pending ∨ j.state = .queued) :
    0 ≤ j.attempt ∧ j.attempt < Retry.maxAttempts j.retryPolicy := by
  unfold Budget at h
  rcases hs with hs | hs <;> rwa [hs] at h

theorem Budget.running (h : Budget j) (hs : j.state = .running) :
    1 ≤ j.attempt ∧ j.attempt ≤ Retry.maxAttempts j.retryPolicy := by
  unfold Budget at h
  rwa [hs] at h

theorem Budget.failed (h : Budget j) (hs : j.state = .failed) (hc : j.cronExpr = "") :
    j.attempt = Retry.maxAttempts j.retryPolicy := by
  unfold Budget at h
  rw [hs] at h
  exact h hc

/-- The next attempt of a QUEUED job is a 32-bit number. -/
theorem Budget.next_attempt (h : Budget j) (hs : j.state = .queued) : int32 (j.attempt + 1) = j.attempt + 1 := by
  obtain ⟨h₀, hlt⟩ := h.waiting (.inr hs)
  have := Retry.maxAttempts_lt j.retryPolicy
  exact int32_of_lt (by omega) (by omega)

theorem Budget.of_waiting (hs : j.state = .pending ∨ j.state = .queued) (h₀ : 0 ≤ j.attempt)
    (hlt : j.attempt < Retry.maxAttempts j.retryPolicy) : Budget j := by
  unfold Budget
  rcases hs with hs | hs <;> rw [hs] <;> exact ⟨h₀, hlt⟩

theorem Budget.of_settled (hs : j.state = .succeeded ∨ j.state = .canceled) : Budget j := by
  unfold Budget
  rcases hs with hs | hs <;> rw [hs] <;> trivial

/-- A revision keeps within the budget. -/
theorem Budget.revise (h : Budget j₀) (hr : Revision j₀ j) : Budget j := by
  have hpol := retryPolicy_of_plan hr.plan_eq
  cases hr with
  | promote hp _ hs ha =>
    obtain ⟨h₀, hlt⟩ := h.waiting (.inl hp)
    exact .of_waiting (.inr hs) (by omega) (by rw [hpol]; omega)
  | dispatch w now hq =>
    obtain ⟨h₀, hlt⟩ := h.waiting (.inr hq)
    show 1 ≤ int32 (j₀.attempt + 1) ∧ int32 (j₀.attempt + 1) ≤ Retry.maxAttempts j₀.retryPolicy
    rw [h.next_attempt hq]
    omega
  | retry hrun hlt _ hs ha =>
    obtain ⟨h₁, _⟩ := h.running hrun
    exact .of_waiting (.inr hs) (by omega) (by rw [hpol]; omega)
  | rearm _ _ _ hs ha =>
    have := Retry.one_le_maxAttempts j.retryPolicy
    exact .of_waiting (.inr hs) (by omega) (by omega)
  | succeed _ _ hs => exact .of_settled (.inl hs)
  | bury hrun hle hp hs ha =>
    obtain ⟨_, hmax⟩ := h.running hrun
    have hcron := cronExpr_of_plan hp
    unfold Budget
    rw [hs]
    intro hc
    rcases ha with ha | ha
    · rw [hpol]
      omega
    · exact absurd (hcron.symm.trans hc) ha
  | cancel _ _ hs => exact .of_settled (.inr hs)

/-- A submission begins its budget anew. -/
theorem Budget.place (ha : j.attempt = 0) (hs : j.state = .pending ∨ j.state = .canceled ∨ j.state = .queued) :
    Budget j := by
  have := Retry.one_le_maxAttempts j.retryPolicy
  rcases hs with hs | hs | hs
  · exact .of_waiting (.inl hs) (by omega) (by omega)
  · exact .of_settled (.inr hs)
  · exact .of_waiting (.inr hs) (by omega) (by omega)

/-- Every record is within its budget. -/
def Budgeted (T : Table) : Prop := ∀ x j, T x = some j → Budget j

theorem Budgeted.update (h : Budgeted T) (hj : Budget j) : Budgeted (Function.update T x (some j)) := by
  intro y j' hj'
  rw [Function.update_apply] at hj'
  split at hj'
  · cases hj'
    exact hj
  · exact h y j' hj'

theorem Budgeted.entry (h : Budgeted T) (he : Entry places T T') : Budgeted T' := by
  cases he with
  | revise hj hr => exact h.update ((h _ _ hj).revise hr)
  | place _ ha hs => exact h.update (.place ha hs)

theorem Budgeted.entries (h : Budgeted T) (he : Entries places T T') : Budgeted T' := by
  induction he with
  | refl => exact h
  | tail _ hw ih => exact ih.entry hw

theorem budgeted_of_runs {ps : Cron} {ok : Server → Event → Prop} {node : Cluster.Node} {s : Server}
    (h : Runs env ps ok (started env ps .empty node) s) : Budgeted (table s) := by
  have hempty : Budgeted (table (.off .empty 0 0)) := by
    intro x j hx
    replace hx : Bucket.empty.get x = some j := hx
    rw [Bucket.get_empty] at hx
    cases hx
  have hstart : Entries (fun _ _ => True) (table (.off .empty 0 0)) (table (started env ps .empty node)) :=
    restart_entries node _
  have hrun : Entries (fun _ _ => True) (table (started env ps .empty node)) (table s) :=
    runs_entries (fun _ _ _ _ _ => trivial) h
  exact (hempty.entries hstart).entries hrun

/-! ## The assignments of a poll -/

/-- The assignments `as` are handed out one after the other, each to a job that is QUEUED then. -/
inductive Hands : Table → List TaskAssignment → Table → Prop
  | nil {T : Table} : Hands T [] T
  | cons {T T' : Table} {j : Job} {a : TaskAssignment} {as : List TaskAssignment} (w : String) (now : Int)
    (hj : T j.id = some j) (hs : j.state = .queued) (hid : a.jobId = j.id)
    (ha : a.attempt = int32 (j.attempt + 1))
    (hrest : Hands (Function.update T j.id (some (dispatched j w now))) as T') : Hands T (a :: as) T'

theorem sat_getJob (id : String) (s : Server) : Sat (handle env) (Db.getJob id) s fun r s' =>
    table s' = table s ∧ ∀ j, r = .ok j → table s id = some j ∧ j.id = id := by
  refine (getJob_reads id s).mono ?_
  rintro _ _ ⟨hr, rfl⟩
  refine ⟨rfl, ?_⟩
  rintro j rfl
  cases hr with
  | found _ hj => exact ⟨hj, Bucket.get_id hj⟩

theorem sat_putJob (j : Job) (s : Server) : Sat (handle env) (putJob j) s fun r s' =>
    (r = .ok () ∧ table s' = Function.update (table s) j.id (some j)) ∨ ((∃ e, r = .error e) ∧ table s' = table s) := by
  refine (putJob_writes j s).mono fun r s' h => ?_
  cases h with
  | @failed e => exact .inr ⟨⟨e, rfl⟩, rfl⟩
  | stored _ hs =>
    rw [hs]
    exact .inl ⟨rfl, table_put s j⟩

theorem hands_pollLoop (cfg : Config) (w : String) (now : Int) (n : Nat) :
    ∀ (fuel : Nat) (out : List TaskAssignment) (s : Server), Sat (handle env) (pollLoop cfg w now n fuel out) s
      fun out' s' => ∃ as, out' = out ++ as ∧ Hands (table s) as (table s')
  | 0, out, s => ⟨[], (List.append_nil out).symm, .nil⟩
  | fuel + 1, out, s => by
    have hstop : ∀ s' : Server, table s' = table s →
        ∃ as, out = out ++ as ∧ Hands (table s) as (table s') := fun s' hs' =>
      ⟨[], (List.append_nil out).symm, hs' ▸ .nil⟩
    have hagain : ∀ s' : Server, table s' = table s → Sat (handle env) (pollLoop cfg w now n fuel out) s'
        fun out' s'' => ∃ as, out' = out ++ as ∧ Hands (table s) as (table s'') := fun s' hs' =>
      hs' ▸ hands_pollLoop cfg w now n fuel out s'
    unfold pollLoop
    split
    · refine Sat.bind (Q := fun _ s' => table s' = table s) rfl ?_
      intro popped s₁ h₁
      cases popped with
      | none => exact hstop s₁ h₁
      | some x =>
        refine (sat_getJob x s₁).bind ?_
        rintro r s₂ ⟨h₂, hr⟩
        rw [h₁] at h₂ hr
        cases r with
        | error e => exact hagain s₂ h₂
        | ok j =>
          obtain ⟨hj, rfl⟩ := hr j rfl
          dsimp only
          split
          · exact hagain s₂ h₂
          · rename_i hq
            rw [ne_eq, not_not] at hq
            refine Sat.bind (Q := fun _ s' => table s' = table s) h₂ ?_
            intro τ s₃ h₃
            refine (sat_putJob _ s₃).bind ?_
            rintro r s₄ (⟨rfl, h₄⟩ | ⟨⟨e, rfl⟩, h₄⟩)
            · rw [h₃] at h₄
              refine Sat.bind (Q := fun _ s' => table s' = table s₄) rfl ?_
              intro _ s₅ h₅
              refine (hands_pollLoop cfg w now n fuel _ s₅).mono ?_
              rintro out' s' ⟨as, rfl, has⟩
              rw [h₅, h₄] at has
              exact ⟨_ :: as, by rw [List.append_assoc]; rfl, .cons w now hj hq rfl rfl has⟩
            · exact Sat.bind (Q := fun _ s' => table s' = table s) (h₄.trans h₃) fun _ s₅ h₅ => hstop s₅ h₅
    · exact hstop s rfl

/-- A poll hands out what it answers. -/
theorem hands_pollTask (cfg : Config) (w : String) (n : Int) (s : Server) :
    Sat (handle env) (pollTask cfg w n) s fun r s' => ∀ out, r = .ok out → Hands (table s) out (table s') := by
  have hlead : Sat (handle env) (requireLeader cfg) s fun _ s' => table s' = table s := by
    refine (requireLeader_frame cfg s).mono ?_
    rintro _ _ ⟨_, rfl⟩
    rfl
  refine hlead.bind fun denied s₁ h₁ => ?_
  cases denied with
  | some e => exact fun _ h => nomatch h
  | none =>
    refine Sat.bind (Q := fun _ s' => table s' = table s) h₁ fun cached s₂ h₂ => ?_
    cases cached with
    | none => exact fun _ h => nomatch h
    | some _ =>
      refine Sat.bind (Q := fun _ s' => table s' = table s) h₂ fun now s₃ h₃ => ?_
      refine Sat.bind (Q := fun _ s' => table s' = table s) h₃ fun bound s₄ h₄ => ?_
      refine (hands_pollLoop cfg w now.ns _ _ [] s₄).bind ?_
      rintro out s' ⟨as, rfl, has⟩ _ ⟨⟩
      rw [h₄] at has
      exact has

theorem Hands.other {as : List TaskAssignment} (h : Hands T as T') (hx : ∀ a ∈ as, a.jobId ≠ x) : T' x = T x := by
  induction h with
  | nil => rfl
  | @cons T T' j a as w now _ _ hid _ _ ih =>
    rw [ih fun a' ha' => hx a' (List.mem_cons_of_mem _ ha'), Function.update_of_ne]
    rintro rfl
    exact hx a (List.mem_cons_self ..) hid

/-- What an assignment says of the record before the poll and after it. -/
structure Handed (T T' : Table) (a : TaskAssignment) : Prop where
  before : ∃ j, T a.jobId = some j ∧ j.state = .queued ∧ a.attempt = int32 (j.attempt + 1)
  after : ∃ j, T' a.jobId = some j ∧ j.attempt = a.attempt

/-- A poll assigns a job at most once: it is RUNNING from then on. -/
theorem Hands.handed {as : List TaskAssignment} (h : Hands T as T') :
    (∀ a ∈ as, Handed T T' a) ∧ as.Pairwise fun a a' => a.jobId ≠ a'.jobId := by
  induction h with
  | nil => exact ⟨by simp, .nil⟩
  | @cons T T' j a as w now hj hs hid ha hrest ih =>
    obtain ⟨hall, hpair⟩ := ih
    have hne : ∀ a' ∈ as, a'.jobId ≠ j.id := by
      intro a' ha' he
      obtain ⟨j', hj', hs', _⟩ := (hall a' ha').before
      rw [he, Function.update_self] at hj'
      cases hj'
      cases hs'
    refine ⟨fun a' ha' => ?_, List.pairwise_cons.2 ⟨fun a' ha' he => hne a' ha' (he.symm.trans hid), hpair⟩⟩
    rcases List.mem_cons.1 ha' with rfl | ha'
    · refine ⟨⟨j, by rw [hid]; exact hj, hs, ha⟩, dispatched j w now, ?_, ha.symm⟩
      rw [hrest.other fun a' ha' => hid ▸ hne a' ha', hid, Function.update_self]
    · obtain ⟨j', hj', hrest'⟩ := (hall a' ha').before
      rw [Function.update_of_ne (hne a' ha')] at hj'
      exact ⟨⟨j', hj', hrest'⟩, (hall a' ha').after⟩

/-! ## The assignments of a run -/

/-- The assignments an event hands to a worker. A poll broken off by a crash hands out none. -/
def issued (env : Env) (s : Server) : Event → List TaskAssignment
  | .call (.pollTask w n) => match (exec (handle env) (pollTask env.cfg w n) s).1 with
    | .ok out => out
    | .error _ => []
  | _ => []

/-- The states of the runs from `s₀`, each with the assignments issued on the way. -/
inductive Issues (env : Env) (ps : Cron) (ok : Server → Event → Prop) (s₀ : Server) :
    Server → List TaskAssignment → Prop
  | refl : Issues env ps ok s₀ s₀ []
  | step {s s' : Server} {out : List TaskAssignment} {ev : Event} : Issues env ps ok s₀ s out → ok s ev →
    step env ps s ev = some s' → Issues env ps ok s₀ s' (out ++ issued env s ev)

/-- The event is no submission under the ID `x`. -/
def SparesID (x : String) (env : Env) (s : Server) (ev : Event) : Prop :=
  ∀ job, ev.activity = .submitJob (some job) → submitID env s.minted job ≠ x

theorem issued_handed {ps : Cron} {s s' : Server} {ev : Event} (h : step env ps s ev = some s') :
    (∀ a ∈ issued env s ev, Handed (table s) (table s') a) ∧
      (issued env s ev).Pairwise fun a a' => a.jobId ≠ a'.jobId := by
  have hnone : (∀ a ∈ ([] : List TaskAssignment), Handed (table s) (table s') a) ∧
      ([] : List TaskAssignment).Pairwise fun a a' => a.jobId ≠ a'.jobId := ⟨by simp, .nil⟩
  cases ev with
  | crash => exact hnone
  | call c =>
    cases c with
    | pollTask w n =>
      obtain rfl : after env ps s (.pollTask w n) = s' := Option.some.inj h
      have hafter : table (after env ps s (.pollTask w n)) = table (exec (handle env) (pollTask env.cfg w n) s).2 := by
        unfold after Call.prog
        rw [exec_bind]
        rfl
      have hands : ∀ out, (exec (handle env) (pollTask env.cfg w n) s).1 = .ok out →
          Hands (table s) out (table (exec (handle env) (pollTask env.cfg w n) s).2) := hands_pollTask env.cfg w n s
      simp only [issued]
      rw [hafter]
      cases hr : (exec (handle env) (pollTask env.cfg w n) s).1 with
      | error e => exact ⟨by simp, .nil⟩
      | ok out => exact (hands out hr).handed
    | _ => exact hnone

/-- Without a submission, a job that is not a cron job loses no attempt. -/
theorem Entry.climbs (h : Entry (fun _ y => y ≠ x) T T') (hb : Budgeted T) (hj : T x = some j₀) (hc : j₀.cronExpr = "") :
    ∃ j, T' x = some j ∧ j.cronExpr = "" ∧ j₀.attempt ≤ j.attempt := by
  cases h with
  | place hp =>
    rw [Function.update_of_ne (Ne.symm hp)]
    exact ⟨j₀, hj, hc, le_refl _⟩
  | @revise j₁ j hj₁ hr =>
    by_cases hx : x = j.id
    · subst hx
      cases hj.symm.trans hj₁
      refine ⟨j, Function.update_self .., (cronExpr_of_plan hr.plan_eq).trans hc, ?_⟩
      cases hr with
      | promote _ _ _ ha | retry _ _ _ _ ha | cancel _ _ _ ha => omega
      | dispatch w now hq =>
        show j₀.attempt ≤ int32 (j₀.attempt + 1)
        rw [(hb _ _ hj).next_attempt hq]
        omega
      | rearm _ hcron => exact absurd hc hcron
      | succeed _ _ _ ha | bury _ _ _ _ ha =>
        rcases ha with ha | hcron
        · omega
        · exact absurd hc hcron
    · rw [Function.update_of_ne hx]
      exact ⟨j₀, hj, hc, le_refl _⟩

theorem Entries.climbs (h : Entries (fun _ y => y ≠ x) T T') (hb : Budgeted T) (hj : T x = some j₀)
    (hc : j₀.cronExpr = "") : ∃ j, T' x = some j ∧ j.cronExpr = "" ∧ j₀.attempt ≤ j.attempt := by
  induction h with
  | refl => exact ⟨j₀, hj, hc, le_refl _⟩
  | tail hw he ih =>
    obtain ⟨j₁, hj₁, hc₁, hle₁⟩ := ih
    obtain ⟨j₂, hj₂, hc₂, hle₂⟩ := he.climbs (hb.entries hw) hj₁ hc₁
    exact ⟨j₂, hj₂, hc₂, hle₁.trans hle₂⟩

theorem Entries.absent (h : Entries (fun _ y => y ≠ x) T T') (hx : T x = none) : T' x = none := by
  induction h with
  | refl => exact hx
  | tail _ he ih =>
    cases he with
    | place hp => rw [Function.update_of_ne (Ne.symm hp), ih]
    | @revise j₁ j hj₁ =>
      rw [Function.update_of_ne, ih]
      rintro rfl
      rw [ih] at hj₁
      cases hj₁

/-- What a run without a submission under `x` keeps of the job and of the assignments issued. -/
structure Increasing (x : String) (s : Server) (out : List TaskAssignment) : Prop where
  budgeted : Budgeted (table s)
  plain : ∀ j, table s x = some j → j.cronExpr = ""
  bound : ∀ a ∈ out, a.jobId = x → ∃ j, table s x = some j ∧ a.attempt ≤ j.attempt
  sorted : (out.filter fun a => a.jobId = x).Pairwise fun a a' => a.attempt < a'.attempt

theorem Increasing.step {ps : Cron} {s s' : Server} {out : List TaskAssignment} {ev : Event} (h : Increasing x s out)
    (hev : SparesID x env s ev) (hstep : step env ps s ev = some s') : Increasing x s' (out ++ issued env s ev) := by
  have he : Entries (fun _ y => y ≠ x) (table s) (table s') := step_entries hev hstep
  obtain ⟨hall, hpair⟩ := issued_handed hstep
  refine ⟨h.budgeted.entries he, fun j hj => ?_, fun a ha hax => ?_, ?_⟩
  · cases hold : table s x with
    | none =>
      rw [he.absent hold] at hj
      cases hj
    | some j₀ =>
      obtain ⟨j', hj', hc, _⟩ := he.climbs h.budgeted hold (h.plain j₀ hold)
      cases hj.symm.trans hj'
      exact hc
  · rcases List.mem_append.1 ha with ha | ha
    · obtain ⟨j₀, hj₀, hle⟩ := h.bound a ha hax
      obtain ⟨j, hj, _, hle'⟩ := he.climbs h.budgeted hj₀ (h.plain j₀ hj₀)
      exact ⟨j, hj, hle.trans hle'⟩
    · obtain ⟨j, hj, hatt⟩ := (hall a ha).after
      exact ⟨j, hax ▸ hj, hatt.ge⟩
  · rw [List.filter_append, List.pairwise_append]
    refine ⟨h.sorted, ?_, fun a ha a' ha' => ?_⟩
    · -- a poll assigns `x` at most once
      refine List.Pairwise.imp_of_mem (fun {a a'} ha ha' hne => ?_) (hpair.filter _)
      simp only [List.mem_filter, decide_eq_true_eq] at ha ha'
      exact absurd (ha.2.trans ha'.2.symm) hne
    · simp only [List.mem_filter, decide_eq_true_eq] at ha ha'
      obtain ⟨j, hj, hle⟩ := h.bound a ha.1 ha.2
      obtain ⟨j', hj', hq, hatt⟩ := (hall a' ha'.1).before
      rw [ha'.2, hj] at hj'
      cases hj'
      rw [(h.budgeted x j hj).next_attempt hq] at hatt
      omega

theorem Increasing.issues {ps : Cron} {s s' : Server} {out : List TaskAssignment} (h : Increasing x s [])
    (hi : Issues env ps (SparesID x env) s s' out) : Increasing x s' out := by
  induction hi with
  | refl => exact h
  | step _ hev hstep ih => exact ih.step hev hstep

/-- In every state of a run, a job has attempts left while it waits and at most its last one while it runs, has used up
its attempts if it FAILED (unless it is a cron job), and counts its next attempt without wrapping; and from there on, as
long as no submission takes its ID, a job that is not a cron job is assigned with increasing attempt numbers. -/
theorem attempt_budget {ps : Cron} {node : Cluster.Node} {s : Server}
    (h : Runs env ps (fun _ _ => True) (started env ps .empty node) s) :
    (∀ x j, s.store.jobs.get x = some j →
      (j.state = .pending ∨ j.state = .queued → j.attempt < Retry.maxAttempts j.retryPolicy) ∧
      (j.state = .running → 1 ≤ j.attempt ∧ j.attempt ≤ Retry.maxAttempts j.retryPolicy) ∧
      (j.state = .failed → j.cronExpr = "" → j.attempt = Retry.maxAttempts j.retryPolicy) ∧
      (j.state = .queued → int32 (j.attempt + 1) = j.attempt + 1)) ∧
    ∀ x s' out, (∀ j, s.store.jobs.get x = some j → j.cronExpr = "") → Issues env ps (SparesID x env) s s' out →
      (out.filter fun a => a.jobId = x).Pairwise fun a a' => a.attempt < a'.attempt := by
  have hb := budgeted_of_runs h
  refine ⟨fun x j hj => ?_, fun x s' out hc hi => ?_⟩
  · have hj := hb x j hj
    exact ⟨fun hs => (hj.waiting hs).2, hj.running, hj.failed, hj.next_attempt⟩
  · have hstart : Increasing x s [] := ⟨hb, hc, by simp, .nil⟩
    exact (hstart.issues hi).sorted

/-- The assignments that activities issue one after the other. -/
def assigned (env : Env) (ps : Cron) : Server → List Call → List TaskAssignment
  | _, [] => []
  | s, c :: cs => issued env s (.call c) ++ assigned env ps (after env ps s c) cs

theorem Issues.calls {ps : Cron} {s₀ : Server} {cs : List Call} (hno : ∀ job, Call.submitJob (some job) ∉ cs) :
    ∀ {s : Server} {out : List TaskAssignment}, Issues env ps (SparesID x env) s₀ s out → enabledAll env ps s cs = true →
      Issues env ps (SparesID x env) s₀ (cs.foldl (after env ps) s) (out ++ assigned env ps s cs) := by
  induction cs with
  | nil =>
    intro s out h _
    rwa [assigned, List.append_nil]
  | cons c cs ih =>
    intro s out h hen
    obtain ⟨hc, hen⟩ := Bool.and_eq_true_iff.1 hen
    have hspares : SparesID x env s (.call c) := by
      rintro job rfl
      exact absurd (List.mem_cons_self ..) (hno job)
    have hrest := ih (fun job hjob => hno job (List.mem_cons_of_mem _ hjob)) (h.step hspares (if_pos hc)) hen
    rwa [List.append_assoc] at hrest

/-- The job is handed out, reported failed and handed out again. -/
def handOutTwice : List Call :=
  [.pollTask "w" 1, .reportTask "task-" .failed "exit status 1", .timer "a", .pollTask "w" 1]

theorem attempt_budget_retried :
    (∃ j, polled.store.jobs.get "a" = some j ∧ j.state = .running ∧ 1 ≤ j.attempt ∧
      j.attempt ≤ Retry.maxAttempts j.retryPolicy) ∧
    ∃ a a', assigned .steady noCron lodged handOutTwice = [a, a'] ∧ a.jobId = "a" ∧ a'.jobId = "a" ∧ a.attempt < a'.attempt := by
  have hlodged : Runs .steady noCron (fun _ _ => True) (started .steady noCron .empty leading) lodged :=
    (Runs.refl.call trivial rfl).call trivial rfl
  have hpolled : Runs .steady noCron (fun _ _ => True) (started .steady noCron .empty leading) polled :=
    hlodged.call trivial rfl
  constructor
  · have hstate : (polled.store.jobs.get "a").map Job.state = some .running := by decide +kernel
    obtain ⟨j, hj, hs⟩ := Option.map_eq_some_iff.1 hstate
    exact ⟨j, hj, hs, ((attempt_budget hpolled).1 "a" j hj).2.1 hs⟩
  · have hids : (assigned .steady noCron lodged handOutTwice).map TaskAssignment.jobId = ["a", "a"] := by decide +kernel
    obtain ⟨a, as, hall, ha, has⟩ := List.map_eq_cons_iff.1 hids
    obtain ⟨a', as', rfl, ha', hnil⟩ := List.map_eq_cons_iff.1 has
    obtain rfl := List.map_eq_nil_iff.1 hnil
    have hplain : (lodged.store.jobs.get "a").map Job.cronExpr = some "" := by decide +kernel
    have hcron : ∀ j, lodged.store.jobs.get "a" = some j → j.cronExpr = "" := by
      intro j hj
      rw [hj] at hplain
      exact Option.some.inj hplain
    have hissues : Issues .steady noCron (SparesID "a" .steady) lodged (handOutTwice.foldl (after .steady noCron) lodged)
        ([] ++ assigned .steady noCron lodged handOutTwice) := Issues.refl.calls (by simp [handOutTwice]) (by decide +kernel)
    have hsorted := (attempt_budget hlodged).2 "a" _ _ hcron hissues
    rw [List.nil_append, hall] at hsorted
    simp only [ha, ha', decide_true, List.filter_cons_of_pos, List.filter_nil] at hsorted
    exact ⟨a, a', hall, ha, ha', (List.pairwise_cons.1 hsorted).1 a' (List.mem_cons_self ..)⟩

end Distsched.Lifecycle
