/-
Every handler pays its debts: begun with none, it ends with none.
-/
import Distsched.Concurrent.Wakeup

namespace Distsched.Concurrent

open Scheduler Prog

variable {g : Debts} {job : Job}

/-! ## Ends of attempts -/

/-- A cron job is re-armed; any other job stays in hand. -/
theorem waking_maybeRescheduleCron (ps : Cron) (now : Time) (hj : job.dependsOn ∈ g.deps job.id) :
    Waking (maybeRescheduleCron ps job now) g fun r g' => Later g g' ∧ (r.1 = false → r.2 = job ∧ g' = g) := by
  unfold maybeRescheduleCron
  split
  · exact ⟨Later.refl g, fun _ => ⟨rfl, rfl⟩⟩
  · split
    · exact ⟨Later.refl g, fun _ => ⟨rfl, rfl⟩⟩
    · refine (waking_rewrite ?_ ?_ ?_).bind ?_
      · exact hj
      · exact fun h => nomatch h
      · exact fun h => nomatch h
      rintro _ g₁ ⟨rfl, h₁, -⟩
      refine Meets.bind (waking_unowed .now trivial) ?_
      rintro t _ rfl
      exact Meets.bind (waking_armEnqueue _ _) fun _ g' h => ⟨h₁.trans h, fun h => nomatch h⟩

theorem waking_handleFailure (ps : Cron) (errMsg : String) (now : Time) (hj : job.dependsOn ∈ g.deps job.id)
    (hc : g.calls = ∅) : Waking (handleFailure ps job errMsg now) g fun _ g' => Later g g' := by
  unfold handleFailure
  dsimp only
  split
  · refine Meets.bind (waking_unowed .float64 trivial) ?_
    rintro draw g rfl
    refine Meets.bind (waking_rewrite ?_ ?_ ?_) ?_
    · exact hj
    · exact fun h => nomatch h
    · exact fun h => nomatch h
    rintro _ g₁ ⟨rfl, h₁, -⟩
    exact Meets.bind (waking_armEnqueue _ _) fun _ _ h => h₁.trans h
  · refine Meets.bind (waking_maybeRescheduleCron ps now hj) ?_
    rintro ⟨rescheduled, job'⟩ g' ⟨h', hfalse⟩
    cases rescheduled with
    | true => exact h'
    | false =>
      obtain ⟨he, rfl⟩ := hfalse rfl
      dsimp only at he
      subst he
      dsimp only
      rw [if_neg Bool.false_ne_true]
      refine Meets.bind (waking_unowed (.putDeadLetter _) trivial) ?_
      rintro r g rfl
      cases r with
      | error e => exact Later.refl g
      | ok u =>
        refine Meets.bind (waking_rewrite ?_ ?_ ?_) ?_
        · exact hj
        · exact fun h => nomatch h
        · exact fun h => nomatch h
        rintro _ g₁ ⟨rfl, h₁, hdone⟩
        refine Meets.bind (Q := fun _ g' => g' = g₁) ⟨hdone.past, fun _ _ => rfl⟩ ?_
        rintro _ _ rfl
        exact Meets.bind (waking_cancelCascade _ (h₁.calls_empty hc) hdone.stored) fun _ _ h => h₁.trans h.1

/-- A completion incurs the debt of a look at the dependents, and pays it. -/
theorem waking_reportSuccess (ps : Cron) (τ : String) (now : Time) (hj : job.dependsOn ∈ g.deps job.id) (hg : g.Clear) :
    Waking (reportSuccess ps τ job now) g fun _ g' => g'.Clear := by
  refine Meets.bind (waking_unowed (.removeLease τ) trivial) ?_
  rintro _ g rfl
  refine Meets.bind (waking_maybeRescheduleCron ps now hj) ?_
  rintro ⟨rescheduled, job'⟩ g' ⟨h', hfalse⟩
  cases rescheduled with
  | true => exact h'.clear hg
  | false =>
    obtain ⟨he, rfl⟩ := hfalse rfl
    dsimp only at he
    subst he
    have hput : g'.Accounts (completed job' now.ns) := .inr ⟨hj, fun h => nomatch h⟩
    refine Meets.bind (waking_putJob hput) ?_
    rintro _ _ ⟨rfl, rfl⟩
    refine Meets.bind (Q := fun _ g₁ => g₁ = g'.wrote (completed job' now.ns))
      ⟨.inr ⟨rfl, fun h => nomatch h⟩, fun _ _ => rfl⟩ ?_
    rintro _ _ rfl
    refine Meets.bind (waking_promoteDependents ps ?_ ?_ ?_) fun _ _ h => h
    · show g'.calls ∪ {x | x = job'.id ∧ _} ⊆ {job'.id}
      rw [hg.calls, Set.empty_union]
      exact fun x hx => hx.1
    · show g'.owes \ _ = ∅
      rw [hg.owes, Set.empty_sdiff]
    · exact hg.parking

theorem waking_reportTask (cfg : Config) (ps : Cron) (τ : String) (result : TaskResult) (error : String) (hg : g.Clear) :
    Waking (reportTask cfg ps τ result error) g fun _ g' => g'.Clear := by
  refine (meets_requireLeader cfg (silent_unowed trivial) (silent_unowed trivial)).bind ?_
  rintro denied g rfl
  cases denied with
  | some e => exact hg
  | none =>
    refine Meets.bind (waking_unowed (.getLease τ) trivial) ?_
    rintro lease g rfl
    cases lease with
    | none => exact hg
    | some l =>
      have hrelease : ∀ g : Debts, g.Clear → Waking (do removeLease τ; pure (.ok true : Except Status Bool)) g
          fun _ g' => g'.Clear :=
        fun g hg => Meets.bind (waking_unowed (.removeLease τ) trivial) fun _ _ h => h ▸ hg
      refine (waking_getJob l.jobID).bind ?_
      rintro r _ ⟨rfl, -⟩
      cases r with
      | error e => exact hrelease _ ((g.later_missed _).clear hg)
      | ok job =>
        have hread : (g.read job).Clear := (g.later_read job).clear hg
        dsimp only
        split
        · exact hrelease _ hread
        · refine Meets.bind (waking_unowed .now trivial) ?_
          rintro now _ rfl
          cases result with
          | unspecified => exact hread
          | succeeded => exact waking_reportSuccess ps τ now (g.dependsOn_found job) hread
          | failed =>
            refine Meets.bind (waking_handleFailure ps error now (g.dependsOn_found job) hread.calls) fun r g' h => ?_
            cases r with
            | error e => exact h.clear hread
            | ok u => exact hrelease g' (h.clear hread)

theorem waking_requeueLease (ps : Cron) (τ reason : String) (hg : g.Clear) :
    Waking (requeueLease ps τ reason) g fun _ g' => g'.Clear := by
  refine Meets.bind (waking_unowed (.getLease τ) trivial) ?_
  rintro lease g rfl
  cases lease with
  | none => exact hg
  | some l =>
    refine Meets.bind (waking_unowed (.removeLease τ) trivial) ?_
    rintro _ g rfl
    refine (waking_getJob l.jobID).bind ?_
    rintro r _ ⟨rfl, -⟩
    cases r with
    | error e => exact (g.later_missed _).clear hg
    | ok job =>
      have hread : (g.read job).Clear := (g.later_read job).clear hg
      dsimp only
      split
      · exact hread
      · refine Meets.bind (waking_unowed .now trivial) ?_
        rintro now _ rfl
        exact Meets.bind (waking_handleFailure ps reason now (g.dependsOn_found job) hread.calls) fun _ _ h =>
          h.clear hread

/-! ## Dispatch, submission and cancellation -/

theorem waking_newID (kind : String) : Waking (newID kind) g fun _ g' => Later g g' := by
  refine ⟨trivial, fun id _ => ?_⟩
  show Later g (if kind = "job" then { g with placing := some id } else g)
  split
  · exact ⟨fun _ => subset_rfl, subset_rfl, subset_rfl, subset_rfl, subset_rfl, rfl⟩
  · exact Later.refl g

theorem waking_pollLoop (cfg : Config) (w : String) (now : Int) (n : Nat) :
    ∀ (fuel : Nat) (out : List TaskAssignment) (g : Debts),
      Waking (pollLoop cfg w now n fuel out) g fun _ g' => Later g g'
  | 0, _, g => Later.refl g
  | fuel + 1, out, g => by
    unfold pollLoop
    split
    · refine Meets.bind (waking_unowed .pop trivial) ?_
      rintro popped g rfl
      cases popped with
      | none => exact Later.refl g
      | some x =>
        refine Meets.bind (waking_getJob x) ?_
        rintro r _ ⟨rfl, -⟩
        cases r with
        | error e => exact (waking_pollLoop cfg w now n fuel out _).mono fun _ _ h => (g.later_missed x).trans h
        | ok job =>
          have hread : Later g (g.read job) := g.later_read job
          dsimp only
          split
          · exact (waking_pollLoop cfg w now n fuel out _).mono fun _ _ h => hread.trans h
          · refine Meets.bind (waking_newID (g := g.read job) "task") fun τ g₁ h₁ => ?_
            refine Meets.bind (waking_rewrite ?_ ?_ ?_) ?_
            · exact h₁.deps _ (g.dependsOn_found job)
            · exact JobState.noConfusion
            · exact JobState.noConfusion
            rintro _ g₂ ⟨rfl, h₂, -⟩
            refine Meets.bind (waking_unowed (.addLease _) trivial) ?_
            rintro _ _ rfl
            exact (waking_pollLoop cfg w now n fuel _ _).mono fun _ _ h => hread.trans (h₁.trans (h₂.trans h))
    · exact Later.refl g

theorem waking_pollTask (cfg : Config) (w : String) (n : Int) : Waking (pollTask cfg w n) g fun _ g' => Later g g' := by
  refine (meets_requireLeader cfg (silent_unowed trivial) (silent_unowed trivial)).bind ?_
  rintro denied g rfl
  cases denied with
  | some e => exact Later.refl g
  | none =>
    refine Meets.bind (waking_unowed (.getCached w) trivial) ?_
    rintro cached g rfl
    cases cached with
    | none => exact Later.refl g
    | some _ =>
      refine Meets.bind (waking_unowed .now trivial) ?_
      rintro now g rfl
      refine Meets.bind (waking_unowed .queueBound trivial) ?_
      rintro bound g rfl
      exact Meets.bind (waking_pollLoop cfg w _ _ _ [] g) fun _ _ h => h

theorem waking_acceptJob (ps : Cron) (job : Job) (hp : g.placing = some job.id) (hg : g.Clear) :
    Waking (acceptJob ps job) g fun _ g' => g'.Clear := by
  have hcycle : Waking (formsCycle job) g fun _ g' => g' = g := by
    unfold formsCycle
    split
    · refine Meets.bind (waking_unowed .listJobs trivial) ?_
      rintro r g rfl
      cases r <;> exact rfl
    · exact rfl
  refine hcycle.bind ?_
  rintro cyclic g rfl
  cases cyclic with
  | true => exact hg
  | false =>
    refine Meets.bind (waking_unowed .now trivial) ?_
    rintro now g rfl
    refine Meets.bind (waking_placeNewJob ps _ ?_ hg) fun _ _ h => h
    exact hp

/-- What the handler of a submission may place, unless it draws the ID. -/
def owedBySubmit : Option Job → Debts
  | some job => { placing := if job.id = "" then none else some job.id }
  | none => {}

theorem clear_owedBySubmit (req : Option Job) : (owedBySubmit req).Clear := by cases req <;> exact ⟨rfl, rfl, rfl⟩

theorem waking_submitJob (cfg : Config) (ps : Cron) (req : Option Job) :
    Waking (submitJob cfg ps req) (owedBySubmit req) fun _ g' => g'.Clear := by
  refine (meets_requireLeader cfg (silent_unowed trivial) (silent_unowed trivial)).bind ?_
  rintro denied _ rfl
  cases denied with
  | some e => exact clear_owedBySubmit req
  | none =>
    cases req with
    | none => exact clear_owedBySubmit none
    | some job =>
      have hid : Waking (assignID job >>= acceptJob ps) (owedBySubmit (some job)) fun _ g' => g'.Clear := by
        unfold assignID owedBySubmit
        by_cases he : job.id = ""
        · simp only [if_pos he]
          rw [bind_assoc]
          refine Meets.bind (Q := fun id g' => g'.placing = some id ∧ g'.Clear) ?_ ?_
          · exact ⟨trivial, fun _ _ => ⟨rfl, rfl, rfl, rfl⟩⟩
          · rintro id g ⟨hp, hg⟩
            exact waking_acceptJob ps { job with id := id } hp hg
        · simp only [if_neg he]
          exact waking_acceptJob ps job rfl ⟨rfl, rfl, rfl⟩
      dsimp only
      split
      · exact clear_owedBySubmit (some job)
      · split
        · exact hid
        · refine Meets.bind (waking_unowed .now trivial) ?_
          rintro now _ rfl
          split
          · exact clear_owedBySubmit (some job)
          · exact hid

theorem waking_loadJob (x : String) : Waking (loadJob x) g fun r g' =>
    Later g g' ∧ ∀ j, r = .ok j → j.dependsOn ∈ g'.deps j.id := by
  unfold loadJob
  split
  · exact ⟨Later.refl g, fun _ h => nomatch h⟩
  · refine Meets.bind (waking_getJob x) ?_
    rintro r _ ⟨rfl, -⟩
    cases r with
    | error e => cases e <;> exact ⟨g.later_missed x, fun _ h => nomatch h⟩
    | ok job =>
      refine ⟨g.later_read job, ?_⟩
      rintro _ ⟨⟩
      exact g.dependsOn_found job

theorem waking_cancelJob (cfg : Config) (x : String) (hc : g.calls = ∅) :
    Waking (cancelJob cfg x) g fun _ g' => Later g g' := by
  refine (meets_requireLeader cfg (silent_unowed trivial) (silent_unowed trivial)).bind ?_
  rintro denied g rfl
  cases denied with
  | some e => exact Later.refl g
  | none =>
    refine (waking_loadJob x).bind ?_
    rintro r g₁ ⟨h₁, hr⟩
    cases r with
    | error e => exact h₁
    | ok job =>
      dsimp only
      split
      · exact h₁
      · split
        · exact h₁
        · refine Meets.bind (waking_unowed .now trivial) ?_
          rintro now g₁ rfl
          refine Meets.bind (waking_rewrite ?_ ?_ ?_) ?_
          · exact hr job rfl
          · exact fun h => nomatch h
          · exact fun h => nomatch h
          rintro _ g₂ ⟨rfl, h₂, hdone⟩
          refine Meets.bind (waking_unowed (.remove _) trivial) ?_
          rintro _ g₂ rfl
          have h : Later g g₂ := h₁.trans h₂
          exact Meets.bind (waking_cancelCascade _ (h.calls_empty hc) hdone.stored) fun _ _ h' => h.trans h'.1

/-! ## Requests -/

/-- What the handler of a request begins with. -/
def Request.debts : Request → Debts
  | .submitJob job => owedBySubmit job
  | _ => {}

theorem Request.clear_debts (r : Request) : r.debts.Clear := by
  cases r with
  | submitJob job => exact clear_owedBySubmit job
  | _ => exact ⟨rfl, rfl, rfl⟩

theorem waking_request (cfg : Config) (ps : Cron) (r : Request) :
    Waking (r.prog cfg ps) r.debts fun _ g' => g'.Clear := by
  have hg : r.debts.Clear := r.clear_debts
  cases r with
  | submitJob job => exact Meets.bind (waking_submitJob cfg ps job) fun _ _ h => h
  | cancelJob x => exact Meets.bind (waking_cancelJob cfg x hg.calls) fun _ _ h => h.clear hg
  | pollTask w n => exact Meets.bind (waking_pollTask cfg w n) fun _ _ h => h.clear hg
  | reportTask τ result error => exact Meets.bind (waking_reportTask cfg ps τ result error hg) fun _ _ h => h
  | requeueLease τ reason => exact Meets.bind (waking_requeueLease ps τ reason hg) fun _ _ h => h
  | tryPromote x => exact Meets.bind (waking_tryPromote ps x hg.calls) fun _ _ h => h.1.clear hg

end Distsched.Concurrent
