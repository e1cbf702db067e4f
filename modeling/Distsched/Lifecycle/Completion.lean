/-
Which jobs can still be completed. A job that has passed its dependencies is queued, armed or leased, so timers, polls and
reports bring it to its end; a job that waits does so on one that has not succeeded, and is promoted with the last of
these. So the jobs that can be completed without a further submission are those whose unfinished dependencies can, down
to jobs that are QUEUED or RUNNING, and workers that do their work complete them, as long as time goes on: a timer fires
only when it is due.
-/
import Distsched.Lifecycle.Cron
import Distsched.Lifecycle.Cull
import Distsched.Lifecycle.Order
import Distsched.Lifecycle.Outcomes
import Mathlib.Data.Int.ConditionallyCompleteOrder
import Mathlib.Order.ConditionallyCompleteLattice.Indexed
import Mathlib.Order.Lattice.Nat

namespace Distsched.Lifecycle

open Scheduler Prog

variable {env : Env} {ps : Cron} {T T' T₀ : Table} {s s' : Server} {x : String}

/-- SUCCEEDED, or not a cron job and QUEUED, RUNNING, or PENDING on jobs that can be completed. -/
inductive Completable (ps : Cron) (T : Table) : String → Prop
  | succeeded {x : String} {j : Job} (hj : T x = some j) (hs : j.state = .succeeded) : Completable ps T x
  | active {x : String} {j : Job} (hj : T x = some j) (hs : j.state = .queued ∨ j.state = .running) (hc : ¬ Recurs ps j) :
    Completable ps T x
  | pending {x : String} {j : Job} (hj : T x = some j) (hs : j.state = .pending) (hc : ¬ Recurs ps j)
    (hdeps : ∀ d ∈ j.dependsOn, Completable ps T d) : Completable ps T x

theorem Completable.not_broken {j : Job} (h : Completable ps T x) (hj : T x = some j) : ¬ Broken j.state := by
  have hlive : j.state = .succeeded ∨ (j.state = .queued ∨ j.state = .running) ∨ j.state = .pending := by
    cases h with
    | succeeded hj' hs => cases hj.symm.trans hj'; exact .inl hs
    | active hj' hs => cases hj.symm.trans hj'; exact .inr (.inl hs)
    | pending hj' hs => cases hj.symm.trans hj'; exact .inr (.inr hs)
  rintro (hb | hb) <;> rw [hb] at hlive <;> simp at hlive

theorem Completable.not_recurs {j : Job} (h : Completable ps T x) (hj : T x = some j) (hs : j.state ≠ .succeeded) :
    ¬ Recurs ps j := by
  cases h with
  | succeeded hj' hs' =>
    cases hj.symm.trans hj'
    exact absurd hs' hs
  | active hj' _ hc | pending hj' _ hc =>
    cases hj.symm.trans hj'
    exact hc

/-- `x` is stored SUCCEEDED. -/
def Done (T : Table) (x : String) : Prop := ∃ j, T x = some j ∧ j.state = .succeeded

theorem recurs_iff_of_plan {j j₀ : Job} (h : plan j = plan j₀) : Recurs ps j ↔ Recurs ps j₀ :=
  ⟨recurs_of_plan h.symm, recurs_of_plan h⟩

/-! ## Without submissions -/

/-- Nothing is submitted. -/
def Barred (_ : Option Job) : Prop := False

theorem Barred.unfinished : ∀ o, Barred o → Unfinished o := fun _ h => h.elim

/-- Where a record comes from when nothing is submitted. -/
theorem Write.origin (h : Write Barred T T') {j : Job} (hj : T' x = some j) : T x = some j ∨
    ∃ j₀, T x = some j₀ ∧ Revision j₀ j ∧ (j₀.state = .pending → j.state = .queued → T.Satisfies j) := by
  cases h with
  | place hf => exact hf.elim
  | @revise j₀ j' h₀ hr hm =>
    rw [Function.update_apply] at hj
    split at hj
    · rename_i hx
      cases hj
      exact .inr ⟨j₀, hx ▸ h₀, hr, hm⟩
    · exact .inl hj

/-- A job that is PENDING has been so all along. -/
theorem Writes.of_pending (h : Writes Barred T T') {j : Job} (hj : T' x = some j) (hs : j.state = .pending) :
    T x = some j := by
  induction h with
  | refl => exact hj
  | tail _ hw ih =>
    rcases hw.origin hj with hj | ⟨j₀, _, hr, _⟩
    · exact ih hj
    · cases hr with
      | dispatch => cases hs
      | promote _ _ h | retry _ _ _ h | rearm _ _ _ h | succeed _ _ h | bury _ _ _ h | cancel _ _ h =>
        rw [h] at hs
        cases hs

/-- A record keeps what its submission fixed. -/
theorem Writes.plan_eq (h : Writes Barred T T') {j' : Job} (hj' : T' x = some j') : ∃ j, T x = some j ∧ plan j' = plan j := by
  induction h generalizing j' with
  | refl => exact ⟨j', hj', rfl⟩
  | tail _ hw ih =>
    rcases hw.origin hj' with hj | ⟨j₀, hj₀, hr, _⟩
    · exact ih hj
    · obtain ⟨j, hj, hp⟩ := ih hj₀
      exact ⟨j, hj, hr.plan_eq.trans hp⟩

/-- A stored job stays stored. -/
theorem Writes.stored (h : Writes Barred T T') {j : Job} (hj : T x = some j) : ∃ j', T' x = some j' := by
  induction h with
  | refl => exact ⟨j, hj⟩
  | tail _ hw ih =>
    obtain ⟨j₁, hj₁⟩ := ih
    cases hw with
    | place hf => exact hf.elim
    | revise =>
      rw [Function.update_apply]
      split
      · exact ⟨_, rfl⟩
      · exact ⟨j₁, hj₁⟩

/-- A record that is written anew is not PENDING. -/
theorem Writes.revised (h : Writes Barred T T') {j : Job} (hj : T' x = some j) : T x = some j ∨
    (j.state = .queued ∨ j.state = .running) ∨ j.state = .succeeded ∨ Broken j.state := by
  induction h with
  | refl => exact .inl hj
  | tail _ hw ih =>
    rcases hw.origin hj with hj | ⟨j₀, _, hr, _⟩
    · exact ih hj
    · right
      cases hr with
      | promote _ _ h | retry _ _ _ h | rearm _ _ _ h => exact .inl (.inl h)
      | dispatch => exact .inl (.inr rfl)
      | succeed _ _ h => exact .inr (.inl h)
      | bury _ _ _ h => exact .inr (.inr (.inl h))
      | cancel _ _ h => exact .inr (.inr (.inr h))

/-- A job that has come past its dependencies, and is not a cron job, could be completed at the start. -/
theorem completable_of_writes (h : Writes Barred T₀ T)
    (hends : ∀ x j, T x = some j → Recurs ps j → Concluded j.state → T₀ x = some j) {j : Job} (hj : T x = some j)
    (hs : j.state = .succeeded ∨ ((j.state = .queued ∨ j.state = .running) ∧ ¬ Recurs ps j)) : Completable ps T₀ x := by
  induction h generalizing x j with
  | refl =>
    rcases hs with hs | ⟨hs, hc⟩
    · exact .succeeded hj hs
    · exact .active hj hs hc
  | @tail T T' hT hw ih =>
    have hends' : ∀ x j, T x = some j → Recurs ps j → Concluded j.state → T₀ x = some j := by
      intro x j hj hrec hc
      refine hends x j (hw.final Barred.unfinished hj ?_) hrec hc
      rcases hc with hc | hc <;> rw [hc] <;> rfl
    rcases hw.origin hj with hj₀ | ⟨j₀, hj₀, hr, hm⟩
    · exact ih hends' hj₀ hs
    · have hrec : Recurs ps j ↔ Recurs ps j₀ := recurs_iff_of_plan hr.plan_eq
      -- a record that is not RUNNING any more after an attempt was RUNNING before
      have hrunning : j₀.state = .running → ¬ Recurs ps j → Completable ps T₀ x := by
        intro h₀ hc
        exact ih hends' hj₀ (.inr ⟨.inr h₀, fun h => hc (hrec.2 h)⟩)
      have hopen : j.state = .queued ∨ j.state = .running → ¬ Recurs ps j := by
        intro hopen
        rcases hs with hs | ⟨_, hc⟩
        · rw [hs] at hopen
          rcases hopen with h | h <;> cases h
        · exact hc
      cases hr with
      | promote h₀ hp hq =>
        have hc := hopen (.inl hq)
        refine .pending (Writes.of_pending hT hj₀ h₀) h₀ (fun h => hc (hrec.2 h)) fun d hd => ?_
        obtain ⟨jd, hjd, hsd⟩ := hm h₀ hq d (dependsOn_of_plan hp ▸ hd)
        exact ih hends' hjd (.inl hsd)
      | dispatch w now h₀ => exact ih hends' hj₀ (.inr ⟨.inl h₀, fun h => hopen (.inr rfl) (hrec.2 h)⟩)
      | retry h₀ _ _ hq => exact hrunning h₀ (hopen (.inl hq))
      | rearm h₀ _ _ hq => exact hrunning h₀ (hopen (.inl hq))
      | succeed h₀ _ hq =>
        refine hrunning h₀ fun hrec => ?_
        have hold := hends x j hj hrec (.inl hq)
        have hstill := Writes.final Barred.unfinished hT hold (by rw [hq]; rfl)
        rw [hj₀] at hstill
        cases hstill
        rw [h₀] at hq
        cases hq
      | bury _ _ _ hq => rw [hq] at hs; rcases hs with h | ⟨h | h, _⟩ <;> cases h
      | cancel _ _ hq => rw [hq] at hs; rcases hs with h | ⟨h | h, _⟩ <;> cases h

/-! ## While the store works, no cron job ends -/

theorem lost_reliable (hr : env.Reliable) (e : Op × Server) : lost env e = none := by
  unfold lost
  split
  · rw [hr, if_neg]
    rintro ⟨_, ⟨⟩⟩
  · rfl

theorem honours_endsNone (hr : env.Reliable) :
    Honours (handle env) (conduct ps) (fun g _ => g.lost = none) (EndsNone ps) where
  refl := EndsNone.refl
  trans := EndsNone.trans
  step op g s hg hp := by
    have hlasts : Lasts env (.now, s) (op, s) := fun _ hx => nomatch hx
    obtain ⟨hrecent, hends⟩ := (Recent.of_none hg (.now, s)).step op (fun _ => hlasts) hp
    refine ⟨conduct_answers op s, Option.eq_none_iff_forall_ne_some.2 fun x hx => ?_, hends⟩
    have hlost := hrecent x hx
    rw [lost_reliable hr] at hlost
    cases hlost

theorem endsNone_runs (hr : env.Reliable) {ok : Server → Event → Prop} (h : Runs env ps ok s s') : EndsNone ps s s' := by
  induction h with
  | refl => exact .refl s
  | @step s₁ s₂ ev _ _ hstep ih =>
    have hcall : Meets (conduct ps) (ev.activity.prog env.cfg ps) {} fun _ _ => True :=
      (clean_call env.cfg ev.activity {}).mono fun _ _ _ => trivial
    have hboot : ∀ s node, EndsNone ps s₁ s → ∃ g : Trail, g.lost = none ∧ Meets (conduct ps) (boot ps node) g fun _ _ => True :=
      fun _ node _ => ⟨{}, rfl, (clean_boot node {}).mono fun _ _ _ => trivial⟩
    exact ih.trans _ _ _ (step_honours (honours_endsNone hr) (fun _ => .of_table rfl) rfl hcall hboot hstep).2

/-- Whatever happens short of a submission, only such a job is ever SUCCEEDED. -/
theorem completable_of_runs (hr : env.Reliable) (h : Runs env ps (SubmitsWhere Barred env) s s') (hx : Done (table s') x) :
    Completable ps (table s) x := by
  obtain ⟨j, hj, hs⟩ := hx
  exact completable_of_writes (runs_writes Barred.unfinished h) (endsNone_runs hr h) hj (.inl hs)

/-! ## Work -/

/-- Workers register, send heartbeats, poll and report success, and timers fire once they are due. -/
def Works (env : Env) (s : Server) : Event → Prop
  | .call (.registerWorker _) | .call (.heartbeat ..) | .call (.pollTask ..) => True
  | .call (.timer x) => NotEarly env s (.call (.timer x))
  | .call (.reportTask _ result _) => result = .succeeded
  | _ => False

theorem Works.submits {ev : Event} {free : Option Job → Prop} (h : Works env s ev) : SubmitsWhere free env s ev := by
  intro job hjob
  cases ev with
  | call c =>
    cases hjob
    exact h.elim
  | crash => exact h.elim

/-- The labels of the moves by which work proceeds: nothing is placed, and nothing fails. -/
def Label.Kind : Label → Prop
  | .place _ | .bury .. => False
  | _ => True

theorem Label.Promotion.kind {l : Label} (h : l.Promotion) : l.Kind := by
  cases l <;> first | exact h.elim | trivial

theorem Label.Poll.kind {l : Label} (h : l.Poll) : l.Kind := by
  cases l <;> first | exact h.elim | trivial

section

variable {b b' : Board} {j : Job} {τ : String}

/-- A job that does not recur is not re-armed. -/
theorem does_maybeRescheduleCron_plain (hc : ¬ Recurs ps j) (now : Time) :
    DoesOn env (maybeRescheduleCron ps j now) b fun r b' => r = (false, j) ∧ b' = b := by
  unfold maybeRescheduleCron
  split
  · exact Does.pure ⟨rfl, rfl⟩
  · rename_i hexpr
    split
    · exact Does.pure ⟨rfl, rfl⟩
    · rename_i hnext
      refine absurd ⟨hexpr, ?_⟩ hc
      unfold nextCron at hnext
      split at hnext
      · cases hnext
      · rename_i next hps
        exact ⟨next, hps⟩

theorem does_reportSuccess_done (he : Sound env) (hc : ¬ Recurs ps j) (now : Time) :
    DoesOn env (reportSuccess ps τ j now) b fun _ b' => Done b'.jobs j.id := by
  refine (does_removeLease τ).bind ?_
  rintro _ _ rfl
  refine (does_maybeRescheduleCron_plain hc now).bind ?_
  rintro _ _ ⟨rfl, rfl⟩
  refine (does_putJob he _).bind ?_
  rintro _ _ ⟨rfl, rfl⟩
  refine (does_removeFromIndex j.id).bind ?_
  rintro _ _ rfl
  refine (does_promoteDependents he ps j.id).bind ?_
  rintro _ b' ⟨hm, -⟩
  have hdone : (((b.unlease τ).put (completed j now.ns)).unpark j.id).jobs j.id = some (completed j now.ns) :=
    Function.update_self ..
  exact Does.pure ⟨_, hm.final id hdone rfl, rfl⟩

/-- A report of success fails no job, and completes the one whose task it is. -/
theorem does_reportTask_succeeded (he : Sound env) (cfg : Config) (err : String) :
    DoesOn env (reportTask cfg ps τ .succeeded err) b fun _ b' => Moves Label.Kind b b' ∧
      ∀ l j, b.leases τ = some l → b.jobs l.jobID = some j → j.state = .running → ¬ Recurs ps j → Done b'.jobs l.jobID := by
  refine (does_requireLeader cfg).bind ?_
  rintro _ b ⟨rfl, rfl⟩
  refine (does_getLease τ).bind ?_
  rintro _ b ⟨rfl, rfl⟩
  cases hl : b.leases τ with
  | none => exact Does.pure ⟨.refl _, fun _ _ h => nomatch h⟩
  | some l =>
    refine (does_getJob he l.jobID).bind ?_
    rintro _ b ⟨rfl, ⟨rfl, hn⟩ | ⟨j, rfl, hj, hid⟩⟩
    · refine (does_removeLease τ).bind ?_
      rintro _ _ rfl
      refine Does.pure ⟨.single (l := .release τ) (.release ?_) trivial, ?_⟩
      · intro l' j hl' hj
        cases hl.symm.trans hl'
        rw [hj] at hn
        cases hn
      · rintro _ j ⟨⟩ hj
        rw [hj] at hn
        cases hn
    · dsimp only
      split
      · rename_i hs
        refine (does_removeLease τ).bind ?_
        rintro _ _ rfl
        refine Does.pure ⟨.single (l := .release τ) (.release ?_) trivial, ?_⟩
        · intro l' j' hl' hj'
          cases hl.symm.trans hl'
          cases hj.symm.trans hj'
          exact hs
        · rintro _ j' ⟨⟩ hj' hr
          cases hj.symm.trans hj'
          exact absurd hr hs
      · rename_i hs
        rw [ne_eq, not_not] at hs
        refine (does_silent .now trivial).bind ?_
        rintro now b rfl
        rw [← hid] at hj
        have hmoves : DoesOn env (reportSuccess ps τ j now) b fun _ b' => Moves Label.Kind b b' := by
          refine (does_reportSuccess he ps hj hs hl hid.symm now).mono ?_
          rintro _ b' (hm | ⟨b₁, hm, hrest, -⟩)
          · exact .single hm trivial
          · exact (Moves.single hm trivial).trans (hrest.mono fun _ hl => hl.kind)
        by_cases hc : Recurs ps j
        · refine hmoves.mono fun _ b' hm => ⟨hm, ?_⟩
          rintro _ j' ⟨⟩ hj' _ hnot
          rw [← hid, hj] at hj'
          cases hj'
          exact absurd hc hnot
        · refine (hmoves.and (does_reportSuccess_done he hc now)).mono fun _ b' h => ⟨h.1, ?_⟩
          rintro _ _ ⟨⟩ _ _ _
          rw [← hid]
          exact h.2

end

/-- No work fails a job. -/
theorem works_kind (he : Sound env) {c : Call} (hw : Works env s (.call c)) (hs : Serving env s) :
    Moves Label.Kind (view env s) (view env (after env ps s c)) := by
  have hrun : DoesOn env (c.prog env.cfg ps) (view env s) fun _ b' => Moves Label.Kind (view env s) b' := by
    cases c with
    | registerWorker w =>
      refine DoesOn.ignore ((does_registerWorker he env.cfg w).mono ?_)
      rintro _ _ (rfl | ⟨τ, rfl⟩)
      · exact .refl _
      · exact .single .draw trivial
    | heartbeat w n =>
      refine DoesOn.ignore ((does_heartbeat env.cfg w n).mono ?_)
      rintro _ _ rfl
      exact .refl _
    | pollTask w n => exact DoesOn.ignore ((does_pollTask he env.cfg w n).mono fun _ _ hm => hm.mono fun _ hl => hl.kind)
    | timer x => exact (does_timerFired he x).mono fun _ _ hm => .single hm trivial
    | reportTask τ result err =>
      cases hw
      exact DoesOn.ignore ((does_reportTask_succeeded he env.cfg err).mono fun _ _ h => h.1)
    | submitJob | cancelJob | reaper | becomeLeader => exact hw.elim
  obtain ⟨b', ⟨-, rfl⟩, hm⟩ := hrun s ⟨hs, rfl⟩
  exact hm

/-- A cancellation leaves the job CANCELED. -/
theorem Move.canceled {b b' : Board} (hm : Move (.cancel x) b b') {j : Job} (hj : b'.jobs x = some j) : j.state = .canceled := by
  cases hm with
  | @cancel _ j₀ j' _ _ hp hs =>
    have hnew : Function.update b.jobs j'.id (some j') j₀.id = some j := hj
    rw [id_of_plan hp, Function.update_self] at hnew
    cases hnew
    exact hs

theorem Moves.of_failed {b b' : Board} (hm : Moves Label.Kind b b') {j : Job} (hj : b'.jobs x = some j)
    (hs : j.state = .failed) : b.jobs x = some j := by
  refine hm.preserves (I := fun b' => b'.jobs x = some j → b.jobs x = some j) ?_ id hj
  intro l b₁ b₂ hl hm hi hj
  by_cases hc : l = .cancel x
  · subst hc
    rw [hm.canceled hj] at hs
    cases hs
  · refine hi (hm.of_broken ?_ hc ?_ hj (.inl hs))
    · rintro rfl
      exact hl
    · rintro via rfl
      exact hl

/-! ## What work keeps -/

/-- What the state of a leader keeps, if no ID is submitted again. -/
structure WellKept (env : Env) (s : Server) : Prop where
  serving : Serving env s
  settled : Settled (view env s)
  genuine : ∀ x, Genuine (view env s) x
  gated : Gated (table s)

theorem wellKept_of_runs {node : Cluster.Node} (he : Sound env) (hn : node.isLeader = true)
    (h : Runs env ps (SubmitsWhere Vacant env) (started env ps .empty node) s) : WellKept env s := by
  have hkeeps : Serving env s ∧ Settled (view env s) ∧ ∀ x, Genuine (view env s) x := by
    refine Runs.keeps (I := fun b => Settled b ∧ ∀ x, Genuine b x) he hn ?_ ?_ h
    · intro b
      exact ((does_onBecomeLeader he ps).and (genuine_onBecomeLeader he ps)).mono fun _ _ h => ⟨h.1.settled, h.2⟩
    · rintro s c hok ⟨hset, hg⟩
      -- an ID that is not stored is not in the index
      have hlists : ListsIndexed env s (.call c) := by
        cases c with
        | submitJob req =>
          cases req with
          | none => exact trivial
          | some job =>
            intro d hd
            obtain ⟨j, hj⟩ := hset.named _ d hd
            cases (hok job rfl).symm.trans hj
        | _ => exact trivial
      exact ((does_call he env.cfg ps c).and (genuine_call he ps c hlists hg)).mono fun _ _ h => ⟨hset.turn h.1, h.2⟩
  exact ⟨hkeeps.1, hkeeps.2.1, hkeeps.2.2, gated_of_runs h⟩

theorem Works.writes {c : Call} (hw : Works env s (.call c)) (hen : c.enabled s = true) :
    Writes Barred (table s) (table (after env ps s c)) :=
  step_writes Barred.unfinished hw.submits (if_pos hen)

theorem Works.gated {c : Call} (hw : Works env s (.call c)) (hen : c.enabled s = true) (h : Gated (table s)) :
    Gated (table (after env ps s c)) :=
  h.writes (step_writes Vacant.unfinished hw.submits (if_pos hen))

theorem WellKept.after (he : Sound env) (h : WellKept env s) {c : Call} (hw : Works env s (.call c)) (hen : c.enabled s = true) :
    WellKept env (after env ps s c) := by
  have hlists : ListsIndexed env s (.call c) := by
    cases c with
    | submitJob => exact hw.elim
    | _ => exact trivial
  obtain ⟨b', ⟨hserving, rfl⟩, hturn, hgenuine⟩ :=
    ((does_call he env.cfg ps c).and (genuine_call he ps c hlists h.genuine)) s ⟨h.serving, rfl⟩
  exact ⟨hserving, h.settled.turn hturn, hgenuine, hw.gated hen h.gated⟩

/-- `r` waits on a job that is FAILED or CANCELED in `T'`. -/
def Hopeless (T T' : Table) (r : String) : Prop :=
  ∃ jr, T r = some jr ∧ jr.state = .pending ∧ ∃ d ∈ jr.dependsOn, ∃ jd, T' d = some jd ∧ Broken jd.state

/-- A job that has passed its dependencies reaches only such jobs. -/
theorem Gated.path {R : String → String → Prop} (h : Gated T) (hR : ∀ a d, R a d → ∃ j, T a = some j ∧ d ∈ j.dependsOn)
    {r : String} (hr : Relation.ReflTransGen R x r) (hx : ∃ j, T x = some j ∧ Released j.state) :
    ∃ j, T r = some j ∧ Released j.state := by
  induction hr with
  | refl => exact hx
  | tail _ hedge ih =>
    obtain ⟨j, hj, hrel⟩ := ih
    obtain ⟨j', hj', hd⟩ := hR _ _ hedge
    cases hj.symm.trans hj'
    obtain ⟨jd, hjd, hsd⟩ := h _ j hj hrel _ hd
    exact ⟨jd, hjd, by rw [hsd]; trivial⟩

/-- No job that can be completed waits, at any remove, on one that has failed. -/
theorem Completable.stable {R : String → String → Prop} (hg : Gated T) (hw : Writes Barred T T')
    (hR : ∀ a d, R a d → ∃ j, T a = some j ∧ d ∈ j.dependsOn)
    (hfailed : ∀ y j, T' y = some j → j.state = .failed → T y = some j)
    (hcanceled : ∀ y j, T' y = some j → j.state = .canceled → T y ≠ some j →
      ∃ r, Relation.ReflTransGen R y r ∧ Hopeless T T' r)
    (hx : Completable ps T x) :
    Completable ps T' x ∧ ∀ r, Relation.ReflTransGen R x r → ¬ Hopeless T T' r := by
  -- what has passed its dependencies is on no path to a job that waits
  have hreleased : ∀ {x j}, T x = some j → Released j.state → ∀ r, Relation.ReflTransGen R x r → ¬ Hopeless T T' r := by
    rintro x j hj hrel r hr ⟨jr, hjr, hs, -⟩
    obtain ⟨j', hj', hrel'⟩ := hg.path hR hr ⟨j, hj, hrel⟩
    cases hjr.symm.trans hj'
    rw [hs] at hrel'
    exact hrel'
  have hlive : ∀ {x j'}, Completable ps T x → T' x = some j' →
      (∀ r, Relation.ReflTransGen R x r → ¬ Hopeless T T' r) → ¬ Broken j'.state := by
    rintro x j' hx hj' hnone (hs | hs)
    · exact hx.not_broken (hfailed x j' hj' hs) (.inl hs)
    · obtain ⟨r, hr, hbad⟩ := hcanceled x j' hj' hs fun hold => hx.not_broken hold (.inr hs)
      exact hnone r hr hbad
  induction hx with
  | @succeeded x j hj hs =>
    have hrel : Released j.state := by rw [hs]; trivial
    exact ⟨.succeeded (Writes.final Barred.unfinished hw hj (by rw [hs]; rfl)) hs, hreleased hj hrel⟩
  | @active x j hj hs hc =>
    have hrel : Released j.state := by rcases hs with hs | hs <;> rw [hs] <;> trivial
    refine ⟨?_, hreleased hj hrel⟩
    obtain ⟨j', hj'⟩ := Writes.stored hw hj
    rcases Writes.revised hw hj' with hold | hs' | hs' | hb
    · cases hj.symm.trans hold
      exact .active hj' hs hc
    · obtain ⟨j₀, hj₀, hp⟩ := Writes.plan_eq hw hj'
      cases hj.symm.trans hj₀
      exact .active hj' hs' fun h => hc ((recurs_iff_of_plan hp).1 h)
    · exact .succeeded hj' hs'
    · exact absurd hb (hlive (.active hj hs hc) hj' (hreleased hj hrel))
  | @pending x j hj hs hc hdeps ih =>
    have hnone : ∀ r, Relation.ReflTransGen R x r → ¬ Hopeless T T' r := by
      intro r hr hbad
      rcases Relation.ReflTransGen.cases_head hr with rfl | ⟨d, hedge, hrest⟩
      · -- its own dependencies are live
        obtain ⟨jr, hjr, -, d, hd, jd, hjd, hb⟩ := hbad
        cases hj.symm.trans hjr
        exact (ih d hd).1.not_broken hjd hb
      · obtain ⟨j', hj', hd⟩ := hR _ _ hedge
        cases hj.symm.trans hj'
        exact (ih d hd).2 r hrest hbad
    refine ⟨?_, hnone⟩
    obtain ⟨j', hj'⟩ := Writes.stored hw hj
    obtain ⟨j₀, hj₀, hp⟩ := Writes.plan_eq hw hj'
    cases hj.symm.trans hj₀
    have hc' : ¬ Recurs ps j' := fun h => hc ((recurs_iff_of_plan hp).1 h)
    rcases Writes.revised hw hj' with hold | hs' | hs' | hb
    · cases hj.symm.trans hold
      exact .pending hj' hs hc fun d hd => (ih d hd).1
    · exact .active hj' hs' hc'
    · exact .succeeded hj' hs'
    · exact absurd hb (hlive (.pending hj hs hc hdeps) hj' hnone)

/-- No work makes a job impossible to complete. -/
theorem Completable.after (he : Sound env) (h : WellKept env s) {c : Call} (hw : Works env s (.call c)) (hen : c.enabled s = true)
    (hx : Completable ps (table s) x) : Completable ps (table (after env ps s c)) x := by
  have hwrites : Writes Barred (table s) (table (Scheduler.after env ps s c)) := hw.writes hen
  have hfailed : ∀ y j, table (Scheduler.after env ps s c) y = some j → j.state = .failed → table s y = some j :=
    fun _ _ => (works_kind he hw h.serving).of_failed
  refine (hx.stable (R := DependsOn (Scheduler.after env ps s c)) h.gated hwrites ?_ hfailed ?_).1
  · rintro a d ⟨j, hj, hd⟩
    obtain ⟨j₀, hj₀, hp⟩ := Writes.plan_eq hwrites hj
    exact ⟨j₀, hj₀, dependsOn_of_plan hp ▸ hd⟩
  · intro y j hj hs hnew
    have hwhy : Justified env s (Scheduler.after env ps s c) y c := justified_call he ps h.serving h.genuine c hj hs hnew
    have hrooted : ∃ r,
        (Relation.TransGen (DependsOn (Scheduler.after env ps s c)) y r ∧
          ∃ jr, table (Scheduler.after env ps s c) r = some jr ∧ jr.state = .failed ∧ table s r ≠ some jr) ∨
        (Relation.ReflTransGen (DependsOn (Scheduler.after env ps s c)) y r ∧ ∃ jr, table s r = some jr ∧ jr.state = .pending ∧
          (∃ jr', table (Scheduler.after env ps s c) r = some jr' ∧ jr'.state = .canceled) ∧
          ∃ d ∈ jr.dependsOn, ∃ jd, table (Scheduler.after env ps s c) d = some jd ∧
            (jd.state = .failed ∨ jd.state = .canceled)) := by
      cases c with
      | submitJob | cancelJob => exact hw.elim
      | _ => exact hwhy
    obtain ⟨r, ⟨-, jr, hjr, hs, hnew⟩ | ⟨hr, jr, hjr, hs, -, hdep⟩⟩ := hrooted
    · exact absurd (hfailed r jr hjr hs) hnew
    · exact ⟨r, hr, jr, hjr, hs, hdep⟩

/-! ## A job on its way -/

/-- Work leads from one state to the other. -/
abbrev Working (env : Env) (ps : Cron) (s s' : Server) : Prop := Runs env ps (Works env) s s'

theorem Working.keeps (he : Sound env) (h : WellKept env s) (hr : Working env ps s s') :
    WellKept env s' ∧ ∀ x, Completable ps (table s) x → Completable ps (table s') x := by
  induction hr with
  | refl => exact ⟨h, fun _ => id⟩
  | @step s₁ s₂ ev _ hw hstep ih =>
    cases ev with
    | crash => exact hw.elim
    | call c =>
      obtain ⟨hen, ⟨⟩⟩ := Option.ite_none_right_eq_some.1 hstep
      exact ⟨ih.1.after he hw hen, fun x hx => (ih.2 x hx).after he ih.1 hw hen⟩

theorem Working.single {c : Call} (hw : Works env s (.call c)) (hen : c.enabled s = true) :
    Working env ps s (after env ps s c) := Runs.refl.call hw hen

/-- The state after an activity, as the board shows it. -/
theorem WellKept.shows (h : WellKept env s) (ps : Cron) (c : Call) {Q : Board → Prop}
    (hc : DoesOn env (c.prog env.cfg ps) (view env s) fun _ b' => Q b') : Q (view env (Scheduler.after env ps s c)) := by
  obtain ⟨b', ⟨-, rfl⟩, hq⟩ := hc s ⟨h.serving, rfl⟩
  exact hq

/-- A RUNNING job is completed by the report of its task. -/
theorem work_running (he : Sound env) (h : WellKept env s) {j : Job} (hj : table s x = some j) (hs : j.state = .running)
    (hc : ¬ Recurs ps j) : ∃ s', Working env ps s s' ∧ Done (table s') x := by
  obtain ⟨τ, l, hl, rfl⟩ := h.settled.leased x j hj hs
  refine ⟨_, Working.single (c := .reportTask τ .succeeded "") rfl rfl, ?_⟩
  have hreport := h.shows ps (.reportTask τ .succeeded "") (DoesOn.ignore (does_reportTask_succeeded he env.cfg ""))
  exact hreport.2 l j hl hj hs hc

theorem exec_ignore {α : Type} (p : M α) (s : Server) :
    (exec (handle env) (do let _ ← p) s).2 = (exec (handle env) p s).2 := by
  rw [exec_bind]
  rfl

/-- A registration makes the worker known, and leaves queue and jobs as they are. -/
theorem register_known (hr : env.Reliable) (hlead : s.node.isLeader = true) {w : WorkerInfo} (hw : w.id ≠ "") :
    Sat (handle env) (registerWorker env.cfg (some w)) s fun _ s' =>
      (∃ worker, s'.workers[w.id]? = some worker) ∧ s'.queue = s.queue ∧ table s' = table s := by
  refine (requireLeader_leading env.cfg hlead).bind ?_
  rintro _ _ ⟨rfl, rfl⟩
  have hid : Sat (handle env) (workerIDFor w) s.ticked fun r s' => r = w.id ∧ s' = s.ticked := by
    rw [workerIDFor, if_neg hw]
    exact ⟨rfl, rfl⟩
  refine hid.bind ?_
  rintro _ _ ⟨rfl, rfl⟩
  refine Sat.bind (Q := fun _ s' => s' = s.ticked.ticked) rfl ?_
  rintro now _ rfl
  have hput : ∀ v : WorkerInfo, Sat (handle env) (putWorker v) s.ticked.ticked fun r s' =>
      r = .ok () ∧ s'.workers[v.id]? = some v ∧ s'.queue = s.queue ∧ table s' = table s := by
    intro v
    refine Sat.bind (Q := fun r s' => r = .ok () ∧ s'.queue = s.queue ∧ table s' = table s) ?_ ?_
    · simp only [Sat, Db.putWorker, act, exec_perform, handle, Server.write, hr _]
      exact ⟨trivial, rfl, rfl⟩
    · rintro _ s₁ ⟨rfl, hq, ht⟩
      refine (appendRepl_frame _ s₁).bind fun _ s₂ h₂ => ?_
      refine Sat.bind (Q := fun _ s' => s'.workers[v.id]? = some v ∧ s'.queue = s.queue ∧ table s' = table s) ?_
        fun _ _ h => ⟨rfl, h⟩
      rw [h₂]
      exact ⟨Std.ExtTreeMap.getElem?_insert_self, hq, ht⟩
  refine (hput _).bind ?_
  rintro _ s' ⟨rfl, hknown, hq, ht⟩
  exact ⟨⟨_, hknown⟩, hq, ht⟩

/-- While the store works, a poll puts nothing back into the queue. -/
theorem sat_pollLoop_shorter (hr : env.Reliable) (cfg : Config) (w : String) (now : Int) (n : Nat) :
    ∀ (fuel : Nat) (out : List TaskAssignment) (s : Server), Sat (handle env) (pollLoop cfg w now n fuel out) s fun _ s' =>
      s'.queue.items.length ≤ s.queue.items.length ∧
        (out.length < n → 0 < fuel → 0 < s.queue.items.length → s'.queue.items.length < s.queue.items.length)
  | 0, _, _ => ⟨Nat.le_refl _, fun _ h => absurd h (Nat.lt_irrefl 0)⟩
  | fuel + 1, out, s => by
    unfold pollLoop
    split
    · refine Sat.bind (Q := fun r s₁ => r = s.queue.pop.1 ∧ s₁.queue = s.queue.pop.2) ⟨rfl, rfl⟩ ?_
      rintro popped s₁ ⟨hpop, hq₁⟩
      cases popped with
      | none =>
        obtain ⟨hsame, hnil⟩ := PriorityQueue.pop_none hpop.symm
        rw [hsame] at hq₁
        show s₁.queue.items.length ≤ _ ∧ _
        rw [hq₁, hnil]
        simp
      | some y =>
        have hlen := PriorityQueue.pop_length hpop.symm
        rw [← hq₁] at hlen
        -- whatever follows, one job is out of the queue
        have hrest : ∀ (out : List TaskAssignment) (s₂ : Server), s₂.queue = s₁.queue →
            Sat (handle env) (pollLoop cfg w now n fuel out) s₂ fun _ s' =>
              s'.queue.items.length < s.queue.items.length := by
          intro out s₂ hq₂
          refine (sat_pollLoop_shorter hr cfg w now n fuel out s₂).mono fun _ s' h => ?_
          have hle := h.1
          rw [hq₂] at hle
          omega
        refine Sat.mono (Q := fun _ s' => s'.queue.items.length < s.queue.items.length) ?_
          fun _ _ h => ⟨h.le, fun _ _ _ => h⟩
        refine (sat_act_offQueue (.getJob y) trivial s₁).bind fun r s₂ h₂ => ?_
        cases r with
        | error e => exact hrest out s₂ h₂
        | ok job =>
          dsimp only
          split
          · exact hrest out s₂ h₂
          · refine (sat_act_offQueue (.newID "task") trivial s₂).bind fun τ s₃ h₃ => ?_
            refine (sat_putJob_frame hr _ s₃).bind ?_
            rintro _ s₄ ⟨rfl, -, h₄, -⟩
            refine (sat_act_offQueue (.addLease _) trivial s₄).bind fun _ s₅ h₅ => ?_
            exact hrest _ s₅ (h₅.trans (h₄.trans (h₃.trans h₂)))
    · rename_i hn
      exact ⟨Nat.le_refl _, fun h => absurd h hn⟩

theorem sat_pollTask_shorter (hr : env.Reliable) {w : String} {worker : WorkerInfo} (hlead : s.node.isLeader = true)
    (hw : s.workers[w]? = some worker) (hq : 0 < s.queue.items.length) :
    Sat (handle env) (pollTask env.cfg w 1) s fun _ s' => s'.queue.items.length < s.queue.items.length := by
  refine (requireLeader_leading env.cfg hlead).bind ?_
  rintro _ _ ⟨rfl, rfl⟩
  refine Sat.bind (Q := fun r s₂ => r = some worker ∧ s₂ = s.ticked.ticked) ⟨hw, rfl⟩ ?_
  rintro _ _ ⟨rfl, rfl⟩
  refine Sat.bind (Q := fun _ s₃ => s₃ = s.ticked.ticked.ticked) rfl ?_
  rintro now _ rfl
  refine Sat.bind (Q := fun _ s₄ => s₄ = s.ticked.ticked.ticked.ticked) rfl ?_
  rintro bound _ rfl
  refine (sat_pollLoop_shorter hr env.cfg w now.ns (batchSize 1) (bound + 1) [] s.ticked.ticked.ticked.ticked).bind ?_
  rintro out s' ⟨-, hlt⟩
  exact hlt (by decide) (Nat.succ_pos _) hq

/-- A poll takes the job, or takes another one that was queued before it. -/
theorem poll_round (he : Sound env) (ps : Cron) (h : WellKept env s) {w : String} {worker : WorkerInfo}
    (hw : s.workers[w]? = some worker)
    {j : Job} (hj : table s x = some j) (hs : j.state = .queued) (hq : s.queue.Holds x) :
    (∃ j', table (Scheduler.after env ps s (.pollTask w 1)) x = some j' ∧ j'.state = .running) ∨
      (∃ j', table (Scheduler.after env ps s (.pollTask w 1)) x = some j' ∧ j'.state = .queued) ∧
        (Scheduler.after env ps s (.pollTask w 1)).queue.Holds x ∧
        (Scheduler.after env ps s (.pollTask w 1)).queue.items.length < s.queue.items.length := by
  have hafter : Scheduler.after env ps s (.pollTask w 1) = (exec (handle env) (pollTask env.cfg w 1) s).2 := exec_ignore _ s
  rw [hafter]
  obtain ⟨as, hres, htakes⟩ := takes_pollTask he env.cfg h.serving.leads hw 1
  have hands : Hands (table s) as (table (exec (handle env) (pollTask env.cfg w 1) s).2) :=
    hands_pollTask env.cfg w 1 s as hres
  have hpos : 0 < s.queue.items.length := by
    obtain ⟨it, hit, -⟩ := List.mem_map.1 hq
    exact List.length_pos_of_mem hit
  by_cases htaken : ∃ a ∈ as, a.jobId = x
  · obtain ⟨a, ha, rfl⟩ := htaken
    exact .inl (hands.running a ha)
  · right
    refine ⟨⟨j, (hands.other fun a ha he => htaken ⟨a, ha, he⟩).trans hj, hs⟩, ?_,
      sat_pollTask_shorter he.reliable h.serving.leads hw hpos⟩
    -- it is ready and not one of the first, so it is left
    have hid : j.id = x := Bucket.get_id hj
    have hready : j ∈ readyJobs (table s) s.queue.items := mem_readyJobs.2 ⟨hid ▸ hj, hs, hid ▸ hq⟩
    rw [← List.take_append_drop (min (max 1 1) 64 : Int).toNat (readyJobs (table s) s.queue.items)] at hready
    rcases List.mem_append.1 hready with hmem | hmem
    · have htake := List.mem_map_of_mem (f := Job.id) hmem
      rw [← htakes.jobs] at htake
      obtain ⟨a, ha, hida⟩ := List.mem_map.1 htake
      exact absurd ⟨a, ha, hida.trans hid⟩ htaken
    · rw [← hid]
      exact htakes.left j hmem

/-- A worker registers and polls. -/
theorem work_round (he : Sound env) (ps : Cron) (h : WellKept env s) {j : Job} (hj : table s x = some j) (hs : j.state = .queued)
    (hq : s.queue.Holds x) : ∃ s', Working env ps s s' ∧
      ((∃ j', table s' x = some j' ∧ j'.state = .running) ∨
        (∃ j', table s' x = some j' ∧ j'.state = .queued) ∧ s'.queue.Holds x ∧
          s'.queue.items.length < s.queue.items.length) := by
  have hregister : Working env ps s (after env ps s (.registerWorker (some { id := "w" }))) := Working.single trivial rfl
  have hafter : after env ps s (.registerWorker (some { id := "w" })) =
      (exec (handle env) (registerWorker env.cfg (some { id := "w" })) s).2 := exec_ignore _ s
  obtain ⟨⟨worker, hw⟩, hqueue, htable⟩ := register_known (w := { id := "w" }) he.reliable h.serving.leads (by decide)
  rw [← hafter] at hw hqueue htable
  have hfit := (hregister.keeps he h).1
  rw [← htable] at hj
  rw [← hqueue] at hq
  refine ⟨_, hregister.call (c := .pollTask "w" 1) trivial rfl, ?_⟩
  have hround := poll_round he ps hfit hw hj hs hq
  rw [hqueue] at hround
  exact hround

/-- A QUEUED job in the ready queue is handed out after so many polls, and then completed. -/
theorem work_ready (he : Sound env) (n : Nat) {j : Job} (hn : s.queue.items.length ≤ n) (h : WellKept env s)
    (hj : table s x = some j) (hs : j.state = .queued) (hq : s.queue.Holds x) (hx : Completable ps (table s) x) :
    ∃ s', Working env ps s s' ∧ Done (table s') x := by
  induction n generalizing s j with
  | zero =>
    obtain ⟨it, hit, -⟩ := List.mem_map.1 hq
    have := List.length_pos_of_mem hit
    omega
  | succ n ih =>
    obtain ⟨s₁, hwork, hround⟩ := work_round he ps h hj hs hq
    obtain ⟨hfit, hkeeps⟩ := hwork.keeps he h
    have hx₁ := hkeeps x hx
    rcases hround with ⟨j₁, hj₁, hs₁⟩ | ⟨⟨j₁, hj₁, hs₁⟩, hq₁, hlt⟩
    · have hc := hx₁.not_recurs hj₁ (by rw [hs₁]; exact JobState.noConfusion)
      obtain ⟨s', hwork', hdone⟩ := work_running he hfit hj₁ hs₁ hc
      exact ⟨s', hwork.trans hwork', hdone⟩
    · obtain ⟨s', hwork', hdone⟩ := ih (by omega) hfit hj₁ hs₁ hq₁ hx₁
      exact ⟨s', hwork.trans hwork', hdone⟩

theorem Move.fired {b b' : Board} (hm : Move (.fire x) b b') {j : Job} (hj : b.jobs x = some j) (hs : j.state = .queued) :
    b'.jobs x = some j ∧ x ∈ b'.ready := by
  cases hm with
  | fire => exact ⟨hj, Set.mem_insert ..⟩
  | fizzle hnot => exact absurd hs (hnot j hj)

/-! ## Waiting -/

/-- The clock never goes back, and passes every instant. -/
structure TimePasses (env : Env) : Prop where
  monotone : Monotone env.clock
  passes : ∀ t, ∃ n, t ≤ env.clock n

/-- The operations that leave the timers alone. -/
def Untimed : Op → Prop
  | .startTimer .. | .deleteTimer _ | .clearDispatch => False
  | _ => True

theorem retryTimers_handle {op : Op} (h : Untimed op) (s : Server) : (handle env op s).2.retryTimers = s.retryTimers := by
  cases op with
  | startTimer | deleteTimer | clearDispatch => exact h.elim
  | putJob | putDeadLetter | putWorker =>
    simp only [handle, Server.write]
    split <;> rfl
  | _ => rfl

/-- A heartbeat takes time, and leaves the timers alone. -/
theorem heartbeat_passes (hlead : s.node.isLeader = true) (w : String) (running : Nat) :
    Sat (handle env) (heartbeat env.cfg w running) s fun _ s' => s'.retryTimers = s.retryTimers ∧ s.tick < s'.tick := by
  have huses : Uses Untimed (heartbeat env.cfg w running) :=
    uses_heartbeat env.cfg trivial trivial (fun _ => trivial) trivial (fun _ => trivial) (fun _ _ => trivial) (fun _ _ => trivial)
      w running
  have hkept : Sat (handle env) (heartbeat env.cfg w running) s fun _ s' => s'.retryTimers = s.retryTimers :=
    huses.frame Server.retryTimers (fun _ s hop => retryTimers_handle hop s) s
  have hpass : Sat (handle env) (heartbeat env.cfg w running) s fun _ s' => s.tick < s'.tick := by
    refine (requireLeader_leading env.cfg hlead).bind ?_
    rintro _ _ ⟨rfl, rfl⟩
    exact Nat.lt_of_lt_of_le (Nat.lt_succ_self s.tick) (tick_exec _ s.ticked)
  exact ⟨hkept, hpass⟩

/-- Heartbeats go on until the clock has been read so many times. -/
theorem work_passes (he : Sound env) (ps : Cron) (h : WellKept env s) (n : Nat) :
    ∃ s', Working env ps s s' ∧ view env s' = view env s ∧ s'.retryTimers = s.retryTimers ∧ n ≤ s'.tick := by
  induction n with
  | zero => exact ⟨s, .refl, rfl, rfl, Nat.zero_le _⟩
  | succ n ih =>
    obtain ⟨s₁, hwork, hview, htimers, hle⟩ := ih
    have hfit : WellKept env s₁ := (hwork.keeps he h).1
    have hsame := hfit.shows ps (.heartbeat "w" 0) (DoesOn.ignore (does_heartbeat env.cfg "w" 0))
    have hafter : after env ps s₁ (.heartbeat "w" 0) = (exec (handle env) (heartbeat env.cfg "w" 0) s₁).2 := exec_ignore _ s₁
    have hpass : Sat (handle env) _ s₁ _ := heartbeat_passes hfit.serving.leads "w" 0
    obtain ⟨htimers', hlt⟩ := hpass
    rw [← hafter] at htimers' hlt
    exact ⟨_, hwork.call (c := .heartbeat "w" 0) trivial rfl, hsame.trans hview, htimers'.trans htimers, by omega⟩

/-- A QUEUED job whose timer is armed gets into the ready queue when it is due. -/
theorem work_timer (he : Sound env) (ht : TimePasses env) (ps : Cron) (h : WellKept env s) {j : Job} (hj : table s x = some j)
    (hs : j.state = .queued) (hx : x ∈ s.retryTimers) :
    ∃ s', Working env ps s s' ∧ table s' x = some j ∧ s'.queue.Holds x := by
  obtain ⟨due, hdue⟩ : ∃ due, s.retryTimers[x]? = some due := by
    rw [← Option.isSome_iff_exists, Std.ExtTreeMap.isSome_getElem?_iff_mem]
    exact hx
  obtain ⟨n, hn⟩ := ht.passes due
  obtain ⟨s₁, hwork, hview, htimers, hle⟩ := work_passes he ps h n
  have hfit : WellKept env s₁ := (hwork.keeps he h).1
  have hm := hfit.shows ps (.timer x) (does_timerFired he x)
  have hj₁ : (view env s₁).jobs x = some j := by
    rw [hview]
    exact hj
  refine ⟨_, hwork.call (c := .timer x) ?_ ?_, hm.fired hj₁ hs⟩
  · rintro y t ⟨⟩ hy
    rw [htimers] at hy
    cases hdue.symm.trans hy
    exact hn.trans (ht.monotone hle)
  · rw [← htimers] at hx
    exact decide_eq_true hx

/-- A job that has passed its dependencies can be completed. -/
theorem work_active (he : Sound env) (ht : TimePasses env) (h : WellKept env s) {j : Job} (hj : table s x = some j)
    (hs : j.state = .queued ∨ j.state = .running) (hx : Completable ps (table s) x) :
    ∃ s', Working env ps s s' ∧ Done (table s') x := by
  rcases hs with hs | hs
  · rcases h.settled.armed x j hj hs with hq | harmed
    · exact work_ready he _ le_rfl h hj hs hq hx
    · obtain ⟨s₁, hwork, hj₁, hq₁⟩ := work_timer he ht ps h hj hs harmed
      obtain ⟨hfit, hkeeps⟩ := hwork.keeps he h
      obtain ⟨s', hwork', hdone⟩ := work_ready he _ le_rfl hfit hj₁ hs hq₁ (hkeeps x hx)
      exact ⟨s', hwork.trans hwork', hdone⟩
  · exact work_running he h hj hs (hx.not_recurs hj (by rw [hs]; exact JobState.noConfusion))

theorem Working.done (hr : Working env ps s s') (hx : Done (table s) x) : Done (table s') x := by
  obtain ⟨j, hj, hs⟩ := hx
  have hwrites : Writes Barred (table s) (table s') := runs_writes Barred.unfinished (hr.mono fun _ _ hw => hw.submits)
  exact ⟨j, Writes.final Barred.unfinished hwrites hj (by rw [hs]; rfl), hs⟩

/-- Some jobs that can each be completed, whatever work goes on before, can be completed together. -/
theorem work_all (l : List String) (hl : ∀ d ∈ l, ∀ s', Working env ps s s' → ∃ s'', Working env ps s' s'' ∧ Done (table s'') d) :
    ∃ s', Working env ps s s' ∧ ∀ d ∈ l, Done (table s') d := by
  induction l with
  | nil => exact ⟨s, .refl, fun _ h => absurd h List.not_mem_nil⟩
  | cons a l ih =>
    obtain ⟨s₁, hwork, hdone⟩ := ih fun d hd => hl d (List.mem_cons_of_mem a hd)
    obtain ⟨s₂, hwork', ha⟩ := hl a List.mem_cons_self s₁ hwork
    refine ⟨s₂, hwork.trans hwork', fun d hd => ?_⟩
    rcases List.mem_cons.1 hd with rfl | hd
    · exact ha
    · exact hwork'.done (hdone d hd)

/-- What can be completed and does not wait. -/
theorem work_past (he : Sound env) (ht : TimePasses env) (h : WellKept env s) (hx : Completable ps (table s) x)
    (hnot : ∀ j, table s x = some j → j.state ≠ .pending) : ∃ s', Working env ps s s' ∧ Done (table s') x := by
  cases hx with
  | succeeded hj hs => exact ⟨s, .refl, _, hj, hs⟩
  | active hj hs hc => exact work_active he ht h hj hs (.active hj hs hc)
  | pending hj hs => exact absurd hs (hnot _ hj)

/-- What can be completed can be completed after any further work as well. -/
theorem work_completes (he : Sound env) (ht : TimePasses env) (h : WellKept env s) (hx : Completable ps (table s) x) :
    ∀ s', Working env ps s s' → ∃ s'', Working env ps s' s'' ∧ Done (table s'') x := by
  have hpending : ∀ {s' y j}, Working env ps s s' → table s' y = some j → j.state = .pending → table s y = some j :=
    fun hwork => Writes.of_pending (runs_writes Barred.unfinished (hwork.mono fun _ _ hw => hw.submits))
  induction hx with
  | succeeded hj hs => exact fun s' hwork => ⟨s', .refl, hwork.done ⟨_, hj, hs⟩⟩
  | @active x j hj hs hc =>
    intro s' hwork
    obtain ⟨hfit, hkeeps⟩ := hwork.keeps he h
    refine work_past he ht hfit (hkeeps x (.active hj hs hc)) fun j' hj' hs' => ?_
    cases hj.symm.trans (hpending hwork hj' hs')
    rw [hs'] at hs
    rcases hs with hs | hs <;> cases hs
  | @pending x j hj hs hc hdeps ih =>
    intro s' hwork
    -- first the dependencies, and with the last of them it is promoted
    obtain ⟨s₁, hwork₁, hdone⟩ := work_all j.dependsOn fun d hd s₁ hwork₁ => ih d hd s₁ (hwork.trans hwork₁)
    have hall : Working env ps s s₁ := hwork.trans hwork₁
    obtain ⟨hfit, hkeeps⟩ := hall.keeps he h
    obtain ⟨s₂, hwork₂, hx⟩ := work_past he ht hfit (hkeeps x (.pending hj hs hc hdeps)) fun j' hj' hs' => by
      cases hj.symm.trans (hpending hall hj' hs')
      exact hfit.settled.blocked x j hj' hs' hdone
    exact ⟨s₂, hwork₁.trans hwork₂, hx⟩

/-- In every state of a run in which no ID is submitted again: a job that can be brought to SUCCEEDED in any way short of a
submission can be completed (`Completable`); each job that can be completed is brought to SUCCEEDED by workers that
register, poll and report success, and by timers that fire once they are due; and so are all stored jobs together if each
of them can be. -/
theorem completable_exactly {node : Cluster.Node} (he : Sound env) (ht : TimePasses env) (hn : node.isLeader = true)
    (h : Runs env ps (SubmitsWhere Vacant env) (started env ps .empty node) s) :
    (∀ x s', Runs env ps (SubmitsWhere Barred env) s s' → Done s'.store.jobs.get x → Completable ps s.store.jobs.get x) ∧
    (∀ x, Completable ps s.store.jobs.get x → ∃ s', Working env ps s s' ∧ Done s'.store.jobs.get x) ∧
    ((∀ j ∈ s.store.jobs.list, Completable ps s.store.jobs.get j.id) →
      ∃ s', Working env ps s s' ∧ ∀ j ∈ s.store.jobs.list, Done s'.store.jobs.get j.id) := by
  have hfit : WellKept env s := wellKept_of_runs he hn h
  refine ⟨fun x s' hr hx => completable_of_runs he.reliable hr hx, fun x hx => work_completes he ht hfit hx s .refl,
    fun hall => ?_⟩
  obtain ⟨s', hwork, hdone⟩ := work_all (s.store.jobs.list.map Job.id) fun d hd => by
    obtain ⟨j, hj, rfl⟩ := List.mem_map.1 hd
    exact work_completes he ht hfit (hall j hj)
  exact ⟨s', hwork, fun j hj => hdone j.id (List.mem_map_of_mem hj)⟩

theorem ticking_sound : Sound .ticking := ⟨fun _ => rfl, steady_sound.distinct⟩

theorem ticking_timePasses : TimePasses .ticking where
  monotone := monotone_ticking
  passes t := by
    refine ⟨t.toNat, ?_⟩
    simp only [Env.ticking, Env.paced]
    omega

/-- `a` is to run at a set time, and `b` waits on it. -/
def scheduled : Server :=
  [Call.submitJob (some { id := "a", spec := some { command := "true" }, schedule := some { kind := some (.runAt 20000000000) } }),
    submitting "b" ["a"]].foldl (after .ticking noCron) (started .ticking noCron .empty leading)

/-- The timer of `a` is armed, and both jobs can be completed. -/
theorem completable_exactly_scheduled : scheduled.retryTimers["a"]? = some 22000000000 ∧ ¬ scheduled.queue.Holds "a" ∧
    ∃ s', Working .ticking noCron scheduled s' ∧ ∀ j ∈ scheduled.store.jobs.list, Done s'.store.jobs.get j.id := by
  have hrun : Runs .ticking noCron (SubmitsWhere Vacant .ticking) (started .ticking noCron .empty leading) scheduled := by
    refine (Runs.refl.call ?_ rfl).call ?_ rfl
    all_goals
      rintro job ⟨⟩
      show _ = none
      decide +kernel
  have hplain : ∀ j : Job, ¬ Recurs noCron j := by
    rintro j ⟨-, next, hnext⟩
    cases hnext
  have hids : scheduled.store.jobs.list.map Job.id = ["a", "b"] := by decide +kernel
  have ha : (scheduled.store.jobs.get "a").map Job.state = some .queued := by decide +kernel
  have hb : (scheduled.store.jobs.get "b").map (fun j => (j.state, j.dependsOn)) = some (.pending, ["a"]) := by
    decide +kernel
  obtain ⟨ja, hja, hsa⟩ := Option.map_eq_some_iff.1 ha
  obtain ⟨jb, hjb, heq⟩ := Option.map_eq_some_iff.1 hb
  obtain ⟨hsb, hdeps⟩ := Prod.mk.inj heq
  have hfirst : Completable noCron scheduled.store.jobs.get "a" := .active hja (.inl hsa) (hplain ja)
  refine ⟨by decide +kernel, by decide +kernel,
    (completable_exactly ticking_sound ticking_timePasses rfl hrun).2.2 fun j hj => ?_⟩
  have hid : j.id ∈ ["a", "b"] := hids ▸ List.mem_map_of_mem hj
  rcases List.mem_cons.1 hid with he | he
  · rw [he]
    exact hfirst
  · rw [List.mem_singleton.1 he]
    refine .pending hjb hsb (hplain jb) fun d hd => ?_
    rw [hdeps, List.mem_singleton] at hd
    rw [hd]
    exact hfirst

end Distsched.Lifecycle
