/-
Live placement and rebuild agree on which QUEUED jobs are due, as long as no submission brings a fire time of its own
that is still to come, or a run time for which no timer can be set. `SubmitJob` stores the `scheduled_at` of the message
as it is, live placement does not look at it, and a rebuild does; a timer cut off at the greatest duration puts the job
into the queue before its fire time, and a rebuild takes it out again.
-/
import Distsched.Lifecycle.Cull
import Distsched.Lifecycle.Outcomes
import Distsched.Timing.Dispatch

namespace Distsched.Timing

open Scheduler Prog
open Lifecycle (table Gated Released Sound Serving view Board Culls)

variable {env : Env} {x y : String} {j : Job}

/-! ## A rebuild cancels no QUEUED job -/

/-- What a job that has passed its dependencies reaches has SUCCEEDED. -/
theorem succeeded_of_reaches {b : Board} (h : Gated b.jobs) (hr : Relation.TransGen b.Lists x y) (hj : b.jobs x = some j)
    (hs : Released j.state) : ∃ jy, b.jobs y = some jy ∧ jy.state = .succeeded := by
  have hstep : ∀ {z d jz}, b.jobs z = some jz → Released jz.state → b.Lists z d →
      ∃ jd, b.jobs d = some jd ∧ jd.state = .succeeded := by
    rintro z d jz hz hrel ⟨jz', hz', hd⟩
    cases hz.symm.trans hz'
    exact h z jz hz hrel d hd
  induction hr with
  | single hd => exact hstep hj hs hd
  | tail _ hd ih =>
    obtain ⟨jz, hz, hsz⟩ := ih
    exact hstep hz (by rw [hsz]; trivial) hd

/-- Whoever is canceled has a dependency that did not succeed, so no QUEUED job is. -/
theorem not_canceled_of_queued {b b' : Board} (h : Gated b.jobs) (hc : Culls b b') (hj : b.jobs x = some j)
    (hs : j.state = .queued) : ¬ ∃ j', b'.jobs x = some j' ∧ j'.state = .canceled := by
  rintro ⟨j', hj', hs'⟩
  have hnew : b.jobs x ≠ some j' := by
    intro he
    cases hj.symm.trans he
    cases hs.symm.trans hs'
  have hlists : b'.Lists = b.Lists := hc.moves.lists_eq fun _ => id
  have hrel : Released j.state := by rw [hs]; trivial
  obtain ⟨r, ⟨hr, jr, hjr, hf, -⟩ | ⟨hr, jr, hjr, hp, -⟩⟩ := hc.rooted x j' hj' hs' hnew
  · obtain ⟨jr₀, hjr₀, hsucc⟩ := succeeded_of_reaches h (hlists ▸ hr) hj hrel
    cases hjr.symm.trans (hc.moves.final id hjr₀ (by rw [hsucc]; rfl))
    cases hf.symm.trans hsucc
  · rcases Relation.reflTransGen_iff_eq_or_transGen.1 (hlists ▸ hr) with rfl | hr
    · cases hj.symm.trans hjr
      cases hs.symm.trans hp
    · obtain ⟨jr₀, hjr₀, hsucc⟩ := succeeded_of_reaches h hr hj hrel
      cases hjr.symm.trans hjr₀
      cases hp.symm.trans hsucc

/-! ## Runs -/

/-- The state after the scheduling state has been cleared and rebuilt. -/
def rebuilt (env : Env) (ps : Cron) (s : Server) : Server :=
  (exec (handle env) (do clearSchedulingState; rebuildSchedulingState ps) s).2

/-- A rebuild of the node's agenda queues every QUEUED job whose stored fire time has passed, or cancels it. -/
theorem requeued_of_timely {ps : Cron} {s : Server} (hm : Monotone env.clock) (hr : env.Reliable) {strict : Prop}
    (hps : strict → Near (env.clock 0) ps) (h : Timely env strict (agenda env s)) (hj : table s x = some j)
    (hs : j.state = .queued) (hd : Due (env.clock s.tick) j) :
    (rebuilt env ps s).queue.Holds x ∨ ∃ j', table (rebuilt env ps s) x = some j' ∧ j'.state = .canceled := by
  have hstart : Punctual env strict (table s) s.tick (agenda env s) := .start h (le_refl _)
  have hempty : Punctual env strict (table s) s.tick (agenda env s).clearQueue.clearTimers :=
    hstart.less rfl (le_refl _) (le_refl _) (Set.empty_subset _) fun _ _ ht => absurd ht (Option.some_ne_none _).symm
  have hclear : Clocked env strict (table s) s.tick clearSchedulingState (agenda env s) fun _ a' =>
      a' = (agenda env s).clearQueue.clearTimers := ⟨trivial, fun _ _ => ⟨trivial, fun _ _ => ⟨trivial, fun _ _ => rfl⟩⟩⟩
  have hall : Clocked env strict (table s) s.tick (do clearSchedulingState; rebuildSchedulingState ps) (agenda env s)
      fun _ a' => x ∈ a'.ready ∨ a'.Canceled x := by
    refine hclear.bind ?_
    rintro _ _ rfl
    refine (clocked_rebuildSchedulingState (fun hst => (hps hst).mono (hm s.tick.zero_le)) hempty).mono fun _ a' h' => ?_
    obtain rfl : j.id = x := (h.stored x j hj).1
    exact h'.2 j hj hs hd
  obtain ⟨⟨a, ha, hready⟩, -⟩ := Meets.exec (honours_clockwork hm hr strict (table s) s.tick) hall (.of_agenda hstart)
  refine hready.imp (ha.ready x).2 ?_
  rintro ⟨j', hj', hs'⟩
  exact ⟨j', (congrFun ha.jobs x).trans hj', hs'⟩

/-- In every state of a run whose submissions carry no fire time that is still to come and no run time out of the reach of
a timer, a rebuild keeps the QUEUED jobs that are in the ready queue there. -/
theorem rebuild_keeps_ready {ps : Cron} {node : Cluster.Node} {s : Server} (he : Sound env) (hm : Monotone env.clock)
    (hps : Near (env.clock 0) ps) (hn : node.isLeader = true)
    (h : Runs env ps (fun s ev => Orderly env s ev ∧ Elapsed env s ev) (started env ps .empty node) s)
    (hx : s.queue.Holds x) (hj : s.store.jobs.get x = some j) (hs : j.state = .queued) :
    (rebuilt env ps s).queue.Holds x := by
  have hserving : Serving env s :=
    (Lifecycle.Runs.board (I := fun _ => True) he hn (fun _ _ => trivial) (fun _ _ _ _ _ _ => trivial) h).1
  have hgated : Gated (view env s).jobs := Lifecycle.gated_of_runs (h.mono fun _ _ hev => hev.1.1)
  have htimely : Timely env True (agenda env s) :=
    timely_of_runs hm he.reliable (fun _ => hps)
      (h.mono fun _ _ hev => ⟨hev.1.1, hev.1.2.1, hev.1.2.2, fun _ => hev.2⟩)
  have hdue : Due (env.clock s.tick) j := by
    obtain ⟨j', hj', hfin | ⟨-, ho, -⟩⟩ := htimely.ready x hx
    · cases hj.symm.trans hj'
      rw [hs] at hfin
      cases hfin
    · cases hj.symm.trans hj'
      exact fun t ht => ho t (.inr ⟨.inl trivial, ht⟩)
  refine (requeued_of_timely hm he.reliable (fun _ => hps) htimely hj hs hdue).resolve_right ?_
  have hboard : Lifecycle.DoesOn env (do clearSchedulingState; rebuildSchedulingState ps) (view env s) fun _ b' =>
      Lifecycle.Deeds (view env s).cleared b' := by
    refine Lifecycle.does_clearSchedulingState.bind ?_
    rintro _ _ rfl
    exact Lifecycle.deeds_rebuildSchedulingState he ps
  obtain ⟨b', ⟨-, rfl⟩, hdeeds⟩ := hboard s ⟨hserving, rfl⟩
  exact not_canceled_of_queued (b := (view env s).cleared) hgated (hdeeds.culls fun _ _ hw => hw.elim) hj hs

/-- A retry whose delay is over and a job whose run time has come are in the ready queue, and stay there. -/
theorem rebuild_keeps_ready_retrying :
    ((retrying 8).store.jobs.list.map fun j => (j.id, j.attempt, j.scheduledAt)) =
      [("a", 1, some 24300000000), ("b", 0, some 20000000000)] ∧
    ∀ x ∈ ["a", "b"], (retrying 8).queue.Holds x ∧ (rebuilt .ticking noCron (retrying 8)).queue.Holds x := by
  have hok : ∀ s c, fits .ticking s c = true →
      Orderly .ticking s (.call c) ∧ Elapsed .ticking s (.call c) := fun s c h =>
    have hp := proper_of_fits h
    ⟨⟨hp.vacant, hp.notEarly, hp.foreseeable⟩, hp.elapsed trivial⟩
  have hrun : Runs .ticking noCron (fun s ev => Orderly .ticking s ev ∧ Elapsed .ticking s ev)
      (started .ticking noCron .empty leading) (retrying 8) := Runs.fitting hok .refl (by decide +kernel)
  refine ⟨by decide +kernel, fun x hx => ?_⟩
  have hready : (retrying 8).queue.contains x = true ∧
      ((retrying 8).store.jobs.get x).map Job.state = some .queued := by
    revert x
    decide +kernel
  have hholds := (PriorityQueue.contains_iff _ _).1 hready.1
  obtain ⟨j, hj, hs⟩ := Option.map_eq_some_iff.1 hready.2
  have hsound : Sound .ticking := ⟨fun _ => rfl, Lifecycle.steady_sound.distinct⟩
  refine ⟨hholds, rebuild_keeps_ready hsound monotone_ticking ?_ rfl hrun hholds hj hs⟩
  rintro expr next t ⟨⟩

/-- A job is submitted with a fire time in the future. -/
def submittedAhead : Server :=
  served [.submitJob (some { id := "a", spec := some { command := "true" }, scheduledAt := some 1 })]

/-- The job is in the ready queue at once, and a rebuild at the same instant takes it out. -/
theorem rebuild_postpones : Runs .steady noCron (SubmitsWhere Vacant .steady) (started .steady noCron .empty leading)
      submittedAhead ∧ (∃ j, submittedAhead.store.jobs.get "a" = some j ∧ j.state = .queued) ∧
    submittedAhead.queue.Holds "a" ∧ ¬ (rebuilt .steady noCron submittedAhead).queue.Holds "a" := by
  have hstate : (submittedAhead.store.jobs.get "a").map Job.state = some .queued := by decide +kernel
  have hafter : (rebuilt .steady noCron submittedAhead).queue.contains "a" = false := by decide +kernel
  refine ⟨Runs.refl.call ?_ rfl, Option.map_eq_some_iff.1 hstate, (PriorityQueue.contains_iff _ _).1 (by decide +kernel), ?_⟩
  · rintro job ⟨⟩
    show _ = none
    decide +kernel
  · rw [← PriorityQueue.contains_iff, hafter]
    exact Bool.false_ne_true

end Distsched.Timing
