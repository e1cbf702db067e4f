/-
Runs of a node that leads, as the board shows them: a start leaves a rebuilt board, and every activity
turns the board into another one in the way `Turn` says. What a rebuild establishes and every turn
keeps, holds between any two activities of a run.
-/
import Distsched.Lifecycle.Rebuild
import Distsched.Scheduler.Silent

namespace Distsched.Lifecycle

open Scheduler Prog

variable {env : Env} {b b' : Board}

/-! ## Starting -/

/-- Loading the workers changes nothing the board shows. -/
theorem recover_frame (s : Server) : view env (exec (handle env) recover s).2 = view env s ∧
    (exec (handle env) recover s).2.closed = s.closed := by
  have := recover_uses.frame (h := handle env) (fun s => (view env s, s.closed)) ?_ s
  · exact ⟨congrArg Prod.fst this, congrArg Prod.snd this⟩
  · rintro _ s (rfl | ⟨w, rfl⟩) <;> rfl

theorem recover_ok (he : Sound env) (s : Server) : (exec (handle env) recover s).1 = .ok () := by
  unfold recover
  rw [exec_bind, exec_perform]
  simp only [handle, he.reliable s.tick]
  rw [exec_bind]
  rfl

/-- A new process that gains leadership serves, in the state its rebuild leaves. -/
theorem restart_does (he : Sound env) {ps : Cron} {node : Cluster.Node} (hn : node.isLeader = true) {Q : Board → Prop}
    (h : ∀ b, DoesOn env (onBecomeLeader ps) b fun _ b' => Q b') (s : Server) :
    ∃ b, Shows env b (restart env ps node s) ∧ Q b := by
  obtain ⟨hview, hclosed⟩ := @recover_frame env s.fresh
  have hboot : restart env ps node s = (exec (handle env) (onBecomeLeader ps)
      { (exec (handle env) recover s.fresh).2.ticked with node := node }).2 := by
    unfold restart boot
    rw [exec_bind, recover_ok he]
    dsimp only
    rw [exec_bind]
    rfl
  rw [hboot]
  refine h _ _ ⟨⟨hn, hclosed, fun τ l hl => ?_⟩, rfl⟩
  -- the new process holds no lease
  have : (view env s.fresh).leases τ = some l := hview ▸ hl
  have hempty : (∅ : Std.ExtTreeMap String Lease)[τ]? = some l := this
  rw [Std.ExtTreeMap.getElem?_empty] at hempty
  cases hempty

theorem restart_rebuilt (he : Sound env) (ps : Cron) {node : Cluster.Node} (hn : node.isLeader = true) (s : Server) :
    ∃ b, Shows env b (restart env ps node s) ∧ Rebuilt b :=
  restart_does he hn (fun _ => does_onBecomeLeader he ps) s

/-! ## Activities -/

/-- What an activity does to the board. -/
def Turn (env : Env) (b b' : Board) : Call → Prop
  | .submitJob req => b' = b ∨ ∃ j, req = some j ∧ Submits (submitID env b.minted j) b b'
  | .cancelJob _ => Moves (Label.Cascade Set.univ) b b'
  | .pollTask _ _ => Moves Label.Poll b b'
  | .reportTask τ _ _ => Drops τ b b' ∨ ∃ l, b.leases τ = some l ∧ Completes Label.Promotion l.jobID τ b b'
  | .registerWorker _ => Draws b b'
  | .heartbeat _ _ => b' = b
  | .timer x => Move (.fire x) b b'
  | .reaper => Moves Label.Sweep b b'
  | .becomeLeader => Rebuilt b'

theorem DoesOn.ignore {α : Type} {p : M α} {Q : Board → Prop} (h : DoesOn env p b fun _ b' => Q b') :
    DoesOn env (do let _ ← p) b fun _ b' => Q b' :=
  Does.bind h fun _ _ hq => Does.pure hq

theorem does_call (he : Sound env) (cfg : Config) (ps : Cron) (c : Call) :
    DoesOn env (c.prog cfg ps) b fun _ b' => Turn env b b' c := by
  cases c with
  | submitJob req => exact DoesOn.ignore (does_submitJob he cfg ps req)
  | cancelJob x => exact DoesOn.ignore (does_cancelJob he cfg x)
  | pollTask w n => exact DoesOn.ignore (does_pollTask he cfg w n)
  | reportTask τ result err => exact DoesOn.ignore (does_reportTask he cfg ps τ result err)
  | registerWorker w => exact DoesOn.ignore (does_registerWorker he cfg w)
  | heartbeat w n => exact DoesOn.ignore (does_heartbeat cfg w n)
  | timer x => exact does_timerFired he x
  | reaper => exact does_reaperTick he cfg ps
  | becomeLeader => exact does_onBecomeLeader he ps

/-! ## What a turn keeps settled -/

theorem Label.Cascade.quiet {S : Set String} {l : Label} (h : l.Cascade S) : l.Quiet := h.promotion.quiet

theorem Label.Poll.quiet {l : Label} (h : l.Poll) : l.Quiet := by
  cases l <;> first | exact h.elim | trivial

theorem Label.Sweep.quiet {l : Label} (h : l.Sweep) : l.Quiet := by
  cases l <;> first | exact h.elim | trivial

theorem Settled.draws (h : Settled b) (hd : Draws b b') : Settled b' := by
  rcases hd with rfl | ⟨τ, rfl⟩
  · exact h
  · exact h.moves (P := Label.Quiet) (.single (.draw (τ := τ)) trivial) fun _ => id

theorem Settled.turn {c : Call} (h : Settled b) (ht : Turn env b b' c) : Settled b' := by
  cases c with
  | submitJob req =>
    rcases ht with rfl | ⟨j, _, b₁, hd, rfl | hm⟩
    · exact h
    · exact h.draws hd
    · exact (h.draws hd).moves (P := Label.Quiet) (.single hm trivial) fun _ => id
  | cancelJob x => exact h.moves ht fun _ hl => hl.quiet
  | pollTask w n => exact h.moves ht fun _ hl => hl.quiet
  | reportTask τ result err =>
    rcases ht with hd | ⟨l, _, hc⟩
    · exact h.moves hd.moves fun _ hl => hl.quiet
    · exact h.completes hc fun _ hl => hl.quiet
  | registerWorker w => exact h.draws ht
  | heartbeat w n =>
    cases ht
    exact h
  | timer x => exact h.moves (P := Label.Quiet) (.single ht trivial) fun _ => id
  | reaper => exact h.moves ht fun _ hl => hl.quiet
  | becomeLeader => exact ht.settled

/-! ## Runs -/

variable {ps : Cron} {ok : Server → Event → Prop}

/-- A step either turns the board, or ends in a new process with a rebuilt one. -/
theorem step_shows (he : Sound env) {s s' : Server} {ev : Event} (hs : Serving env s)
    (h : step env ps s ev = some s') : Serving env s' ∧
      ((∃ c, ev = .call c ∧ Turn env (view env s) (view env s') c) ∨
        ∃ c ops aborted node, ev = .crash c ops aborted node ∧ Rebuilt (view env s')) := by
  cases ev with
  | call c =>
    simp only [step] at h
    split at h
    · cases h
      obtain ⟨b', ⟨hs', rfl⟩, ht⟩ := does_call he env.cfg ps c s ⟨hs, rfl⟩
      exact ⟨hs', .inl ⟨c, rfl, ht⟩⟩
    · cases h
  | crash c ops aborted node =>
    simp only [step] at h
    split at h
    · rename_i hen
      cases h
      obtain ⟨b', ⟨hs', rfl⟩, hr⟩ := restart_rebuilt he ps hen.2 (crashed env ps s c ops aborted)
      exact ⟨hs', .inr ⟨c, ops, aborted, node, rfl, hr⟩⟩
    · cases h

/-- What a rebuild establishes and every activity keeps, holds in every state of a run. -/
theorem Runs.keeps {store : Store} {node : Cluster.Node} (he : Sound env) (hn : node.isLeader = true) {I : Board → Prop}
    (hr : ∀ b, DoesOn env (onBecomeLeader ps) b fun _ b' => I b')
    (hc : ∀ s c, ok s (.call c) → I (view env s) → DoesOn env (c.prog env.cfg ps) (view env s) fun _ b' => I b')
    {s : Server} (h : Runs env ps ok (started env ps store node) s) : Serving env s ∧ I (view env s) := by
  induction h with
  | refl =>
    obtain ⟨b, ⟨hs, rfl⟩, hb⟩ := restart_does he hn hr (.off store 0 0)
    exact ⟨hs, hb⟩
  | @step s₁ s₂ ev _ hok hstep ih =>
    cases ev with
    | call c =>
      obtain ⟨_, ⟨⟩⟩ := Option.ite_none_right_eq_some.1 hstep
      obtain ⟨b, ⟨hs, rfl⟩, hb⟩ := hc s₁ c hok ih.2 s₁ ⟨ih.1, rfl⟩
      exact ⟨hs, hb⟩
    | crash c ops aborted node' =>
      obtain ⟨hen, ⟨⟩⟩ := Option.ite_none_right_eq_some.1 hstep
      obtain ⟨b, ⟨hs, rfl⟩, hb⟩ := restart_does he hen.2 hr (crashed env ps s₁ c ops aborted)
      exact ⟨hs, hb⟩

/-- The case of a condition on rebuilt boards and on turns. -/
theorem Runs.board {store : Store} {node : Cluster.Node} (he : Sound env) (hn : node.isLeader = true)
    {I : Board → Prop} (hr : ∀ b, Rebuilt b → I b)
    (ht : ∀ s c b', ok s (.call c) → I (view env s) → Turn env (view env s) b' c → I b') {s : Server}
    (h : Runs env ps ok (started env ps store node) s) : Serving env s ∧ I (view env s) :=
  Runs.keeps he hn (fun _ => (does_onBecomeLeader he ps).mono fun _ b' hb => hr b' hb)
    (fun s c hok hi => (does_call he env.cfg ps c).mono fun _ b' hturn => ht s c b' hok hi hturn) h

theorem steady_sound : Sound .steady where
  reliable _ := rfl
  distinct m n h := by
    have := congrArg String.length h
    simpa [Env.steady] using this

end Distsched.Lifecycle
