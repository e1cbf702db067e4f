/-
Every activity of a serving node as moves on the board: polls dispatch or discard, submissions place,
cancellations and sweeps drop. A rebuild is the exception, since it first clears the board; it is
described by the board it leaves.
-/
import Distsched.Lifecycle.Refine
import Distsched.Scheduler.Submission

namespace Distsched.Lifecycle

open Scheduler Prog

variable {env : Env} {b : Board}

/-! ## Polls -/

/-- The moves of a poll. -/
def Label.Poll : Label → Prop
  | .dispatch _ _ | .discard _ => True
  | _ => False

theorem does_pollLoop (he : Sound env) (cfg : Config) (workerID : String) (now : Int) (n : Nat) :
    ∀ (fuel : Nat) (out : List TaskAssignment) {b : Board},
      DoesOn env (pollLoop cfg workerID now n fuel out) b fun _ b' => Moves Label.Poll b b'
  | 0, _, _ => Does.pure (.refl _)
  | fuel + 1, out, b => by
    unfold pollLoop
    split
    · refine does_pop.bind ?_
      rintro _ _ (⟨rfl, rfl⟩ | ⟨x, hx, rfl, rfl⟩)
      · exact Does.pure (.refl _)
      · have hskip : (∀ j, b.jobs x = some j → j.state ≠ .queued) →
            DoesOn env (pollLoop cfg workerID now n fuel out) (b.unready x) fun _ b' => Moves Label.Poll b b' := by
          intro hn
          refine (does_pollLoop he cfg workerID now n fuel out).mono ?_
          intro _ b' hm
          exact (Moves.single (.discard hn) trivial).trans hm
        refine (does_getJob he x).bind ?_
        rintro _ b₁ ⟨hb₁, ⟨rfl, hn⟩ | ⟨j, rfl, hj, hid⟩⟩
        · subst hb₁
          exact hskip fun j hj => by rw [Board.unready_jobs, hj] at hn; cases hn
        · subst hb₁
          dsimp only
          split
          · rename_i hs
            exact hskip fun j' hj' => by cases hj.symm.trans hj'; exact hs
          · rename_i hs
            rw [ne_eq, not_not] at hs
            refine (does_newID he "task").bind ?_
            rintro τ _ ⟨_, τ', hτ, hfree, rfl, hr⟩
            cases hr rfl
            refine (does_putJob he _).bind ?_
            rintro _ _ ⟨rfl, rfl⟩
            refine (does_addLease (Set.mem_insert ..)).bind ?_
            rintro _ _ rfl
            refine (does_pollLoop he cfg workerID now n fuel _).mono ?_
            intro _ b' hm
            subst hid
            refine (Moves.single (Move.dispatch (l := ⟨τ, j.id, workerID, _, _⟩) hx hj hs ?_ ?_ hτ hfree rfl rfl rfl)
              trivial).trans hm
            · rfl
            · rfl
    · exact Does.pure (.refl _)

theorem does_pollTask (he : Sound env) (cfg : Config) (workerID : String) (maxTasks : Int) :
    DoesOn env (pollTask cfg workerID maxTasks) b fun _ b' => Moves Label.Poll b b' := by
  refine (does_requireLeader cfg).bind ?_
  rintro _ b ⟨rfl, rfl⟩
  refine (does_silent (.getCached workerID) trivial).bind ?_
  rintro w b rfl
  cases w with
  | none => exact Does.pure (.refl _)
  | some w =>
    refine (does_silent .now trivial).bind ?_
    rintro now b rfl
    refine (does_silent .queueBound trivial).bind ?_
    rintro bound b rfl
    refine (does_pollLoop he cfg _ _ _ _ _).bind ?_
    intro out b' hm
    exact Does.pure hm

/-! ## Workers -/

theorem does_putWorker (w : WorkerInfo) : DoesOn env (putWorker w) b fun _ b' => b' = b := by
  refine (does_silent (.putWorker w) trivial).bind ?_
  rintro r b rfl
  cases r with
  | error e => exact Does.pure rfl
  | ok _ =>
    refine (does_appendRepl _).bind ?_
    rintro _ b rfl
    refine (does_silent (.cacheWorker w) trivial).bind ?_
    rintro _ b rfl
    exact Does.pure rfl

/-- `b'` is `b`, after an ID may have been drawn. -/
def Draws (b b' : Board) : Prop := b' = b ∨ ∃ τ, b' = b.draw τ

theorem Draws.jobs {b' : Board} (h : Draws b b') : b'.jobs = b.jobs := by
  rcases h with rfl | ⟨τ, rfl⟩ <;> rfl

theorem Draws.waits {b' : Board} (h : Draws b b') : b'.waits = b.waits := by
  rcases h with rfl | ⟨τ, rfl⟩ <;> rfl

theorem does_registerWorker (he : Sound env) (cfg : Config) (worker : Option WorkerInfo) :
    DoesOn env (registerWorker cfg worker) b fun _ b' => Draws b b' := by
  refine (does_requireLeader cfg).bind ?_
  rintro _ b ⟨rfl, rfl⟩
  cases worker with
  | none => exact Does.pure (.inl rfl)
  | some w =>
    have hid : DoesOn env (workerIDFor w) b fun _ b' => Draws b b' := by
      unfold workerIDFor
      split
      · refine (does_newID he "worker").mono ?_
        rintro _ _ ⟨_, τ, _, _, rfl, _⟩
        exact .inr ⟨τ, rfl⟩
      · exact Does.pure (.inl rfl)
    refine hid.bind ?_
    intro id b₁ hb₁
    refine (does_silent .now trivial).bind ?_
    rintro now b₁ rfl
    refine (does_putWorker _).bind ?_
    rintro r b₁ rfl
    cases r <;> exact Does.pure hb₁

theorem does_heartbeat (cfg : Config) (workerID : String) (running : Nat) :
    DoesOn env (heartbeat cfg workerID running) b fun _ b' => b' = b := by
  refine (does_requireLeader cfg).bind ?_
  rintro _ b ⟨rfl, rfl⟩
  refine (does_silent (.getCached workerID) trivial).bind ?_
  rintro w b rfl
  cases w with
  | none => exact Does.pure rfl
  | some w =>
    refine (does_silent .now trivial).bind ?_
    rintro now b rfl
    refine (does_putWorker _).bind ?_
    rintro r b rfl
    cases r <;> exact Does.pure rfl

/-! ## Jobs -/

/-- The stored dependencies, with those of one job replaced. -/
def Board.Relinked (b : Board) (id : String) (deps : List String) (x d : String) : Prop :=
  if x = id then d ∈ deps else b.Lists x d

theorem does_formsCycle (he : Sound env) (j : Job) : DoesOn env (formsCycle j) b fun r b' =>
    b' = b ∧ (r = true ↔ ReachesCycle (b.Relinked j.id j.dependsOn) j.id) := by
  rintro s ⟨hs, rfl⟩
  unfold formsCycle
  split
  · obtain ⟨hcycle, hs'⟩ := sat_wouldCreateCycle (he.reliable s.tick) j.id j.dependsOn
    refine ⟨view env s, ?_, rfl, hcycle⟩
    rw [hs']
    exact ⟨⟨hs.leads, hs.opened, hs.traced⟩, rfl⟩
  · rename_i hlen
    have hnil : j.dependsOn = [] := List.length_eq_zero_iff.1 (by omega)
    refine ⟨view env s, ⟨hs, rfl⟩, rfl, iff_of_false nofun ?_⟩
    rw [hnil]
    exact not_reachesCycle_nil s j.id

/-- A submission under the ID `x`: it is turned down, or placed. -/
def Submits (x : String) (b b' : Board) : Prop := ∃ b₁, Draws b b₁ ∧ (b' = b₁ ∨ Move (.place x) b₁ b')

/-- The record a submission is placed from. -/
def accepted (job : Job) (id : String) (now : Int) : Job :=
  { job with
    id := id, attempt := 0, assignedWorkerId := "", lastError := "", createdAt := some now, updatedAt := some now }

/-- What a submission has to meet to be placed under an ID: a command, a cron expression that parses if it has one, and no
cycle to be reached from it over the dependencies. -/
structure Board.Accepts (b : Board) (ps : Cron) (id : String) (job : Job) : Prop where
  command : job.command ≠ ""
  cron : job.cronExpr = "" ∨ ∃ next, ps job.cronExpr = .ok next
  acyclic : ¬ ReachesCycle (b.Relinked id job.dependsOn) id

/-- The rule of a submission: it is turned down, with at most an ID drawn, or it places the accepted record. -/
theorem does_submitJob_rule (he : Sound env) (cfg : Config) (ps : Cron) {job : Job} {Q : Board → Prop}
    (hturned : ∀ b₁, Draws b b₁ → ¬ b.Accepts ps (submitID env b.minted job) job → Q b₁)
    (hplaced : ∀ b₁ t, Draws b b₁ → b.Accepts ps (submitID env b.minted job) job →
      DoesOn env (placeNewJob ps (accepted job (submitID env b.minted job) t) (.utc t)) b₁ fun _ b' => Q b') :
    DoesOn env (submitJob cfg ps (some job)) b fun _ b' => Q b' := by
  have hassign : job.command ≠ "" → (job.cronExpr = "" ∨ ∃ next, ps job.cronExpr = .ok next) →
      DoesOn env (assignID job >>= acceptJob ps) b fun _ b' => Q b' := by
    intro hcmd hcron
    refine Does.bind (Q := fun j b₁ => j = { job with id := submitID env b.minted job } ∧ Draws b b₁) ?_ ?_
    · unfold assignID submitID
      split
      · refine (does_newID he "job").bind ?_
        rintro id _ ⟨rfl, τ, _, _, rfl, _⟩
        exact Does.pure ⟨rfl, .inr ⟨τ, rfl⟩⟩
      · exact Does.pure ⟨rfl, .inl rfl⟩
    · rintro _ b₁ ⟨rfl, hd⟩
      refine (does_formsCycle he _).bind ?_
      rintro cyclic b₁ ⟨rfl, hcycle⟩
      have hgraph : b₁.Relinked = b.Relinked := by
        unfold Board.Relinked Board.Lists
        rw [hd.jobs]
      rw [hgraph] at hcycle
      cases cyclic with
      | true => exact Does.pure (hturned b₁ hd fun hacc => hacc.acyclic (hcycle.1 rfl))
      | false =>
        refine (does_silent .now trivial).bind ?_
        rintro now b₁ rfl
        refine (hplaced b₁ now.ns hd ⟨hcmd, hcron, fun hc => ?_⟩).bind fun _ b' hq => Does.pure hq
        exact absurd (hcycle.2 hc) nofun
  refine (does_requireLeader cfg).bind ?_
  rintro _ b ⟨rfl, rfl⟩
  dsimp only
  split
  · rename_i hcmd
    exact Does.pure (hturned b (.inl rfl) fun hacc => hacc.command hcmd)
  · rename_i hcmd
    split
    · rename_i hcron
      exact hassign hcmd (.inl hcron)
    · rename_i hexpr
      refine (does_silent .now trivial).bind ?_
      rintro now b rfl
      unfold nextCron
      cases hps : ps job.cronExpr with
      | error e =>
        refine Does.pure (hturned b (.inl rfl) fun hacc => ?_)
        obtain ⟨next, hnext⟩ := hacc.cron.resolve_left hexpr
        cases hps.symm.trans hnext
      | ok next => exact hassign hcmd (.inr ⟨next, hps⟩)

theorem does_submitJob_none (cfg : Config) (ps : Cron) :
    DoesOn env (submitJob cfg ps none) b fun _ b' => b' = b := by
  refine (does_requireLeader cfg).bind ?_
  rintro _ b ⟨rfl, rfl⟩
  exact Does.pure rfl

theorem does_submitJob (he : Sound env) (cfg : Config) (ps : Cron) (req : Option Job) :
    DoesOn env (submitJob cfg ps req) b fun _ b' =>
      b' = b ∨ ∃ j, req = some j ∧ Submits (submitID env b.minted j) b b' := by
  cases req with
  | none => exact (does_submitJob_none cfg ps).mono fun _ _ h => .inl h
  | some j =>
    refine does_submitJob_rule he cfg ps (fun b₁ hd _ => .inr ⟨j, rfl, b₁, hd, .inl rfl⟩) fun b₁ t hd _ => ?_
    exact (does_placeNewJob he ps _ _).mono fun _ b' hm => .inr ⟨j, rfl, b₁, hd, .inr hm⟩

theorem does_loadJob (he : Sound env) (x : String) : DoesOn env (loadJob x) b fun r b' =>
    b' = b ∧ ∀ j, r = .ok j → b.jobs x = some j ∧ j.id = x := by
  unfold loadJob
  split
  · exact Does.pure ⟨rfl, by rintro j ⟨⟩⟩
  · refine (does_getJob he x).bind ?_
    rintro _ b ⟨rfl, ⟨rfl, _⟩ | ⟨j, rfl, hj, hid⟩⟩
    · exact Does.pure ⟨rfl, by rintro j ⟨⟩⟩
    · refine Does.pure ⟨rfl, ?_⟩
      rintro _ ⟨⟩
      exact ⟨hj, hid⟩

theorem does_cancelJob (he : Sound env) (cfg : Config) (x : String) :
    DoesOn env (cancelJob cfg x) b fun _ b' => Moves (Label.Cascade Set.univ) b b' := by
  refine (does_requireLeader cfg).bind ?_
  rintro _ b ⟨rfl, rfl⟩
  refine (does_loadJob he x).bind ?_
  rintro r b ⟨rfl, hload⟩
  cases r with
  | error e => exact Does.pure (.refl _)
  | ok j =>
    obtain ⟨hj, rfl⟩ := hload j rfl
    dsimp only
    split
    · exact Does.pure (.refl _)
    · rename_i hc
      split
      · exact Does.pure (.refl _)
      · rename_i hsf
        have ht : terminal j.state = false := by
          cases hs : j.state <;> simp_all [terminal]
        refine (does_silent .now trivial).bind ?_
        rintro now b rfl
        refine (does_putJob he _).bind ?_
        rintro _ _ ⟨rfl, rfl⟩
        refine (does_remove j.id).bind ?_
        rintro _ _ rfl
        refine (does_cancelCascade he (Set.mem_univ _) (closed_univ _) _).bind ?_
        intro _ b' hm
        have hlab : Label.Cascade Set.univ (.cancel j.id) := Set.mem_univ _
        refine Does.pure ((Moves.single (Move.cancel hj ht ?_ ?_) hlab).trans hm) <;> rfl

/-! ## The reaper -/

/-- The moves of a sweep. -/
def Label.Sweep : Label → Prop
  | .release _ | .requeue _ (some _) | .bury _ (some _) | .cancel _ | .forget _ => True
  | _ => False

theorem Label.Cascade.sweep {S : Set String} {l : Label} (h : l.Cascade S) : l.Sweep := by
  cases l <;> first | exact h.elim | trivial

theorem Drops.moves {τ : String} {b' : Board} (h : Drops τ b b') : Moves Label.Sweep b b' := by
  rcases h with rfl | ⟨l, _, hm | ⟨b₁, hlost, hm⟩⟩
  · exact .refl _
  · exact .single hm trivial
  · have hm : Moves Label.Sweep b₁ b' := hm.mono fun _ hl => hl.sweep
    rcases hlost with h | h
    · exact (Moves.single h trivial).trans hm
    · exact (Moves.single h trivial).trans hm

theorem does_requeueAll (he : Sound env) (ps : Cron) (reason : String) (τs : List String) :
    DoesOn env (τs.forM fun τ => requeueLease ps τ reason) b fun _ b' => Moves Label.Sweep b b' := by
  refine Does.forM (fun _ b' => Moves Label.Sweep b b') ?_ (.refl _)
  intro _ τ _ b₁ _ hm
  refine (does_requeueLease he ps τ reason).mono ?_
  intro _ b₂ hd
  exact hm.trans hd.moves

theorem does_requeueLeasesForWorker (he : Sound env) (ps : Cron) (workerID reason : String) :
    DoesOn env (requeueLeasesForWorker ps workerID reason) b fun _ b' => Moves Label.Sweep b b' := by
  refine does_listLeases.bind ?_
  rintro ls b ⟨rfl, _⟩
  exact does_requeueAll he ps reason _

theorem does_reapOnce (he : Sound env) (cfg : Config) (ps : Cron) :
    DoesOn env (reapOnce cfg ps) b fun _ b' => Moves Label.Sweep b b' := by
  refine (does_silent .now trivial).bind ?_
  rintro now b rfl
  refine (does_silent .listCached trivial).bind ?_
  rintro cached b rfl
  refine Does.bind (Q := fun _ b' => b' = b) ?_ ?_
  · refine Does.forM (fun _ b' => b' = b) ?_ rfl
    rintro _ p _ b₁ _ rfl
    refine (does_putWorker p.2).bind ?_
    rintro _ b₁ rfl
    exact Does.pure rfl
  rintro _ b rfl
  refine Does.bind (Q := fun _ b' => Moves Label.Sweep b b') ?_ ?_
  · refine Does.forM (fun _ b' => Moves Label.Sweep b b') ?_ (.refl _)
    intro _ id _ b₁ _ hm
    refine (does_requeueLeasesForWorker he ps id _).mono ?_
    intro _ b₂ hm'
    exact hm.trans hm'
  intro _ b₁ hm
  refine does_listLeases.bind ?_
  rintro ls b₁ ⟨rfl, _⟩
  refine (does_requeueAll he ps _ _).mono ?_
  intro _ b₂ hm'
  exact hm.trans hm'

theorem does_reaperTick (he : Sound env) (cfg : Config) (ps : Cron) :
    DoesOn env (reaperTick cfg ps) b fun _ b' => Moves Label.Sweep b b' := by
  refine does_isLeader.bind ?_
  rintro _ b ⟨rfl, rfl⟩
  exact does_reapOnce he cfg ps

end Distsched.Lifecycle
