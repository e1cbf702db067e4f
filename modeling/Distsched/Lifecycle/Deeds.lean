/-
The activities of a serving node in larger deeds than moves. A job is dead-lettered, or dropped by a promotion because a
dependency of it has failed, together with the whole cascade that follows; every other deed is a single move that ends no
job in FAILED or CANCELED.
-/
import Distsched.Lifecycle.Cascade
import Distsched.Lifecycle.Rebuild

namespace Distsched.Lifecycle

open Scheduler Prog

variable {env : Env} {b b' b₁ : Board} {x τ : String} {j : Job}

/-- FAILED or CANCELED. -/
def Broken (st : JobState) : Prop := st = .failed ∨ st = .canceled

theorem Broken.terminal {st : JobState} (h : Broken st) : terminal st = true := by
  rcases h with rfl | rfl <;> rfl

/-- The first of the dependencies that has not SUCCEEDED is FAILED or CANCELED. -/
def Doomed (T : String → Option Job) : List String → Prop
  | [] => False
  | d :: rest => ∃ j, T d = some j ∧ (Broken j.state ∨ (j.state = .succeeded ∧ Doomed T rest))

theorem Doomed.exists_broken {T : String → Option Job} : ∀ {deps : List String}, Doomed T deps →
    ∃ d ∈ deps, ∃ j, T d = some j ∧ Broken j.state
  | d :: _, ⟨j, hj, .inl hb⟩ => ⟨d, List.mem_cons_self .., j, hj, hb⟩
  | _ :: _, ⟨_, _, .inr ⟨_, h⟩⟩ => by
    obtain ⟨d, hd, hbroken⟩ := h.exists_broken
    exact ⟨d, List.mem_cons_of_mem _ hd, hbroken⟩

/-- The job has no attempt left, and no further occurrence. -/
def Exhausted (ps : Cron) (j : Job) : Prop :=
  Retry.maxAttempts j.retryPolicy ≤ j.attempt ∧ (j.cronExpr = "" ∨ ∃ e, ps j.cronExpr = .error e)

/-- The moves that are deeds of their own. -/
def Label.Plain : Label → Prop
  | .promote _ | .succeed _ _ | .requeue _ _ | .release _ | .record _ | .enqueue _ => True
  | _ => False

inductive Deed : Board → Board → Prop
  | plain {b b' : Board} {l : Label} (hl : l.Plain) (hm : Move l b b') : Deed b b'
  | bury {b b₁ b' : Board} {f : String} {via : Option String} (hm : Move (.bury f via) b b₁) (hc : Cascades f b₁ b') :
    Deed b b'
  | expel {b b' : Board} {p : String} {j : Job} (hj : b.jobs p = some j) (hs : j.state = .pending)
    (hd : Doomed b.jobs j.dependsOn) (hc : Cascades p b b') : Deed b b'

/-- Any number of deeds. -/
abbrev Deeds : Board → Board → Prop := Relation.ReflTransGen Deed

/-- Not a submission. -/
def Label.Settling : Label → Prop
  | .place _ => False
  | _ => True

theorem Label.Plain.settling {l : Label} (h : l.Plain) : l.Settling := by
  cases l <;> first | exact h.elim | trivial

theorem Label.Cascade.settling {S : Set String} {l : Label} (h : l.Cascade S) : l.Settling := by
  cases l <;> first | exact h.elim | trivial

theorem Deed.moves (h : Deed b b') : Moves Label.Settling b b' := by
  cases h with
  | plain hl hm => exact .single hm hl.settling
  | bury hm hc => exact (Moves.single hm trivial).trans (hc.moves.mono fun _ hl => hl.settling)
  | expel _ _ _ hc => exact hc.moves.mono fun _ hl => hl.settling

theorem Deeds.moves (h : Deeds b b') : Moves Label.Settling b b' := by
  induction h with
  | refl => exact .refl _
  | tail _ ha ih => exact ih.trans ha.moves

/-! ## Promotion -/

/-- The answer names a failed dependency exactly if the dependencies are doomed, unless a job has no name. -/
theorem does_depsSatisfied_doomed (he : Sound env) : ∀ {b : Board} (deps : List String),
    DoesOn env (depsSatisfied deps) b fun r b' =>
      b' = b ∧ (r.2 ≠ "" → Doomed b.jobs deps) ∧ (b.jobs "" = none → Doomed b.jobs deps → r.2 ≠ "")
  | _, [] => Does.pure ⟨rfl, fun h => absurd rfl h, fun _ h => h.elim⟩
  | _, d :: rest => by
    refine (does_getJob he d).bind ?_
    rintro _ b ⟨rfl, ⟨rfl, hn⟩ | ⟨j, rfl, hj, _⟩⟩
    · refine Does.pure ⟨rfl, fun h => absurd rfl h, ?_⟩
      rintro _ ⟨j, hj, _⟩
      rw [hn] at hj
      cases hj
    · have hmine : ∀ {j'}, b.jobs d = some j' → j' = j := fun hj' => Option.some.inj (hj'.symm.trans hj)
      dsimp only
      cases hs : j.state
      case succeeded =>
        refine (does_depsSatisfied_doomed he rest).mono ?_
        rintro r b ⟨rfl, hdoom, hnamed⟩
        refine ⟨rfl, fun hr => ⟨j, hj, .inr ⟨hs, hdoom hr⟩⟩, ?_⟩
        rintro hempty ⟨j', hj', hb | ⟨_, hrest⟩⟩
        · rw [hmine hj', hs] at hb
          rcases hb with h | h <;> cases h
        · exact hnamed hempty hrest
      case failed | canceled =>
        refine Does.pure ⟨rfl, fun _ => ⟨j, hj, .inl (by rw [hs]; simp [Broken])⟩, ?_⟩
        rintro hempty _ rfl
        rw [hempty] at hj
        cases hj
      all_goals
        refine Does.pure ⟨rfl, fun h => absurd rfl h, ?_⟩
        rintro _ ⟨j', hj', hb | ⟨hs', _⟩⟩
        · rw [hmine hj', hs] at hb
          rcases hb with h | h <;> cases h
        · rw [hmine hj', hs] at hs'
          cases hs'

/-- What a promotion makes of the board: the job is left alone, or moved on, or ended with all that wait on it. -/
inductive Promotes (x : String) (b : Board) : Board → Prop
  | left : Promotes x b b
  | moved {b' : Board} (hm : Move (.promote x) b b') : Promotes x b b'
  | expelled {b' : Board} {j : Job} (hj : b.jobs x = some j) (hs : j.state = .pending) (hd : Doomed b.jobs j.dependsOn)
    (hc : Cascades x b b') : Promotes x b b'

theorem Promotes.deeds (h : Promotes x b b') : Deeds b b' := by
  cases h with
  | left => exact .refl
  | moved hm => exact .single (.plain (l := .promote x) trivial hm)
  | expelled hj hs hd hc => exact .single (.expel hj hs hd hc)

/-- A job that is still PENDING has been left alone, and is not doomed. -/
theorem promotes_tryPromote (he : Sound env) (ps : Cron) (x : String) : DoesOn env (tryPromote ps x) b fun _ b' =>
    Promotes x b b' ∧ ∀ j, b'.jobs x = some j → j.state = .pending →
      b' = b ∧ (b.jobs "" = none → ¬ Doomed b.jobs j.dependsOn) := by
  refine (does_getJob he x).bind ?_
  rintro _ b ⟨rfl, ⟨rfl, hn⟩ | ⟨j, rfl, hj, rfl⟩⟩
  · refine Does.pure ⟨.left, fun j hj => ?_⟩
    rw [hn] at hj
    cases hj
  · dsimp only
    split
    · rename_i hs
      refine Does.pure ⟨.left, fun j' hj' hs' => ?_⟩
      cases hj.symm.trans hj'
      exact absurd hs' hs
    · rename_i hs
      rw [ne_eq, not_not] at hs
      refine ((does_depsSatisfied_met he j).and (does_depsSatisfied_doomed he j.dependsOn)).bind ?_
      rintro ⟨ready, failedDep⟩ b ⟨⟨rfl, hr⟩, -, hdoom, hnamed⟩
      dsimp only at hdoom hnamed ⊢
      split
      · rename_i hf
        refine (does_cancelCascade_cascades he j.id _).mono ?_
        intro _ b' hc
        refine ⟨.expelled hj hs (hdoom hf) hc, fun j' hj' hs' => ?_⟩
        have := hc.ended j.id .refl j' hj'
        rw [hs'] at this
        cases this
      · rename_i hf
        split
        · rename_i hready
          have hmet : b.Met j := by
            rcases hr with ⟨_, hmet⟩ | ⟨rfl, _⟩
            · exact hmet
            · cases hready
          refine (does_silent .now trivial).bind ?_
          rintro now b rfl
          refine (does_makeReady he ps j now).bind ?_
          rintro _ b₁ ⟨j', hp, hs', hsch⟩
          refine (does_removeFromIndex j.id).mono ?_
          rintro _ _ rfl
          refine ⟨.moved (Move.promote hj hs hmet hp hs' hsch), fun j₂ hj₂ hs₂ => ?_⟩
          rw [Board.unpark_jobs, hsch.jobs, ← id_of_plan hp] at hj₂
          cases hj₂.symm.trans (Function.update_self ..)
          rw [hs'] at hs₂
          cases hs₂
        · refine Does.pure ⟨.left, fun j' hj' _ => ?_⟩
          cases hj.symm.trans hj'
          exact ⟨rfl, fun hempty hd => hf (hnamed hempty hd)⟩

theorem deeds_tryPromote (he : Sound env) (ps : Cron) (x : String) :
    DoesOn env (tryPromote ps x) b fun _ b' => Deeds b b' :=
  (promotes_tryPromote he ps x).mono fun _ _ h => h.1.deeds

theorem deeds_promoteDependents (he : Sound env) (ps : Cron) (D : String) :
    DoesOn env (promoteDependents ps D) b fun _ b' => Deeds b b' := by
  refine (does_dependentsOf D).bind ?_
  rintro deps b ⟨rfl, _⟩
  refine Does.forM (fun _ b' => Deeds b b') ?_ .refl
  intro _ x _ b₁ _ ha
  exact (deeds_tryPromote he ps x).mono fun _ _ ha' => ha.trans ha'

/-! ## The end of an attempt -/

/-- An attempt of `j` is lost: the job is tried again, or it is exhausted and buried, with all that waits on it. -/
def Loses (ps : Cron) (j : Job) (via : Option String) (b b' : Board) : Prop :=
  (¬ Exhausted ps j ∧ Move (.requeue j.id via) b b') ∨ (Exhausted ps j ∧ ∃ b₁, Move (.bury j.id via) b b₁ ∧ Cascades j.id b₁ b')

theorem Loses.deed {ps : Cron} {via : Option String} (h : Loses ps j via b b') : Deed b b' := by
  rcases h with ⟨_, h⟩ | ⟨_, b₁, h, hc⟩
  · exact .plain (l := .requeue j.id via) trivial h
  · exact .bury h hc

theorem Loses.of_unlease {ps : Cron} {l : Lease} (h : Loses ps j none (b.unlease τ) b') (hl : b.leases τ = some l)
    (hx : l.jobID = j.id) : Loses ps j (some τ) b b' := by
  rcases h with ⟨hex, h⟩ | ⟨hex, b₁, h, hc⟩
  · exact .inl ⟨hex, h.requeue_of_unlease hl hx⟩
  · exact .inr ⟨hex, b₁, h.bury_of_unlease hl hx, hc⟩

/-- A record whose attempt is lost is not RUNNING any more. -/
theorem Loses.idle {ps : Cron} {via : Option String} (h : Loses ps j via b b') :
    ∀ j', b'.jobs j.id = some j' → j'.state ≠ .running := by
  intro j' hj' hs
  rcases h with ⟨_, h⟩ | ⟨_, b₁, h, hc⟩
  · exact Lost.idle (.inl h) j' hj' hs
  · have := hc.ended j.id .refl j' hj'
    rw [hs] at this
    cases this

theorem nextCron_error {ps : Cron} {expr e : String} {now : Time} (h : nextCron ps expr now = .error e) :
    ps expr = .error e := by
  unfold nextCron at h
  split at h
  · rename_i he
    cases h
    exact he
  · cases h

theorem nextCron_ok {ps : Cron} {expr : String} {now t : Time} (h : nextCron ps expr now = .ok t) (e : String) :
    ps expr ≠ .error e := by
  intro he
  simp [nextCron, he] at h

/-- A job is re-armed exactly if it has a further occurrence. -/
theorem does_maybeRescheduleCron_none (he : Sound env) (ps : Cron) (j : Job) (now : Time) :
    DoesOn env (maybeRescheduleCron ps j now) b fun r _ => r.1 = false ↔ j.cronExpr = "" ∨ ∃ e, ps j.cronExpr = .error e := by
  unfold maybeRescheduleCron
  split
  · rename_i hc
    exact Does.pure (iff_of_true rfl (.inl hc))
  · rename_i hc
    split
    · rename_i e hn
      exact Does.pure (iff_of_true rfl (.inr ⟨e, nextCron_error hn⟩))
    · rename_i next hn
      refine (does_putJob he _).bind ?_
      rintro _ _ ⟨rfl, rfl⟩
      refine (does_silent .now trivial).bind ?_
      rintro t b₁ hb₁
      refine (does_armEnqueue he (x := j.id) (by rw [hb₁]; exact Function.update_self ..) rfl _).bind ?_
      intro _ b₂ _
      refine Does.pure (iff_of_false nofun ?_)
      rintro (h | ⟨e, h⟩)
      · exact hc h
      · exact nextCron_ok hn e h

theorem loses_handleFailure (he : Sound env) (ps : Cron) (hj : b.jobs j.id = some j) (hs : j.state = .running)
    (err : String) (now : Time) : DoesOn env (handleFailure ps j err now) b fun r b' =>
      r = .ok () ∧ Loses ps j none b b' := by
  have hvia : b.Via j.id none := by
    rintro τ h
    cases h
  unfold handleFailure
  dsimp only
  split
  · rename_i hlt
    refine (does_silent .float64 trivial).bind ?_
    rintro draw b rfl
    refine (does_putJob he _).bind ?_
    rintro _ _ ⟨rfl, rfl⟩
    refine (does_armEnqueue he (x := j.id) (Function.update_self ..) rfl _).bind ?_
    intro _ b₁ hb₁
    refine Does.pure ⟨rfl, .inl ⟨fun hex => absurd hex.1 (not_le.2 hlt), Move.requeue hj hs hvia ?_ ?_ hb₁⟩⟩ <;> rfl
  · rename_i hge
    refine ((does_maybeRescheduleCron he ps _ now).and (does_maybeRescheduleCron_none he ps _ now)).bind ?_
    rintro ⟨_, j'⟩ b₁ ⟨⟨rfl, hp, hs', hsch⟩ | ⟨hr, hb₁⟩, hcron⟩
    · refine Does.pure ⟨rfl, .inl ⟨fun hex => ?_, Move.requeue hj hs hvia hp hs' hsch⟩⟩
      exact absurd (hcron.2 hex.2) nofun
    · cases hr
      subst hb₁
      refine (does_putDeadLetter he _).bind ?_
      rintro _ b ⟨rfl, rfl⟩
      refine (does_putJob he _).bind ?_
      rintro _ _ ⟨rfl, rfl⟩
      refine (does_removeFromIndex j.id).bind ?_
      rintro _ _ rfl
      refine (does_cancelCascade_cascades he j.id _).bind ?_
      intro _ b₂ hc
      refine Does.pure ⟨rfl, .inr ⟨⟨not_lt.1 hge, hcron.1 rfl⟩, _, Move.bury hj hs hvia ?_ ?_, hc⟩⟩ <;> rfl

/-- A lease on a job that is not RUNNING is dropped. -/
theorem Deeds.release {l : Lease} (hl : b.leases τ = some l) (hn : ∀ j, b.jobs l.jobID = some j → j.state ≠ .running) :
    Deeds b (b.unlease τ) := by
  refine .single (.plain (l := .release τ) trivial (.release fun l' j hl' hj => ?_))
  cases hl.symm.trans hl'
  exact hn j hj

theorem deeds_requeueLease (he : Sound env) (ps : Cron) (τ reason : String) :
    DoesOn env (requeueLease ps τ reason) b fun _ b' => Deeds b b' := by
  refine (does_getLease τ).bind ?_
  rintro _ b ⟨rfl, rfl⟩
  cases hl : b.leases τ with
  | none => exact Does.pure .refl
  | some l =>
    refine (does_removeLease τ).bind ?_
    rintro _ _ rfl
    refine (does_getJob he l.jobID).bind ?_
    rintro _ b₁ ⟨hb₁, ⟨rfl, hn⟩ | ⟨j, rfl, hj, hid⟩⟩
    · subst hb₁
      refine Does.pure (.release hl fun j hj => ?_)
      rw [Board.unlease_jobs, hj] at hn
      cases hn
    · subst hb₁
      dsimp only
      split
      · rename_i hs
        refine Does.pure (.release hl fun j' hj' => ?_)
        cases hj.symm.trans hj'
        exact hs
      · rename_i hs
        rw [ne_eq, not_not] at hs
        refine (does_silent .now trivial).bind ?_
        rintro now b₁ hb₁
        subst hb₁
        rw [← hid] at hj
        refine (loses_handleFailure he ps hj hs reason now).bind ?_
        rintro _ b' ⟨_, hlose⟩
        exact Does.pure (.single (hlose.of_unlease hl hid.symm).deed)

/-! ## Reports, sweeps and cancellations -/

theorem deeds_reportSuccess (he : Sound env) (ps : Cron) {l : Lease} (hj : b.jobs j.id = some j)
    (hs : j.state = .running) (hl : b.leases τ = some l) (hx : l.jobID = j.id) (now : Time) :
    DoesOn env (reportSuccess ps τ j now) b fun _ b' => Deeds b b' := by
  refine (does_removeLease τ).bind ?_
  rintro _ _ rfl
  refine (does_maybeRescheduleCron he ps j now).bind ?_
  rintro ⟨_, j'⟩ b₁ (⟨rfl, hp, hs', hsch⟩ | ⟨hr, rfl⟩)
  · refine Does.pure (.single (.plain (l := .requeue j.id (some τ)) trivial (Move.requeue hj hs ?_ hp hs' hsch)))
    rintro _ ⟨⟩
    exact ⟨l, hl, hx⟩
  · cases hr
    refine (does_putJob he _).bind ?_
    rintro _ _ ⟨rfl, rfl⟩
    refine (does_removeFromIndex j.id).bind ?_
    rintro _ _ rfl
    have hm : Move (.succeed j.id τ) b (((b.unlease τ).put (completed j now.ns)).unpark j.id) :=
      Move.succeed hj hs hl hx rfl rfl
    refine (deeds_promoteDependents he ps j.id).bind ?_
    intro _ b' ha
    exact Does.pure (.head (.plain (l := .succeed j.id τ) trivial hm) ha)

/-- No deed hands out a lease. -/
theorem Deed.of_leases (h : Deed b b') {ls : Lease} (hl : b'.leases τ = some ls) : b.leases τ = some ls := by
  have hcascade : ∀ {S : Set String} {b b' : Board}, Moves (Label.Cascade S) b b' → b'.leases τ = some ls →
      b.leases τ = some ls := by
    intro S b b' hm
    refine hm.preserves (I := fun b₁ => b₁.leases τ = some ls → b.leases τ = some ls) ?_ id
    intro l b₁ b₂ hl hm hi h
    exact hi (hm.of_leases (by rintro y rfl; exact hl) h)
  cases h with
  | plain hlab hm => exact hm.of_leases (by rintro y rfl; exact hlab) hl
  | bury hm hc => exact hm.of_leases (by rintro y ⟨⟩) (hcascade hc.moves hl)
  | expel _ _ _ hc => exact hcascade hc.moves hl

theorem deeds_reportTask (he : Sound env) (cfg : Config) (ps : Cron) (τ : String) (result : TaskResult) (err : String) :
    DoesOn env (reportTask cfg ps τ result err) b fun _ b' => Deeds b b' := by
  refine (does_requireLeader cfg).bind ?_
  rintro _ b ⟨rfl, rfl⟩
  refine (does_getLease τ).bind ?_
  rintro _ b ⟨rfl, rfl⟩
  cases hl : b.leases τ with
  | none => exact Does.pure .refl
  | some l =>
    refine (does_getJob he l.jobID).bind ?_
    rintro _ b ⟨rfl, ⟨rfl, hn⟩ | ⟨j, rfl, hj, hid⟩⟩
    · refine (does_removeLease τ).bind ?_
      rintro _ _ rfl
      refine Does.pure (.release hl fun j hj => ?_)
      rw [hj] at hn
      cases hn
    · dsimp only
      split
      · rename_i hs
        refine (does_removeLease τ).bind ?_
        rintro _ _ rfl
        refine Does.pure (.release hl fun j' hj' => ?_)
        cases hj.symm.trans hj'
        exact hs
      · rename_i hs
        rw [ne_eq, not_not] at hs
        refine (does_silent .now trivial).bind ?_
        rintro now b rfl
        rw [← hid] at hj
        cases result with
        | succeeded => exact deeds_reportSuccess he ps hj hs hl hid.symm now
        | failed =>
          refine (loses_handleFailure he ps hj hs err now).bind ?_
          rintro _ b₁ ⟨rfl, hlose⟩
          refine (does_removeLease τ).bind ?_
          rintro _ _ rfl
          -- the attempt is over, so its lease is one on a job that is not RUNNING
          have hm : Move (.release τ) b₁ (b₁.unlease τ) := by
            refine .release fun l' j' hl' hj' => ?_
            cases hl.symm.trans (hlose.deed.of_leases hl')
            rw [← hid] at hj'
            exact hlose.idle j' hj'
          exact Does.pure (.tail (.single hlose.deed) (.plain (l := .release τ) trivial hm))
        | unspecified => exact Does.pure .refl

theorem deeds_requeueAll (he : Sound env) (ps : Cron) (reason : String) (τs : List String) :
    DoesOn env (τs.forM fun τ => requeueLease ps τ reason) b fun _ b' => Deeds b b' := by
  refine Does.forM (fun _ b' => Deeds b b') ?_ .refl
  intro _ τ _ b₁ _ ha
  exact (deeds_requeueLease he ps τ reason).mono fun _ _ ha' => ha.trans ha'

theorem deeds_reaperTick (he : Sound env) (cfg : Config) (ps : Cron) :
    DoesOn env (reaperTick cfg ps) b fun _ b' => Deeds b b' := by
  refine does_isLeader.bind ?_
  rintro _ b ⟨rfl, rfl⟩
  refine Does.bind (does_silent .now trivial) ?_
  rintro now b rfl
  refine (does_silent .listCached trivial).bind ?_
  rintro cached b rfl
  refine Does.bind (Q := fun _ b' => b' = b) ?_ ?_
  · refine Does.forM (fun _ b' => b' = b) ?_ rfl
    rintro _ p _ b₁ _ rfl
    exact (does_putWorker p.2).bind fun _ _ h => Does.pure h
  rintro _ b rfl
  refine Does.bind (Q := fun _ b' => Deeds b b') ?_ ?_
  · refine Does.forM (fun _ b' => Deeds b b') ?_ .refl
    intro _ id _ b₁ _ ha
    refine does_listLeases.bind ?_
    rintro ls b₁ ⟨rfl, _⟩
    exact (deeds_requeueAll he ps _ _).mono fun _ _ ha' => ha.trans ha'
  intro _ b₁ ha
  refine does_listLeases.bind ?_
  rintro ls b₁ ⟨rfl, _⟩
  exact (deeds_requeueAll he ps _ _).mono fun _ _ ha' => ha.trans ha'

/-- A cancellation is one move and the cascade from it. -/
theorem cascades_cancelJob (he : Sound env) (cfg : Config) (x : String) :
    DoesOn env (cancelJob cfg x) b fun _ b' => b' = b ∨ ∃ b₁, Move (.cancel x) b b₁ ∧ Cascades x b₁ b' := by
  refine (does_requireLeader cfg).bind ?_
  rintro _ b ⟨rfl, rfl⟩
  refine (does_loadJob he x).bind ?_
  rintro r b ⟨rfl, hload⟩
  cases r with
  | error e => exact Does.pure (.inl rfl)
  | ok j =>
    obtain ⟨hj, rfl⟩ := hload j rfl
    dsimp only
    split
    · exact Does.pure (.inl rfl)
    · rename_i hc
      split
      · exact Does.pure (.inl rfl)
      · rename_i hsf
        have ht : terminal j.state = false := by
          cases hs : j.state <;> simp_all [terminal]
        refine (does_silent .now trivial).bind ?_
        rintro now b rfl
        refine (does_putJob he _).bind ?_
        rintro _ _ ⟨rfl, rfl⟩
        refine (does_remove j.id).bind ?_
        rintro _ _ rfl
        refine (does_cancelCascade_cascades he j.id _).bind ?_
        intro _ b' hc
        refine Does.pure (.inr ⟨_, Move.cancel hj ht ?_ ?_, hc⟩) <;> rfl

end Distsched.Lifecycle
