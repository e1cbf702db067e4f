/-
The handlers of a serving node, read as sequences of moves on the board.
-/
import Distsched.Lifecycle.Invariant
import Distsched.Lifecycle.View

namespace Distsched.Lifecycle

open Scheduler Prog

variable {env : Env} {b : Board}

/-! ## Persisting and arming -/

theorem does_appendRepl (m : Mutation) : DoesOn env (appendRepl m) b fun _ b' => b' = b := by
  refine does_isLeader.bind ?_
  rintro _ b ⟨rfl, rfl⟩
  exact does_silent (.appendLog m) trivial

theorem does_putJob (he : Sound env) (j : Job) :
    DoesOn env (putJob j) b fun r b' => r = .ok () ∧ b' = b.put j := by
  refine (does_dbPutJob he j).bind ?_
  rintro _ _ ⟨rfl, rfl⟩
  refine (does_appendRepl _).bind ?_
  rintro _ _ rfl
  exact Does.pure ⟨rfl, rfl⟩

/-- A QUEUED job is pushed, any other left alone. -/
theorem does_enqueueJob (he : Sound env) (x : String) : DoesOn env (enqueueJob x) b fun _ b' =>
    (∃ j, b.jobs x = some j ∧ j.state = .queued ∧ b' = b.push x) ∨
      (∀ j, b.jobs x = some j → j.state ≠ .queued) ∧ b' = b := by
  refine does_isClosed.bind ?_
  rintro _ b ⟨rfl, rfl⟩
  refine does_isLeader.bind ?_
  rintro _ b ⟨rfl, rfl⟩
  refine (does_getJob he x).bind ?_
  rintro _ b ⟨rfl, ⟨rfl, hn⟩ | ⟨j, rfl, hj, hid⟩⟩
  · exact Does.pure (.inr ⟨by simp [hn], rfl⟩)
  · by_cases hs : j.state = .queued
    · simp only [hs, ne_eq, not_true_eq_false, ↓reduceIte]
      refine (does_push _ _ _).bind ?_
      rintro _ _ rfl
      exact Does.pure (.inl ⟨j, hj, hs, by rw [hid]⟩)
    · simp only [hs, ne_eq, not_false_eq_true, ↓reduceIte]
      refine Does.pure (.inr ⟨?_, rfl⟩)
      rintro j' hj'
      cases hj.symm.trans hj'
      exact hs

theorem does_armEnqueue (he : Sound env) {x : String} {j : Job} (hj : b.jobs x = some j) (hs : j.state = .queued)
    (delay : Int) : DoesOn env (armEnqueue x delay) b fun _ b' => b.Scheduled x b' := by
  unfold armEnqueue
  split
  · refine (does_enqueueJob he x).mono ?_
    rintro _ b' (⟨_, _, _, rfl⟩ | ⟨hn, _⟩)
    · exact .inl rfl
    · exact absurd hs (hn j hj)
  · exact (does_startTimer x delay).mono fun _ _ h => .inr h

theorem does_timerFired (he : Sound env) (x : String) :
    DoesOn env (timerFired x) b fun _ b' => Move (.fire x) b b' := by
  refine (does_deleteTimer x).bind ?_
  rintro _ _ rfl
  refine (does_enqueueJob he x).mono ?_
  rintro _ _ (⟨j, hj, hs, rfl⟩ | ⟨hn, rfl⟩)
  · exact .fire hj hs
  · exact .fizzle hn

/-! ## Dependencies -/

/-- The answer says whether every dependency has succeeded. -/
theorem does_depsSatisfied (he : Sound env) : ∀ {b : Board} (deps : List String),
    DoesOn env (depsSatisfied deps) b fun r b' =>
    b' = b ∧ ((r = (true, "") ∧ ∀ d ∈ deps, ∃ jd, b.jobs d = some jd ∧ jd.state = .succeeded) ∨
      (r.1 = false ∧ ∃ d ∈ deps, ∀ jd, b.jobs d = some jd → jd.state ≠ .succeeded))
  | _, [] => Does.pure ⟨rfl, .inl ⟨rfl, by simp⟩⟩
  | _, d :: rest => by
    refine (does_getJob he d).bind ?_
    rintro _ b ⟨rfl, ⟨rfl, hn⟩ | ⟨j, rfl, hj, _⟩⟩
    · exact Does.pure ⟨rfl, .inr ⟨rfl, d, List.mem_cons_self .., by simp [hn]⟩⟩
    · have hne : j.state ≠ .succeeded → ∀ jd, b.jobs d = some jd → jd.state ≠ .succeeded := by
        intro h jd hjd
        cases hj.symm.trans hjd
        exact h
      dsimp only
      cases hs : j.state with
      | succeeded =>
        refine (does_depsSatisfied he rest).mono ?_
        rintro r b ⟨rfl, ⟨hr, hall⟩ | ⟨hr, d', hd', hns⟩⟩
        · refine ⟨rfl, .inl ⟨hr, ?_⟩⟩
          rintro d' (_ | ⟨_, hd'⟩)
          · exact ⟨j, hj, hs⟩
          · exact hall d' hd'
        · exact ⟨rfl, .inr ⟨hr, d', List.mem_cons_of_mem _ hd', hns⟩⟩
      | unspecified | pending | queued | running | failed | canceled =>
        exact Does.pure ⟨rfl, .inr ⟨rfl, d, List.mem_cons_self .., hne (by rw [hs]; decide)⟩⟩

theorem does_depsSatisfied_met (he : Sound env) (j : Job) : DoesOn env (depsSatisfied j.dependsOn) b fun r b' =>
    b' = b ∧ ((r = (true, "") ∧ b.Met j) ∨ (r.1 = false ∧ ¬ b.Met j)) := by
  refine (does_depsSatisfied he j.dependsOn).mono ?_
  rintro r b ⟨rfl, ⟨hr, hall⟩ | ⟨hr, d, hd, hns⟩⟩
  · exact ⟨rfl, .inl ⟨hr, hall⟩⟩
  · refine ⟨rfl, .inr ⟨hr, fun hmet => ?_⟩⟩
    obtain ⟨jd, hjd, hs⟩ := hmet d hd
    exact hns jd hjd hs

theorem does_fireTime (ps : Cron) (j : Job) (now : Time) :
    DoesOn env (fireTime ps j now) b fun r b' => b' = b ∧ plan r.1 = plan j := by
  unfold fireTime
  split
  · exact Does.pure ⟨rfl, rfl⟩
  · split
    · split
      · exact Does.pure ⟨rfl, rfl⟩
      · refine (does_silent .now trivial).bind ?_
        rintro _ _ rfl
        exact Does.pure ⟨rfl, rfl⟩
    · split
      · exact Does.pure ⟨rfl, rfl⟩
      · split
        · refine (does_silent .now trivial).bind ?_
          rintro _ _ rfl
          exact Does.pure ⟨rfl, rfl⟩
        · exact Does.pure ⟨rfl, rfl⟩

/-- The job is stored QUEUED, and is ready or armed. -/
theorem does_makeReady (he : Sound env) (ps : Cron) (j : Job) (now : Time) :
    DoesOn env (makeReady ps j now) b fun _ b' =>
      ∃ j', plan j' = plan j ∧ j'.state = .queued ∧ (b.put j').Scheduled j.id b' := by
  refine (does_fireTime ps j now).bind ?_
  rintro ⟨j₁, delay⟩ b ⟨rfl, hp⟩
  refine (does_putJob he _).bind ?_
  rintro _ _ ⟨rfl, rfl⟩
  have hid : j₁.id = j.id := id_of_plan hp
  refine (does_armEnqueue he (x := j₁.id) (Function.update_self ..) rfl delay).mono ?_
  intro _ b' hb'
  exact ⟨{ j₁ with state := .queued, updatedAt := some now.ns }, hp, rfl, hid ▸ hb'⟩

theorem does_placeNewJob (he : Sound env) (ps : Cron) (j : Job) (now : Time) :
    DoesOn env (placeNewJob ps j now) b fun _ b' => Move (.place j.id) b b' := by
  refine (does_depsSatisfied_met he j).bind ?_
  rintro ⟨ready, failedDep⟩ b ⟨rfl, hr⟩
  dsimp only
  split
  · refine (does_putJob he _).bind ?_
    rintro _ _ ⟨rfl, rfl⟩
    exact Does.pure (Move.reject (j := { j with state := .canceled, lastError := _, updatedAt := _ }) rfl)
  · rename_i hf
    rcases hr with ⟨hr, hmet⟩ | ⟨rfl, hmet⟩
    · cases hr
      refine (does_makeReady he ps j now).mono ?_
      rintro _ b' ⟨j', hp, hs, hsch⟩
      have hid := id_of_plan hp
      rw [← hid] at hsch ⊢
      refine Move.accept hs ?_ hsch
      unfold Board.Met
      rw [dependsOn_of_plan hp]
      exact hmet
    · refine (does_putJob he _).bind ?_
      rintro _ _ ⟨rfl, rfl⟩
      refine (does_addDeps j).mono ?_
      rintro _ _ rfl
      exact Move.park (j := { j with state := .pending, updatedAt := _ }) rfl hmet

/-! ## Cancellation and promotion -/

/-- The moves of a cascade within `S`. -/
def Label.Cascade (S : Set String) : Label → Prop
  | .cancel x | .forget x => x ∈ S
  | _ => False

/-- Whoever waits on a job of `S` is in `S`. -/
def Closed (S : Set String) (b : Board) : Prop := ∀ d ∈ S, b.waits d ⊆ S

theorem closed_univ (b : Board) : Closed Set.univ b := fun _ _ => Set.subset_univ _

theorem Closed.of_waits {S : Set String} {b b' : Board} (h : Closed S b) (hw : ∀ d, b'.waits d ⊆ b.waits d) :
    Closed S b' := fun d hd => (hw d).trans (h d hd)

/-- The moves that re-evaluate waiting jobs. -/
def Label.Promotion : Label → Prop
  | .promote _ | .cancel _ | .forget _ => True
  | _ => False

theorem Label.Cascade.promotion {S : Set String} {l : Label} (h : l.Cascade S) : l.Promotion := by
  cases l <;> first | exact h.elim | trivial

theorem Label.Promotion.quiet {l : Label} (h : l.Promotion) : l.Quiet := by
  cases l <;> first | exact h.elim | trivial

theorem does_cancelOne (he : Sound env) {S : Set String} {cur : String} (hS : cur ∈ S) (reason : String) (now : Int) :
    DoesOn env (cancelOne cur reason now) b fun _ b' =>
      Moves (Label.Cascade S) b b' ∧ b'.waits = b.waits ∧ ∀ j, b'.jobs cur = some j → terminal j.state = true := by
  refine (does_getJob he cur).bind ?_
  rintro _ b ⟨rfl, ⟨rfl, hn⟩ | ⟨j, rfl, hj, hid⟩⟩
  · exact Does.pure ⟨.refl _, rfl, by simp [hn]⟩
  · dsimp only
    split
    · rename_i ht
      refine Does.pure ⟨.refl _, rfl, fun j' hj' => ?_⟩
      cases hj.symm.trans hj'
      exact ht
    · rename_i ht
      subst hid
      refine (does_putJob he _).bind ?_
      rintro _ _ ⟨rfl, rfl⟩
      refine (does_remove j.id).bind ?_
      rintro _ _ rfl
      refine Does.pure ⟨.single (Move.cancel hj (by simpa using ht) ?_ ?_) hS, rfl, ?_⟩
      · rfl
      · rfl
      · rintro j' hj'
        cases hj'.symm.trans (Function.update_self ..)
        rfl

theorem does_cascadeLoop (he : Sound env) {S : Set String} (now : Int) :
    ∀ (fuel : Nat) (visited work : List String) (reason : String) {b : Board}, (∀ x ∈ work, x ∈ S) → Closed S b →
      DoesOn env (cascadeLoop now fuel visited work reason) b fun _ b' => Moves (Label.Cascade S) b b'
  | 0, _, _, _, _, _, _ => Does.pure (.refl _)
  | _ + 1, _, [], _, _, _, _ => Does.pure (.refl _)
  | fuel + 1, visited, cur :: work, reason, b, hwork, hcl => by
    have hcur : cur ∈ S := hwork cur (List.mem_cons_self ..)
    unfold cascadeLoop
    split
    · exact does_cascadeLoop he now fuel visited work reason (fun x hx => hwork x (List.mem_cons_of_mem _ hx)) hcl
    · refine (does_cancelOne he hcur reason now).bind ?_
      rintro _ b₁ ⟨hm, hw, ht⟩
      refine (does_dependentsOf cur).bind ?_
      rintro deps b₁ ⟨rfl, hdeps⟩
      refine (does_removeFromIndex cur).bind ?_
      rintro _ _ rfl
      have hwork' : ∀ x ∈ deps.reverse ++ work, x ∈ S := by
        intro x hx
        rcases List.mem_append.1 hx with hx | hx
        · exact hcl cur hcur (hw ▸ (hdeps x).1 (List.mem_reverse.1 hx))
        · exact hwork x (List.mem_cons_of_mem _ hx)
      have hcl' : Closed S (b₁.unpark cur) := hcl.of_waits fun d x hx => hw ▸ hx.1
      refine (does_cascadeLoop he now fuel _ _ _ hwork' hcl').mono ?_
      intro _ b' hm'
      exact (hm.tail (.forget ht) hcur).trans hm'

/-- A cascade stays within every set that holds its root and is closed under waiting. -/
theorem does_cancelCascade (he : Sound env) {S : Set String} {x : String} (hx : x ∈ S) (hcl : Closed S b)
    (reason : String) : DoesOn env (cancelCascade x reason) b fun _ b' => Moves (Label.Cascade S) b b' := by
  refine (does_silent .now trivial).bind ?_
  rintro now b rfl
  refine (does_silent .indexBound trivial).bind ?_
  rintro bound b rfl
  refine does_cascadeLoop he _ _ _ _ _ ?_ hcl
  rintro y (_ | ⟨_, hy⟩)
  · exact hx
  · cases hy

/-- Whether it is promoted, cancelled or left waiting, the job has been looked at. -/
theorem does_tryPromote (he : Sound env) (ps : Cron) (x : String) : DoesOn env (tryPromote ps x) b fun _ b' =>
    Moves Label.Promotion b b' ∧ Blocked b' x := by
  refine (does_getJob he x).bind ?_
  rintro _ b ⟨rfl, ⟨rfl, hn⟩ | ⟨j, rfl, hj, rfl⟩⟩
  · exact Does.pure ⟨.refl _, fun j hj => by simp [hn] at hj⟩
  · have hmine : ∀ j', b.jobs j.id = some j' → j' = j := fun j' hj' => Option.some.inj (hj'.symm.trans hj)
    dsimp only
    split
    · rename_i hs
      refine Does.pure ⟨.refl _, fun j' hj' hs' => ?_⟩
      cases hmine j' hj'
      exact absurd hs' hs
    · rename_i hs
      rw [ne_eq, not_not] at hs
      refine (does_depsSatisfied_met he j).bind ?_
      rintro ⟨ready, failedDep⟩ b ⟨rfl, hr⟩
      have hblocked : ¬ b.Met j → Blocked b j.id := by
        intro hn j' hj' _
        cases hmine j' hj'
        exact hn
      dsimp only
      split
      · rename_i hf
        refine (does_cancelCascade he (Set.mem_univ _) (closed_univ b) _).mono ?_
        intro _ b' hm
        have hm : Moves Label.Promotion b b' := hm.mono fun l hl => hl.promotion
        refine ⟨hm, hm.blocked (fun l hl => hl.quiet) (hblocked ?_)⟩
        rcases hr with ⟨hr, _⟩ | ⟨_, hn⟩
        · cases hr
          exact absurd rfl hf
        · exact hn
      · split
        · rename_i hready
          have hmet : b.Met j := by
            rcases hr with ⟨_, hmet⟩ | ⟨rfl, _⟩
            · exact hmet
            · cases hready
          refine (does_silent .now trivial).bind ?_
          rintro now b rfl
          refine (does_makeReady he ps j now).bind ?_
          rintro _ b₁ ⟨j', hp, hs', hsch⟩
          refine (does_removeFromIndex j.id).mono ?_
          rintro _ _ rfl
          refine ⟨.single (Move.promote hj hs hmet hp hs' hsch) trivial, fun j₂ hj₂ hs₂ => ?_⟩
          rw [Board.unpark_jobs, hsch.jobs, ← id_of_plan hp] at hj₂
          cases hj₂.symm.trans (Function.update_self ..)
          rw [hs'] at hs₂
          cases hs₂
        · rename_i hready
          refine Does.pure ⟨.refl _, hblocked ?_⟩
          rcases hr with ⟨hr, _⟩ | ⟨_, hn⟩
          · cases hr
            exact absurd rfl hready
          · exact hn

theorem does_promoteDependents (he : Sound env) (ps : Cron) (D : String) :
    DoesOn env (promoteDependents ps D) b fun _ b' =>
      Moves Label.Promotion b b' ∧ ∀ x ∈ b.waits D, Blocked b' x := by
  refine (does_dependentsOf D).bind ?_
  rintro deps b ⟨rfl, hdeps⟩
  refine (Does.forM (fun done b' => Moves Label.Promotion b b' ∧ ∀ x ∈ done, Blocked b' x) ?_
    ⟨.refl _, by simp⟩).mono ?_
  · rintro done x _ b₁ _ ⟨hm, hd⟩
    refine (does_tryPromote he ps x).mono ?_
    rintro _ b₂ ⟨hm', hx⟩
    refine ⟨hm.trans hm', fun y hy => ?_⟩
    rcases List.mem_append.1 hy with hy | hy
    · exact hm'.blocked (fun l hl => hl.quiet) (hd y hy)
    · exact List.mem_singleton.1 hy ▸ hx
  · rintro _ b' ⟨hm, hd⟩
    exact ⟨hm, fun x hx => hd x ((hdeps x).2 hx)⟩

/-! ## The end of an attempt -/

/-- The job is re-armed for its next occurrence, or it has none. -/
theorem does_maybeRescheduleCron (he : Sound env) (ps : Cron) (j : Job) (now : Time) :
    DoesOn env (maybeRescheduleCron ps j now) b fun r b' =>
      (r.1 = true ∧ plan r.2 = plan j ∧ r.2.state = .queued ∧ (b.put r.2).Scheduled j.id b') ∨
        (r = (false, j) ∧ b' = b) := by
  unfold maybeRescheduleCron
  split
  · exact Does.pure (.inr ⟨rfl, rfl⟩)
  · split
    · exact Does.pure (.inr ⟨rfl, rfl⟩)
    · refine (does_putJob he _).bind ?_
      rintro _ _ ⟨rfl, rfl⟩
      refine (does_silent .now trivial).bind ?_
      rintro t b₁ hb₁
      refine (does_armEnqueue he (x := j.id) (by rw [hb₁]; exact Function.update_self ..) rfl _).bind ?_
      intro _ b₂ hb₂
      subst hb₁
      exact Does.pure (.inl ⟨rfl, rfl, rfl, hb₂⟩)

/-- An attempt of `x` has ended without success. -/
def Lost (x : String) (via : Option String) (b b' : Board) : Prop :=
  Move (.requeue x via) b b' ∨ Move (.bury x via) b b'

/-- The attempt is retried or buried, and burying cancels what waits on the job. -/
theorem does_handleFailure (he : Sound env) (ps : Cron) {j : Job} (hj : b.jobs j.id = some j)
    (hs : j.state = .running) {S : Set String} (hS : j.id ∈ S) (hcl : Closed S b) (err : String) (now : Time) :
    DoesOn env (handleFailure ps j err now) b fun r b' =>
      r = .ok () ∧ ∃ b₁, Lost j.id none b b₁ ∧ Moves (Label.Cascade S) b₁ b' := by
  have hvia : b.Via j.id none := by
    rintro τ h
    cases h
  have hcl' : ∀ j', Closed S ((b.put j').unpark j.id) := fun _ => hcl.of_waits fun _ _ hx => hx.1
  unfold handleFailure
  dsimp only
  split
  · refine (does_silent .float64 trivial).bind ?_
    rintro draw b rfl
    refine (does_putJob he _).bind ?_
    rintro _ _ ⟨rfl, rfl⟩
    refine (does_armEnqueue he (x := j.id) (Function.update_self ..) rfl _).bind ?_
    intro _ b₁ hb₁
    refine Does.pure ⟨rfl, b₁, .inl (Move.requeue hj hs hvia ?_ ?_ hb₁), .refl _⟩ <;> rfl
  · refine (does_maybeRescheduleCron he ps _ now).bind ?_
    rintro ⟨_, j'⟩ b₁ (⟨rfl, hp, hs', hsch⟩ | ⟨hr, hb₁⟩)
    · exact Does.pure ⟨rfl, b₁, .inl (Move.requeue hj hs hvia hp hs' hsch), .refl _⟩
    · cases hr
      subst hb₁
      refine (does_putDeadLetter he _).bind ?_
      rintro _ b ⟨rfl, rfl⟩
      refine (does_putJob he _).bind ?_
      rintro _ _ ⟨rfl, rfl⟩
      refine (does_removeFromIndex j.id).bind ?_
      rintro _ _ rfl
      refine (does_cancelCascade he hS (hcl' _) _).bind ?_
      intro _ b₂ hm
      refine Does.pure ⟨rfl, _, .inr (Move.bury hj hs hvia ?_ ?_), hm⟩ <;> rfl

/-- The moves of a promotion do not look at leases. -/
theorem Move.unlease {l : Label} {b' : Board} (hm : Move l b b') (hl : l.Promotion) (τ : String) :
    Move l (b.unlease τ) (b'.unlease τ) := by
  cases hm with
  | promote hj hs hmet hp hs' hsch =>
    rcases hsch with rfl | rfl
    · have := Move.promote (b := b.unlease τ) hj hs hmet hp hs' (.inl rfl)
      exact this
    · have := Move.promote (b := b.unlease τ) hj hs hmet hp hs' (.inr rfl)
      exact this
  | cancel hj ht hp hs' => exact Move.cancel (b := b.unlease τ) hj ht hp hs'
  | forget ht => exact Move.forget (b := b.unlease τ) ht
  | _ => exact hl.elim

theorem Moves.unlease {P : Label → Prop} {b' : Board} (hP : ∀ l, P l → l.Promotion) (hm : Moves P b b') (τ : String) :
    Moves P (b.unlease τ) (b'.unlease τ) := by
  induction hm with
  | refl => exact .refl _
  | tail _ hm ih =>
    obtain ⟨l, hl, hm⟩ := hm
    exact ih.tail (hm.unlease (hP l hl) τ) hl

/-- Giving back the lease after the attempt has ended, or before, comes to the same. -/
theorem Lost.unlease {x τ : String} {b' : Board} {l : Lease} (h : Lost x none b b') (hl : b.leases τ = some l)
    (hx : l.jobID = x) : Lost x (some τ) b (b'.unlease τ) := by
  have hvia : b.Via x (some τ) := by
    rintro _ ⟨⟩
    exact ⟨l, hl, hx⟩
  rcases h with h | h
  · cases h with
    | requeue hj hs _ hp hs' hsch =>
      rcases hsch with rfl | rfl
      · exact .inl (Move.requeue hj hs hvia hp hs' (.inl rfl))
      · exact .inl (Move.requeue hj hs hvia hp hs' (.inr rfl))
  · cases h with
    | bury hj hs _ hp hs' => exact .inr (Move.bury hj hs hvia hp hs')

theorem Move.requeue_of_unlease {x τ : String} {b' : Board} {l : Lease} (h : Move (.requeue x none) (b.unlease τ) b')
    (hl : b.leases τ = some l) (hx : l.jobID = x) : Move (.requeue x (some τ)) b b' := by
  cases h with
  | requeue hj hs _ hp hs' hsch =>
    refine Move.requeue hj hs ?_ hp hs' hsch
    rintro _ ⟨⟩
    exact ⟨l, hl, hx⟩

theorem Move.bury_of_unlease {x τ : String} {b' : Board} {l : Lease} (h : Move (.bury x none) (b.unlease τ) b')
    (hl : b.leases τ = some l) (hx : l.jobID = x) : Move (.bury x (some τ)) b b' := by
  cases h with
  | bury hj hs _ hp hs' =>
    refine Move.bury hj hs ?_ hp hs'
    rintro _ ⟨⟩
    exact ⟨l, hl, hx⟩

theorem Lost.of_unlease {x τ : String} {b' : Board} {l : Lease} (h : Lost x none (b.unlease τ) b')
    (hl : b.leases τ = some l) (hx : l.jobID = x) : Lost x (some τ) b b' :=
  h.imp (fun h => h.requeue_of_unlease hl hx) fun h => h.bury_of_unlease hl hx

/-- What becomes of a lease that is given up: nothing if it is not held, else it is released if its job is
no longer RUNNING, and its attempt is lost if it is. -/
def Drops (τ : String) (b b' : Board) : Prop :=
  b' = b ∨ ∃ l, b.leases τ = some l ∧
    (Move (.release τ) b b' ∨ ∃ b₁, Lost l.jobID (some τ) b b₁ ∧ Moves (Label.Cascade Set.univ) b₁ b')

theorem does_requeueLease (he : Sound env) (ps : Cron) (τ reason : String) :
    DoesOn env (requeueLease ps τ reason) b fun _ b' => Drops τ b b' := by
  refine (does_getLease τ).bind ?_
  rintro _ b ⟨rfl, rfl⟩
  cases hl : b.leases τ with
  | none => exact Does.pure (.inl rfl)
  | some l =>
    refine (does_removeLease τ).bind ?_
    rintro _ _ rfl
    refine (does_getJob he l.jobID).bind ?_
    rintro _ b₁ ⟨hb₁, ⟨rfl, hn⟩ | ⟨j, rfl, hj, hid⟩⟩
    · subst hb₁
      refine Does.pure (.inr ⟨l, hl, .inl (.release ?_)⟩)
      intro l' j hl' hj
      cases hl.symm.trans hl'
      rw [Board.unlease_jobs, hj] at hn
      cases hn
    · subst hb₁
      dsimp only
      split
      · rename_i hs
        refine Does.pure (.inr ⟨l, hl, .inl (.release ?_)⟩)
        intro l' j' hl' hj'
        cases hl.symm.trans hl'
        cases hj.symm.trans hj'
        exact hs
      · rename_i hs
        rw [ne_eq, not_not] at hs
        refine (does_silent .now trivial).bind ?_
        rintro now b₁ hb₁
        subst hb₁
        rw [← hid] at hj
        refine (does_handleFailure he ps hj hs (Set.mem_univ _) (closed_univ _) reason now).bind ?_
        rintro _ b' ⟨_, b₂, hlost, hm⟩
        exact Does.pure (.inr ⟨l, hl, .inr ⟨b₂, hid ▸ hlost.of_unlease hl hid.symm, hm⟩⟩)

/-- A cron job is re-armed, any other completes. -/
theorem does_reportSuccess (he : Sound env) (ps : Cron) {j : Job} {τ : String} {l : Lease}
    (hj : b.jobs j.id = some j) (hs : j.state = .running) (hl : b.leases τ = some l) (hx : l.jobID = j.id)
    (now : Time) : DoesOn env (reportSuccess ps τ j now) b fun _ b' =>
      Move (.requeue j.id (some τ)) b b' ∨ Completes Label.Promotion j.id τ b b' := by
  refine (does_removeLease τ).bind ?_
  rintro _ _ rfl
  refine (does_maybeRescheduleCron he ps j now).bind ?_
  rintro ⟨_, j'⟩ b₁ (⟨rfl, hp, hs', hsch⟩ | ⟨hr, rfl⟩)
  · refine Does.pure (.inl (Move.requeue hj hs ?_ hp hs' hsch))
    rintro _ ⟨⟩
    exact ⟨l, hl, hx⟩
  · cases hr
    refine (does_putJob he _).bind ?_
    rintro _ _ ⟨rfl, rfl⟩
    refine (does_removeFromIndex j.id).bind ?_
    rintro _ _ rfl
    have hm : Move (.succeed j.id τ) b (((b.unlease τ).put (completed j now.ns)).unpark j.id) :=
      Move.succeed hj hs hl hx rfl rfl
    refine (does_promoteDependents he ps j.id).bind ?_
    rintro _ b' ⟨hq, hw⟩
    refine Does.pure (.inr ⟨_, hm, hq, fun x hxw => ?_⟩)
    -- the completed job itself is no longer waiting on anything
    by_cases hxj : x = j.id
    · refine hq.blocked (fun _ hl => hl.quiet) fun j₁ hj₁ hs₁ => ?_
      rw [hxj] at hj₁
      cases hj₁.symm.trans (Function.update_self ..)
      cases hs₁
    · exact hw x ⟨hxw, hxj⟩

theorem does_requireLeader (cfg : Config) : DoesOn env (requireLeader cfg) b fun r b' => r = none ∧ b' = b := by
  refine does_isLeader.bind ?_
  rintro _ b ⟨rfl, rfl⟩
  exact Does.pure ⟨rfl, rfl⟩

theorem does_reportTask (he : Sound env) (cfg : Config) (ps : Cron) (τ : String) (result : TaskResult) (err : String) :
    DoesOn env (reportTask cfg ps τ result err) b fun _ b' =>
      Drops τ b b' ∨ ∃ l, b.leases τ = some l ∧ Completes Label.Promotion l.jobID τ b b' := by
  refine (does_requireLeader cfg).bind ?_
  rintro _ b ⟨rfl, rfl⟩
  refine (does_getLease τ).bind ?_
  rintro _ b ⟨rfl, rfl⟩
  cases hl : b.leases τ with
  | none => exact Does.pure (.inl (.inl rfl))
  | some l =>
    refine (does_getJob he l.jobID).bind ?_
    rintro _ b ⟨rfl, ⟨rfl, hn⟩ | ⟨j, rfl, hj, hid⟩⟩
    · refine (does_removeLease τ).bind ?_
      rintro _ _ rfl
      refine Does.pure (.inl (.inr ⟨l, hl, .inl (.release ?_)⟩))
      intro l' j hl' hj
      cases hl.symm.trans hl'
      rw [hj] at hn
      cases hn
    · dsimp only
      split
      · rename_i hs
        refine (does_removeLease τ).bind ?_
        rintro _ _ rfl
        refine Does.pure (.inl (.inr ⟨l, hl, .inl (.release ?_)⟩))
        intro l' j' hl' hj'
        cases hl.symm.trans hl'
        cases hj.symm.trans hj'
        exact hs
      · rename_i hs
        rw [ne_eq, not_not] at hs
        refine (does_silent .now trivial).bind ?_
        rintro now b rfl
        rw [← hid] at hj
        cases result with
        | succeeded =>
          refine (does_reportSuccess he ps hj hs hl hid.symm now).mono ?_
          rintro _ b' (hm | hc)
          · exact .inl (.inr ⟨l, hl, .inr ⟨b', .inl (hid ▸ hm), .refl _⟩⟩)
          · exact .inr ⟨l, rfl, hid ▸ hc⟩
        | failed =>
          refine (does_handleFailure he ps hj hs (Set.mem_univ _) (closed_univ _) err now).bind ?_
          rintro _ b₁ ⟨rfl, b₂, hlost, hm⟩
          refine (does_removeLease τ).bind ?_
          rintro _ _ rfl
          exact Does.pure (.inl (.inr ⟨l, hl, .inr ⟨_, hid ▸ hlost.unlease hl hid.symm,
            hm.unlease (fun _ hl => hl.promotion) τ⟩⟩))
        | unspecified => exact Does.pure (.inl (.inl rfl))

end Distsched.Lifecycle
