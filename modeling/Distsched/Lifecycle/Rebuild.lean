/-
A rebuild, from a store of any content: it leaves a settled board, with no lease and no RUNNING job.

The first pass handles the listed jobs one by one from the listing, not from the store. That is sound
because a cascade it sets off reaches only jobs already recorded as waiting, which are jobs it has
already handled.
-/
import Distsched.Lifecycle.Activities

namespace Distsched.Lifecycle

open Scheduler Prog

variable {env : Env} {b b' : Board} {S : Set String} {js : List Job} {x : String}

/-! ## The first pass -/

/-- The moves of the first pass on the jobs of `S`. -/
def Label.Rebuild (S : Set String) : Label → Prop
  | .record x | .enqueue x | .requeue x none | .bury x none | .cancel x | .forget x => x ∈ S
  | _ => False

theorem Label.Cascade.rebuild {l : Label} (h : l.Cascade S) : l.Rebuild S := by
  cases l <;> first | exact h.elim | exact h

/-- The state of the first pass over `js` when the jobs of `S` have been handled: the others are stored
as listed and wait on nothing. -/
structure Rebuilding (js : List Job) (S : Set String) (b : Board) : Prop where
  todo : ∀ j ∈ js, j.id ∉ S → b.jobs j.id = some j
  listed : ∀ x j, b.jobs x = some j → ∃ j₀ ∈ js, j₀.id = x
  pending : ∀ x j, b.jobs x = some j → j.state = .pending → j ∈ js ∧ j.id = x
  unleased : ∀ τ, b.leases τ = none
  waiting : ∀ d, b.waits d ⊆ S
  named : ∀ x, Named b x

theorem Rebuilding.mono (h : Rebuilding js S b) {S' : Set String} (hS : S ⊆ S') : Rebuilding js S' b where
  todo j hj hn := h.todo j hj fun hx => hn (hS hx)
  listed := h.listed
  pending := h.pending
  unleased := h.unleased
  waiting d := (h.waiting d).trans hS
  named := h.named

theorem Rebuilding.move {l : Label} (h : Rebuilding js S b) (hl : l.Rebuild S) (hm : Move l b b') :
    Rebuilding js S b' := by
  have hplace : ∀ y, l ≠ .place y := by
    rintro y rfl
    exact hl
  refine ⟨fun j hj hn => ?_, fun y j hj => ?_, fun y j hj hs => ?_, fun τ => ?_, fun d y hy => ?_,
    fun x => hm.named (h.named x)⟩
  · rw [hm.other ?_]
    · exact h.todo j hj hn
    · intro hw
      apply hn
      cases l with
      | requeue _ via | bury _ via =>
        cases via with
        | none => cases hw; exact hl
        | some τ => exact hl.elim
      | cancel => cases hw; exact hl
      | record | enqueue | forget => cases hw
      | _ => exact hl.elim
  · obtain ⟨j₀, hj₀, _⟩ := hm.of_stored (hplace y) hj
    exact h.listed y j₀ hj₀
  · exact h.pending y j (hm.of_pending (hplace y) hj hs) hs
  · rw [Option.eq_none_iff_forall_ne_some]
    intro ls hls
    have := hm.of_leases (by rintro y rfl; exact hl) hls
    rw [h.unleased τ] at this
    cases this
  · by_cases hr : l = .record y
    · subst hr
      exact hl
    · exact h.waiting d (hm.of_waits (hplace y) hr hy)

theorem Rebuilding.moves (h : Rebuilding js S b) (hm : Moves (Label.Rebuild S) b b') : Rebuilding js S b' :=
  hm.preserves (I := Rebuilding js S) (fun _ _ _ hl hm h => h.move hl hm) h

/-- What the first pass achieves for a job. -/
structure Restored (b : Board) (x : String) : Prop where
  armed : Armed b x
  recorded : Recorded b x
  idle : ∀ j, b.jobs x = some j → j.state ≠ .running

theorem Restored.moves {P : Label → Prop} (h : Restored b x) (hm : Moves P b b') (hP : ∀ τ, ¬ P (.dispatch x τ)) :
    Restored b' x := by
  refine ⟨hm.armed h.armed, hm.recorded h.recorded, ?_⟩
  refine hm.preserves (I := fun b => ∀ j, b.jobs x = some j → j.state ≠ .running) ?_ h.idle
  intro l b b' hl hm hi j hj hs
  refine hi j (hm.of_running ?_ hj hs) hs
  rintro τ rfl
  exact hP τ hl

theorem does_reindex (j : Job) : DoesOn env (reindex j) b fun _ b' =>
    (terminal j.state = true ∧ b' = b) ∨ (terminal j.state = false ∧ b' = b.park j) := by
  unfold reindex
  split
  · rename_i ht
    exact Does.pure (.inl ⟨ht, rfl⟩)
  · rename_i ht
    exact (does_addDeps j).mono fun _ _ h => .inr ⟨by simpa using ht, h⟩

/-- A job whose attempt is lost is not RUNNING. -/
theorem Lost.idle {via : Option String} (h : Lost x via b b') : ∀ j, b'.jobs x = some j → j.state ≠ .running := by
  intro j hj hs
  rcases h with h | h
  · cases h with
    | requeue _ _ _ hp hs' hsch =>
      rw [hsch.jobs, ← id_of_plan hp] at hj
      cases hj.symm.trans (Function.update_self ..)
      rw [hs'] at hs
      cases hs
  · cases h with
    | bury _ _ _ hp hs' =>
      rw [Board.unpark_jobs, ← id_of_plan hp] at hj
      cases hj.symm.trans (Function.update_self ..)
      rw [hs'] at hs
      cases hs

/-- A stored job that is neither QUEUED, PENDING nor RUNNING asks for nothing. -/
theorem restored_of_state {j : Job} (hj : b.jobs x = some j) (hq : j.state ≠ .queued) (hp : j.state ≠ .pending)
    (hr : j.state ≠ .running) : Restored b x := by
  refine ⟨fun j' hj' h => ?_, fun j' hj' h => ?_, fun j' hj' h => ?_⟩ <;> cases hj.symm.trans hj'
  · exact absurd h hq
  · exact absurd h hp
  · exact hr h

theorem does_rebuildJob (he : Sound env) (ps : Cron) (now : Time) {j : Job} (hj : b.jobs j.id = some j)
    (hS : j.id ∈ S) (hw : ∀ d, b.waits d ⊆ S) : DoesOn env (rebuildJob ps now j) b fun _ b' =>
      Moves (Label.Rebuild S) b b' ∧ Restored b' j.id := by
  refine (does_reindex j).bind ?_
  rintro _ b₁ (⟨ht, rfl⟩ | ⟨ht, rfl⟩)
  · have : Restored b₁ j.id := by
      refine restored_of_state hj ?_ ?_ ?_ <;> intro hs <;> rw [hs] at ht <;> cases ht
    cases hs : j.state <;> rw [hs] at ht <;> first | exact Does.pure ⟨.refl _, this⟩ | cases ht
  · have hrec : Moves (Label.Rebuild S) b (b.park j) := .single (.record hj ht) hS
    have hp : (b.park j).jobs j.id = some j := hj
    have hwait : Recorded (b.park j) j.id := by
      intro j' hj' _ d hd
      cases hj.symm.trans hj'
      exact Board.mem_park.2 (.inl ⟨hd, rfl⟩)
    have hcl : Closed S (b.park j) := by
      intro d _ y hy
      rcases Board.mem_park.1 hy with ⟨_, rfl⟩ | hy
      · exact hS
      · exact hw d hy
    cases hs : j.state with
    | queued =>
      have hsch : ∀ b₂, (b.park j).Scheduled j.id b₂ → Moves (Label.Rebuild S) b b₂ ∧ Restored b₂ j.id := by
        intro b₂ hb₂
        refine ⟨hrec.tail (.enqueue hp hs hb₂) hS, ?_, ?_, ?_⟩
        · rintro j' hj' _
          rcases hb₂ with rfl | rfl
          · exact .inl (Set.mem_insert ..)
          · exact .inr (Set.mem_insert ..)
        · exact (Move.enqueue hp hs hb₂).recorded hwait
        · intro j' hj' h
          rw [hb₂.jobs] at hj'
          cases hj.symm.trans hj'
          rw [hs] at h
          cases h
      dsimp only
      split
      · refine (does_push _ _ _).bind ?_
        rintro _ _ rfl
        exact Does.pure (hsch _ (.inl rfl))
      · refine (does_armEnqueue he hp hs _).mono ?_
        intro _ b₂ hb₂
        exact hsch b₂ hb₂
    | running =>
      refine (does_handleFailure he ps hp hs hS hcl _ now).bind ?_
      rintro _ b₂ ⟨_, b₁, hlost, hm⟩
      have hm : Moves (Label.Rebuild S) b₁ b₂ := hm.mono fun _ hl => hl.rebuild
      have h₀ : Moves (Label.Rebuild S) (b.park j) b₁ := by
        rcases hlost with h | h
        · exact .single h hS
        · exact .single h hS
      have harmed : Armed (b.park j) j.id := by
        intro j' hj' h
        cases hj.symm.trans hj'
        rw [hs] at h
        cases h
      have hrest : Restored b₁ j.id := ⟨h₀.armed harmed, h₀.recorded hwait, hlost.idle⟩
      exact Does.pure ⟨hrec.trans (h₀.trans hm), hrest.moves hm fun _ => id⟩
    | pending =>
      refine Does.pure ⟨hrec, fun j' hj' h => ?_, hwait, fun j' hj' h => ?_⟩ <;> cases hj.symm.trans hj' <;>
        rw [hs] at h <;> cases h
    | unspecified =>
      refine Does.pure ⟨hrec, restored_of_state (b := b.park j) hj ?_ ?_ ?_⟩ <;> rw [hs] <;> decide
    | succeeded | failed | canceled =>
      rw [hs] at ht
      cases ht

/-- The IDs of some jobs. -/
def idsOf (js : List Job) : Set String := {x | ∃ j ∈ js, j.id = x}

theorem idsOf_mono {d d' : List Job} (h : ∀ j ∈ d, j ∈ d') : idsOf d ⊆ idsOf d' :=
  fun _ ⟨j, hj, hx⟩ => ⟨j, h j hj, hx⟩

/-- The first pass, with a further condition on the jobs handled so far that the handling of each listed job keeps. -/
theorem does_firstPass_keeping (he : Sound env) (ps : Cron) (now : Time) (hnodup : (js.map Job.id).Nodup)
    (h : Rebuilding js ∅ b) {I : List Job → Board → Prop} (hi : I [] b)
    (hI : ∀ d j, j ∈ js → j.id ∉ idsOf d → ∀ b, b.jobs j.id = some j → I d b →
      DoesOn env (rebuildJob ps now j) b fun _ b' => I (d ++ [j]) b') :
    DoesOn env (js.forM (rebuildJob ps now)) b fun _ b' =>
      (Rebuilding js (idsOf js) b' ∧ ∀ j ∈ js, Restored b' j.id) ∧ I js b' := by
  refine Does.forM (fun d b' => (Rebuilding js (idsOf d) b' ∧ ∀ j ∈ d, Restored b' j.id) ∧ I d b') ?_
    ⟨⟨h.mono (Set.empty_subset _), by simp⟩, hi⟩
  rintro d j r b₁ hjs ⟨⟨hr, hd⟩, hi₁⟩
  have hmem : j ∈ js := by rw [hjs]; simp
  -- the IDs of the listing are distinct, so the job at hand has not been handled yet
  have hnew : j.id ∉ idsOf d := by
    rintro ⟨j', hj', hid⟩
    rw [hjs, List.map_append, List.map_cons, List.nodup_append] at hnodup
    exact hnodup.2.2 _ (List.mem_map.2 ⟨j', hj', rfl⟩) _ (List.mem_cons_self ..) hid
  have hsub : idsOf d ⊆ idsOf (d ++ [j]) := idsOf_mono fun j' hj' => List.mem_append_left _ hj'
  have hin : j.id ∈ idsOf (d ++ [j]) := ⟨j, List.mem_append_right _ (List.mem_singleton_self j), rfl⟩
  have hstored := hr.todo j hmem hnew
  refine ((does_rebuildJob he ps now hstored hin fun d' => (hr.waiting d').trans hsub).and
    (hI d j hmem hnew b₁ hstored hi₁)).mono ?_
  rintro _ b₂ ⟨⟨hm, hres⟩, hi₂⟩
  refine ⟨⟨(hr.mono hsub).moves hm, fun j' hj' => ?_⟩, hi₂⟩
  rcases List.mem_append.1 hj' with hj' | hj'
  · exact (hd j' hj').moves hm fun _ => id
  · exact List.mem_singleton.1 hj' ▸ hres

theorem does_firstPass (he : Sound env) (ps : Cron) (now : Time) (hnodup : (js.map Job.id).Nodup)
    (h : Rebuilding js ∅ b) : DoesOn env (js.forM (rebuildJob ps now)) b fun _ b' =>
      Rebuilding js (idsOf js) b' ∧ ∀ j ∈ js, Restored b' j.id := by
  refine (does_firstPass_keeping he ps now hnodup h (I := fun _ _ => True) trivial ?_).mono fun _ _ h => h.1
  intro _ j _ _ b hj _
  exact (does_rebuildJob he ps now hj (Set.mem_univ _) fun _ => Set.subset_univ _).mono fun _ _ _ => trivial

/-! ## The whole rebuild -/

/-- What a rebuild leaves. -/
structure Rebuilt (b : Board) : Prop where
  settled : Settled b
  unleased : ∀ τ, b.leases τ = none
  idle : ∀ x j, b.jobs x = some j → j.state ≠ .running

theorem rebuilding_cleared (hjs : ∀ j ∈ js, b.jobs j.id = some j)
    (hall : ∀ x j, b.jobs x = some j → j ∈ js ∧ j.id = x) : Rebuilding js ∅ b.cleared where
  todo j hj _ := hjs j hj
  listed x j hj := ⟨j, hall x j hj⟩
  pending x j hj _ := hall x j hj
  unleased _ := rfl
  waiting _ := Set.empty_subset _
  named _ _ h := h.elim

theorem Rebuilt.of_passes (h : Rebuilding js (idsOf js) b) (hres : ∀ j ∈ js, Restored b j.id)
    (hm : Moves Label.Promotion b b') (hblocked : ∀ j ∈ js, j.state = .pending → Blocked b' j.id) : Rebuilt b' := by
  have hno : ∀ x τ, ¬ Label.Promotion (.dispatch x τ) := fun _ _ => id
  have hres' : ∀ x, (b.jobs x).isSome → Restored b' x := by
    intro x hx
    obtain ⟨j, hj⟩ := Option.isSome_iff_exists.1 hx
    obtain ⟨j₀, hj₀, rfl⟩ := h.listed x j hj
    exact (hres j₀ hj₀).moves hm (hno _)
  -- a promotion adds no record
  have hold : ∀ x j, b'.jobs x = some j → (b.jobs x).isSome := by
    intro x
    refine hm.preserves (I := fun b₁ => ∀ j, b₁.jobs x = some j → (b.jobs x).isSome) ?_ fun j hj => by rw [hj]; rfl
    intro l b₁ b₂ hl hm hi j hj
    obtain ⟨j₀, hj₀, _⟩ := hm.of_stored (by rintro rfl; exact hl) hj
    exact hi j₀ hj₀
  have hpend : ∀ x j, b'.jobs x = some j → j.state = .pending → b.jobs x = some j := by
    intro x
    refine hm.preserves
      (I := fun b₁ => ∀ j, b₁.jobs x = some j → j.state = .pending → b.jobs x = some j) ?_ fun j hj _ => hj
    intro l b₁ b₂ hl hm hi j hj hs
    exact hi j (hm.of_pending (by rintro rfl; exact hl) hj hs) hs
  refine ⟨⟨fun x j hj => (hres' x (hold x j hj)).armed j hj, ?_,
    fun x j hj => (hres' x (hold x j hj)).recorded j hj, ?_, fun x => hm.named (h.named x)⟩, ?_,
    fun x j hj => (hres' x (hold x j hj)).idle j hj⟩
  · intro x j hj hs
    exact absurd hs ((hres' x (hold x j hj)).idle j hj)
  · intro x j hj hs
    obtain ⟨hmem, rfl⟩ := h.pending x j (hpend x j hj hs) hs
    exact hblocked j hmem hs j hj hs
  · intro τ
    refine hm.preserves (I := fun b => b.leases τ = none) ?_ (h.unleased τ)
    intro l b₁ b₂ hl hm hn
    rw [Option.eq_none_iff_forall_ne_some]
    intro ls hls
    rw [hm.of_leases (by rintro y rfl; exact hl) hls] at hn
    cases hn

theorem does_rebuildSchedulingState (he : Sound env) (ps : Cron) :
    DoesOn env (rebuildSchedulingState ps) b fun _ b' => Rebuilt b' := by
  refine does_clearSchedulingState.bind ?_
  rintro _ _ rfl
  refine (does_listJobs he).bind ?_
  rintro _ b₁ ⟨hb₁, js, rfl, hjs, hall, hnodup⟩
  subst hb₁
  refine (does_silent .now trivial).bind ?_
  rintro now b₁ hb₁
  subst hb₁
  refine (does_firstPass he ps now hnodup (rebuilding_cleared (b := b) hjs hall)).bind ?_
  rintro _ b₁ ⟨hr, hres⟩
  refine (Does.forM (fun d b' => Moves Label.Promotion b₁ b' ∧ ∀ j ∈ d, Blocked b' j.id) ?_ ⟨.refl _, by simp⟩).mono ?_
  · rintro d j _ b₂ _ ⟨hm, hd⟩
    refine (does_tryPromote he ps j.id).mono ?_
    rintro _ b₃ ⟨hm', hj⟩
    refine ⟨hm.trans hm', fun j' hj' => ?_⟩
    rcases List.mem_append.1 hj' with hj' | hj'
    · exact hm'.blocked (fun _ hl => hl.quiet) (hd j' hj')
    · exact List.mem_singleton.1 hj' ▸ hj
  · rintro _ b₂ ⟨hm, hd⟩
    exact Rebuilt.of_passes hr hres hm fun j hj hs => hd j (List.mem_filter.2 ⟨hj, by simpa using hs⟩)

theorem does_seedReplication (he : Sound env) : DoesOn env seedReplication b fun _ b' => b' = b := by
  refine (does_listJobs he).bind ?_
  rintro _ b ⟨rfl, _, rfl, _⟩
  refine (does_silent .listWorkers trivial).bind ?_
  rintro ws b rfl
  exact does_silent (.installLog _ _) trivial

theorem does_onBecomeLeader (he : Sound env) (ps : Cron) : DoesOn env (onBecomeLeader ps) b fun _ b' => Rebuilt b' := by
  refine (does_rebuildSchedulingState he ps).bind ?_
  intro _ b₁ hb₁
  refine (does_seedReplication he).mono ?_
  rintro _ _ rfl
  exact hb₁

end Distsched.Lifecycle
