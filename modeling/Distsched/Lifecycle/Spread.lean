/-
How failure spreads. When a deed leaves a job newly FAILED or CANCELED, no PENDING job lists it any more, as long as everyone
who waits is in the dependency index; and a rebuild does deeds, from a board cleared of everything but the store.
-/
import Distsched.Lifecycle.Deeds
import Distsched.Lifecycle.Turn

namespace Distsched.Lifecycle

open Scheduler Prog

variable {env : Env} {b b' b₁ : Board} {x r : String} {j : Job}

/-- No PENDING job lists `x`. -/
def Unlisted (b : Board) (x : String) : Prop := ∀ y jy, b.jobs y = some jy → jy.state = .pending → x ∉ jy.dependsOn

/-- Whatever is newly FAILED or CANCELED is listed by no PENDING job. -/
def Spreads (b b' : Board) : Prop :=
  ∀ x j, b'.jobs x = some j → Broken j.state → b.jobs x ≠ some j → Unlisted b' x

/-- From a board with everyone who waits in the index to another one. -/
structure Spreading (b b' : Board) : Prop where
  pending : ∀ y j, b'.jobs y = some j → j.state = .pending → b.jobs y = some j
  recorded : ∀ y, Recorded b' y
  spreads : Spreads b b'

theorem Unlisted.mono (h : Unlisted b x) (hp : ∀ y j, b'.jobs y = some j → j.state = .pending → b.jobs y = some j) :
    Unlisted b' x := fun y jy hjy hs => h y jy (hp y jy hjy hs) hs

theorem Spreading.refl (hr : ∀ y, Recorded b y) : Spreading b b where
  pending _ _ h _ := h
  recorded := hr
  spreads _ _ hj _ hn := absurd hj hn

theorem Spreading.trans (h : Spreading b b₁) (h' : Spreading b₁ b') : Spreading b b' where
  pending y j hj hs := h.pending y j (h'.pending y j hj hs) hs
  recorded := h'.recorded
  spreads x j hj hb hn := by
    by_cases hold : b₁.jobs x = some j
    · exact (h.spreads x j hold hb hn).mono h'.pending
    · exact h'.spreads x j hj hb hold

/-! ## Deeds -/

/-- Of the moves, only a submission, a cancellation or a burial leaves a record FAILED or CANCELED. -/
theorem Move.of_broken {l : Label} (hm : Move l b b') (hp : l ≠ .place x) (hc : l ≠ .cancel x)
    (hbury : ∀ via, l ≠ .bury x via) (hj : b'.jobs x = some j) (hb : Broken j.state) : b.jobs x = some j := by
  by_cases hw : l.writes = some x
  · -- the record written is in the state its constructor says
    have hwritten : ∀ {j' : Job}, b'.jobs = Function.update b.jobs j'.id (some j') → j'.id = x → j = j' := by
      intro j' hjobs hid
      rw [hjobs, ← hid] at hj
      exact Option.some.inj (hj.symm.trans (Function.update_self ..))
    cases hm with
    | reject | park | accept =>
      cases hw
      exact absurd rfl hp
    | cancel =>
      cases hw
      exact absurd rfl hc
    | bury =>
      cases hw
      exact absurd rfl (hbury _)
    | promote _ _ _ hplan hs' hsch =>
      cases hw
      have := hwritten hsch.jobs (id_of_plan hplan)
      rw [this, hs'] at hb
      rcases hb with h | h <;> cases h
    | dispatch _ _ _ hplan hs' =>
      cases hw
      have := hwritten rfl (id_of_plan hplan)
      rw [this, hs'] at hb
      rcases hb with h | h <;> cases h
    | succeed _ _ _ _ hplan hs' =>
      cases hw
      have := hwritten rfl (id_of_plan hplan)
      rw [this, hs'] at hb
      rcases hb with h | h <;> cases h
    | requeue _ _ _ hplan hs' hsch =>
      cases hw
      have := hwritten (hsch.jobs.trans (by unfold Board.put; rw [Board.yield_jobs])) (id_of_plan hplan)
      rw [this, hs'] at hb
      rcases hb with h | h <;> cases h
    | _ => cases hw
  · rw [hm.other hw] at hj
    exact hj

theorem Spreading.of_plain {l : Label} (hr : ∀ y, Recorded b y) (hl : l.Plain) (hm : Move l b b') : Spreading b b' where
  pending y j hj hs := hm.of_pending (by rintro rfl; exact hl) hj hs
  recorded y := hm.recorded (hr y)
  spreads x j hj hb hn := absurd (hm.of_broken (by rintro rfl; exact hl) (by rintro rfl; exact hl)
    (by rintro via rfl; exact hl) hj hb) hn

theorem Moves.of_pending {P : Label → Prop} (hm : Moves P b b') (hP : ∀ y, ¬ P (.place y)) {y : String}
    (hj : b'.jobs y = some j) (hs : j.state = .pending) : b.jobs y = some j := by
  refine hm.preserves (I := fun b₁ => b₁.jobs y = some j → b.jobs y = some j) ?_ id hj
  intro l b₁ b₂ hl hm hi h
  exact hi (hm.of_pending (by rintro rfl; exact hP y hl) h hs)

/-- A cascade from `r` leaves the records of the jobs not below `r` alone. -/
theorem Cascades.other (h : Cascades r b b') (hx : x ∉ Below b r) : b'.jobs x = b.jobs x := by
  refine h.moves.preserves (I := fun b₁ => b₁.jobs x = b.jobs x) ?_ rfl
  intro l b₁ b₂ hl hm hi
  rw [hm.other, hi]
  intro hw
  cases l with
  | cancel y =>
    cases hw
    exact hx hl
  | forget => cases hw
  | _ => exact hl.elim

/-- No PENDING job lists a job below the root of a cascade: it would be below the root itself. -/
theorem Cascades.unlisted (hr : ∀ y, Recorded b y) (h : Cascades r b b') (hx : x ∈ Below b r) : Unlisted b' x := by
  intro y jy hjy hs hd
  have hold : b.jobs y = some jy := h.moves.of_pending (fun _ => id) hjy hs
  have hbelow : y ∈ Below b r := hx.tail (hr y jy hold hs x hd)
  have := h.ended y hbelow jy hjy
  rw [hs] at this
  cases this

theorem Cascades.spreading (hr : ∀ y, Recorded b y) (h : Cascades r b b') : Spreading b b' where
  pending _ _ hj hs := h.moves.of_pending (fun _ => id) hj hs
  recorded y := h.moves.recorded (hr y)
  spreads x j hj _ hn := by
    by_cases hx : x ∈ Below b r
    · exact h.unlisted hr hx
    · rw [h.other hx] at hj
      exact absurd hj hn

/-- A write to the root of a cascade, and the cascade. -/
theorem Spreading.of_root {l : Label} (hr : ∀ y, Recorded b y) (hm : Move l b b₁) (hw : l.writes = some r)
    (hp : ∀ y, l ≠ .place y) (hc : Cascades r b₁ b') : Spreading b b' where
  pending y j hj hs := hm.of_pending (hp y) (hc.moves.of_pending (fun _ => id) hj hs) hs
  recorded y := hc.moves.recorded (hm.recorded (hr y))
  spreads x j hj _ hn := by
    have hr₁ : ∀ y, Recorded b₁ y := fun y => hm.recorded (hr y)
    by_cases hx : x ∈ Below b₁ r
    · exact hc.unlisted hr₁ hx
    · have hne : l.writes ≠ some x := by
        rw [hw]
        rintro ⟨⟩
        exact hx .refl
      rw [hc.other hx, hm.other hne] at hj
      exact absurd hj hn

theorem Deed.spreading (hr : ∀ y, Recorded b y) (h : Deed b b') : Spreading b b' := by
  cases h with
  | plain hl hm => exact .of_plain hr hl hm
  | bury hm hc => exact .of_root hr hm rfl (fun _ h => nomatch h) hc
  | expel _ _ _ hc => exact hc.spreading hr

theorem Deeds.spreading (hr : ∀ y, Recorded b y) (h : Deeds b b') : Spreading b b' := by
  induction h with
  | refl => exact .refl hr
  | tail _ ha ih => exact ih.trans (ha.spreading ih.recorded)

/-! ## Activities that end no job -/

/-- Nothing is newly FAILED or CANCELED. -/
def Spares (b b' : Board) : Prop := ∀ x j, b'.jobs x = some j → Broken j.state → b.jobs x = some j

theorem Spares.spreads (h : Spares b b') : Spreads b b' := fun x j hj hb hn => absurd (h x j hj hb) hn

theorem Move.spares {l : Label} (hm : Move l b b') (hl : l.Plain) : Spares b b' := fun _ _ hj hb =>
  hm.of_broken (by rintro rfl; exact hl) (by rintro rfl; exact hl) (by rintro via rfl; exact hl) hj hb

/-- An activity that makes only moves without submissions, cancellations and burials leaves nothing newly broken. -/
theorem Moves.spares {P : Label → Prop} (hm : Moves P b b') (hp : ∀ x, ¬ P (.place x)) (hc : ∀ x, ¬ P (.cancel x))
    (hbury : ∀ x via, ¬ P (.bury x via)) : Spares b b' := by
  intro x j hj hb
  refine hm.preserves (I := fun b₁ => b₁.jobs x = some j → b.jobs x = some j) ?_ id hj
  intro l b₁ b₂ hl hm hi h
  exact hi (hm.of_broken (by rintro rfl; exact hp x hl) (by rintro rfl; exact hc x hl)
    (by rintro via rfl; exact hbury x via hl) h hb)

/-- A submission writes no other record than its own. -/
theorem Submits.other (h : Submits r b b') (hx : x ≠ r) : b'.jobs x = b.jobs x := by
  obtain ⟨b₁, hd, hb'⟩ := h
  rcases hb' with rfl | hm
  · rw [hd.jobs]
  · rw [hm.other (fun hw => hx (Option.some.inj hw).symm), hd.jobs]

/-! ## A rebuild -/

theorem deeds_rebuildJob (he : Sound env) (ps : Cron) (now : Time) (hj : b.jobs j.id = some j) :
    DoesOn env (rebuildJob ps now j) b fun _ b' => Deeds b b' := by
  refine (does_reindex j).bind ?_
  rintro _ b₁ (⟨ht, rfl⟩ | ⟨ht, rfl⟩)
  · cases hs : j.state <;> rw [hs] at ht <;> first | exact Does.pure .refl | cases ht
  · have hrec : Deed b (b.park j) := .plain (l := .record j.id) trivial (.record hj ht)
    have hp : (b.park j).jobs j.id = some j := hj
    cases hs : j.state with
    | queued =>
      have hsch : ∀ b₂, (b.park j).Scheduled j.id b₂ → Deeds b b₂ := fun b₂ hb₂ =>
        .tail (.single hrec) (.plain (l := .enqueue j.id) trivial (.enqueue hp hs hb₂))
      dsimp only
      split
      · refine (does_push _ _ _).bind ?_
        rintro _ _ rfl
        exact Does.pure (hsch _ (.inl rfl))
      · exact (does_armEnqueue he hp hs _).mono fun _ b₂ hb₂ => hsch b₂ hb₂
    | running =>
      refine (loses_handleFailure he ps hp hs _ now).bind ?_
      rintro _ b₂ ⟨-, hlose⟩
      exact Does.pure (.tail (.single hrec) hlose.deed)
    | pending | unspecified => exact Does.pure (.single hrec)
    | succeeded | failed | canceled =>
      rw [hs] at ht
      cases ht

theorem deeds_firstPass (he : Sound env) (ps : Cron) (now : Time) {js : List Job} (hnodup : (js.map Job.id).Nodup)
    (h : Rebuilding js ∅ b) : DoesOn env (js.forM (rebuildJob ps now)) b fun _ b' => Deeds b b' := by
  refine (does_firstPass_keeping he ps now hnodup h (I := fun _ b' => Deeds b b') .refl ?_).mono fun _ _ h => h.2
  intro _ j _ _ b₁ hstored hd
  exact (deeds_rebuildJob he ps now hstored).mono fun _ _ hd' => hd.trans hd'

theorem deeds_promoteAll (he : Sound env) (ps : Cron) (js : List Job) :
    DoesOn env (js.forM fun j => tryPromote ps j.id) b fun _ b' => Deeds b b' := by
  refine Does.forM (fun _ b' => Deeds b b') ?_ .refl
  intro _ j _ b₁ _ hd
  exact (deeds_tryPromote he ps j.id).mono fun _ _ h => hd.trans h

/-- A rebuild does deeds on the board cleared of everything but the store. -/
theorem deeds_rebuildSchedulingState (he : Sound env) (ps : Cron) :
    DoesOn env (rebuildSchedulingState ps) b fun _ b' => Deeds b.cleared b' := by
  refine does_clearSchedulingState.bind ?_
  rintro _ _ rfl
  refine (does_listJobs he).bind ?_
  rintro _ b₁ ⟨hb₁, js, rfl, hjs, hall, hnodup⟩
  subst hb₁
  refine (does_silent .now trivial).bind ?_
  rintro now b₁ hb₁
  subst hb₁
  refine (deeds_firstPass he ps now hnodup (rebuilding_cleared (b := b) hjs hall)).bind ?_
  rintro _ b₁ hd
  exact (deeds_promoteAll he ps _).mono fun _ _ hd' => hd.trans hd'

theorem deeds_onBecomeLeader (he : Sound env) (ps : Cron) :
    DoesOn env (onBecomeLeader ps) b fun _ b' => Deeds b.cleared b' := by
  refine (deeds_rebuildSchedulingState he ps).bind ?_
  intro _ b₁ hb₁
  refine (does_seedReplication he).mono ?_
  rintro _ _ rfl
  exact hb₁

end Distsched.Lifecycle
