/-
Every handler of the node keeps to the protocol of `Notes`: its writes are the revisions and placements
listed in `Writes`, each accounted for by what the handler has read.
-/
import Distsched.Lifecycle.Notes

namespace Distsched.Lifecycle

open Scheduler Prog

variable {alone : Bool} {g : Notes} {S : Set String} {job : Job}

/-! ## Placement and promotion -/

theorem keeping_makeReady (ps : Cron) (now : Time) (hd : g.drawing = false)
    (ha : ∀ t, g.Accounts { job with scheduledAt := t, state := .queued, updatedAt := some now.ns })
    (hS : job.id ∈ S) : Keeping alone (makeReady ps job now) g fun _ g' => InHand S g g' := by
  refine (meets_fireTime ps job now (silent_unnoted trivial)).bind ?_
  rintro ⟨_, delay⟩ g ⟨rfl, t, rfl⟩
  refine (keeping_putJob hd (ha t)).bind ?_
  rintro r _ rfl
  have hput := Notes.inHand_put (g := g) (S := S)
    (j := { job with scheduledAt := t, state := .queued, updatedAt := some now.ns }) hS r
  cases r with
  | error e => exact hput
  | ok u => exact (keeping_armEnqueue _ _).mono fun _ _ h => hput.trans h

/-- The one write of a submission. -/
theorem keeping_placeNewJob (ps : Cron) (now : Time) (hd : g.drawing = false) (hp : g.placing = some job.id)
    (ha : job.attempt = 0) : Keeping alone (placeNewJob ps job now) g fun _ _ => True := by
  refine (keeping_depsSatisfied (S := Set.univ) job.dependsOn g).bind ?_
  rintro ⟨ready, failedDep⟩ g₁ ⟨hg, hp₁, hsat⟩
  have hd₁ : g₁.drawing = false := hg.drawing.trans hd
  have hplace : g₁.placing = some job.id := hp₁.trans hp
  dsimp only at hsat ⊢
  split
  · refine (keeping_putJob hd₁ ?_).bind fun _ _ _ => trivial
    exact .inr ⟨hplace, ha, .inr (.inl rfl)⟩
  · split
    · refine (keeping_putJob hd₁ ?_).bind fun _ _ _ => ⟨trivial, fun _ _ => trivial⟩
      exact .inr ⟨hplace, ha, .inl rfl⟩
    · rename_i hready
      have hsat : g₁.Satisfied job := hsat (by simpa using hready)
      exact (keeping_makeReady ps now hd₁ (fun t => .inr ⟨hplace, ha, .inr (.inr ⟨rfl, hsat⟩)⟩)
        (Set.mem_univ _)).mono fun _ _ _ => trivial

/-- Whatever the index can name, as the handler knows it, is in `S`. -/
def Within (S : Set String) (g : Notes) : Prop := ∀ x, (∀ T, g.indexed = some T → x ∈ T) → x ∈ S

theorem Within.inHand {g' : Notes} (h : Within S g) (hg : InHand S g g') : Within S g' := by
  unfold Within
  rw [hg.indexed]
  exact h

theorem keeping_dependentsOf (d : String) (h : Within S g) : Keeping alone (dependentsOf d) g fun r g' =>
    g' = g ∧ ∀ x ∈ r, x ∈ S :=
  ⟨trivial, fun _ hr => ⟨rfl, fun x hx => h x fun T hT => hr T hT x hx⟩⟩

theorem keeping_cancelOne {x : String} (reason : String) (now : Int) (hd : g.drawing = false) (hx : x ∈ S) :
    Keeping alone (cancelOne x reason now) g fun _ g' => InHand S g g' := by
  refine (keeping_getJob x).bind ?_
  rintro r _ ⟨rfl, hid⟩
  cases r with
  | error e => exact InHand.refl
  | ok job =>
    have hread : InHand S g (g.read job) := Notes.inHand_read job
    obtain rfl : job.id = x := hid job rfl
    dsimp only
    split
    · exact hread
    · rename_i ht
      have hcancel : Revision job { job with state := .canceled, lastError := reason, updatedAt := some now } :=
        .cancel (by simpa using ht) rfl rfl rfl
      refine (keeping_putJob (g := g.read job) hd (Notes.accounts_revision (Notes.seen_read job) hcancel ?_)).bind ?_
      · intro _ h
        cases h
      · rintro r _ rfl
        refine (keeping_unnoted (.remove _) trivial).bind ?_
        rintro _ _ rfl
        refine hread.trans (Notes.inHand_put ?_ r)
        exact hx

theorem keeping_cascadeLoop (now : Int) : ∀ (fuel : Nat) (visited work : List String) (reason : String) (g : Notes),
    g.drawing = false → Within S g → (∀ x ∈ work, x ∈ S) →
      Keeping alone (cascadeLoop now fuel visited work reason) g fun _ g' => InHand S g g'
  | 0, _, _, _, _, _, _, _ => InHand.refl
  | _ + 1, _, [], _, _, _, _, _ => InHand.refl
  | fuel + 1, visited, x :: work, reason, g, hd, hin, hwork => by
    have hrest : ∀ y ∈ work, y ∈ S := fun y hy => hwork y (List.mem_cons_of_mem _ hy)
    unfold cascadeLoop
    split
    · exact keeping_cascadeLoop now fuel visited work reason g hd hin hrest
    · refine (keeping_cancelOne reason now hd (hwork x (List.mem_cons_self ..))).bind fun _ g₁ h₁ => ?_
      refine (keeping_dependentsOf x (hin.inHand h₁)).bind ?_
      rintro xs g₁ ⟨rfl, hxs⟩
      refine (keeping_unnoted (.removeFromIndex x) trivial).bind ?_
      rintro _ g₁ rfl
      refine (keeping_cascadeLoop now fuel _ _ _ g₁ (h₁.drawing.trans hd) (hin.inHand h₁) ?_).mono
        fun _ _ h => h₁.trans h
      intro y hy
      rcases List.mem_append.1 hy with hy | hy
      · exact hxs y (List.mem_reverse.1 hy)
      · exact hrest y hy

theorem keeping_cancelCascade {x : String} (reason : String) (hd : g.drawing = false) (hin : Within S g) (hx : x ∈ S) :
    Keeping alone (cancelCascade x reason) g fun _ g' => InHand S g g' := by
  refine Meets.bind (keeping_unnoted .now trivial) ?_
  rintro now g rfl
  refine Meets.bind (keeping_unnoted .indexBound trivial) ?_
  rintro bound g rfl
  refine keeping_cascadeLoop _ _ _ _ _ _ hd hin fun y hy => ?_
  rw [List.mem_singleton.1 hy]
  exact hx

theorem keeping_tryPromote (ps : Cron) {x : String} (hd : g.drawing = false) (hin : Within S g) (hx : x ∈ S) :
    Keeping alone (tryPromote ps x) g fun _ g' => InHand S g g' := by
  refine (keeping_getJob x).bind ?_
  rintro r _ ⟨rfl, hid⟩
  cases r with
  | error e => exact InHand.refl
  | ok job =>
    have hread : InHand S g (g.read job) := Notes.inHand_read job
    obtain rfl : job.id = x := hid job rfl
    dsimp only
    split
    · exact hread
    · rename_i hs
      have hs : job.state = .pending := not_not.1 hs
      -- the record in hand may not be lost while the dependencies are read, so nothing is given up here
      refine (keeping_depsSatisfied (S := ∅) job.dependsOn (g.read job)).bind ?_
      rintro ⟨ready, failedDep⟩ g₁ ⟨hg, -, hsat⟩
      have hg₁ : InHand S g g₁ := hread.trans { hg with seen := fun y _ => hg.seen y (Set.notMem_empty y) }
      have hd₁ : g₁.drawing = false := hg₁.drawing.trans hd
      dsimp only at hsat ⊢
      split
      · exact (keeping_cancelCascade _ hd₁ (hin.inHand hg₁) hx).mono fun _ _ h => hg₁.trans h
      · split
        · rename_i hready
          refine Meets.bind (keeping_unnoted .now trivial) ?_
          rintro now g₁ rfl
          have hseen : job ∈ g₁.seen job.id := hg.seen _ (Set.notMem_empty _) (Notes.seen_read job)
          refine (keeping_makeReady ps now hd₁ (fun t => ?_) hx).bind fun _ g₂ h₂ => ?_
          · exact Notes.accounts_revision hseen (.promote hs rfl rfl rfl) fun _ _ => hsat hready
          · exact (keeping_unnoted (.removeFromIndex _) trivial).mono fun _ _ h => h ▸ hg₁.trans h₂
        · exact hg₁

theorem keeping_promoteDependents (ps : Cron) (x : String) (hd : g.drawing = false) (hin : Within S g) :
    Keeping alone (promoteDependents ps x) g fun _ g' => InHand S g g' := by
  refine (keeping_dependentsOf x hin).bind ?_
  rintro xs g ⟨rfl, hxs⟩
  refine meets_forM _ (fun g' => InHand S g g') xs g (fun y g₁ hy h₁ => ?_) .refl
  exact (keeping_tryPromote ps (h₁.drawing.trans hd) (hin.inHand h₁) (hxs y hy)).mono fun _ _ h => h₁.trans h

/-! ## Ends of attempts -/

/-- A cron job is re-armed from the record in hand; if that fails the record stays in hand. -/
theorem keeping_maybeRescheduleCron (ps : Cron) (now : Time) {j₀ : Job} (hj : j₀ ∈ g.seen j₀.id)
    (hs : j₀.state = .running) (hp : plan job = plan j₀) (ha : job.attempt = j₀.attempt) (hd : g.drawing = false)
    (hx : j₀.id ∈ S) : Keeping alone (maybeRescheduleCron ps job now) g fun r g' =>
      (r.1 = true → InHand S g g') ∧
        (r.1 = false → g' = g ∧ plan r.2 = plan j₀ ∧ (r.2.attempt = j₀.attempt ∨ j₀.cronExpr ≠ "")) := by
  unfold maybeRescheduleCron
  split
  · exact ⟨(nomatch ·), fun _ => ⟨rfl, hp, .inl ha⟩⟩
  · rename_i hcron
    rw [cronExpr_of_plan hp] at hcron
    split
    · exact ⟨(nomatch ·), fun _ => ⟨rfl, hp, .inl ha⟩⟩
    · rename_i next _
      have hrearm : Revision j₀ { job with
          state := .queued, attempt := 0, assignedWorkerId := "", lastError := "", finishedAt := none,
          scheduledAt := some next.ns, updatedAt := some now.ns } := .rearm hs hcron hp rfl rfl
      refine (keeping_putJob hd (Notes.accounts_revision hj hrearm ?_)).bind ?_
      · intro h
        rw [hs] at h
        cases h
      · rintro r _ rfl
        have hput := Notes.inHand_put (g := g) (S := S) (hrearm.id_eq ▸ hx) r
        cases r with
        | error e => exact ⟨(nomatch ·), fun _ => ⟨rfl, hp, .inr hcron⟩⟩
        | ok u =>
          refine Meets.bind (keeping_unnoted .now trivial) ?_
          rintro t _ rfl
          refine Meets.bind (keeping_armEnqueue (S := S) _ _) fun _ g' hg' => ?_
          exact ⟨fun _ => hput.trans hg', fun h => nomatch h⟩

/-- The attempt of a RUNNING job in hand is retried, re-armed or buried. -/
theorem keeping_handleFailure (ps : Cron) (errMsg : String) (now : Time) (hj : job ∈ g.seen job.id)
    (hs : job.state = .running) (hd : g.drawing = false) (hin : Within S g) (hx : job.id ∈ S) :
    Keeping alone (handleFailure ps job errMsg now) g fun _ g' => InHand S g g' := by
  have hnot : ∀ j' : Job, job.state = .pending → j'.state = .queued → g.Satisfied j' := by
    intro _ h
    rw [hs] at h
    cases h
  unfold handleFailure
  dsimp only
  split
  · rename_i hlt
    refine Meets.bind (keeping_unnoted .float64 trivial) ?_
    rintro draw g rfl
    refine Meets.bind (keeping_putJob hd (Notes.accounts_revision hj (.retry hs hlt rfl rfl rfl) (hnot _))) ?_
    rintro r _ rfl
    have hput := Notes.inHand_put (g := g) (S := S) (j := retried { job with
      lastError := errMsg, assignedWorkerId := "", updatedAt := some now.ns } now.ns
        (Retry.backoff job.retryPolicy job.attempt draw)) hx r
    cases r with
    | error e => exact hput
    | ok u => exact Meets.bind (keeping_armEnqueue _ _) fun _ _ h => hput.trans h
  · rename_i hge
    refine Meets.bind (keeping_maybeRescheduleCron ps now (S := S) hj hs rfl rfl hd hx) ?_
    rintro ⟨rescheduled, job'⟩ g' ⟨htrue, hfalse⟩
    cases rescheduled with
    | true => exact htrue rfl
    | false =>
      obtain ⟨rfl, hp, ha⟩ := hfalse rfl
      dsimp only at hp ha ⊢
      rw [if_neg Bool.false_ne_true]
      refine Meets.bind (keeping_unnoted (.putDeadLetter _) trivial) ?_
      rintro r g rfl
      cases r with
      | error e => exact InHand.refl
      | ok u =>
        have hbury : Revision job { job' with state := .failed, finishedAt := some now.ns } :=
          .bury hs (not_lt.1 hge) hp rfl ha
        refine Meets.bind (keeping_putJob hd (Notes.accounts_revision hj hbury (hnot _))) ?_
        rintro r _ rfl
        have hput := Notes.inHand_put (g := g) (S := S) (hbury.id_eq ▸ hx) r
        cases r with
        | error e => exact hput
        | ok u =>
          refine Meets.bind (keeping_unnoted (.removeFromIndex _) trivial) ?_
          rintro _ g₁ rfl
          have hx' : job'.id ∈ S := hbury.id_eq ▸ hx
          exact Meets.bind (keeping_cancelCascade _ (hput.drawing.trans hd) (hin.inHand hput) hx') fun _ _ h =>
            hput.trans h

end Distsched.Lifecycle
