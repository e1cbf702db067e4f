/-
What the moves on the board keep true of each job: a QUEUED job is ready or armed, a RUNNING one has a
lease, and a PENDING one is recorded under each dependency and has one that has not succeeded.
-/
import Distsched.Lifecycle.Board

namespace Distsched.Lifecycle

variable {b b' : Board} {l : Label} {x : String}

/-- A QUEUED job is in the ready queue or has an armed timer. -/
def Armed (b : Board) (x : String) : Prop :=
  ∀ j, b.jobs x = some j → j.state = .queued → x ∈ b.ready ∨ x ∈ b.timers

/-- A RUNNING job has a lease. -/
def RunsLeased (b : Board) (x : String) : Prop :=
  ∀ j, b.jobs x = some j → j.state = .running → ∃ τ l, b.leases τ = some l ∧ l.jobID = x

/-- A PENDING job is recorded as waiting on each of its dependencies. -/
def Recorded (b : Board) (x : String) : Prop :=
  ∀ j, b.jobs x = some j → j.state = .pending → ∀ d ∈ j.dependsOn, x ∈ b.waits d

/-- A PENDING job has a dependency that is missing or not SUCCEEDED. -/
def Blocked (b : Board) (x : String) : Prop := ∀ j, b.jobs x = some j → j.state = .pending → ¬ b.Met j

/-- A job recorded as waiting is stored. -/
def Named (b : Board) (x : String) : Prop := ∀ d, x ∈ b.waits d → ∃ j, b.jobs x = some j

/-! ## What a move does to one job -/

/-- The record of `x` is the same, and so is what its state asks for. -/
structure Keeps (b b' : Board) (x : String) : Prop where
  stored : b'.jobs x = b.jobs x
  queued : ∀ j, b.jobs x = some j → j.state = .queued → x ∈ b.ready ∨ x ∈ b.timers → x ∈ b'.ready ∨ x ∈ b'.timers
  running : ∀ j, b.jobs x = some j → j.state = .running →
    ∀ τ l, b.leases τ = some l → l.jobID = x → b'.leases τ = some l
  pending : ∀ j, b.jobs x = some j → j.state = .pending → ∀ d, x ∈ b.waits d → x ∈ b'.waits d

/-- `x` is stored as `j'`, and what its new state asks for is in place. -/
structure Rewrites (l : Label) (b b' : Board) (x : String) (j' : Job) : Prop where
  written : l.writes = some x
  origin : l = .place x ∨ ∃ j, b.jobs x = some j ∧ plan j' = plan j
  stored : b'.jobs x = some j'
  queued : j'.state = .queued → x ∈ b'.ready ∨ x ∈ b'.timers
  running : j'.state = .running → (∃ τ, l = .dispatch x τ) ∧ ∃ τ l, b'.leases τ = some l ∧ l.jobID = x
  pending : j'.state = .pending → l = .place x ∧ ¬ b.Met j' ∧ ∀ d ∈ j'.dependsOn, x ∈ b'.waits d
  succeeded : j'.state = .succeeded → ∃ τ, l = .succeed x τ

/-! ### Frames

What the single changes of a board leave to a job.
-/

namespace Keeps

variable {b₁ : Board} {j : Job} {y τ : String}

theorem trans (h : Keeps b b₁ x) (h' : Keeps b₁ b' x) : Keeps b b' x where
  stored := h'.stored.trans h.stored
  queued j hj hs hr := h'.queued j (h.stored.trans hj) hs (h.queued j hj hs hr)
  running j hj hs τ l hl hx := h'.running j (h.stored.trans hj) hs τ l (h.running j hj hs τ l hl hx) hx
  pending j hj hs d hd := h'.pending j (h.stored.trans hj) hs d (h.pending j hj hs d hd)

theorem put (hx : x ≠ j.id) : Keeps b (b.put j) x where
  stored := Function.update_of_ne hx _ _
  queued _ _ _ hr := hr
  running _ _ _ _ _ hl _ := hl
  pending _ _ _ _ hd := hd

theorem push : Keeps b (b.push y) x where
  stored := rfl
  queued _ _ _ hr := hr.imp_left (Set.mem_insert_of_mem y)
  running _ _ _ _ _ hl _ := hl
  pending _ _ _ _ hd := hd

theorem arm : Keeps b (b.arm y) x where
  stored := rfl
  queued _ _ _ hr := hr.imp_right (Set.mem_insert_of_mem y)
  running _ _ _ _ _ hl _ := hl
  pending _ _ _ _ hd := hd

theorem scheduled (h : b.Scheduled y b') : Keeps b b' x := by
  rcases h with rfl | rfl
  · exact push
  · exact arm

theorem unready (h : x = y → ∀ j, b.jobs y = some j → j.state ≠ .queued) : Keeps b (b.unready y) x where
  stored := rfl
  queued j hj hs hr := hr.imp_left fun hx => ⟨hx, fun he => h he j (he ▸ hj) hs⟩
  running _ _ _ _ _ hl _ := hl
  pending _ _ _ _ hd := hd

theorem unarm (h : x = y → ∀ j, b.jobs y = some j → j.state ≠ .queued) : Keeps b (b.unarm y) x where
  stored := rfl
  queued j hj hs hr := hr.imp_right fun hx => ⟨hx, fun he => h he j (he ▸ hj) hs⟩
  running _ _ _ _ _ hl _ := hl
  pending _ _ _ _ hd := hd

/-- A job whose timer has fired is ready instead. -/
theorem fire : Keeps b ((b.unarm y).push y) x where
  stored := rfl
  queued _ _ _ hr := by
    by_cases hx : x = y
    · exact .inl (.inl hx)
    · exact hr.imp .inr fun ht => ⟨ht, hx⟩
  running _ _ _ _ _ hl _ := hl
  pending _ _ _ _ hd := hd

theorem lease {l : Scheduler.Lease} (hnew : b.leases l.taskID = none) : Keeps b (b.lease l) x where
  stored := rfl
  queued _ _ _ hr := hr
  running _ _ _ τ _ hl _ := by
    have hne : τ ≠ l.taskID := by
      rintro rfl
      cases hnew.symm.trans hl
    rw [Board.lease_leases, Function.update_of_ne hne]
    exact hl
  pending _ _ _ _ hd := hd

theorem unlease (h : ∀ l j, b.leases τ = some l → l.jobID = x → b.jobs x = some j → j.state ≠ .running) :
    Keeps b (b.unlease τ) x where
  stored := rfl
  queued _ _ _ hr := hr
  running j hj hs τ' l hl hx := by
    have hne : τ' ≠ τ := by
      rintro rfl
      exact h l j hl hx hj hs
    rw [Board.unlease_leases, Function.update_of_ne hne]
    exact hl
  pending _ _ _ _ hd := hd

/-- The lease that an attempt gives back is none of another job. -/
theorem yield {via : Option String} (hvia : b.Via y via) (hx : x ≠ y) : Keeps b (b.yield via) x := by
  cases via with
  | none => exact ⟨rfl, fun _ _ _ hr => hr, fun _ _ _ _ _ hl _ => hl, fun _ _ _ _ hd => hd⟩
  | some τ =>
    obtain ⟨l, hl, hy⟩ := hvia τ rfl
    refine unlease fun l' j hl' hx' => ?_
    cases hl.symm.trans hl'
    exact absurd (hx'.symm.trans hy) hx

theorem park : Keeps b (b.park j) x where
  stored := rfl
  queued _ _ _ hr := hr
  running _ _ _ _ _ hl _ := hl
  pending _ _ _ _ hd := Board.mem_park.2 (.inr hd)

theorem unpark (h : x = y → ∀ j, b.jobs y = some j → j.state ≠ .pending) : Keeps b (b.unpark y) x where
  stored := rfl
  queued _ _ _ hr := hr
  running _ _ _ _ _ hl _ := hl
  pending j hj hs _ hd := ⟨hd, fun he => h he j (he ▸ hj) hs⟩

theorem draw : Keeps b (b.draw τ) x := ⟨rfl, fun _ _ _ hr => hr, fun _ _ _ _ _ hl _ => hl, fun _ _ _ _ hd => hd⟩

end Keeps

namespace Rewrites

variable {j' : Job}

/-- A new state that asks for nothing. -/
theorem settled (hw : l.writes = some x) (ho : l = .place x ∨ ∃ j, b.jobs x = some j ∧ plan j' = plan j)
    (hj : b'.jobs x = some j') (hs : j'.state = .canceled ∨ j'.state = .failed) : Rewrites l b b' x j' := by
  refine ⟨hw, ho, hj, ?_, ?_, ?_, ?_⟩
  all_goals
    intro h
    rcases hs with hs | hs <;> cases hs.symm.trans h

theorem scheduled (hw : l.writes = some x) (ho : l = .place x ∨ ∃ j, b.jobs x = some j ∧ plan j' = plan j)
    (hj : b'.jobs x = some j') (hs : j'.state = .queued) (hr : x ∈ b'.ready ∨ x ∈ b'.timers) :
    Rewrites l b b' x j' := by
  refine ⟨hw, ho, hj, fun _ => hr, ?_, ?_, ?_⟩
  all_goals
    intro h
    cases hs.symm.trans h

end Rewrites

theorem Board.put_self {j : Job} (hid : j.id = x) : (b.put j).jobs x = some j := by
  rw [Board.put_jobs, ← hid, Function.update_self]

theorem Board.Scheduled.mem (h : b.Scheduled x b') : x ∈ b'.ready ∨ x ∈ b'.timers := by
  rcases h with rfl | rfl
  · exact .inl (Set.mem_insert ..)
  · exact .inr (Set.mem_insert ..)

/-- A move writes at most the record it is about. -/
theorem Move.keeps_or_rewrites (hm : Move l b b') (x : String) : Keeps b b' x ∨ ∃ j', Rewrites l b b' x j' := by
  cases hm with
  | @reject _ j hs =>
    by_cases hx : x = j.id
    · subst hx
      exact .inr ⟨j, .settled rfl (.inl rfl) (Board.put_self rfl) (.inl hs)⟩
    · exact .inl (.put hx)
  | @park _ j hs hmet =>
    by_cases hx : x = j.id
    · subst hx
      refine .inr ⟨j, rfl, .inl rfl, Board.put_self rfl, fun h => ?_, fun h => ?_, fun _ => ⟨rfl, hmet, fun d hd => ?_⟩,
        fun h => ?_⟩
      · cases hs.symm.trans h
      · cases hs.symm.trans h
      · exact Board.mem_park.2 (.inl ⟨hd, rfl⟩)
      · cases hs.symm.trans h
    · exact .inl ((Keeps.put hx).trans .park)
  | @accept _ _ j hs hmet hsch =>
    by_cases hx : x = j.id
    · subst hx
      refine .inr ⟨j, .scheduled rfl (.inl rfl) ?_ hs hsch.mem⟩
      rw [hsch.jobs]
      exact Board.put_self rfl
    · exact .inl ((Keeps.put hx).trans (.scheduled hsch))
  | @promote _ _ j j' hb hs hmet hp hs' hsch =>
    have hid := id_of_plan hp
    by_cases hx : x = j.id
    · subst hx
      refine .inr ⟨j', .scheduled rfl (.inr ⟨j, hb, hp⟩) ?_ hs' hsch.mem⟩
      rw [Board.unpark_jobs, hsch.jobs]
      exact Board.put_self hid
    · exact .inl (((Keeps.put (hid ▸ hx)).trans (.scheduled hsch)).trans (.unpark fun he => absurd he hx))
  | @cancel _ j j' hb hs hp hs' =>
    have hid := id_of_plan hp
    by_cases hx : x = j.id
    · subst hx
      exact .inr ⟨j', .settled rfl (.inr ⟨j, hb, hp⟩) (Board.put_self hid) (.inl hs')⟩
    · exact .inl ((Keeps.put (hid ▸ hx)).trans (.unready fun he => absurd he hx))
  | @forget _ y hf =>
    refine .inl (.unpark fun _ j hj hs => ?_)
    have hfinal := hf j hj
    rw [hs] at hfinal
    cases hfinal
  | @dispatch _ j j' ls hr hb hs hp hs' hi hl hj =>
    have hid := id_of_plan hp
    by_cases hx : x = j.id
    · subst hx
      have hlease : ∃ τ l, ((((b.draw ls.taskID).unready j.id).put j').lease ls).leases τ = some l ∧ l.jobID = j.id :=
        ⟨ls.taskID, ls, Function.update_self .., hj⟩
      refine .inr ⟨j', rfl, .inr ⟨j, hb, hp⟩, Board.put_self hid, fun h => ?_, fun _ => ⟨⟨_, rfl⟩, hlease⟩, fun h => ?_,
        fun h => ?_⟩
      all_goals cases hs'.symm.trans h
    · exact .inl (((Keeps.draw.trans (.unready fun he => absurd he hx)).trans (.put (hid ▸ hx))).trans (.lease hl))
  | @discard _ y hf => exact .inl (.unready fun _ => hf)
  | @succeed _ j j' ls τ hb hs hl hj hp hs' =>
    have hid := id_of_plan hp
    by_cases hx : x = j.id
    · subst hx
      refine .inr ⟨j', rfl, .inr ⟨j, hb, hp⟩, Board.put_self hid, fun h => ?_, fun h => ?_, fun h => ?_, fun _ => ⟨τ, rfl⟩⟩
      all_goals cases hs'.symm.trans h
    · have hother : Keeps b (b.unlease τ) x := .unlease fun l' _ hl' hx' => by
        cases hl.symm.trans hl'
        exact absurd (hx'.symm.trans hj) hx
      exact .inl ((hother.trans (.put (hid ▸ hx))).trans (.unpark fun he => absurd he hx))
  | @requeue _ _ j j' via hb hs hvia hp hs' hsch =>
    have hid := id_of_plan hp
    by_cases hx : x = j.id
    · subst hx
      refine .inr ⟨j', .scheduled rfl (.inr ⟨j, hb, hp⟩) ?_ hs' hsch.mem⟩
      rw [hsch.jobs]
      exact Board.put_self hid
    · exact .inl (((Keeps.yield hvia hx).trans (.put (hid ▸ hx))).trans (.scheduled hsch))
  | @bury _ j j' via hb hs hvia hp hs' =>
    have hid := id_of_plan hp
    by_cases hx : x = j.id
    · subst hx
      exact .inr ⟨j', .settled rfl (.inr ⟨j, hb, hp⟩) (Board.put_self hid) (.inr hs')⟩
    · exact .inl (((Keeps.yield hvia hx).trans (.put (hid ▸ hx))).trans (.unpark fun he => absurd he hx))
  | @release _ τ hf =>
    refine .inl (.unlease fun l j hl hx hj => ?_)
    subst hx
    exact hf l j hl hj
  | fire => exact .inl .fire
  | fizzle hf => exact .inl (.unarm fun _ => hf)
  | record => exact .inl .park
  | draw => exact .inl .draw
  | enqueue _ _ hsch => exact .inl (.scheduled hsch)

theorem Move.armed (hm : Move l b b') (h : Armed b x) : Armed b' x := by
  intro j hj hs
  rcases hm.keeps_or_rewrites x with hk | ⟨j', hr⟩
  · rw [hk.stored] at hj
    exact hk.queued j hj hs (h j hj hs)
  · cases hr.stored.symm.trans hj
    exact hr.queued hs

theorem Move.leased (hm : Move l b b') (h : RunsLeased b x) : RunsLeased b' x := by
  intro j hj hs
  rcases hm.keeps_or_rewrites x with hk | ⟨j', hr⟩
  · rw [hk.stored] at hj
    obtain ⟨τ, ls, hl, hx⟩ := h j hj hs
    exact ⟨τ, ls, hk.running j hj hs τ ls hl hx, hx⟩
  · cases hr.stored.symm.trans hj
    exact (hr.running hs).2

theorem Move.recorded (hm : Move l b b') (h : Recorded b x) : Recorded b' x := by
  intro j hj hs d hd
  rcases hm.keeps_or_rewrites x with hk | ⟨j', hr⟩
  · rw [hk.stored] at hj
    exact hk.pending j hj hs d (h j hj hs d hd)
  · cases hr.stored.symm.trans hj
    exact (hr.pending hs).2.2 d hd

/-- A move writes no other record than the one it is about. -/
theorem Move.other (hm : Move l b b') (hl : l.writes ≠ some x) : b'.jobs x = b.jobs x := by
  rcases hm.keeps_or_rewrites x with hk | ⟨j', hr⟩
  · exact hk.stored
  · exact absurd hr.written hl

/-- Only a dispatch makes a job RUNNING. -/
theorem Move.of_running (hm : Move l b b') {j : Job} (hl : ∀ τ, l ≠ .dispatch x τ) (hj : b'.jobs x = some j)
    (hs : j.state = .running) : b.jobs x = some j := by
  rcases hm.keeps_or_rewrites x with hk | ⟨j', hr⟩
  · exact hk.stored ▸ hj
  · cases hr.stored.symm.trans hj
    obtain ⟨⟨τ, hτ⟩, _⟩ := hr.running hs
    exact absurd hτ (hl τ)

/-- Only a submission makes a job PENDING. -/
theorem Move.of_pending (hm : Move l b b') {j : Job} (hl : l ≠ .place x) (hj : b'.jobs x = some j)
    (hs : j.state = .pending) : b.jobs x = some j := by
  rcases hm.keeps_or_rewrites x with hk | ⟨j', hr⟩
  · exact hk.stored ▸ hj
  · cases hr.stored.symm.trans hj
    exact absurd (hr.pending hs).1 hl

/-- Only a submission adds a record. -/
theorem Move.of_stored (hm : Move l b b') {j : Job} (hl : l ≠ .place x) (hj : b'.jobs x = some j) :
    ∃ j₀, b.jobs x = some j₀ ∧ plan j = plan j₀ := by
  rcases hm.keeps_or_rewrites x with hk | ⟨j', hr⟩
  · exact ⟨j, hk.stored ▸ hj, rfl⟩
  · cases hr.stored.symm.trans hj
    exact hr.origin.resolve_left hl

/-- Only a dispatch hands out a lease. -/
theorem Move.of_leases (hm : Move l b b') {τ : String} {ls : Scheduler.Lease} (hl : ∀ y, l ≠ .dispatch y τ)
    (h : b'.leases τ = some ls) : b.leases τ = some ls := by
  cases hm with
  | accept _ _ hsch | enqueue _ _ hsch => exact hsch.leases ▸ h
  | promote _ _ _ _ _ hsch =>
    rw [Board.unpark_leases, hsch.leases] at h
    exact h
  | requeue _ _ _ _ _ hsch =>
    rw [hsch.leases, Board.put_leases, Board.yield_leases] at h
    exact (Option.ite_none_left_eq_some.1 h).2
  | bury =>
    rw [Board.unpark_leases, Board.put_leases, Board.yield_leases] at h
    exact (Option.ite_none_left_eq_some.1 h).2
  | dispatch =>
    rw [Board.lease_leases, Function.update_of_ne (by rintro rfl; exact hl _ rfl)] at h
    exact h
  | succeed =>
    rw [Board.unpark_leases, Board.put_leases, Board.unlease_leases, Function.update_apply] at h
    exact (Option.ite_none_left_eq_some.1 h).2
  | release =>
    rw [Board.unlease_leases, Function.update_apply] at h
    exact (Option.ite_none_left_eq_some.1 h).2
  | _ => exact h

/-- Only submissions and rebuilds record who waits. -/
theorem Move.of_waits (hm : Move l b b') {d : String} (hp : l ≠ .place x) (hr : l ≠ .record x)
    (h : x ∈ b'.waits d) : x ∈ b.waits d := by
  cases hm with
  | accept _ _ hsch | enqueue _ _ hsch => exact hsch.waits ▸ h
  | promote _ _ _ _ _ hsch => exact hsch.waits ▸ h.1
  | requeue _ _ _ _ _ hsch =>
    rw [hsch.waits, Board.put_waits, Board.yield_waits] at h
    exact h
  | bury =>
    rw [Board.unpark_waits, Board.put_waits, Board.yield_waits] at h
    exact h.1
  | park | record =>
    rw [Board.mem_park] at h
    rcases h with ⟨_, rfl⟩ | h
    · first | exact absurd rfl hp | exact absurd rfl hr
    · exact h
  | forget | succeed => exact h.1
  | _ => exact h

theorem Move.named (hm : Move l b b') (h : Named b x) : Named b' x := by
  intro d hd
  by_cases hplace : l = .place x
  · subst hplace
    cases hm with
    | reject | park => exact ⟨_, Function.update_self ..⟩
    | accept _ _ hsch =>
      rw [hsch.jobs]
      exact ⟨_, Function.update_self ..⟩
  · rcases hm.keeps_or_rewrites x with hk | ⟨j', hr⟩
    · rw [hk.stored]
      by_cases hrecord : l = .record x
      · subst hrecord
        cases hm with
        | record hj => exact ⟨_, hj⟩
      · exact h d (hm.of_waits hplace hrecord hd)
    · exact ⟨j', hr.stored⟩

/-- Only `succeed` makes a job SUCCEEDED. -/
theorem Move.of_succeeded (hm : Move l b b') {j : Job} (hl : ∀ τ, l ≠ .succeed x τ) (hj : b'.jobs x = some j)
    (hs : j.state = .succeeded) : b.jobs x = some j := by
  rcases hm.keeps_or_rewrites x with hk | ⟨j', hr⟩
  · exact hk.stored ▸ hj
  · cases hr.stored.symm.trans hj
    obtain ⟨τ, hτ⟩ := hr.succeeded hs
    exact absurd hτ (hl τ)

/-- The dependencies of a job are met after a move only if they were before, unless the move completes
one of them. -/
theorem Move.of_met (hm : Move l b b') {j : Job} (hl : ∀ D τ, l = .succeed D τ → D ∉ j.dependsOn) (h : b'.Met j) :
    b.Met j := by
  intro d hd
  obtain ⟨jd, hjd, hs⟩ := h d hd
  refine ⟨jd, hm.of_succeeded ?_ hjd hs, hs⟩
  rintro τ rfl
  exact hl d τ rfl hd

/-- The completion of a dependency may unblock a job; nothing else does. -/
theorem Move.blocked (hm : Move l b b')
    (hl : ∀ D τ, l = .succeed D τ → ∀ j, b.jobs x = some j → j.state = .pending → D ∉ j.dependsOn)
    (h : Blocked b x) : Blocked b' x := by
  intro j hj hs hmet
  rcases hm.keeps_or_rewrites x with hk | ⟨j', hw⟩
  · rw [hk.stored] at hj
    exact h j hj hs (hm.of_met (fun D τ he => hl D τ he j hj hs) hmet)
  · cases hw.stored.symm.trans hj
    obtain ⟨hpl, hn, _⟩ := hw.pending hs
    refine hn (hm.of_met ?_ hmet)
    rintro D τ rfl
    cases hpl

/-! ## Sequences of moves -/

/-- Not the completion of a job. -/
def Label.Quiet : Label → Prop
  | .succeed _ _ => False
  | _ => True

theorem Label.Quiet.ne_succeed {l : Label} (h : l.Quiet) (D τ : String) : l ≠ .succeed D τ := by
  rintro rfl
  exact h

variable {P : Label → Prop}

theorem Moves.armed (hm : Moves P b b') (h : Armed b x) : Armed b' x :=
  hm.preserves (I := fun b => Armed b x) (fun _ _ _ _ hm h => hm.armed h) h

theorem Moves.leased (hm : Moves P b b') (h : RunsLeased b x) : RunsLeased b' x :=
  hm.preserves (I := fun b => RunsLeased b x) (fun _ _ _ _ hm h => hm.leased h) h

theorem Moves.recorded (hm : Moves P b b') (h : Recorded b x) : Recorded b' x :=
  hm.preserves (I := fun b => Recorded b x) (fun _ _ _ _ hm h => hm.recorded h) h

theorem Moves.named (hm : Moves P b b') (h : Named b x) : Named b' x :=
  hm.preserves (I := fun b => Named b x) (fun _ _ _ _ hm h => hm.named h) h

theorem Moves.blocked (hm : Moves P b b') (hP : ∀ l, P l → l.Quiet) (h : Blocked b x) : Blocked b' x :=
  hm.preserves (I := fun b => Blocked b x)
    (fun l _ _ hl hm h => hm.blocked (fun D τ he => absurd he ((hP l hl).ne_succeed D τ)) h) h

/-- What must hold of every job between two activities of a leader. -/
structure Settled (b : Board) : Prop where
  armed : ∀ x, Armed b x
  leased : ∀ x, RunsLeased b x
  recorded : ∀ x, Recorded b x
  blocked : ∀ x, Blocked b x
  named : ∀ x, Named b x

/-- The completion of `D`, quiet moves, and at the end no job that waited on `D` is left unblocked. -/
def Completes (P : Label → Prop) (D τ : String) (b b' : Board) : Prop :=
  ∃ b₁, Move (.succeed D τ) b b₁ ∧ Moves P b₁ b' ∧ ∀ x ∈ b.waits D, Blocked b' x

theorem Settled.moves (h : Settled b) (hm : Moves P b b') (hP : ∀ l, P l → l.Quiet) : Settled b' where
  armed x := hm.armed (h.armed x)
  leased x := hm.leased (h.leased x)
  recorded x := hm.recorded (h.recorded x)
  blocked x := hm.blocked hP (h.blocked x)
  named x := hm.named (h.named x)

/-- A completion settles again once every job waiting on the completed one has been looked at. -/
theorem Settled.completes {D τ : String} (h : Settled b) (hc : Completes P D τ b b') (hP : ∀ l, P l → l.Quiet) :
    Settled b' := by
  obtain ⟨b₁, hm, hq, hw⟩ := hc
  refine ⟨fun x => hq.armed (hm.armed (h.armed x)), fun x => hq.leased (hm.leased (h.leased x)),
    fun x => hq.recorded (hm.recorded (h.recorded x)), fun x => ?_, fun x => hq.named (hm.named (h.named x))⟩
  by_cases hx : x ∈ b.waits D
  · exact hw x hx
  · refine hq.blocked hP (hm.blocked ?_ (h.blocked x))
    intro D' τ' he j hj hs hd
    cases he
    exact hx (h.recorded x j hj hs D hd)

end Distsched.Lifecycle
