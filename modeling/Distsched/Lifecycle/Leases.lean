/-
Lease discipline: the leases of a node are on RUNNING jobs, one on each, with the attempt and the worker
that are stored, or left over on CANCELED ones. Hence a task can change the stored jobs only once.
-/
import Distsched.Lifecycle.Turn

namespace Distsched.Lifecycle

open Scheduler Prog

variable {b b' : Board} {l : Label}

/-! ## Leases on the board -/

structure Disciplined (b : Board) : Prop where
  /-- A lease is on a CANCELED job, or on the attempt that is stored RUNNING. -/
  current : ∀ τ ls, b.leases τ = some ls → ∃ j, b.jobs ls.jobID = some j ∧
    (j.state = .canceled ∨ (j.state = .running ∧ ls.attempt = j.attempt ∧ ls.workerID = j.assignedWorkerId))
  /-- No two leases are on one RUNNING job. -/
  single : ∀ τ τ' ls ls' j, b.leases τ = some ls → b.leases τ' = some ls' → ls'.jobID = ls.jobID →
    b.jobs ls.jobID = some j → j.state = .running → τ' = τ

theorem Disciplined.of_none (h : ∀ τ, b.leases τ = none) : Disciplined b where
  current τ ls hl := by
    rw [h τ] at hl
    cases hl
  single τ _ ls _ _ hl := by
    rw [h τ] at hl
    cases hl

/-- Nothing is lost when no lease is added and every leased job keeps its record or is canceled. -/
theorem Disciplined.of_leases (h : Disciplined b) (hl : ∀ τ ls, b'.leases τ = some ls → b.leases τ = some ls)
    (hj : ∀ τ ls, b'.leases τ = some ls →
      b'.jobs ls.jobID = b.jobs ls.jobID ∨ ∃ j, b'.jobs ls.jobID = some j ∧ j.state = .canceled) :
    Disciplined b' where
  current τ ls hτ := by
    rcases hj τ ls hτ with hsame | ⟨j, hcan, hs⟩
    · rw [hsame]
      exact h.current τ ls (hl τ ls hτ)
    · exact ⟨j, hcan, .inl hs⟩
  single τ τ' ls ls' j hτ hτ' hx hjob hs := by
    rcases hj τ ls hτ with hsame | ⟨j', hcan, hs'⟩
    · rw [hsame] at hjob
      exact h.single τ τ' ls ls' j (hl τ ls hτ) (hl τ' ls' hτ') hx hjob hs
    · cases hcan.symm.trans hjob
      rw [hs'] at hs
      cases hs

/-- Not the recovery of an attempt whose lease is lost. -/
def Label.Tracked : Label → Prop
  | .requeue _ none | .bury _ none => False
  | _ => True

/-- A job that is neither RUNNING nor CANCELED has no lease. -/
theorem Disciplined.unleased (h : Disciplined b) {x : String} (hr : ∀ j, b.jobs x = some j → j.state ≠ .running)
    (hc : ∀ j, b.jobs x = some j → j.state ≠ .canceled) {τ : String} {ls : Lease} (hl : b.leases τ = some ls) :
    ls.jobID ≠ x := by
  rintro rfl
  obtain ⟨j, hj, hs | ⟨hs, _⟩⟩ := h.current τ ls hl
  · exact hc j hj hs
  · exact hr j hj hs

/-- A dispatched job was QUEUED, so the new lease is its only one. -/
theorem Disciplined.dispatch {x τ : String} (h : Disciplined b) (hm : Move (.dispatch x τ) b b') : Disciplined b' := by
  cases hm with
  | @dispatch _ j j' ls hr hj hs hpl hs' hi hfree hx ha hw =>
    have hid := id_of_plan hpl
    have hnone : ∀ τ' ls', b.leases τ' = some ls' → ls'.jobID ≠ j.id := by
      intro τ' ls' hl'
      refine h.unleased (fun j₁ hj₁ => ?_) (fun j₁ hj₁ => ?_) hl' <;> cases hj.symm.trans hj₁ <;> rw [hs] <;> decide
    have hother : ∀ τ' ls', b.leases τ' = some ls' →
        Function.update b.jobs j'.id (some j') ls'.jobID = b.jobs ls'.jobID := by
      intro τ' ls' hl'
      rw [hid]
      exact Function.update_of_ne (hnone τ' ls' hl') ..
    have hjobs : ((((b.draw ls.taskID).unready j.id).put j').lease ls).jobs =
        Function.update b.jobs j'.id (some j') := rfl
    constructor
    · intro τ' ls' hl'
      rw [Board.lease_leases, Function.update_apply] at hl'
      rw [hjobs]
      split at hl'
      · cases hl'
        refine ⟨j', ?_, .inr ⟨hs', ha, hw⟩⟩
        rw [hx, ← hid, Function.update_self]
      · rw [hother τ' ls' hl']
        exact h.current τ' ls' hl'
    · intro τ₁ τ₂ ls₁ ls₂ j₁ h₁ h₂ hsame hj₁ hs₁
      rw [Board.lease_leases, Function.update_apply] at h₁ h₂
      split at h₁ <;> split at h₂
      · rename_i e₁ e₂
        exact e₂.trans e₁.symm
      · cases h₁
        exact absurd (hsame.trans hx) (hnone τ₂ ls₂ h₂)
      · cases h₂
        exact absurd (hsame.symm.trans hx) (hnone τ₁ ls₁ h₁)
      · rw [hjobs, hother τ₁ ls₁ h₁] at hj₁
        exact h.single τ₁ τ₂ ls₁ ls₂ j₁ h₁ h₂ hsame hj₁ hs₁

/-- An attempt that ends under its lease leaves its job without one. -/
theorem Disciplined.ended (h : Disciplined b) {x τ : String} {j : Job} {ls : Lease} (hj : b.jobs x = some j)
    (hs : j.state = .running) (hl : b.leases τ = some ls) (hx : ls.jobID = x)
    (hback : ∀ τ' ls', b'.leases τ' = some ls' → b.leases τ' = some ls') (hgone : b'.leases τ = none) {τ' : String}
    {ls' : Lease} (hl' : b'.leases τ' = some ls') : ls'.jobID ≠ x := by
  subst hx
  intro he
  obtain rfl := h.single τ τ' ls ls' j hl (hback τ' ls' hl') he hj hs
  rw [hgone] at hl'
  cases hl'

theorem Disciplined.move (h : Disciplined b) (hm : Move l b b') (ht : l.Tracked)
    (hp : ∀ x, l = .place x → b.jobs x = none) : Disciplined b' := by
  -- a dispatch is the only move that adds a lease
  by_cases hd : ∃ x τ, l = .dispatch x τ
  · obtain ⟨x, τ, rfl⟩ := hd
    exact h.dispatch hm
  have hback : ∀ τ ls, b'.leases τ = some ls → b.leases τ = some ls := fun τ ls hl =>
    hm.of_leases (fun y he => hd ⟨y, τ, he⟩) hl
  -- a move that writes a leased job cancels it
  refine h.of_leases hback fun τ ls hl => ?_
  by_cases hw : l.writes = some ls.jobID
  · have hold := hback τ ls hl
    have hnew : ∀ x, l = .place x → ls.jobID ≠ x := fun x he => by
      refine h.unleased (fun j hj => ?_) (fun j hj => ?_) hold <;> rw [hp x he] at hj <;> cases hj
    cases hm with
    | reject | park | accept => exact absurd (Option.some.inj hw).symm (hnew _ rfl)
    | promote hj hs =>
      refine absurd (Option.some.inj hw).symm (h.unleased (fun j hj' => ?_) (fun j hj' => ?_) hold) <;>
        cases hj.symm.trans hj' <;> rw [hs] <;> decide
    | @cancel _ j j' hj hs hpl hs' =>
      refine .inr ⟨j', ?_, hs'⟩
      rw [← Option.some.inj hw, Board.unready_jobs, Board.put_jobs, ← id_of_plan hpl, Function.update_self]
    | dispatch => exact absurd ⟨_, _, rfl⟩ hd
    | succeed hj hs hls hx hpl hs' =>
      refine absurd (Option.some.inj hw).symm (h.ended hj hs hls hx hback ?_ hl)
      simp
    | @requeue _ _ j j' via hj hs hvia hpl hs' hsch =>
      cases via with
      | none => exact ht.elim
      | some τ₀ =>
        obtain ⟨ls₀, hls, hx⟩ := hvia τ₀ rfl
        refine absurd (Option.some.inj hw).symm (h.ended hj hs hls hx hback ?_ hl)
        rw [hsch.leases]
        simp [Board.yield]
    | @bury _ j j' via hj hs hvia hpl hs' =>
      cases via with
      | none => exact ht.elim
      | some τ₀ =>
        obtain ⟨ls₀, hls, hx⟩ := hvia τ₀ rfl
        refine absurd (Option.some.inj hw).symm (h.ended hj hs hls hx hback ?_ hl)
        simp [Board.yield]
    | _ => cases hw
  · exact .inl (hm.other hw)

theorem Disciplined.moves {P : Label → Prop} (h : Disciplined b) (hm : Moves P b b') (hP : ∀ l, P l → l.Tracked)
    (hplace : ∀ x, ¬ P (.place x)) : Disciplined b' :=
  hm.preserves (I := Disciplined) (fun _ _ _ hl hm h => h.move hm (hP _ hl) fun x he => absurd (he ▸ hl) (hplace x)) h

theorem Label.Promotion.tracked (h : l.Promotion) : l.Tracked := by
  cases l <;> first | exact h.elim | trivial

theorem Label.Sweep.tracked (h : l.Sweep) : l.Tracked := by
  cases l with
  | requeue x via | bury x via =>
    cases via with
    | none => exact h.elim
    | some τ => trivial
  | _ => first | exact h.elim | trivial

theorem Label.Poll.tracked (h : l.Poll) : l.Tracked := by
  cases l <;> first | exact h.elim | trivial

variable {env : Env}

/-- Every activity keeps the discipline, if a submission takes an ID that is not stored. -/
theorem Disciplined.turn {c : Call} (h : Disciplined b) (ht : Turn env b b' c)
    (hnew : ∀ j, c = .submitJob (some j) → b.jobs (submitID env b.minted j) = none) : Disciplined b' := by
  have hdraw : ∀ {b₁}, Draws b b₁ → Disciplined b₁ ∧ b₁.jobs = b.jobs := by
    rintro b₁ (rfl | ⟨τ, rfl⟩)
    · exact ⟨h, rfl⟩
    · exact ⟨h.move .draw trivial (by rintro x ⟨⟩), rfl⟩
  cases c with
  | submitJob req =>
    rcases ht with rfl | ⟨j, rfl, b₁, hd, rfl | hm⟩
    · exact h
    · exact (hdraw hd).1
    · refine (hdraw hd).1.move hm trivial ?_
      rintro x ⟨⟩
      rw [(hdraw hd).2]
      exact hnew j rfl
  | cancelJob x => exact h.moves ht (fun _ hl => hl.promotion.tracked) fun _ => id
  | pollTask w n => exact h.moves ht (fun _ hl => hl.tracked) fun _ => id
  | reportTask τ result err =>
    rcases ht with hd | ⟨ls, _, b₁, hm, hp, _⟩
    · exact h.moves hd.moves (fun _ hl => hl.tracked) fun _ => id
    · exact (h.move hm trivial (by rintro x ⟨⟩)).moves hp (fun _ hl => hl.tracked) fun _ => id
  | registerWorker w => exact (hdraw ht).1
  | heartbeat w n =>
    cases ht
    exact h
  | timer x => exact h.move ht trivial (by rintro x ⟨⟩)
  | reaper => exact h.moves ht (fun _ hl => hl.tracked) fun _ => id
  | becomeLeader => exact .of_none ht.unleased

/-! ## A task ID is used up with its lease -/

/-- The task ID has been drawn and is not leased. -/
def Spent (τ : String) (b : Board) : Prop := τ ∈ b.issued ∧ b.leases τ = none

theorem Move.issued (hm : Move l b b') : b.issued ⊆ b'.issued := by
  cases hm with
  | accept _ _ hsch | enqueue _ _ hsch => simp [hsch.issued]
  | promote _ _ _ _ _ hsch | requeue _ _ _ _ _ hsch => simp [hsch.issued]
  | dispatch | draw => exact Set.subset_insert _ _
  | _ => simp

theorem Spent.move {τ : String} (h : Spent τ b) (hm : Move l b b') : Spent τ b' := by
  refine ⟨hm.issued h.1, ?_⟩
  by_contra hne
  obtain ⟨ls, hls⟩ := Option.ne_none_iff_exists'.1 hne
  by_cases hd : ∃ y, l = .dispatch y τ
  · -- a dispatch draws its task ID
    obtain ⟨y, rfl⟩ := hd
    cases hm with
    | dispatch _ _ _ _ _ hi => exact hi h.1
  · have := hm.of_leases (fun y he => hd ⟨y, he⟩) hls
    rw [h.2] at this
    cases this

theorem Spent.moves {τ : String} {P : Label → Prop} (h : Spent τ b) (hm : Moves P b b') : Spent τ b' :=
  hm.preserves (I := Spent τ) (fun _ _ _ _ hm h => h.move hm) h

theorem Spent.turn {τ : String} {c : Call} (h : Spent τ b) (ht : Turn env b b' c) : b'.leases τ = none := by
  have hdraw : ∀ {b₁}, Draws b b₁ → Spent τ b₁ := by
    rintro b₁ (rfl | ⟨τ', rfl⟩)
    · exact h
    · exact h.move .draw
  cases c with
  | submitJob req =>
    rcases ht with rfl | ⟨j, _, b₁, hd, rfl | hm⟩
    · exact h.2
    · exact (hdraw hd).2
    · exact ((hdraw hd).move hm).2
  | cancelJob x | pollTask w n | reaper => exact (h.moves ht).2
  | reportTask τ' result err =>
    rcases ht with hd | ⟨ls, _, b₁, hm, hp, _⟩
    · exact (h.moves hd.moves).2
    · exact ((h.move hm).moves hp).2
  | registerWorker w => exact (hdraw ht).2
  | heartbeat w n =>
    cases ht
    exact h.2
  | timer x => exact (h.move ht).2
  | becomeLeader => exact ht.unleased τ

/-- The end of an attempt uses up its task ID. -/
theorem Lost.spent {x τ : String} (h : Lost x (some τ) b b') (hi : τ ∈ b.issued) : Spent τ b' := by
  rcases h with h | h
  · refine ⟨h.issued hi, ?_⟩
    cases h with
    | requeue _ _ _ _ _ hsch => simp [hsch.leases, Board.yield]
  · refine ⟨h.issued hi, ?_⟩
    cases h
    simp [Board.yield]

theorem Move.succeed_spent {x τ : String} (h : Move (.succeed x τ) b b') (hi : τ ∈ b.issued) : Spent τ b' := by
  refine ⟨h.issued hi, ?_⟩
  cases h
  simp

/-- A report that changes a job is made under a lease, and uses it up. -/
theorem report_spends {τ : String} {result : TaskResult} {err : String} (ht : Turn env b b' (.reportTask τ result err))
    (hiss : ∀ ls, b.leases τ = some ls → τ ∈ b.issued) (hne : b'.jobs ≠ b.jobs) : b.leases τ ≠ none ∧ Spent τ b' := by
  rcases ht with (rfl | ⟨ls, hl, hm | ⟨b₁, hlost, hm⟩⟩) | ⟨ls, hl, b₁, hm, hp, _⟩
  · exact absurd rfl hne
  · cases hm
    exact absurd rfl hne
  · exact ⟨by simp [hl], (hlost.spent (hiss ls hl)).moves hm⟩
  · exact ⟨by simp [hl], (hm.succeed_spent (hiss ls hl)).moves hp⟩

/-! ## Runs -/

variable {ps : Cron} {ok : Server → Event → Prop} {s s' : Server} {τ : String}

theorem handle_minted (op : Op) (s : Server) : s.minted ≤ (handle env op s).2.minted := by
  cases op with
  | newID kind => exact Nat.le_succ _
  | putJob j | putDeadLetter j | putWorker w =>
    simp only [handle, Server.write]
    split <;> exact Nat.le_refl _
  | _ => exact Nat.le_refl _

/-- No step takes a UUID back. -/
theorem step_minted {ev : Event} (h : step env ps s ev = some s') : s.minted ≤ s'.minted := by
  have hexec : ∀ {α : Type} (p : M α) (s : Server), s.minted ≤ (exec (handle env) p s).2.minted :=
    exec_rel (R := fun s s' => s.minted ≤ s'.minted) (handle env) (fun _ => Nat.le_refl _)
      (fun _ _ _ => Nat.le_trans) handle_minted
  have hcut : ∀ {α : Type} (n : Nat) (p : M α) (s : Server), s.minted ≤ (execFor (handle env) n p s).minted :=
    execFor_rel (R := fun s s' => s.minted ≤ s'.minted) (handle env) (fun _ => Nat.le_refl _)
      (fun _ _ _ => Nat.le_trans) handle_minted
  cases ev with
  | call c =>
    obtain ⟨_, ⟨⟩⟩ := Option.ite_none_right_eq_some.1 h
    exact hexec _ s
  | crash c ops aborted node =>
    obtain ⟨_, ⟨⟩⟩ := Option.ite_none_right_eq_some.1 h
    refine Nat.le_trans ?_ (hexec (boot ps node) (crashed env ps s c ops aborted).fresh)
    have hstarts : ∀ (l : List (Cluster.Node × Nat)) (s₁ : Server), s.minted ≤ s₁.minted →
        s.minted ≤ (l.foldl (abortedStart env ps) s₁).minted := by
      intro l
      induction l with
      | nil => exact fun _ h => h
      | cons a l ih => exact fun s₁ h₁ => ih _ (h₁.trans (hcut a.2 (boot ps a.1) s₁.fresh))
    exact hstarts aborted _ (hcut ops _ s)

theorem issued_step {ev : Event} (h : step env ps s ev = some s') :
    (view env s).issued ⊆ (view env s').issued := fun _ ⟨n, hn, he⟩ => ⟨n, hn.trans_le (step_minted h), he⟩

theorem spent_step (he : Sound env) {ev : Event} (hs : Serving env s) (h : step env ps s ev = some s')
    (hsp : Spent τ (view env s)) : Spent τ (view env s') := by
  refine ⟨issued_step h hsp.1, ?_⟩
  obtain ⟨_, ⟨c, _, ht⟩ | ⟨_, _, _, _, _, hr⟩⟩ := step_shows he hs h
  · exact hsp.turn ht
  · exact hr.unleased τ

/-- Once used up, a task ID is never leased again. -/
theorem spent_runs (he : Sound env) (hs : Serving env s) (h : Runs env ps ok s s') :
    Serving env s' ∧ (Spent τ (view env s) → Spent τ (view env s')) := by
  induction h with
  | refl => exact ⟨hs, id⟩
  | step _ _ hstep ih => exact ⟨(step_shows he ih.1 hstep).1, fun hsp => spent_step he ih.1 hstep (ih.2 hsp)⟩

/-- The step changes stored jobs on behalf of the task: it is a report of the task that changes one, or
a sweep that takes the task back. -/
def Acts (τ : String) (s : Server) (ev : Event) (s' : Server) : Prop :=
  (∃ result error, ev = .call (.reportTask τ result error) ∧ ∃ x, s'.store.jobs.get x ≠ s.store.jobs.get x) ∨
    (ev = .call .reaper ∧ s.leases[τ]? ≠ none ∧ s'.leases[τ]? = none)

theorem acts_spends (he : Sound env) {ev : Event} (hs : Serving env s) (h : step env ps s ev = some s')
    (ha : Acts τ s ev s') : s.leases[τ]? ≠ none ∧ Spent τ (view env s') := by
  rcases ha with ⟨result, error, rfl, x, hx⟩ | ⟨_, hl, hgone⟩
  · obtain ⟨_, ⟨c, hc, ht⟩ | ⟨_, _, _, _, hc, _⟩⟩ := step_shows he hs h
    · cases hc
      exact report_spends ht (fun ls hl => hs.traced τ ls hl) fun hjobs => hx (congrFun hjobs x)
    · cases hc
  · obtain ⟨ls, hls⟩ := Option.ne_none_iff_exists'.1 hl
    exact ⟨hl, issued_step h (hs.traced τ ls hls), hgone⟩

/-- In every state of a run without store failures in which submissions take IDs not yet stored: a RUNNING
job has exactly one lease, with the stored attempt and worker; a lease on a job that is not RUNNING is
on a CANCELED one; once a task has changed the stored jobs it never does so again; and a report of a
task without a lease changes none. -/
theorem lease_discipline {store : Store} {node : Cluster.Node} (he : Sound env) (hn : node.isLeader = true)
    (h : Runs env ps (SubmitsWhere Vacant env) (started env ps store node) s) :
    (∀ (x : String) (j : Job), s.store.jobs.get x = some j → j.state = .running →
      ∃ (τ : String) (l : Lease), s.leases[τ]? = some l ∧ l.jobID = x ∧ l.attempt = j.attempt ∧
        l.workerID = j.assignedWorkerId ∧
        ∀ (τ' : String) (l' : Lease), s.leases[τ']? = some l' → l'.jobID = x → τ' = τ) ∧
    (∀ (τ : String) (l : Lease), s.leases[τ]? = some l → ∃ j, s.store.jobs.get l.jobID = some j ∧
      (j.state ≠ .running → j.state = .canceled)) ∧
    (∀ τ ev₁ s₁ s₂ ev₂ s₃, step env ps s ev₁ = some s₁ → Acts τ s ev₁ s₁ → Runs env ps (fun _ _ => True) s₁ s₂ →
      step env ps s₂ ev₂ = some s₃ → ¬ Acts τ s₂ ev₂ s₃) ∧
    ∀ (τ : String) (result : TaskResult) (error x : String), s.leases[τ]? = none →
      (after env ps s (.reportTask τ result error)).store.jobs.get x = s.store.jobs.get x := by
  obtain ⟨hs, hb⟩ := Runs.board he hn (I := fun b => Settled b ∧ Disciplined b)
    (fun _ hr => ⟨hr.settled, .of_none hr.unleased⟩)
    (fun s c _ hok hb ht => ⟨hb.1.turn ht, hb.2.turn ht fun j hj => hok j hj⟩) h
  refine ⟨fun x j hj hr => ?_, fun τ l hl => ?_, ?_, fun τ result error x hl => ?_⟩
  · obtain ⟨τ, l, hl, rfl⟩ := hb.1.leased x j hj hr
    obtain ⟨j', hj', hc | ⟨_, ha, hw⟩⟩ := hb.2.current τ l hl
    · cases hj.symm.trans hj'
      rw [hr] at hc
      cases hc
    · cases hj.symm.trans hj'
      exact ⟨τ, l, hl, rfl, ha, hw, fun τ' l' hl' hx => hb.2.single τ τ' l l' j hl hl' hx hj hr⟩
  · obtain ⟨j, hj, hc | ⟨hr, _⟩⟩ := hb.2.current τ l hl
    · exact ⟨j, hj, fun _ => hc⟩
    · exact ⟨j, hj, fun hne => absurd hr hne⟩
  · intro τ ev₁ s₁ s₂ ev₂ s₃ h₁ ha₁ hrun h₂ ha₂
    obtain ⟨_, hsp₁⟩ := acts_spends he hs h₁ ha₁
    obtain ⟨hs₂, hsp₂⟩ := spent_runs he (step_shows he hs h₁).1 hrun
    exact (acts_spends he hs₂ h₂ ha₂).1 (hsp₂ hsp₁).2
  · by_contra hne
    have hstep : step env ps s (.call (.reportTask τ result error)) =
        some (after env ps s (.reportTask τ result error)) := rfl
    exact (acts_spends he hs hstep (.inl ⟨result, error, rfl, x, hne⟩)).1 hl

theorem lease_discipline_polled : ∃ j, polled.store.jobs.get "a" = some j ∧ j.state = .running ∧
    ∃ (τ : String) (l : Lease), polled.leases[τ]? = some l ∧ l.jobID = "a" ∧ l.attempt = j.attempt ∧
      l.workerID = j.assignedWorkerId ∧
      ∀ (τ' : String) (l' : Lease), polled.leases[τ']? = some l' → l'.jobID = "a" → τ' = τ := by
  have hstate : (polled.store.jobs.get "a").map Job.state = some .running := by decide +kernel
  obtain ⟨j, hj, hs⟩ := Option.map_eq_some_iff.1 hstate
  have hrun : Runs .steady noCron (SubmitsWhere Vacant .steady) (started .steady noCron .empty leading) polled := by
    refine ((Runs.refl.call ?_ rfl).call ?_ rfl).call ?_ rfl
    · rintro job ⟨⟩
    · rintro job ⟨⟩
      show _ = none
      decide +kernel
    · rintro job ⟨⟩
  exact ⟨j, hj, hs, (lease_discipline steady_sound rfl hrun).1 "a" j hj hs⟩

end Distsched.Lifecycle
