/-
Three rules that every handler keeps, whatever the store answers. A job is pushed onto the ready queue with the priority
and the creation time of a record that was read. A record is stored FAILED only after the job was dead-lettered. And a
job whose cron expression parses is stored SUCCEEDED or FAILED only if the write that was to re-arm it has just failed.

`conduct` states the rules as a protocol. Most of the handlers' code does none of the three things, and for it there is
nothing to prove but that the rules compose; the places where a rule is at stake are the pushes, the end of an attempt
and the rebuild.
-/
import Distsched.Scheduler.Routine

namespace Distsched.Scheduler

open Prog

/-! ## The protocol -/

/-- What a handler has read and written. -/
structure Trail where
  /-- The records read. -/
  seen : Set Job := ∅
  /-- The jobs dead-lettered. -/
  buried : Set String := ∅
  /-- The job whose QUEUED record could not be stored, until the handler does anything else than dead-letter. -/
  lost : Option String := none

namespace Trail

def next (g : Trail) : (op : Op) → op.Resp → Trail
  | .getJob _, .ok j => { g with seen := insert j g.seen, lost := none }
  | .listJobs, .ok js => { g with seen := g.seen ∪ { j | j ∈ js }, lost := none }
  | .putJob j, .error _ => { g with lost := if j.state = .queued then some j.id else none }
  | .putDeadLetter j, .ok _ => { g with buried := insert j.id g.buried }
  | _, _ => { g with lost := none }

/-- What was read and dead-lettered stays so. -/
structure Le (g g' : Trail) : Prop where
  seen : g.seen ⊆ g'.seen
  buried : g.buried ⊆ g'.buried

theorem Le.refl (g : Trail) : Le g g := ⟨subset_rfl, subset_rfl⟩

theorem Le.trans {g g' g'' : Trail} (h : Le g g') (h' : Le g' g'') : Le g g'' :=
  ⟨h.seen.trans h'.seen, h.buried.trans h'.buried⟩

theorem le_next (g : Trail) (op : Op) (r : op.Resp) : Le g (g.next op r) := by
  cases op with
  | getJob id =>
    cases r with
    | error e => exact ⟨subset_rfl, subset_rfl⟩
    | ok j => exact ⟨Set.subset_insert _ _, subset_rfl⟩
  | listJobs =>
    cases r with
    | error e => exact ⟨subset_rfl, subset_rfl⟩
    | ok js => exact ⟨Set.subset_union_left, subset_rfl⟩
  | putDeadLetter j =>
    cases r with
    | error e => exact ⟨subset_rfl, subset_rfl⟩
    | ok u => exact ⟨subset_rfl, Set.subset_insert _ _⟩
  | putJob j => cases r <;> exact ⟨subset_rfl, subset_rfl⟩
  | _ => exact ⟨subset_rfl, subset_rfl⟩

end Trail

/-- The job has a cron expression that parses. -/
def Recurs (ps : Cron) (j : Job) : Prop := j.cronExpr ≠ "" ∧ ∃ next, ps j.cronExpr = .ok next

/-- The states in which a job ends by its own attempts. -/
def Concluded (st : JobState) : Prop := st = .succeeded ∨ st = .failed

instance (st : JobState) : Decidable (Concluded st) := inferInstanceAs (Decidable (_ ∨ _))

def conduct (ps : Cron) : Protocol Op Op.Resp Trail where
  permits op g := match op with
    | .push x p c => ∃ j ∈ g.seen, j.id = x ∧ j.priority = p ∧ asTime j.createdAt = c
    | .putJob j => (j.state = .failed → j.id ∈ g.buried) ∧ (Concluded j.state → Recurs ps j → g.lost = some j.id)
    | _ => True
  answers op r _ := match op, r with
    | .getJob id, .ok j => j.id = id
    | _, _ => True
  next op r g := g.next op r

variable {ps : Cron} {g : Trail}

/-- The store gives a record under its own ID. -/
theorem conduct_answers {env : Env} (op : Op) (s : Server) : (conduct ps).answers op (handle env op s).1 g := by
  cases op with
  | getJob id =>
    simp only [handle]
    split
    · trivial
    · split
      · trivial
      · rename_i hj
        exact Bucket.get_id hj
  | _ => trivial

/-- The program keeps the rules, wherever it begins. -/
def Clean {α : Type} (ps : Cron) (p : M α) : Prop := ∀ g, Meets (conduct ps) p g fun _ g' => g.Le g'

/-- The operations no rule is about. -/
def Free : Op → Prop
  | .push .. | .putJob _ => False
  | _ => True

theorem permits_free {op : Op} (h : Free op) : (conduct ps).permits op g := by
  cases op <;> first | exact h.elim | trivial

/-! ## Composition -/

section

variable {α β : Type}

theorem clean_pure (a : α) : Clean ps (pure a : M α) := fun g => .refl g

theorem clean_act (op : Op) (h : Free op) : Clean ps (act op) := fun g => ⟨permits_free h, fun r _ => g.le_next op r⟩

theorem Clean.bind {p : M α} {f : α → M β} (hp : Clean ps p) (hf : ∀ a, Clean ps (f a)) : Clean ps (p >>= f) :=
  fun g => (hp g).bind fun a g' hg => (hf a g').mono fun _ _ hg' => hg.trans hg'

/-- Begun with what is known already, the program keeps the rules; the records known stay known. -/
theorem Clean.after {p : M α} {f : α → M β} {Q : α → Trail → Prop} (hp : Meets (conduct ps) p g fun a g' => g.Le g' ∧ Q a g')
    (hf : ∀ a g', Q a g' → Meets (conduct ps) (f a) g' fun _ g'' => g'.Le g'') :
    Meets (conduct ps) (p >>= f) g fun _ g' => g.Le g' :=
  hp.bind fun a g' hg => (hf a g' hg.2).mono fun _ _ hg' => hg.1.trans hg'

end

/-! ## Reading, writing and queueing -/

theorem conduct_getJob (id : String) : Meets (conduct ps) (Db.getJob id) g fun r g' =>
    g.Le g' ∧ ∀ j, r = .ok j → j.id = id ∧ j ∈ g'.seen := by
  refine ⟨trivial, fun r hr => ⟨g.le_next _ r, ?_⟩⟩
  rintro j rfl
  exact ⟨hr, Set.mem_insert ..⟩

theorem routine_clean : Routine (fun _ p => Clean ps p) (fun _ => True) fun _ => True where
  pure := clean_pure
  bind := Clean.bind
  act op h := clean_act op (by cases op <;> first | exact h.elim | trivial)
  getJob x f he hj g := by
    refine Clean.after (conduct_getJob x) fun r g' hread => ?_
    cases r with
    | error e => exact he e g'
    | ok j => exact hj j (hread j rfl).1 trivial g'
  now hf := (clean_act .now trivial).bind fun t => hf t trivial
  utc _ _ := trivial

/-- A write the rules allow. If it fails, it is the last thing the handler has done. -/
theorem conduct_putJob {j : Job} (hj : (conduct ps).permits (.putJob j) g) :
    Meets (conduct ps) (putJob j) g fun r g' => g.Le g' ∧ ∀ e, r = .error e → g' = g.next (.putJob j) (.error e) := by
  have hput : Meets (conduct ps) (Db.putJob j) g fun r g' => g' = g.next (.putJob j) r := ⟨hj, fun _ _ => rfl⟩
  refine hput.bind ?_
  rintro r _ rfl
  cases r with
  | error e =>
    refine ⟨g.le_next _ _, ?_⟩
    rintro _ ⟨⟩
    rfl
  | ok u =>
    refine (routine_clean.appendRepl _ _).bind fun _ g' hg' => ⟨(g.le_next (.putJob j) (.ok u)).trans hg', ?_⟩
    rintro e ⟨⟩

/-- Any record in a state that does not conclude the job. -/
theorem permits_putJob (st : JobState) {j : Job} (hs : j.state = st) (h : ¬ Concluded st) :
    (conduct ps).permits (.putJob j) g := by
  subst hs
  exact ⟨fun hf => absurd (.inr hf) h, fun hc => absurd hc h⟩

theorem clean_putJob (st : JobState) {j : Job} (hs : j.state = st) (h : ¬ Concluded st) : Clean ps (putJob j) :=
  fun _ => (conduct_putJob (permits_putJob st hs h)).mono fun _ _ h => h.1

theorem conduct_push {j : Job} (hj : j ∈ g.seen) :
    Meets (conduct ps) (Queue.push j.id j.priority (asTime j.createdAt)) g fun _ g' => g.Le g' :=
  ⟨⟨j, hj, rfl, rfl, rfl⟩, fun r _ => g.le_next _ r⟩

theorem clean_enqueueJob (x : String) : Clean ps (enqueueJob x) := by
  refine (clean_act .isClosed trivial).bind fun closed => ?_
  cases closed with
  | true => exact clean_pure _
  | false =>
    refine (clean_act .isLeader trivial).bind fun leads => ?_
    cases leads with
    | false => exact clean_pure _
    | true =>
      intro g
      refine Clean.after (conduct_getJob x) fun r g' hseen => ?_
      cases r with
      | error e => exact .refl _
      | ok job =>
        obtain ⟨-, hseen⟩ := hseen job rfl
        dsimp only
        split
        · exact .refl _
        · exact (conduct_push hseen).bind fun _ _ hg => hg

theorem clean_armEnqueue (x : String) (delay : Int) : Clean ps (armEnqueue x delay) := by
  unfold armEnqueue
  split
  · exact clean_enqueueJob x
  · exact clean_act _ trivial

/-! ## Placement and promotion -/

theorem clean_fireTime (job : Job) (now : Time) : Clean ps (fireTime ps job now) := by
  have htime : ∀ f : Time → Job × Int, Clean ps (do let t ← timeNow; pure (f t)) :=
    fun f => (clean_act .now trivial).bind fun _ => clean_pure _
  unfold fireTime
  split
  · exact clean_pure _
  · split
    · split
      · exact clean_pure _
      · exact htime _
    · split
      · exact clean_pure _
      · split
        · exact htime _
        · exact clean_pure _

theorem clean_makeReady (job : Job) (now : Time) : Clean ps (makeReady ps job now) := by
  refine (clean_fireTime job now).bind fun p => (clean_putJob .queued rfl (by decide)).bind fun r => ?_
  cases r with
  | error e => exact clean_pure _
  | ok u => exact clean_armEnqueue _ _

theorem placing_clean : Placing ps (fun _ p => Clean ps p) (fun _ => True) fun _ => True where
  toRoutine := routine_clean
  canceled _ hs := clean_putJob .canceled hs (by decide)
  pending _ hs _ := clean_putJob .pending hs (by decide)
  makeReady job now _ _ := clean_makeReady job now

/-! ## The end of an attempt -/

/-- A job that recurs is re-armed, or has just failed to be; the record returned is still one of it. -/
theorem conduct_maybeRescheduleCron (job : Job) (now : Time) :
    Meets (conduct ps) (maybeRescheduleCron ps job now) g fun r g' => g.Le g' ∧
      (r.1 = false → ∀ j : Job, j.id = r.2.id → j.cronExpr = r.2.cronExpr → Recurs ps j → g'.lost = some j.id) := by
  unfold maybeRescheduleCron
  split
  · rename_i hc
    refine ⟨.refl g, fun _ j _ hj hrec => ?_⟩
    exact absurd (hj.trans hc) hrec.1
  · split
    · rename_i e he
      refine ⟨.refl g, fun _ j _ hj hrec => ?_⟩
      obtain ⟨next, hnext⟩ := hrec.2
      rw [hj] at hnext
      simp only [nextCron, hnext, reduceCtorEq] at he
    · refine (conduct_putJob (permits_putJob .queued rfl (by decide))).bind fun r g' hg' => ?_
      cases r with
      | error e =>
        obtain rfl := hg'.2 e rfl
        refine ⟨hg'.1, fun _ j hid _ _ => ?_⟩
        rw [hid]
        rfl
      | ok u =>
        refine (clean_act .now trivial g').bind fun t g₁ hg₁ => ?_
        refine (clean_armEnqueue _ _ g₁).bind fun _ g₂ hg₂ => ?_
        exact ⟨hg'.1.trans (hg₁.trans hg₂), nofun⟩

theorem clean_handleFailure (job : Job) (errMsg : String) (now : Time) : Clean ps (handleFailure ps job errMsg now) := by
  unfold handleFailure
  dsimp only
  split
  · refine (clean_act .float64 trivial).bind fun _ => (clean_putJob .queued rfl (by decide)).bind fun r => ?_
    cases r with
    | error e => exact clean_pure _
    | ok u => exact (clean_armEnqueue _ _).bind fun _ => clean_pure _
  · intro g
    refine (conduct_maybeRescheduleCron _ now).bind fun r g₁ ⟨hg₁, hlost⟩ => ?_
    obtain ⟨rescheduled, job'⟩ := r
    cases rescheduled with
    | true => exact hg₁
    | false =>
      -- the dead letter comes first, and leaves the re-arming the last write of the job
      have hbury : Meets (conduct ps) (Db.putDeadLetter { job' with state := .failed, finishedAt := some now.ns }) g₁
          fun r g' => g₁.Le g' ∧ (r = .ok () → job'.id ∈ g'.buried ∧ g'.lost = g₁.lost) := by
        refine ⟨trivial, fun r _ => ⟨g₁.le_next _ r, ?_⟩⟩
        rintro rfl
        exact ⟨Set.mem_insert .., rfl⟩
      refine hbury.bind fun r g₂ ⟨hg₂, hb⟩ => ?_
      cases r with
      | error e => exact hg₁.trans hg₂
      | ok u =>
        obtain ⟨hburied, hkept⟩ := hb rfl
        have hperm : (conduct ps).permits (.putJob { job' with state := .failed, finishedAt := some now.ns }) g₂ := by
          refine ⟨fun _ => hburied, fun _ hrec => ?_⟩
          rw [hkept]
          exact hlost rfl _ rfl rfl hrec
        refine (conduct_putJob hperm).bind fun r g₃ hg₃ => ?_
        have hle : g.Le g₃ := hg₁.trans (hg₂.trans hg₃.1)
        cases r with
        | error e => exact hle
        | ok u =>
          have hrest : Clean ps (do
              removeFromIndex job'.id
              cancelCascade job'.id (upstreamFailed job'.id)
              pure (Except.ok () : Except Status Unit)) :=
            (clean_act (.removeFromIndex _) trivial).bind fun _ =>
              (placing_clean.cancelCascade placing_clean.canceled _ _).bind fun _ => clean_pure _
          exact (hrest g₃).mono fun _ _ h => hle.trans h

theorem clean_reportSuccess (τ : String) (job : Job) (now : Time) : Clean ps (reportSuccess ps τ job now) := by
  refine (clean_act (.removeLease τ) trivial).bind fun _ g => ?_
  refine (conduct_maybeRescheduleCron job now).bind fun r g₁ ⟨hg₁, hlost⟩ => ?_
  obtain ⟨rescheduled, job'⟩ := r
  cases rescheduled with
  | true => exact hg₁
  | false =>
    have hperm : (conduct ps).permits (.putJob (completed job' now.ns)) g₁ :=
      ⟨fun h => (nomatch h), fun _ hrec => hlost rfl _ rfl rfl hrec⟩
    refine (conduct_putJob hperm).bind fun r g₂ hg₂ => ?_
    have hle : g.Le g₂ := hg₁.trans hg₂.1
    cases r with
    | error e => exact hle
    | ok u =>
      have hrest : Clean ps (do
          removeFromIndex job'.id
          promoteDependents ps job'.id
          pure (Except.ok true : Except Status Bool)) :=
        (clean_act (.removeFromIndex _) trivial).bind fun _ => (placing_clean.promoteDependents _).bind fun _ => clean_pure _
      exact (hrest g₂).mono fun _ _ h => hle.trans h

theorem ending_clean : Ending ps (fun _ p => Clean ps p) (fun _ => True) fun _ => True where
  toPlacing := placing_clean
  handleFailure job msg now _ _ _ := clean_handleFailure job msg now
  reportSuccess τ job now _ _ _ := clean_reportSuccess τ job now

/-! ## Polls and recovery -/

theorem clean_pollLoop (cfg : Config) (w : String) (now : Int) (n : Nat) : ∀ (fuel : Nat) (out : List TaskAssignment),
    Clean ps (pollLoop cfg w now n fuel out)
  | 0, _ => clean_pure _
  | fuel + 1, out => by
    unfold pollLoop
    split
    · refine (clean_act .pop trivial).bind fun popped => ?_
      cases popped with
      | none => exact clean_pure _
      | some x =>
        intro g
        refine Clean.after (conduct_getJob x) fun r g' hseen => ?_
        cases r with
        | error e => exact clean_pollLoop cfg w now n fuel out g'
        | ok job =>
          obtain ⟨rfl, hmem⟩ := hseen job rfl
          dsimp only
          split
          · exact clean_pollLoop cfg w now n fuel out g'
          · refine (clean_act (.newID "task") trivial g').bind fun τ g₁ hg₁ => ?_
            refine (clean_putJob .running rfl (by decide) g₁).bind fun r g₂ hg₂ => ?_
            have hle : g'.Le g₂ := hg₁.trans hg₂
            cases r with
            | error e => exact (conduct_push (hle.seen hmem)).bind fun _ _ hg => hle.trans hg
            | ok u =>
              refine (((clean_act (.addLease _) trivial).bind fun _ => clean_pollLoop cfg w now n fuel _) g₂).mono ?_
              exact fun _ _ h => hle.trans h
    · exact clean_pure _

theorem clean_pollTask (cfg : Config) (w : String) (n : Int) : Clean ps (pollTask cfg w n) := by
  refine routine_clean.leading (fun _ => clean_pure _) ((clean_act (.getCached w) trivial).bind fun known => ?_)
  cases known with
  | none => exact clean_pure _
  | some _ =>
    refine (clean_act .now trivial).bind fun _ => (clean_act .queueBound trivial).bind fun _ => ?_
    exact (clean_pollLoop cfg w _ _ _ _).bind fun _ => clean_pure _

/-- A rebuild queues a job under the record that was listed. -/
theorem conduct_rebuildJob (now : Time) {j : Job} (hj : j ∈ g.seen) :
    Meets (conduct ps) (rebuildJob ps now j) g fun _ g' => g.Le g' := by
  have hindex : Clean ps (reindex j) := by
    unfold reindex
    split
    · exact clean_pure _
    · exact clean_act (.addDeps j) trivial
  refine (hindex g).bind fun _ g₁ hg₁ => ?_
  cases j.state with
  | queued =>
    dsimp only
    split
    · exact (conduct_push (hg₁.seen hj)).bind fun _ _ hg => hg₁.trans hg
    · exact (clean_armEnqueue _ _ g₁).mono fun _ _ hg => hg₁.trans hg
  | running => exact ((clean_handleFailure j _ now).bind fun _ => clean_pure _) g₁ |>.mono fun _ _ hg => hg₁.trans hg
  | _ => exact hg₁

theorem clean_rebuildSchedulingState : Clean ps (rebuildSchedulingState ps) := by
  have hlist : ∀ g, Meets (conduct ps) Db.listJobs g fun r g' => g.Le g' ∧ ∀ js, r = .ok js → ∀ j ∈ js, j ∈ g'.seen := by
    refine fun g => ⟨trivial, fun r _ => ⟨g.le_next _ r, ?_⟩⟩
    rintro js rfl j hj
    exact .inr hj
  refine routine_clean.clearSchedulingState.bind fun _ g => Clean.after (hlist g) fun r g₁ hseen => ?_
  cases r with
  | error e => exact .refl _
  | ok js =>
    refine (clean_act .now trivial g₁).bind fun now g₂ hg₂ => ?_
    refine (meets_forM _ g₂.Le js g₂ (fun j g' hj hg => ?_) (.refl g₂)).bind fun _ g₃ hg₃ => ?_
    · have hmem : j ∈ g'.seen := hg.seen (hg₂.seen (hseen js rfl j hj))
      exact (conduct_rebuildJob now hmem).mono fun _ _ h => hg.trans h
    · have hpromote : Clean ps ((js.filter fun j => j.state = .pending).forM fun j => tryPromote ps j.id) :=
        routine_clean.forM fun j _ => placing_clean.tryPromote j.id
      exact (hpromote g₃).mono fun _ _ h => hg₂.trans (hg₃.trans h)

theorem clean_boot (node : Cluster.Node) : Clean ps (boot ps node) :=
  routine_clean.boot clean_rebuildSchedulingState node

/-- Every activity of a node keeps the rules. -/
theorem clean_call (cfg : Config) (c : Call) : Clean ps (c.prog cfg ps) := by
  refine ending_clean.call c (fun w n _ => clean_pollTask cfg w n) (fun x _ => ?_) fun _ => clean_rebuildSchedulingState
  exact (clean_act (.deleteTimer x) trivial).bind fun _ => clean_enqueueJob x

end Distsched.Scheduler
