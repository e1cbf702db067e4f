/-
The activities of a node keep to the protocol of `Notes`, from the notes with which each begins: a
submission knows which ID it may place, every other activity begins with none.
-/
import Distsched.Lifecycle.Keeping

namespace Distsched.Lifecycle

open Scheduler Prog

variable {alone : Bool} {g : Notes} {job : Job}

theorem within_univ : Within Set.univ g := fun _ _ => trivial

/-! ## Dispatch, reports and the reaper -/

theorem keeping_requireLeader (cfg : Config) : Keeping alone (requireLeader cfg) g fun _ g' => g' = g :=
  meets_requireLeader cfg (silent_unnoted trivial) (silent_unnoted trivial)

/-- An ID for something other than a job. -/
theorem keeping_newID {kind : String} (hk : kind ≠ "job") (hd : g.drawing = false) :
    Keeping alone (newID kind) g fun _ g' => g' = g := by
  refine ⟨⟨fun h => absurd h hk, fun h => ?_⟩, fun _ _ => if_neg hk⟩
  rw [hd] at h
  cases h

/-- The jobs handed out were written RUNNING last. -/
theorem keeping_pollLoop (cfg : Config) (w : String) (now : Int) (n : Nat) :
    ∀ (fuel : Nat) (out : List TaskAssignment) (g : Notes), g.drawing = false → (∀ a ∈ out, a.jobId ∈ g.ran) →
      Keeping alone (pollLoop cfg w now n fuel out) g fun out' g' => ∀ a ∈ out', a.jobId ∈ g'.ran
  | 0, _, _, _, hout => hout
  | fuel + 1, out, g, hd, hout => by
    unfold pollLoop
    split
    · refine Meets.bind (keeping_unnoted .pop trivial) ?_
      rintro popped g rfl
      cases popped with
      | none => exact hout
      | some x =>
        refine Meets.bind (keeping_getJob x) ?_
        rintro r _ ⟨rfl, hid⟩
        cases r with
        | error e => exact keeping_pollLoop cfg w now n fuel out g hd hout
        | ok job =>
          obtain rfl : job.id = x := hid job rfl
          dsimp only
          split
          · exact keeping_pollLoop cfg w now n fuel out (g.read job) hd hout
          · rename_i hq
            have hq : job.state = .queued := not_not.1 hq
            refine Meets.bind (keeping_newID (g := g.read job) (by decide) hd) ?_
            rintro τ _ rfl
            refine Meets.bind (keeping_putJob (g := g.read job) hd
              (Notes.accounts_revision (Notes.seen_read job) (.dispatch w now hq) ?_)) ?_
            · intro h
              rw [hq] at h
              cases h
            · rintro r _ rfl
              cases r with
              | error e =>
                refine Meets.bind (keeping_unnoted (.push ..) trivial) ?_
                rintro _ _ rfl
                exact hout
              | ok u =>
                refine Meets.bind (keeping_unnoted (.addLease _) trivial) ?_
                rintro _ _ rfl
                refine keeping_pollLoop cfg w now n fuel _ _ hd fun a ha => ?_
                show a.jobId ∈ insert job.id g.ran
                rcases List.mem_append.1 ha with ha | ha
                · exact Set.mem_insert_of_mem _ (hout a ha)
                · rw [List.mem_singleton.1 ha]
                  exact Set.mem_insert _ _
    · exact hout

theorem keeping_pollTask (cfg : Config) (w : String) (n : Int) (hd : g.drawing = false) :
    Keeping alone (pollTask cfg w n) g fun r g' => ∀ out, r = .ok out → ∀ a ∈ out, a.jobId ∈ g'.ran := by
  refine (keeping_requireLeader cfg).bind ?_
  rintro denied g rfl
  cases denied with
  | some e => exact fun _ h => nomatch h
  | none =>
    refine Meets.bind (keeping_unnoted (.getCached w) trivial) ?_
    rintro cached g rfl
    cases cached with
    | none => exact fun _ h => nomatch h
    | some _ =>
      refine Meets.bind (keeping_unnoted .now trivial) ?_
      rintro now g rfl
      refine Meets.bind (keeping_unnoted .queueBound trivial) ?_
      rintro bound g rfl
      refine (keeping_pollLoop cfg w _ _ _ [] g hd fun _ h => nomatch h).bind fun out g' hout => ?_
      rintro _ ⟨⟩
      exact hout

theorem keeping_reportSuccess (ps : Cron) (τ : String) (now : Time) (hj : job ∈ g.seen job.id)
    (hs : job.state = .running) (hd : g.drawing = false) :
    Keeping alone (reportSuccess ps τ job now) g fun _ g' => InHand Set.univ g g' := by
  refine Meets.bind (keeping_unnoted (.removeLease τ) trivial) ?_
  rintro _ g rfl
  refine Meets.bind (keeping_maybeRescheduleCron ps now (S := Set.univ) hj hs rfl rfl hd trivial) ?_
  rintro ⟨rescheduled, job'⟩ g' ⟨htrue, hfalse⟩
  cases rescheduled with
  | true => exact htrue rfl
  | false =>
    obtain ⟨rfl, hp, ha⟩ := hfalse rfl
    have hdone : Revision job (completed job' now.ns) := .succeed hs hp rfl ha
    refine Meets.bind (keeping_putJob hd (Notes.accounts_revision hj hdone ?_)) ?_
    · intro h
      rw [hs] at h
      cases h
    · rintro r _ rfl
      have hput : InHand Set.univ g' (g'.next (.putJob (completed job' now.ns)) r) := Notes.inHand_put (Set.mem_univ _) r
      cases r with
      | error e => exact hput
      | ok u =>
        refine Meets.bind (keeping_unnoted (.removeFromIndex _) trivial) ?_
        rintro _ _ rfl
        exact Meets.bind (keeping_promoteDependents ps _ (hput.drawing.trans hd) within_univ) fun _ _ h => hput.trans h

theorem keeping_reportTask (cfg : Config) (ps : Cron) (τ : String) (result : TaskResult) (error : String)
    (hd : g.drawing = false) :
    Keeping alone (reportTask cfg ps τ result error) g fun _ g' => InHand Set.univ g g' := by
  refine (keeping_requireLeader cfg).bind ?_
  rintro denied g rfl
  cases denied with
  | some e => exact InHand.refl
  | none =>
    refine Meets.bind (keeping_unnoted (.getLease τ) trivial) ?_
    rintro lease g rfl
    cases lease with
    | none => exact InHand.refl
    | some l =>
      have hrelease : ∀ g : Notes, Keeping alone (do removeLease τ; pure (.ok true : Except Status Bool)) g
          fun _ g' => InHand Set.univ g g' :=
        fun g => Meets.bind (keeping_unnoted (.removeLease τ) trivial) fun _ _ h => InHand.of_eq h
      refine (keeping_getJob l.jobID).bind ?_
      rintro r _ ⟨rfl, -⟩
      cases r with
      | error e => exact hrelease g
      | ok job =>
        have hread : InHand Set.univ g (g.read job) := Notes.inHand_read job
        dsimp only
        split
        · exact (hrelease (g.read job)).mono fun _ _ h => hread.trans h
        · rename_i hs
          have hs : job.state = .running := not_not.1 hs
          refine Meets.bind (keeping_unnoted .now trivial) ?_
          rintro now _ rfl
          cases result with
          | unspecified => exact hread
          | succeeded =>
            exact (keeping_reportSuccess ps τ now (Notes.seen_read job) hs hd).mono fun _ _ h => hread.trans h
          | failed =>
            refine Meets.bind (keeping_handleFailure ps error now (Notes.seen_read job) hs hd within_univ trivial)
              fun r g' hg' => ?_
            cases r with
            | error e => exact hread.trans hg'
            | ok u => exact (hrelease g').mono fun _ _ h => (hread.trans hg').trans h

theorem keeping_requeueLease (ps : Cron) (τ reason : String) (hd : g.drawing = false) :
    Keeping alone (requeueLease ps τ reason) g fun _ g' => InHand Set.univ g g' := by
  refine Meets.bind (keeping_unnoted (.getLease τ) trivial) ?_
  rintro lease g rfl
  cases lease with
  | none => exact InHand.refl
  | some l =>
    refine Meets.bind (keeping_unnoted (.removeLease τ) trivial) ?_
    rintro _ g rfl
    refine (keeping_getJob l.jobID).bind ?_
    rintro r _ ⟨rfl, -⟩
    cases r with
    | error e => exact InHand.refl
    | ok job =>
      have hread : InHand Set.univ g (g.read job) := Notes.inHand_read job
      dsimp only
      split
      · exact hread
      · rename_i hs
        refine Meets.bind (keeping_unnoted .now trivial) ?_
        rintro now _ rfl
        exact Meets.bind (keeping_handleFailure ps reason now (Notes.seen_read job) (not_not.1 hs) hd within_univ
          trivial) fun _ _ h => hread.trans h

theorem keeping_requeueAll (ps : Cron) (reason : String) (τs : List String) (hd : g.drawing = false) :
    Keeping alone (τs.forM fun τ => requeueLease ps τ reason) g fun _ g' => InHand Set.univ g g' :=
  meets_forM _ (fun g' => InHand Set.univ g g') τs g (fun τ _ _ h₁ =>
    (keeping_requeueLease ps τ reason (h₁.drawing.trans hd)).mono fun _ _ h => h₁.trans h) .refl

theorem keeping_putWorker (w : WorkerInfo) : Keeping alone (putWorker w) g fun _ g' => g' = g := by
  refine Meets.bind (keeping_unnoted (.putWorker w) trivial) ?_
  rintro r g rfl
  cases r with
  | error e => exact rfl
  | ok u =>
    refine Meets.bind (meets_appendRepl _ (silent_unnoted trivial) (silent_unnoted trivial)) ?_
    rintro _ g rfl
    exact Meets.bind (keeping_unnoted (.cacheWorker w) trivial) fun _ _ h => h

theorem keeping_reapOnce (cfg : Config) (ps : Cron) (hd : g.drawing = false) :
    Keeping alone (reapOnce cfg ps) g fun _ _ => True := by
  refine Meets.bind (keeping_unnoted .now trivial) ?_
  rintro now g rfl
  refine Meets.bind (keeping_unnoted .listCached trivial) ?_
  rintro cached g rfl
  refine Meets.bind (meets_forM _ (fun g' => g' = g) _ g ?_ rfl) ?_
  · rintro p g _ rfl
    exact Meets.bind (keeping_putWorker p.2) fun _ _ h => h
  rintro _ g rfl
  refine Meets.bind (meets_forM _ (fun g' => InHand Set.univ g g') _ g ?_ .refl) fun _ g₁ h₁ => ?_
  · intro w g₁ _ h₁
    refine Meets.bind (keeping_unnoted .listLeases trivial) ?_
    rintro ls g₁ rfl
    exact (keeping_requeueAll ps _ _ (h₁.drawing.trans hd)).mono fun _ _ h => h₁.trans h
  refine Meets.bind (keeping_unnoted .listLeases trivial) ?_
  rintro ls g₁ rfl
  exact (keeping_requeueAll ps _ _ (h₁.drawing.trans hd)).mono fun _ _ _ => trivial

theorem keeping_registerWorker (cfg : Config) (worker : Option WorkerInfo) (hd : g.drawing = false) :
    Keeping alone (registerWorker cfg worker) g fun _ _ => True := by
  refine (keeping_requireLeader cfg).bind ?_
  rintro denied g rfl
  cases denied with
  | some e => exact trivial
  | none =>
    cases worker with
    | none => exact trivial
    | some w =>
      have hid : Keeping alone (workerIDFor w) g fun _ g' => g' = g := by
        unfold workerIDFor
        split
        · exact keeping_newID (by decide) hd
        · exact rfl
      refine Meets.bind hid fun _ _ _ => Meets.bind (keeping_unnoted .now trivial) fun _ _ _ => ?_
      refine Meets.bind (keeping_putWorker _) fun r _ _ => ?_
      cases r <;> exact trivial

theorem keeping_heartbeat (cfg : Config) (w : String) (n : Nat) :
    Keeping alone (heartbeat cfg w n) g fun _ _ => True := by
  refine (keeping_requireLeader cfg).bind fun denied _ _ => ?_
  cases denied with
  | some e => exact trivial
  | none =>
    refine Meets.bind (keeping_unnoted (.getCached w) trivial) fun cached _ _ => ?_
    cases cached with
    | none => exact trivial
    | some cur =>
      refine Meets.bind (keeping_unnoted .now trivial) fun _ _ _ => Meets.bind (keeping_putWorker _) fun r _ _ => ?_
      cases r <;> exact trivial

/-! ## Submission and cancellation -/

/-- The notes with which a submission begins. -/
def submission : Option Job → Notes
  | some job => if job.id = "" then { drawing := true } else { placing := some job.id }
  | none => {}

theorem keeping_acceptJob (ps : Cron) (job : Job) (hd : g.drawing = false) (hp : g.placing = some job.id) :
    Keeping alone (acceptJob ps job) g fun _ _ => True := by
  have hcycle : Keeping alone (formsCycle job) g fun _ g' => g'.drawing = false ∧ g'.placing = some job.id := by
    unfold formsCycle
    split
    · refine Meets.bind (Q := fun _ g' => g'.drawing = false ∧ g'.placing = some job.id) ?_ fun r _ h => ?_
      · refine ⟨trivial, fun r _ => ?_⟩
        cases r <;> exact ⟨hd, hp⟩
      · cases r <;> exact h
    · exact ⟨hd, hp⟩
  refine hcycle.bind ?_
  rintro cyclic g₁ ⟨hd₁, hp₁⟩
  cases cyclic with
  | true => exact trivial
  | false =>
    refine Meets.bind (keeping_unnoted .now trivial) ?_
    rintro now g₁ rfl
    exact Meets.bind (keeping_placeNewJob ps _ hd₁ hp₁ rfl) fun _ _ _ => trivial

theorem keeping_submitJob (cfg : Config) (ps : Cron) (req : Option Job) :
    Keeping alone (submitJob cfg ps req) (submission req) fun _ _ => True := by
  refine (keeping_requireLeader cfg).bind ?_
  rintro denied _ rfl
  cases denied with
  | some e => exact trivial
  | none =>
    cases req with
    | none => exact trivial
    | some job =>
      -- whether or not the ID is drawn, the notes then allow it to be placed
      have hid : Keeping alone (assignID job >>= acceptJob ps) (submission (some job)) fun _ _ => True := by
        unfold assignID submission
        by_cases he : job.id = ""
        · simp only [if_pos he]
          rw [bind_assoc]
          refine Meets.bind (Q := fun id g' => g'.drawing = false ∧ g'.placing = some id) ?_ ?_
          · exact ⟨⟨fun _ => rfl, fun _ => rfl⟩, fun _ _ => ⟨rfl, rfl⟩⟩
          · rintro id g ⟨hd, hp⟩
            exact keeping_acceptJob ps { job with id := id } hd hp
        · simp only [if_neg he]
          exact keeping_acceptJob ps job rfl rfl
      dsimp only
      split
      · exact trivial
      · split
        · exact hid
        · refine Meets.bind (keeping_unnoted .now trivial) ?_
          rintro now _ rfl
          split
          · exact trivial
          · exact hid

theorem keeping_loadJob (x : String) : Keeping alone (loadJob x) g fun r g' =>
    g'.drawing = g.drawing ∧ ∀ j, r = .ok j → j.id = x ∧ j ∈ g'.seen x ∧ (terminal j.state = true → j.state ∈ g'.ended x) := by
  unfold loadJob
  split
  · exact ⟨rfl, fun _ h => nomatch h⟩
  · refine Meets.bind (keeping_getJob x) ?_
    rintro r _ ⟨rfl, hid⟩
    cases r with
    | error e => cases e <;> exact ⟨rfl, fun _ h => nomatch h⟩
    | ok job =>
      obtain rfl : job.id = x := hid job rfl
      refine ⟨rfl, ?_⟩
      rintro _ ⟨⟩
      exact ⟨rfl, Notes.seen_read job, fun h => Notes.mem_endedBy h⟩

/-- A cancellation that reports success has read or written the job CANCELED. -/
theorem keeping_cancelJob (cfg : Config) (x : String) (hd : g.drawing = false) :
    Keeping alone (cancelJob cfg x) g fun r g' => ∀ j, r = .ok j → .canceled ∈ g'.ended x := by
  refine (keeping_requireLeader cfg).bind ?_
  rintro denied g rfl
  cases denied with
  | some e => exact fun _ h => nomatch h
  | none =>
    refine (keeping_loadJob x).bind ?_
    rintro r g₁ ⟨hd₁, hr⟩
    cases r with
    | error e => exact fun _ h => nomatch h
    | ok job =>
      obtain ⟨rfl, hseen, hended⟩ := hr job rfl
      dsimp only
      split
      · rename_i hs
        rw [hs] at hended
        exact fun _ _ => hended rfl
      · split
        · exact fun _ h => nomatch h
        · rename_i hc ht
          have hterm : terminal job.state = false := by
            cases hs : job.state <;> simp_all [terminal]
          refine Meets.bind (keeping_unnoted .now trivial) ?_
          rintro now g₁ rfl
          have hcancel : Revision job { job with state := .canceled, updatedAt := some now.ns } :=
            .cancel hterm rfl rfl rfl
          refine Meets.bind (keeping_putJob (hd₁.trans hd) (Notes.accounts_revision hseen hcancel ?_)) ?_
          · intro _ h
            cases h
          · rintro r _ rfl
            cases r with
            | error e => exact fun _ h => nomatch h
            | ok u =>
              refine Meets.bind (keeping_unnoted (.remove _) trivial) ?_
              rintro _ _ rfl
              refine Meets.bind (keeping_cancelCascade _ (hd₁.trans hd) within_univ trivial) fun _ g₂ h₂ _ _ => ?_
              exact h₂.ended _ (.inr ⟨rfl, rfl, rfl⟩)

/-! ## Rebuilding and starting -/

/-- In the first pass of a rebuild: only the jobs done are indexed, and the records of the others are in
hand as listed. -/
structure Listing (js done : List Job) (g : Notes) : Prop where
  drawing : g.drawing = false
  indexed : ∃ T, g.indexed = some T ∧ ∀ x ∈ T, x ∈ done.map Job.id
  seen : ∀ j ∈ js, j.id ∉ done.map Job.id → j ∈ g.seen j.id

theorem Listing.within {js done : List Job} (h : Listing js done g) : Within { x | x ∈ done.map Job.id } g := by
  intro x hx
  obtain ⟨T, hT, hsub⟩ := h.indexed
  exact hsub x (hx T hT)

theorem Listing.holds {js done : List Job} {g' : Notes} (h : Listing js done g)
    (hg : InHand { x | x ∈ done.map Job.id } g g') : Listing js done g' where
  drawing := hg.drawing.trans h.drawing
  indexed := by
    rw [hg.indexed]
    exact h.indexed
  seen j hj hnot := hg.seen j.id hnot (h.seen j hj hnot)

theorem Listing.snoc {js done : List Job} (h : Listing js done g) (j : Job) : Listing js (done ++ [j]) g where
  drawing := h.drawing
  indexed := by
    obtain ⟨T, hT, hsub⟩ := h.indexed
    refine ⟨T, hT, fun x hx => ?_⟩
    rw [List.map_append]
    exact List.mem_append_left _ (hsub x hx)
  seen i hi hnot := by
    rw [List.map_append] at hnot
    exact h.seen i hi fun hin => hnot (List.mem_append_left _ hin)

theorem keeping_reindex {js done : List Job} (j : Job) (h : Listing js done g) :
    Keeping alone (reindex j) g fun _ g' => Listing js (done ++ [j]) g' ∧ g'.seen = g.seen := by
  unfold reindex
  split
  · exact ⟨h.snoc j, rfl⟩
  · refine ⟨trivial, fun _ _ => ⟨⟨h.drawing, ?_, (h.snoc j).seen⟩, rfl⟩⟩
    obtain ⟨T, hT, hsub⟩ := (h.snoc j).indexed
    refine ⟨insert j.id T, ?_, ?_⟩
    · show g.indexed.map (insert j.id) = _
      rw [hT]
      rfl
    · rintro x (rfl | hx)
      · simp
      · exact hsub x hx

theorem keeping_rebuildJob (ps : Cron) (now : Time) {js done : List Job} {j : Job} (hj : j ∈ js)
    (hnew : j.id ∉ done.map Job.id) (h : Listing js done g) :
    Keeping alone (rebuildJob ps now j) g fun _ g' => Listing js (done ++ [j]) g' := by
  refine (keeping_reindex j h).bind ?_
  rintro _ g₁ ⟨h₁, hseen⟩
  cases hs : j.state
  case queued =>
    dsimp only
    split
    · exact Meets.bind (keeping_unnoted (.push ..) trivial) fun _ _ hg => hg ▸ h₁
    · exact (keeping_armEnqueue _ _).mono fun _ _ hg => h₁.holds hg
  case running =>
    have hin : j ∈ g₁.seen j.id := by
      rw [hseen]
      exact h.seen j hj hnew
    refine Meets.bind (keeping_handleFailure ps _ now hin hs h₁.drawing h₁.within ?_) fun _ _ hg => h₁.holds hg
    show j.id ∈ (done ++ [j]).map Job.id
    simp
  all_goals exact h₁

theorem keeping_rebuildSchedulingState (ps : Cron) (hd : g.drawing = false) :
    Keeping true (rebuildSchedulingState ps) g fun _ _ => True := by
  have hclear : Keeping true clearSchedulingState g fun _ g' => g'.drawing = false ∧ g'.indexed = some ∅ := by
    refine Meets.bind (keeping_unnoted .clearQueue trivial) ?_
    rintro _ g rfl
    refine Meets.bind (keeping_unnoted .clearDispatch trivial) ?_
    rintro _ g rfl
    exact ⟨rfl, fun _ _ => ⟨hd, rfl⟩⟩
  refine hclear.bind ?_
  rintro _ g₁ ⟨hd₁, hi₁⟩
  have hlist : Keeping true Db.listJobs g₁ fun r g' => ∀ js, r = .ok js → (js.map Job.id).Nodup ∧ Listing js [] g' := by
    refine ⟨trivial, fun r hr => ?_⟩
    rintro js rfl
    exact ⟨hr, hd₁, ⟨∅, hi₁, fun _ h => h.elim⟩, fun j hj _ => .inr ⟨hj, rfl⟩⟩
  refine hlist.bind fun r g₂ h₂ => ?_
  cases r with
  | error e => exact trivial
  | ok js =>
    obtain ⟨hnodup, h₂⟩ := h₂ js rfl
    refine Meets.bind (keeping_unnoted .now trivial) ?_
    rintro now g₂ rfl
    refine Meets.bind (Meets.forM (fun done g => Listing js done g) ?_ h₂) fun _ g₃ h₃ => ?_
    · intro done j rest g hjs hg
      have hj : j ∈ js := by rw [hjs]; simp
      refine keeping_rebuildJob ps now hj (fun hin => ?_) hg
      rw [hjs, List.map_append, List.map_cons] at hnodup
      exact List.disjoint_of_nodup_append hnodup hin (List.mem_cons_self ..)
    · refine (meets_forM _ (fun g => g.drawing = false) _ g₃ (fun j g _ hg => ?_) h₃.drawing).mono fun _ _ _ => trivial
      exact (keeping_tryPromote ps hg within_univ trivial).mono fun _ _ h => h.drawing.trans hg

theorem keeping_seedReplication : Keeping alone seedReplication g fun _ _ => True :=
  Meets.bind (Q := fun _ _ => True) ⟨trivial, fun _ _ => trivial⟩ fun _ _ _ =>
    Meets.bind (keeping_unnoted .listWorkers trivial) fun _ _ _ =>
      (keeping_unnoted (.installLog ..) trivial).mono fun _ _ _ => trivial

theorem keeping_onBecomeLeader (ps : Cron) (hd : g.drawing = false) :
    Keeping true (onBecomeLeader ps) g fun _ _ => True :=
  (keeping_rebuildSchedulingState ps hd).bind fun _ _ _ => keeping_seedReplication

theorem keeping_boot (ps : Cron) (node : Cluster.Node) (hd : g.drawing = false) :
    Keeping true (boot ps node) g fun _ _ => True := by
  have hrecover : Keeping true recover g fun _ g' => g' = g := by
    refine Meets.bind (keeping_unnoted .listWorkers trivial) ?_
    rintro r g rfl
    cases r with
    | error e => exact rfl
    | ok ws =>
      refine Meets.bind (meets_forM _ (fun g' => g' = g) ws g ?_ rfl) fun _ _ h => h
      rintro w g _ rfl
      exact keeping_unnoted (.cacheWorker w) trivial
  refine hrecover.bind ?_
  rintro r g rfl
  cases r with
  | error e => exact trivial
  | ok u =>
    refine Meets.bind (keeping_unnoted (.gainLead node) trivial) ?_
    rintro _ g rfl
    exact keeping_onBecomeLeader ps hd

/-! ## Activities -/

/-- The notes with which an activity begins. -/
def firstNotes : Call → Notes
  | .submitJob req => submission req
  | _ => {}

theorem keeping_call (cfg : Config) (ps : Cron) (c : Call) :
    Keeping true (c.prog cfg ps) (firstNotes c) fun _ _ => True := by
  cases c with
  | submitJob req => exact Meets.bind (keeping_submitJob cfg ps req) fun _ _ _ => trivial
  | cancelJob x => exact Meets.bind (keeping_cancelJob cfg x rfl) fun _ _ _ => trivial
  | pollTask w n => exact Meets.bind (keeping_pollTask cfg w n rfl) fun _ _ _ => trivial
  | reportTask τ result error => exact Meets.bind (keeping_reportTask cfg ps τ result error rfl) fun _ _ _ => trivial
  | registerWorker w => exact Meets.bind (keeping_registerWorker cfg w rfl) fun _ _ _ => trivial
  | heartbeat w n => exact Meets.bind (keeping_heartbeat cfg w n) fun _ _ _ => trivial
  | timer x =>
    exact Meets.bind (keeping_unnoted (.deleteTimer x) trivial) fun _ _ _ =>
      (keeping_enqueueJob (S := ∅) x).mono fun _ _ _ => trivial
  | reaper =>
    refine Meets.bind (keeping_unnoted .isLeader trivial) ?_
    rintro leads _ rfl
    cases leads with
    | true => exact keeping_reapOnce cfg ps rfl
    | false => exact trivial
  | becomeLeader => exact keeping_onBecomeLeader ps rfl

end Distsched.Lifecycle
