/-
What a successful `SubmitJob` says about the store. The handler writes the job once, and its answer does not depend on
whether the write succeeded: `placeNewJob` and `makeReady` log a failure and return nothing. So after a success the job is
stored if the write succeeded, and otherwise only if such a record was there before. A job that is parked as PENDING enters
the dependency index either way. It is parked where a dependency was read that has neither SUCCEEDED nor failed.
-/
import Distsched.Scheduler.Run
import Distsched.Scheduler.Silent
import Distsched.Scheduler.Placement

namespace Distsched.Scheduler

open Prog

variable {env : Env} {job j : Job} {s : Server}

/-- The record of a submission under an ID: what the client gave, in one of the states in which a new job is put. -/
structure NewRecord (id : String) (job j : Job) : Prop where
  id : j.id = id
  name : j.name = job.name
  priority : j.priority = job.priority
  spec : j.spec = job.spec
  dependsOn : j.dependsOn = job.dependsOn
  schedule : j.schedule = job.schedule
  retryPolicy : j.retryPolicy = job.retryPolicy
  attempt : j.attempt = 0
  state : j.state = .pending ∨ j.state = .queued ∨ j.state = .canceled

/-- The store holds the job under the ID, with the spec submitted. -/
def HoldsSpec (s : Server) (id : String) (job : Job) : Prop := ∃ j, s.store.jobs.get id = some j ∧ j.spec = job.spec ∧
  (j.state = .pending ∨ j.state = .queued ∨ j.state = .canceled)

/-! ## Calls that fail, and dependencies that are not settled -/

/-- The write of a job fails. -/
def WriteFails (env : Env) (e : Op × Server) : Prop := ∃ j, e.1 = .putJob j ∧ env.fails e.2.tick ≠ none

/-- The dependency has neither SUCCEEDED nor failed, as far as `placeNewJob` can tell: the name of the dependency that
failed is also how it is told that one has. -/
def Unsettled (st : Store) (d : String) : Prop := ¬ DepMet st d ∧ (DepFailed st d → d = "")

/-- A dependency is read that cannot be, or is not settled. -/
def ReadsUnsettled (env : Env) (st : Store) (e : Op × Server) : Prop :=
  ∃ d, e.1 = .getJob d ∧ (env.fails e.2.tick ≠ none ∨ Unsettled st d)

/-- Whether `depsSatisfied` stops at what it has read of a dependency without a failure to name. -/
def stopsAt (d : String) : Except StoreError Job → Bool
  | .error _ => true
  | .ok j => match j.state with
    | .succeeded => false
    | .failed | .canceled => d = ""
    | _ => true

theorem stopsAt_iff {st : Store} (hst : s.store.jobs = st.jobs) {d : String} {r : Except StoreError Job}
    (h : Reads env s d r) : stopsAt d r = true ↔ env.fails s.tick ≠ none ∨ Unsettled st d := by
  cases h with
  | failed he => exact iff_of_true rfl (.inl (he ▸ Option.some_ne_none _))
  | missing he hj =>
    have hstate : st.stateOf d = none := by rw [Store.stateOf, ← hst, hj]; rfl
    exact iff_of_true rfl (.inr (by simp [Unsettled, DepMet, DepFailed, hstate]))
  | @found j he hj =>
    have hstate : st.stateOf d = some j.state := by rw [Store.stateOf, ← hst, hj]; rfl
    cases hs : j.state <;> simp [stopsAt, hs, he, Unsettled, DepMet, DepFailed, hstate]

/-! ## The protocol -/

/-- What a submission has done: whether it stopped at a dependency, the write with whether it succeeded, and whether the job
has entered the dependency index. -/
structure Draft where
  waits : Bool := false
  written : Option (Job × Bool) := none
  indexed : Bool := false

/-- A submission writes one record, PENDING if it has stopped at a dependency, and then puts this one into the dependency
index. -/
def submission (job : Job) : Protocol Op Op.Resp Draft where
  permits op g := match op with
    | .getJob _ => ∀ j, g.written ≠ some (j, false)
    | .putJob j => g.written = none ∧ g.indexed = false ∧ NewRecord j.id job j ∧ (j.state = .pending ↔ g.waits = true)
    | .addDeps j' => g.indexed = false ∧ ∃ j ok, g.written = some (j, ok) ∧ j'.id = j.id ∧ j'.dependsOn = j.dependsOn
    | .putDeadLetter _ | .putWorker _ | .removeFromIndex _ | .clearIndex => False
    | _ => True
  answers _ _ _ := True
  next op r g := match op, r with
    | .getJob d, r => { g with waits := g.waits || stopsAt d r }
    | .putJob j, .ok _ => { g with written := some (j, true) }
    | .putJob j, .error _ => { g with written := some (j, false) }
    | .addDeps _, _ => { g with indexed := true }
    | _, _ => g

/-- The writes of jobs among some operations, each with whether it succeeded. -/
def writes (env : Env) (tr : List (Op × Server)) : List (Job × Bool) := tr.filterMap fun e => match e.1 with
  | .putJob j => some (j, (env.fails e.2.tick).isNone)
  | _ => none

/-- What has become of the stored jobs and of the index. -/
def Placed (env : Env) (s₀ : Server) (g : Draft) (tr : List (Op × Server)) (s : Server) : Prop :=
  match g.written with
  | none => s.store.jobs = s₀.store.jobs ∧ s.revIndex = s₀.revIndex ∧
      (g.waits = true ↔ ∃ e ∈ tr, ReadsUnsettled env s₀.store e)
  | some (j, true) => s.store.jobs = s₀.store.jobs.put j
  | some (j, false) => s.store.jobs = s₀.store.jobs ∧
      (j.state = .pending ↔ ∃ e ∈ tr, ReadsUnsettled env s₀.store e) ∧
      s.revIndex = if g.indexed then RevIndex.addDeps s₀.revIndex j else s₀.revIndex

section Step

variable {s₀ s' : Server} {g : Draft} {tr : List (Op × Server)} {op : Op}

theorem reads_append (h : ∀ d, op ≠ .getJob d) :
    (∃ e ∈ tr ++ [(op, s)], ReadsUnsettled env s₀.store e) ↔ ∃ e ∈ tr, ReadsUnsettled env s₀.store e := by
  have hno : ¬ ReadsUnsettled env s₀.store (op, s) := fun ⟨d, hd, _⟩ => h d hd
  simp only [List.mem_append, List.mem_singleton, or_and_right, exists_or, exists_eq_left, hno, or_false]

/-- Nothing but what else there is changes. -/
theorem Placed.congr (h : Placed env s₀ g tr s) (hop : ∀ d, op ≠ .getJob d) (hj : s'.store.jobs = s.store.jobs)
    (hr : s'.revIndex = s.revIndex) : Placed env s₀ g (tr ++ [(op, s)]) s' := by
  unfold Placed at h ⊢
  match hw : g.written with
  | none =>
    simp only [hw] at h ⊢
    exact ⟨hj.trans h.1, hr.trans h.2.1, h.2.2.trans (reads_append hop).symm⟩
  | some (j, true) =>
    simp only [hw] at h ⊢
    exact hj.trans h
  | some (j, false) =>
    simp only [hw] at h ⊢
    exact ⟨hj.trans h.1, h.2.1.trans (reads_append hop).symm, hr.trans h.2.2⟩

theorem Placed.getJob (d : String) (h : Placed env s₀ g tr s) (hg : ∀ j, g.written ≠ some (j, false)) :
    Placed env s₀ { g with waits := g.waits || stopsAt d (handle env (.getJob d) s).1 } (tr ++ [(.getJob d, s)])
      (handle env (.getJob d) s).2 := by
  unfold Placed at h ⊢
  match hw : g.written with
  | none =>
    simp only [hw] at h ⊢
    refine ⟨h.1, h.2.1, ?_⟩
    have hread : stopsAt d (handle env (.getJob d) s).1 = true ↔ env.fails s.tick ≠ none ∨ Unsettled s₀.store d :=
      stopsAt_iff h.1 (getJob_reads d s).1
    rw [Bool.or_eq_true, h.2.2, hread]
    simp only [List.mem_append, List.mem_singleton, or_and_right, exists_or, exists_eq_left]
    refine or_congr_right ⟨fun h => ⟨d, rfl, h⟩, ?_⟩
    rintro ⟨_, ⟨⟩, h⟩
    exact h
  | some (j, true) =>
    simp only [hw] at h ⊢
    exact h
  | some (j, false) => exact absurd hw (hg j)

theorem Placed.putJob (h : Placed env s₀ g tr s) (hw : g.written = none) (hi : g.indexed = false)
    (hj : j.state = .pending ↔ g.waits = true) :
    Placed env s₀ ((submission job).next (.putJob j) (handle env (.putJob j) s).1 g) (tr ++ [(.putJob j, s)])
      (handle env (.putJob j) s).2 := by
  unfold Placed at h
  simp only [hw] at h
  cases he : env.fails s.tick with
  | none =>
    simp only [handle, Server.write, he]
    exact congrArg (fun b : Bucket Job.id => b.put j) h.1
  | some e =>
    simp only [handle, Server.write, he]
    refine ⟨h.1, hj.trans (h.2.2.trans (reads_append fun _ he => Op.noConfusion he).symm), ?_⟩
    show s.revIndex = if g.indexed then _ else _
    rw [hi]
    exact h.2.1

theorem Placed.addDeps {j' : Job} (h : Placed env s₀ g tr s) (hi : g.indexed = false) {ok : Bool}
    (hw : g.written = some (j, ok)) (hid : j'.id = j.id) (hdeps : j'.dependsOn = j.dependsOn) :
    Placed env s₀ { g with indexed := true } (tr ++ [(.addDeps j', s)]) (handle env (.addDeps j') s).2 := by
  unfold Placed at h ⊢
  simp only [hw] at h ⊢
  cases ok with
  | true => exact h
  | false =>
    refine ⟨h.1, h.2.1.trans (reads_append fun _ he => Op.noConfusion he).symm, ?_⟩
    show RevIndex.addDeps s.revIndex j' = RevIndex.addDeps s₀.revIndex j
    have hsame : s.revIndex = s₀.revIndex := by simpa [hi] using h.2.2
    rw [hsame, RevIndex.addDeps, RevIndex.addDeps, hid, hdeps]

end Step

theorem step_submission (s₀ : Server) (op : Op) (g : Draft) (tr : List (Op × Server)) (s : Server)
    (h : writes env tr = g.written.toList ∧ Placed env s₀ g tr s) (hop : (submission job).permits op g) :
    (submission job).answers op (handle env op s).1 g ∧
      writes env (tr ++ [(op, s)]) = ((submission job).next op (handle env op s).1 g).written.toList ∧
      Placed env s₀ ((submission job).next op (handle env op s).1 g) (tr ++ [(op, s)]) (handle env op s).2 := by
  obtain ⟨htr, hplaced⟩ := h
  have hwrites : writes env (tr ++ [(op, s)]) = g.written.toList ++ writes env [(op, s)] := by
    rw [← htr]
    exact List.filterMap_append
  refine ⟨trivial, ?_⟩
  rw [hwrites]
  cases op with
  | putJob j =>
    obtain ⟨hw, hi, -, hj⟩ := hop
    refine ⟨?_, hplaced.putJob hw hi hj⟩
    cases he : env.fails s.tick <;> simp [submission, handle, Server.write, he, hw, writes]
  | getJob d => exact ⟨List.append_nil _, hplaced.getJob d hop⟩
  | addDeps j' =>
    obtain ⟨hi, j, ok, hw, hid, hdeps⟩ := hop
    exact ⟨List.append_nil _, hplaced.addDeps hi hw hid hdeps⟩
  | putDeadLetter | putWorker | removeFromIndex | clearIndex => exact hop.elim
  | _ => exact ⟨List.append_nil _, hplaced.congr (fun _ he => Op.noConfusion he) rfl rfl⟩

/-! ## The handler -/

section Meets

variable {id : String} {ps : Cron} {g : Draft}

/-- The operations a submission may perform at any time and that change nothing it has done. -/
def Passive : Op → Prop
  | .getJob _ | .putJob _ | .addDeps _ | .putDeadLetter _ | .putWorker _ | .removeFromIndex _ | .clearIndex => False
  | _ => True

theorem silent_submission (op : Op) (h : Passive op) : Silent (submission job) op := by
  intro g
  cases op <;> first | exact h.elim | exact ⟨trivial, fun _ _ => rfl⟩

/-- The read of the dependencies stops where the job has to wait. -/
theorem submission_depsSatisfied : ∀ (deps : List String) {g : Draft}, g.written = none →
    Meets (submission job) (depsSatisfied deps) g fun r g' =>
      g' = { g with waits := g.waits || (!r.1 && decide (r.2 = "")) } ∧ (r.1 = true → r.2 = "")
  | [], g, _ => ⟨by simp, fun _ => rfl⟩
  | d :: rest, g, hg => by
    refine Meets.bind (Q := fun (r : Except StoreError Job) (g' : Draft) => g' = { g with waits := g.waits || stopsAt d r })
      ⟨fun j hj => Option.some_ne_none _ (hj.symm.trans hg), fun r _ => rfl⟩ ?_
    rintro r _ rfl
    cases r with
    | error e => exact ⟨rfl, nofun⟩
    | ok dep =>
      dsimp only
      cases hs : dep.state with
      | succeeded =>
        simp only [stopsAt, hs, Bool.or_false]
        exact submission_depsSatisfied rest hg
      | failed => exact ⟨by simp [stopsAt, hs], nofun⟩
      | canceled => exact ⟨by simp [stopsAt, hs], nofun⟩
      | _ => exact ⟨by simp [stopsAt, hs], nofun⟩

theorem submission_putJob (hw : g.written = none) (hi : g.indexed = false) (hj : NewRecord id job j)
    (hs : j.state = .pending ↔ g.waits = true) :
    Meets (submission job) (putJob j) g fun r g' => ∃ ok, g' = { g with written := some (j, ok) } ∧ (r = .ok () → ok = true) := by
  refine ⟨⟨hw, hi, { hj with id := rfl }, hs⟩, fun r _ => ?_⟩
  cases r with
  | error e => exact ⟨false, rfl, nofun⟩
  | ok u =>
    refine (meets_appendRepl _ (silent_submission _ trivial) (silent_submission _ trivial)).bind ?_
    rintro _ _ rfl
    exact ⟨true, rfl, fun _ => rfl⟩

/-- The record is written, and entered into the index if it is PENDING. -/
def WrittenUp (id : String) (job : Job) (g : Draft) : Prop :=
  ∃ j ok, g.written = some (j, ok) ∧ NewRecord id job j ∧ (g.indexed = true ↔ j.state = .pending)

/-- Once the record is stored, the job is queued or a timer is armed. -/
theorem submission_armEnqueue (x : String) (delay : Int) (hw : g.written = some (j, true)) :
    Meets (submission job) (armEnqueue x delay) g fun _ g' => g'.written = some (j, true) ∧ g'.indexed = g.indexed := by
  have huses : Uses (fun op => Passive op ∨ ∃ d, op = .getJob d) (armEnqueue x delay) :=
    uses_armEnqueue x delay (.inl trivial) (.inl trivial) (fun d => .inr ⟨d, rfl⟩) (fun _ _ _ => .inl trivial)
      fun _ _ => .inl trivial
  refine Uses.meets (I := fun g' : Draft => g'.written = some (j, true) ∧ g'.indexed = g.indexed) ?_ huses ⟨hw, rfl⟩
  rintro op g' (hop | ⟨d, rfl⟩) hg'
  · have hsilent : Silent (submission job) op := silent_submission op hop
    exact ⟨(hsilent g').1, fun r hr => ((hsilent g').2 r hr).symm ▸ hg'⟩
  · refine ⟨fun j' hj' => ?_, fun _ _ => hg'⟩
    rw [hg'.1] at hj'
    cases hj'

theorem submission_placeNewJob (id : String) {new : Job} {now : Time}
    (hnew : ∀ st up sched err, (st = .pending ∨ st = .queued ∨ st = .canceled) →
      NewRecord id job { new with state := st, updatedAt := up, scheduledAt := sched, lastError := err }) :
    Meets (submission job) (placeNewJob ps new now) {} fun _ g => WrittenUp id job g := by
  refine (submission_depsSatisfied new.dependsOn rfl).bind ?_
  rintro ⟨ready, failedDep⟩ _ ⟨rfl, hready⟩
  dsimp only
  split
  · rename_i hfailed
    have hcanceled := hnew .canceled (some now.ns) new.scheduledAt (upstreamFailed failedDep) (.inr (.inr rfl))
    refine (submission_putJob rfl rfl hcanceled (by simp [hfailed])).bind ?_
    rintro _ _ ⟨ok, rfl, -⟩
    exact ⟨_, ok, rfl, hcanceled, by simp⟩
  · rename_i hnone
    split
    · rename_i hwaits
      have hpending := hnew .pending (some now.ns) new.scheduledAt new.lastError (.inl rfl)
      refine (submission_putJob rfl rfl hpending (by simpa [not_not.1 hnone] using hwaits)).bind ?_
      rintro _ _ ⟨ok, rfl, -⟩
      -- the index is brought up to date whether or not the record is stored
      exact ⟨⟨rfl, _, ok, rfl, rfl, rfl⟩, fun _ _ => ⟨_, ok, rfl, hpending, iff_of_true rfl rfl⟩⟩
    · rename_i hmet
      refine (meets_fireTime ps new now (silent_submission _ trivial)).bind ?_
      rintro ⟨_, delay⟩ _ ⟨rfl, t, rfl⟩
      have hqueued := hnew .queued (some now.ns) t new.lastError (.inr (.inl rfl))
      have hready : ready = true := by simpa using hmet
      refine (submission_putJob rfl rfl hqueued (by simp [hready])).bind ?_
      rintro r _ ⟨ok, rfl, hok⟩
      cases r with
      | error e => exact ⟨_, ok, rfl, hqueued, by simp⟩
      | ok u =>
        cases hok rfl
        refine (submission_armEnqueue _ delay rfl).mono ?_
        rintro _ g' ⟨hw, hi⟩
        exact ⟨_, true, hw, hqueued, by simp [hi]⟩

theorem submission_acceptJob (x : String) : Meets (submission job) (acceptJob ps { job with id := x }) {} fun r g =>
    ∀ i, r = .ok i → WrittenUp i job g := by
  have hcycle : Meets (submission job) (formsCycle { job with id := x }) {} fun _ g => g = {} := by
    unfold formsCycle
    split
    · refine Meets.bind ((silent_submission .listJobs trivial).meets {}) ?_
      rintro r _ rfl
      cases r <;> rfl
    · rfl
  refine hcycle.bind ?_
  rintro cyclic _ rfl
  cases cyclic with
  | true => exact nofun
  | false =>
    refine Meets.bind ((silent_submission .now trivial).meets {}) ?_
    rintro now _ rfl
    refine Meets.bind (submission_placeNewJob x fun st up sched err hst => ?_) fun _ g hg => ?_
    · exact ⟨rfl, rfl, rfl, rfl, rfl, rfl, rfl, rfl, hst⟩
    · rintro _ ⟨⟩
      exact hg

theorem submission_submitJob (cfg : Config) (ps : Cron) (job : Job) :
    Meets (submission job) (submitJob cfg ps (some job)) {} fun r g => ∀ i, r = .ok i → WrittenUp i job g := by
  have hassign : Meets (submission job) (assignID job >>= acceptJob ps) {} fun r g => ∀ i, r = .ok i → WrittenUp i job g := by
    have hnamed : Meets (submission job) (assignID job) {} fun new g => g = {} ∧ ∃ x, new = { job with id := x } := by
      unfold assignID
      split
      · refine Meets.bind ((silent_submission (.newID "job") trivial).meets {}) ?_
        rintro x _ rfl
        exact ⟨rfl, x, rfl⟩
      · exact ⟨rfl, job.id, rfl⟩
    refine hnamed.bind ?_
    rintro _ _ ⟨rfl, x, rfl⟩
    exact submission_acceptJob x
  refine (meets_requireLeader cfg (silent_submission _ trivial) (silent_submission _ trivial)).bind ?_
  rintro denied _ rfl
  cases denied with
  | some e => exact nofun
  | none =>
    dsimp only
    split
    · exact nofun
    · split
      · exact hassign
      · refine Meets.bind ((silent_submission .now trivial).meets {}) ?_
        rintro now _ rfl
        split
        · exact nofun
        · exact hassign

end Meets

/-- The one write of a list of them fails, or the run has no failing one. -/
theorem writeFails_iff {tr : List (Op × Server)} {ok : Bool} (h : writes env tr = [(j, ok)]) :
    (∃ e ∈ tr, WriteFails env e) ↔ ok = false := by
  constructor
  · rintro ⟨e, he, j', hop, hfail⟩
    have hmem : (j', false) ∈ writes env tr := by
      refine List.mem_filterMap.2 ⟨e, he, ?_⟩
      rw [hop]
      simpa [Option.isSome_iff_ne_none] using hfail
    rw [h, List.mem_singleton] at hmem
    exact (Prod.mk.inj hmem).2.symm
  · rintro rfl
    have hmem : (j, false) ∈ writes env tr := h ▸ List.mem_singleton_self _
    obtain ⟨⟨op, st⟩, he, heq⟩ := List.mem_filterMap.1 hmem
    refine ⟨_, he, ?_⟩
    cases op with
    | putJob j' =>
      refine ⟨j', rfl, fun hnone => ?_⟩
      simp [hnone] at heq
    | _ => cases heq

/-- A successful `SubmitJob` has written one record, that of the job under the ID it returns. Afterwards the store holds it
exactly if the write has not failed or such a record was there before. If the write failed, no entry for the job was added
to the dependency index, exactly if no dependency was read that is not settled, or the entries were there before. -/
theorem submission_durable (cfg : Config) (ps : Cron) (job : Job) (s : Server) {i : String}
    (h : (exec (handle env) (submitJob cfg ps (some job)) s).1 = .ok i) :
    let s' := (exec (handle env) (submitJob cfg ps (some job)) s).2
    let tr := trace (handle env) (submitJob cfg ps (some job)) s
    (∃ j ok, writes env tr = [(j, ok)] ∧ NewRecord i job j ∧ (ok = true → s'.store.jobs.get i = some j)) ∧
    (HoldsSpec s' i job ↔ (∀ e ∈ tr, ¬ WriteFails env e) ∨ HoldsSpec s i job) ∧
    (((∃ e ∈ tr, WriteFails env e) → ∀ d, RevIndex.Waits s'.revIndex d i → RevIndex.Waits s.revIndex d i) ↔
      (∀ e ∈ tr, ¬ WriteFails env e) ∨ (∀ e ∈ tr, ¬ ReadsUnsettled env s.store e) ∨
        ∀ d ∈ job.dependsOn, RevIndex.Waits s.revIndex d i) := by
  have hstart : writes env [] = Option.toList ({} : Draft).written ∧ Placed env s {} [] s :=
    ⟨rfl, rfl, rfl, by simp⟩
  obtain ⟨g, ⟨hwrites, hplaced⟩, hend⟩ := (submission_submitJob cfg ps job).history (step_submission s) hstart
  obtain ⟨j, ok, hw, hj, hindexed⟩ := hend i h
  intro s' tr
  have hwrites : writes env tr = [(j, ok)] := by
    rw [hw] at hwrites
    exact hwrites
  have hfails := writeFails_iff hwrites
  unfold Placed at hplaced
  simp only [hw] at hplaced
  cases ok with
  | true =>
    have hnone : ∀ e ∈ tr, ¬ WriteFails env e := fun e he hf => Bool.noConfusion (hfails.1 ⟨e, he, hf⟩)
    have hget : s'.store.jobs.get i = some j := by
      show (exec (handle env) (submitJob cfg ps (some job)) s).2.store.jobs.get i = some j
      rw [hplaced, Bucket.get_put, if_pos hj.id.symm]
    refine ⟨⟨j, true, hwrites, hj, fun _ => hget⟩, iff_of_true ⟨j, hget, hj.spec, hj.state⟩ (.inl hnone), ?_⟩
    exact iff_of_true (fun ⟨e, he, hf⟩ => absurd hf (hnone e he)) (.inl hnone)
  | false =>
    obtain ⟨hjobs, hwaits, hrev⟩ := hplaced
    obtain ⟨e, he, hf⟩ := hfails.2 rfl
    have hsome : ¬ ∀ e ∈ tr, ¬ WriteFails env e := fun hnone => hnone e he hf
    have hstored : HoldsSpec s' i job ↔ HoldsSpec s i job := by
      unfold HoldsSpec
      rw [show s'.store.jobs = s.store.jobs from hjobs]
    refine ⟨⟨j, false, hwrites, hj, nofun⟩, hstored.trans (or_iff_right hsome).symm, ?_⟩
    have hadds : (∀ d, RevIndex.Waits s'.revIndex d i → RevIndex.Waits s.revIndex d i) ↔
        (∀ e ∈ tr, ¬ ReadsUnsettled env s.store e) ∨ ∀ d ∈ job.dependsOn, RevIndex.Waits s.revIndex d i := by
      have hread : j.state = .pending ↔ ∃ e ∈ tr, ReadsUnsettled env s.store e := hwaits
      by_cases hp : j.state = .pending
      · have hrev : s'.revIndex = RevIndex.addDeps s.revIndex j := hrev.trans (if_pos (hindexed.2 hp))
        have hread : ¬ ∀ e ∈ tr, ¬ ReadsUnsettled env s.store e := fun hno =>
          let ⟨e, he, hr⟩ := hread.1 hp
          hno e he hr
        rw [hrev]
        simp only [RevIndex.waits_addDeps, hj.id, hj.dependsOn, hread, false_or]
        exact ⟨fun h d hd => h d (.inr ⟨hd, trivial⟩), fun h d hd => hd.elim id fun hd => h d hd.1⟩
      · have hrev : s'.revIndex = s.revIndex := hrev.trans (if_neg fun hi => hp (hindexed.1 hi))
        rw [hrev]
        exact iff_of_true (fun _ h => h) (.inl fun e he hr => hp (hread.2 ⟨e, he, hr⟩))
    rw [← hadds]
    exact ⟨fun h => .inr (h ⟨e, he, hf⟩), fun h _ => h.resolve_left hsome⟩

/-- A submission to a node just started on a store, of which one operation fails. -/
def submitted (store : Store) (failing : Nat) (deps : List String) : Except Status String × Server :=
  exec (handle (.failing (· = failing))) (submitJob .defaults noCron (jobRequest "a" deps))
    (started (.failing (· = failing)) noCron store leading)

/-- The calls of that submission. -/
def callsOf (store : Store) (failing : Nat) (deps : List String) : List (Op × Server) :=
  trace (handle (.failing (· = failing))) (submitJob .defaults noCron (jobRequest "a" deps))
    (started (.failing (· = failing)) noCron store leading)

/-- A store with a job that has failed. -/
def failedBefore : Store := { Store.empty with jobs := Store.empty.jobs.put { id := "d", state := .failed } }

/-- If the operation is a read, it is of the given job and not the one that fails. -/
def readsOnly (d : String) (failing : Nat) : Op × Server → Bool
  | (.getJob d', s) => decide (d' = d ∧ s.tick ≠ failing)
  | _ => true

theorem eq_ok_of_toOption {α β : Type} {r : Except α β} {b : β} (h : r.toOption = some b) : r = .ok b := by
  cases r with
  | error e => cases h
  | ok a => exact congrArg Except.ok (Option.some.inj h)

/-- A job that is ready is stored. One that is canceled, because its dependency has failed, does not enter the index where
its write fails. -/
theorem submission_durable_ready :
    HoldsSpec (submitted .empty 100 []).2 "a" { spec := some { command := "true" } } ∧
    (∃ e ∈ callsOf failedBefore 14 ["d"], WriteFails (.failing (· = 14)) e) ∧
    ∀ d, RevIndex.Waits (submitted failedBefore 14 ["d"]).2.revIndex d "a" →
      RevIndex.Waits (started (.failing (· = 14)) noCron failedBefore leading).revIndex d "a" := by
  have hready : (submitted .empty 100 []).1.toOption = some "a" ∧
      (callsOf .empty 100 []).all (fun e => decide (e.2.tick ≠ 100)) = true := by decide +kernel
  have hcanceled : (submitted failedBefore 14 ["d"]).1.toOption = some "a" ∧
      (writes (.failing (· = 14)) (callsOf failedBefore 14 ["d"])).map Prod.snd = [false] ∧
      (callsOf failedBefore 14 ["d"]).all (readsOnly "d" 14) = true ∧
      (started (.failing (· = 14)) noCron failedBefore leading).store.stateOf "d" = some .failed := by decide +kernel
  obtain ⟨hok, hcalls⟩ := hready
  obtain ⟨hok', hwrites, hreads, hd⟩ := hcanceled
  obtain ⟨-, hstored, -⟩ := submission_durable .defaults noCron _ _ (eq_ok_of_toOption hok)
  obtain ⟨⟨j, ok, hw, -⟩, -, hindex⟩ := submission_durable .defaults noCron _ _ (eq_ok_of_toOption hok')
  have hlost : ∃ e ∈ callsOf failedBefore 14 ["d"], WriteFails (.failing (· = 14)) e := by
    refine (writeFails_iff hw).2 ?_
    rw [show writes _ (callsOf failedBefore 14 ["d"]) = _ from hw] at hwrites
    exact (List.cons.inj hwrites).1
  refine ⟨?_, hlost, hindex.2 (.inr (.inl fun e he => ?_)) hlost⟩
  · refine hstored.2 (.inl fun e he => ?_)
    rintro ⟨-, -, hfail⟩
    exact hfail (if_neg (by simpa using List.all_eq_true.1 hcalls e he))
  · obtain ⟨op, st⟩ := e
    rintro ⟨d, rfl, hread⟩
    obtain ⟨rfl, htick⟩ := of_decide_eq_true (List.all_eq_true.1 hreads _ he)
    refine hread.elim (fun hfail => hfail (if_neg (by simpa using htick))) fun hun => ?_
    exact absurd (hun.2 (.inl hd)) (by decide)

/-- The one write fails, and success is returned: of a job that is ready nothing is left, and of one that has to wait for
another nothing but its entry in the dependency index. -/
theorem submission_lost :
    (submitted .empty 12 []).1.toOption = some "a" ∧ (submitted .empty 12 []).2.store.jobs.list = [] ∧
    (submitted .empty 14 ["d"]).1.toOption = some "a" ∧ (submitted .empty 14 ["d"]).2.store.jobs.list = [] ∧
      RevIndex.dependentsOf (submitted .empty 14 ["d"]).2.revIndex "d" = ["a"] := by
  decide +kernel

end Distsched.Scheduler
