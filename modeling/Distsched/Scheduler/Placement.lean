/-
Where a job is put by the states of its dependencies (`internal/scheduler/deps.go`), while the store works. A job is
canceled if `depsSatisfied` names a dependency that failed, queued if all of them have SUCCEEDED, and parked otherwise.

`depsSatisfied` stops at the first dependency that has not SUCCEEDED. If that one is missing or unfinished, a later one that
failed goes unnoticed. So the order of the list decides whether a job is canceled or parked exactly where it depends on both
kinds.
-/
import Distsched.Scheduler.Aloof
import Distsched.Scheduler.Cascade

namespace Distsched.Scheduler

open Prog

variable {env : Env} {st : Store} {s : Server} {deps : List String} {r : Bool × String}

/-! ## The verdict on the dependencies -/

/-- The state in which a job is stored. -/
def Store.stateOf (st : Store) (x : String) : Option JobState := (st.jobs.get x).map Job.state

def DepMet (st : Store) (d : String) : Prop := st.stateOf d = some .succeeded

def DepFailed (st : Store) (d : String) : Prop := st.stateOf d = some .failed ∨ st.stateOf d = some .canceled

/-- If one of the dependencies failed, none is missing or unfinished. -/
def Unmixed (st : Store) (deps : List String) : Prop :=
  (∃ d ∈ deps, DepFailed st d) → ∀ d ∈ deps, DepFailed st d ∨ DepMet st d

theorem DepFailed.not_met {d : String} (h : DepFailed st d) : ¬ DepMet st d := by
  intro hm
  rcases h with h | h <;> cases hm.symm.trans h

/-- What `depsSatisfied` answers. -/
def verdict (st : Store) : List String → Bool × String
  | [] => (true, "")
  | d :: rest => match st.stateOf d with
    | some .succeeded => verdict st rest
    | some .failed | some .canceled => (false, d)
    | _ => (false, "")

theorem sat_depsSatisfied (he : env.Reliable) : ∀ (deps : List String) (s : Server),
    Sat (handle env) (depsSatisfied deps) s fun r s' => r = verdict s.store deps ∧ s'.store = s.store
  | [], s => ⟨rfl, rfl⟩
  | d :: rest, s => by
    refine (getJob_reliable he d s).bind ?_
    rintro r _ ⟨hr, rfl⟩
    cases hj : s.store.jobs.get d with
    | none =>
      have hstate : s.store.stateOf d = none := by rw [Store.stateOf, hj]; rfl
      simp only [hj] at hr
      subst hr
      exact ⟨by simp only [verdict, hstate]; rfl, rfl⟩
    | some j =>
      have hstate : s.store.stateOf d = some j.state := by rw [Store.stateOf, hj]; rfl
      simp only [hj] at hr
      subst hr
      dsimp only
      cases hs : j.state with
      | succeeded =>
        refine (sat_depsSatisfied he rest s.ticked).mono ?_
        rintro r s' ⟨hv, hst⟩
        exact ⟨by simp only [verdict, hstate, hs]; exact hv, hst⟩
      | _ => exact ⟨by simp only [verdict, hstate, hs]; rfl, rfl⟩

theorem verdict_of_failed {d : String} (h : DepFailed st d) (rest : List String) : verdict st (d :: rest) = (false, d) := by
  rcases h with h | h <;> simp only [verdict, h]

theorem verdict_of_waiting {d : String} (hf : ¬ DepFailed st d) (hm : ¬ DepMet st d) (rest : List String) :
    verdict st (d :: rest) = (false, "") := by
  unfold DepFailed DepMet at *
  unfold verdict
  split <;> simp_all

/-- What the verdict can be. -/
inductive Verdict (st : Store) : List String → Bool × String → Prop
  | ready {deps : List String} (hmet : ∀ d ∈ deps, DepMet st d) : Verdict st deps (true, "")
  | failed {deps : List String} {d : String} (hd : d ∈ deps) (hf : DepFailed st d) : Verdict st deps (false, d)
  | waiting {deps : List String} {d : String} (hd : d ∈ deps) (hf : ¬ DepFailed st d) (hm : ¬ DepMet st d) :
    Verdict st deps (false, "")

theorem Verdict.cons {d : String} (hd : DepMet st d) (h : Verdict st deps r) : Verdict st (d :: deps) r := by
  cases h with
  | ready hmet => exact .ready (List.forall_mem_cons.2 ⟨hd, hmet⟩)
  | failed hd' hf => exact .failed (List.mem_cons_of_mem _ hd') hf
  | waiting hd' hf hm => exact .waiting (List.mem_cons_of_mem _ hd') hf hm

theorem verdict_spec (st : Store) : ∀ deps, Verdict st deps (verdict st deps)
  | [] => .ready (by simp)
  | d :: rest => by
    by_cases hf : DepFailed st d
    · rw [verdict_of_failed hf]
      exact .failed List.mem_cons_self hf
    · by_cases hm : DepMet st d
      · have hnext : verdict st (d :: rest) = verdict st rest := by
          unfold DepMet at hm
          simp only [verdict, hm]
        rw [hnext]
        exact (verdict_spec st rest).cons hm
      · rw [verdict_of_waiting hf hm]
        exact .waiting List.mem_cons_self hf hm

/-- Where no dependency failed beside one that is missing or unfinished, the verdict says what it seems to say. -/
theorem verdict_exact (hkey : st.jobs.get "" = none) (hmix : Unmixed st deps) :
    ((verdict st deps).2 ≠ "" ↔ ∃ d ∈ deps, DepFailed st d) ∧
      ((verdict st deps).1 = true ↔ ∀ d ∈ deps, DepMet st d) := by
  generalize hr : verdict st deps = r
  have h : Verdict st deps r := hr ▸ verdict_spec st deps
  cases h with
  | ready hmet =>
    refine ⟨iff_of_false (by simp) ?_, iff_of_true rfl hmet⟩
    rintro ⟨d, hd, hf⟩
    exact hf.not_met (hmet d hd)
  | @failed d hd hf =>
    refine ⟨iff_of_true ?_ ⟨d, hd, hf⟩, iff_of_false (by simp) fun hmet => hf.not_met (hmet d hd)⟩
    rintro rfl
    simp [DepFailed, Store.stateOf, hkey] at hf
  | @waiting d hd hf hm =>
    refine ⟨iff_of_false (by simp) fun hex => ?_, iff_of_false (by simp) fun hmet => hm (hmet d hd)⟩
    exact (hmix hex d hd).elim hf hm

/-! ## Placing a job -/

/-- The state in which a job is put. -/
def placement (r : Bool × String) : JobState := if r.2 ≠ "" then .canceled else if r.1 then .queued else .pending

/-- The operations that leave the store alone. -/
def OffStore : Op → Prop
  | .putJob _ | .putDeadLetter _ | .putWorker _ => False
  | _ => True

theorem store_handle (op : Op) (s : Server) (h : OffStore op) : (handle env op s).2.store = s.store := by
  cases op <;> first | exact h.elim | rfl

theorem sat_armEnqueue (x : String) (delay : Int) (s : Server) :
    Sat (handle env) (armEnqueue x delay) s fun _ s' => s'.store = s.store := by
  have harm : Uses OffStore (armEnqueue x delay) :=
    uses_armEnqueue x delay trivial trivial (fun _ => trivial) (fun _ _ _ => trivial) fun _ _ => trivial
  exact harm.frame Server.store store_handle s

/-- A job made ready is stored QUEUED, with its fire time. -/
theorem sat_makeReady (he : env.Reliable) (ps : Cron) (job : Job) (now : Time) (s : Server) :
    Sat (handle env) (makeReady ps job now) s fun _ s' => ∃ t,
      s'.store.jobs = s.store.jobs.put { job with scheduledAt := t, state := .queued, updatedAt := some now.ns } := by
  have hfire : Meets ⟨fun op (_ : Unit) => OffStore op, fun _ _ _ => True, fun _ _ _ => ()⟩ (fireTime ps job now) ()
      fun r g => g = () ∧ ∃ t, r.1 = { job with scheduledAt := t } := meets_fireTime ps job now (silent_of_ok trivial)
  refine (sat_of_uses hfire Server.store store_handle s).bind ?_
  rintro ⟨_, delay⟩ s₁ ⟨h₁, -, t, rfl⟩
  refine (putJob_reliable he _ s₁).bind ?_
  rintro _ s₂ ⟨rfl, h₂⟩
  refine (sat_armEnqueue _ delay s₂).mono fun _ s₃ h₃ => ⟨t, ?_⟩
  rw [h₃, h₂, ← h₁]

/-- A new job is stored as its dependencies want it. -/
theorem sat_placeNewJob (he : env.Reliable) (ps : Cron) (job : Job) (now : Time) (s : Server) :
    Sat (handle env) (placeNewJob ps job now) s fun _ s' => ∃ j, s'.store.jobs = s.store.jobs.put j ∧ j.id = job.id ∧
      j.dependsOn = job.dependsOn ∧ j.state = placement (verdict s.store job.dependsOn) := by
  refine (sat_depsSatisfied he job.dependsOn s).bind ?_
  rintro ⟨ready, failedDep⟩ s₁ ⟨hv, h₁⟩
  rw [← hv]
  have hput : ∀ (j : Job) {s₂ : Server}, s₂ = { s₁ with
      store := { s₁.store with jobs := s₁.store.jobs.put j }, repl := s₂.repl, tick := s₂.tick } →
      s₂.store.jobs = s.store.jobs.put j := by
    intro j s₂ h₂
    rw [h₂, ← h₁]
  dsimp only
  split
  · rename_i hfail
    refine (putJob_reliable he _ s₁).bind ?_
    rintro _ s₂ ⟨rfl, h₂⟩
    exact ⟨_, hput _ h₂, rfl, rfl, (if_pos hfail).symm⟩
  · rename_i hfail
    cases ready with
    | false =>
      refine (putJob_reliable he _ s₁).bind ?_
      rintro _ s₂ ⟨rfl, h₂⟩
      have hadd : Sat (handle env) (addDeps job) s₂ fun _ s₃ => s₃.store = s₂.store := rfl
      refine hadd.mono fun _ s₃ h₃ =>
        ⟨{ job with state := .pending, updatedAt := some now.ns }, ?_, rfl, rfl, (if_neg hfail).symm⟩
      rw [h₃]
      exact hput _ h₂
    | true =>
      refine (sat_makeReady he ps job now s₁).mono ?_
      rintro _ s₂ ⟨t, h₂⟩
      rw [h₁] at h₂
      exact ⟨_, h₂, rfl, rfl, (if_neg hfail).symm⟩

/-- A PENDING job is canceled, queued or left as its dependencies want it. -/
theorem sat_tryPromote (he : env.Reliable) (ps : Cron) (job : Job) (hj : s.store.jobs.get job.id = some job)
    (hs : job.state = .pending) : Sat (handle env) (tryPromote ps job.id) s fun _ s' =>
      s'.store.stateOf job.id = some (placement (verdict s.store job.dependsOn)) := by
  refine (getJob_reliable he job.id s).bind ?_
  rintro r _ ⟨hr, rfl⟩
  simp only [hj] at hr
  subst hr
  dsimp only
  rw [if_neg (not_not.2 hs)]
  refine (sat_depsSatisfied he job.dependsOn s.ticked).bind ?_
  rintro ⟨ready, failedDep⟩ s₁ ⟨hv, h₁⟩
  replace hv : (ready, failedDep) = verdict s.store job.dependsOn := hv
  have hj₁ : s₁.store.jobs.get job.id = some job := by rw [h₁]; exact hj
  rw [← hv]
  dsimp only
  split
  · rename_i hfail
    refine (sat_cascaded he job.id _ s₁).mono fun _ s' h => ?_
    obtain ⟨r, now, hget⟩ := h.canceled job.id job .refl hj₁ (by rw [hs]; rfl)
    rw [Store.stateOf, hget, placement, if_pos hfail]
    rfl
  · rename_i hfail
    cases ready with
    | true =>
      have hnow : Sat (handle env) timeNow s₁ fun _ s₂ => s₂.store = s₁.store := rfl
      refine hnow.bind fun now s₂ h₂ => ?_
      refine (sat_makeReady he ps job now s₂).bind ?_
      rintro _ s₃ ⟨t, h₃⟩
      show s₃.store.stateOf job.id = _
      rw [Store.stateOf, h₃, Bucket.get_put, if_pos rfl, placement, if_neg hfail]
      rfl
    | false =>
      show s₁.store.stateOf job.id = _
      rw [Store.stateOf, hj₁, placement, if_neg hfail, Option.map_some, hs]
      rfl

/-! ## The order of the list -/

/-- The state in which a program leaves a job stored. -/
def stateAfter (env : Env) (p : M Unit) (s : Server) (x : String) : Option JobState :=
  (exec (handle env) p s).2.store.stateOf x

/-- A job as it is stored, under another list of dependencies. -/
def Server.relist (s : Server) (job : Job) (deps : List String) : Server :=
  { s with store := { s.store with jobs := s.store.jobs.put { job with dependsOn := deps } } }

theorem stateAfter_placeNewJob (he : env.Reliable) (ps : Cron) (job : Job) (now : Time) (s : Server) :
    stateAfter env (placeNewJob ps job now) s job.id = some (placement (verdict s.store job.dependsOn)) := by
  obtain ⟨j, hjobs, hid, -, hs⟩ := sat_placeNewJob he ps job now s
  rw [stateAfter, Store.stateOf, hjobs, Bucket.get_put, if_pos hid.symm, ← hs]
  rfl

/-- A job that is not PENDING is left alone. -/
theorem stateAfter_tryPromote_of_ne (he : env.Reliable) (ps : Cron) (job : Job) (hj : s.store.jobs.get job.id = some job)
    (hs : job.state ≠ .pending) : stateAfter env (tryPromote ps job.id) s job.id = some job.state := by
  have hsame : Sat (handle env) (tryPromote ps job.id) s fun _ s' => s'.store.stateOf job.id = some job.state := by
    refine (getJob_reliable he job.id s).bind ?_
    rintro r _ ⟨hr, rfl⟩
    simp only [hj] at hr
    subst hr
    dsimp only
    rw [if_pos hs]
    show (s.store.jobs.get job.id).map Job.state = _
    rw [hj]
    rfl
  exact hsame

theorem placement_congr {r r' : Bool × String} (hf : r.2 ≠ "" ↔ r'.2 ≠ "") (hr : r.1 = true ↔ r'.1 = true) :
    placement r = placement r' := by
  simp only [placement, hf, hr]

/-- Stores that have the same jobs in the same states give the same verdict. -/
theorem verdict_congr {st' : Store} (hst : st'.stateOf = st.stateOf) : ∀ deps, verdict st' deps = verdict st deps
  | [] => rfl
  | d :: rest => by
    unfold verdict
    rw [hst, verdict_congr hst rest]

/-- Lists of the same dependencies lead to the same placement. -/
theorem placement_of_perm {deps' : List String} (hkey : st.jobs.get "" = none) (hmix : Unmixed st deps)
    (hdeps : deps.Perm deps') : placement (verdict st deps) = placement (verdict st deps') := by
  have hmem : ∀ d, d ∈ deps' ↔ d ∈ deps := fun d => hdeps.symm.mem_iff
  have hmix' : Unmixed st deps' := by
    unfold Unmixed
    simp only [hmem]
    exact hmix
  obtain ⟨hf, hr⟩ := verdict_exact hkey hmix
  obtain ⟨hf', hr'⟩ := verdict_exact hkey hmix'
  simp only [hmem] at hf' hr'
  exact placement_congr (hf.trans hf'.symm) (hr.trans hr'.symm)

/-- A failed dependency at the head of the list and a missing or unfinished one there lead to different placements. -/
theorem unmixed_of_placement (hkey : st.jobs.get "" = none)
    (h : ∀ deps', deps.Perm deps' → placement (verdict st deps) = placement (verdict st deps')) : Unmixed st deps := by
  rintro ⟨f, hf, hfailed⟩ w hw
  by_contra hwaits
  obtain ⟨hnf, hnm⟩ := not_or.1 hwaits
  have hcanceled := h _ (List.perm_cons_erase hf)
  have hparked := h _ (List.perm_cons_erase hw)
  have hname : f ≠ "" := by
    rintro rfl
    simp [DepFailed, Store.stateOf, hkey] at hfailed
  rw [verdict_of_failed hfailed] at hcanceled
  rw [verdict_of_waiting hnf hnm, hcanceled] at hparked
  simp [placement, hname] at hparked

/-- The verdict on a list of dependencies is exact, and no other order of the list would leave a new job or a stored one in
another state, exactly if the list does not mix failed dependencies with missing or unfinished ones. -/
theorem deps_order_free (he : env.Reliable) (hkey : s.store.jobs.get "" = none) (deps : List String) :
    (Sat (handle env) (depsSatisfied deps) s (fun r _ =>
      (r.2 ≠ "" ↔ ∃ d ∈ deps, DepFailed s.store d) ∧ (r.1 = true ↔ ∀ d ∈ deps, DepMet s.store d)) ∧
    ∀ deps', deps.Perm deps' → ∀ (ps : Cron) (job : Job),
      (∀ now, stateAfter env (placeNewJob ps { job with dependsOn := deps } now) s job.id =
        stateAfter env (placeNewJob ps { job with dependsOn := deps' } now) s job.id) ∧
      (s.store.jobs.get job.id = some { job with dependsOn := deps } → stateAfter env (tryPromote ps job.id) s job.id =
        stateAfter env (tryPromote ps job.id) (s.relist job deps') job.id)) ↔
    Unmixed s.store deps := by
  have hplaced : ∀ (ps : Cron) (job : Job) (deps' : List String) (now : Time),
      stateAfter env (placeNewJob ps { job with dependsOn := deps' } now) s job.id =
        some (placement (verdict s.store deps')) :=
    fun ps job deps' now => stateAfter_placeNewJob he ps { job with dependsOn := deps' } now s
  constructor
  · rintro ⟨-, horder⟩
    refine unmixed_of_placement hkey fun deps' hperm => ?_
    have hsame := (horder deps' hperm noCron { id := "x" }).1 (.utc 0)
    rw [hplaced, hplaced] at hsame
    exact Option.some.inj hsame
  intro hmix
  constructor
  · refine (sat_depsSatisfied he deps s).mono ?_
    rintro _ s' ⟨rfl, -⟩
    exact verdict_exact hkey hmix
  · refine fun deps' hperm ps job => ⟨fun now => ?_, fun hj => ?_⟩
    · rw [hplaced, hplaced, placement_of_perm hkey hmix hperm]
    · have hj' : (s.relist job deps').store.jobs.get job.id = some { job with dependsOn := deps' } := by
        show (s.store.jobs.put _).get job.id = _
        rw [Bucket.get_put]
        exact if_pos rfl
      by_cases hp : job.state = .pending
      · have hstates : (s.relist job deps').store.stateOf = s.store.stateOf := by
          funext x
          show ((s.store.jobs.put _).get x).map Job.state = (s.store.jobs.get x).map Job.state
          rw [Bucket.get_put]
          split
          · rename_i hx
            rw [hx, hj]
            rfl
          · rfl
        have hs := sat_tryPromote he ps { job with dependsOn := deps } hj hp
        have hs' := sat_tryPromote he ps { job with dependsOn := deps' } hj' hp
        rw [verdict_congr hstates] at hs'
        exact hs.trans ((congrArg some (placement_of_perm hkey hmix hperm)).trans hs'.symm)
      · have hs := stateAfter_tryPromote_of_ne he ps { job with dependsOn := deps } hj hp
        have hs' := stateAfter_tryPromote_of_ne he ps { job with dependsOn := deps' } hj' hp
        exact hs.trans hs'.symm

instance (st : Store) (d : String) : Decidable (DepMet st d) := inferInstanceAs (Decidable (_ = _))

instance (st : Store) (d : String) : Decidable (DepFailed st d) := inferInstanceAs (Decidable (_ ∨ _))

/-- Two jobs are canceled. -/
def twoCanceled : Server := served [submitting "f" [], submitting "g" [], .cancelJob "f", .cancelJob "g"]

/-- A job with some dependencies. -/
def listing (deps : List String) : Job := { id := "x", dependsOn := deps }

/-- Two dependencies that failed, in either order; and one that failed beside one that is missing. -/
theorem deps_order_free_canceled :
    stateAfter .steady (placeNewJob noCron (listing ["f", "g"]) (.utc 0)) twoCanceled "x" =
      stateAfter .steady (placeNewJob noCron (listing ["g", "f"]) (.utc 0)) twoCanceled "x" ∧
    (exec (handle .steady) (depsSatisfied ["f", "g"]) twoCanceled).1.2 ≠ "" ∧ ¬ Unmixed twoCanceled.store ["m", "f"] := by
  have hkey : twoCanceled.store.jobs.get "" = none := by decide +kernel
  have hfailed : ∀ d ∈ ["f", "g"], DepFailed twoCanceled.store d := by decide +kernel
  have hmix : Unmixed twoCanceled.store ["f", "g"] := fun _ d hd => .inl (hfailed d hd)
  obtain ⟨hverdict, horder⟩ := (deps_order_free steady_reliable hkey ["f", "g"]).2 hmix
  have hperm : ["f", "g"].Perm ["g", "f"] := .swap ..
  refine ⟨(horder _ hperm noCron (listing [])).1 (.utc 0), hverdict.1.2 ⟨"f", by simp, hfailed "f" (by simp)⟩, ?_⟩
  intro hmixed
  have hsame := (((deps_order_free steady_reliable hkey ["m", "f"]).2 hmixed).2 ["f", "m"] (.swap ..) noCron (listing [])).1
    (.utc 0)
  revert hsame
  decide +kernel

/-- A canceled dependency behind a missing one is not noticed, and the job is parked; before it, it is. -/
theorem deps_order_matters :
    (exec (handle .steady) (depsSatisfied ["m", "f"]) twoCanceled).1 = (false, "") ∧
    (exec (handle .steady) (depsSatisfied ["f", "m"]) twoCanceled).1 = (false, "f") ∧
    DepFailed twoCanceled.store "f" ∧
    stateAfter .steady (placeNewJob noCron (listing ["m", "f"]) (.utc 0)) twoCanceled "x" = some .pending ∧
    stateAfter .steady (placeNewJob noCron (listing ["f", "m"]) (.utc 0)) twoCanceled "x" = some .canceled := by
  decide +kernel

end Distsched.Scheduler
