/-
Submissions that run at the same time, and the stored dependency graph. A submission lists the jobs, searches their
graph for a cycle through its own job, and persists the job in a later step; it passes the check unseen if the listing
fails. Two submissions that depend on each other can thus both pass before either is stored.

If the listing of each check succeeds, and no other job has gained a dependency between the listing and the write, then
what is written closes no cycle.
-/
import Distsched.Concurrent.Handlers
import Distsched.Lifecycle.History
import Distsched.Scheduler.Cycles

namespace Distsched.Concurrent

open Scheduler Prog
open Lifecycle (table table_handle table_put)

/-- The jobs that the cycle check of a submission has listed, if it has. -/
abbrev Listing := Option (List Job)

/-- What a submission has found out before it persists its job. -/
def Passed (g : Listing) (id : String) (deps : List String) : Prop :=
  deps = [] ∨ g = none ∨ ∃ js, g = some js ∧ ¬ Relation.TransGen (Edge (depGraph js id deps)) id id

/-- The protocol of a submission. -/
def checking : Protocol Op Op.Resp Listing where
  permits op g := match op with
    | .putJob job => Passed g job.id job.dependsOn
    | _ => True
  answers _ _ _ := True
  next op r g := match op, r with
    | .listJobs, .ok js => some js
    | _, _ => g

/-- A job with dependencies is persisted only after they could be checked, and while the other stored jobs have no
dependency that the check did not see. -/
def ChecksHold : Pool.Guard Op Server Listing
  | .putJob job, g, _, s => job.dependsOn ≠ [] → ∃ js, g = some js ∧
    ∀ x d, x ≠ job.id → DependsOn s x d → d ∈ depGraph js job.id job.dependsOn x
  | _, _, _, _ => True

/-- The handlers of some submissions, about to begin in state `s`. -/
def submissions (cfg : Config) (ps : Cron) (reqs : List (Option Job)) (s : Server) :
    Pool Op Op.Resp Server Listing (Except Status String) :=
  Pool.spawn (submitJob cfg ps) (fun _ => none) reqs s

/-! ## Submissions check before they persist -/

variable {g : Listing} {job : Job}

/-- The operations that are neither a listing nor a write of a job. -/
def Unchecked : Op → Prop
  | .listJobs | .putJob _ => False
  | _ => True

theorem silent_unchecked {op : Op} (h : Unchecked op) : Silent checking op := by
  cases op <;> first | exact h.elim | exact fun _ => ⟨trivial, fun _ _ => rfl⟩

theorem unchecked_meets (op : Op) (h : Unchecked op) : Meets checking (act op) g fun _ g' => g' = g :=
  (silent_unchecked h).meets g

theorem checking_putJob (h : Passed g job.id job.dependsOn) : Meets checking (putJob job) g fun _ g' => g' = g := by
  refine Meets.bind (⟨h, fun _ _ => rfl⟩ : Meets checking (Db.putJob job) g fun _ g' => g' = g) ?_
  rintro r g rfl
  cases r with
  | error e => exact rfl
  | ok u => exact (meets_appendRepl _ (silent_unchecked trivial) (silent_unchecked trivial)).bind fun _ _ h => h

theorem checking_makeReady (ps : Cron) (now : Time) (h : Passed g job.id job.dependsOn) :
    Meets checking (makeReady ps job now) g fun _ g' => g' = g := by
  refine (meets_fireTime ps job now (silent_unchecked trivial)).bind ?_
  rintro ⟨_, delay⟩ g ⟨rfl, t, rfl⟩
  refine Meets.bind (checking_putJob h) ?_
  rintro r g rfl
  cases r with
  | error e => exact rfl
  | ok u =>
    exact meets_armEnqueue _ delay (silent_unchecked trivial) (silent_unchecked trivial)
      (fun _ => silent_unchecked trivial) (fun _ _ _ => silent_unchecked trivial) fun _ _ => silent_unchecked trivial

theorem checking_placeNewJob (ps : Cron) (now : Time) (h : Passed g job.id job.dependsOn) :
    Meets checking (placeNewJob ps job now) g fun _ g' => g' = g := by
  refine (meets_depsSatisfied (fun _ => silent_unchecked trivial) job.dependsOn g).bind ?_
  rintro ⟨ready, failedDep⟩ g rfl
  dsimp only
  split
  · exact Meets.bind (checking_putJob h) fun _ _ h => h
  · split
    · refine Meets.bind (checking_putJob h) ?_
      rintro _ g rfl
      exact unchecked_meets (.addDeps job) trivial
    · exact checking_makeReady ps now h

/-- A submission that is not turned down has passed the check, or could not make it. -/
theorem checking_formsCycle (job : Job) : Meets checking (formsCycle job) none fun cyclic g' =>
    cyclic = false → Passed g' job.id job.dependsOn := by
  unfold formsCycle
  split
  · refine ⟨trivial, fun r _ => ?_⟩
    cases r with
    | error e => exact fun _ => .inr (.inl rfl)
    | ok js => exact fun hpass => .inr (.inr ⟨js, rfl, not_cyclic_of_check hpass⟩)
  · rename_i hlen
    exact fun _ => .inl (List.length_eq_zero_iff.1 (Nat.eq_zero_of_not_pos hlen))

theorem checking_acceptJob (ps : Cron) (job : Job) : Meets checking (acceptJob ps job) none fun _ _ => True := by
  refine (checking_formsCycle job).bind ?_
  intro cyclic g hpass
  cases cyclic with
  | true => exact trivial
  | false =>
    refine Meets.bind (unchecked_meets .now trivial) ?_
    rintro now g rfl
    exact Meets.bind (checking_placeNewJob ps _ (hpass rfl)) fun _ _ _ => meets_pure.2 trivial

theorem checking_submitJob (cfg : Config) (ps : Cron) (req : Option Job) :
    Meets checking (submitJob cfg ps req) none fun _ _ => True := by
  refine (meets_requireLeader cfg (silent_unchecked trivial) (silent_unchecked trivial)).bind ?_
  rintro denied _ rfl
  cases denied with
  | some e => exact trivial
  | none =>
    cases req with
    | none => exact trivial
    | some job =>
      have haccept : Meets checking (assignID job >>= acceptJob ps) none fun _ _ => True := by
        unfold assignID
        split
        · rw [bind_assoc]
          exact Meets.bind (unchecked_meets (.newID "job") trivial) fun id _ h => h ▸ checking_acceptJob ps _
        · exact checking_acceptJob ps job
      dsimp only
      split
      · exact trivial
      · split
        · exact haccept
        · refine Meets.bind (unchecked_meets .now trivial) ?_
          rintro now _ rfl
          split
          · exact trivial
          · exact haccept

/-! ## The stored graph -/

variable {env : Env} {ps : Cron} {s : Server}

theorem dependsOn_of_table {s' : Server} (h : table s' = table s) : DependsOn s' = DependsOn s := by
  funext x d
  show (∃ j, table s' x = some j ∧ _) = ∃ j, table s x = some j ∧ _
  rw [h]

/-- A write that has passed the check, and meets the condition, closes no cycle. -/
theorem acyclic_put {g : Listing} {gs : List Listing} (hs : Graph.Acyclic (DependsOn s))
    (hpass : Passed g job.id job.dependsOn) (hok : ChecksHold (.putJob job) g gs s) :
    Graph.Acyclic (DependsOn { s with store := { s.store with jobs := s.store.jobs.put job } }) := by
  have hget : ∀ x d, DependsOn { s with store := { s.store with jobs := s.store.jobs.put job } } x d →
      if x = job.id then d ∈ job.dependsOn else DependsOn s x d := by
    rintro x d ⟨j, hj, hd⟩
    replace hj : (s.store.jobs.put job).get x = some j := hj
    rw [Bucket.get_put] at hj
    split at hj
    · rename_i hx
      cases hj
      rwa [if_pos hx]
    · rename_i hx
      rw [if_neg hx]
      exact ⟨j, hj, hd⟩
  refine hs.replace (a := job.id) ?_ ?_
  · intro x d hx hd
    have := hget x d hd
    rwa [if_neg hx] at this
  · intro hcycle
    by_cases hnone : job.dependsOn = []
    · obtain ⟨d, hd, _⟩ := Relation.TransGen.head'_iff.1 hcycle
      have := hget job.id d hd
      rw [if_pos rfl, hnone] at this
      cases this
    · obtain ⟨js, rfl, hseen⟩ := hok hnone
      rcases hpass with h | h | ⟨js', hjs, hfree⟩
      · exact hnone h
      · cases h
      · cases hjs
        -- every edge stored after the write is one the check has searched
        refine hfree (Relation.TransGen.mono (fun x d hd => ?_) _ _ hcycle)
        have := hget x d hd
        split at this
        · rename_i hx
          show d ∈ depGraph js job.id job.dependsOn x
          rw [depGraph, if_pos hx]
          exact this
        · rename_i hx
          exact hseen x d hx this

theorem inductive_acyclic : Pool.Inductive (handle env) checking ChecksHold fun s _ => Graph.Acyclic (DependsOn s) := by
  intro op g gs s i _ hs hpermit hok
  refine ⟨trivial, ?_⟩
  by_cases hput : ∃ job, op = .putJob job
  · obtain ⟨job, rfl⟩ := hput
    simp only [handle, Server.write]
    split
    · exact hs
    · exact acyclic_put hs hpermit hok
  · show Graph.Acyclic (DependsOn (handle env op s).2)
    rw [dependsOn_of_table (table_handle fun job he => hput ⟨job, he⟩)]
    exact hs

/-- In every interleaving of submissions, begun with an acyclic store, in which every job with dependencies is persisted
after a listing that succeeded and while the others have no dependency it did not show, the stored jobs stay acyclic. -/
theorem stays_acyclic (hs : Graph.Acyclic (DependsOn s)) (reqs : List (Option Job))
    {c : Pool Op Op.Resp Server Listing (Except Status String)}
    (h : Pool.Reaches (handle env) checking ChecksHold (submissions env.cfg ps reqs s) c) :
    Graph.Acyclic (DependsOn c.state) := by
  have hsound : Pool.Sound checking (fun s _ => Graph.Acyclic (DependsOn s)) (fun _ _ _ => True)
      (submissions env.cfg ps reqs s) := by
    refine ⟨hs, fun i t ht => ?_⟩
    obtain ⟨req, _, rfl⟩ := Pool.thread_spawn ht
    exact checking_submitJob env.cfg ps req
  exact (h.sound inductive_acyclic hsound).inv

/-! ## Runs -/

/-- A test for checks that hold. -/
def checksHold (op : Op) (g : Listing) (_ : List Listing) (s : Server) : Bool := match op with
  | .putJob job => job.dependsOn.isEmpty || match g with
    | some js => s.store.jobs.list.all fun j =>
        j.id = job.id || j.dependsOn.all (· ∈ depGraph js job.id job.dependsOn j.id)
    | none => false
  | _ => true

theorem checksHold_sound (op : Op) (g : Listing) (gs : List Listing) (s : Server) (h : checksHold op g gs s = true) :
    ChecksHold op g gs s := by
  cases op with
  | putJob job =>
    intro hdeps
    have hseen := (Bool.or_eq_true_iff.1 h).resolve_left fun he => hdeps (List.isEmpty_iff.1 he)
    cases g with
    | none => cases hseen
    | some js =>
      refine ⟨js, rfl, ?_⟩
      rintro x d hx ⟨j, hj, hd⟩
      obtain rfl : j.id = x := Bucket.get_id hj
      have hall := List.all_eq_true.1 hseen j (Bucket.mem_list.2 hj)
      simpa [hx] using (List.all_eq_true.1 ((Bool.or_eq_true_iff.1 hall).resolve_left (by simpa using hx)) d hd)
  | _ => trivial

/-- The requests run by turns on a leader that has stored nothing. -/
def interleaved (env : Env) (test : Op → Listing → List Listing → Server → Bool) (reqs : List (Option Job))
    (schedule : List Nat) : Option (Pool Op Op.Resp Server Listing (Except Status String)) :=
  (submissions env.cfg noCron reqs (started env noCron .empty leading)).run (handle env) checking test schedule

theorem acyclic_of_empty (h : s.store.jobs = .empty) : Graph.Acyclic (DependsOn s) := by
  intro x hx
  obtain ⟨_, ⟨j, hj, _⟩, _⟩ := Relation.TransGen.head'_iff.1 hx
  rw [h, Bucket.get_empty] at hj
  cases hj

/-- Two submissions, the second begun before the first has ended. -/
theorem stays_acyclic_chained : ∃ c,
    interleaved .steady checksHold [jobRequest "a" ["b"], jobRequest "c" ["a"]] ([1] ++ List.replicate 8 0 ++ List.replicate 7 1) =
      some c ∧ DependsOn c.state "c" "a" ∧ DependsOn c.state "a" "b" ∧ Graph.Acyclic (DependsOn c.state) := by
  have hend : (interleaved .steady checksHold [jobRequest "a" ["b"], jobRequest "c" ["a"]]
      ([1] ++ List.replicate 8 0 ++ List.replicate 7 1)).map (fun c =>
        ((c.state.store.jobs.get "c").map Job.dependsOn, (c.state.store.jobs.get "a").map Job.dependsOn)) =
      some (some ["a"], some ["b"]) := by
    decide +kernel
  obtain ⟨c, hc, hfacts⟩ := Option.map_eq_some_iff.1 hend
  obtain ⟨hca, hab⟩ := Prod.mk.inj hfacts
  obtain ⟨jc, hjc, hdc⟩ := Option.map_eq_some_iff.1 hca
  obtain ⟨ja, hja, hda⟩ := Option.map_eq_some_iff.1 hab
  refine ⟨c, hc, ⟨jc, hjc, by simp [hdc]⟩, ⟨ja, hja, by simp [hda]⟩, ?_⟩
  exact stays_acyclic (acyclic_of_empty rfl) _ (Pool.reaches_of_run checksHold_sound hc)

/-- Two jobs that wait on each other are both stored: if both checks are made before either job is stored, or if the
listing of the second check fails. -/
theorem cycle_stored :
    (∃ c, Pool.Reaches (handle .steady) checking Pool.free
        (submissions Env.steady.cfg noCron [jobRequest "a" ["b"], jobRequest "b" ["a"]] newLeader) c ∧
      ¬ Graph.Acyclic (DependsOn c.state)) ∧
    ∃ c, Pool.Reaches (handle (.failing (· = 19))) checking Pool.free
        (submissions (Env.failing (· = 19)).cfg noCron [jobRequest "a" ["b"], jobRequest "b" ["a"]]
          (started (.failing (· = 19)) noCron .empty leading)) c ∧
      ¬ Graph.Acyclic (DependsOn c.state) := by
  have hcycle : ∀ s : Server, ((s.store.jobs.get "a").map Job.dependsOn, (s.store.jobs.get "b").map Job.dependsOn) =
      (some ["b"], some ["a"]) → ¬ Graph.Acyclic (DependsOn s) := by
    intro s hs hacyclic
    obtain ⟨hab, hba⟩ := Prod.mk.inj hs
    obtain ⟨ja, hja, hda⟩ := Option.map_eq_some_iff.1 hab
    obtain ⟨jb, hjb, hdb⟩ := Option.map_eq_some_iff.1 hba
    exact hacyclic "a" (.tail (.single ⟨ja, hja, by simp [hda]⟩) ⟨jb, hjb, by simp [hdb]⟩)
  have hboth : (interleaved .steady (fun _ _ _ _ => true) [jobRequest "a" ["b"], jobRequest "b" ["a"]]
      ([0, 0, 1, 1] ++ List.replicate 6 0 ++ List.replicate 6 1)).map (fun c =>
        ((c.state.store.jobs.get "a").map Job.dependsOn, (c.state.store.jobs.get "b").map Job.dependsOn)) =
      some (some ["b"], some ["a"]) := by
    decide +kernel
  have hfail : (interleaved (.failing (· = 19)) (fun _ _ _ _ => true) [jobRequest "a" ["b"], jobRequest "b" ["a"]]
      (List.replicate 8 0 ++ List.replicate 8 1)).map (fun c =>
        ((c.state.store.jobs.get "a").map Job.dependsOn, (c.state.store.jobs.get "b").map Job.dependsOn)) =
      some (some ["b"], some ["a"]) := by
    decide +kernel
  constructor
  · obtain ⟨c, hc, hfacts⟩ := Option.map_eq_some_iff.1 hboth
    exact ⟨c, Pool.reaches_of_run (fun _ _ _ _ _ => trivial) hc, hcycle _ hfacts⟩
  · obtain ⟨c, hc, hfacts⟩ := Option.map_eq_some_iff.1 hfail
    exact ⟨c, Pool.reaches_of_run (fun _ _ _ _ _ => trivial) hc, hcycle _ hfacts⟩

end Distsched.Concurrent
