/-
Failure reaches the dependents: when an activity leaves a job newly FAILED or CANCELED, no PENDING job lists it any more.

A cascade sees to this as long as everyone who waits is in the dependency index. That is so between any two activities,
and the two exceptions are the activities that end a job without a cascade over the full index: a submission that is
canceled at once, and the first pass of a rebuild, which ends orphans while the index is only partly filled.
-/
import Distsched.Lifecycle.Entries
import Distsched.Lifecycle.Orphans

namespace Distsched.Lifecycle

open Scheduler Prog

variable {env : Env} {ps : Cron} {s : Server} {b b' : Board} {x : String} {j : Job}

/-! ## Submissions -/

/-- A submission is stored FAILED or CANCELED exactly if the first of its dependencies that has not SUCCEEDED is. -/
theorem does_placeNewJob_doomed (he : Sound env) (ps : Cron) (j : Job) (now : Time) (hnamed : b.jobs "" = none) :
    DoesOn env (placeNewJob ps j now) b fun _ b' =>
      ∃ j', b'.jobs = Function.update b.jobs j.id (some j') ∧ (Broken j'.state ↔ Doomed b.jobs j.dependsOn) := by
  refine ((does_depsSatisfied_doomed he j.dependsOn)).bind ?_
  rintro ⟨ready, failedDep⟩ b ⟨rfl, hdoom, hname⟩
  dsimp only at hdoom hname ⊢
  split
  · rename_i hf
    refine (does_putJob he _).bind ?_
    rintro _ _ ⟨rfl, rfl⟩
    exact Does.pure ⟨_, rfl, iff_of_true (.inr rfl) (hdoom hf)⟩
  · rename_i hf
    have hnot : ¬ Doomed b.jobs j.dependsOn := fun hd => hf (hname hnamed hd)
    split
    · refine (does_putJob he _).bind ?_
      rintro _ _ ⟨rfl, rfl⟩
      refine (does_addDeps j).mono ?_
      rintro _ _ rfl
      exact ⟨_, rfl, iff_of_false (by rintro (h | h) <;> cases h) hnot⟩
    · refine (does_makeReady he ps j now).mono ?_
      rintro _ b' ⟨j', hp, hs, hsch⟩
      refine ⟨j', ?_, iff_of_false ?_ hnot⟩
      · rw [hsch.jobs, ← id_of_plan hp]
        rfl
      · rw [hs]
        rintro (h | h) <;> cases h

theorem does_submitJob_doomed (he : Sound env) (cfg : Config) (ps : Cron) (job : Job) (hnamed : b.jobs "" = none) :
    DoesOn env (submitJob cfg ps (some job)) b fun _ b' =>
      (¬ b.Accepts ps (submitID env b.minted job) job ∧ b'.jobs = b.jobs) ∨
      (b.Accepts ps (submitID env b.minted job) job ∧ ∃ j',
        b'.jobs = Function.update b.jobs (submitID env b.minted job) (some j') ∧
          (Broken j'.state ↔ Doomed b.jobs job.dependsOn)) := by
  refine does_submitJob_rule he cfg ps (fun b₁ hd hacc => .inl ⟨hacc, hd.jobs⟩) fun b₁ t hd hacc => ?_
  rw [← hd.jobs] at hnamed
  refine (does_placeNewJob_doomed he ps _ _ hnamed).mono ?_
  rintro _ b' ⟨j', hjobs, hdoom⟩
  rw [hd.jobs] at hjobs hdoom
  exact .inr ⟨hacc, j', hjobs, hdoom⟩

/-! ## Every activity -/

/-- The submission passes the checks of `SubmitJob`. -/
def Accepted (env : Env) (ps : Cron) (s : Server) (job : Job) : Prop :=
  (view env s).Accepts ps (submitID env s.minted job) job

/-- The activity creates a job under the ID. -/
def Creates (env : Env) (ps : Cron) (s : Server) (c : Call) (x : String) : Prop :=
  ∃ job, c = .submitJob (some job) ∧ x = submitID env s.minted job ∧ Accepted env ps s job

/-- A submission whose first unmet dependency has failed is listed by no PENDING job, and a rebuild finds no PENDING job that
lists a job ended in its first pass and is not itself to be ended. -/
def SpreadsWhen (env : Env) (ps : Cron) (s : Server) : Call → Prop
  | .submitJob (some job) => Accepted env ps s job → Doomed s.store.jobs.get job.dependsOn →
    ∀ y j, y ≠ submitID env s.minted job → s.store.jobs.get y = some j → j.state = .pending →
      submitID env s.minted job ∉ j.dependsOn
  | .becomeLeader => ∀ y j, s.store.jobs.get y = some j → j.state = .pending → ∀ x ∈ j.dependsOn,
    Felled ps s.store.jobs.list.reverse x →
      Felled ps s.store.jobs.list.reverse y ∨ Dropped s.store.jobs.get (Felled ps s.store.jobs.list.reverse) y
  | _ => True

/-- Whatever the activity leaves newly FAILED or CANCELED, or creates so, is listed by no PENDING job. -/
def Reaches (env : Env) (ps : Cron) (s : Server) (c : Call) (b' : Board) : Prop :=
  ∀ x j, b'.jobs x = some j → Broken j.state → (s.store.jobs.get x ≠ some j ∨ Creates env ps s c x) → Unlisted b' x

theorem Spreads.reaches {c : Call} (h : Spreads (view env s) b') (hc : ∀ job, c ≠ .submitJob (some job)) :
    Reaches env ps s c b' := by
  rintro x j hj hb (hnew | ⟨job, rfl, -⟩)
  · exact h x j hj hb hnew
  · exact absurd rfl (hc job)

theorem reaches_submitJob (he : Sound env) (cfg : Config) (ps : Cron) (job : Job) (hnamed : s.store.jobs.get "" = none) :
    DoesOn env (submitJob cfg ps (some job)) (view env s) fun _ b' =>
      Reaches env ps s (.submitJob (some job)) b' ↔ SpreadsWhen env ps s (.submitJob (some job)) := by
  refine (does_submitJob_doomed he cfg ps job hnamed).mono ?_
  rintro _ b' (⟨hacc, hjobs⟩ | ⟨hacc, j', hjobs, hdoom⟩)
  · refine iff_of_true ?_ fun h => absurd h hacc
    rintro x j hj hb (hnew | ⟨_, h, -, hacc'⟩)
    · rw [hjobs] at hj
      exact absurd hj hnew
    · cases h
      exact absurd hacc' hacc
  · have hself : b'.jobs (submitID env s.minted job) = some j' := by
      rw [hjobs]
      exact Function.update_self ..
    have hother : ∀ y, y ≠ submitID env s.minted job → b'.jobs y = s.store.jobs.get y := fun y hy => by
      rw [hjobs]
      exact Function.update_of_ne hy ..
    constructor
    · intro h _ hd y jy hy hjy hs
      exact h _ j' hself (hdoom.2 hd) (.inr ⟨job, rfl, rfl, hacc⟩) y jy ((hother y hy).trans hjy) hs
    · intro h x j hj hb hnew
      by_cases hx : x = submitID env s.minted job
      · subst hx
        cases hself.symm.trans hj
        intro y jy hjy hs
        have hy : y ≠ submitID env s.minted job := by
          rintro rfl
          cases hself.symm.trans hjy
          rw [hs] at hb
          rcases hb with hb | hb <;> cases hb
        exact h hacc (hdoom.1 hb) y jy hy ((hother y hy).symm.trans hjy) hs
      · rcases hnew with hnew | ⟨job', h', hid, -⟩
        · exact absurd ((hother x hx).symm.trans hj) hnew
        · cases h'
          exact absurd hid hx

theorem reaches_onBecomeLeader (he : Sound env) (ps : Cron) (hnamed : s.store.jobs.get "" = none) :
    DoesOn env (onBecomeLeader ps) (view env s) fun _ b' =>
      Reaches env ps s .becomeLeader b' ↔ SpreadsWhen env ps s .becomeLeader := by
  refine (rebuilds_rebuildSchedulingState he ps (b := view env s) hnamed (B := s.store.jobs) rfl).bind ?_
  intro _ b₁ hb₁
  refine (does_seedReplication he).mono ?_
  rintro _ _ rfl
  refine Iff.trans ⟨fun h x j hj hb hnew => h x j hj hb (.inl hnew), fun h => ?_⟩ hb₁.spreads_iff
  exact Spreads.reaches h fun _ h => Call.noConfusion h

theorem reaches_call (he : Sound env) (ps : Cron) (hs : Serving env s) (hset : Settled (view env s))
    (hnamed : s.store.jobs.get "" = none) (c : Call) :
    Reaches env ps s c (view env (after env ps s c)) ↔ SpreadsWhen env ps s c := by
  suffices hrun : DoesOn env (c.prog env.cfg ps) (view env s) fun _ b' => Reaches env ps s c b' ↔ SpreadsWhen env ps s c by
    obtain ⟨b', ⟨-, rfl⟩, h⟩ := hrun s ⟨hs, rfl⟩
    exact h
  -- the activities without a condition
  have hfree : (∀ job, c ≠ .submitJob (some job)) → SpreadsWhen env ps s c →
      (DoesOn env (c.prog env.cfg ps) (view env s) fun _ b' => Spreads (view env s) b') →
      DoesOn env (c.prog env.cfg ps) (view env s) fun _ b' => Reaches env ps s c b' ↔ SpreadsWhen env ps s c :=
    fun hc hwhen h => h.mono fun _ _ hsp => iff_of_true (hsp.reaches hc) hwhen
  cases c with
  | submitJob req =>
    cases req with
    | none =>
      refine hfree (fun _ h => Option.some_ne_none _ (Call.submitJob.inj h).symm) trivial
        (DoesOn.ignore ((does_submitJob_none env.cfg ps).mono ?_))
      rintro _ b' rfl
      exact fun _ _ hj _ hn => absurd hj hn
    | some job => exact DoesOn.ignore (reaches_submitJob he env.cfg ps job hnamed)
  | cancelJob x =>
    refine hfree (fun _ h => Call.noConfusion h) trivial (DoesOn.ignore ((cascades_cancelJob he env.cfg x).mono ?_))
    rintro _ b' (rfl | ⟨b₁, hm, hcas⟩)
    · exact fun _ _ hj _ hn => absurd hj hn
    · exact (Spreading.of_root hset.recorded hm rfl (fun _ h => nomatch h) hcas).spreads
  | reportTask τ result err =>
    refine hfree (fun _ h => Call.noConfusion h) trivial
      (DoesOn.ignore ((deeds_reportTask he env.cfg ps τ result err).mono fun _ _ h => ?_))
    exact (h.spreading hset.recorded).spreads
  | reaper =>
    exact hfree (fun _ h => Call.noConfusion h) trivial
      ((deeds_reaperTick he env.cfg ps).mono fun _ _ h => (h.spreading hset.recorded).spreads)
  | becomeLeader => exact reaches_onBecomeLeader he ps hnamed
  | pollTask w n =>
    refine hfree (fun _ h => Call.noConfusion h) trivial (DoesOn.ignore ((does_pollTask he env.cfg w n).mono fun _ _ hm => ?_))
    exact (hm.spares (fun _ => id) (fun _ => id) fun _ _ => id).spreads
  | registerWorker w =>
    refine hfree (fun _ h => Call.noConfusion h) trivial (DoesOn.ignore ((does_registerWorker he env.cfg w).mono ?_))
    rintro _ b' (rfl | ⟨τ, rfl⟩) <;> exact fun _ _ hj _ hn => absurd hj hn
  | heartbeat w n =>
    refine hfree (fun _ h => Call.noConfusion h) trivial (DoesOn.ignore ((does_heartbeat env.cfg w n).mono ?_))
    rintro _ _ rfl
    exact fun _ _ hj _ hn => absurd hj hn
  | timer x =>
    refine hfree (fun _ h => Call.noConfusion h) trivial
      ((does_timerFired he x).mono fun _ _ hm => Spares.spreads fun y j hj hb => ?_)
    exact hm.of_broken nofun nofun nofun hj hb

/-! ## Runs -/

theorem submitID_ne_empty (env : Env) (n : Nat) (j : Job) : submitID env n j ≠ "" := by
  unfold submitID
  split
  · intro h
    have := congrArg String.length h
    simp at this
  · assumption

/-- No record has an empty ID if none had at the start. -/
theorem runs_unnamed {ps : Cron} {ok : Server → Event → Prop} {store : Store} {node : Cluster.Node} {s : Server}
    (hstore : store.jobs.get "" = none) (h : Runs env ps ok (started env ps store node) s) :
    s.store.jobs.get "" = none := by
  have hkeep : ∀ {T T' : Table}, Entries (fun _ x => x ≠ "") T T' → T "" = none → T' "" = none := by
    intro T T' h hn
    induction h with
    | refl => exact hn
    | tail _ he ih =>
      cases he with
      | revise hj =>
        rw [Function.update_of_ne, ih]
        rintro h
        rw [← h, ih] at hj
        cases hj
      | place hp => rw [Function.update_of_ne (Ne.symm hp), ih]
  exact hkeep (runs_entries (fun s _ _ job _ => submitID_ne_empty env s.minted job) h)
    (hkeep (restart_entries node (.off store 0 0)) hstore)

/-- In every state of a run: an activity leaves no PENDING job that lists a job which it has left newly FAILED or CANCELED, or
has created so, exactly if it meets the condition. -/
theorem failure_reaches_dependents {store : Store} {node : Cluster.Node} (he : Sound env) (hn : node.isLeader = true)
    (hstore : store.jobs.get "" = none) (h : Runs env ps (fun _ _ => True) (started env ps store node) s) (c : Call) :
    (∀ x j, (after env ps s c).store.jobs.get x = some j → j.state = .failed ∨ j.state = .canceled →
      s.store.jobs.get x ≠ some j ∨ Creates env ps s c x →
      ∀ y jy, (after env ps s c).store.jobs.get y = some jy → jy.state = .pending → x ∉ jy.dependsOn) ↔
    SpreadsWhen env ps s c := by
  obtain ⟨hs, hset⟩ := Runs.board (I := Settled) he hn (fun _ h => h.settled) (fun _ _ _ _ hi ht => hi.turn ht) h
  exact reaches_call he ps hs hset (runs_unnamed hstore h) c

/-- `f` is RUNNING on its only attempt, `p` waits on it and on a job that is missing, and `q` on two that are missing. -/
def orphaned : Server := served [.registerWorker (some { id := "w" }),
  .submitJob (some { id := "f", spec := some { command := "true" }, retryPolicy := some { maxAttempts := 1 } }),
  .pollTask "w" 1, submitting "p" ["f", "m"], submitting "q" ["m", "n"]]

theorem failure_reaches_dependents_orphaned :
    ∃ j, (after .steady noCron orphaned .becomeLeader).store.jobs.get "f" = some j ∧ j.state = .failed ∧
      ∀ y jy, (after .steady noCron orphaned .becomeLeader).store.jobs.get y = some jy → jy.state = .pending →
        "f" ∉ jy.dependsOn := by
  have hjobs : orphaned.store.jobs.list.map (fun j => (j.id, j.state, j.dependsOn)) =
      [("f", .running, []), ("p", .pending, ["f", "m"]), ("q", .pending, ["m", "n"])] := by decide +kernel
  have hstate : ((after .steady noCron orphaned .becomeLeader).store.jobs.get "f").map Job.state = some .failed := by
    decide +kernel
  have hlisted : ∀ j ∈ orphaned.store.jobs.list, (j.id, j.state, j.dependsOn) ∈
      [("f", JobState.running, []), ("p", .pending, ["f", "m"]), ("q", .pending, ["m", "n"])] := fun j hj => by
    rw [← hjobs]
    exact List.mem_map_of_mem hj
  have hrun : Runs .steady noCron (fun _ _ => True) (started .steady noCron .empty leading) orphaned :=
    ((((Runs.refl.call trivial rfl).call trivial rfl).call trivial rfl).call trivial rfl).call trivial rfl
  have hwhen : SpreadsWhen .steady noCron orphaned .becomeLeader := by
    intro y jy hjy hs x hx hfelled
    obtain ⟨jx, hjx, rfl, -⟩ := hfelled.listed
    have hmem := hlisted jy (Bucket.mem_list.2 (Bucket.get_id hjy ▸ hjy))
    have hmemx := hlisted jx (List.mem_reverse.1 hjx)
    by_cases hy : Felled noCron orphaned.store.jobs.list.reverse y
    · exact .inl hy
    · refine .inr (.looked hjy hs hy ?_)
      -- `p` lists `f` first, and `q` lists no job that is stored
      simp only [List.mem_cons, Prod.mk.injEq, List.not_mem_nil, or_false] at hmem hmemx
      rcases hmem with ⟨-, hrun, -⟩ | ⟨-, -, hdeps⟩ | ⟨-, -, hdeps⟩
      · rw [hrun] at hs
        cases hs
      · rw [hdeps] at hx ⊢
        have hxf : jx.id = "f" := by grind
        rw [hxf] at hfelled
        exact .inl (.inl hfelled)
      · rw [hdeps] at hx
        grind
  obtain ⟨j, hj, hs⟩ := Option.map_eq_some_iff.1 hstate
  refine ⟨j, hj, hs, (failure_reaches_dependents steady_sound rfl (by decide +kernel) hrun .becomeLeader).2 hwhen "f" j hj
    (.inl hs) (.inl fun hold => ?_)⟩
  have hmem := hlisted j (Bucket.mem_list.2 (Bucket.get_id hold ▸ hold))
  rw [hs] at hmem
  simp at hmem

/-- In some state of a run from an empty store, the activity leaves `x` newly FAILED or CANCELED and `y` PENDING on it. -/
def Misses (c : Call) (x y : String) : Prop :=
  ∃ s, Runs .steady noCron (fun _ _ => True) (started .steady noCron .empty leading) s ∧
    ∃ j, (after .steady noCron s c).store.jobs.get x = some j ∧ (j.state = .failed ∨ j.state = .canceled) ∧
      s.store.jobs.get x ≠ some j ∧
      ∃ jy, (after .steady noCron s c).store.jobs.get y = some jy ∧ jy.state = .pending ∧ x ∈ jy.dependsOn

theorem Misses.of_states (st : JobState) (deps : List String) {s : Server} {c : Call} {x y : String}
    (h : Runs .steady noCron (fun _ _ => True) (started .steady noCron .empty leading) s)
    (hx : ((after .steady noCron s c).store.jobs.get x).map Job.state = some st) (hst : st = .failed ∨ st = .canceled)
    (hold : (s.store.jobs.get x).map Job.state ≠ some st)
    (hy : ((after .steady noCron s c).store.jobs.get y).map (fun j => (j.state, j.dependsOn)) = some (.pending, deps))
    (hdeps : x ∈ deps) : Misses c x y := by
  obtain ⟨j, hj, rfl⟩ := Option.map_eq_some_iff.1 hx
  obtain ⟨jy, hjy, hsy⟩ := Option.map_eq_some_iff.1 hy
  simp only [Prod.mk.injEq] at hsy
  refine ⟨s, h, j, hj, hst, fun he => hold ?_, jy, hjy, hsy.1, hsy.2 ▸ hdeps⟩
  rw [he]
  rfl

/-- `b` waits on `a`, which is not submitted yet. When it is, its dependency `x` has been canceled, and it is turned down
at once while `b` still waits on it. And a rebuild finds `f` RUNNING with no attempt left before it has recorded that `p`
waits on it; the second pass does not get to `f`, as `p` lists a missing job first. -/
theorem failure_missed : Misses (submitting "a" ["x"]) "a" "b" ∧ Misses .becomeLeader "f" "p" := by
  constructor
  · exact .of_states .canceled ["a"] (s := served [submitting "x" [], submitting "b" ["a"], .cancelJob "x"])
      (((Runs.refl.call trivial rfl).call trivial rfl).call trivial rfl)
      (by decide +kernel) (.inr rfl) (by decide +kernel) (by decide +kernel) (by simp)
  · exact .of_states .failed ["m", "f"] (s := served [.registerWorker (some { id := "w" }),
        .submitJob (some { id := "f", spec := some { command := "true" }, retryPolicy := some { maxAttempts := 1 } }),
        .pollTask "w" 1, submitting "p" ["m", "f"]])
      ((((Runs.refl.call trivial rfl).call trivial rfl).call trivial rfl).call trivial rfl)
      (by decide +kernel) (.inl rfl) (by decide +kernel) (by decide +kernel) (by simp)

end Distsched.Lifecycle
