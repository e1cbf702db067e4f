/-
A submission that runs alone, and the stored dependency graph. The cycle check looks at the graph that the submission would
leave, with the edges of the submitted job replaced; if the stored graph has no cycle, a cycle reachable from that job is the
same as a cycle anywhere.
-/
import Distsched.Scheduler.Cycles
import Distsched.Scheduler.Placement

namespace Distsched.Scheduler

open Prog
open Relation (ReflTransGen TransGen)

variable {env : Env} {s s' : Server} {id : String} {deps : List String}

/-! ## The graph of the check -/

/-- The stored graph with the edges of one job replaced. -/
def Rewired (s : Server) (id : String) (deps : List String) (x d : String) : Prop :=
  if x = id then d ∈ deps else DependsOn s x d

/-- A cycle can be reached from the node. -/
def ReachesCycle (E : String → String → Prop) (n : String) : Prop := ∃ x, ReflTransGen E n x ∧ TransGen E x x

theorem find?_list (b : Bucket Job.id) (n : String) : b.list.find? (fun j => j.id = n) = b.get n := by
  cases hf : b.list.find? (fun j => j.id = n) with
  | some j =>
    have hid : j.id = n := by simpa using List.find?_some hf
    rw [← hid]
    exact (Bucket.mem_list.1 (List.mem_of_find?_eq_some hf)).symm
  | none =>
    cases hj : b.get n with
    | none => rfl
    | some j =>
      have hid : j.id = n := Bucket.get_id hj
      have hmem : j ∈ b.list := Bucket.mem_list.2 (by rw [hid]; exact hj)
      simpa [hid] using List.find?_eq_none.1 hf j hmem

theorem edge_depGraph (s : Server) (id : String) (deps : List String) :
    Edge (depGraph s.store.jobs.list id deps) = Rewired s id deps := by
  funext x d
  unfold Edge depGraph Rewired
  split
  · rfl
  · rw [find?_list]
    cases hj : s.store.jobs.get x <;> simp [DependsOn, hj]

/-- The check, with a listing that succeeds. -/
theorem sat_wouldCreateCycle (hlist : env.fails s.tick = none) (id : String) (deps : List String) :
    Sat (handle env) (wouldCreateCycle id deps) s fun r s' =>
      (r = true ↔ ReachesCycle (Rewired s id deps) id) ∧ s' = s.ticked := by
  have hread : Sat (handle env) Db.listJobs s fun r s₁ => r = .ok s.store.jobs.list ∧ s₁ = s.ticked := by
    unfold Sat
    simp only [Db.listJobs, act, exec_perform, handle, hlist]
    exact ⟨trivial, trivial⟩
  refine hread.bind ?_
  rintro _ _ ⟨rfl, rfl⟩
  refine ⟨?_, rfl⟩
  rw [ReachesCycle, ← edge_depGraph]
  exact check_iff s.store.jobs.list id deps

/-! ## Submissions -/

/-- If the stored graph has no cycle, the rewired one has none exactly if none can be reached from the job. -/
theorem acyclic_rewired (hs : Graph.Acyclic (DependsOn s)) (id : String) (deps : List String) :
    ¬ ReachesCycle (Rewired s id deps) id ↔ Graph.Acyclic (Rewired s id deps) := by
  refine ⟨fun h => ?_, fun h => ?_⟩
  · refine hs.replace (a := id) (fun x y hx hxy => ?_) fun hcycle => h ⟨id, .refl, hcycle⟩
    rwa [Rewired, if_neg hx] at hxy
  · rintro ⟨x, -, hcycle⟩
    exact h x hcycle

/-- A job without dependencies reaches no cycle. -/
theorem not_reachesCycle_nil (s : Server) (id : String) : ¬ ReachesCycle (Rewired s id []) id := by
  rintro ⟨x, hx, hcycle⟩
  have hstuck : ∀ y, ¬ Rewired s id [] id y := by simp [Rewired]
  have hid : id = x := by
    rcases ReflTransGen.cases_head hx with he | ⟨y, hy, -⟩
    · exact he
    · exact absurd hy (hstuck y)
  subst hid
  obtain ⟨y, hy, -⟩ := TransGen.head'_iff.1 hcycle
  exact hstuck y hy

/-- Storing the job rewires the graph. -/
theorem dependsOn_put {j : Job} (hput : s'.store.jobs = s.store.jobs.put j) :
    DependsOn s' = Rewired s j.id j.dependsOn := by
  funext x d
  unfold DependsOn Rewired
  rw [hput, Bucket.get_put]
  split
  · simp
  · rfl

/-- The outcome of a submission under an ID: accepted, if the graph it leaves has no cycle, or refused, with the store as it
was. -/
structure Submits (s : Server) (id : String) (deps : List String) (r : Except Status String) (s' : Server) : Prop where
  accepts : (∃ id', r = .ok id') ↔ Graph.Acyclic (Rewired s id deps)
  stored : ∀ id', r = .ok id' → id' = id ∧ DependsOn s' = Rewired s id deps
  refused : ∀ e, r = .error e → s'.store = s.store

theorem Submits.of_ok (h : Graph.Acyclic (Rewired s id deps)) (hs : DependsOn s' = Rewired s id deps) :
    Submits s id deps (.ok id) s' := by
  refine ⟨iff_of_true ⟨id, rfl⟩ h, ?_, nofun⟩
  rintro _ ⟨⟩
  exact ⟨rfl, hs⟩

theorem Submits.of_error {e : Status} (h : ¬ Graph.Acyclic (Rewired s id deps)) (hs : s'.store = s.store) :
    Submits s id deps (.error e) s' := by
  refine ⟨iff_of_false ?_ h, nofun, fun _ _ => hs⟩
  rintro ⟨_, ⟨⟩⟩

theorem sat_formsCycle (he : env.Reliable) (hs : Graph.Acyclic (DependsOn s)) (job : Job) :
    Sat (handle env) (formsCycle job) s fun r s' =>
      (r = false ↔ Graph.Acyclic (Rewired s job.id job.dependsOn)) ∧ s'.store = s.store := by
  unfold formsCycle
  split
  · refine (sat_wouldCreateCycle (he s.tick) job.id job.dependsOn).mono ?_
    rintro r _ ⟨hr, rfl⟩
    refine ⟨?_, rfl⟩
    rw [← acyclic_rewired hs, ← hr, Bool.not_eq_true]
  · rename_i hlen
    obtain hnil : job.dependsOn = [] := List.length_eq_zero_iff.1 (by omega)
    refine ⟨iff_of_true rfl ?_, rfl⟩
    rw [hnil]
    exact (acyclic_rewired hs job.id []).1 (not_reachesCycle_nil s job.id)

theorem rewired_of_store (id : String) (deps : List String) (h : s'.store = s.store) : Rewired s' id deps = Rewired s id deps := by
  funext x d
  unfold Rewired DependsOn
  rw [h]

theorem sat_acceptJob (he : env.Reliable) (hs : Graph.Acyclic (DependsOn s)) (ps : Cron) (job : Job) :
    Sat (handle env) (acceptJob ps job) s fun r s' => Submits s job.id job.dependsOn r s' := by
  refine (sat_formsCycle he hs job).bind ?_
  rintro cyclic s₁ ⟨hr, h₁⟩
  cases cyclic with
  | true => exact .of_error (fun h => by cases hr.2 h) h₁
  | false =>
    have hnow : Sat (handle env) timeNow s₁ fun _ s₂ => s₂.store = s₁.store := rfl
    refine hnow.bind fun now s₂ h₂ => ?_
    refine (sat_placeNewJob he ps _ _ s₂).bind ?_
    rintro _ s₃ ⟨j, hput, hid, hdeps, -⟩
    refine .of_ok (hr.1 rfl) ?_
    show DependsOn s₃ = _
    rw [dependsOn_put hput, hid, hdeps]
    exact rewired_of_store _ _ (h₂.trans h₁)

theorem sat_assignID (job : Job) (s : Server) : Sat (handle env) (assignID job) s fun j s' =>
    j = { job with id := submitID env s.minted job } ∧ s'.store = s.store := by
  unfold assignID submitID
  split
  · exact ⟨rfl, rfl⟩
  · exact ⟨rfl, rfl⟩

/-- A valid submission to a leader. -/
theorem sat_submitJob (he : env.Reliable) (hs : Graph.Acyclic (DependsOn s)) (cfg : Config) {ps : Cron} {job : Job}
    (hlead : s.node.isLeader = true) (hcmd : job.command ≠ "")
    (hcron : job.cronExpr = "" ∨ ∃ next, ps job.cronExpr = .ok next) :
    Sat (handle env) (submitJob cfg ps (some job)) s fun r s' =>
      Submits s (submitID env s.minted job) job.dependsOn r s' := by
  have haccept : ∀ s₁ : Server, s₁.store = s.store → s₁.minted = s.minted →
      Sat (handle env) (assignID job >>= acceptJob ps) s₁ fun r s' =>
        Submits s (submitID env s.minted job) job.dependsOn r s' := by
    intro s₁ hstore hminted
    refine (sat_assignID job s₁).bind ?_
    rintro j s₂ ⟨rfl, h₂⟩
    rw [hminted]
    have h₂ : s₂.store = s.store := h₂.trans hstore
    have hs₂ : Graph.Acyclic (DependsOn s₂) := by
      unfold DependsOn
      rw [h₂]
      exact hs
    refine (sat_acceptJob he hs₂ ps { job with id := submitID env s.minted job }).mono fun r s' h => ?_
    have hgraph := rewired_of_store (submitID env s.minted job) job.dependsOn h₂
    exact ⟨hgraph ▸ h.accepts, hgraph ▸ h.stored, fun e he => (h.refused e he).trans h₂⟩
  refine (requireLeader_leading cfg hlead).bind ?_
  rintro _ _ ⟨rfl, rfl⟩
  dsimp only
  rw [if_neg hcmd]
  split
  · exact haccept _ rfl rfl
  · rename_i hexpr
    obtain ⟨next, hnext⟩ := hcron.resolve_left hexpr
    have hnow : Sat (handle env) timeNow s.ticked fun _ s₂ => s₂ = s.ticked.ticked := rfl
    refine hnow.bind ?_
    rintro now _ rfl
    simp only [nextCron, hnext]
    exact haccept _ rfl rfl

/-- The cycle check is exact. Over any stored jobs, its search ends within the depth the model gives it, and it finds a cycle
exactly if the stored graph, with the edges of the new job replaced, has one that can be reached from that job. So where the
stored graph has no cycle, a valid submission that runs alone is accepted exactly if the graph it leaves has none. -/
theorem cycle_check_exact (hlist : env.fails s.tick = none) :
    (∀ (id : String) (deps : List String),
      (∀ fuel, (s.store.jobs.list.map fun j => j.dependsOn.length).sum + deps.length < fuel →
        dfs (depGraph s.store.jobs.list id deps) fuel [] id [] = dfs (depGraph s.store.jobs.list id deps)
          ((s.store.jobs.list.map fun j => j.dependsOn.length).sum + deps.length + 1) [] id []) ∧
      Sat (handle env) (wouldCreateCycle id deps) s fun r _ =>
        r = true ↔ ∃ x, ReflTransGen (Rewired s id deps) id x ∧ TransGen (Rewired s id deps) x x) ∧
    (env.Reliable → Graph.Acyclic (DependsOn s) → s.node.isLeader = true → ∀ (cfg : Config) (ps : Cron) (job : Job),
      job.command ≠ "" → (job.cronExpr = "" ∨ ∃ next, ps job.cronExpr = .ok next) →
      Sat (handle env) (submitJob cfg ps (some job)) s fun r s' =>
        ((∃ id, r = .ok id) ↔ Graph.Acyclic (Rewired s (submitID env s.minted job) job.dependsOn)) ∧
        ∀ id, r = .ok id → id = submitID env s.minted job ∧
          ∀ x d, DependsOn s' x d ↔ Rewired s (submitID env s.minted job) job.dependsOn x d) := by
  refine ⟨fun id deps => ⟨fun fuel => check_fuel _ id deps, ?_⟩, fun he hs hlead cfg ps job hcmd hcron => ?_⟩
  · exact (sat_wouldCreateCycle hlist id deps).mono fun _ _ h => h.1
  · refine (sat_submitJob he hs cfg hlead hcmd hcron).mono fun r s' h => ⟨h.accepts, fun id hid => ?_⟩
    obtain ⟨hid, hgraph⟩ := h.stored id hid
    exact ⟨hid, fun x d => by rw [hgraph]⟩

/-- A job that depends on itself. -/
def selfish : Job := { id := "a", spec := some { command := "true" }, dependsOn := ["a"] }

theorem cycle_check_exact_selfish :
    (∃ x, ReflTransGen (Rewired chained "r" ["b"]) "r" x ∧ TransGen (Rewired chained "r" ["b"]) x x) ∧
    ¬ Graph.Acyclic (Rewired newLeader "a" ["a"]) := by
  have hcheck : (exec (handle .steady) (wouldCreateCycle "r" ["b"]) chained).1 = true := by decide +kernel
  have hsubmit : (exec (handle .steady) (submitJob .defaults noCron (some selfish)) newLeader).1.toOption = none ∧
      newLeader.store.jobs.list = [] ∧ newLeader.node.isLeader = true := by decide +kernel
  obtain ⟨hrefused, hempty, hlead⟩ := hsubmit
  have hacyclic : Graph.Acyclic (DependsOn newLeader) := by
    intro x hx
    obtain ⟨y, ⟨j, hj, -⟩, -⟩ := TransGen.head'_iff.1 hx
    have hmem : j ∈ newLeader.store.jobs.list := Bucket.mem_list.2 (by rw [Bucket.get_id hj]; exact hj)
    rw [hempty] at hmem
    cases hmem
  refine ⟨((cycle_check_exact (s := chained) (steady_reliable _)).1 "r" ["b"]).2.1 hcheck, fun hrewired => ?_⟩
  obtain ⟨id, hid⟩ := ((cycle_check_exact (s := newLeader) (steady_reliable _)).2 steady_reliable hacyclic hlead .defaults noCron
    selfish (by decide) (.inl rfl)).1.2 hrewired
  rw [hid] at hrefused
  cases hrefused

end Distsched.Scheduler
