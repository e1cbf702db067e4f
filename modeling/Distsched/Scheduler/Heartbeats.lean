/-
What a leader keeps of its workers (`internal/scheduler/worker.go`, `recovery.go`). Worker records stand in a bucket of the
store and in a cache; every change goes through `putWorker`, and a new process loads its cache before it leads. With one
handler after the other the cache of a leader is the bucket, whatever writes fail and wherever the process crashes.

A sweep compares the last heartbeat of each cached worker with the clock. A worker that is never silent for longer than half
the timeout at the moment of a sweep stays ALIVE, and a sweep takes no lease with time to run from a worker heard of within
the timeout.
-/
import Distsched.Scheduler.Sweep
import Mathlib.Order.Lattice.Nat
import Mathlib.Order.ConditionallyCompleteLattice.Indexed
import Mathlib.Data.Int.ConditionallyCompleteOrder

namespace Distsched.Scheduler

open Prog

variable {env : Env} {ps : Cron} {s s' : Server} {op : Op} {n : Cluster.Node}

/-! ## The cache and the bucket -/

/-- Neither touches a worker record nor changes the node. -/
def OffBooks : Op → Prop
  | .putWorker _ | .cacheWorker _ | .gainLead _ => False
  | _ => True

theorem offBooks_of_moves (h : Moves op) : OffBooks op := by
  cases op <;> first | exact h.elim | trivial

theorem handle_offBooks (hop : OffBooks op) (s : Server) : (handle env op s).2.workers = s.workers ∧
    (handle env op s).2.store.workers = s.store.workers ∧ (handle env op s).2.node = s.node := by
  cases op with
  | putWorker | cacheWorker | gainLead => exact hop.elim
  | putJob | putDeadLetter =>
    simp only [handle, Server.write]
    split <;> exact ⟨rfl, rfl, rfl⟩
  | _ => exact ⟨rfl, rfl, rfl⟩

theorem offBooks_requireLeader (cfg : Config) : Uses OffBooks (requireLeader cfg) := uses_requireLeader cfg trivial trivial

theorem offBooks_onBecomeLeader (ps : Cron) : Uses OffBooks (onBecomeLeader ps) :=
  uses_onBecomeLeader (fun _ => offBooks_of_moves) ps trivial trivial trivial fun _ _ => trivial

theorem offBooks_workerIDFor (w : WorkerInfo) : Uses OffBooks (workerIDFor w) :=
  uses_workerIDFor (fun _ => offBooks_of_moves) w

theorem offBooks_requeues (ps : Cron) (ids : List String) (now : Int) : Uses OffBooks (do
    ids.forM fun id => requeueLeasesForWorker ps id "worker missed heartbeats"
    let ls ← act .listLeases
    ((ls.filter fun p => now > p.2.deadline).map Prod.fst).forM fun τ => requeueLease ps τ "lease deadline exceeded") :=
  uses_requeues (fun _ => offBooks_of_moves) ps (fun _ => trivial) ids now

/-- The activities that are not about workers. -/
def Call.onJobs : Call → Bool
  | .registerWorker _ | .heartbeat .. | .reaper => false
  | _ => true

theorem offBooks_call (cfg : Config) (ps : Cron) {c : Call} (hc : c.onJobs = true) : Uses OffBooks (c.prog cfg ps) := by
  have hm : ∀ op, Moves op → OffBooks op := fun _ => offBooks_of_moves
  cases c with
  | submitJob job => exact Uses.bind (uses_submitJob hm cfg ps trivial job) fun _ => Uses.pure _
  | cancelJob x => exact Uses.bind (uses_cancelJob hm cfg trivial x) fun _ => Uses.pure _
  | pollTask w n =>
    exact Uses.bind (uses_pollTask hm cfg trivial trivial (fun _ _ => trivial) (fun _ _ => trivial) n) fun _ => Uses.pure _
  | reportTask τ result error =>
    exact Uses.bind (uses_reportTask hm cfg ps trivial (fun _ => trivial) (fun _ _ => trivial) τ result error) fun _ =>
      Uses.pure _
  | timer x => exact uses_timerFired hm (fun _ => trivial) x
  | becomeLeader => exact offBooks_onBecomeLeader ps
  | registerWorker | heartbeat | reaper => cases hc

/-- What `putWorker` can do to the records. -/
inductive Enters (env : Env) (w : WorkerInfo) (s : Server) : Except String Unit → Server → Prop
  | failed {e : String} (he : env.fails s.tick = some e) : Enters env w s (.error e) s.ticked
  | stored {s' : Server} (he : env.fails s.tick = none)
    (hs : s' = { s with
      store := { s.store with workers := s.store.workers.put w }, workers := s.workers.insert w.id w, repl := s'.repl,
      tick := s'.tick }) : Enters env w s (.ok ()) s'

theorem putWorker_enters (w : WorkerInfo) (s : Server) : Sat (handle env) (putWorker w) s fun r s' => Enters env w s r s' := by
  cases he : env.fails s.tick with
  | some e =>
    have hput : Sat (handle env) (Db.putWorker w) s fun r s₁ => r = .error e ∧ s₁ = s.ticked := by
      simp only [Sat, Db.putWorker, act, exec_perform, handle, Server.write, he]
      exact ⟨trivial, trivial⟩
    refine hput.bind ?_
    rintro _ _ ⟨rfl, rfl⟩
    exact .failed he
  | none =>
    have hput : Sat (handle env) (Db.putWorker w) s fun r s₁ =>
        r = .ok () ∧ s₁ = { s.ticked with store := { s.store with workers := s.store.workers.put w } } := by
      simp only [Sat, Db.putWorker, act, exec_perform, handle, Server.write, he]
      exact ⟨trivial, trivial⟩
    refine hput.bind ?_
    rintro _ _ ⟨rfl, rfl⟩
    refine (appendRepl_frame _ _).bind fun _ s₂ h₂ => ?_
    refine Sat.bind (Q := fun _ s₃ => s₃ = (handle env (.cacheWorker w) s₂).2) rfl ?_
    rintro _ _ rfl
    refine .stored he ?_
    rw [h₂]
    rfl

/-- The election state is `n`, and if that leads, every worker is cached as it is stored, and no other. -/
structure CachedAsStored (n : Cluster.Node) (s : Server) : Prop where
  node : s.node = n
  cached : n.isLeader = true → ∀ id : String, s.workers[id]? = s.store.workers.get id

theorem cachedAsStored_handle (hop : OffBooks op) (h : CachedAsStored n s) : CachedAsStored n (handle env op s).2 := by
  obtain ⟨hw, hst, hn⟩ := @handle_offBooks env op hop s
  constructor
  · rw [hn]
    exact h.node
  · rw [hw, hst]
    exact h.cached

theorem CachedAsStored.run {α : Type} {p : M α} (hp : Uses OffBooks p) (h : CachedAsStored n s) :
    Sat (handle env) p s fun _ => CachedAsStored n :=
  Uses.keeps (I := CachedAsStored n) (fun _ _ => cachedAsStored_handle) hp h

theorem CachedAsStored.enters {w : WorkerInfo} {r : Except String Unit} (h : CachedAsStored n s) (he : Enters env w s r s') :
    CachedAsStored n s' := by
  cases he with
  | failed he => exact ⟨h.node, h.cached⟩
  | stored he hs =>
    rw [hs]
    refine ⟨h.node, fun hlead id => ?_⟩
    show (s.workers.insert w.id w)[id]? = (s.store.workers.put w).get id
    rw [Std.ExtTreeMap.getElem?_insert, Bucket.get_put, h.cached hlead id]
    exact if_congr (compare_keys.trans eq_comm) rfl rfl

theorem cachedAsStored_putWorker (w : WorkerInfo) (h : CachedAsStored n s) : Sat (handle env) (putWorker w) s fun _ => CachedAsStored n :=
  (putWorker_enters w s).mono fun _ _ he => h.enters he

theorem cachedAsStored_registerWorker (cfg : Config) (worker : Option WorkerInfo) (h : CachedAsStored n s) :
    Sat (handle env) (registerWorker cfg worker) s fun _ => CachedAsStored n := by
  refine (h.run (offBooks_requireLeader cfg)).bind fun denied s₁ h₁ => ?_
  cases denied with
  | some e => exact h₁
  | none =>
    cases worker with
    | none => exact h₁
    | some w =>
      refine (h₁.run (offBooks_workerIDFor w)).bind fun id s₂ h₂ => ?_
      refine Sat.bind (h₂.run (Uses.perform trivial)) fun now s₃ h₃ => ?_
      refine (cachedAsStored_putWorker _ h₃).bind fun r s₄ h₄ => ?_
      cases r <;> exact h₄

theorem cachedAsStored_heartbeat (cfg : Config) (w : String) (running : Nat) (h : CachedAsStored n s) :
    Sat (handle env) (heartbeat cfg w running) s fun _ => CachedAsStored n := by
  refine (h.run (offBooks_requireLeader cfg)).bind fun denied s₁ h₁ => ?_
  cases denied with
  | some e => exact h₁
  | none =>
    refine Sat.bind (h₁.run (Uses.perform trivial)) fun known s₂ h₂ => ?_
    cases known with
    | none => exact h₂
    | some cur =>
      refine Sat.bind (h₂.run (Uses.perform trivial)) fun now s₃ h₃ => ?_
      refine (cachedAsStored_putWorker _ h₃).bind fun r s₄ h₄ => ?_
      cases r <;> exact h₄

theorem cachedAsStored_reaperTick (cfg : Config) (h : CachedAsStored n s) : Sat (handle env) (reaperTick cfg ps) s fun _ => CachedAsStored n := by
  refine Sat.bind (h.run (Uses.perform trivial)) fun leads s₁ h₁ => ?_
  cases leads with
  | false => exact h₁
  | true =>
    refine Sat.bind (h₁.run (Uses.perform trivial)) fun now s₂ h₂ => ?_
    refine Sat.bind (h₂.run (Uses.perform trivial)) fun cached s₃ h₃ => ?_
    refine Sat.bind (Sat.forM (I := CachedAsStored n) (fun p _ s h => ?_) h₃) fun _ s₄ h₄ => h₄.run (offBooks_requeues ps _ _)
    exact (cachedAsStored_putWorker p.2 h).bind fun _ _ h' => h'

/-- The loop of `recover`. -/
theorem sat_cacheAll : ∀ (ws : List WorkerInfo) (s : Server), (ws.map WorkerInfo.id).Nodup →
    Sat (handle env) (ws.forM fun w => act (.cacheWorker w)) s fun _ s' => s'.store = s.store ∧ s'.node = s.node ∧
      (∀ w ∈ ws, s'.workers[w.id]? = some w) ∧
      ∀ id : String, (∀ w ∈ ws, w.id ≠ id) → s'.workers[id]? = s.workers[id]?
  | [], s, _ => ⟨rfl, rfl, fun _ hw => absurd hw List.not_mem_nil, fun _ _ => rfl⟩
  | w :: ws, s, hnodup => by
    obtain ⟨hfresh, hnodup⟩ := List.nodup_cons.1 hnodup
    refine Sat.bind (Q := fun _ s₁ => s₁ = (handle env (.cacheWorker w) s).2) rfl ?_
    rintro _ _ rfl
    refine (sat_cacheAll ws _ hnodup).mono fun _ s' h' => ?_
    obtain ⟨hst, hn, hmem, hother⟩ := h'
    refine ⟨hst, hn, fun v hv => ?_, fun id hid => ?_⟩
    · rcases List.mem_cons.1 hv with rfl | hv
      · -- none of the later ones has its ID
        rw [hother v.id fun u hu he => hfresh (List.mem_map.2 ⟨u, hu, he⟩), workers_cache, if_pos rfl]
      · exact hmem v hv
    · rw [hother id fun v hv => hid v (List.mem_cons_of_mem w hv), workers_cache]
      exact if_neg fun he => hid w List.mem_cons_self he.symm

/-- A process that has loaded its workers has the bucket in its cache. -/
theorem sat_recover (s : Server) : Sat (handle env) recover s.fresh fun r s' => s'.store = s.store ∧
    s'.node.isLeader = false ∧ (r = .ok () → ∀ id : String, s'.workers[id]? = s.store.workers.get id) ∧
    (env.fails s.tick = none → r = .ok ()) := by
  cases he : env.fails s.tick with
  | some e =>
    have hlist : Sat (handle env) Db.listWorkers s.fresh fun r s₁ => r = .error e ∧ s₁ = s.fresh.ticked := by
      refine ⟨?_, rfl⟩
      have he : env.fails s.fresh.tick = some e := he
      simp only [Db.listWorkers, act, exec_perform, handle, he]
    refine hlist.bind ?_
    rintro _ _ ⟨rfl, rfl⟩
    exact ⟨rfl, rfl, fun h => (by cases h), fun h => (by cases h)⟩
  | none =>
    have hlist : Sat (handle env) Db.listWorkers s.fresh fun r s₁ =>
        r = .ok s.store.workers.list ∧ s₁ = s.fresh.ticked := by
      refine ⟨?_, rfl⟩
      have he : env.fails s.fresh.tick = none := he
      simp only [Db.listWorkers, act, exec_perform, handle, he]
      rfl
    refine hlist.bind ?_
    rintro _ _ ⟨rfl, rfl⟩
    refine (sat_cacheAll _ _ (Bucket.list_nodup _)).bind ?_
    rintro _ s' ⟨hst, hn, hmem, hother⟩
    refine ⟨hst, hn ▸ rfl, fun _ id => ?_, fun _ => rfl⟩
    cases hget : s.store.workers.get id with
    | some w =>
      have hid : w.id = id := Bucket.get_id hget
      subst hid
      exact hmem w (Bucket.mem_list.2 hget)
    | none =>
      refine (hother id ?_).trans Std.ExtTreeMap.getElem?_empty
      rintro w hw rfl
      cases hget.symm.trans (Bucket.mem_list.1 hw)

/-- The new process leads as it was told to, unless it has failed to load its workers. -/
theorem cachedAsStored_restart (ps : Cron) (node : Cluster.Node) (s : Server) :
    CachedAsStored (restart env ps node s).node (restart env ps node s) ∧
      (env.fails s.tick = none → (restart env ps node s).node = node) := by
  show Sat (handle env) (boot ps node) s.fresh fun _ s' => CachedAsStored s'.node s' ∧ (env.fails s.tick = none → s'.node = node)
  refine (sat_recover s).bind ?_
  rintro r s₁ ⟨hst, hn, hcache, hok⟩
  cases r with
  | error e =>
    refine ⟨⟨rfl, fun hlead => ?_⟩, fun he => absurd (hok he) nofun⟩
    cases hn.symm.trans hlead
  | ok u =>
    refine Sat.bind (Q := fun _ s₂ => s₂ = (handle env (.gainLead node) s₁).2) rfl ?_
    rintro _ _ rfl
    have h₂ : CachedAsStored node (handle env (.gainLead node) s₁).2 := by
      refine ⟨rfl, fun _ id => ?_⟩
      show s₁.workers[id]? = s₁.store.workers.get id
      rw [hst]
      exact hcache rfl id
    refine (h₂.run (offBooks_onBecomeLeader ps)).mono fun _ s' h' => ?_
    exact ⟨h'.node.symm ▸ h', fun _ => h'.node⟩

theorem cachedAsStored_call (c : Call) (h : CachedAsStored n s) : CachedAsStored n (after env ps s c) := by
  show Sat (handle env) (c.prog env.cfg ps) s fun _ => CachedAsStored n
  cases hc : c.onJobs with
  | true => exact h.run (offBooks_call env.cfg ps hc)
  | false =>
    cases c with
    | registerWorker w => exact Sat.bind (cachedAsStored_registerWorker env.cfg w h) fun _ _ h' => h'
    | heartbeat w n => exact Sat.bind (cachedAsStored_heartbeat env.cfg w n h) fun _ _ h' => h'
    | reaper => exact cachedAsStored_reaperTick env.cfg h
    | submitJob | cancelJob | pollTask | reportTask | timer | becomeLeader => cases hc

theorem cachedAsStored_step {ev : Event} (h : CachedAsStored s.node s) (hstep : step env ps s ev = some s') : CachedAsStored s'.node s' := by
  cases ev with
  | crash c ops aborted node =>
    obtain ⟨_, ⟨⟩⟩ := Option.ite_none_right_eq_some.1 hstep
    exact (cachedAsStored_restart ps node _).1
  | call c =>
    obtain ⟨_, ⟨⟩⟩ := Option.ite_none_right_eq_some.1 hstep
    have h' : CachedAsStored s.node (after env ps s c) := cachedAsStored_call c h
    exact h'.node.symm ▸ h'

theorem cachedAsStored_of_runs {ok : Server → Event → Prop} {store : Store} {node : Cluster.Node}
    (h : Runs env ps ok (started env ps store node) s) : CachedAsStored s.node s := by
  induction h with
  | refl => exact (cachedAsStored_restart ps node _).1
  | step _ _ hstep ih => exact cachedAsStored_step ih hstep

/-- Whenever the node leads, a worker is cached as it is stored, and not cached if it is not stored: after any activities,
with any store calls failing, and after crashes at any point. -/
theorem worker_cache_is_store {store : Store} {node : Cluster.Node}
    (h : Runs env ps (fun _ _ => True) (started env ps store node) s) (hlead : s.node.isLeader = true) (id : String) :
    s.workers[id]? = s.store.workers.get id := (cachedAsStored_of_runs h).cached hlead id

/-- The process has crashed when it had stored a registration and not cached it. -/
def restarted : Server := restart .steady noCron leading
  (crashed .steady noCron (started .steady noCron .empty leading) (.registerWorker (some { id := "w" })) 3 [])

theorem worker_cache_is_store_restarted : ∃ i, restarted.store.workers.get "w" = some i ∧ restarted.workers["w"]? = some i := by
  have hstep : step .steady noCron (started .steady noCron .empty leading)
      (.crash (.registerWorker (some { id := "w" })) 3 [] leading) = some restarted := rfl
  have hstored : (restarted.store.workers.get "w").isSome = true := by decide +kernel
  obtain ⟨i, hi⟩ := Option.isSome_iff_exists.1 hstored
  refine ⟨i, hi, ?_⟩
  rw [worker_cache_is_store (Runs.refl.step trivial hstep) (by decide +kernel) "w"]
  exact hi

/-! ## Heartbeats in time -/

section Vigil

variable (env) (w : String) (t : Int)

/-- If the record is that of `w`, it says that `w` is ALIVE and was heard of at time `t` or later. -/
def Vouches (i : WorkerInfo) : Prop := i.id = w → i.state = .alive ∧ t ≤ asTime i.lastHeartbeat

/-- No record is written that does not vouch for `w`. -/
def VigilPermits : Op → Prop
  | .putWorker i | .cacheWorker i => Vouches w t i
  | _ => True

/-- What an operation, the `n`-th of all, can find. -/
def VigilAnswers : (op : Op) → op.Resp → Nat → Prop
  | .now, r, n => r.ns = env.clock n ∧ t ≤ r.ns
  | .listCached, r, _ => ∀ p ∈ r, Vouches w t p.2
  | .listWorkers, r, _ => ∀ ws, r = .ok ws → ∀ i ∈ ws, Vouches w t i
  | _, _, _ => True

/-- The rules under which the records keep vouching for `w`. The notes count operations. -/
def vigil : Protocol Op Op.Resp Nat where
  permits op _ := VigilPermits w t op
  answers := VigilAnswers env w t
  next _ _ n := n + 1

/-- Every stored record vouches for `w`. -/
def Stands (s : Server) : Prop := t ≤ env.clock s.tick ∧ ∀ id i, s.store.workers.get id = some i → Vouches w t i

/-- So does every cached one. -/
structure VouchedFor (n : Nat) (s : Server) : Prop where
  tick : s.tick = n
  stored : Stands env w t s
  cached : ∀ (id : String) i, s.workers[id]? = some i → Vouches w t i

/-- Stored records keep vouching for `w`, and `w` stays stored. -/
def Upheld (s s' : Server) : Prop := Stands env w t s →
  Stands env w t s' ∧ ∀ i, s.store.workers.get w = some i → ∃ i', s'.store.workers.get w = some i'

end Vigil

variable {w : String} {t : Int}

theorem Stands.put {i : WorkerInfo} (h : Stands env w t s) (hi : Vouches w t i) (ht : t ≤ env.clock s'.tick)
    (hs : s'.store.workers = s.store.workers.put i) : Stands env w t s' := by
  refine ⟨ht, fun id v hv => ?_⟩
  rw [hs, Bucket.get_put] at hv
  split at hv
  · cases hv
    exact hi
  · exact h.2 id v hv

/-- A permitted operation on the records. -/
theorem vouchedFor_handle (hm : Monotone env.clock) {k : Nat} (op : Op) (h : VouchedFor env w t k s) (hop : VigilPermits w t op) :
    VouchedFor env w t (k + 1) (handle env op s).2 ∧
      ∀ i, s.store.workers.get w = some i → ∃ i', (handle env op s).2.store.workers.get w = some i' := by
  have htick : (handle env op s).2.tick = k + 1 := by rw [tick_handle, h.tick]
  have ht : t ≤ env.clock (handle env op s).2.tick := by
    rw [tick_handle]
    exact h.stored.1.trans (hm (Nat.le_succ _))
  by_cases hoff : OffBooks op
  · obtain ⟨hw, hst, -⟩ := @handle_offBooks env op hoff s
    rw [hst]
    refine ⟨⟨htick, ⟨ht, ?_⟩, ?_⟩, fun i hi => ⟨i, hi⟩⟩
    · rw [hst]
      exact h.stored.2
    · rw [hw]
      exact h.cached
  · cases op with
    | putWorker i =>
      cases he : env.fails s.tick with
      | some e =>
        have hs : (handle env (.putWorker i) s).2 = s.ticked := by simp only [handle, Server.write, he]
        rw [hs] at htick ht ⊢
        exact ⟨⟨htick, ⟨ht, h.stored.2⟩, h.cached⟩, fun i hi => ⟨i, hi⟩⟩
      | none =>
        have hs : (handle env (.putWorker i) s).2 =
            { s.ticked with store := { s.store with workers := s.store.workers.put i } } := by
          simp only [handle, Server.write, he]
        rw [hs] at htick ht ⊢
        refine ⟨⟨htick, h.stored.put hop ht rfl, h.cached⟩, fun v hv => ?_⟩
        show ∃ i', (s.store.workers.put i).get w = some i'
        rw [Bucket.get_put]
        split
        · exact ⟨i, rfl⟩
        · exact ⟨v, hv⟩
    | cacheWorker i =>
      refine ⟨⟨htick, ⟨ht, h.stored.2⟩, fun id v hv => ?_⟩, fun v hv => ⟨v, hv⟩⟩
      rw [workers_cache] at hv
      split at hv
      · cases hv
        exact hop
      · exact h.cached id v hv
    | gainLead => exact ⟨⟨htick, ⟨ht, h.stored.2⟩, h.cached⟩, fun i hi => ⟨i, hi⟩⟩
    | _ => exact absurd trivial hoff

theorem vigil_answers {k : Nat} (op : Op) (h : VouchedFor env w t k s) : VigilAnswers env w t op (handle env op s).1 k := by
  cases op with
  | now => exact ⟨h.tick ▸ rfl, h.stored.1⟩
  | listCached => exact fun p hp => h.cached p.1 p.2 ((mem_range ..).1 hp)
  | listWorkers =>
    intro ws hws i hi
    simp only [handle] at hws
    split at hws
    · cases hws
    · cases hws
      exact h.stored.2 _ i (Bucket.mem_list.1 hi)
  | _ => trivial

theorem honours_vigil (hm : Monotone env.clock) (w : String) (t : Int) :
    Honours (handle env) (vigil env w t) (VouchedFor env w t) (Upheld env w t) where
  refl _ h := ⟨h, fun i hi => ⟨i, hi⟩⟩
  trans _ _ _ h₁ h₂ h := by
    obtain ⟨hs, hk⟩ := h₁ h
    obtain ⟨hs', hk'⟩ := h₂ hs
    refine ⟨hs', fun i hi => ?_⟩
    obtain ⟨i', hi'⟩ := hk i hi
    exact hk' i' hi'
  step op k s h hop := by
    obtain ⟨h', hk⟩ := vouchedFor_handle hm op h hop
    exact ⟨vigil_answers op h, h', fun _ => ⟨h'.stored, hk⟩⟩

abbrev KeepsVigil {α : Type} (env : Env) (w : String) (t : Int) (p : M α) (k : Nat) : Prop :=
  Meets (vigil env w t) p k fun _ _ => True

theorem vigil_offBooks {α : Type} {p : M α} (hp : Uses OffBooks p) (k : Nat) : KeepsVigil env w t p k := by
  refine Uses.meets (I := fun _ => True) (fun op _ hop _ => ⟨?_, fun _ _ => trivial⟩) hp trivial
  cases op <;> first | exact hop.elim | trivial

theorem vigil_act (op : Op) (hop : VigilPermits w t op) (k : Nat) :
    Meets (vigil env w t) (act op) k fun r k' => VigilAnswers env w t op r k ∧ k' = k + 1 :=
  ⟨hop, fun _ hr => ⟨hr, rfl⟩⟩

theorem vigil_putWorker {i : WorkerInfo} (hi : Vouches w t i) (k : Nat) : KeepsVigil env w t (putWorker i) k := by
  refine (vigil_act (.putWorker i) hi k).bind fun r k₁ _ => ?_
  cases r with
  | error e => trivial
  | ok u =>
    refine (vigil_offBooks (uses_appendRepl _ trivial trivial) k₁).bind fun _ k₂ _ => ?_
    exact (vigil_act (.cacheWorker i) hi k₂).bind fun _ _ _ => trivial

theorem vigil_registerWorker (cfg : Config) (worker : Option WorkerInfo) (k : Nat) :
    KeepsVigil env w t (registerWorker cfg worker) k := by
  refine (vigil_offBooks (offBooks_requireLeader cfg) k).bind fun denied k₁ _ => ?_
  cases denied with
  | some e => trivial
  | none =>
    cases worker with
    | none => trivial
    | some i =>
      refine (vigil_offBooks (offBooks_workerIDFor i) k₁).bind fun id k₂ _ => ?_
      refine (vigil_act .now trivial k₂).bind fun now k₃ hnow => ?_
      refine (vigil_putWorker (fun _ => ⟨rfl, hnow.1.2⟩) k₃).bind fun r _ _ => ?_
      cases r <;> trivial

theorem vigil_heartbeat (cfg : Config) (id : String) (running : Nat) (k : Nat) :
    KeepsVigil env w t (heartbeat cfg id running) k := by
  refine (vigil_offBooks (offBooks_requireLeader cfg) k).bind fun denied k₁ _ => ?_
  cases denied with
  | some e => trivial
  | none =>
    refine (vigil_act (.getCached id) trivial k₁).bind fun known k₂ _ => ?_
    cases known with
    | none => trivial
    | some cur =>
      refine (vigil_act .now trivial k₂).bind fun now k₃ hnow => ?_
      refine (vigil_putWorker (fun _ => ⟨rfl, hnow.1.2⟩) k₃).bind fun r _ _ => ?_
      cases r <;> trivial

/-- A worker heard of within half the timeout is in good standing. -/
theorem liveness_alive {cfg : Config} {now : Int} {i : WorkerInfo} (hpos : 0 ≤ cfg.heartbeatTimeout)
    (ht : t ≤ asTime i.lastHeartbeat) (hhalf : now - t ≤ cfg.heartbeatTimeout.tdiv 2) : liveness cfg now i = .alive := by
  rw [Int.tdiv_eq_ediv_of_nonneg hpos] at hhalf
  have hrange := belowMax_iff.1 cfg.heartbeatTimeout_range
  have hage : durationTo now (asTime i.lastHeartbeat) ≤ cfg.heartbeatTimeout / 2 :=
    (durationTo_le_iff (belowMax_iff.2 (by omega))).2 (by omega)
  unfold liveness
  rw [Int.tdiv_eq_ediv_of_nonneg hpos]
  dsimp only
  rw [if_neg (by omega), if_neg (by omega)]

/-- A sweep leaves `w` alone while it is within half the timeout of time `t`. -/
theorem vigil_reaperTick {cfg : Config} (hpos : 0 ≤ cfg.heartbeatTimeout) (k : Nat)
    (hhalf : env.clock (k + 1) - t ≤ cfg.heartbeatTimeout.tdiv 2) :
    KeepsVigil env w t (reaperTick cfg ps) k := by
  refine (vigil_act .isLeader trivial k).bind ?_
  rintro leads _ ⟨-, rfl⟩
  cases leads with
  | false => trivial
  | true =>
    refine (vigil_act .now trivial (k + 1)).bind ?_
    rintro now k₂ ⟨hnow, -⟩
    refine (vigil_act .listCached trivial k₂).bind ?_
    rintro cached k₃ ⟨hc, -⟩
    refine Meets.bind (meets_forM _ (fun _ => True) _ k₃ (fun p k' hp _ => ?_) trivial) fun _ k' _ =>
      vigil_offBooks (offBooks_requeues ps _ _) k'
    refine (vigil_putWorker (fun hid => ?_) k').bind fun _ _ _ => trivial
    -- the record of `w` would have been ALIVE, and is not marked
    obtain ⟨i, hi, hbad, -, hp⟩ := mem_downgraded.1 hp
    rw [hp] at hid
    exact absurd (liveness_alive hpos (hc _ hi hid).2 (hnow.1 ▸ hhalf)) hbad

theorem vigil_boot (ps : Cron) (node : Cluster.Node) (k : Nat) : KeepsVigil env w t (boot ps node) k := by
  have hrecover : KeepsVigil env w t recover k := by
    refine (vigil_act .listWorkers trivial k).bind fun r k₁ hr => ?_
    cases r with
    | error e => trivial
    | ok ws =>
      refine Meets.bind (meets_forM _ (fun _ => True) ws k₁ (fun i k' hi _ => ?_) trivial) fun _ _ _ => trivial
      exact (vigil_act (.cacheWorker i) (hr.1 ws rfl i hi) k').mono fun _ _ _ => trivial
  refine hrecover.bind fun r k₁ _ => ?_
  cases r with
  | error e => trivial
  | ok u => exact (vigil_act (.gainLead node) trivial k₁).bind fun _ k₂ _ => vigil_offBooks (offBooks_onBecomeLeader ps) k₂

theorem vigil_call (hpos : 0 ≤ env.cfg.heartbeatTimeout) (c : Call) (k : Nat)
    (hsweep : c = .reaper → env.clock (k + 1) - t ≤ env.cfg.heartbeatTimeout.tdiv 2) :
    KeepsVigil env w t (c.prog env.cfg ps) k := by
  cases hc : c.onJobs with
  | true => exact vigil_offBooks (offBooks_call env.cfg ps hc) k
  | false =>
    cases c with
    | registerWorker i => exact (vigil_registerWorker env.cfg i k).bind fun _ _ _ => trivial
    | heartbeat id n => exact (vigil_heartbeat env.cfg id n k).bind fun _ _ _ => trivial
    | reaper => exact vigil_reaperTick hpos k (hsweep rfl)
    | submitJob | cancelJob | pollTask | reportTask | timer | becomeLeader => cases hc

/-! ## Leases in a sweep -/

/-- A requeue takes away no other lease. -/
theorem leases_requeueLease {τ : String} {l : Lease} (τ' reason : String) (hne : τ' ≠ τ) (h : s.leases[τ]? = some l) :
    Sat (handle env) (requeueLease ps τ' reason) s fun _ s' => s'.leases[τ]? = some l := by
  refine Sat.bind (Q := fun _ s₁ => s₁ = s.ticked) rfl ?_
  rintro held _ rfl
  cases held with
  | none => exact h
  | some l' =>
    have hdrop : Sat (handle env) (removeLease τ') s.ticked fun _ s₂ => s₂.leases[τ]? = some l := by
      show (s.leases.erase τ')[τ]? = some l
      rw [Std.ExtTreeMap.getElem?_erase, if_neg fun he => hne (compare_keys.1 he)]
      exact h
    refine hdrop.bind fun _ s₂ h₂ => ?_
    refine Uses.keeps (I := fun s : Server => s.leases[τ]? = some l) (fun op s₃ hop h₃ => ?_)
      (moves_requeued ps l'.jobID reason) h₂
    rw [leases_of_moves hop]
    exact h₃

theorem leases_requeueLeases {τ : String} {l : Lease} {τs : List String} (reason : String) (hτ : τ ∉ τs)
    (h : s.leases[τ]? = some l) :
    Sat (handle env) (τs.forM fun τ' => requeueLease ps τ' reason) s fun _ s' => s'.leases[τ]? = some l := by
  refine Sat.forM (I := fun s : Server => s.leases[τ]? = some l) (fun τ' hτ' s h => ?_) h
  apply leases_requeueLease τ' reason _ h
  rintro rfl
  exact hτ hτ'

theorem leases_requeueLeasesForWorker {τ : String} {l : Lease} (id reason : String) (hid : l.workerID ≠ id)
    (h : s.leases[τ]? = some l) :
    Sat (handle env) (requeueLeasesForWorker ps id reason) s fun _ s' => s'.leases[τ]? = some l := by
  refine Sat.bind (Q := fun ls s₁ => ls = env.range s.tick s.leases ∧ s₁ = s.ticked) ⟨rfl, rfl⟩ ?_
  rintro _ _ ⟨rfl, rfl⟩
  refine leases_requeueLeases reason (fun hτ => ?_) h
  obtain ⟨⟨_, l'⟩, hl', rfl⟩ := List.mem_map.1 hτ
  obtain ⟨hmem, hw⟩ := List.mem_filter.1 hl'
  cases h.symm.trans ((mem_range ..).1 hmem)
  exact hid (of_decide_eq_true hw)

/-- A sweep leaves a lease alone that has time to run and whose worker has been heard of within the timeout. -/
theorem leases_reaperTick {cfg : Config} {τ : String} {l : Lease} (h : s.leases[τ]? = some l)
    (hdue : env.clock (s.tick + 1) ≤ l.deadline)
    (hheard : ∀ i, s.workers[l.workerID]? = some i → liveness cfg (env.clock (s.tick + 1)) i ≠ .dead) :
    Sat (handle env) (reaperTick cfg ps) s fun _ s' => s'.leases[τ]? = some l := by
  refine Sat.bind (Q := fun _ s₁ => s₁ = s.ticked) rfl ?_
  rintro leads _ rfl
  cases leads with
  | false => exact h
  | true =>
    refine Sat.bind (Q := fun now s₂ => now.ns = env.clock (s.tick + 1) ∧ s₂ = s.ticked.ticked) ⟨rfl, rfl⟩ ?_
    rintro ⟨now, zone⟩ _ ⟨rfl, rfl⟩
    refine Sat.bind (Q := fun cached s₃ => (∀ id i, (id, i) ∈ cached → s.workers[id]? = some i) ∧
      s₃ = s.ticked.ticked.ticked) ⟨fun id i hi => (mem_range ..).1 hi, rfl⟩ ?_
    rintro cached _ ⟨hc, rfl⟩
    -- marking touches no lease
    refine Sat.bind (Sat.forM (I := fun s : Server => s.leases[τ]? = some l) (fun p _ s₃ h₃ => ?_) h) fun _ s₄ h₄ => ?_
    · refine (putWorker_frame p.2 s₃).bind fun _ s₄ h₄ => ?_
      show s₄.leases[τ]? = some l
      rw [h₄.1]
      exact h₃
    -- of the workers declared DEAD none holds the lease
    refine Sat.bind (Sat.forM (I := fun s : Server => s.leases[τ]? = some l) (fun id hid s₄ h₄ => ?_) h₄) fun _ s₅ h₅ => ?_
    · apply leases_requeueLeasesForWorker id _ _ h₄
      rintro rfl
      obtain ⟨p, hp, hid⟩ := List.mem_map.1 hid
      obtain ⟨hp, hd⟩ := List.mem_filter.1 hp
      obtain ⟨i, hi, -, -, hpi⟩ := mem_downgraded.1 hp
      rw [hpi] at hd
      exact hheard i (hid ▸ hc _ i hi) (of_decide_eq_true hd)
    -- nor is it listed as late
    refine Sat.bind (Q := fun ls s₆ => ls = env.range s₅.tick s₅.leases ∧ s₆ = s₅.ticked) ⟨rfl, rfl⟩ ?_
    rintro _ _ ⟨rfl, rfl⟩
    have h₆ : s₅.ticked.leases[τ]? = some l := h₅
    apply leases_requeueLeases _ _ h₆
    intro hτ
    obtain ⟨⟨_, l'⟩, hl', rfl⟩ := List.mem_map.1 hτ
    obtain ⟨hmem, hlate⟩ := List.mem_filter.1 hl'
    cases h₅.symm.trans ((mem_range ..).1 hmem)
    exact absurd (of_decide_eq_true hlate) (not_lt.2 hdue)

/-! ## Runs with heartbeats -/

/-- The activities by which a leader hears of `w`: a registration, or a heartbeat once `w` is known. -/
def Call.Hears (w : String) (s : Server) : Call → Prop
  | .registerWorker (some i) => i.id = w ∧ w ≠ ""
  | .heartbeat id _ => id = w ∧ ∃ i, s.workers[w]? = some i
  | _ => False

/-- The states of the runs from `s₀` that sweep only within half the timeout of the time at which `w` was last heard of,
once it has been, with that time. -/
inductive Beating (env : Env) (ps : Cron) (w : String) (s₀ : Server) : Server → Option Int → Prop
  | refl : Beating env ps w s₀ s₀ none
  | heard {s s' : Server} {b : Option Int} {c : Call} : Beating env ps w s₀ s b → c.Hears w s →
    step env ps s (.call c) = some s' → Beating env ps w s₀ s' (some (env.clock s.tick))
  | other {s s' : Server} {b : Option Int} {ev : Event} : Beating env ps w s₀ s b →
    (ev.activity = .reaper → ∀ t, b = some t → env.clock (s.tick + 1) - t ≤ env.cfg.heartbeatTimeout.tdiv 2) →
    step env ps s ev = some s' → Beating env ps w s₀ s' b

theorem step_call {c : Call} (hc : c.enabled s = true) : step env ps s (.call c) = some (after env ps s c) := if_pos hc

theorem putWorker_stored (hr : env.Reliable) (i : WorkerInfo) (s : Server) :
    Sat (handle env) (putWorker i) s fun _ s' => s'.store.workers.get i.id = some i := by
  refine (putWorker_enters i s).mono fun _ s' he => ?_
  cases he with
  | failed he => cases (hr s.tick).symm.trans he
  | stored he hs =>
    rw [hs]
    show (s.store.workers.put i).get i.id = some i
    rw [Bucket.get_put, if_pos rfl]

/-- What the leader hears, it stores. -/
theorem stored_of_hears (hr : env.Reliable) (hm : Monotone env.clock) (hlead : s.node.isLeader = true)
    (hkeyed : ∀ (id : String) i, s.workers[id]? = some i → i.id = id) {c : Call} (hc : c.Hears w s) :
    ∃ i, (after env ps s c).store.workers.get w = some i ∧ i.state = .alive ∧ env.clock s.tick ≤ asTime i.lastHeartbeat := by
  have htime : env.clock s.tick ≤ env.clock (s.tick + 1) := hm (Nat.le_succ _)
  cases c with
  | registerWorker worker =>
    cases worker with
    | none => exact hc.elim
    | some i =>
      obtain ⟨rfl, hne⟩ := hc
      show Sat (handle env) (do let _ ← registerWorker env.cfg (some i)) s fun _ s' => ∃ i', s'.store.workers.get i.id = some i' ∧
        i'.state = .alive ∧ env.clock s.tick ≤ asTime i'.lastHeartbeat
      refine Sat.bind ?_ fun _ _ h => h
      refine (requireLeader_leading env.cfg hlead).bind ?_
      rintro _ _ ⟨rfl, rfl⟩
      have hid : Sat (handle env) (workerIDFor i) s.ticked fun r s' => r = i.id ∧ s' = s.ticked := by
        rw [workerIDFor, if_neg hne]
        exact ⟨rfl, rfl⟩
      refine hid.bind ?_
      rintro _ _ ⟨rfl, rfl⟩
      have hnow : Sat (handle env) timeNow s.ticked fun now _ => now.ns = env.clock (s.tick + 1) := rfl
      refine hnow.bind ?_
      rintro ⟨now, zone⟩ s₂ rfl
      refine (putWorker_stored hr _ s₂).bind fun r s₃ h₃ => ?_
      cases r <;> exact ⟨_, h₃, rfl, htime⟩
  | heartbeat id running =>
    obtain ⟨rfl, i, hi⟩ := hc
    show Sat (handle env) (do let _ ← heartbeat env.cfg id running) s fun _ s' => ∃ i', s'.store.workers.get id = some i' ∧
      i'.state = .alive ∧ env.clock s.tick ≤ asTime i'.lastHeartbeat
    refine Sat.bind ?_ fun _ _ h => h
    refine (requireLeader_leading env.cfg hlead).bind ?_
    rintro _ _ ⟨rfl, rfl⟩
    refine Sat.bind (Q := fun known s₁ => known = some i ∧ s₁ = s.ticked.ticked) ⟨hi, rfl⟩ ?_
    rintro _ _ ⟨rfl, rfl⟩
    have hnow : Sat (handle env) timeNow s.ticked.ticked fun now _ => now.ns = env.clock (s.tick + 2) := rfl
    refine hnow.bind ?_
    rintro ⟨now, zone⟩ s₂ rfl
    refine (putWorker_stored hr _ s₂).bind fun r s₃ h₃ => ?_
    have hid : i.id = id := hkeyed id i hi
    subst hid
    cases r <;> exact ⟨_, h₃, rfl, hm (by omega)⟩
  | _ => exact hc.elim

/-- The node leads with its cache in order, and what it has recorded of `w` since it last heard of it is in order, too. -/
structure Trusted (env : Env) (w : String) (s : Server) (b : Option Int) : Prop where
  leads : s.node.isLeader = true
  recorded : CachedAsStored s.node s
  watched : ∀ t, b = some t → VouchedFor env w t s.tick s ∧ ∃ i, s.store.workers.get w = some i

theorem Trusted.keyed {b : Option Int} (h : Trusted env w s b) (id : String) (i : WorkerInfo)
    (hi : s.workers[id]? = some i) : i.id = id := by
  rw [h.recorded.cached h.leads] at hi
  exact Bucket.get_id hi

theorem trusted_heard (hr : env.Reliable) (hm : Monotone env.clock) {b : Option Int} (h : Trusted env w s b) {c : Call}
    (hc : c.Hears w s) : Trusted env w (after env ps s c) (some (env.clock s.tick)) := by
  have hrec : CachedAsStored s.node (after env ps s c) := cachedAsStored_call c h.recorded
  have hlead : (after env ps s c).node.isLeader = true := hrec.node ▸ h.leads
  obtain ⟨i, hi, halive, hbeat⟩ := @stored_of_hears env ps s w hr hm h.leads h.keyed c hc
  -- the bucket holds no other record of `w`
  have hall : ∀ id v, (after env ps s c).store.workers.get id = some v → Vouches w (env.clock s.tick) v := by
    rintro id v hv rfl
    obtain rfl : v.id = id := Bucket.get_id hv
    cases hi.symm.trans hv
    exact ⟨halive, hbeat⟩
  have hrec : CachedAsStored (after env ps s c).node (after env ps s c) := hrec.node.symm ▸ hrec
  refine ⟨hlead, hrec, ?_⟩
  rintro _ ⟨⟩
  refine ⟨⟨rfl, ⟨hm (tick_exec _ s), hall⟩, fun id v hv => ?_⟩, i, hi⟩
  rw [hrec.cached hlead] at hv
  exact hall id v hv

theorem trusted_other (hr : env.Reliable) (hm : Monotone env.clock) (hpos : 0 ≤ env.cfg.heartbeatTimeout) {b : Option Int}
    {ev : Event} (h : Trusted env w s b)
    (hsweep : ev.activity = .reaper → ∀ t, b = some t → env.clock (s.tick + 1) - t ≤ env.cfg.heartbeatTimeout.tdiv 2)
    (hstep : step env ps s ev = some s') : Trusted env w s' b := by
  have hlead : s'.node.isLeader = true := by
    cases ev with
    | call c =>
      obtain ⟨_, ⟨⟩⟩ := Option.ite_none_right_eq_some.1 hstep
      exact (@cachedAsStored_call env ps s s.node c h.recorded).node ▸ h.leads
    | crash c ops aborted node =>
      obtain ⟨⟨_, hn⟩, ⟨⟩⟩ := Option.ite_none_right_eq_some.1 hstep
      rw [(cachedAsStored_restart ps node _).2 (hr _)]
      exact hn
  refine ⟨hlead, cachedAsStored_step h.recorded hstep, fun t hb => ?_⟩
  obtain ⟨hwatch, i, hi⟩ := h.watched t hb
  have hcall : KeepsVigil env w t (ev.activity.prog env.cfg ps) s.tick :=
    vigil_call hpos ev.activity s.tick fun he => hsweep he t hb
  have hboot : ∀ (s₁ : Server) (node : Cluster.Node), Upheld env w t s s₁ →
      ∃ k, VouchedFor env w t k s₁.fresh ∧ KeepsVigil env w t (boot ps node) k := by
    refine fun s₁ node h₁ => ⟨s₁.tick, ⟨rfl, (h₁ hwatch.stored).1, fun id v hv => ?_⟩, vigil_boot ps node s₁.tick⟩
    -- a new process has nothing cached
    have hv : (∅ : Std.ExtTreeMap String WorkerInfo)[id]? = some v := hv
    rw [Std.ExtTreeMap.getElem?_empty] at hv
    cases hv
  have hfresh : ∀ s : Server, Upheld env w t s s.fresh := fun _ hs => ⟨hs, fun i hi => ⟨i, hi⟩⟩
  obtain ⟨⟨k, hk⟩, hup⟩ := step_honours (honours_vigil hm w t) hfresh hwatch hcall hboot hstep
  obtain rfl := hk.tick
  exact ⟨hk, (hup hwatch.stored).2 i hi⟩

theorem trusted_of_beating (hr : env.Reliable) (hm : Monotone env.clock) (hpos : 0 ≤ env.cfg.heartbeatTimeout)
    {store : Store} {node : Cluster.Node} (hn : node.isLeader = true) {b : Option Int}
    (h : Beating env ps w (started env ps store node) s b) : Trusted env w s b := by
  induction h with
  | refl =>
    obtain ⟨hrec, hnode⟩ := @cachedAsStored_restart env ps node (.off store 0 0)
    have hlead : (started env ps store node).node.isLeader = true := by
      rw [started, hnode (hr _)]
      exact hn
    exact ⟨hlead, hrec, nofun⟩
  | heard _ hc hstep ih =>
    obtain ⟨_, ⟨⟩⟩ := Option.ite_none_right_eq_some.1 hstep
    exact trusted_heard hr hm ih hc
  | other _ hsweep hstep ih => exact trusted_other hr hm hpos ih hsweep hstep

/-- If the leader last heard of `w` at time `t` and has never swept more than half the timeout after it last had, then `w`
is ALIVE in its cache and in its store. A sweep that follows within the timeout takes no lease from `w` that has time to
run. -/
theorem heartbeats_keep_worker (hr : env.Reliable) (hm : Monotone env.clock) (hpos : 0 ≤ env.cfg.heartbeatTimeout)
    {store : Store} {node : Cluster.Node} (hn : node.isLeader = true)
    (h : Beating env ps w (started env ps store node) s (some t)) :
    (∃ i, s.workers[w]? = some i ∧ s.store.workers.get w = some i ∧ i.state = .alive) ∧
    ∀ (τ : String) (l : Lease), s.leases[τ]? = some l → l.workerID = w → env.clock (s.tick + 1) ≤ l.deadline →
      env.clock (s.tick + 1) - t ≤ env.cfg.heartbeatTimeout → (after env ps s .reaper).leases[τ]? = some l := by
  have htrust := trusted_of_beating hr hm hpos hn h
  obtain ⟨hwatch, i, hi⟩ := htrust.watched t rfl
  have hcached : s.workers[w]? = some i := (htrust.recorded.cached htrust.leads w).trans hi
  obtain ⟨halive, hbeat⟩ := hwatch.cached w i hcached (htrust.keyed w i hcached)
  constructor
  · exact ⟨i, hcached, hi, halive⟩
  · rintro τ l hl rfl hdue hsoon
    refine leases_reaperTick hl hdue fun v hv => ?_
    cases hcached.symm.trans hv
    exact (liveness_ne_dead env.cfg).2 (by omega)

/-- A worker registers, polls and sends a heartbeat, and a sweep takes place. -/
def attended : List Call :=
  [.registerWorker (some { id := "w" }), submitting "a" [], .pollTask "w" 1, .heartbeat "w" 1, .reaper]

def attending (n : Nat) : Server :=
  (attended.take n).foldl (after .ticking noCron) (started .ticking noCron .empty leading)

theorem heartbeats_keep_worker_attended : (∃ i, (attending 5).workers["w"]? = some i ∧
    (attending 5).store.workers.get "w" = some i ∧ i.state = .alive) ∧
    ∃ l, (attending 5).leases["task-"]? = some l ∧ (after .ticking noCron (attending 5) .reaper).leases["task-"]? = some l := by
  have hrun : Beating .ticking noCron "w" (started .ticking noCron .empty leading) (attending 5)
      (some (Env.ticking.clock (attending 3).tick)) := by
    have h₁ : Beating .ticking noCron "w" (started .ticking noCron .empty leading) (attending 1) _ :=
      Beating.refl.heard (c := .registerWorker (some { id := "w" })) ⟨rfl, by decide⟩ (step_call rfl)
    have h₂ : Beating .ticking noCron "w" (started .ticking noCron .empty leading) (attending 2) _ :=
      h₁.other (by nofun) (step_call (c := submitting "a" []) rfl)
    have h₃ : Beating .ticking noCron "w" (started .ticking noCron .empty leading) (attending 3) _ :=
      h₂.other (by nofun) (step_call (c := .pollTask "w" 1) rfl)
    have h₄ : Beating .ticking noCron "w" (started .ticking noCron .empty leading) (attending 4) _ :=
      h₃.heard (c := .heartbeat "w" 1) ⟨rfl, Option.isSome_iff_exists.1 (by decide +kernel)⟩ (step_call rfl)
    refine h₄.other ?_ (step_call (c := .reaper) rfl)
    rintro - _ ⟨⟩
    decide +kernel
  obtain ⟨halive, hkept⟩ := heartbeats_keep_worker (fun _ => rfl) monotone_ticking (by decide) rfl hrun
  refine ⟨halive, ?_⟩
  have hlease : ((attending 5).leases["task-"]?).map (fun l => (l.workerID, l.deadline)) = some ("w", 43500000000) := by
    decide +kernel
  obtain ⟨l, hl, hfields⟩ := Option.map_eq_some_iff.1 hlease
  obtain ⟨hworker, hdeadline⟩ := Prod.mk.inj hfields
  refine ⟨l, hl, hkept "task-" l hl hworker ?_ ?_⟩
  · rw [hdeadline]
    decide +kernel
  · decide +kernel

end Distsched.Scheduler
