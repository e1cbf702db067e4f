/-
The worker registry of a cluster whose handlers interleave at their store calls and locked sections. A worker record goes to
the store before it goes to the cache, in `putWorker` and in `applyEntries` alike, and a new process caches what it finds
stored. Two writes of one worker can reach store and cache in different orders, so the records may differ; which workers
there are cannot: a cached worker is stored, and while no program and no `Replicate` handler is under way on a node, a stored
one is cached. Nothing takes a worker out of a store, so a node that has known a worker knows it again after every restart.
-/
import Distsched.Replication.DeadLetter
import Distsched.Scheduler.Heartbeats

namespace Distsched.Failover

open Replication Scheduler Prog

/-! ## Notes of a program -/

/-- What a program knows to be stored, and what of it it has still to cache. -/
structure Debt where
  /-- The program has still to list the workers in order to cache them. -/
  loading : Bool := false
  known : List String := []
  owed : List String := []

namespace Debt

def wrote (g : Debt) (id : String) : Debt := { g with known := id :: g.known, owed := id :: g.owed }

def listed (g : Debt) (ids : List String) : Debt where
  loading := false
  known := ids ++ g.known
  owed := if g.loading then ids else g.owed

def cached (g : Debt) (id : String) : Debt := { g with owed := g.owed.filter (· ≠ id) }

def next (g : Debt) : (op : Op) → op.Resp → Debt
  | .putWorker w, .ok _ => g.wrote w.id
  | .listWorkers, .ok ws => g.listed (ws.map WorkerInfo.id)
  | .cacheWorker w, _ => g.cached w.id
  | _, _ => g

/-- Nothing is left to do. -/
structure Clear (g : Debt) : Prop where
  loading : g.loading = false
  owed : g.owed = []

theorem Clear.listed {g : Debt} (h : g.Clear) (ids : List String) : (g.listed ids).Clear := by
  refine ⟨rfl, ?_⟩
  rw [Debt.listed, h.loading]
  exact h.owed

end Debt

/-- A worker is cached only if the program knows it to be stored. -/
def RegistryPermits : Op → Debt → Prop
  | .cacheWorker w, g => w.id ∈ g.known
  | _, _ => True

/-- The workers can be listed by a program that is to cache them. -/
def RegistryAnswers : (op : Op) → op.Resp → Debt → Prop
  | .listWorkers, r, g => g.loading = true → ∃ ws, r = .ok ws
  | _, _, _ => True

def registry : Protocol Op Op.Resp Debt where
  permits := RegistryPermits
  answers := RegistryAnswers
  next op r g := g.next op r

abbrev Registers {α : Type} (p : M α) (g : Debt) (Q : α → Debt → Prop) : Prop := Meets registry p g Q

/-- The operations that have no part in the registry. -/
def Unregistered : Op → Prop
  | .putWorker _ | .cacheWorker _ | .listWorkers => False
  | _ => True

theorem silent_registry {op : Op} (h : Unregistered op) : Silent registry op := by
  intro g
  cases op with
  | putWorker | cacheWorker | listWorkers => exact h.elim
  | _ => exact ⟨trivial, fun _ _ => rfl⟩

/-! ## The programs keep to it -/

variable {g : Debt}

theorem registers_offBooks {α : Type} {p : M α} (hp : Uses OffBooks p) (h : g.Clear) :
    Registers p g fun _ g' => g'.Clear := by
  refine Uses.meets (I := Debt.Clear) (fun op g hop hg => ?_) hp h
  by_cases hun : Unregistered op
  · obtain ⟨hperm, hnext⟩ := silent_registry hun g
    exact ⟨hperm, fun r hr => (hnext r hr).symm ▸ hg⟩
  · cases op with
    | listWorkers =>
      refine ⟨trivial, fun r _ => ?_⟩
      cases r with
      | error e => exact hg
      | ok ws => exact hg.listed _
    | putWorker | cacheWorker => exact hop.elim
    | _ => exact absurd trivial hun

theorem registers_putWorker (w : WorkerInfo) (h : g.Clear) : Registers (putWorker w) g fun _ g' => g'.Clear := by
  have hput : Registers (Db.putWorker w) g fun r g' => match r with
      | .error _ => g' = g
      | .ok _ => g' = g.wrote w.id := by
    refine ⟨trivial, fun r _ => ?_⟩
    cases r <;> exact rfl
  refine hput.bind fun r g' hg' => ?_
  cases r with
  | error e =>
    obtain rfl : g' = g := hg'
    exact h
  | ok u =>
    obtain rfl : g' = g.wrote w.id := hg'
    refine (meets_appendRepl _ (silent_registry trivial) (silent_registry trivial)).bind ?_
    rintro _ _ rfl
    refine ⟨List.mem_cons_self, fun _ _ => ⟨h.loading, ?_⟩⟩
    show (w.id :: g.owed).filter (· ≠ w.id) = []
    rw [h.owed]
    simp

theorem registers_registerWorker (cfg : Scheduler.Config) (worker : Option WorkerInfo) (h : g.Clear) :
    Registers (registerWorker cfg worker) g fun _ g' => g'.Clear := by
  refine (registers_offBooks (offBooks_requireLeader cfg) h).bind fun denied g₁ h₁ => ?_
  cases denied with
  | some e => exact h₁
  | none =>
    cases worker with
    | none => exact h₁
    | some w =>
      refine (registers_offBooks (offBooks_workerIDFor w) h₁).bind fun id g₂ h₂ => ?_
      refine Meets.bind (registers_offBooks (Uses.perform trivial) h₂) fun now g₃ h₃ => ?_
      refine (registers_putWorker _ h₃).bind fun r g₄ h₄ => ?_
      cases r <;> exact h₄

theorem registers_heartbeat (cfg : Scheduler.Config) (w : String) (running : Nat) (h : g.Clear) :
    Registers (heartbeat cfg w running) g fun _ g' => g'.Clear := by
  refine (registers_offBooks (offBooks_requireLeader cfg) h).bind fun denied g₁ h₁ => ?_
  cases denied with
  | some e => exact h₁
  | none =>
    refine Meets.bind (registers_offBooks (Uses.perform trivial) h₁) fun known g₂ h₂ => ?_
    cases known with
    | none => exact h₂
    | some cur =>
      refine Meets.bind (registers_offBooks (Uses.perform trivial) h₂) fun now g₃ h₃ => ?_
      refine (registers_putWorker _ h₃).bind fun r g₄ h₄ => ?_
      cases r <;> exact h₄

theorem registers_reaperTick (cfg : Scheduler.Config) (ps : Cron) (h : g.Clear) :
    Registers (reaperTick cfg ps) g fun _ g' => g'.Clear := by
  refine Meets.bind (registers_offBooks (Uses.perform trivial) h) fun leads g₁ h₁ => ?_
  cases leads with
  | false => exact h₁
  | true =>
    refine Meets.bind (registers_offBooks (Uses.perform trivial) h₁) fun now g₂ h₂ => ?_
    refine Meets.bind (registers_offBooks (Uses.perform trivial) h₂) fun cached g₃ h₃ => ?_
    refine Meets.bind (meets_forM _ Debt.Clear _ g₃ (fun p g₄ _ h₄ => ?_) h₃) fun _ g₄ h₄ =>
      registers_offBooks (offBooks_requeues ps _ _) h₄
    exact (registers_putWorker p.2 h₄).bind fun _ _ h₅ => h₅

/-- A start caches everything it lists. -/
theorem registers_recover (h : g.loading = true) : Registers recover g fun _ g' => g'.Clear := by
  have hlist : Registers Db.listWorkers g fun r g' => ∃ ws, r = .ok ws ∧ g' = g.listed (ws.map WorkerInfo.id) := by
    refine ⟨trivial, fun r hr => ?_⟩
    obtain ⟨ws, rfl⟩ := hr h
    exact ⟨ws, rfl, rfl⟩
  refine hlist.bind ?_
  rintro _ _ ⟨ws, rfl, rfl⟩
  refine Meets.bind (Meets.forM (fun d (g' : Debt) => g'.loading = false ∧ (∀ w ∈ ws, w.id ∈ g'.known) ∧
    ∀ id ∈ g'.owed, id ∈ ws.map WorkerInfo.id ∧ id ∉ d.map WorkerInfo.id) (fun d w rest g' hws hg' => ?_) ?_) ?_
  · -- the round settles what is owed for its own worker
    obtain ⟨hload, hknown, howed⟩ := hg'
    refine ⟨hknown w (hws ▸ List.mem_append_right d List.mem_cons_self), fun _ _ => ⟨hload, hknown, fun id hid => ?_⟩⟩
    obtain ⟨hid, hne⟩ := List.mem_filter.1 hid
    refine ⟨(howed id hid).1, ?_⟩
    rw [List.map_append, List.mem_append, not_or]
    exact ⟨(howed id hid).2, fun he => of_decide_eq_true hne (List.mem_singleton.1 he)⟩
  · refine ⟨rfl, fun w hw => List.mem_append_left _ (List.mem_map_of_mem hw), fun id hid => ⟨?_, List.not_mem_nil⟩⟩
    rw [Debt.listed, h] at hid
    exact hid
  · rintro _ g' ⟨hload, -, howed⟩
    refine ⟨hload, List.eq_nil_iff_forall_not_mem.2 fun id hid => ?_⟩
    exact (howed id hid).2 (howed id hid).1

theorem registers_call (cfg : Scheduler.Config) (ps : Cron) (c : Call) (h : g.Clear) :
    Registers (c.prog cfg ps) g fun _ g' => g'.Clear := by
  cases hc : c.onJobs with
  | true => exact registers_offBooks (offBooks_call cfg ps hc) h
  | false =>
    cases c with
    | registerWorker w => exact (registers_registerWorker cfg w h).bind fun _ _ h' => h'
    | heartbeat w n => exact (registers_heartbeat cfg w n h).bind fun _ _ h' => h'
    | reaper => exact registers_reaperTick cfg ps h
    | submitJob | cancelJob | pollTask | reportTask | timer | becomeLeader => cases hc

/-- The notes with which a task begins. -/
def Task.debt : Task → Debt
  | .recover => { loading := true }
  | _ => {}

theorem registers_task (cfg : Scheduler.Config) (ps : Cron) (t : Task) :
    Registers (t.prog cfg ps) t.debt fun _ g' => g'.Clear := by
  cases t with
  | call c => exact registers_call cfg ps c ⟨rfl, rfl⟩
  | stepDown =>
    refine registers_offBooks ?_ ⟨rfl, rfl⟩
    exact Uses.bind (Uses.perform trivial) fun _ => Uses.bind (Uses.perform trivial) fun _ => Uses.perform trivial
  | recover => exact (registers_recover rfl).bind fun _ _ h' => h'

/-! ## One node -/

/-- The worker is in the store. -/
def Stored (s : Server) (id : String) : Prop := ∃ w, s.store.workers.get id = some w

/-- A cached worker is stored, and a stored one is cached, or some program is about to cache it, or it is due from
elsewhere. Only the program with which a process starts loads the workers. -/
structure Registered (due : String → Prop) (s : Server) (gs : List Debt) : Prop where
  cached : ∀ (id : String) w, s.workers[id]? = some w → Stored s id
  known : ∀ g ∈ gs, ∀ id ∈ g.known, Stored s id
  pending : ∀ id, due id → Stored s id
  stored : ∀ id, Stored s id → (∃ w, s.workers[id]? = some w) ∨ due id ∨ ∃ g ∈ gs, g.loading = true ∨ id ∈ g.owed
  first : ∀ i g, gs[i]? = some g → g.loading = true → i = 0

variable {env : Env} {s s' : Server} {gs : List Debt} {due due' : String → Prop}

/-- Neither the store nor the cache has changed for workers. -/
theorem Registered.same (h : Registered due s gs) (hst : s'.store.workers = s.store.workers) (hw : s'.workers = s.workers) :
    Registered due s' gs := by
  have hiff : ∀ id, Stored s' id ↔ Stored s id := fun id => by rw [Stored, Stored, hst]
  refine ⟨fun id w hc => (hiff id).2 (h.cached id w (hw ▸ hc)), fun g hg id hid => (hiff id).2 (h.known g hg id hid),
    fun id hid => (hiff id).2 (h.pending id hid), fun id hid => ?_, h.first⟩
  rw [hw]
  exact h.stored id ((hiff id).1 hid)

theorem stored_put {w : WorkerInfo} {id : String} (hst : s'.store.workers = s.store.workers.put w) :
    Stored s' id ↔ id = w.id ∨ Stored s id := by
  rw [Stored, Stored, hst]
  by_cases he : id = w.id <;> simp [he]

/-- No program begins to load. -/
theorem Registered.first_set (h : Registered due s gs) {i : Nat} (hi : gs[i]? = some g) {g' : Debt}
    (hload : g'.loading = true → g.loading = true) (n : Nat) (a : Debt) (ha : (gs.set i g')[n]? = some a)
    (hl : a.loading = true) : n = 0 := by
  by_cases hn : i = n
  · subst hn
    rw [List.getElem?_set_self', hi] at ha
    cases ha
    exact h.first i g hi (hload hl)
  · rw [List.getElem?_set_ne hn] at ha
    exact h.first n a ha hl

/-- A program has written a worker. -/
theorem Registered.wrote (h : Registered due s gs) {w : WorkerInfo} {i : Nat} (hi : gs[i]? = some g)
    (hst : s'.store.workers = s.store.workers.put w) (hw : s'.workers = s.workers) :
    Registered due s' (gs.set i (g.wrote w.id)) := by
  refine ⟨fun id v hv => ?_, fun g' hg' id hid => ?_, fun id hid => ?_, fun id hid => ?_, h.first_set hi id⟩ <;>
    rw [stored_put hst] at *
  · exact .inr (h.cached id v (hw ▸ hv))
  · rcases List.mem_or_eq_of_mem_set hg' with hg' | rfl
    · exact .inr (h.known g' hg' id hid)
    · exact (List.mem_cons.1 hid).imp_right (h.known g (List.mem_of_getElem? hi) id)
  · exact .inr (h.pending id hid)
  · rw [hw]
    rcases hid with rfl | hid
    · obtain ⟨hlt, -⟩ := List.getElem?_eq_some_iff.1 hi
      exact .inr (.inr ⟨_, List.mem_set hlt _, .inr List.mem_cons_self⟩)
    · exact (h.stored id hid).imp_right (Or.imp_right fun hg =>
        Pool.exists_mem_set hi hg (Or.imp_right (List.mem_cons_of_mem w.id)))

/-- The cache with one more worker. -/
theorem getElem?_cached {w : WorkerInfo} (hc : s'.workers = s.workers.insert w.id w) (id : String) :
    s'.workers[id]? = if id = w.id then some w else s.workers[id]? := by
  rw [hc, Std.ExtTreeMap.getElem?_insert]
  exact if_congr (compare_keys.trans eq_comm) rfl rfl

/-- A worker that is stored has been cached, and is owed no more. -/
theorem Registered.cache (h : Registered due s gs) {w : WorkerInfo} {gs' : List Debt} (hw : Stored s w.id)
    (hst : s'.store.workers = s.store.workers) (hc : s'.workers = s.workers.insert w.id w)
    (hknown : ∀ g ∈ gs', ∀ id ∈ g.known, Stored s id) (hdue : ∀ id, due' id → due id)
    (howed : ∀ id, id ≠ w.id → (due id ∨ ∃ g ∈ gs, g.loading = true ∨ id ∈ g.owed) →
      due' id ∨ ∃ g ∈ gs', g.loading = true ∨ id ∈ g.owed)
    (hfirst : ∀ i g, gs'[i]? = some g → g.loading = true → i = 0) : Registered due' s' gs' := by
  have hiff : ∀ id, Stored s' id ↔ Stored s id := fun id => by rw [Stored, Stored, hst]
  refine ⟨fun id v hv => ?_, fun g hg id hid => (hiff id).2 (hknown g hg id hid),
    fun id hid => (hiff id).2 (h.pending id (hdue id hid)), fun id hid => ?_, hfirst⟩
  · rw [hiff]
    rw [getElem?_cached hc] at hv
    split at hv
    · rename_i he
      exact he ▸ hw
    · exact h.cached id v hv
  · rw [getElem?_cached hc]
    by_cases he : id = w.id
    · exact .inl ⟨w, if_pos he⟩
    · rw [if_neg he]
      exact (h.stored id ((hiff id).1 hid)).imp_right (howed id he)

/-- A program has cached a worker that it knows. -/
theorem Registered.cached_by (h : Registered due s gs) {w : WorkerInfo} {i : Nat} (hi : gs[i]? = some g)
    (hw : Stored s w.id) (hst : s'.store.workers = s.store.workers) (hc : s'.workers = s.workers.insert w.id w) :
    Registered due s' (gs.set i (g.cached w.id)) := by
  refine h.cache hw hst hc (fun g' hg' id hid => ?_) (fun _ => id) (fun id he hor => ?_) (h.first_set hi id)
  · rcases List.mem_or_eq_of_mem_set hg' with hg' | rfl
    · exact h.known g' hg' id hid
    · exact h.known g (List.mem_of_getElem? hi) id hid
  · refine hor.imp_right fun hg => Pool.exists_mem_set hi hg (Or.imp_right fun howed => ?_)
    exact List.mem_filter.2 ⟨howed, decide_eq_true he⟩

/-- A program has listed the workers. -/
theorem Registered.listed (h : Registered due s gs) {i : Nat} (hi : gs[i]? = some g) :
    Registered due s (gs.set i (g.listed (s.store.workers.list.map WorkerInfo.id))) := by
  have hlist : ∀ id, id ∈ s.store.workers.list.map WorkerInfo.id ↔ Stored s id := by
    intro id
    rw [List.mem_map]
    constructor
    · rintro ⟨w, hw, rfl⟩
      exact ⟨w, Bucket.mem_list.1 hw⟩
    · rintro ⟨w, hw⟩
      obtain rfl := Bucket.get_id hw
      exact ⟨w, Bucket.mem_list.2 hw, rfl⟩
  refine ⟨h.cached, fun g' hg' id hid => ?_, h.pending, fun id hid => ?_, h.first_set hi fun hl => by cases hl⟩
  · rcases List.mem_or_eq_of_mem_set hg' with hg' | rfl
    · exact h.known g' hg' id hid
    · rcases List.mem_append.1 hid with hid | hid
      · exact (hlist id).1 hid
      · exact h.known g (List.mem_of_getElem? hi) id hid
  · refine (h.stored id hid).imp_right (Or.imp_right fun hg => Pool.exists_mem_set hi hg fun hdue => .inr ?_)
    rw [Debt.listed]
    cases hload : g.loading with
    | true => exact (hlist id).2 hid
    | false =>
      rw [hload] at hdue
      exact hdue.resolve_left Bool.false_ne_true

/-- The workers can be listed whenever a program does so in order to cache them. -/
def ListsWorkers (env : Env) (op : Op) (g : Debt) (s : Server) : Prop :=
  op = .listWorkers → g.loading = true → env.fails s.tick = none

theorem inductive_registered (env : Env) (due : String → Prop) :
    Pool.Inductive (handle env) registry (fun op g _ s => ListsWorkers env op g s) (Registered due) := by
  intro op g gs s i hi h hperm hok
  have hset : gs.set i g = gs := Pool.set_self hi
  by_cases hun : Unregistered op
  · obtain ⟨-, hnext⟩ := silent_registry hun g
    have hans : registry.answers op (handle env op s).1 g := by
      cases op with
      | listWorkers => exact hun.elim
      | _ => trivial
    refine ⟨hans, ?_⟩
    rw [hnext _ hans, hset]
    have hframe : (handle env op s).2.store.workers = s.store.workers ∧ (handle env op s).2.workers = s.workers := by
      cases op with
      | putWorker | cacheWorker | listWorkers => exact hun.elim
      | putJob | putDeadLetter =>
        simp only [handle, Server.write]
        split <;> exact ⟨rfl, rfl⟩
      | _ => exact ⟨rfl, rfl⟩
    exact h.same hframe.1 hframe.2
  · cases op with
    | putWorker w =>
      refine ⟨trivial, ?_⟩
      show Registered due _ (gs.set i (g.next (.putWorker w) _))
      simp only [handle, Server.write]
      cases he : env.fails s.tick with
      | some e =>
        show Registered due s.ticked (gs.set i g)
        rw [hset]
        exact h.same rfl rfl
      | none => exact h.wrote hi rfl rfl
    | cacheWorker w => exact ⟨trivial, h.cached_by hi (h.known g (List.mem_of_getElem? hi) w.id hperm) rfl rfl⟩
    | listWorkers =>
      have h' : Registered due s.ticked gs := h.same rfl rfl
      cases he : env.fails s.tick with
      | some e =>
        have hlist : ∃ e', (handle env .listWorkers s).1 = .error e' := by simp [handle, he]
        obtain ⟨e', hlist⟩ := hlist
        refine ⟨fun hload => ?_, ?_⟩
        · cases he.symm.trans (hok rfl hload)
        · show Registered due s.ticked (gs.set i (g.next .listWorkers (handle env .listWorkers s).1))
          rw [hlist]
          show Registered due s.ticked (gs.set i g)
          rw [hset]
          exact h'
      | none =>
        have hlist : (handle env .listWorkers s).1 = .ok s.store.workers.list := by simp only [handle, he]
        refine ⟨fun _ => ⟨_, hlist⟩, ?_⟩
        show Registered due s.ticked (gs.set i (g.next .listWorkers (handle env .listWorkers s).1))
        rw [hlist]
        exact h'.listed hi
    | _ => exact absurd trivial hun

/-! ## The cluster -/

/-- A `Replicate` handler has stored the worker and has yet to cache it. -/
def Uncached (hs : List Caching) (id : String) : Prop := ∃ h ∈ hs, ∃ w, h.uncached = some w ∧ w.id = id

theorem uncached_of_set {hs : List Caching} {k : Nat} {h : Caching} {id : String} (hd : Uncached (hs.set k h) id) :
    Uncached hs id ∨ ∃ w, h.uncached = some w ∧ w.id = id := by
  obtain ⟨d, hmem, hd⟩ := hd
  rcases List.mem_or_eq_of_mem_set hmem with hmem | rfl
  · exact .inl ⟨d, hmem, hd⟩
  · exact .inr hd

/-- What is due, apart from what the handler at hand was to cache. -/
theorem Uncached.set {hs : List Caching} {k : Nat} {h h' : Caching} {id : String} (hd : Uncached hs id) (hk : hs[k]? = some h)
    (hne : ∀ w, h.uncached = some w → w.id ≠ id) : Uncached (hs.set k h') id := by
  obtain ⟨d, hmem, w, hw, rfl⟩ := hd
  refine Pool.exists_mem_set hk ⟨d, hmem, w, hw, rfl⟩ fun hw' => ?_
  obtain ⟨w', hw', hid⟩ := hw'
  exact absurd hid (hne w' hw')

theorem due_append_iff {hs : List Caching} {h : Handling} {id : String} : Uncached (hs ++ [⟨h, none⟩]) id ↔ Uncached hs id := by
  constructor
  · rintro ⟨d, hmem, w, hw, hid⟩
    rcases List.mem_append.1 hmem with hmem | hmem
    · exact ⟨d, hmem, w, hw, hid⟩
    · rw [List.mem_singleton.1 hmem] at hw
      cases hw
  · rintro ⟨d, hmem, hd⟩
    exact ⟨d, List.mem_append_left _ hmem, hd⟩

theorem due_eraseIdx {hs : List Caching} {k : Nat} {h : Caching} (hk : hs[k]? = some h) (hh : h.uncached = none)
    (id : String) : Uncached (hs.eraseIdx k) id ↔ Uncached hs id := by
  constructor
  · rintro ⟨d, hmem, hd⟩
    exact ⟨d, List.mem_of_mem_eraseIdx hmem, hd⟩
  · rintro ⟨d, hmem, w, hw, hid⟩
    obtain ⟨n, hn⟩ := List.mem_iff_getElem?.1 hmem
    refine ⟨d, ?_, w, hw, hid⟩
    rw [List.mem_eraseIdx_iff_getElem?]
    refine ⟨n, ?_, hn⟩
    rintro rfl
    cases hk.symm.trans hn
    cases hh.symm.trans hw

/-- A handler has written a worker. -/
theorem Registered.stored_by {hs : List Caching} (h : Registered (Uncached hs) s gs) {k : Nat} {d d' : Caching} {w : WorkerInfo}
    (hk : hs[k]? = some d) (hd : d.uncached = none) (hst : s'.store.workers = s.store.workers.put w)
    (hw : s'.workers = s.workers) (hd' : d'.uncached = some w) : Registered (Uncached (hs.set k d')) s' gs := by
  refine ⟨fun id v hv => ?_, fun g hg id hid => ?_, fun id hid => ?_, fun id hid => ?_, h.first⟩ <;> rw [stored_put hst] at *
  · exact .inr (h.cached id v (hw ▸ hv))
  · exact .inr (h.known g hg id hid)
  · rcases uncached_of_set hid with hid | ⟨w', hw', rfl⟩
    · exact .inr (h.pending id hid)
    · cases hd'.symm.trans hw'
      exact .inl rfl
  · rw [hw]
    rcases hid with rfl | hid
    · obtain ⟨hlt, -⟩ := List.getElem?_eq_some_iff.1 hk
      exact .inr (.inl ⟨d', List.mem_set hlt _, w, hd', rfl⟩)
    · exact (h.stored id hid).imp_right (Or.imp_left fun hdue => hdue.set hk fun w' hw' => by cases hd.symm.trans hw')

/-- A handler has cached the worker it has written. -/
theorem Registered.cached_of {hs : List Caching} (h : Registered (Uncached hs) s gs) {k : Nat} {d d' : Caching} {w : WorkerInfo}
    (hk : hs[k]? = some d) (hd : d.uncached = some w) (hst : s'.store.workers = s.store.workers)
    (hw : s'.workers = s.workers.insert w.id w) (hd' : d'.uncached = none) : Registered (Uncached (hs.set k d')) s' gs := by
  refine h.cache (h.pending w.id ⟨d, List.mem_of_getElem? hk, w, hd, rfl⟩) hst hw h.known
    (fun id hid => ?_) (fun id he => ?_) h.first
  · refine (uncached_of_set hid).resolve_right ?_
    rintro ⟨w', hw', -⟩
    cases hd'.symm.trans hw'
  · refine Or.imp_left fun hdue => hdue.set hk fun w' hw' => ?_
    cases hd.symm.trans hw'
    exact Ne.symm he

/-- The programs under way on a node. -/
abbrev Programs := Pool Op Op.Resp Server Trail Unit

/-- What an action can do to a node, if the workers can be listed at its start. -/
inductive Moved (env : Env) (ps : Cron) (r : Replica) : Replica → Prop
  | begin {t : Task} (ht : t ≠ .recover) : Moved env ps r { r with pool := r.pool.enter (t.prog env.cfg ps) {} }
  | turn {p : Programs} {k : Nat} (hok : ∀ cont g, k = 0 → r.pool.threads[k]? = some ⟨.call .listWorkers cont, g⟩ →
      env.fails r.server.tick = none) (hstep : r.pool.step (handle env) (conduct ps) k = some p) :
    Moved env ps r { r with pool := p }
  | outside {s : Server} {hs : List Caching} (hst : s.store.workers = r.server.store.workers)
    (hw : s.workers = r.server.workers) (hdue : ∀ id, Uncached hs id ↔ Uncached r.handlers id) :
    Moved env ps r { r.outside s with handlers := hs }
  /-- A handler has written a worker. -/
  | stored {s : Server} {k : Nat} {h h' : Caching} {w : WorkerInfo} (hk : r.handlers[k]? = some h) (hh : h.uncached = none)
    (hst : s.store.workers = r.server.store.workers.put w) (hw : s.workers = r.server.workers) (hh' : h'.uncached = some w) :
    Moved env ps r { r.outside s with handlers := r.handlers.set k h' }
  /-- A handler has cached the worker it has written. -/
  | cached {s : Server} {k : Nat} {h h' : Caching} {w : WorkerInfo} (hk : r.handlers[k]? = some h) (hh : h.uncached = some w)
    (hst : s.store.workers = r.server.store.workers) (hw : s.workers = r.server.workers.insert w.id w)
    (hh' : h'.uncached = none) : Moved env ps r { r.outside s with handlers := r.handlers.set k h' }
  | restart (node : Cluster.Node) : Moved env ps r (r.restart env.cfg ps node)

/-- Nothing has happened to the node. -/
theorem Moved.refl (env : Env) (ps : Cron) (r : Replica) : Moved env ps r r := .outside rfl rfl fun _ => Iff.rfl

/-- The program with which a process starts does not fail to list the workers. -/
def Loads (env : String → Env) (c : Replicas) : Action → Prop
  | .turn i 0 => ∀ cont g, (c.replica i).pool.threads[0]? = some ⟨.call .listWorkers cont, g⟩ →
      (env i).fails (c.replica i).server.tick = none
  | _ => True

theorem moved_set {env : String → Env} {ps : Cron} {c : Replicas} {i : String} {r : Replica}
    (h : Moved (env i) ps (c.replica i) r) (n : String) : Moved (env n) ps (c.replica n) ((c.set i r).replica n) := by
  show Moved (env n) ps (c.replica n) (Function.update c.replica i r n)
  by_cases hn : n = i
  · subst hn
    rw [Function.update_self]
    exact h
  · rw [Function.update_of_ne hn]
    exact .refl (env n) ps (c.replica n)

/-- The handler has gone on to its next entry, and neither before nor after it has a worker to cache. -/
theorem due_set_none {hs : List Caching} {k : Nat} {h h' : Caching} (hk : hs[k]? = some h) (hh : h.uncached = none)
    (hh' : h'.uncached = none) (id : String) : Uncached (hs.set k h') id ↔ Uncached hs id := by
  constructor
  · intro hd
    refine (uncached_of_set hd).resolve_right ?_
    rintro ⟨w, hw, -⟩
    cases hh'.symm.trans hw
  · exact fun hd => hd.set hk fun w hw => by cases hh.symm.trans hw

theorem moved_apply {ps : Cron} {r : Replica} {k : Nat} {q : Request} {e : ReplicationEntry} {rest : List ReplicationEntry}
    {last : Int} (ok : Bool) (hk : r.handlers[k]? = some ⟨⟨q, e :: rest, last⟩, none⟩) :
    Moved env ps r (r.apply k ok e ⟨q, rest, seen last e⟩) := by
  cases ok with
  | false => exact .outside rfl rfl fun id => due_set_none hk rfl rfl id
  | true =>
    obtain ⟨seq, m⟩ := e
    cases m with
    | none => exact .outside rfl rfl fun id => due_set_none hk rfl rfl id
    | some m =>
      cases m with
      | upsertJob j | deleteJobId x => exact .outside rfl rfl fun id => due_set_none hk rfl rfl id
      | upsertWorker w => exact .stored hk rfl rfl rfl rfl

/-- An action does to every node one of these things. -/
theorem moved_act {env : String → Env} {ps : Cron} {c c' : Replicas} {a : Action} (hok : Loads env c a)
    (hact : act env ps c a = some c') (n : String) : Moved (env n) ps (c.replica n) (c'.replica n) := by
  cases a with
  | begin i t =>
    obtain ⟨hen, ⟨⟩⟩ := Option.ite_none_right_eq_some.1 hact
    refine moved_set (.begin ?_) n
    rintro rfl
    cases hen
  | turn i k =>
    obtain ⟨pool, hstep, rfl⟩ := Option.map_eq_some_iff.1 hact
    refine moved_set (.turn (fun cont g hzero hi => ?_) hstep) n
    subst hzero
    exact hok cont g hi
  | elect i node =>
    cases hact
    refine moved_set ?_ n
    exact .outside rfl rfl fun _ => Iff.rfl
  | send i peer term =>
    cases hact
    exact .refl ..
  | deliver k saved =>
    obtain ⟨⟨i, q⟩, -, rfl⟩ := Option.map_eq_some_iff.1 hact
    refine moved_set ?_ n
    refine .outside rfl rfl fun id => ?_
    split
    · exact due_append_iff
    · exact Iff.rfl
  | apply i k ok =>
    simp only [act] at hact
    split at hact
    · rename_i q e rest last hk
      cases hact
      exact moved_set (moved_apply ok hk) n
    · cases hact
  | cache i k =>
    simp only [act] at hact
    split at hact
    · rename_i h w hk
      cases hact
      refine moved_set ?_ n
      exact .cached hk rfl rfl rfl rfl
    · cases hact
  | respond i k =>
    simp only [act] at hact
    split at hact
    · rename_i q last hk
      cases hact
      refine moved_set ?_ n
      exact .outside rfl rfl fun id => due_eraseIdx hk rfl id
    · cases hact
  | ack k =>
    obtain ⟨⟨peer, a⟩, -, rfl⟩ := Option.map_eq_some_iff.1 hact
    refine moved_set ?_ n
    exact .outside rfl rfl fun _ => Iff.rfl
  | restart i node =>
    cases hact
    exact moved_set (.restart node) n

/-- With suitable notes for its programs, the registry of the node is in order. -/
abbrev InRegister (r : Replica) : Prop := Pool.Tracked registry (Registered (Uncached r.handlers)) (fun _ g => g.Clear) r.pool

/-- A process that is about to load its workers. -/
theorem inRegister_new (cfg : Scheduler.Config) (ps : Cron) (hs : ∀ id : String, s.workers[id]? = none) :
    InRegister { pool := ⟨s, [⟨Task.recover.prog cfg ps, {}⟩]⟩ } := by
  refine ⟨[Task.recover.debt], ⟨fun id w hw => ?_, fun g hg id hid => ?_, fun id hid => ?_, fun id _ => ?_, fun i g hg _ => ?_⟩,
    rfl, fun i t g ht hg => ?_⟩
  · rw [hs] at hw
    cases hw
  · rw [List.mem_singleton.1 hg] at hid
    cases hid
  · obtain ⟨_, hmem, _⟩ := hid
    cases hmem
  · exact .inr (.inr ⟨_, List.mem_singleton_self _, .inl rfl⟩)
  · rw [List.getElem?_singleton] at hg
    split at hg
    · assumption
    · cases hg
  · rw [List.getElem?_singleton] at ht hg
    split at ht
    · rename_i hi
      rw [if_pos hi] at hg
      cases ht
      cases hg
      exact registers_task cfg ps .recover
    · cases ht

theorem InRegister.begin {r : Replica} (h : InRegister r) (cfg : Scheduler.Config) (ps : Cron) {t : Task}
    (ht : t ≠ .recover) : InRegister { r with pool := r.pool.enter (t.prog cfg ps) {} } := by
  have hdebt : t.debt = {} := by
    cases t with
    | call | stepDown => rfl
    | recover => exact absurd rfl ht
  refine Pool.Tracked.enter h {} (fun gs hg => ?_) (registers_task cfg ps t)
  rw [hdebt]
  refine ⟨hg.cached, fun g hmem id hid => ?_, hg.pending, fun id hid => ?_, fun i g hi hl => ?_⟩
  · rcases List.mem_append.1 hmem with hmem | hmem
    · exact hg.known g hmem id hid
    · rw [List.mem_singleton.1 hmem] at hid
      cases hid
  · refine (hg.stored id hid).imp_right (Or.imp_right ?_)
    rintro ⟨g, hmem, hdue⟩
    exact ⟨g, List.mem_append_left _ hmem, hdue⟩
  · rw [List.getElem?_append] at hi
    split at hi
    · exact hg.first i g hi hl
    · rw [List.getElem?_singleton] at hi
      split at hi
      · cases hi
        cases hl
      · cases hi

theorem InRegister.moved {ps : Cron} {r r' : Replica} (h : InRegister r) (hm : Moved env ps r r') : InRegister r' := by
  cases hm with
  | begin ht => exact h.begin env.cfg ps ht
  | turn hok hstep =>
    refine Pool.Tracked.step (inductive_registered env (Uncached r.handlers)) h (fun op cont g g' gs hi hg hreg => ?_) hstep
    rintro rfl hload
    exact hok cont g (hreg.first _ g' hg hload) hi
  | outside hst hw hdue =>
    refine Pool.Tracked.outside h fun _ hg => ?_
    rw [funext fun id => propext (hdue id)]
    exact hg.same hst hw
  | stored hk hh hst hw hh' => exact Pool.Tracked.outside h fun _ hg => hg.stored_by hk hh hst hw hh'
  | cached hk hh hst hw hh' => exact Pool.Tracked.outside h fun _ hg => hg.cached_of hk hh hst hw hh'
  | restart node => exact inRegister_new env.cfg ps fun _ => Std.ExtTreeMap.getElem?_empty

/-- Nothing takes a worker out of a store. -/
theorem stored_moved {ps : Cron} {r r' : Replica} {id : String} (h : Stored r.server id) (hm : Moved env ps r r') :
    Stored r'.server id := by
  cases hm with
  | begin ht => exact h
  | turn hok hstep =>
    obtain ⟨op, cont, g, -, rfl⟩ := Pool.step_eq_some hstep
    show Stored (handle env op r.server).2 id
    cases op with
    | putWorker w =>
      simp only [handle, Server.write]
      split
      · exact h
      · exact (stored_put rfl).2 (.inr h)
    | putJob | putDeadLetter =>
      simp only [handle, Server.write]
      split <;> exact h
    | _ => exact h
  | outside hst hw hdue => exact (congrArg (fun b => ∃ w, Bucket.get b id = some w) hst).mpr h
  | stored hk hh hst hw hh' => exact (stored_put hst).2 (.inr h)
  | cached hk hh hst hw hh' => exact (congrArg (fun b => ∃ w, Bucket.get b id = some w) hst).mpr h
  | restart node => exact h

section

variable {env : String → Env} {ps : Cron} {stores : String → Store} {c c' : Replicas}

theorem inRegister_of_runs (h : Runs env ps (Loads env) (start env ps stores) c) (i : String) :
    InRegister (c.replica i) := by
  induction h with
  | refl => exact inRegister_new _ ps fun _ => Std.ExtTreeMap.getElem?_empty
  | step _ hok hact ih => exact ih.moved (moved_act hok hact i)

theorem stored_of_runs (h : Runs env ps (Loads env) c c') {i id : String} (hs : Stored (c.replica i).server id) :
    Stored (c'.replica i).server id := by
  induction h with
  | refl => exact hs
  | step _ hok hact ih => exact stored_moved ih (moved_act hok hact i)

/-- A worker that a node has once had in its cache is in its store from then on, and in its cache whenever no program and no
`Replicate` handler is under way there; and the workers it then has in its cache are exactly those in its store. This holds
in every interleaving of the handlers, with elections, replication, failing writes and restarts at any moment, as long as
no process starts whose store failed to list its workers. -/
theorem workers_known_for_good (h : Runs env ps (Loads env) (start env ps stores) c) (h' : Runs env ps (Loads env) c c')
    (i : String) :
    (∀ (id : String) w, (c.replica i).server.workers[id]? = some w →
      ∃ w', (c'.replica i).server.store.workers.get id = some w') ∧
    ((c'.replica i).pool.idle = true → (c'.replica i).handlers = [] → ∀ id : String,
      (∃ w, (c'.replica i).server.workers[id]? = some w) ↔ ∃ w, (c'.replica i).server.store.workers.get id = some w) := by
  obtain ⟨gs, hreg⟩ := inRegister_of_runs h i
  have hrun : Runs env ps (Loads env) (start env ps stores) c' := by
    induction h' with
    | refl => exact h
    | step _ hok hact ih => exact ih.step hok hact
  obtain ⟨gs', hreg'⟩ := inRegister_of_runs hrun i
  constructor
  · intro id w hw
    exact stored_of_runs h' (hreg.inv.cached id w hw)
  · intro hidle hnone id
    constructor
    · rintro ⟨w, hw⟩
      exact hreg'.inv.cached id w hw
    · intro hst
      obtain hc | hdue | ⟨g, hg, hdue⟩ := hreg'.inv.stored id hst
      · exact hc
      · obtain ⟨d, hd, -⟩ := hdue
        rw [hnone] at hd
        cases hd
      · -- a program that has ended owes nothing
        obtain ⟨-, hclear⟩ := hreg'.ended hidle hg
        rw [hclear.loading, hclear.owed] at hdue
        simp at hdue

end

/-- `s1` leads, and a worker registers with it. The log reaches `s2`, which stores the worker and caches it. -/
def registering : List Action :=
  .turn "s2" 0 :: .turn "s1" 0 :: .elect "s1" leading :: whole "s1" 1 6 (.call (.registerWorker (some { id := "w" }))) ++
    [.send "s1" "s2" 1, .deliver 0 true, .apply "s2" 0 true, .cache "s2" 0, .respond "s2" 0]

/-- Both nodes crash; their next processes load the workers. -/
def reloading : List Action :=
  [.restart "s1" leading, .turn "s1" 0, .turn "s1" 0, .restart "s2" {}, .turn "s2" 0, .turn "s2" 0]

theorem workers_known_for_good_reloading : ∃ c c', acts (fun _ => .steady) noCron (fun _ _ => true) cold registering = some c ∧
    acts (fun _ => .steady) noCron (fun _ _ => true) c reloading = some c' ∧
    ∀ i ∈ ["s1", "s2"], ∃ w, (c'.replica i).server.workers["w"]? = some w := by
  have hrun : ((acts (fun _ => .steady) noCron (fun _ _ => true) cold registering).bind fun c =>
      (acts (fun _ => .steady) noCron (fun _ _ => true) c reloading).map fun c' => ["s1", "s2"].all fun i =>
        ((c.replica i).server.workers["w"]?).isSome && ((c'.replica i).pool.idle && (c'.replica i).handlers.isEmpty)) =
      some true := by
    decide +kernel
  obtain ⟨c, hc, hrest⟩ := Option.bind_eq_some_iff.1 hrun
  obtain ⟨c', hc', hends⟩ := Option.map_eq_some_iff.1 hrest
  have hloads : ∀ c a, true = true → Loads (fun _ => .steady) c a := by
    intro c a _
    cases a with
    | turn i k =>
      cases k with
      | zero => exact fun _ _ _ => rfl
      | succ k => trivial
    | _ => trivial
  refine ⟨c, c', hc, hc', fun i hi => ?_⟩
  have hgood := workers_known_for_good (runs_of_acts hloads .refl hc) (runs_of_acts hloads .refl hc') i
  have hend := List.all_eq_true.1 hends i hi
  simp only [Bool.and_eq_true, List.isEmpty_iff] at hend
  obtain ⟨hcached, hidle, hnone⟩ := hend
  obtain ⟨w, hw⟩ := Option.isSome_iff_exists.1 hcached
  exact (hgood.2 hidle hnone "w").2 (hgood.1 "w" w hw)

end Distsched.Failover
