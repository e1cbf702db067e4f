/-
A follower that starts from nothing acknowledged: the leader seeds its log with a snapshot of its store, goes on to
log what it stores, and the follower applies the whole log in order. The log only ever puts records, so what the
follower held under other keys stays: a job accepted by a deposed leader and never replicated survives there.
-/
import Distsched.Replication.Complete

namespace Distsched.Replication

open Scheduler Prog Journal

/-- The leader's calls, one after the other. -/
def serve (env : Env) (s : Server) (ws : List Writer) : Server := ws.foldl (fun s w => (exec (handle env) w.prog s).2) s

/-- The store of a follower to which the requests arrive in order. -/
def receive (st : Store) (requests : List (List ReplicationEntry)) : Store :=
  requests.foldl (fun st es => (applyEntries st es).1) st

theorem receive_eq (st : Store) (requests : List (List ReplicationEntry)) :
    receive st requests = (applyEntries st requests.flatten).1 := by
  unfold receive
  induction requests generalizing st with
  | nil => rfl
  | cons es requests ih =>
    rw [List.foldl_cons, ih]
    show List.foldl applyEntry (List.foldl applyEntry st es) requests.flatten = _
    rw [← List.foldl_append]
    rfl

variable {env : Env} {s : Server}

theorem exec_appendRepl (hl : s.node.isLeader = true) (m : Mutation) :
    exec (handle env) (appendRepl m) s = ((), { s with repl := s.repl.append m, tick := s.tick + 2 }) := by
  rw [appendRepl, exec_bind]
  show exec (handle env) (if s.node.isLeader = true then Scheduler.act (.appendLog m) else pure ()) s.ticked = _
  rw [if_pos hl]
  rfl

/-! ## What the log carries -/

/-- The keys whose records the log lacks after a call, if it lacked those of `m` before: a seed whose listing fails leaves
out all records of that kind, and a put that succeeds logs its record. -/
def Writer.missed (env : Env) (s : Server) (m : Key → Bool) : Writer → Key → Bool
  | .putJob job => if (env.fails s.tick).isSome then m else Function.update m (.job job.id) false
  | .putWorker worker => if (env.fails s.tick).isSome then m else Function.update m (.worker worker.id) false
  | .seedReplication => fun
    | .job _ => (env.fails s.tick).isSome
    | .worker _ => (env.fails (s.tick + 1)).isSome

/-- The keys whose records the log lacks after the calls. -/
def missed (env : Env) (s : Server) (m : Key → Bool) : List Writer → Key → Bool
  | [] => m
  | w :: ws => missed env (exec (handle env) w.prog s).2 (w.missed env s m) ws

/-- The log has no entry about the keys of `m`, and says of every other what is stored. -/
structure LogCarries (s : Server) (m : Key → Bool) : Prop where
  leads : s.node.isLeader = true
  lacks : ∀ k, m k = true → ∀ w ∈ writesOf s.repl.replLog, w.key ≠ k
  agree : ∀ k, m k = false → logged s.repl k = contents s.store k
  puts : ∀ w ∈ writesOf s.repl.replLog, w.value ≠ none

variable {m : Key → Bool}

theorem mem_writesOf_append {r : Repl} {mu : Mutation} {w : Write Key Value} (h : w ∈ writesOf (r.append mu).replLog) :
    w ∈ writesOf r.replLog ∨ w = writeOf mu := by
  rw [Repl.append, writesOf_append] at h
  exact (List.mem_append.1 h).imp_right List.mem_singleton.1

/-- A record is stored and logged. -/
theorem LogCarries.put {s' : Server} (h : LogCarries s m) (mu : Mutation) (hmu : (writeOf mu).value ≠ none)
    (hnode : s'.node = s.node)
    (hst : s'.store = applyEntry s.store ⟨0, some mu⟩) (hlog : s'.repl = s.repl.append mu) :
    LogCarries s' (Function.update m (writeOf mu).key false) where
  leads := by rw [hnode]; exact h.leads
  lacks k hk w hw := by
    by_cases hkey : k = (writeOf mu).key
    · rw [hkey, Function.update_self] at hk
      cases hk
    · rw [Function.update_of_ne hkey] at hk
      rw [hlog] at hw
      rcases mem_writesOf_append hw with hw | rfl
      · exact h.lacks k hk w hw
      · exact Ne.symm hkey
  agree k hk := by
    have hnew : contents s'.store = Function.update (contents s.store) (writeOf mu).key (writeOf mu).value := by
      rw [hst, contents_applyEntry]
      rfl
    rw [hnew, hlog, logged_append, Function.update_apply, Function.update_apply]
    by_cases hkey : k = (writeOf mu).key
    · rw [if_pos hkey, if_pos hkey]
    · rw [Function.update_of_ne hkey] at hk
      rw [if_neg hkey, if_neg hkey]
      exact h.agree k hk
  puts w hw := by
    rw [hlog] at hw
    rcases mem_writesOf_append hw with hw | rfl
    · exact h.puts w hw
    · exact hmu

/-- A put of a leader stores its record and logs it. -/
theorem exec_putJob (hf : env.fails s.tick = none) (hl : s.node.isLeader = true) (job : Job) :
    (exec (handle env) (Scheduler.putJob job) s).2 = { s with
      store := applyEntry s.store ⟨0, some (.upsertJob job)⟩, repl := s.repl.append (.upsertJob job), tick := s.tick + 3 } := by
  have hput : exec (handle env) (Db.putJob job) s =
      (.ok (), { s.ticked with store := applyEntry s.store ⟨0, some (.upsertJob job)⟩ }) := by
    simp only [Db.putJob, act, exec_perform, handle, Server.write, hf]
    rfl
  rw [Scheduler.putJob, exec_bind, hput]
  dsimp only
  rw [exec_bind, exec_appendRepl (by exact hl)]
  rfl

theorem exec_putWorker (hf : env.fails s.tick = none) (hl : s.node.isLeader = true) (w : WorkerInfo) :
    (exec (handle env) (Scheduler.putWorker w) s).2 = { s with
      store := applyEntry s.store ⟨0, some (.upsertWorker w)⟩, repl := s.repl.append (.upsertWorker w)
      workers := s.workers.insert w.id w, tick := s.tick + 4 } := by
  have hput : exec (handle env) (Db.putWorker w) s =
      (.ok (), { s.ticked with store := applyEntry s.store ⟨0, some (.upsertWorker w)⟩ }) := by
    simp only [Db.putWorker, act, exec_perform, handle, Server.write, hf]
    rfl
  rw [Scheduler.putWorker, exec_bind, hput]
  dsimp only
  rw [exec_bind, exec_appendRepl (by exact hl)]
  rfl

theorem exec_putWorker_lost (w : WorkerInfo) {err : String} (hf : env.fails s.tick = some err) :
    exec (handle env) (Scheduler.putWorker w) s = (.error err, s.ticked) := by
  simp only [Scheduler.putWorker, Db.putWorker, act, exec_bind, exec_perform, handle, Server.write, hf]
  rfl

theorem logCarries_putJob (h : LogCarries s m) (job : Job) :
    LogCarries (exec (handle env) (Scheduler.putJob job) s).2 (Writer.missed env s m (.putJob job)) := by
  cases hf : env.fails s.tick with
  | some e =>
    rw [exec_putJob_lost job hf, Writer.missed, hf]
    exact ⟨h.leads, h.lacks, h.agree, h.puts⟩
  | none =>
    rw [exec_putJob hf h.leads, Writer.missed, hf]
    exact h.put (.upsertJob job) nofun rfl rfl rfl

theorem logCarries_putWorker (h : LogCarries s m) (worker : WorkerInfo) :
    LogCarries (exec (handle env) (Scheduler.putWorker worker) s).2 (Writer.missed env s m (.putWorker worker)) := by
  cases hf : env.fails s.tick with
  | some e =>
    rw [exec_putWorker_lost worker hf, Writer.missed, hf]
    exact ⟨h.leads, h.lacks, h.agree, h.puts⟩
  | none =>
    rw [exec_putWorker hf h.leads, Writer.missed, hf]
    exact h.put (.upsertWorker worker) nofun rfl rfl rfl

/-- What a seed installs: what it could list. -/
theorem exec_seedReplication (env : Env) (s : Server) : (exec (handle env) seedReplication s).2 = { s with
    repl := Repl.seed (if (env.fails s.tick).isSome then [] else s.store.jobs.list)
      (if (env.fails (s.tick + 1)).isSome then [] else s.store.workers.list)
    tick := s.tick + 3 } := by
  rw [seedReplication, exec_bind, exec_bind]
  have hj : exec (handle env) Db.listJobs s = ((env.fails s.tick).elim (.ok s.store.jobs.list) .error, s.ticked) := by
    show handle env .listJobs s = _
    rw [handle]
    cases env.fails s.tick with
    | none => rfl
    | some e => rfl
  have hw : exec (handle env) Db.listWorkers s.ticked =
      ((env.fails (s.tick + 1)).elim (.ok s.store.workers.list) .error, s.ticked.ticked) := by
    show handle env .listWorkers s.ticked = _
    rw [handle, Server.ticked]
    cases env.fails (s.tick + 1) with
    | none => rfl
    | some e => rfl
  rw [hj, hw]
  cases env.fails s.tick <;> cases env.fails (s.tick + 1) <;> rfl

theorem logCarries_seed (hl : s.node.isLeader = true) (m : Key → Bool) :
    LogCarries (exec (handle env) seedReplication s).2 (Writer.missed env s m .seedReplication) := by
  rw [exec_seedReplication]
  refine ⟨hl, fun k hk w hw => ?_, fun k hk => ?_, fun w hw => ?_⟩
  · dsimp only at hw
    rw [writesOf_seed, List.mem_append] at hw
    cases k with
    | job id =>
      replace hk : (env.fails s.tick).isSome = true := hk
      rw [hk, if_pos rfl] at hw
      rcases hw with hw | hw
      · cases hw
      · obtain ⟨_, _, rfl⟩ := List.mem_map.1 hw
        exact Key.noConfusion
    | worker id =>
      replace hk : (env.fails (s.tick + 1)).isSome = true := hk
      rw [hk, if_pos rfl] at hw
      rcases hw with hw | hw
      · obtain ⟨_, _, rfl⟩ := List.mem_map.1 hw
        exact Key.noConfusion
      · cases hw
  · cases k with
    | job id =>
      replace hk : (env.fails s.tick).isSome = false := hk
      rw [logged_seed_job, hk, if_neg Bool.false_ne_true, replay_jobs]
    | worker id =>
      replace hk : (env.fails (s.tick + 1)).isSome = false := hk
      rw [logged_seed_worker, hk, if_neg Bool.false_ne_true, replay_workers]
  · dsimp only at hw
    rw [writesOf_seed, List.mem_append] at hw
    rcases hw with hw | hw
    · obtain ⟨_, _, rfl⟩ := List.mem_map.1 hw
      exact nofun
    · obtain ⟨_, _, rfl⟩ := List.mem_map.1 hw
      exact nofun

theorem logCarries_writer (w : Writer) (h : LogCarries s m) : LogCarries (exec (handle env) w.prog s).2 (w.missed env s m) := by
  cases w with
  | putJob job => exact logCarries_putJob h job
  | putWorker worker => exact logCarries_putWorker h worker
  | seedReplication => exact logCarries_seed h.leads m

theorem logCarries_serve (ws : List Writer) (h : LogCarries s m) : LogCarries (serve env s ws) (missed env s m ws) := by
  induction ws generalizing s m with
  | nil => exact h
  | cons w ws ih => exact ih (logCarries_writer w h)

/-- A follower that applies the log has the leader's records where the leader has one and the log says so, and elsewhere its
own. -/
theorem contents_receive {requests : List (List ReplicationEntry)} (st : Store) (h : LogCarries s m)
    (hlog : requests.flatten = s.repl.replLog) (k : Key) : contents (receive st requests) k =
      if contents s.store k ≠ none ∧ m k = false then contents s.store k else contents st k := by
  rw [receive_eq, hlog, contents_applyEntries]
  by_cases hk : ∃ w ∈ writesOf s.repl.replLog, w.key = k
  · obtain ⟨l, w, r, hws, rfl, hlast⟩ := exists_last hk
    have hm : m w.key = false := by
      by_contra hm
      exact h.lacks w.key (by simpa using hm) w (by rw [hws]; simp) rfl
    have hagree := h.agree w.key hm
    rw [logged, hws, replay_of_last hlast] at hagree
    rw [hws, replay_of_last hlast, hagree]
    split
    · rfl
    · rename_i hnot
      refine absurd ⟨?_, hm⟩ hnot
      rw [← hagree]
      exact h.puts w (by rw [hws]; simp)
  · push Not at hk
    rw [replay_of_notMem hk]
    refine (if_neg ?_).symm
    rintro ⟨hsome, hm⟩
    have hagree := h.agree k hm
    rw [logged, replay_of_notMem hk] at hagree
    exact hsome hagree.symm

/-- The leader seeds its log and makes further calls, and the follower gets the whole log in requests in order. The
follower's jobs and workers are then the leader's exactly if each record in which they differed is one that the leader
holds and whose listing has not failed, or which was put since. While no listing fails these are all IDs the leader
holds. -/
theorem snapshot_converges (hl : s.node.isLeader = true) (ws : List Writer) (st : Store)
    (requests : List (List ReplicationEntry)) (hlog : requests.flatten = (serve env s (.seedReplication :: ws)).repl.replLog) :
    ((receive st requests).jobs = (serve env s (.seedReplication :: ws)).store.jobs ∧
      (receive st requests).workers = (serve env s (.seedReplication :: ws)).store.workers) ↔
    ∀ k, contents st k ≠ contents (serve env s (.seedReplication :: ws)).store k →
      contents (serve env s (.seedReplication :: ws)).store k ≠ none ∧
        missed env s (fun _ => true) (.seedReplication :: ws) k = false := by
  have hc : LogCarries (serve env s (.seedReplication :: ws)) (missed env s (fun _ => true) (.seedReplication :: ws)) :=
    logCarries_serve ws (logCarries_seed hl _)
  rw [← contents_eq_iff, funext_iff]
  refine forall_congr' fun k => ?_
  rw [contents_receive st hc hlog k]
  constructor
  · intro h hne
    by_contra hnot
    rw [if_neg hnot] at h
    exact hne h
  · intro h
    split
    · rfl
    · rename_i hnot
      by_contra hne
      exact hnot (h hne)

/-- The keys under which a store holds something. -/
def keys (st : Store) : List Key := st.jobs.list.map (fun j => .job j.id) ++ st.workers.list.map fun w => .worker w.id

theorem contents_of_notMem_keys {st : Store} {k : Key} (h : k ∉ keys st) : contents st k = none := by
  rw [keys, List.mem_append, not_or] at h
  cases k with
  | job id =>
    refine Option.map_eq_none_iff.2 (Option.eq_none_iff_forall_ne_some.2 fun j hj => h.1 ?_)
    obtain rfl := Bucket.get_id hj
    exact List.mem_map.2 ⟨j, Bucket.mem_list.2 hj, rfl⟩
  | worker id =>
    refine Option.map_eq_none_iff.2 (Option.eq_none_iff_forall_ne_some.2 fun w hw => h.2 ?_)
    obtain rfl := Bucket.get_id hw
    exact List.mem_map.2 ⟨w, Bucket.mem_list.2 hw, rfl⟩

/-- A store that holds one job. -/
def holding (job : Job) : Store := { Store.empty with jobs := .put .empty job }

/-- A leader that holds the job "x", of which the follower has another record. -/
def leaderX : Server := serve .steady newLeader [.putJob queuedX]

/-- The listing of the workers fails. -/
def halfListed : Env := .failing (· = leaderX.tick + 1)

/-- The leader seeds its log, the listing of its workers fails, of which it has none, and it stores the job once more. -/
theorem snapshot_converges_stale :
    (receive (holding { id := "x" }) [(serve halfListed leaderX [.seedReplication, .putJob canceledX]).repl.replLog]).jobs =
      (serve halfListed leaderX [.seedReplication, .putJob canceledX]).store.jobs := by
  have hstores : keys (holding { id := "x" }) = [.job "x"] ∧
      keys (serve halfListed leaderX [.seedReplication, .putJob canceledX]).store = [.job "x"] ∧
      (contents (serve halfListed leaderX [.seedReplication, .putJob canceledX]).store (.job "x")).isSome = true ∧
      missed halfListed leaderX (fun _ => true) [.seedReplication, .putJob canceledX] (.job "x") = false := by
    decide +kernel
  obtain ⟨hfollower, hleader, hx, hlisted⟩ := hstores
  refine ((snapshot_converges rfl [.putJob canceledX] (holding { id := "x" }) _ (List.flatten_singleton ..)).2 fun k hk => ?_).1
  obtain rfl : k = .job "x" := by
    by_contra hne
    have hmem : k ∉ [Key.job "x"] := by simpa using hne
    rw [contents_of_notMem_keys (hfollower ▸ hmem), contents_of_notMem_keys (hleader ▸ hmem)] at hk
    exact hk rfl
  exact ⟨Option.isSome_iff_ne_none.1 hx, hlisted⟩

/-- The leader has no job. The follower, which led before, has one; it applies the leader's whole log and keeps it. -/
theorem snapshot_diverges :
    (receive (holding queuedX) [(serve .steady newLeader [.seedReplication]).repl.replLog]).jobs.get "x" = some queuedX ∧
      (serve .steady newLeader [.seedReplication]).store.jobs.get "x" = none := by
  decide +kernel

end Distsched.Replication
