/-
The replication log as a journal of the store: what an entry writes, what a follower makes of a list of entries
(`applyEntries` of `internal/scheduler/cluster.go`), and the order of the log a leader keeps.
-/
import Distsched.Lib.Journal
import Distsched.Scheduler.Run

namespace Distsched.Replication

open Scheduler Journal

/-- What the log is about. -/
inductive Key
  | job (id : String)
  | worker (id : String)
  deriving DecidableEq

inductive Value
  | job (j : Job)
  | worker (w : WorkerInfo)
  deriving DecidableEq

/-- The jobs and workers of a store. -/
def contents (st : Store) : Key → Option Value
  | .job id => (st.jobs.get id).map .job
  | .worker id => (st.workers.get id).map .worker

/-- What a mutation writes. -/
def writeOf : Mutation → Write Key Value
  | .upsertJob j => ⟨.job j.id, some (.job j)⟩
  | .upsertWorker w => ⟨.worker w.id, some (.worker w)⟩
  | .deleteJobId id => ⟨.job id, none⟩

def writesOf (es : List ReplicationEntry) : List (Write Key Value) := es.filterMap fun e => e.mutation.map writeOf

/-! ## Applying entries -/

/-- The store part of one turn of the loop of `applyEntries`. -/
def applyEntry (st : Store) (e : ReplicationEntry) : Store :=
  match e.mutation with
  | some (.upsertJob j) => { st with jobs := st.jobs.put j }
  | some (.upsertWorker w) => { st with workers := st.workers.put w }
  | some (.deleteJobId id) => { st with jobs := st.jobs.delete id }
  | none => st

/-- The highest seq seen so far. -/
def seen (last : Int) (e : ReplicationEntry) : Int := if e.seq > last then e.seq else last

/-- Returns the store, if no write fails, and the highest seq applied. -/
def applyEntries (st : Store) (es : List ReplicationEntry) : Store × Int := (es.foldl applyEntry st, es.foldl seen 0)

theorem contents_applyEntry (st : Store) (e : ReplicationEntry) :
    contents (applyEntry st e) = replay (contents st) (writesOf [e]) := by
  obtain ⟨seq, m⟩ := e
  funext k
  cases m with
  | none => rfl
  | some m =>
    show _ = Function.update (contents st) (writeOf m).key (writeOf m).value k
    rw [Function.update_apply]
    cases m with
    | upsertJob j | deleteJobId id =>
      cases k with
      | job id =>
        simp only [contents, applyEntry, writeOf, Bucket.get_put, Bucket.get_delete, Key.job.injEq]
        split <;> rfl
      | worker id => rfl
    | upsertWorker w =>
      cases k with
      | worker id =>
        simp only [contents, applyEntry, writeOf, Bucket.get_put, Key.worker.injEq]
        split <;> rfl
      | job id => rfl

theorem writesOf_append (es es' : List ReplicationEntry) : writesOf (es ++ es') = writesOf es ++ writesOf es' :=
  List.filterMap_append

/-- A follower replays the entries on its store. -/
theorem contents_applyEntries (st : Store) (es : List ReplicationEntry) :
    contents (applyEntries st es).1 = replay (contents st) (writesOf es) := by
  show contents (es.foldl applyEntry st) = _
  induction es generalizing st with
  | nil => rfl
  | cons e es ih => rw [List.foldl_cons, ih, contents_applyEntry, ← replay_append, ← writesOf_append, List.singleton_append]

/-! ## What the log holds -/

/-- What the log makes of the empty store. -/
def logged (r : Repl) : Key → Option Value := replay (fun _ => none) (writesOf r.replLog)

theorem contents_empty : contents .empty = fun _ => none := by
  funext k
  cases k <;> simp [contents, Store.empty]

theorem logged_append (r : Repl) (m : Mutation) :
    logged (r.append m) = Function.update (logged r) (writeOf m).key (writeOf m).value := by
  show replay _ (writesOf (r.replLog ++ [_])) = _
  rw [writesOf_append, replay_append]
  rfl

theorem writesOf_appends (ms : List Mutation) (r : Repl) :
    writesOf (ms.foldl Repl.append r).replLog = writesOf r.replLog ++ ms.map writeOf := by
  induction ms generalizing r with
  | nil => simp
  | cons m ms ih =>
    rw [List.foldl_cons, ih, Repl.append, writesOf_append, List.append_assoc]
    rfl

/-- The writes of a list of jobs, and of a list of workers. -/
def jobWrites (jobs : List Job) : List (Write Key Value) := jobs.map fun j => ⟨.job j.id, some (.job j)⟩

def workerWrites (workers : List WorkerInfo) : List (Write Key Value) :=
  workers.map fun w => ⟨.worker w.id, some (.worker w)⟩

theorem writesOf_seed (jobs : List Job) (workers : List WorkerInfo) :
    writesOf (Repl.seed jobs workers).replLog = jobWrites jobs ++ workerWrites workers := by
  rw [Repl.seed, writesOf_appends, writesOf_appends, List.map_map, List.map_map]
  rfl

theorem logged_seed_job (jobs : List Job) (workers : List WorkerInfo) (id : String) :
    logged (Repl.seed jobs workers) (.job id) = replay (fun _ => none) (jobWrites jobs) (.job id) := by
  rw [logged, writesOf_seed, replay_append, replay_of_notMem]
  intro w hw
  obtain ⟨_, _, rfl⟩ := List.mem_map.1 hw
  exact Key.noConfusion

theorem logged_seed_worker (jobs : List Job) (workers : List WorkerInfo) (id : String) :
    logged (Repl.seed jobs workers) (.worker id) = replay (fun _ => none) (workerWrites workers) (.worker id) := by
  rw [logged, writesOf_seed, replay_append]
  refine replay_congr (replay_of_notMem ?_)
  intro w hw
  obtain ⟨_, _, rfl⟩ := List.mem_map.1 hw
  exact Key.noConfusion

theorem replay_jobs (st : Store) (id : String) :
    replay (fun _ => none) (jobWrites st.jobs.list) (.job id) = contents st (.job id) :=
  replay_list st.jobs (fun _ _ => Key.job.inj) Value.job id

theorem replay_workers (st : Store) (id : String) :
    replay (fun _ => none) (workerWrites st.workers.list) (.worker id) = contents st (.worker id) :=
  replay_list st.workers (fun _ _ => Key.worker.inj) Value.worker id

/-- Two stores have the same contents if they have the same jobs and workers. -/
theorem contents_eq_iff {st st' : Store} : contents st = contents st' ↔ st.jobs = st'.jobs ∧ st.workers = st'.workers := by
  constructor
  · intro h
    refine ⟨Bucket.ext_get fun id => ?_, Bucket.ext_get fun id => ?_⟩
    · exact Option.map_injective (fun _ _ => Value.job.inj) (congrFun h (.job id))
    · exact Option.map_injective (fun _ _ => Value.worker.inj) (congrFun h (.worker id))
  · rintro ⟨hj, hw⟩
    funext k
    cases k with
    | job id => rw [contents, contents, hj]
    | worker id => rw [contents, contents, hw]

/-! ## The order of the log -/

/-- The log is numbered in order from one up to the last number drawn, and every entry writes something. -/
structure Ordered (r : Repl) : Prop where
  pos : ∀ e ∈ r.replLog, 0 < e.seq
  bound : ∀ e ∈ r.replLog, e.seq ≤ r.replSeq
  start : 0 ≤ r.replSeq
  sorted : r.replLog.Pairwise fun e e' => e.seq < e'.seq
  writes : ∀ e ∈ r.replLog, ∃ m, e.mutation = some m

theorem ordered_empty : Ordered {} := ⟨by simp, by simp, le_rfl, .nil, by simp⟩

theorem Ordered.append {r : Repl} (h : Ordered r) (m : Mutation) : Ordered (r.append m) := by
  have hstart : 0 ≤ r.replSeq := h.start
  constructor
  · intro e he
    rcases List.mem_append.1 he with he | he
    · exact h.pos e he
    · rw [List.mem_singleton.1 he]
      show 0 < r.replSeq + 1
      omega
  · intro e he
    show e.seq ≤ r.replSeq + 1
    rcases List.mem_append.1 he with he | he
    · have := h.bound e he
      omega
    · rw [List.mem_singleton.1 he]
  · show 0 ≤ r.replSeq + 1
    omega
  · refine List.pairwise_append.2 ⟨h.sorted, List.pairwise_singleton .., fun e he e' he' => ?_⟩
    rw [List.mem_singleton.1 he']
    show e.seq < r.replSeq + 1
    have := h.bound e he
    omega
  · intro e he
    rcases List.mem_append.1 he with he | he
    · exact h.writes e he
    · exact ⟨m, by rw [List.mem_singleton.1 he]⟩

theorem Ordered.appends {r : Repl} (h : Ordered r) (ms : List Mutation) : Ordered (ms.foldl Repl.append r) := by
  induction ms generalizing r with
  | nil => exact h
  | cons m ms ih => exact ih (h.append m)

theorem ordered_seed (jobs : List Job) (workers : List WorkerInfo) : Ordered (Repl.seed jobs workers) :=
  (ordered_empty.appends _).appends _

/-- Acknowledgements do not touch the log. -/
theorem log_ackPeer (r : Repl) (peerID : String) (applied : Int) :
    (r.ackPeer peerID applied).replLog = r.replLog ∧ (r.ackPeer peerID applied).replSeq = r.replSeq := by
  unfold Repl.ackPeer
  split
  · exact ⟨rfl, rfl⟩
  · split <;> exact ⟨rfl, rfl⟩

theorem Ordered.ackPeer {r : Repl} (h : Ordered r) (peerID : String) (applied : Int) : Ordered (r.ackPeer peerID applied) := by
  obtain ⟨hlog, hseq⟩ := log_ackPeer r peerID applied
  constructor
  · rw [hlog]
    exact h.pos
  · rw [hlog, hseq]
    exact h.bound
  · rw [hseq]
    exact h.start
  · rw [hlog]
    exact h.sorted
  · rw [hlog]
    exact h.writes

end Distsched.Replication
