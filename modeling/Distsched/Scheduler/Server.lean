/-
The state of a scheduler node (`internal/scheduler/server.go`) and its atomic operations.

An operation is one store call, or one section of code under a mutex of `Server` or of the queue.
The handlers of the node are programs over these operations, so a handler can be run alone, be
broken off by a crash between two operations, or be interleaved with others. What the code does not
decide itself (the clock, the random draws, Go's map iteration order, store errors, UUIDs) is read
from an `Env`, indexed by the number of operations performed so far.
-/
import Distsched.Cluster.Node
import Distsched.Lib.Bucket
import Distsched.Lib.Prog
import Distsched.Scheduler.Queue
import Distsched.Scheduler.Retry
import Mathlib.Algebra.GroupWithZero.Nat
import Std.Data.ExtTreeMap
import Std.Data.ExtTreeSet

namespace Distsched.Scheduler

open Std (ExtTreeMap ExtTreeSet)

/-! ## State -/

/-- The settings the handlers read. `members` maps each replica to its address. -/
structure Config where
  nodeID : String := "scheduler-1"
  members : List (String × String) := []
  heartbeatTimeout : Int := 15 * 1000000000
  leaseTTL : Int := 30 * 1000000000
  /-- The age of a heartbeat is cut off at the greatest duration, so no age is above that one. -/
  heartbeatTimeout_range : belowMax heartbeatTimeout = true := by rfl

def Config.defaults : Config := {}

/-- One in-flight task attempt handed to a worker. -/
structure Lease where
  taskID : String
  jobID : String
  workerID : String
  attempt : Int
  deadline : Int
  deriving DecidableEq, Repr

/-- The buckets of the database. -/
structure Store where
  jobs : Bucket Job.id
  workers : Bucket WorkerInfo.id
  deadLetter : Bucket Job.id

/-- The leader's replication log and the acknowledgement cursor of each peer. -/
structure Repl where
  replLog : List ReplicationEntry := []
  replSeq : Int := 0
  peerAcked : ExtTreeMap String Int := ∅

structure Server where
  store : Store
  queue : PriorityQueue
  leases : ExtTreeMap String Lease
  /-- The jobs with an armed timer, and the instant it is due. -/
  retryTimers : ExtTreeMap String Int
  /-- A dependency, and the jobs waiting on it. -/
  revIndex : ExtTreeMap String (ExtTreeSet String)
  workers : ExtTreeMap String WorkerInfo
  repl : Repl
  node : Cluster.Node
  closed : Bool
  /-- Operations performed so far. -/
  tick : Nat
  /-- UUIDs drawn so far. -/
  minted : Nat

/-! ## The reverse dependency index -/

abbrev RevIndex := ExtTreeMap String (ExtTreeSet String)

namespace RevIndex

/-- `x` is recorded as waiting on `dep`. -/
def Waits (m : RevIndex) (dep x : String) : Prop := ∃ set, m[dep]? = some set ∧ x ∈ set

def addEdge (x : String) (m : RevIndex) (dep : String) : RevIndex := m.insert dep ((m[dep]?.getD ∅).insert x)

def addDeps (m : RevIndex) (job : Job) : RevIndex := job.dependsOn.foldl (addEdge job.id) m

/-- Drops a job wherever it appears as a dependent, and every set this leaves empty. -/
def removeFromIndex (m : RevIndex) (jobID : String) : RevIndex :=
  m.filterMap fun _ set => if (set.erase jobID).isEmpty then none else some (set.erase jobID)

def dependentsOf (m : RevIndex) (dep : String) : List String := (m[dep]?.getD ∅).toList

/-- The number of recorded edges. -/
def size (m : RevIndex) : Nat := (m.toList.map fun p => p.2.size).sum

theorem waits_addEdge (m : RevIndex) (x dep d y : String) :
    (addEdge x m dep).Waits d y ↔ m.Waits d y ∨ (d = dep ∧ y = x) := by
  unfold Waits addEdge
  rw [ExtTreeMap.getElem?_insert]
  by_cases hd : d = dep
  · subst hd
    rw [if_pos (compare_keys.2 rfl)]
    cases hm : m[d]? with
    | none => simp [eq_comm (a := x)]
    | some set => simp [or_comm, eq_comm (a := x)]
  · rw [if_neg (fun he => hd (compare_keys.1 he).symm)]
    simp [hd]

theorem waits_addEdges (x d y : String) : ∀ (deps : List String) (m : RevIndex),
    (deps.foldl (addEdge x) m).Waits d y ↔ m.Waits d y ∨ (d ∈ deps ∧ y = x)
  | [], m => by simp
  | dep :: deps, m => by
    rw [List.foldl_cons, waits_addEdges x d y deps, waits_addEdge, List.mem_cons]
    tauto

@[simp] theorem waits_addDeps (m : RevIndex) (job : Job) (d y : String) :
    (m.addDeps job).Waits d y ↔ m.Waits d y ∨ (d ∈ job.dependsOn ∧ y = job.id) := waits_addEdges job.id d y _ m

@[simp] theorem waits_removeFromIndex (m : RevIndex) (x d y : String) :
    (m.removeFromIndex x).Waits d y ↔ m.Waits d y ∧ y ≠ x := by
  unfold Waits removeFromIndex
  rw [ExtTreeMap.getElem?_filterMap']
  cases hm : m[d]? with
  | none => simp
  | some set =>
    by_cases he : (set.erase x).isEmpty
    · have hall : ∀ z, z ∈ set → z = x := by
        intro z hz
        by_contra hne
        have : z ∈ set.erase x := ExtTreeSet.mem_erase.2 ⟨fun hc => hne (compare_keys.1 hc).symm, hz⟩
        rw [ExtTreeSet.isEmpty_iff.1 he] at this
        exact ExtTreeSet.not_mem_empty this
      simp only [Option.bind_some, if_pos he]
      constructor
      · rintro ⟨_, h, _⟩
        cases h
      · rintro ⟨⟨_, hs, hy⟩, hne⟩
        cases hs
        exact absurd (hall y hy) hne
    · simp only [Option.bind_some, if_neg he, Option.some.injEq, exists_eq_left', ExtTreeSet.mem_erase,
        ne_eq, compare_keys]
      rw [and_comm, eq_comm (a := x)]

@[simp] theorem mem_dependentsOf (m : RevIndex) (d y : String) : y ∈ m.dependentsOf d ↔ m.Waits d y := by
  unfold dependentsOf Waits
  cases hm : m[d]? with
  | none => simp
  | some set => simp

@[simp] theorem not_waits_empty (d y : String) : ¬ (∅ : RevIndex).Waits d y := by
  rintro ⟨set, h, _⟩
  rw [ExtTreeMap.getElem?_empty] at h
  cases h

theorem nodup_dependentsOf (m : RevIndex) (d : String) : (m.dependentsOf d).Nodup :=
  ExtTreeSet.distinct_toList.imp fun h he => h (compare_keys.2 he)

/-- The recorded edges. -/
def edges (m : RevIndex) : List (String × String) := m.toList.flatMap fun p => p.2.toList.map fun x => (p.1, x)

theorem mem_edges {m : RevIndex} {d x : String} (h : m.Waits d x) : (d, x) ∈ m.edges := by
  obtain ⟨set, hset, hx⟩ := h
  refine List.mem_flatMap.2 ⟨(d, set), ExtTreeMap.mem_toList_iff_getElem?_eq_some.2 hset, ?_⟩
  exact List.mem_map.2 ⟨x, ExtTreeSet.mem_toList.2 hx, rfl⟩

theorem length_edges (m : RevIndex) : m.edges.length = m.size := by
  unfold edges size
  rw [List.length_flatMap]
  simp only [List.length_map, ExtTreeSet.length_toList]

end RevIndex

/-! ## The replication log -/

namespace Repl

/-- The locked part of `appendRepl`. -/
def append (r : Repl) (m : Mutation) : Repl :=
  { r with replSeq := r.replSeq + 1, replLog := r.replLog ++ [⟨r.replSeq + 1, some m⟩] }

/-- The locked part of `seedReplication`: the log becomes a snapshot, the jobs before the workers. -/
def seed (jobs : List Job) (workers : List WorkerInfo) : Repl :=
  (workers.map Mutation.upsertWorker).foldl append ((jobs.map Mutation.upsertJob).foldl append {})

/-- The entries past the peer's acknowledged cursor. -/
def entriesForPeer (r : Repl) (peerID : String) : List ReplicationEntry :=
  r.replLog.filter fun e => e.seq > (r.peerAcked[peerID]?).getD 0

def ackPeer (r : Repl) (peerID : String) (applied : Int) : Repl :=
  if applied ≤ 0 then r
  else if applied > (r.peerAcked[peerID]?).getD 0 then { r with peerAcked := r.peerAcked.insert peerID applied }
  else r

end Repl

/-! ## Operations -/

/-- What `GetJob` of the store can return other than a job. -/
inductive StoreError
  | notFound
  | failed (msg : String)
  deriving DecidableEq, Repr

inductive Op
  -- store calls
  | getJob (id : String)
  | putJob (job : Job)
  | listJobs
  | putDeadLetter (job : Job)
  | putWorker (worker : WorkerInfo)
  | listWorkers
  -- the ready queue
  | push (jobID : String) (priority createdAt : Int)
  | pop
  | remove (jobID : String)
  | clearQueue
  -- under dispatchMu
  | addLease (lease : Lease)
  | getLease (taskID : String)
  | removeLease (taskID : String)
  | listLeases
  | startTimer (jobID : String) (delay : Int)
  | deleteTimer (jobID : String)
  | clearDispatch
  -- under depMu
  | addDeps (job : Job)
  | removeFromIndex (jobID : String)
  | dependentsOf (depID : String)
  | clearIndex
  -- under workersMu
  | getCached (id : String)
  | cacheWorker (worker : WorkerInfo)
  | listCached
  -- under replMu
  | appendLog (m : Mutation)
  | installLog (jobs : List Job) (workers : List WorkerInfo)
  -- the election node, the closed flag
  | isLeader
  | leaderID
  | gainLead (node : Cluster.Node)
  | isClosed
  -- the runtime
  | now
  | newID (kind : String)
  | float64
  -- how often a loop over the queue, or over the index, can turn
  | queueBound
  | indexBound

@[reducible] def Op.Resp : Op → Type
  | .getJob _ => Except StoreError Job
  | .putJob _ | .putDeadLetter _ | .putWorker _ => Except String Unit
  | .listJobs => Except String (List Job)
  | .listWorkers => Except String (List WorkerInfo)
  | .push .. | .remove _ | .isLeader | .isClosed => Bool
  | .pop => Option String
  | .getLease _ => Option Lease
  | .listLeases => List (String × Lease)
  | .dependentsOf _ => List String
  | .getCached _ => Option WorkerInfo
  | .listCached => List (String × WorkerInfo)
  | .leaderID | .newID _ => String
  | .now => Time
  | .float64 => Retry.Chance
  | .queueBound | .indexBound => Nat
  | .clearQueue | .addLease _ | .removeLease _ | .startTimer .. | .deleteTimer _ | .clearDispatch | .addDeps _
  | .removeFromIndex _ | .clearIndex | .cacheWorker _ | .appendLog _ | .installLog .. | .gainLead _ => Unit

/-- What the node's code leaves to its surroundings. The first argument of `clock`, `float64`, `fails`,
`order` and `slack` is the number of operations performed so far; that of `uuid`, the UUIDs drawn. -/
structure Env where
  cfg : Config
  clock : Nat → Int
  /-- The server's local zone. -/
  zone : String
  float64 : Nat → Retry.Chance
  uuid : Nat → String
  /-- The error a store call returns, if it fails; a key the database rejects is one of these. -/
  fails : Nat → Option String
  /-- The order in which `range` visits the keys of a map. -/
  order : Nat → List String → List String
  order_perm : ∀ t l, (order t l).Perm l
  /-- Further turns a loop can take because other handlers refill what it drains. -/
  slack : Nat → Nat

/-- No store call fails. -/
def Env.Reliable (env : Env) : Prop := ∀ t, env.fails t = none

namespace Server

def ticked (s : Server) : Server := { s with tick := s.tick + 1 }

/-- A write to the store, which changes nothing if it fails. -/
def write (env : Env) (s : Server) (f : Store → Store) : Except String Unit × Server :=
  match env.fails s.tick with
  | some e => (.error e, s.ticked)
  | none => (.ok (), { s.ticked with store := f s.store })

end Server

/-- The entries of a map in the order `range` visits them. -/
def Env.range {β : Type} (env : Env) (t : Nat) (m : ExtTreeMap String β) : List (String × β) :=
  (env.order t m.keys).filterMap fun k => (m[k]?).map fun v => (k, v)

/-- The entries of a map, in whichever order. -/
theorem mem_range {β : Type} (env : Env) (t : Nat) (m : ExtTreeMap String β) (k : String) (v : β) :
    (k, v) ∈ env.range t m ↔ m[k]? = some v := by
  unfold Env.range
  rw [List.mem_filterMap]
  constructor
  · rintro ⟨k', _, h⟩
    obtain ⟨v', hv', he⟩ := Option.map_eq_some_iff.1 h
    cases he
    exact hv'
  · intro h
    refine ⟨k, (env.order_perm t m.keys).mem_iff.2 ?_, by rw [h]; rfl⟩
    rw [Std.ExtTreeMap.mem_keys, Std.ExtTreeMap.mem_iff_isSome_getElem?, h]
    rfl

def handle (env : Env) : Prog.Handler Op Op.Resp Server
  | .getJob id, s => (match env.fails s.tick with
    | some e => .error (.failed e)
    | none => match s.store.jobs.get id with
      | none => .error .notFound
      | some j => .ok j, s.ticked)
  | .putJob job, s => s.write env fun st => { st with jobs := st.jobs.put job }
  | .listJobs, s => (match env.fails s.tick with
    | some e => .error e
    | none => .ok s.store.jobs.list, s.ticked)
  | .putDeadLetter job, s => s.write env fun st => { st with deadLetter := st.deadLetter.put job }
  | .putWorker w, s => s.write env fun st => { st with workers := st.workers.put w }
  | .listWorkers, s => (match env.fails s.tick with
    | some e => .error e
    | none => .ok s.store.workers.list, s.ticked)
  | .push id p c, s => ((s.queue.push id p c).1, { s.ticked with queue := (s.queue.push id p c).2 })
  | .pop, s => (s.queue.pop.1, { s.ticked with queue := s.queue.pop.2 })
  | .remove id, s => ((s.queue.remove id).1, { s.ticked with queue := (s.queue.remove id).2 })
  | .clearQueue, s => ((), { s.ticked with queue := .empty })
  | .addLease l, s => ((), { s.ticked with leases := s.leases.insert l.taskID l })
  | .getLease τ, s => (s.leases[τ]?, s.ticked)
  | .removeLease τ, s => ((), { s.ticked with leases := s.leases.erase τ })
  | .listLeases, s => (env.range s.tick s.leases, s.ticked)
  | .startTimer id d, s => ((), { s.ticked with retryTimers := s.retryTimers.insert id (env.clock s.tick + d) })
  | .deleteTimer id, s => ((), { s.ticked with retryTimers := s.retryTimers.erase id })
  | .clearDispatch, s => ((), { s.ticked with retryTimers := ∅, leases := ∅ })
  | .addDeps job, s => ((), { s.ticked with revIndex := RevIndex.addDeps s.revIndex job })
  | .removeFromIndex id, s => ((), { s.ticked with revIndex := RevIndex.removeFromIndex s.revIndex id })
  | .dependentsOf dep, s => (env.order s.tick (RevIndex.dependentsOf s.revIndex dep), s.ticked)
  | .clearIndex, s => ((), { s.ticked with revIndex := ∅ })
  | .getCached id, s => (s.workers[id]?, s.ticked)
  | .cacheWorker w, s => ((), { s.ticked with workers := s.workers.insert w.id w })
  | .listCached, s => (env.range s.tick s.workers, s.ticked)
  | .appendLog m, s => ((), { s.ticked with repl := s.repl.append m })
  | .installLog js ws, s => ((), { s.ticked with repl := Repl.seed js ws })
  | .isLeader, s => (s.node.isLeader, s.ticked)
  | .leaderID, s => (s.node.leader ⟨env.cfg.nodeID, env.cfg.members.map Prod.fst⟩, s.ticked)
  | .gainLead node, s => ((), { s.ticked with node := node })
  | .isClosed, s => (s.closed, s.ticked)
  | .now, s => (⟨env.clock s.tick, env.zone⟩, s.ticked)
  | .newID kind, s => (kind ++ "-" ++ env.uuid s.minted, { s.ticked with minted := s.minted + 1 })
  | .float64, s => (env.float64 s.tick, s.ticked)
  | .queueBound, s => (s.queue.items.length + env.slack s.tick, s.ticked)
  | .indexBound, s => (RevIndex.size s.revIndex + env.slack s.tick, s.ticked)

theorem tick_handle {env : Env} (op : Op) (s : Server) : (handle env op s).2.tick = s.tick + 1 := by
  cases op with
  | putJob | putDeadLetter | putWorker =>
    simp only [handle, Server.write]
    split <;> rfl
  | _ => rfl

/-- The programs of the node. -/
abbrev M := Prog Op Op.Resp

abbrev act (op : Op) : M op.Resp := Prog.perform op

theorem tick_exec {env : Env} {α : Type} (p : M α) (s : Server) : s.tick ≤ (Prog.exec (handle env) p s).2.tick := by
  refine Prog.exec_rel (handle env) (R := fun s s' : Server => s.tick ≤ s'.tick) (fun s => ?_) (fun _ _ _ => ?_)
    (fun op s => ?_) p s
  · exact Nat.le_refl _
  · exact Nat.le_trans
  · rw [tick_handle]
    omega

end Distsched.Scheduler
