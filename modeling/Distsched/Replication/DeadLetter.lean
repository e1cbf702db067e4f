/-
A cluster of scheduler nodes, each with a store of its own: handlers interleaved at their store calls and locked sections,
elections and restarts at any moment, and the log of a leader shipped to the others (`internal/scheduler/cluster.go`). Any
write to a store may fail.

A node stores a job FAILED only after it has put it into its own dead-letter bucket. The log carries the FAILED record and
not the dead letter, so a node that gets the record from a leader has the one without the other. Where the log makes no job
FAILED that is not FAILED on the node already, every FAILED job of every node is in the dead-letter bucket there.
-/
import Distsched.Lib.Pool
import Distsched.Replication.Stream
import Distsched.Scheduler.Conduct

namespace Distsched.Failover

open Replication Scheduler Prog

/-! ## The system -/

/-- What a node can be set to do: a request or an activity of its own, the clean-up after losing the lead, and the first
thing a new process does. -/
inductive Task
  | call (c : Scheduler.Call)
  | stepDown
  | recover

def Task.prog (cfg : Scheduler.Config) (ps : Cron) : Task → M Unit
  | .call c => c.prog cfg ps
  | .stepDown => onStepDown
  | .recover => do let _ ← Scheduler.recover

/-- Only a new process recovers. -/
def Task.enabled (s : Server) : Task → Bool
  | .call c => c.enabled s
  | .stepDown => true
  | .recover => false

/-- A `Replicate` handler of a node, and the worker it has stored and has yet to put into the cache. -/
structure Caching extends Handling where
  uncached : Option WorkerInfo := none

/-- A node, with the programs under way on it and its `Replicate` handlers. -/
structure Replica where
  pool : Pool Op Op.Resp Server Trail Unit
  handlers : List Caching := []

/-- The state of the process, and its store. -/
abbrev Replica.server (r : Replica) : Server := r.pool.state

structure Replicas where
  replica : String → Replica
  /-- The requests on their way, each with the node it goes to. -/
  sent : List (String × Request) := []
  /-- The responses on their way, each with the node it comes from. -/
  responses : List (String × Response) := []

inductive Action
  | begin (i : String) (t : Task)
  /-- The next operation of the `k`-th program of a node. -/
  | turn (i : String) (k : Nat)
  /-- Whatever changes the election state of a node. -/
  | elect (i : String) (node : Cluster.Node)
  | send (i peer : String) (term : Int)
  | deliver (k : Nat) (saved : Bool)
  /-- The `k`-th handler of a node writes its next entry to the store, which may fail. -/
  | apply (i : String) (k : Nat) (ok : Bool)
  /-- It puts the worker it has written into the cache. -/
  | cache (i : String) (k : Nat)
  | respond (i : String) (k : Nat)
  | ack (k : Nat)
  /-- A crash of a node, and a new process on its store. -/
  | restart (i : String) (node : Cluster.Node)

/-- The worker that `applyEntries` caches once it has stored an entry. -/
def workerOf (e : ReplicationEntry) : Option WorkerInfo :=
  match e.mutation with
  | some (.upsertWorker w) => some w
  | _ => none

namespace Replica

/-- The state is changed from outside the programs. -/
def outside (r : Replica) (s : Server) : Replica := { r with pool := { r.pool with state := s } }

/-- `ObserveLeader` on a request. -/
def observe (r : Replica) (saved : Bool) (q : Request) : Cluster.Node × Bool × Int :=
  r.server.node.observeLeader (fun _ => saved) q.term q.leaderID

/-- A request arrives; it is handled if the leader is accepted. -/
def deliver (r : Replica) (saved : Bool) (q : Request) : Replica :=
  { r.outside { r.server with node := (r.observe saved q).1 } with
    handlers := if (r.observe saved q).2.1 then r.handlers ++ [⟨⟨q, q.entries, 0⟩, none⟩] else r.handlers }

/-- The `k`-th handler has written an entry, or has failed to. -/
def apply (r : Replica) (k : Nat) (ok : Bool) (e : ReplicationEntry) (h : Handling) : Replica :=
  if ok then
    { r.outside { r.server with store := applyEntry r.server.store e } with
      handlers := r.handlers.set k ⟨h, workerOf e⟩ }
  else { r with handlers := r.handlers.set k ⟨h, none⟩ }

/-- A new process on the store, about to load its workers. -/
def restart (r : Replica) (cfg : Scheduler.Config) (ps : Cron) (node : Cluster.Node) : Replica where
  pool := ⟨{ r.server.fresh with node := node }, [⟨Task.recover.prog cfg ps, {}⟩]⟩

end Replica

def Replicas.set (c : Replicas) (i : String) (r : Replica) : Replicas :=
  { c with replica := Function.update c.replica i r }

variable (env : String → Env) (ps : Cron)

def act (c : Replicas) : Action → Option Replicas
  | .begin i t => if t.enabled (c.replica i).server then
      some (c.set i { c.replica i with pool := (c.replica i).pool.enter (t.prog (env i).cfg ps) {} })
    else none
  | .turn i k => ((c.replica i).pool.step (handle (env i)) (conduct ps) k).map fun pool =>
      c.set i { c.replica i with pool := pool }
  | .elect i node => some (c.set i ((c.replica i).outside { (c.replica i).server with node := node }))
  | .send i peer term =>
    some { c with sent := c.sent ++ [(peer, ⟨i, term, (c.replica i).server.repl.entriesForPeer peer⟩)] }
  | .deliver k saved => (c.sent[k]?).map fun (i, q) =>
      { c.set i ((c.replica i).deliver saved q) with sent := c.sent.eraseIdx k }
  | .apply i k ok => match (c.replica i).handlers[k]? with
    | some ⟨⟨q, e :: rest, last⟩, none⟩ => some (c.set i ((c.replica i).apply k ok e ⟨q, rest, seen last e⟩))
    | _ => none
  | .cache i k => match (c.replica i).handlers[k]? with
    | some ⟨h, some w⟩ =>
      let s := (c.replica i).server
      some (c.set i { (c.replica i).outside { s with workers := s.workers.insert w.id w } with
        handlers := (c.replica i).handlers.set k ⟨h, none⟩ })
    | _ => none
  | .respond i k => match (c.replica i).handlers[k]? with
    | some ⟨⟨q, [], last⟩, none⟩ =>
      some { c.set i { c.replica i with handlers := (c.replica i).handlers.eraseIdx k } with
        responses := c.responses ++ [(i, ⟨q, last⟩)] }
    | _ => none
  | .ack k => (c.responses[k]?).map fun (peer, a) =>
      let i := a.request.leaderID
      let s := (c.replica i).server
      { c.set i ((c.replica i).outside { s with repl := s.repl.ackPeer peer a.appliedThrough }) with
        responses := c.responses.eraseIdx k }
  | .restart i node => some (c.set i ((c.replica i).restart (env i).cfg ps node))

/-- The clusters of the runs whose actions all meet a condition on the cluster before them. -/
inductive Runs (ok : Replicas → Action → Prop) (c₀ : Replicas) : Replicas → Prop
  | refl : Runs ok c₀ c₀
  | step {c c' : Replicas} {a : Action} : Runs ok c₀ c → ok c a → act env ps c a = some c' → Runs ok c₀ c'

/-- Every node is about to start its process on a store. -/
def start (stores : String → Store) : Replicas where
  replica i := { pool := ⟨.off (stores i) 0 0, [⟨Task.recover.prog (env i).cfg ps, {}⟩]⟩ }

variable {env ps}

/-! ## Dead letters -/

/-- The job is in the dead-letter bucket. -/
def Buried (st : Store) (x : String) : Prop := (st.deadLetter.get x).isSome = true

/-- Every job stored FAILED is in the dead-letter bucket. -/
def DeadLettered (st : Store) : Prop := ∀ x j, st.jobs.get x = some j → j.state = .failed → Buried st x

/-- What a program has dead-lettered is in the bucket. -/
def HasBuried (g : Trail) (s : Server) : Prop := ∀ x ∈ g.buried, Buried s.store x

/-- No dead letter is ever taken out. -/
theorem buried_handle {env : Env} {s : Server} {x : String} (op : Op) (h : Buried s.store x) :
    Buried (handle env op s).2.store x := by
  cases op with
  | putDeadLetter j =>
    simp only [handle, Server.write]
    split
    · exact h
    · show ((s.store.deadLetter.put j).get x).isSome = true
      rw [Bucket.get_put]
      split
      · rfl
      · exact h
  | putJob j | putWorker w =>
    simp only [handle, Server.write]
    split <;> exact h
  | _ => exact h

theorem tells_next {env : Env} {s : Server} {g : Trail} (op : Op) (h : HasBuried g s) :
    HasBuried (g.next op (handle env op s).1) (handle env op s).2 := by
  intro x hx
  cases op with
  | putDeadLetter j =>
    simp only [handle, Server.write] at hx ⊢
    cases hf : env.fails s.tick with
    | some e =>
      rw [hf] at hx
      exact h x hx
    | none =>
      rw [hf] at hx
      show ((s.store.deadLetter.put j).get x).isSome = true
      rw [Bucket.get_put]
      split
      · rfl
      · rename_i hne
        exact h x (hx.resolve_left hne)
  | getJob _ | putJob _ | listJobs =>
    refine buried_handle _ (h x ?_)
    revert hx
    generalize (handle env _ s).1 = r
    cases r <;> exact fun hx => hx
  | _ => exact buried_handle _ (h x hx)

/-- A write that the rules allow keeps every FAILED job in the bucket. -/
theorem deadLettered_handle {env : Env} {s : Server} {g : Trail} (op : Op) (ht : HasBuried g s) (h : DeadLettered s.store)
    (hperm : (conduct ps).permits op g) : DeadLettered (handle env op s).2.store := by
  intro x j hj hs
  refine buried_handle op ?_
  cases op with
  | putJob j' =>
    simp only [handle, Server.write] at hj
    split at hj
    · exact h x j hj hs
    · have hj : (s.store.jobs.put j').get x = some j := hj
      rw [Bucket.get_put] at hj
      split at hj
      · rename_i hid
        cases hj
        rw [hid]
        exact ht _ (hperm.1 hs)
      · exact h x j hj hs
  | putDeadLetter j' | putWorker w =>
    simp only [handle, Server.write] at hj
    split at hj <;> exact h x j hj hs
  | _ => exact h x j hj hs

theorem stable (env : Env) (ps : Cron) :
    Pool.Stable (handle env) (conduct ps) Pool.free HasBuried fun s => DeadLettered s.store where
  answers op _ _ s _ _ _ _ := conduct_answers op s
  own op _ _ _ hg _ _ _ := tells_next op hg
  other op _ _ _ _ _ hg' _ _ _ x hx := buried_handle op (hg' x hx)
  kept op _ _ _ hg hG hperm _ := deadLettered_handle op hg hG hperm

/-! ## Runs -/

/-- The FAILED jobs of a node are dead-lettered, and its programs keep to the rules. -/
abbrev KeepsLetters (ps : Cron) (r : Replica) : Prop :=
  Pool.Sound (conduct ps) (fun s gs => DeadLettered s.store ∧ ∀ g ∈ gs, HasBuried g s) (fun _ _ _ => True) r.pool

theorem KeepsLetters.outside {r : Replica} (h : KeepsLetters ps r) {s : Server} (hd : DeadLettered s.store)
    (hb : ∀ x, Buried r.server.store x → Buried s.store x) : KeepsLetters ps (r.outside s) :=
  Pool.Sound.outside h ⟨hd, fun g hg x hx => hb x (h.inv.2 g hg x hx)⟩

theorem clean_task (cfg : Scheduler.Config) (t : Task) : Clean ps (t.prog cfg ps) := by
  cases t with
  | call c => exact clean_call cfg c
  | stepDown => exact routine_clean.clearSchedulingState
  | recover => exact routine_clean.recover.bind fun _ => clean_pure _

theorem KeepsLetters.begin {r : Replica} (h : KeepsLetters ps r) (cfg : Scheduler.Config) (t : Task) :
    KeepsLetters ps { r with pool := r.pool.enter (t.prog cfg ps) {} } := by
  refine Pool.Sound.enter h ⟨h.inv.1, fun g hg => ?_⟩ ((clean_task cfg t _).mono fun _ _ _ => trivial)
  rcases List.mem_append.1 hg with hg | hg
  · exact h.inv.2 g hg
  · rw [List.mem_singleton.1 hg]
    exact fun _ hx => hx.elim

/-- A process that has done nothing yet. -/
theorem keeps_new {s : Server} (cfg : Scheduler.Config) (hd : DeadLettered s.store) :
    KeepsLetters ps { pool := ⟨s, [⟨Task.recover.prog cfg ps, {}⟩]⟩ } :=
  KeepsLetters.begin (r := { pool := ⟨s, []⟩ }) ⟨⟨hd, fun _ hg => (by cases hg)⟩, fun _ _ ht => (by cases ht)⟩ cfg .recover

/-- The log makes no job FAILED: where a node writes a FAILED record from it, the node's own record is FAILED already. -/
def FailsItself (c : Replicas) : Action → Prop
  | .apply i k true => ∀ h ∈ (c.replica i).handlers[k]?, ∀ e ∈ h.todo.head?, ∀ j, e.mutation = some (.upsertJob j) →
      j.state = .failed → ((c.replica i).server.store.jobs.get j.id).map Job.state = some .failed
  | _ => True

/-- The bucket is not the log's business. -/
theorem buried_applyEntry (st : Store) (e : ReplicationEntry) (x : String) : Buried (applyEntry st e) x ↔ Buried st x := by
  obtain ⟨seq, m⟩ := e
  cases m with
  | none => rfl
  | some m => cases m <;> rfl

theorem deadLettered_applyEntry {st : Store} {e : ReplicationEntry} (h : DeadLettered st)
    (he : ∀ j, e.mutation = some (.upsertJob j) → j.state = .failed → Buried st j.id) : DeadLettered (applyEntry st e) := by
  intro x j hj hs
  refine (buried_applyEntry st e x).2 ?_
  obtain ⟨seq, m⟩ := e
  cases m with
  | none => exact h x j hj hs
  | some m =>
    cases m with
    | upsertJob j' =>
      have hj : (st.jobs.put j').get x = some j := hj
      rw [Bucket.get_put] at hj
      split at hj
      · rename_i hid
        cases hj
        rw [hid]
        exact he j rfl hs
      · exact h x j hj hs
    | upsertWorker w => exact h x j hj hs
    | deleteJobId id =>
      have hj : (st.jobs.delete id).get x = some j := hj
      rw [Bucket.get_delete] at hj
      split at hj
      · cases hj
      · exact h x j hj hs

theorem KeepsLetters.set {c : Replicas} (h : ∀ i, KeepsLetters ps (c.replica i)) {i : String} {r : Replica} (hr : KeepsLetters ps r)
    (n : String) : KeepsLetters ps ((c.set i r).replica n) := by
  show KeepsLetters ps (Function.update c.replica i r n)
  by_cases hn : n = i
  · subst hn
    rw [Function.update_self]
    exact hr
  · rw [Function.update_of_ne hn]
    exact h n

theorem keeps_act {c c' : Replicas} {a : Action} (h : ∀ i, KeepsLetters ps (c.replica i)) (hok : FailsItself c a)
    (hact : act env ps c a = some c') : ∀ i, KeepsLetters ps (c'.replica i) := by
  cases a with
  | begin i t =>
    obtain ⟨-, ⟨⟩⟩ := Option.ite_none_right_eq_some.1 hact
    exact KeepsLetters.set h ((h i).begin _ t)
  | turn i k =>
    obtain ⟨pool, hstep, rfl⟩ := Option.map_eq_some_iff.1 hact
    exact KeepsLetters.set h (Pool.Sound.step (stable (env i) ps).inductive_ (h i) (fun _ _ _ _ => trivial) hstep)
  | elect i node =>
    cases hact
    exact KeepsLetters.set h ((h i).outside (h i).inv.1 fun _ hx => hx)
  | send i peer term =>
    cases hact
    exact h
  | deliver k saved =>
    obtain ⟨⟨i, q⟩, -, rfl⟩ := Option.map_eq_some_iff.1 hact
    exact KeepsLetters.set h ((h i).outside (h i).inv.1 fun _ hx => hx)
  | apply i k ok =>
    simp only [act] at hact
    split at hact
    · rename_i q e rest last hk
      cases hact
      refine KeepsLetters.set h ?_
      cases ok with
      | false => exact h i
      | true =>
        -- the node's own record is FAILED, so the job is in the bucket
        refine (h i).outside (deadLettered_applyEntry (h i).inv.1 fun j hj hs => ?_) fun x hx =>
          (buried_applyEntry _ e x).2 hx
        obtain ⟨j', hj', hs'⟩ := Option.map_eq_some_iff.1 (hok _ hk e rfl j hj hs)
        exact (h i).inv.1 j.id j' hj' hs'
    · cases hact
  | cache i k =>
    simp only [act] at hact
    split at hact
    · cases hact
      exact KeepsLetters.set h ((h i).outside (h i).inv.1 fun _ hx => hx)
    · cases hact
  | respond i k =>
    simp only [act] at hact
    split at hact
    · cases hact
      exact KeepsLetters.set h (h i)
    · cases hact
  | ack k =>
    obtain ⟨⟨peer, a⟩, -, rfl⟩ := Option.map_eq_some_iff.1 hact
    exact KeepsLetters.set h ((h _).outside (h _).inv.1 fun _ hx => hx)
  | restart i node =>
    cases hact
    exact KeepsLetters.set h (keeps_new _ (h i).inv.1)

theorem keeps_of_runs {stores : String → Store} (h₀ : ∀ i, DeadLettered (stores i)) {c : Replicas}
    (h : Runs env ps FailsItself (start env ps stores) c) : ∀ i, KeepsLetters ps (c.replica i) := by
  induction h with
  | refl => exact fun i => keeps_new _ (h₀ i)
  | step _ hok hact ih => exact keeps_act ih hok hact

/-- In every state of every run in which the log makes no job FAILED on a node, every job stored FAILED on a node is in the
dead-letter bucket of that node. -/
theorem failed_dead_lettered {stores : String → Store} (h₀ : ∀ i, DeadLettered (stores i)) {c : Replicas}
    (h : Runs env ps FailsItself (start env ps stores) c) (i x : String) (j : Job)
    (hj : (c.replica i).server.store.jobs.get x = some j) (hs : j.state = .failed) :
    ∃ d, (c.replica i).server.store.deadLetter.get x = some d := by
  exact Option.isSome_iff_exists.1 ((keeps_of_runs h₀ h i).inv.1 x j hj hs)

/-! ## A FAILED record in the log -/

/-- The cluster after a list of actions that are all possible and pass a test. -/
def acts (env : String → Env) (ps : Cron) (test : Replicas → Action → Bool) (c : Replicas) (l : List Action) :
    Option Replicas := l.foldlM (fun c a => if test c a then act env ps c a else none) c

theorem runs_of_acts {ok : Replicas → Action → Prop} {test : Replicas → Action → Bool} (ht : ∀ c a, test c a = true → ok c a)
    {c₀ : Replicas} : ∀ {l : List Action} {c c' : Replicas},
    Runs env ps ok c₀ c → acts env ps test c l = some c' → Runs env ps ok c₀ c'
  | [], c, c', h, hl => by
    cases hl
    exact h
  | a :: l, c, c', h, hl => by
    rw [acts, List.foldlM_cons] at hl
    obtain ⟨c₁, h₁, h₂⟩ := Option.bind_eq_some_iff.1 hl
    obtain ⟨htest, h₁⟩ := Option.ite_none_right_eq_some.1 h₁
    exact runs_of_acts ht (h.step (ht c a htest) h₁) h₂

/-- A task of a node, begun as its `k`-th program and run to its end, with nothing else in between. -/
def whole (i : String) (k ops : Nat) (t : Task) : List Action := .begin i t :: List.replicate ops (.turn i k)

/-- A job that is tried once. -/
def once : Job := { id := "a", spec := some { command := "false" }, retryPolicy := some { maxAttempts := 1 } }

/-- `s1` leads, a job is submitted to it and handed to a worker. -/
def handedOut : List Action :=
  .turn "s1" 0 :: .elect "s1" leading :: whole "s1" 1 8 (.call .becomeLeader) ++
    whole "s1" 2 6 (.call (.registerWorker (some { id := "w" }))) ++ whole "s1" 3 9 (.call (.submitJob (some once))) ++
    whole "s1" 4 11 (.call (.pollTask "w" 1))

/-- It is reported failed to `s1`. -/
def failing : List Action := whole "s1" 5 15 (.call (.reportTask "task-" .failed "exit status 1"))

/-- A new cluster. -/
def cold : Replicas := start (fun _ => .steady) noCron fun _ => .empty

/-- What a node has stored of the job. -/
def Replicas.fate (c : Replicas) (i : String) : Option JobState × Bool :=
  (((c.replica i).server.store.jobs.get "a").map Job.state, ((c.replica i).server.store.deadLetter.get "a").isSome)

theorem deadLettered_empty : DeadLettered .empty := by
  intro x j hj
  rw [Store.empty, Bucket.get_empty] at hj
  cases hj

/-- Whether an action meets `FailsItself`. -/
def failsItself (c : Replicas) : Action → Bool
  | .apply i k true => ((c.replica i).handlers[k]?).all fun h => h.todo.head?.all fun e => match e.mutation with
    | some (.upsertJob j) => j.state ≠ .failed || ((c.replica i).server.store.jobs.get j.id).map Job.state = some .failed
    | _ => true
  | _ => true

theorem failsItself_sound (c : Replicas) (a : Action) (h : failsItself c a = true) : FailsItself c a := by
  cases a with
  | apply i k ok =>
    cases ok with
    | false => trivial
    | true =>
      intro d hd e he j hj hs
      simpa [failsItself, Option.mem_def.1 hd, Option.mem_def.1 he, hj, hs] using h
  | _ => trivial

/-- The log of `s1` reaches `s2` while the job is RUNNING. Then the job fails on `s1`, and on `s2`, which becomes leader and
finds that it cannot be tried again. `s2` ships its own log, with the FAILED record, to `s1`. -/
def failingTwice : List Action :=
  .turn "s2" 0 :: handedOut ++
    [.send "s1" "s2" 1, .deliver 0 true, .apply "s2" 0 true, .cache "s2" 0, .apply "s2" 0 true, .apply "s2" 0 true,
      .respond "s2" 0, .ack 0] ++ failing ++
    .elect "s2" { leading with currentTerm := 2 } :: whole "s2" 1 19 (.call .becomeLeader) ++
    [.send "s2" "s1" 2, .deliver 0 true, .apply "s1" 0 true, .apply "s1" 0 true, .cache "s1" 0, .respond "s1" 0, .ack 0]

theorem failed_dead_lettered_twice : ∃ c, acts (fun _ => .steady) noCron failsItself cold failingTwice = some c ∧
    ∀ i ∈ ["s1", "s2"], ∃ d, (c.replica i).server.store.deadLetter.get "a" = some d := by
  have hfate : ((acts (fun _ => .steady) noCron failsItself cold failingTwice).map fun c =>
      ["s1", "s2"].all fun i => (c.fate i).1 = some .failed) = some true := by decide +kernel
  obtain ⟨c, hc, hstate⟩ := Option.map_eq_some_iff.1 hfate
  refine ⟨c, hc, fun i hi => ?_⟩
  obtain ⟨j, hj, hs⟩ := Option.map_eq_some_iff.1 (of_decide_eq_true (List.all_eq_true.1 hstate i hi))
  exact failed_dead_lettered (fun _ => deadLettered_empty) (runs_of_acts failsItself_sound .refl hc) i "a" j hj hs

/-- The log of `s1` with the FAILED record reaches `s2`, which applies it. -/
def shipped : List Action :=
  [.send "s1" "s2" 1, .deliver 0 true, .apply "s2" 0 true, .cache "s2" 0, .apply "s2" 0 true, .apply "s2" 0 true,
    .apply "s2" 0 true]

/-- The follower has the job FAILED and not in its dead-letter bucket. -/
theorem failed_not_dead_lettered : ∃ c, Runs (fun _ => .steady) noCron (fun _ _ => True) cold c ∧
    (∃ j, (c.replica "s2").server.store.jobs.get "a" = some j ∧ j.state = .failed) ∧
    (c.replica "s2").server.store.deadLetter.get "a" = none := by
  have hfate : ((acts (fun _ => .steady) noCron (fun _ _ => true) cold (handedOut ++ failing ++ shipped)).map fun c =>
      c.fate "s2") = some (some .failed, false) := by decide +kernel
  obtain ⟨c, hc, hfate⟩ := Option.map_eq_some_iff.1 hfate
  obtain ⟨hstate, hnone⟩ := Prod.mk.inj hfate
  refine ⟨c, runs_of_acts (fun _ _ _ => trivial) .refl hc, Option.map_eq_some_iff.1 hstate, ?_⟩
  exact Option.not_isSome_iff_eq_none.1 (Bool.eq_false_iff.1 hnone)

end Distsched.Failover
