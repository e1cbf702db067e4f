/-
The stream of log entries to one follower: `Replicate` requests of any leaders and terms, delayed, lost, re-sent and
overtaken (`internal/scheduler/cluster.go`). A handler of the follower is one `ObserveLeader` step followed by one
store write per entry, and handlers interleave. A leader seeds its log from its own store, which it lists in two calls.

Whatever happens, a log that was seeded for a term only grows while it is the log of that term, its cursors only move
ahead, and the follower forgets neither a request it has accepted nor an entry it has stored (`logsGrow_act`).
-/
import Distsched.Replication.Log

namespace Distsched.Replication

open Scheduler Journal

/-! ## The system -/

structure Request where
  leaderID : String
  term : Int
  entries : List ReplicationEntry
  deriving DecidableEq

/-- A `Replicate` handler that has accepted its request: the entries it has yet to apply, and the highest seq so far. -/
structure Handling where
  request : Request
  todo : List ReplicationEntry
  last : Int
  deriving DecidableEq

/-- The response to a request that was accepted. -/
structure Response where
  request : Request
  appliedThrough : Int
  deriving DecidableEq

structure Follower where
  node : Cluster.Node
  store : Store
  handlers : List Handling := []
  /-- The requests accepted so far, the last one first. -/
  accepted : List Request := []
  /-- The entries stored so far, the last one first, each with the term of its request. -/
  stored : List (Int × ReplicationEntry) := []

/-- A `seedReplication` under way, for the term of its leadership: it has listed the jobs, and perhaps the workers. -/
structure Seeding where
  term : Int
  jobs : List Job
  workers : Option (List WorkerInfo)

/-- A node as a sender: its own store, its log, and the term for which that was last seeded. -/
structure Leader where
  store : Store := .empty
  repl : Repl := {}
  term : Option Int := none
  seedings : List Seeding := []

structure System where
  leaders : String → Leader := fun _ => {}
  follower : Follower
  /-- The requests on their way. -/
  sent : List Request := []
  /-- All requests sent so far, in this order. -/
  requests : List Request := []
  /-- The responses on their way. -/
  responses : List Response := []
  /-- The terms for which a log was seeded so far. -/
  seeded : List Int := []

inductive Action
  /-- A write to a node's own store, by a handler of the node or by an entry of another leader. -/
  | put (i : String) (m : Mutation)
  /-- `seedReplication` of the leader of a term lists the jobs, then the workers; a listing that fails gives nothing. -/
  | listJobs (i : String) (term : Int) (ok : Bool)
  | listWorkers (i : String) (k : Nat) (ok : Bool)
  /-- It replaces the log; a term has one leader and seeds once. -/
  | seed (i : String) (k : Nat)
  | append (i : String) (m : Mutation)
  /-- `broadcastReplicate` reads a term and, later, the entries; the term may be any by then. -/
  | send (i : String) (term : Int)
  /-- `ObserveLeader` at the follower, with the outcome of its save. -/
  | deliver (k : Nat) (saved : Bool)
  /-- The `k`-th handler writes its next entry to the store, which may fail. -/
  | apply (k : Nat) (ok : Bool)
  | respond (k : Nat)
  | ack (k : Nat)
  /-- Votes, elections and whatever else changes the follower's election state. -/
  | elect (node : Cluster.Node)
  /-- A crash and restart of the follower. -/
  | restart (node : Cluster.Node)

/-- `ObserveLeader` on a request. -/
def Follower.observe (f : Follower) (saved : Bool) (r : Request) : Cluster.Node × Bool × Int :=
  f.node.observeLeader (fun _ => saved) r.term r.leaderID

/-- The follower after the entry was written, or not. -/
def Follower.write (f : Follower) (ok : Bool) (term : Int) (e : ReplicationEntry) : Follower :=
  if ok then { f with store := applyEntry f.store e, stored := (term, e) :: f.stored } else f

/-- A request arrives; it is handled if its leader is accepted. -/
def Follower.deliver (f : Follower) (saved : Bool) (r : Request) : Follower :=
  if (f.observe saved r).2.1 then
    { f with
      node := (f.observe saved r).1
      handlers := f.handlers ++ [⟨r, r.entries, 0⟩]
      accepted := r :: f.accepted }
  else { f with node := (f.observe saved r).1 }

/-- The log a leader installs. -/
def Leader.seed (l : Leader) (k : Nat) (term : Int) (jobs : List Job) (workers : List WorkerInfo) : Leader :=
  { l with repl := Repl.seed jobs workers, term := some term, seedings := l.seedings.eraseIdx k }

def System.lead (s : System) (i : String) (l : Leader) : System := { s with leaders := Function.update s.leaders i l }

variable (me : String)

def act (s : System) : Action → Option System
  | .put i m => some (s.lead i { s.leaders i with store := applyEntry (s.leaders i).store ⟨0, some m⟩ })
  | .listJobs i term ok =>
    let jobs := if ok then (s.leaders i).store.jobs.list else []
    some (s.lead i { s.leaders i with seedings := (s.leaders i).seedings ++ [⟨term, jobs, none⟩] })
  | .listWorkers i k ok => match (s.leaders i).seedings[k]? with
    | some ⟨term, jobs, none⟩ =>
      let workers := if ok then (s.leaders i).store.workers.list else []
      some (s.lead i { s.leaders i with seedings := (s.leaders i).seedings.set k ⟨term, jobs, some workers⟩ })
    | _ => none
  | .seed i k => match (s.leaders i).seedings[k]? with
    | some ⟨term, jobs, some workers⟩ =>
      if term ∈ s.seeded then none
      else some { s.lead i ((s.leaders i).seed k term jobs workers) with seeded := term :: s.seeded }
    | _ => none
  | .append i m => some (s.lead i { s.leaders i with repl := (s.leaders i).repl.append m })
  | .send i term =>
    let r : Request := ⟨i, term, (s.leaders i).repl.entriesForPeer me⟩
    some { s with sent := s.sent ++ [r], requests := s.requests ++ [r] }
  | .deliver k saved => (s.sent[k]?).map fun r =>
    { s with sent := s.sent.eraseIdx k, follower := s.follower.deliver saved r }
  | .apply k ok => match s.follower.handlers[k]? with
    | some ⟨r, e :: rest, last⟩ => some { s with
        follower := { s.follower.write ok r.term e with handlers := s.follower.handlers.set k ⟨r, rest, seen last e⟩ } }
    | _ => none
  | .respond k => match s.follower.handlers[k]? with
    | some ⟨r, [], last⟩ => some { s with
        follower := { s.follower with handlers := s.follower.handlers.eraseIdx k }
        responses := s.responses ++ [⟨r, last⟩] }
    | _ => none
  | .ack k => (s.responses[k]?).map fun a =>
    let i := a.request.leaderID
    { s.lead i { s.leaders i with repl := (s.leaders i).repl.ackPeer me a.appliedThrough } with
      responses := s.responses.eraseIdx k }
  | .elect node => some { s with follower := { s.follower with node := node } }
  | .restart node => some { s with follower := { s.follower with node := node, handlers := [] } }

/-- The systems of the runs whose actions all meet a condition on the system before them. -/
inductive Runs (ok : System → Action → Prop) (s₀ : System) : System → Prop
  | refl : Runs ok s₀ s₀
  | step {s s' : System} {a : Action} : Runs ok s₀ s → ok s a → act me s a = some s' → Runs ok s₀ s'

/-- A follower of any content, and no log seeded yet. -/
def start (node : Cluster.Node) (store : Store) : System where
  follower := { node := node, store := store }

/-- The cursor of the follower at a leader. -/
def Leader.acked (l : Leader) : Int := (l.repl.peerAcked[me]?).getD 0

/-- The key an entry writes. -/
def keyOf (e : ReplicationEntry) : Option Key := e.mutation.map fun m => (writeOf m).key

variable {me} {s s' : System} {r : Request}

theorem act_listWorkers {i : String} {k : Nat} {ok : Bool} (h : act me s (.listWorkers i k ok) = some s') :
    ∃ seedings, s' = s.lead i { s.leaders i with seedings := seedings } := by
  simp only [act] at h
  split at h
  · exact ⟨_, (Option.some.inj h).symm⟩
  · cases h

theorem act_seed {i : String} {k : Nat} (h : act me s (.seed i k) = some s') : ∃ term jobs workers, term ∉ s.seeded ∧
    s' = { s.lead i ((s.leaders i).seed k term jobs workers) with seeded := term :: s.seeded } := by
  simp only [act] at h
  split at h
  · rename_i term jobs workers _
    obtain ⟨hfresh, h⟩ := Option.ite_none_left_eq_some.1 h
    exact ⟨term, jobs, workers, hfresh, (Option.some.inj h).symm⟩
  · cases h

theorem act_apply {k : Nat} {ok : Bool} (h : act me s (.apply k ok) = some s') : ∃ r e rest last,
    s.follower.handlers[k]? = some ⟨r, e :: rest, last⟩ ∧ s' = { s with
      follower := { s.follower.write ok r.term e with handlers := s.follower.handlers.set k ⟨r, rest, seen last e⟩ } } := by
  simp only [act] at h
  split at h
  · rename_i r e rest last hd
    exact ⟨r, e, rest, last, hd, (Option.some.inj h).symm⟩
  · cases h

theorem act_respond {k : Nat} (h : act me s (.respond k) = some s') : ∃ r last,
    s.follower.handlers[k]? = some ⟨r, [], last⟩ ∧ s' = { s with
      follower := { s.follower with handlers := s.follower.handlers.eraseIdx k }
      responses := s.responses ++ [⟨r, last⟩] } := by
  simp only [act] at h
  split at h
  · rename_i r last hd
    exact ⟨r, last, hd, (Option.some.inj h).symm⟩
  · cases h

/-! ## What no action undoes -/

/-- The log of a node. -/
def System.log (s : System) (i : String) : List ReplicationEntry := (s.leaders i).repl.replLog

/-- What no action undoes. -/
structure LogsGrow (me : String) (s s' : System) : Prop where
  seeded : ∀ t ∈ s.seeded, t ∈ s'.seeded
  terms : ∀ i t, t ∈ s.seeded → (s'.leaders i).term = some t → (s.leaders i).term = some t
  logged : ∀ i t, t ∈ s.seeded → (s'.leaders i).term = some t → ∀ e ∈ s.log i, e ∈ s'.log i
  appended : ∀ i t, t ∈ s.seeded → (s'.leaders i).term = some t → ∀ e ∈ s'.log i,
    e ∈ s.log i ∨ ∀ f ∈ s.log i, f.seq < e.seq
  acked : ∀ i t, t ∈ s.seeded → (s'.leaders i).term = some t → (s.leaders i).acked me ≤ (s'.leaders i).acked me
  accepted : ∀ r ∈ s.follower.accepted, r ∈ s'.follower.accepted
  stored : ∀ p ∈ s.follower.stored, p ∈ s'.follower.stored

/-- The logs are as they were. -/
theorem LogsGrow.of_leaders (hl : s'.leaders = s.leaders) (hseed : s'.seeded = s.seeded)
    (hacc : ∀ r ∈ s.follower.accepted, r ∈ s'.follower.accepted) (hst : ∀ p ∈ s.follower.stored, p ∈ s'.follower.stored) :
    LogsGrow me s s' := by
  have hlog : s'.log = s.log := by
    funext i
    unfold System.log
    rw [hl]
  refine ⟨hseed ▸ fun _ => id, hl ▸ fun _ _ _ => id, ?_, ?_, ?_, hacc, hst⟩
  · rw [hlog]
    exact fun _ _ _ _ _ => id
  · rw [hlog]
    exact fun _ _ _ _ _ => .inl
  · rw [hl]
    exact fun _ _ _ _ => le_rfl

/-- The log of a node before and after an action: it was seeded for a new term, or has only grown. -/
def Renews (me : String) (s : System) (i : String) (l : Leader) : Prop :=
  (∀ t, l.term = some t → t ∉ s.seeded) ∨
    (l.term = (s.leaders i).term ∧ (∀ e ∈ s.log i, e ∈ l.repl.replLog) ∧
      (∀ e ∈ l.repl.replLog, e ∈ s.log i ∨ ∀ f ∈ s.log i, f.seq < e.seq) ∧ (s.leaders i).acked me ≤ l.acked me)

theorem Renews.logsGrow {i : String} {l : Leader} (h : Renews me s i l) (hl : s'.leaders = Function.update s.leaders i l)
    (hseed : ∀ t ∈ s.seeded, t ∈ s'.seeded) (hf : s'.follower = s.follower) : LogsGrow me s s' := by
  have hother : ∀ i', i' ≠ i → s'.leaders i' = s.leaders i' := fun i' hne => by rw [hl, Function.update_of_ne hne]
  have hself : s'.leaders i = l := by rw [hl, Function.update_self]
  -- a term seeded before belongs to the node's log only if that has grown
  have hgrown : ∀ t, t ∈ s.seeded → l.term = some t → l.term = (s.leaders i).term ∧
      (∀ e ∈ s.log i, e ∈ l.repl.replLog) ∧
      (∀ e ∈ l.repl.replLog, e ∈ s.log i ∨ ∀ f ∈ s.log i, f.seq < e.seq) ∧ (s.leaders i).acked me ≤ l.acked me :=
    fun t ht hlt => h.resolve_left fun hfresh => hfresh t hlt ht
  refine ⟨hseed, fun i' t ht hi' => ?_, fun i' t ht hi' e he => ?_, fun i' t ht hi' e he => ?_, fun i' t ht hi' => ?_,
    by rw [hf]; exact fun _ => id, by rw [hf]; exact fun _ => id⟩
  · by_cases hii : i' = i
    · subst hii
      rw [hself] at hi'
      exact (hgrown t ht hi').1 ▸ hi'
    · exact hother i' hii ▸ hi'
  · unfold System.log
    by_cases hii : i' = i
    · subst hii
      rw [hself] at hi' ⊢
      exact (hgrown t ht hi').2.1 e he
    · rw [hother i' hii]
      exact he
  · unfold System.log at he
    by_cases hii : i' = i
    · subst hii
      rw [hself] at hi' he
      exact (hgrown t ht hi').2.2.1 e he
    · rw [hother i' hii] at he
      exact .inl he
  · by_cases hii : i' = i
    · subst hii
      rw [hself] at hi' ⊢
      exact (hgrown t ht hi').2.2.2
    · rw [hother i' hii]

/-- Its log, its term and its cursor are as they were. -/
theorem Renews.refl {i : String} {l : Leader} (hr : l.repl = (s.leaders i).repl) (ht : l.term = (s.leaders i).term) :
    Renews me s i l := by
  refine .inr ⟨ht, ?_, ?_, ?_⟩
  · rw [hr]
    exact fun _ => id
  · rw [hr]
    exact fun _ => .inl
  · unfold Leader.acked
    rw [hr]

theorem Renews.seed {i : String} {t : Int} (ht : t ∉ s.seeded) (k : Nat) (jobs : List Job) (workers : List WorkerInfo) :
    Renews me s i ((s.leaders i).seed k t jobs workers) := by
  refine .inl ?_
  rintro _ ⟨⟩
  exact ht

theorem Renews.append {i : String} (hord : Ordered (s.leaders i).repl) (m : Mutation) :
    Renews me s i { s.leaders i with repl := (s.leaders i).repl.append m } := by
  refine .inr ⟨rfl, fun e he => List.mem_append_left _ he, fun e he => ?_, le_rfl⟩
  rcases List.mem_append.1 he with he | he
  · exact .inl he
  · refine .inr fun f hf => ?_
    rw [List.mem_singleton.1 he]
    have := hord.bound f hf
    show f.seq < (s.leaders i).repl.replSeq + 1
    omega

/-- A cursor moves to what is reported, if at all, and only ahead. -/
theorem acked_ackPeer (me : String) (l : Leader) (applied : Int) :
    ({ l with repl := l.repl.ackPeer me applied } : Leader).acked me = l.acked me ∨
      ({ l with repl := l.repl.ackPeer me applied } : Leader).acked me = applied ∧ 0 < applied ∧
        l.acked me < applied := by
  unfold Leader.acked Repl.ackPeer
  split
  · exact .inl rfl
  · split
    · rename_i hpos hgt
      refine .inr ⟨?_, not_le.1 hpos, hgt⟩
      simp
    · exact .inl rfl

theorem Renews.ack (i : String) (applied : Int) :
    Renews me s i { s.leaders i with repl := (s.leaders i).repl.ackPeer me applied } := by
  have hlog := (log_ackPeer (s.leaders i).repl me applied).1
  refine .inr ⟨rfl, ?_, ?_, ?_⟩
  · rw [hlog]
    exact fun _ => id
  · rw [hlog]
    exact fun _ => .inl
  · rcases acked_ackPeer me (s.leaders i) applied with he | ⟨he, -, hlt⟩ <;> rw [he]
    exact hlt.le

/-- A node writes to its own store, or lists it. -/
theorem LogsGrow.aside {i : String} {l : Leader} (hr : l.repl = (s.leaders i).repl) (ht : l.term = (s.leaders i).term) :
    LogsGrow me s (s.lead i l) :=
  (Renews.refl hr ht).logsGrow rfl (fun _ => id) rfl

/-- No action loses a seeded term, a logged entry, an accepted request or a stored entry, or takes a cursor back. -/
theorem logsGrow_act (hord : ∀ i, Ordered (s.leaders i).repl) {a : Action} (ha : act me s a = some s') : LogsGrow me s s' := by
  cases a with
  | put i m | listJobs i term ok =>
    cases ha
    exact .aside rfl rfl
  | listWorkers i k ok =>
    obtain ⟨seedings, rfl⟩ := act_listWorkers ha
    exact .aside rfl rfl
  | seed i k =>
    obtain ⟨t, jobs, workers, ht, rfl⟩ := act_seed ha
    exact Renews.logsGrow (.seed ht k jobs workers) rfl (fun _ => List.mem_cons_of_mem _) rfl
  | append i m =>
    cases ha
    exact Renews.logsGrow (.append (hord i) m) rfl (fun _ => id) rfl
  | ack k =>
    obtain ⟨a, _, rfl⟩ := Option.map_eq_some_iff.1 ha
    exact Renews.logsGrow (.ack _ a.appliedThrough) rfl (fun _ => id) rfl
  | deliver k saved =>
    obtain ⟨r, _, rfl⟩ := Option.map_eq_some_iff.1 ha
    refine .of_leaders rfl rfl ?_ ?_
    · show ∀ r' ∈ s.follower.accepted, r' ∈ (s.follower.deliver saved r).accepted
      unfold Follower.deliver
      split
      · exact fun _ => List.mem_cons_of_mem _
      · exact fun _ => id
    · show ∀ p ∈ s.follower.stored, p ∈ (s.follower.deliver saved r).stored
      unfold Follower.deliver
      split <;> exact fun _ => id
  | apply k ok =>
    obtain ⟨r, e, rest, last, _, rfl⟩ := act_apply ha
    cases ok with
    | true => exact .of_leaders rfl rfl (fun _ => id) fun _ => List.mem_cons_of_mem _
    | false => exact .of_leaders rfl rfl (fun _ => id) fun _ => id
  | respond k =>
    obtain ⟨r, last, _, rfl⟩ := act_respond ha
    exact .of_leaders rfl rfl (fun _ => id) fun _ => id
  | send | elect | restart =>
    cases ha
    exact .of_leaders rfl rfl (fun _ => id) fun _ => id

/-! ## Cursors -/

/-- Seeding resets the cursors. -/
theorem acked_seed (l : Leader) (k : Nat) (term : Int) (jobs : List Job) (workers : List WorkerInfo) :
    (l.seed k term jobs workers).acked me = 0 := by
  have happend : ∀ (ms : List Mutation) (r : Repl), (ms.foldl Repl.append r).peerAcked = r.peerAcked := by
    intro ms
    induction ms with
    | nil => exact fun _ => rfl
    | cons m ms ih => exact fun r => ih (r.append m)
  unfold Leader.acked Leader.seed Repl.seed
  rw [happend, happend]
  simp

/-- A request holds what its sender's log has beyond the cursor. -/
theorem mem_entriesForPeer {i : String} {e : ReplicationEntry} :
    e ∈ (s.leaders i).repl.entriesForPeer me ↔ e ∈ s.log i ∧ (s.leaders i).acked me < e.seq := by
  unfold Repl.entriesForPeer Leader.acked
  rw [List.mem_filter, decide_eq_true_eq]
  exact Iff.rfl

/-- The highest seq of a handler is that of an entry of its request, unless it is zero. -/
def LastOf (r : Request) (last : Int) : Prop := last = 0 ∨ ∃ f ∈ r.entries, f.seq = last

theorem lastOf_seen {last : Int} {e : ReplicationEntry} (h : LastOf r last) (he : e ∈ r.entries) :
    LastOf r (seen last e) := by
  unfold seen
  split
  · exact .inr ⟨e, he, rfl⟩
  · exact h

/-! ## Schedules -/

/-- The actions, one after the other, if each passes a test. -/
def perform (me : String) (test : System → Action → Bool) : System → List Action → Option System
  | s, [] => some s
  | s, a :: as => if test s a then (act me s a).bind (perform me test · as) else none

theorem Runs.perform {ok : System → Action → Prop} {test : System → Action → Bool} (ht : ∀ s a, test s a = true → ok s a)
    {s₀ : System} : ∀ {as : List Action} {s s' : System}, Runs me ok s₀ s → perform me test s as = some s' → Runs me ok s₀ s'
  | [], s, s', h, hp => by
    cases hp
    exact h
  | a :: as, s, s', h, hp => by
    obtain ⟨htest, hp⟩ := Option.ite_none_right_eq_some.1 hp
    obtain ⟨s₁, h₁, h₂⟩ := Option.bind_eq_some_iff.1 hp
    exact Runs.perform ht (h.step (ht s a htest) h₁) h₂

/-- A node seeds its log for a term from its own store. -/
def seeding (i : String) (term : Int) : List Action := [.listJobs i term true, .listWorkers i 0 true, .seed i 0]

/-- The job "x" in two versions. -/
def jobX (state : JobState) : Job := { id := "x", state := state }

end Distsched.Replication
