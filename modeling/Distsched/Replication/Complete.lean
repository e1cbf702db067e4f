/-
The leader's log beside its store. A put writes the store first and appends to the log afterwards; a seed lists the
store first and replaces the log afterwards; and they all run at the same time. Two puts of one record can append in
the other order, and an append can fall between the listing and the replacement, so the log can miss what the store
holds. It does not if every append that is the last one under way for its record appends what is stored, and what the
listings hold that are still to be installed.
-/
import Distsched.Lib.Pool
import Distsched.Replication.Log
import Distsched.Scheduler.Silent

namespace Distsched.Replication

open Scheduler Prog Journal

/-! ## The calls -/

/-- The calls that write the log. -/
inductive Writer
  | putJob (job : Job)
  | putWorker (worker : WorkerInfo)
  | seedReplication

def Writer.prog : Writer → M (Except String Unit)
  | .putJob job => Scheduler.putJob job
  | .putWorker worker => Scheduler.putWorker worker
  | .seedReplication => do
    Scheduler.seedReplication
    pure (.ok ())

/-- How far a call has come: what it has stored and not yet appended, what it has listed and not yet installed, and
whether it has installed a log. -/
structure LogNote where
  unlogged : Option Mutation := none
  jobs : Option (List Job) := none
  workers : Option (List WorkerInfo) := none
  installed : Bool := false

namespace LogNote

def Permits (g : LogNote) : Op → Prop
  | .putJob _ | .putWorker _ => g.unlogged = none
  | .appendLog m => g.unlogged = some m
  | .installLog jobs workers => g.jobs = some jobs ∧ g.workers = some workers
  | .listJobs | .listWorkers | .isLeader | .cacheWorker _ => True
  | _ => False

/-- No listing fails, and the node leads. -/
def Answers : (op : Op) → op.Resp → Prop
  | .listJobs, .error _ | .listWorkers, .error _ => False
  | .isLeader, leads => leads = true
  | _, _ => True

def next (g : LogNote) : (op : Op) → op.Resp → LogNote
  | .putJob job, .ok _ => { g with unlogged := some (.upsertJob job) }
  | .putWorker worker, .ok _ => { g with unlogged := some (.upsertWorker worker) }
  | .appendLog _, _ => { g with unlogged := none }
  | .listJobs, .ok jobs => { g with jobs := some jobs }
  | .listWorkers, .ok workers => { g with workers := some workers }
  | .installLog .., _ => { g with jobs := none, workers := none, installed := true }
  | _, _ => g

/-- The call is between its store write and its log append of a record. -/
def writing (g : LogNote) (k : Key) : Bool := g.unlogged.any fun m => (writeOf m).key = k

/-- What the call has listed under a key, if it has listed that kind of record and not yet installed the listing. -/
def listed (g : LogNote) : Key → Option (Option Value)
  | .job id => g.jobs.map fun jobs => replay (fun _ => none) (jobWrites jobs) (.job id)
  | .worker id => g.workers.map fun workers => replay (fun _ => none) (workerWrites workers) (.worker id)

end LogNote

/-- A put appends what it has stored; a seed installs what it has listed. -/
def logging : Protocol Op Op.Resp LogNote where
  permits op g := g.Permits op
  answers op r _ := LogNote.Answers op r
  next op r g := g.next op r

/-- The calls, about to begin in state `s`. -/
def writers (ws : List Writer) (s : Server) : Pool Op Op.Resp Server LogNote (Except String Unit) :=
  Pool.spawn Writer.prog (fun _ => {}) ws s

/-- Nothing is left to append, and a seed has installed its log. -/
def Writer.Ends (w : Writer) (g : LogNote) : Prop := g.unlogged = none ∧ (w = .seedReplication → g.installed = true)

/-- While the node leads, what is appended is what was stored. -/
theorem logging_appendRepl {m : Mutation} {g : LogNote} (h : g.unlogged = some m) :
    Meets logging (appendRepl m) g fun _ g' => g'.unlogged = none := by
  refine ⟨trivial, fun leads hl => ?_⟩
  cases hl
  exact ⟨h, fun _ _ => rfl⟩

theorem logging_writer (w : Writer) : Meets logging w.prog {} fun _ g => w.Ends g := by
  cases w with
  | putJob job =>
    refine ⟨rfl, fun r _ => ?_⟩
    cases r with
    | error e => exact ⟨rfl, nofun⟩
    | ok _ => exact (logging_appendRepl rfl).bind fun _ _ h => ⟨h, nofun⟩
  | putWorker worker =>
    refine ⟨rfl, fun r _ => ?_⟩
    cases r with
    | error e => exact ⟨rfl, nofun⟩
    | ok _ => exact (logging_appendRepl rfl).bind fun _ _ h => ⟨trivial, fun _ _ => ⟨h, nofun⟩⟩
  | seedReplication =>
    refine ⟨trivial, fun jobs hj => ⟨trivial, fun workers hw => ?_⟩⟩
    cases jobs with
    | error e => exact hj.elim
    | ok jobs =>
      cases workers with
      | error e => exact hw.elim
      | ok workers => exact ⟨⟨rfl, rfl⟩, fun _ _ => ⟨rfl, fun _ => rfl⟩⟩

/-! ## What keeps the log complete -/

/-- No listing fails. A put appends only if another put of the same record is also between its store write and its
append, or if the store and all listings still to be installed hold what it appends. -/
def InOrder (env : Env) : Pool.Guard Op Server LogNote := fun op _ gs s =>
  (op = .listJobs ∨ op = .listWorkers → env.fails s.tick = none) ∧
  ∀ m, op = .appendLog m → 2 ≤ gs.countP (·.writing (writeOf m).key) ∨
    contents s.store (writeOf m).key = (writeOf m).value ∧
      ∀ g ∈ gs, ∀ v ∈ g.listed (writeOf m).key, v = (writeOf m).value

/-- The store holds `v` under `k`, or some put of that record is yet to be appended. -/
def StoredOrPending (st : Store) (gs : List LogNote) (k : Key) (v : Option Value) : Prop :=
  contents st k = v ∨ ∃ g ∈ gs, g.writing k = true

/-- What is listed, and from a first installation on what is logged, is current. -/
structure LogTracks (base : Prop) (s : Server) (gs : List LogNote) : Prop where
  leads : s.node.isLeader = true
  ordered : Ordered s.repl
  listed : ∀ g ∈ gs, ∀ k, ∀ v ∈ g.listed k, StoredOrPending s.store gs k v
  logged : (base ∨ ∃ g ∈ gs, g.installed = true) → ∀ k, StoredOrPending s.store gs k (logged s.repl k)

variable {env : Env} {base : Prop} {s s' : Server} {g g' : LogNote} {gs : List LogNote} {i : Nat} {k : Key}
  {v : Option Value}

theorem StoredOrPending.set {st st' : Store} (h : StoredOrPending st gs k v) (hi : gs[i]? = some g)
    (hst : contents st' k = contents st k ∨ g'.writing k = true) (hw : g.writing k = true → g'.writing k = true) :
    StoredOrPending st' (gs.set i g') k v := by
  obtain ⟨hlt, _⟩ := List.getElem?_eq_some_iff.1 hi
  rcases hst with hst | hst
  · rcases h with h | h
    · exact .inl (hst.trans h)
    · exact .inr (Pool.exists_mem_set hi h hw)
  · exact .inr ⟨g', List.mem_set hlt g', hst⟩

/-- A step that leaves the log alone: the call may store a record, and then has it to append; or list what is stored. -/
theorem LogTracks.keep (h : LogTracks base s gs) (hi : gs[i]? = some g) (hnode : s'.node = s.node) (hrepl : s'.repl = s.repl)
    (hst : ∀ k, contents s'.store k = contents s.store k ∨ g'.writing k = true)
    (hw : ∀ k, g.writing k = true → g'.writing k = true) (hinst : g'.installed = g.installed)
    (hlist : ∀ k, ∀ v ∈ g'.listed k, v ∈ g.listed k ∨ contents s'.store k = v) : LogTracks base s' (gs.set i g') where
  leads := by rw [hnode]; exact h.leads
  ordered := by rw [hrepl]; exact h.ordered
  listed a ha k v hv := by
    have hcur : ∀ b ∈ gs, v ∈ b.listed k → StoredOrPending s'.store (gs.set i g') k v :=
      fun b hb hv => (h.listed b hb k v hv).set hi (hst k) (hw k)
    rcases List.mem_or_eq_of_mem_set ha with ha | rfl
    · exact hcur a ha hv
    · rcases hlist k v hv with hv | hv
      · exact hcur g (List.mem_of_getElem? hi) hv
      · exact .inl hv
  logged hb k := by
    rw [hrepl]
    have hb := hb.imp_right fun he => Pool.exists_mem_of_set hi he fun hg => hinst ▸ hg
    exact (h.logged hb k).set hi (hst k) (hw k)

theorem writing_iff {m : Mutation} (hg : g.unlogged = some m) : g.writing k = true ↔ (writeOf m).key = k := by
  simp [LogNote.writing, hg]

/-- A step that neither changes store, log or role nor takes a note. -/
theorem LogTracks.skip (h : LogTracks base s gs) (hi : gs[i]? = some g) (hnode : s'.node = s.node) (hrepl : s'.repl = s.repl)
    (hst : s'.store = s.store) : LogTracks base s' (gs.set i g) :=
  h.keep hi hnode hrepl (fun _ => .inl (by rw [hst])) (fun _ => id) rfl fun _ _ => .inl

/-- A put stores its record, and then has it to append. -/
theorem LogTracks.put {m : Mutation} (h : LogTracks base s gs) (hi : gs[i]? = some g) (hg : g.unlogged = none) :
    LogTracks base { s.ticked with store := applyEntry s.store ⟨0, some m⟩ } (gs.set i { g with unlogged := some m }) := by
  refine h.keep hi rfl rfl (fun k => ?_) (fun k hw => ?_) rfl fun k v hv => .inl (by cases k <;> exact hv)
  · by_cases hk : (writeOf m).key = k
    · exact .inr ((writing_iff rfl).2 hk)
    · refine .inl ?_
      rw [contents_applyEntry, replay_of_notMem]
      intro w hw he
      obtain rfl : w = writeOf m := List.mem_singleton.1 hw
      exact hk he
  · rw [LogNote.writing, hg] at hw
    cases hw

/-- If two puts of a record are under way and one of them appends, another remains. -/
theorem exists_writing_set (hi : gs[i]? = some g) (h : 2 ≤ gs.countP (·.writing k)) : ∃ a ∈ gs.set i g', a.writing k = true := by
  obtain ⟨hlt, _⟩ := List.getElem?_eq_some_iff.1 hi
  have hpos : 0 < (gs.set i g').countP (·.writing k) := by
    rw [List.countP_set hlt]
    split <;> split <;> omega
  exact List.countP_pos_iff.1 hpos

/-- After an append, what is current is what was so before under other keys, and under its key what it appends. -/
theorem StoredOrPending.append {st : Store} {m : Mutation} (hi : gs[i]? = some g) (hg : g.unlogged = some m)
    (hok : 2 ≤ gs.countP (·.writing (writeOf m).key) ∨
      contents st (writeOf m).key = (writeOf m).value ∧ (k = (writeOf m).key → v = (writeOf m).value))
    (h : k ≠ (writeOf m).key → StoredOrPending st gs k v) : StoredOrPending st (gs.set i { g with unlogged := none }) k v := by
  by_cases hk : k = (writeOf m).key
  · rcases hok with hok | ⟨hst, hv⟩
    · exact .inr (exists_writing_set hi (hk ▸ hok))
    · refine .inl ?_
      rw [hv hk, hk]
      exact hst
  · exact (h hk).set hi (.inl rfl) fun hw => absurd ((writing_iff hg).1 hw).symm hk

theorem LogTracks.append {m : Mutation} (h : LogTracks base s gs) (hi : gs[i]? = some g) (hg : g.unlogged = some m)
    (hok : 2 ≤ gs.countP (·.writing (writeOf m).key) ∨ contents s.store (writeOf m).key = (writeOf m).value ∧
      ∀ a ∈ gs, ∀ v ∈ a.listed (writeOf m).key, v = (writeOf m).value) :
    LogTracks base { s.ticked with repl := s.repl.append m } (gs.set i { g with unlogged := none }) where
  leads := h.leads
  ordered := h.ordered.append m
  listed a ha k v hv := by
    obtain ⟨b, hb, hv⟩ : ∃ b ∈ gs, v ∈ b.listed k :=
      Pool.exists_mem_of_set hi ⟨a, ha, hv⟩ fun hg => by cases k <;> exact hg
    refine StoredOrPending.append hi hg (hok.imp_right fun ⟨hst, hall⟩ => ⟨hst, ?_⟩) fun _ => h.listed b hb k v hv
    rintro rfl
    exact hall b hb v hv
  logged hb k := by
    have hb : base ∨ ∃ a ∈ gs, a.installed = true := by
      rcases hb with hb | hb
      · exact .inl hb
      · exact .inr (Pool.exists_mem_of_set hi hb fun hg => hg)
    show StoredOrPending s.store _ k (Replication.logged (s.repl.append m) k)
    rw [logged_append, Function.update_apply]
    refine StoredOrPending.append hi hg (hok.imp_right fun ⟨hst, _⟩ => ⟨hst, fun hk => if_pos hk⟩) fun hk => ?_
    rw [if_neg hk]
    exact h.logged hb k

/-- The log becomes what the seed has listed. -/
theorem LogTracks.install {jobs : List Job} {workers : List WorkerInfo} (h : LogTracks base s gs) (hi : gs[i]? = some g)
    (hj : g.jobs = some jobs) (hw : g.workers = some workers) :
    LogTracks base { s.ticked with repl := Repl.seed jobs workers }
      (gs.set i { g with jobs := none, workers := none, installed := true }) where
  leads := h.leads
  ordered := ordered_seed jobs workers
  listed a ha k v hv := by
    rcases List.mem_or_eq_of_mem_set ha with ha | rfl
    · exact (h.listed a ha k v hv).set hi (.inl rfl) id
    · cases k <;> cases hv
  logged _ k := by
    have hk : Replication.logged (Repl.seed jobs workers) k ∈ g.listed k := by
      cases k with
      | job id => rw [logged_seed_job, LogNote.listed, hj]; rfl
      | worker id => rw [logged_seed_worker, LogNote.listed, hw]; rfl
    exact (h.listed g (List.mem_of_getElem? hi) k _ hk).set hi (.inl rfl) id

theorem inductive_tracks (env : Env) (base : Prop) : Pool.Inductive (handle env) logging (InOrder env) (LogTracks base) := by
  intro op g gs s i hi h hperm hok
  cases op with
  | putJob job =>
    refine ⟨trivial, ?_⟩
    simp only [handle, Server.write]
    split
    · exact h.skip hi rfl rfl rfl
    · exact h.put (m := .upsertJob job) hi hperm
  | putWorker worker =>
    refine ⟨trivial, ?_⟩
    simp only [handle, Server.write]
    split
    · exact h.skip hi rfl rfl rfl
    · exact h.put (m := .upsertWorker worker) hi hperm
  | appendLog m => exact ⟨trivial, h.append hi hperm (hok.2 m rfl)⟩
  | listJobs =>
    have hf := hok.1 (.inl rfl)
    simp only [handle, hf]
    refine ⟨trivial, h.keep hi rfl rfl (fun _ => .inl rfl) (fun _ => id) rfl fun k v hv => ?_⟩
    cases k with
    | job id =>
      cases hv
      exact .inr (replay_jobs s.store id).symm
    | worker id => exact .inl hv
  | listWorkers =>
    have hf := hok.1 (.inr rfl)
    simp only [handle, hf]
    refine ⟨trivial, h.keep hi rfl rfl (fun _ => .inl rfl) (fun _ => id) rfl fun k v hv => ?_⟩
    cases k with
    | worker id =>
      cases hv
      exact .inr (replay_workers s.store id).symm
    | job id => exact .inl hv
  | installLog jobs workers => exact ⟨trivial, h.install hi hperm.1 hperm.2⟩
  | isLeader => exact ⟨h.leads, h.skip hi rfl rfl rfl⟩
  | cacheWorker worker => exact ⟨trivial, h.skip hi rfl rfl rfl⟩
  | _ => exact hperm.elim

/-! ## Completeness -/

/-- Replaying the log from the empty store gives the jobs and the workers of the store. -/
def Complete (s : Server) : Prop :=
  (applyEntries .empty s.repl.replLog).1.jobs = s.store.jobs ∧
    (applyEntries .empty s.repl.replLog).1.workers = s.store.workers

theorem complete_iff : Complete s ↔ contents s.store = logged s.repl := by
  have hlog : contents (applyEntries .empty s.repl.replLog).1 = logged s.repl := by
    rw [contents_applyEntries, contents_empty]
    rfl
  rw [Complete, ← contents_eq_iff, hlog]
  exact eq_comm

/-- Some seed has returned. -/
def Seeded (ws : List Writer) (c : Pool Op Op.Resp Server LogNote (Except String Unit)) : Prop :=
  ∃ i, ws[i]? = some .seedReplication ∧ (c.result i).isSome = true

/-- The invariant holds throughout, and each call ends as it should. -/
theorem sound_writers {ws : List Writer} {s₀ : Server} {c : Pool Op Op.Resp Server LogNote (Except String Unit)}
    (hlead : s₀.node.isLeader = true) (hord : Ordered s₀.repl)
    (h : Pool.Reaches (handle env) logging (InOrder env) (writers ws s₀) c) :
    Pool.Sound logging (LogTracks (Complete s₀)) (fun i _ g => ∃ w, ws[i]? = some w ∧ w.Ends g) c := by
  refine Pool.Reaches.sound (inductive_tracks env _) ⟨⟨hlead, hord, ?_, ?_⟩, ?_⟩ h
  · intro g hg k v hv
    obtain ⟨_, _, rfl⟩ := Pool.mem_notes_spawn hg
    cases k <;> cases hv
  · rintro (hc | ⟨g, hg, hi⟩) k
    · exact .inl (congrFun (complete_iff.1 hc) k)
    · obtain ⟨_, _, rfl⟩ := Pool.mem_notes_spawn hg
      cases hi
  · intro i t ht
    obtain ⟨w, hw, rfl⟩ := Pool.thread_spawn ht
    exact (logging_writer w).mono fun _ _ hg => ⟨w, hw, hg⟩

/-- On a leader, with every append in order: whenever no call is in progress, the log is sorted by seq and replaying it
gives exactly the stored jobs and workers, once a seed has returned or if the log was complete to begin with. -/
theorem log_complete {ws : List Writer} {s₀ : Server} {c : Pool Op Op.Resp Server LogNote (Except String Unit)}
    (hlead : s₀.node.isLeader = true) (hord : Ordered s₀.repl)
    (h : Pool.Reaches (handle env) logging (InOrder env) (writers ws s₀) c) (hrest : Pool.AtRest (writers ws s₀) c)
    (hseed : Complete s₀ ∨ Seeded ws c) :
    c.state.repl.replLog.Pairwise (fun e e' => e.seq < e'.seq) ∧ Complete c.state := by
  have hsound := sound_writers hlead hord h
  have hquiet : ∀ g ∈ c.notes, ∀ k, g.writing k = false := by
    intro g hg k
    have hnone : g.unlogged = none := by
      rcases hsound.atRest hrest hg with ⟨_, _, _, _, hend⟩ | hstart
      · exact hend.1
      · obtain ⟨_, _, rfl⟩ := Pool.mem_notes_spawn hstart
        rfl
    rw [LogNote.writing, hnone]
    rfl
  have hbase : Complete s₀ ∨ ∃ g ∈ c.notes, g.installed = true := by
    refine hseed.imp_right ?_
    rintro ⟨i, hi, hres⟩
    obtain ⟨a, ha⟩ := Option.isSome_iff_exists.1 hres
    obtain ⟨g, hg, w, hw, hend⟩ := hsound.finished ha
    cases hi.symm.trans hw
    exact ⟨g, hg, hend.2 rfl⟩
  refine ⟨hsound.inv.ordered.sorted, complete_iff.2 (funext fun k => ?_)⟩
  rcases hsound.inv.logged hbase k with hk | ⟨g, hg, hw⟩
  · exact hk
  · rw [hquiet g hg k] at hw
    cases hw

/-! ## Three schedules -/

/-- Whether an operation meets `InOrder`. -/
def inOrder (env : Env) (op : Op) (_ : LogNote) (gs : List LogNote) (s : Server) : Bool :=
  match op with
  | .listJobs | .listWorkers => (env.fails s.tick).isNone
  | .appendLog m => decide (contents s.store (writeOf m).key = (writeOf m).value) &&
    gs.all fun g => (g.listed (writeOf m).key).all (· = (writeOf m).value)
  | _ => true

theorem inOrder_sound (op : Op) (g : LogNote) (gs : List LogNote) (s : Server) (h : inOrder env op g gs s = true) :
    InOrder env op g gs s := by
  constructor
  · rintro (rfl | rfl) <;> exact Option.isNone_iff_eq_none.1 h
  · rintro m rfl
    obtain ⟨hst, hall⟩ := Bool.and_eq_true_iff.1 h
    refine .inr ⟨of_decide_eq_true hst, fun g hg v hv => ?_⟩
    have := List.all_eq_true.1 hall g hg
    rw [Option.mem_def.1 hv] at this
    exact of_decide_eq_true this

def queuedX : Job := { id := "x", state := .queued }

def canceledX : Job := { id := "x", state := .canceled }

/-- What the log and the store say of the job "x", and whether all calls have returned. -/
def loggedStored (c : Pool Op Op.Resp Server LogNote (Except String Unit)) : Bool × Option JobState × Option JobState :=
  (c.idle, ((applyEntries .empty c.state.repl.replLog).1.jobs.get "x").map Job.state,
    (c.state.store.jobs.get "x").map Job.state)

theorem not_complete_of_loggedStored {c : Pool Op Op.Resp Server LogNote (Except String Unit)} {idle : Bool}
    {l st : Option JobState} (h : loggedStored c = (idle, l, st)) (hne : l ≠ st) : ¬ Complete c.state := by
  rintro ⟨hjobs, _⟩
  simp only [loggedStored, hjobs, Prod.mk.injEq] at h
  exact hne (h.2.1.symm.trans h.2.2)

/-- A job is stored before a seed lists the jobs and appended before it installs them; a worker is stored before the
seed lists the workers and appended after it has installed them. -/
theorem log_complete_seeded : ∃ c, Pool.Reaches (handle .steady) logging (InOrder .steady)
      (writers [.putJob queuedX, .putWorker { id := "w" }, .seedReplication] newLeader) c ∧ c.idle = true ∧
    (c.state.store.jobs.get "x").map Job.state = some .queued ∧
    c.state.repl.replLog.Pairwise (fun e e' => e.seq < e'.seq) ∧ Complete c.state := by
  have hout : ((writers [.putJob queuedX, .putWorker { id := "w" }, .seedReplication] newLeader).run (handle .steady)
      logging (inOrder .steady) [0, 2, 1, 2, 0, 0, 2, 1, 1, 1]).map (fun c => (loggedStored c, (c.result 2).isSome)) =
      some ((true, some .queued, some .queued), true) := by decide +kernel
  obtain ⟨c, hc, hout⟩ := Option.map_eq_some_iff.1 hout
  obtain ⟨⟨hidle, _, hstate⟩, hseed⟩ : (_ ∧ _ ∧ _) ∧ _ := by simpa only [loggedStored, Prod.mk.injEq] using hout
  have hreach := Pool.reaches_of_run inOrder_sound hc
  exact ⟨c, hreach, hidle, hstate, log_complete rfl ordered_empty hreach (Pool.atRest_of_idle hidle) (.inr ⟨2, rfl, hseed⟩)⟩

/-- Two puts of one job append in the other order than they stored: the log ends with the older record. And a put that
stores and appends its job while a seed is between its listing and its installation: the log has no record of it. -/
theorem log_incomplete :
    (∃ c, Pool.Reaches (handle .steady) logging Pool.free (writers [.putJob queuedX, .putJob canceledX] newLeader) c ∧
      c.idle = true ∧ ¬ Complete c.state) ∧
    ∃ c, Pool.Reaches (handle .steady) logging Pool.free (writers [.seedReplication, .putJob queuedX] newLeader) c ∧
      c.idle = true ∧ ¬ Complete c.state := by
  let always : Op → LogNote → List LogNote → Server → Bool := fun _ _ _ _ => true
  have hfree : ∀ op g gs s, always op g gs s = true → Pool.free op g gs s := fun _ _ _ _ _ => trivial
  constructor
  · have hout : ((writers [.putJob queuedX, .putJob canceledX] newLeader).run (handle .steady) logging always
        [0, 1, 1, 1, 0, 0]).map loggedStored = some (true, some .queued, some .canceled) := by decide +kernel
    obtain ⟨c, hc, hout⟩ := Option.map_eq_some_iff.1 hout
    exact ⟨c, Pool.reaches_of_run hfree hc, congrArg Prod.fst hout, not_complete_of_loggedStored hout (by decide)⟩
  · have hout : ((writers [.seedReplication, .putJob queuedX] newLeader).run (handle .steady) logging always
        [0, 0, 1, 1, 1, 0]).map loggedStored = some (true, none, some .queued) := by decide +kernel
    obtain ⟨c, hc, hout⟩ := Option.map_eq_some_iff.1 hout
    exact ⟨c, Pool.reaches_of_run hfree hc, congrArg Prod.fst hout, not_complete_of_loggedStored hout (by decide)⟩

end Distsched.Replication
