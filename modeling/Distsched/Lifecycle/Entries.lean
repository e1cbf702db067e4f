/-
The stored jobs over a run of a node in which any store call may fail and any activity may be broken off by a crash,
whatever IDs are submitted again. The notes of a handler that runs alone are true of the store, so every activity,
finished or not, writes to the store only what its notes account for.
-/
import Distsched.Lifecycle.Requests

namespace Distsched.Lifecycle

open Scheduler Prog

variable {env : Env} {places : Table → String → Prop} {g : Notes} {s s' : Server}

/-- The stored jobs of a node. -/
def table (s : Server) : Table := s.store.jobs.get

theorem table_put (s : Server) (j : Job) :
    (s.store.jobs.put j).get = Function.update (table s) j.id (some j) := by
  funext x
  rw [Bucket.get_put, Function.update_apply]
  rfl

/-- Only a write of a job changes the stored jobs. -/
theorem table_handle {op : Op} (h : ∀ j, op ≠ .putJob j) : table (handle env op s).2 = table s := by
  cases op with
  | putJob j => exact absurd rfl (h j)
  | putDeadLetter j | putWorker w =>
    simp only [handle, Server.write]
    split <;> rfl
  | _ => rfl

/-- One write to the stored jobs: a record is revised, or a submission takes a place that `places` allows. -/
inductive Entry (places : Table → String → Prop) (T : Table) : Table → Prop
  | revise {j₀ j : Job} (h : T j.id = some j₀) (hr : Revision j₀ j) : Entry places T (Function.update T j.id (some j))
  | place {j : Job} (hp : places T j.id) (ha : j.attempt = 0)
    (hs : j.state = .pending ∨ j.state = .canceled ∨ j.state = .queued) :
    Entry places T (Function.update T j.id (some j))

/-- Any number of writes. -/
abbrev Entries (places : Table → String → Prop) : Table → Table → Prop := Relation.ReflTransGen (Entry places)

/-! ## The notes of a handler that runs alone are true -/

/-- The operations answer within the protocol, if the index names only jobs noted as registered. -/
theorem answers_handle (op : Op) (hi : ∀ S, g.indexed = some S → ∀ d x, RevIndex.Waits s.revIndex d x → x ∈ S) :
    g.Answers op (handle env op s).1 := by
  cases op with
  | getJob id =>
    simp only [handle]
    split
    · trivial
    · split
      · trivial
      · rename_i hj
        exact Bucket.get_id hj
  | listJobs =>
    simp only [handle]
    split
    · trivial
    · exact s.store.jobs.list_nodup
  | dependentsOf d =>
    intro S hS x hx
    refine hi S hS d x ((RevIndex.mem_dependentsOf _ _ _).1 ?_)
    exact (env.order_perm _ _).mem_iff.1 hx
  | _ => trivial

structure Recalls (env : Env) (places : Table → String → Prop) (g : Notes) (s : Server) : Prop where
  seen : ∀ x j, j ∈ g.seen x → table s x = some j
  indexed : ∀ S, g.indexed = some S → ∀ d x, RevIndex.Waits s.revIndex d x → x ∈ S
  placing : ∀ x, g.placing = some x → places (table s) x
  drawing : g.drawing = true → places (table s) ("job" ++ "-" ++ env.uuid s.minted)

namespace Recalls

/-- The notes depend on the stored jobs, the dependency index and the UUIDs drawn. -/
theorem congr (h : Recalls env places g s) (hj : s'.store.jobs = s.store.jobs) (hi : s'.revIndex = s.revIndex)
    (hm : s'.minted = s.minted) : Recalls env places g s' := by
  have ht : table s' = table s := congrArg Bucket.get hj
  constructor
  · rw [ht]; exact h.seen
  · rw [hi]; exact h.indexed
  · rw [ht]; exact h.placing
  · rw [ht, hm]; exact h.drawing

theorem read (h : Recalls env places g s) {j : Job} (hj : table s j.id = some j) : Recalls env places (g.read j) s where
  seen x j' hj' := by
    replace hj' : j' ∈ Function.update g.seen j.id (insert j (g.seen j.id)) x := hj'
    rw [Function.update_apply] at hj'
    split at hj'
    · rename_i he
      rcases hj' with rfl | hj'
      · exact he ▸ hj
      · exact h.seen x j' (he ▸ hj')
    · exact h.seen x j' hj'
  indexed := h.indexed
  placing := h.placing
  drawing := h.drawing

theorem listed (h : Recalls env places g s) {js : List Job} (hjs : ∀ j ∈ js, table s j.id = some j) :
    Recalls env places (g.listed js) s where
  seen x j hj := by
    rcases hj with hj | ⟨hj, rfl⟩
    · exact h.seen x j hj
    · exact hjs j hj
  indexed := h.indexed
  placing := h.placing
  drawing := h.drawing

theorem wrote (h : Recalls env places g s) {j : Job} (hd : g.drawing = false)
    (ht : table s' = Function.update (table s) j.id (some j)) (hi : s'.revIndex = s.revIndex) :
    Recalls env places (g.wrote j) s' where
  seen x j' hj' := by
    replace hj' : j' ∈ Function.update g.seen j.id ∅ x := hj'
    rw [Function.update_apply] at hj'
    split at hj'
    · exact hj'.elim
    · rename_i hne
      rw [ht, Function.update_of_ne hne]
      exact h.seen x j' hj'
  indexed S hS := by
    rw [hi]
    exact h.indexed S hS
  placing x hx := by cases hx
  drawing hdraw := by
    replace hdraw : g.drawing = true := hdraw
    rw [hd] at hdraw
    cases hdraw

/-- The notes stay true over a permitted operation. -/
theorem next (h : Recalls env places g s) (op : Op) (hop : g.Permits true op) :
    Recalls env places (g.next op (handle env op s).1) (handle env op s).2 := by
  cases op with
  | getJob id =>
    simp only [handle]
    split
    · exact h.congr rfl rfl rfl
    · split
      · exact h.congr rfl rfl rfl
      · rename_i j hj
        refine Recalls.congr (h.read ?_) rfl rfl rfl
        rw [Bucket.get_id hj]
        exact hj
  | listJobs =>
    simp only [handle]
    split
    · exact h.congr rfl rfl rfl
    · exact Recalls.congr (h.listed fun j hj => Bucket.mem_list.1 hj) rfl rfl rfl
  | putJob j =>
    simp only [handle, Server.write]
    split
    · exact h.congr rfl rfl rfl
    · exact h.wrote hop.1 (table_put s j) rfl
  | newID kind =>
    show Recalls env places (if kind = "job" then _ else g) _
    split
    · rename_i hk
      refine ⟨h.seen, h.indexed, fun x hx => ?_, fun hd => by cases hd⟩
      cases hx
      rw [hk]
      exact h.drawing (hop.1 hk)
    · rename_i hk
      exact ⟨h.seen, h.indexed, h.placing, fun hd => absurd (hop.2 hd) hk⟩
  | addDeps j =>
    refine { h with indexed := ?_ }
    intro S hS d x hx
    obtain ⟨S', hS', rfl⟩ := Option.map_eq_some_iff.1 hS
    rcases (RevIndex.waits_addDeps _ _ _ _).1 hx with hx | ⟨_, rfl⟩
    · exact Set.mem_insert_of_mem _ (h.indexed S' hS' d x hx)
    · exact Set.mem_insert _ _
  | removeFromIndex y =>
    refine { h with indexed := fun S hS d x hx => ?_ }
    exact h.indexed S hS d x ((RevIndex.waits_removeFromIndex _ _ _ _).1 hx).1
  | clearIndex =>
    refine { h with indexed := fun S _ d x hx => ?_ }
    exact absurd hx (RevIndex.not_waits_empty d x)
  | putDeadLetter j | putWorker w =>
    simp only [handle, Server.write]
    split <;> exact h.congr rfl rfl rfl
  | _ => exact h.congr rfl rfl rfl

/-- A write the notes account for. -/
theorem entry (h : Recalls env places g s) {j : Job} (ha : g.Accounts j) :
    Entry places (table s) (Function.update (table s) j.id (some j)) := by
  rcases ha with ⟨j₀, hj₀, hr, _⟩ | ⟨hp, ha, hs⟩
  · exact .revise (h.seen _ _ hj₀) hr
  · refine .place (h.placing _ hp) ha ?_
    rcases hs with hs | hs | ⟨hs, _⟩
    · exact .inl hs
    · exact .inr (.inl hs)
    · exact .inr (.inr hs)

theorem empty : Recalls env places {} s where
  seen _ _ h := h.elim
  indexed _ h := by cases h
  placing _ h := by cases h
  drawing h := by cases h

/-- An activity begins with true notes if the place of a submission is allowed. -/
theorem firstNotes {c : Call}
    (h : ∀ job, c = .submitJob (some job) → places (table s) (submitID env s.minted job)) :
    Recalls env places (firstNotes c) s := by
  cases c with
  | submitJob req =>
    cases req with
    | none => exact empty
    | some job =>
      have hplace := h job rfl
      have hnone : Recalls env places {} s := empty
      unfold submitID at hplace
      show Recalls env places (if job.id = "" then _ else _) s
      split
      · rename_i he
        rw [if_pos he] at hplace
        exact { hnone with drawing := fun _ => hplace }
      · rename_i he
        rw [if_neg he] at hplace
        refine { hnone with placing := fun x hx => ?_, drawing := hnone.drawing }
        cases hx
        exact hplace
  | _ => exact empty

end Recalls

/-- Alone, a handler that keeps to the protocol finds its notes true and writes only entries. -/
theorem honours_entries (env : Env) (places : Table → String → Prop) :
    Honours (handle env) (bookkeeping true) (Recalls env places) fun s s' => Entries places (table s) (table s') where
  refl _ := .refl
  trans _ _ _ h h' := h.trans h'
  step op g s h hop := by
    refine ⟨answers_handle op h.indexed, h.next op hop, ?_⟩
    by_cases hput : ∃ j, op = .putJob j
    · obtain ⟨j, rfl⟩ := hput
      simp only [handle, Server.write]
      split
      · exact .refl
      · refine .single ?_
        show Entry places (table s) (s.store.jobs.put j).get
        rw [table_put]
        exact h.entry hop.2
    · rw [table_handle fun j hj => hput ⟨j, hj⟩]

/-! ## Runs -/

/-- What the operations of a handler that runs alone do to the state, a step of the node does. -/
theorem step_keeping {ps : Cron} {A : Notes → Server → Prop} {R : Server → Server → Prop}
    (hh : Honours (handle env) (bookkeeping true) A R) (hempty : ∀ s, A {} s) (hfresh : ∀ s, R s s.fresh) {ev : Event}
    (hfirst : A (firstNotes ev.activity) s) (h : step env ps s ev = some s') : R s s' :=
  (step_honours hh hfresh hfirst (keeping_call env.cfg ps ev.activity)
    (fun _ node _ => ⟨{}, hempty _, keeping_boot ps node rfl⟩) h).2

theorem restart_entries {ps : Cron} (node : Cluster.Node) (s : Server) :
    Entries places (table s) (table (restart env ps node s)) :=
  (Meets.exec (honours_entries env places) (keeping_boot ps node rfl) (Recalls.empty (s := s.fresh))).2

theorem step_entries {ps : Cron} {ev : Event} (hev : ∀ job, ev.activity = .submitJob (some job) →
      places (table s) (submitID env s.minted job)) (h : step env ps s ev = some s') :
    Entries places (table s) (table s') :=
  step_keeping (honours_entries env places) (fun _ => .empty) (fun _ => .refl) (Recalls.firstNotes hev) h

/-- The stored jobs of a run change by entries only. -/
theorem runs_entries {ps : Cron} {ok : Server → Event → Prop} (hok : ∀ s ev, ok s ev →
      ∀ job, ev.activity = .submitJob (some job) → places (table s) (submitID env s.minted job)) {s₀ : Server}
    (h : Runs env ps ok s₀ s) : Entries places (table s₀) (table s) := by
  induction h with
  | refl => exact .refl
  | step _ hev hstep ih => exact ih.trans (step_entries (hok _ _ hev) hstep)

end Distsched.Lifecycle
