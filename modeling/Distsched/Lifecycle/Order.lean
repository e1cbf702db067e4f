/-
The order in which jobs are handed out. The ready queue is sorted by the priority and the creation time a job had when
it was pushed, while the store holds the job itself. A record keeps what its submission fixed, so as long as no ID is
submitted again the entry of a queued job is the one its stored record would get now, and the queue is in the order of
the stored records. A poll works off the queue from the front, drops the entries whose job is not QUEUED any more, and
stops once it has enough.
-/
import Distsched.Lifecycle.Budget
import Distsched.Lifecycle.Turn
import Distsched.Scheduler.Conduct
import Distsched.Scheduler.Polls

namespace Distsched.Lifecycle

open Scheduler Prog

variable {env : Env} {ps : Cron} {s s' : Server} {w : String}

/-! ## Queue entries and stored records -/

/-- The entry under which a record is queued. -/
def entryOf (j : Job) : Item := ⟨j.id, j.priority, asTime j.createdAt⟩

theorem entryOf_of_plan {j j' : Job} (h : plan j' = plan j) : entryOf j' = entryOf j := by
  have hkey : entryOf (plan j') = entryOf (plan j) := by rw [h]
  exact hkey

/-- The job of an entry is stored, with a record that would be queued under that entry. -/
def Filed (T : Table) (it : Item) : Prop := ∃ j, T it.jobID = some j ∧ entryOf j = it

theorem Filed.of_stored {T : Table} {j : Job} (h : T j.id = some j) : Filed T (entryOf j) := ⟨j, h, rfl⟩

/-- Records keep their entries when no ID is submitted again. -/
theorem Filed.entry {T T' : Table} {it : Item} (h : Filed T it) (he : Entry (fun T x => Vacant (T x)) T T') :
    Filed T' it := by
  obtain ⟨j, hj, hit⟩ := h
  cases he with
  | @revise j₀ j' h₀ hr =>
    by_cases hx : it.jobID = j'.id
    · rw [hx, h₀] at hj
      cases hj
      refine ⟨j', ?_, (entryOf_of_plan hr.plan_eq).trans hit⟩
      rw [hx, Function.update_self]
    · exact ⟨j, by rw [Function.update_of_ne hx]; exact hj, hit⟩
  | @place j' hp =>
    have hx : it.jobID ≠ j'.id := by
      intro hx
      replace hp : T j'.id = none := hp
      rw [← hx, hj] at hp
      cases hp
    exact ⟨j, by rw [Function.update_of_ne hx]; exact hj, hit⟩

theorem Filed.entries {T T' : Table} {it : Item} (h : Filed T it) (he : Entries (fun T x => Vacant (T x)) T T') :
    Filed T' it := by
  induction he with
  | refl => exact h
  | tail _ hw ih => exact ih.entry hw

/-- Every entry of the ready queue is the one of the record stored. -/
def InStep (s : Server) : Prop := ∀ it ∈ s.queue.items, Filed (table s) it

/-- What a handler has read, and what is queued, agrees with the store. -/
structure Abreast (env : Env) (g : Notes × Trail) (s : Server) : Prop where
  recalls : Recalls env (fun T x => Vacant (T x)) g.1 s
  seen : ∀ j ∈ g.2.seen, Filed (table s) (entryOf j)
  inStep : InStep s

namespace Abreast

variable {g : Notes × Trail}

theorem empty (h : InStep s) : Abreast env ({}, {}) s := ⟨.empty, fun _ hj => hj.elim, h⟩

/-- A permitted operation, by what it does to the store, to the queue and to what has been read. -/
theorem step {op : Op} (h : Abreast env g s) (hop : ((bookkeeping true).both (conduct ps)).permits op g) :
    Abreast env (((bookkeeping true).both (conduct ps)).next op (handle env op s).1 g) (handle env op s).2 := by
  obtain ⟨hans, hrec, hent⟩ := (honours_entries env _).step op g.1 s h.recalls hop.1
  have hqueue : ∀ it ∈ (handle env op s).2.queue.items, it ∈ s.queue.items ∨ ∃ j ∈ g.2.seen, it = entryOf j := by
    intro it hit
    by_cases hoff : OffQueue op
    · rw [queue_handle op s hoff] at hit
      exact .inl hit
    · cases op with
      | push x p c =>
        obtain ⟨j, hj, rfl, rfl, rfl⟩ := hop.2
        rcases PriorityQueue.mem_push hit with rfl | hit
        · exact .inr ⟨j, hj, rfl⟩
        · exact .inl hit
      | pop => exact .inl (PriorityQueue.mem_pop hit)
      | remove x => exact .inl (PriorityQueue.mem_remove hit)
      | clearQueue => cases hit
      | _ => exact absurd trivial hoff
  have hseen : ∀ j ∈ (g.2.next op (handle env op s).1).seen, j ∈ g.2.seen ∨ table s j.id = some j := by
    intro j hj
    cases op with
    | getJob id =>
      cases hr : (handle env (.getJob id) s).1 with
      | error e =>
        rw [hr] at hj
        exact .inl hj
      | ok j' =>
        rw [hr] at hj
        rcases hj with rfl | hj
        · obtain ⟨hget, rfl⟩ := (sat_getJob id s).2 j hr
          exact .inr hget
        · exact .inl hj
    | listJobs =>
      cases hr : (handle env .listJobs s).1 with
      | error e =>
        rw [hr] at hj
        exact .inl hj
      | ok js =>
        rw [hr] at hj
        rcases hj with hj | hj
        · exact .inl hj
        · refine .inr (Bucket.mem_list.1 ?_)
          simp only [handle] at hr
          split at hr
          · cases hr
          · cases hr
            exact hj
    | putJob j' => cases hr : (handle env (.putJob j') s).1 <;> rw [hr] at hj <;> exact .inl hj
    | putDeadLetter j' => cases hr : (handle env (.putDeadLetter j') s).1 <;> rw [hr] at hj <;> exact .inl hj
    | _ => exact .inl hj
  refine ⟨hrec, fun j hj => ?_, fun it hit => ?_⟩
  · rcases hseen j hj with hj | hj
    · exact (h.seen j hj).entries hent
    · exact (Filed.of_stored hj).entries hent
  · rcases hqueue it hit with hit | ⟨j, hj, rfl⟩
    · exact (h.inStep it hit).entries hent
    · exact (h.seen j hj).entries hent

end Abreast

theorem honours_abreast (env : Env) (ps : Cron) : Honours (handle env) ((bookkeeping true).both (conduct ps))
    (Abreast env) fun _ _ => True where
  refl _ := trivial
  trans _ _ _ _ _ := trivial
  step op _ s h hop := ⟨⟨answers_handle op h.recalls.indexed, conduct_answers op s⟩, h.step hop, trivial⟩

theorem inStep_fresh (s : Server) : InStep s.fresh := fun _ h => absurd h List.not_mem_nil

theorem meets_boot (ps : Cron) (node : Cluster.Node) :
    Meets ((bookkeeping true).both (conduct ps)) (boot ps node) ({}, {}) fun _ _ => True :=
  ((keeping_boot ps node rfl).both (clean_boot node {})).mono fun _ _ _ => trivial

/-- The queue stays in step with the store over a run in which no ID is submitted again. -/
theorem inStep_of_runs {store : Store} {node : Cluster.Node}
    (h : Runs env ps (SubmitsWhere Vacant env) (started env ps store node) s) : InStep s := by
  induction h with
  | refl =>
    obtain ⟨⟨g, hg, -⟩, -⟩ :=
      (meets_boot ps node).exec (honours_abreast env ps) (Abreast.empty (inStep_fresh (.off store 0 0)))
    exact hg.inStep
  | @step s₁ s₂ ev _ hok hstep ih =>
    have hg : Abreast env (firstNotes ev.activity, {}) s₁ := ⟨Recalls.firstNotes hok, fun _ hj => hj.elim, ih⟩
    have hcall : Meets ((bookkeeping true).both (conduct ps)) (ev.activity.prog env.cfg ps)
        (firstNotes ev.activity, {}) fun _ _ => True :=
      ((keeping_call env.cfg ps ev.activity).both (clean_call env.cfg ev.activity {})).mono fun _ _ _ => trivial
    obtain ⟨⟨g, hg⟩, -⟩ := step_honours (honours_abreast env ps) (fun _ => trivial) hg hcall
      (fun s node _ => ⟨({}, {}), .empty (inStep_fresh s), meets_boot ps node⟩) hstep
    exact hg.inStep

/-! ## What a poll takes -/

/-- The queued jobs that are QUEUED in the store, in the order of the queue. -/
def readyJobs (T : Table) (items : List Item) : List Job :=
  items.filterMap fun it => (T it.jobID).filter fun j => j.state = .queued

theorem readyJobs_cons_of_queued {T : Table} {it : Item} {items : List Item} {j : Job} (hj : T it.jobID = some j)
    (hs : j.state = .queued) : readyJobs T (it :: items) = j :: readyJobs T items := by
  rw [readyJobs, List.filterMap_cons_some]
  · rfl
  · rw [hj]
    exact if_pos (decide_eq_true hs)

theorem readyJobs_cons_of_stale {T : Table} {it : Item} {items : List Item}
    (h : ∀ j, T it.jobID = some j → j.state ≠ .queued) : readyJobs T (it :: items) = readyJobs T items := by
  rw [readyJobs, List.filterMap_cons_none]
  · rfl
  · cases hj : T it.jobID with
    | none => rfl
    | some j => exact if_neg (fun hd => h j hj (of_decide_eq_true hd))

/-- A write to a job that is not queued does not matter. -/
theorem readyJobs_update {T : Table} {items : List Item} {x : String} {o : Option Job}
    (hx : x ∉ items.map Item.jobID) : readyJobs (Function.update T x o) items = readyJobs T items := by
  refine List.filterMap_congr fun it hit => ?_
  rw [Function.update_of_ne]
  rintro rfl
  exact hx (List.mem_map_of_mem hit)

theorem mem_readyJobs {s : Server} {j : Job} : j ∈ readyJobs (table s) s.queue.items ↔
    table s j.id = some j ∧ j.state = .queued ∧ s.queue.Holds j.id := by
  simp only [readyJobs, List.mem_filterMap, Option.filter_eq_some_iff, decide_eq_true_eq]
  constructor
  · rintro ⟨it, hit, hj, hs⟩
    have hid : j.id = it.jobID := Bucket.get_id hj
    rw [hid]
    exact ⟨hj, hs, List.mem_map_of_mem hit⟩
  · rintro ⟨hj, hs, hq⟩
    obtain ⟨it, hit, hid⟩ := List.mem_map.1 hq
    exact ⟨it, hit, hid ▸ hj, hs⟩

/-- The queue is in the order of the stored records. -/
theorem InStep.sorted (h : InStep s) :
    (readyJobs (table s) s.queue.items).Pairwise fun a b => (entryOf a).Less (entryOf b) := by
  refine List.Pairwise.filterMap _ ?_ (List.Pairwise.and_mem.1 s.queue.sorted)
  rintro it it' ⟨hit, hit', hless⟩ j hj j' hj'
  have hentry : ∀ it ∈ s.queue.items, ∀ j, (table s it.jobID).filter (fun j => j.state = .queued) = some j →
      entryOf j = it := by
    intro it hit j hj
    obtain ⟨j₀, hj₀, he⟩ := h it hit
    rw [hj₀] at hj
    cases (Option.filter_eq_some_iff.1 hj).1
    exact he
  rw [hentry it hit j hj, hentry it' hit' j' hj']
  exact hless

/-- A poll has taken the first `k` ready jobs, and nothing else. -/
structure Takes (env : Env) (w : String) (k : Nat) (s s' : Server) (as : List TaskAssignment) : Prop where
  jobs : as.map TaskAssignment.jobId = ((readyJobs (table s) s.queue.items).take k).map Job.id
  left : ∀ j ∈ (readyJobs (table s) s.queue.items).drop k, s'.queue.Holds j.id
  leased : ∀ a ∈ as, s'.leases[a.taskId]? = some ⟨a.taskId, a.jobId, w, a.attempt, a.leaseDeadline⟩
  drawn : ∀ a ∈ as, ∃ m, s.minted ≤ m ∧ a.taskId = taskID env m
  kept : ∀ τ, (∀ a ∈ as, a.taskId ≠ τ) → s'.leases[τ]? = s.leases[τ]?

namespace Takes

variable {s₁ : Server} {as : List TaskAssignment} {k : Nat}

theorem none (hq : ∀ j ∈ readyJobs (table s) s.queue.items, s'.queue.Holds j.id) (hl : s'.leases = s.leases) :
    Takes env w 0 s s' [] where
  jobs := by simp
  left j hj := hq j (by simpa using hj)
  leased _ h := absurd h List.not_mem_nil
  drawn _ h := absurd h List.not_mem_nil
  kept _ _ := by rw [hl]

/-- Nothing is ready. -/
theorem of_nil (h : readyJobs (table s) s.queue.items = []) (hl : s'.leases = s.leases) : Takes env w k s s' [] where
  jobs := by simp [h]
  left := by simp [h]
  leased _ h := absurd h List.not_mem_nil
  drawn _ h := absurd h List.not_mem_nil
  kept _ _ := by rw [hl]

/-- An entry was dropped whose job is not ready. -/
theorem skip (h : Takes env w k s₁ s' as)
    (hr : readyJobs (table s) s.queue.items = readyJobs (table s₁) s₁.queue.items) (hl : s₁.leases = s.leases)
    (hm : s₁.minted = s.minted) : Takes env w k s s' as where
  jobs := hr ▸ h.jobs
  left := hr ▸ h.left
  leased := h.leased
  drawn := hm ▸ h.drawn
  kept τ hτ := (h.kept τ hτ).trans (by rw [hl])

/-- A job was handed out before the others, under a new task ID. -/
theorem cons (he : Sound env) (h : Takes env w k s₁ s' as) {j : Job} {a : TaskAssignment}
    (hr : readyJobs (table s) s.queue.items = j :: readyJobs (table s₁) s₁.queue.items) (hid : a.jobId = j.id)
    (hτ : a.taskId = taskID env s.minted) (hm : s₁.minted = s.minted + 1)
    (hl : s₁.leases = s.leases.insert a.taskId ⟨a.taskId, a.jobId, w, a.attempt, a.leaseDeadline⟩) :
    Takes env w (k + 1) s s' (a :: as) where
  jobs := by rw [hr, List.take_succ_cons, List.map_cons, List.map_cons, h.jobs, hid]
  left j' hj' := by
    rw [hr, List.drop_succ_cons] at hj'
    exact h.left j' hj'
  leased a' ha' := by
    rcases List.mem_cons.1 ha' with rfl | ha'
    · -- the task IDs drawn later are others
      rw [h.kept, hl, Std.ExtTreeMap.getElem?_insert_self]
      intro a'' ha'' heq
      obtain ⟨m, hle, hm'⟩ := h.drawn a'' ha''
      have := taskID_injective he.distinct (hm'.symm.trans (heq.trans hτ))
      omega
    · exact h.leased a' ha'
  drawn a' ha' := by
    rcases List.mem_cons.1 ha' with rfl | ha'
    · exact ⟨s.minted, Nat.le_refl _, hτ⟩
    · obtain ⟨m, hle, hm'⟩ := h.drawn a' ha'
      exact ⟨m, by omega, hm'⟩
  kept τ hne := by
    rw [h.kept τ fun a' ha' => hne a' (List.mem_cons_of_mem _ ha'), hl, Std.ExtTreeMap.getElem?_insert]
    exact if_neg fun hc => hne a (List.mem_cons_self ..) (compare_keys.1 hc)

end Takes

/-- Reading, while the store works. -/
theorem sat_getJob_frame (hr : env.Reliable) (id : String) (s : Server) : Sat (handle env) (Db.getJob id) s fun r s' =>
    ((∃ e, r = .error e) ∧ table s id = none ∨ ∃ j, r = .ok j ∧ table s id = some j ∧ j.id = id) ∧ table s' = table s ∧
      s'.queue = s.queue ∧ s'.leases = s.leases ∧ s'.minted = s.minted := by
  refine (getJob_reliable hr id s).mono ?_
  rintro r _ ⟨hr, rfl⟩
  refine ⟨?_, rfl, rfl, rfl, rfl⟩
  cases hj : s.store.jobs.get id with
  | none =>
    rw [hj] at hr
    exact .inl ⟨⟨_, hr⟩, hj⟩
  | some j =>
    rw [hj] at hr
    exact .inr ⟨j, hr, hj, Bucket.get_id hj⟩

/-- What a write leaves alone while the store works. -/
theorem sat_putJob_frame (hr : env.Reliable) (j : Job) (s : Server) : Sat (handle env) (putJob j) s fun r s' =>
    r = .ok () ∧ table s' = Function.update (table s) j.id (some j) ∧ s'.queue = s.queue ∧ s'.leases = s.leases ∧
      s'.minted = s.minted := by
  refine (putJob_reliable hr j s).mono ?_
  rintro r s' ⟨hok, hs'⟩
  rw [hs']
  exact ⟨hok, table_put s j, rfl, rfl, rfl⟩

/-- The loop of a poll that has handed out `out` so far. -/
theorem takes_pollLoop (he : Sound env) (cfg : Config) (w : String) (now : Int) (n : Nat) :
    ∀ (fuel : Nat) (out : List TaskAssignment) (s : Server), s.queue.items.length < fuel →
      Sat (handle env) (pollLoop cfg w now n fuel out) s fun out' s' =>
        ∃ as, out' = out ++ as ∧ Takes env w (n - out.length) s s' as
  | 0, _, _, h => absurd h (Nat.not_lt_zero _)
  | fuel + 1, out, s, hfuel => by
    unfold pollLoop
    split
    · rename_i hn
      obtain ⟨k, hk⟩ : ∃ k, n - out.length = k + 1 := ⟨n - out.length - 1, by omega⟩
      refine Sat.bind (Q := fun r s₁ => r = s.queue.pop.1 ∧ s₁.queue = s.queue.pop.2 ∧ table s₁ = table s ∧
        s₁.leases = s.leases ∧ s₁.minted = s.minted) ⟨rfl, rfl, rfl, rfl, rfl⟩ ?_
      rintro popped s₁ ⟨hpop, hq₁, ht₁, hl₁, hm₁⟩
      cases popped with
      | none =>
        refine ⟨[], (List.append_nil out).symm, .of_nil ?_ hl₁⟩
        rw [(PriorityQueue.pop_none hpop.symm).2]
        rfl
      | some x =>
        obtain ⟨it, rfl, hitems⟩ := PriorityQueue.pop_some hpop.symm
        have hfuel₁ : s₁.queue.items.length < fuel := by
          rw [hitems, List.length_cons] at hfuel
          rw [hq₁]
          omega
        refine (sat_getJob_frame he.reliable it.jobID s₁).bind ?_
        rintro r s₂ ⟨hr, ht₂, hq₂, hl₂, hm₂⟩
        rw [ht₁] at hr ht₂
        rw [hl₁] at hl₂
        rw [hm₁] at hm₂
        have hskip : (∀ j, table s it.jobID = some j → j.state ≠ .queued) →
            Sat (handle env) (pollLoop cfg w now n fuel out) s₂ fun out' s' =>
              ∃ as, out' = out ++ as ∧ Takes env w (n - out.length) s s' as := by
          intro hstale
          refine (takes_pollLoop he cfg w now n fuel out s₂ (hq₂ ▸ hfuel₁)).mono ?_
          rintro out' s' ⟨as, hout, has⟩
          refine ⟨as, hout, has.skip ?_ hl₂ hm₂⟩
          rw [hitems, readyJobs_cons_of_stale hstale, ht₂, hq₂, hq₁]
        rcases hr with ⟨⟨e, rfl⟩, hnone⟩ | ⟨j, rfl, hj, hid⟩
        · exact hskip fun j hj => by rw [hnone] at hj; cases hj
        · dsimp only
          split
          · rename_i hs
            refine hskip fun j' hj' => ?_
            rw [hj] at hj'
            cases hj'
            exact hs
          · rename_i hs
            have hs : j.state = .queued := not_not.1 hs
            refine Sat.bind (Q := fun r s₃ => r = taskID env s.minted ∧ s₃.queue = s₂.queue ∧ table s₃ = table s ∧
              s₃.leases = s.leases ∧ s₃.minted = s.minted + 1) ⟨?_, rfl, ht₂, hl₂, ?_⟩ ?_
            · show "task" ++ "-" ++ env.uuid s₂.minted = _
              rw [hm₂]
              rfl
            · show s₂.minted + 1 = _
              rw [hm₂]
            · rintro τ s₃ ⟨rfl, hq₃, ht₃, hl₃, hm₃⟩
              refine (sat_putJob_frame he.reliable _ s₃).bind ?_
              rintro r s₄ ⟨rfl, ht₄, hq₄, hl₄, hm₄⟩
              refine Sat.bind (Q := fun _ s₅ => s₅.queue = s₄.queue ∧ table s₅ = table s₄ ∧ s₅.minted = s₄.minted ∧
                s₅.leases = s₄.leases.insert (taskID env s.minted) _) ⟨rfl, rfl, rfl, rfl⟩ ?_
              rintro _ s₅ ⟨hq₅, ht₅, hm₅, hl₅⟩
              rw [hq₄, hq₃, hq₂] at hq₅
              have hready : readyJobs (table s) s.queue.items = j :: readyJobs (table s₅) s₅.queue.items := by
                have hnodup := s.queue.nodup
                rw [hitems, List.map_cons, List.nodup_cons] at hnodup
                rw [hitems, readyJobs_cons_of_queued hj hs, ht₅, ht₄, ht₃, hq₅, hq₁, readyJobs_update]
                show j.id ∉ _
                rw [hid]
                exact hnodup.1
              refine (takes_pollLoop he cfg w now n fuel _ s₅ (hq₅ ▸ hfuel₁)).mono ?_
              rintro out' s' ⟨as, rfl, has⟩
              refine ⟨_ :: as, by rw [List.append_assoc]; rfl, ?_⟩
              rw [hk]
              rw [List.length_append, List.length_singleton, show n - (out.length + 1) = k by omega] at has
              refine has.cons he hready hid.symm rfl ?_ ?_
              · rw [hm₅, hm₄, hm₃]
              · rw [hl₅, hl₄, hl₃]
    · rename_i hn
      have : n - out.length = 0 := by omega
      rw [this]
      exact ⟨[], (List.append_nil out).symm, .none (fun j hj => (mem_readyJobs.1 hj).2.2) rfl⟩

theorem batchSize_eq (m : Int) : batchSize m = (min (max m 1) 64).toNat := by
  unfold batchSize maxBatch
  split <;> omega

/-- A poll of a known worker at a node that leads. -/
theorem takes_pollTask (he : Sound env) (cfg : Config) {worker : WorkerInfo} (hlead : s.node.isLeader = true)
    (hw : s.workers[w]? = some worker) (m : Int) : Sat (handle env) (pollTask cfg w m) s fun r s' =>
      ∃ as, r = .ok as ∧ Takes env w (min (max m 1) 64).toNat s s' as := by
  refine (requireLeader_leading cfg hlead).bind ?_
  rintro _ _ ⟨rfl, rfl⟩
  refine Sat.bind (Q := fun r s₂ => r = some worker ∧ s₂ = s.ticked.ticked) ⟨hw, rfl⟩ ?_
  rintro _ _ ⟨rfl, rfl⟩
  refine Sat.bind (Q := fun _ s₃ => s₃ = s.ticked.ticked.ticked) rfl ?_
  rintro now _ rfl
  refine Sat.bind (Q := fun r s₄ => s.queue.items.length ≤ r ∧ s₄ = s.ticked.ticked.ticked.ticked)
    ⟨Nat.le_add_right _ _, rfl⟩ ?_
  rintro bound _ ⟨hbound, rfl⟩
  refine (takes_pollLoop he cfg w now.ns (batchSize m) (bound + 1) [] s.ticked.ticked.ticked.ticked
    (Nat.lt_succ_of_le hbound)).bind ?_
  rintro out s' ⟨as, hout, has⟩
  obtain rfl : out = as := hout
  rw [List.length_nil, Nat.sub_zero, batchSize_eq] at has
  exact ⟨out, rfl, has.skip rfl rfl rfl⟩

/-- What a poll hands out is stored RUNNING. -/
theorem Hands.running {T T' : Table} {as : List TaskAssignment} (h : Hands T as T') :
    ∀ a ∈ as, ∃ j, T' a.jobId = some j ∧ j.state = .running := by
  induction h with
  | nil => exact fun _ ha => absurd ha List.not_mem_nil
  | @cons T T' j a as w now hj hs hid ha hrest ih =>
    intro a' ha'
    rcases List.mem_cons.1 ha' with rfl | ha'
    · refine ⟨dispatched j w now, ?_, rfl⟩
      rw [hrest.other, hid, Function.update_self]
      intro a'' ha'' he
      -- a job handed out later was QUEUED then
      obtain ⟨j', hj', hs', -⟩ := (hrest.handed.1 a'' ha'').before
      rw [he, hid, Function.update_self] at hj'
      cases hj'
      cases hs'
    · exact ih a' ha'

/-! ## Runs -/

/-- In every state of a run in which no ID is submitted again, a poll of a known worker hands out the first jobs, as many
as one poll may, of those that are ready: by priority, then by age, then by ID, as the store has them. They are stored
RUNNING and leased to the worker; no other lease is made, and the other ready jobs stay as they are. -/
theorem dispatch_order {node : Cluster.Node} (he : Sound env) (hn : node.isLeader = true)
    (h : Runs env ps (SubmitsWhere Vacant env) (started env ps .empty node) s) {worker : WorkerInfo}
    (hw : s.workers[w]? = some worker) (m : Int) :
    ∃ as s', exec (handle env) (pollTask env.cfg w m) s = (.ok as, s') ∧ ∃ ready : List Job,
      ready.Pairwise (fun a b => (entryOf a).Less (entryOf b)) ∧
      (∀ j, j ∈ ready ↔ s.store.jobs.get j.id = some j ∧ j.state = .queued ∧ s.queue.Holds j.id) ∧
      as.map TaskAssignment.jobId = (ready.take (min (max m 1) 64).toNat).map Job.id ∧
      (∀ a ∈ as, (∃ j, s'.store.jobs.get a.jobId = some j ∧ j.state = .running) ∧
        s'.leases[a.taskId]? = some ⟨a.taskId, a.jobId, w, a.attempt, a.leaseDeadline⟩) ∧
      (∀ τ l, s'.leases[τ]? = some l → s.leases[τ]? = some l ∨ ∃ a ∈ as, a.taskId = τ) ∧
      ∀ j ∈ ready.drop (min (max m 1) 64).toNat, s'.store.jobs.get j.id = some j ∧ s'.queue.Holds j.id := by
  obtain ⟨hs, -⟩ := Runs.board (I := fun _ => True) he hn (fun _ _ => trivial) (fun _ _ _ _ _ _ => trivial) h
  have hin := inStep_of_runs h
  obtain ⟨as, hres, htakes⟩ := takes_pollTask he env.cfg hs.leads hw m
  have hands := hands_pollTask env.cfg w m s as hres
  refine ⟨as, _, Prod.ext hres rfl, readyJobs (table s) s.queue.items, hin.sorted, fun j => mem_readyJobs, htakes.jobs,
    fun a ha => ⟨hands.running a ha, htakes.leased a ha⟩, fun τ l hl => ?_, fun j hj => ⟨?_, htakes.left j hj⟩⟩
  · by_cases hτ : ∃ a ∈ as, a.taskId = τ
    · exact .inr hτ
    · rw [htakes.kept τ fun a ha he => hτ ⟨a, ha, he⟩] at hl
      exact .inl hl
  · -- the jobs taken come before `j` in the order, so `j` is none of them
    obtain ⟨hstored, -⟩ := mem_readyJobs.1 (List.mem_of_mem_drop hj)
    refine (hands.other fun a ha he => ?_).trans hstored
    have hmem : a.jobId ∈ as.map TaskAssignment.jobId := List.mem_map_of_mem ha
    rw [htakes.jobs] at hmem
    obtain ⟨j', hj', hid⟩ := List.mem_map.1 hmem
    obtain ⟨hstored', -⟩ := mem_readyJobs.1 (List.mem_of_mem_take hj')
    rw [hid, he, hstored] at hstored'
    cases hstored'
    have hsorted := hin.sorted
    rw [← List.take_append_drop (min (max m 1) 64).toNat (readyJobs _ _), List.pairwise_append] at hsorted
    exact Item.not_less_self _ (hsorted.2.2 j hj' j hj)

/-- A worker registers and three jobs are submitted, the second of them with a higher priority. -/
def threeReady : Server :=
  served [.registerWorker (some { id := "w" }), submitting "a" [],
    .submitJob (some { id := "b", spec := some { command := "true" }, priority := 5 }), submitting "c" []]

theorem dispatch_order_three : ∃ as s', exec (handle .steady) (pollTask Env.steady.cfg "w" 2) threeReady = (.ok as, s') ∧
    as.map TaskAssignment.jobId = ["b", "a"] ∧ s'.queue.Holds "c" ∧
    ∀ a ∈ as, ∃ j, s'.store.jobs.get a.jobId = some j ∧ j.state = .running := by
  have hrun : Runs .steady noCron (SubmitsWhere Vacant .steady) (started .steady noCron .empty leading) threeReady := by
    refine (((Runs.refl.call ?_ rfl).call ?_ rfl).call ?_ rfl).call ?_ rfl
    · rintro job ⟨⟩
    all_goals
      rintro job ⟨⟩
      show _ = none
      decide +kernel
  have hw : threeReady.workers["w"]?.isSome = true := by decide +kernel
  have hids : ((exec (handle .steady) (pollTask Env.steady.cfg "w" 2) threeReady).1.toOption.map fun as =>
      as.map TaskAssignment.jobId) = some ["b", "a"] := by decide +kernel
  have hleft : (threeReady.store.jobs.get "c").map (fun j => (j.id, j.state)) = some ("c", .queued) ∧
      threeReady.queue.Holds "c" := by decide +kernel
  obtain ⟨worker, hw⟩ := Option.isSome_iff_exists.1 hw
  obtain ⟨as, s', hexec, ready, -, hready, htake, hrunning, -, hdrop⟩ :=
    dispatch_order steady_sound rfl hrun hw 2
  rw [hexec] at hids
  have hids : as.map TaskAssignment.jobId = ["b", "a"] := Option.some.inj hids
  refine ⟨as, s', hexec, hids, ?_, fun a ha => (hrunning a ha).1⟩
  -- the third job is ready and is not one of the two taken
  obtain ⟨j, hj, hstate⟩ := Option.map_eq_some_iff.1 hleft.1
  obtain ⟨hid, hs⟩ := Prod.mk.inj hstate
  have hmem : j ∈ ready := (hready j).2 ⟨by rw [hid, hj], hs, by rw [hid]; exact hleft.2⟩
  rw [← List.take_append_drop (min (max 2 1) 64 : Int).toNat ready] at hmem
  rcases List.mem_append.1 hmem with hmem | hmem
  · have htaken := List.mem_map_of_mem (f := Job.id) hmem
    rw [← htake, hids, hid] at htaken
    exact absurd htaken (by decide)
  · rw [← hid]
    exact (hdrop j hmem).2

end Distsched.Lifecycle
