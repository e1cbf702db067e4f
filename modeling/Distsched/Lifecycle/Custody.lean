/-
What becomes of a waiting job in a poll, whatever store calls fail. The loop of `PollTask` takes a job from the ready queue
before it reads the record and stores it RUNNING. If that write fails, the job goes back to the queue under the key of its
record. If the read fails, it does not go back: the job stays QUEUED in the store, and nothing will dispatch it before the
next rebuild.
-/
import Distsched.Lifecycle.Order

namespace Distsched.Lifecycle

open Scheduler Prog

variable {env : Env} {x y : String} {j : Job} {it : Item} {s s' : Server} {out : List TaskAssignment}

/-! ## Custody -/

/-- A job that was QUEUED is in the queue as it was, or has been leased and listed. -/
inductive Kept (env : Env) (j : Job) (it : Item) (out : List TaskAssignment) (s : Server) : Prop
  | waiting (hj : s.store.jobs.get j.id = some j) (hq : it ∈ s.queue.items)
  | leased {j' : Job} {a : TaskAssignment} {l : Lease} (hj : s.store.jobs.get j.id = some j') (hs : j'.state = .running)
    (hq : ¬ s.queue.Holds j.id) (ha : a ∈ out) (hx : a.jobId = j.id) (hl : s.leases[a.taskId]? = some l)
    (hlx : l.jobID = j.id) (hid : ∀ n, s.minted ≤ n → a.taskId ≠ taskID env n)

/-- The job has been taken from the queue, and nothing else has happened to it. -/
structure Taken (j : Job) (s : Server) : Prop where
  stored : s.store.jobs.get j.id = some j
  off : ¬ s.queue.Holds j.id

/-- The job has been let go, or is kept. -/
def Custody (env : Env) (j : Job) (it : Item) (dropped : Prop) (out : List TaskAssignment) (s : Server) : Prop :=
  dropped ∧ Taken j s ∨ ¬ dropped ∧ Kept env j it out s

section Others

variable {dropped : Prop}

/-- Something else changes. -/
theorem Custody.congr (h : Custody env j it dropped out s) (hj : s'.store.jobs.get j.id = s.store.jobs.get j.id)
    (hq : s'.queue = s.queue) (hl : s'.leases = s.leases) (hm : s.minted ≤ s'.minted) :
    Custody env j it dropped out s' := by
  rcases h with ⟨hd, h⟩ | ⟨hd, h⟩
  · exact .inl ⟨hd, hj.trans h.stored, hq ▸ h.off⟩
  · refine .inr ⟨hd, ?_⟩
    cases h with
    | waiting hj₀ hq₀ => exact .waiting (hj.trans hj₀) (hq ▸ hq₀)
    | leased hj₀ hs hq₀ ha hx hl₀ hlx hid =>
      exact .leased (hj.trans hj₀) hs (hq ▸ hq₀) ha hx (hl ▸ hl₀) hlx fun n hn => hid n (hm.trans hn)

/-- Another job goes back to the queue. -/
theorem Custody.push (h : Custody env j it dropped out s) (hy : y ≠ j.id) (p c : Int) :
    Custody env j it dropped out (handle env (.push y p c) s).2 := by
  have hoff : ¬ s.queue.Holds j.id → ¬ (s.queue.push y p c).2.Holds j.id := by
    intro hq hholds
    exact ((PriorityQueue.holds_push s.queue y p c j.id).1 hholds).elim (fun he => hy he.symm) hq
  rcases h with ⟨hd, h⟩ | ⟨hd, h⟩
  · exact .inl ⟨hd, h.stored, hoff h.off⟩
  · refine .inr ⟨hd, ?_⟩
    cases h with
    | waiting hj hq => exact .waiting hj (PriorityQueue.mem_push_of_mem hq)
    | leased hj hs hq ha hx hl hlx hid => exact .leased hj hs (hoff hq) ha hx hl hlx hid

/-- Another job is leased under a task ID minted meanwhile. -/
theorem Custody.lease (h : Custody env j it dropped out s) (hj : s'.store.jobs.get j.id = s.store.jobs.get j.id)
    (hq : s'.queue = s.queue) (hl : s'.leases = s.leases) (hm : s.minted ≤ s'.minted) {l : Lease} {m : Nat}
    (hτ : l.taskID = taskID env m) (hnew : s.minted ≤ m) (a : TaskAssignment) :
    Custody env j it dropped (out ++ [a]) (handle env (.addLease l) s').2 := by
  rcases h with ⟨hd, h⟩ | ⟨hd, h⟩
  · exact .inl ⟨hd, hj.trans h.stored, hq ▸ h.off⟩
  · refine .inr ⟨hd, ?_⟩
    cases h with
    | waiting hj₀ hq₀ => exact .waiting (hj.trans hj₀) (hq ▸ hq₀)
    | @leased j' b l₀ hj₀ hs hq₀ ha hx hl₀ hlx hid =>
      refine .leased (hj.trans hj₀) hs (hq ▸ hq₀) (List.mem_append_left _ ha) hx ?_ hlx fun n hn => hid n (hm.trans hn)
      show (s'.leases.insert l.taskID l)[b.taskId]? = some l₀
      rw [Std.ExtTreeMap.getElem?_insert, if_neg fun he => hid m hnew ((compare_keys.1 he).symm.trans hτ), hl]
      exact hl₀

/-- What is popped is the job, which was waiting, or another one. -/
theorem Custody.pop (h : Custody env j it dropped out s) (hit : it.jobID = j.id) : Sat (handle env) Queue.pop s fun r s' =>
    Custody env j it dropped out s' ∧ r ≠ some j.id ∨ ¬ dropped ∧ r = some j.id ∧ Taken j s' := by
  show Custody env j it dropped out { s.ticked with queue := s.queue.pop.2 } ∧ s.queue.pop.1 ≠ some j.id ∨
    ¬ dropped ∧ s.queue.pop.1 = some j.id ∧ Taken j { s.ticked with queue := s.queue.pop.2 }
  cases hpop : s.queue.pop.1 with
  | none =>
    refine .inl ⟨?_, nofun⟩
    rw [(PriorityQueue.pop_none hpop).1]
    exact h.congr rfl rfl rfl (le_refl _)
  | some y =>
    have hholds : ∀ z, s.queue.pop.2.Holds z ↔ z ≠ y ∧ s.queue.Holds z := PriorityQueue.holds_pop hpop
    have hother : ¬ s.queue.Holds j.id → y ≠ j.id := fun hq he => hq (he ▸ PriorityQueue.holds_of_pop hpop)
    have hoff : ¬ s.queue.Holds j.id → ¬ s.queue.pop.2.Holds j.id := fun hq hx => hq ((hholds j.id).1 hx).2
    rcases h with ⟨hd, h⟩ | ⟨hd, h⟩
    · exact .inl ⟨.inl ⟨hd, h.stored, hoff h.off⟩, fun he => hother h.off (Option.some.inj he)⟩
    · cases h with
      | waiting hj hq =>
        by_cases hy : y = j.id
        · subst hy
          exact .inr ⟨hd, rfl, hj, fun hx => ((hholds j.id).1 hx).1 rfl⟩
        · obtain ⟨first, hfirst, hitems⟩ := PriorityQueue.pop_some hpop
          rw [hitems] at hq
          have hrest : it ∈ s.queue.pop.2.items := (List.mem_cons.1 hq).resolve_left fun he => hy ?_
          · exact .inl ⟨.inr ⟨hd, .waiting hj hrest⟩, fun he => hy (Option.some.inj he)⟩
          · rw [← hfirst, ← he, hit]
      | leased hj hs hq ha hx hl hlx hid =>
        exact .inl ⟨.inr ⟨hd, .leased hj hs (hoff hq) ha hx hl hlx hid⟩, fun he => hother hq (Option.some.inj he)⟩

end Others

/-! ## The loop -/

/-- A call that lets go of the job: a read of it that fails, or a write, if the job stood in the queue under another key than
that of its record. -/
inductive LetsGo (env : Env) (j : Job) (it : Item) : Op × Server → Prop
  | read {s : Server} (he : env.fails s.tick ≠ none) : LetsGo env j it (.getJob j.id, s)
  | write {j' : Job} {s : Server} (hid : j'.id = j.id) (he : env.fails s.tick ≠ none) (hkey : it ≠ entryOf j) :
    LetsGo env j it (.putJob j', s)

theorem not_letsGo {op : Op} (hg : ∀ y, op ≠ .getJob y) (hp : ∀ j', op ≠ .putJob j') (s : Server) :
    ¬ LetsGo env j it (op, s) := by
  intro h
  cases h with
  | read => exact hg _ rfl
  | write => exact hp _ rfl

theorem letsGo_putJob {j' : Job} :
    LetsGo env j it (.putJob j', s) ↔ j'.id = j.id ∧ env.fails s.tick ≠ none ∧ it ≠ entryOf j := by
  constructor
  · intro h
    cases h with
    | write hid he hkey => exact ⟨hid, he, hkey⟩
  · exact fun h => .write h.1 h.2.1 h.2.2

theorem letsGo_getJob : LetsGo env j it (.getJob y, s) ↔ y = j.id ∧ env.fails s.tick ≠ none := by
  constructor
  · intro h
    cases h with
    | read he => exact ⟨rfl, he⟩
  · rintro ⟨rfl, he⟩
    exact .read he

/-- How the loop ends: the job has been let go, and is QUEUED but not in the queue under its key; or it is kept. -/
def PollEnds (env : Env) (j : Job) (it : Item) (dropped : Prop) (out : List TaskAssignment) (s : Server) : Prop :=
  dropped ∧ s.store.jobs.get j.id = some j ∧ it ∉ s.queue.items ∨ ¬ dropped ∧ Kept env j it out s

theorem Custody.ends {dropped : Prop} (h : Custody env j it dropped out s) (hit : it.jobID = j.id) :
    PollEnds env j it dropped out s := by
  refine h.imp_left fun ⟨hd, ht⟩ => ⟨hd, ht.stored, fun hmem => ht.off ?_⟩
  exact hit ▸ List.mem_map_of_mem hmem

theorem watch_getJob {d : Prop} (y : String) (s : Server) :
    Watch (handle env) (LetsGo env j it) d (Db.getJob y) s fun r d' s' =>
      d' = (d ∨ LetsGo env j it (.getJob y, s)) ∧ Reads env s y r ∧ s' = s.ticked :=
  watch_perform ⟨rfl, getJob_reads y s⟩

/-- The job is leased and listed, under a task ID that is not minted again. -/
theorem Taken.lease (h : Taken j s) (hu : Function.Injective env.uuid) {j' : Job}
    (hj : s'.store.jobs.get j.id = some j') (hs : j'.state = .running) (hq : s'.queue = s.queue)
    (hm : s.minted < s'.minted) {l : Lease} {a : TaskAssignment} (hτ : l.taskID = taskID env s.minted)
    (hlx : l.jobID = j.id) (ha : (a.taskId, a.jobId) = (l.taskID, l.jobID)) :
    Kept env j it (out ++ [a]) (handle env (.addLease l) s').2 := by
  obtain ⟨haτ, hax⟩ := Prod.mk.inj ha
  refine .leased hj hs (hq ▸ h.off) List.mem_concat_self (hax.trans hlx) (l := l) ?_ hlx fun n hn he => ?_
  · show (s'.leases.insert l.taskID l)[a.taskId]? = some l
    rw [haτ, Std.ExtTreeMap.getElem?_insert_self]
  · have hn' : s.minted = n := taskID_injective hu (hτ.symm.trans (haτ.symm.trans he))
    exact Nat.lt_irrefl _ (hn' ▸ Nat.lt_of_lt_of_le hm hn)

/-- The job goes back to the queue under the key of its record. -/
theorem Taken.push (h : Taken j s) (hit : it.jobID = j.id) :
    PollEnds env j it (it ≠ entryOf j) out (handle env (.push j.id j.priority (asTime j.createdAt)) s).2 := by
  by_cases hkey : it = entryOf j
  · refine .inr ⟨not_not.2 hkey, .waiting h.stored ?_⟩
    rw [hkey]
    exact PriorityQueue.mem_push_self h.off
  · refine .inl ⟨hkey, h.stored, fun hmem => ?_⟩
    rcases PriorityQueue.mem_push hmem with he | hmem
    · exact hkey he
    · exact h.off (hit ▸ List.mem_map_of_mem hmem)

section Loop

variable {d : Prop}

/-- An operation that neither reads nor writes a job. -/
theorem watch_act {op : Op} {Q : op.Resp → Prop → Server → Prop} (hg : ∀ y, op ≠ .getJob y) (hp : ∀ j', op ≠ .putJob j')
    (hq : Q (handle env op s).1 d (handle env op s).2) : Watch (handle env) (LetsGo env j it) d (act op) s Q :=
  watch_unseen (not_letsGo hg hp s) hq

theorem watch_newID (s : Server) : Watch (handle env) (LetsGo env j it) d (newID "task") s fun τ d' s' =>
    d' = d ∧ τ = taskID env s.minted ∧ s' = { s.ticked with minted := s.minted + 1 } :=
  watch_act (fun _ h => Op.noConfusion h) (fun _ h => Op.noConfusion h) ⟨rfl, rfl, rfl⟩

theorem watch_write (j' : Job) (s : Server) : Watch (handle env) (LetsGo env j it) d (putJob j') s fun r d' s' =>
    d' = (d ∨ LetsGo env j it (.putJob j', s)) ∧ Scheduler.Writes env j' s r s' :=
  watch_putJob (not_letsGo (fun _ h => Op.noConfusion h) fun _ h => Op.noConfusion h)
    (fun _ => not_letsGo (fun _ h => Op.noConfusion h) fun _ h => Op.noConfusion h) j' s

/-- The loop lets go of the job exactly if one of its calls does. -/
theorem custody_pollLoop (hu : Function.Injective env.uuid) (hs : j.state = .queued) (hit : it.jobID = j.id) (cfg : Config)
    (w : String) (now : Int) (n : Nat) : ∀ (fuel : Nat) (out : List TaskAssignment) (s : Server) (d : Prop),
      Custody env j it d out s →
        Watch (handle env) (LetsGo env j it) d (pollLoop cfg w now n fuel out) s fun out' d' s' => PollEnds env j it d' out' s'
  | 0, _, _, _, h => watch_pure (h.ends hit)
  | fuel + 1, out, s, d, h => by
    have hagain := custody_pollLoop hu hs hit cfg w now n fuel
    unfold pollLoop
    split
    · have hpop : Watch (handle env) (LetsGo env j it) d Queue.pop s fun r d' s' => d' = d ∧
          (Custody env j it d out s' ∧ r ≠ some j.id ∨ ¬ d ∧ r = some j.id ∧ Taken j s') :=
        watch_act (fun _ h => Op.noConfusion h) (fun _ h => Op.noConfusion h) ⟨rfl, h.pop hit⟩
      refine hpop.bind ?_
      rintro popped d s₁ ⟨rfl, h₁⟩
      rcases h₁ with ⟨h₁, hne⟩ | ⟨hd, rfl, h₁⟩
      · -- nothing is popped, or another job
        cases popped with
        | none => exact watch_pure (h₁.ends hit)
        | some y =>
          have hy : y ≠ j.id := fun he => hne (congrArg some he)
          refine (watch_getJob y s₁).bind ?_
          rintro r _ _ ⟨rfl, hr, rfl⟩
          rw [or_iff_left fun h => hy (letsGo_getJob.1 h).1]
          have h₂ : Custody env j it d out s₁.ticked := h₁.congr rfl rfl rfl (le_refl _)
          cases hr with
          | failed | missing => exact hagain out _ _ h₂
          | @found job _ hj =>
            have hid : job.id = y := Bucket.get_id hj
            have hother : (dispatched job w now).id ≠ j.id := fun he => hy (hid.symm.trans he)
            dsimp only
            split
            · exact hagain out _ _ h₂
            · refine (watch_newID _).bind ?_
              rintro _ d _ ⟨rfl, rfl, rfl⟩
              refine (watch_write _ _).bind ?_
              rintro r _ s₄ ⟨rfl, h₄⟩
              rw [or_iff_left fun h => hother (letsGo_putJob.1 h).1]
              cases h₄ with
              | failed =>
                have h₃ : Custody env j it d out { s₁.ticked.ticked.ticked with minted := s₁.minted + 1 } :=
                  h₂.congr rfl rfl rfl (Nat.le_succ _)
                refine (watch_act (Q := fun _ d' s' => d' = d ∧ Custody env j it d out s') (fun _ h => Op.noConfusion h)
                  (fun _ h => Op.noConfusion h) ⟨rfl, h₃.push hy _ _⟩).bind ?_
                rintro _ d s₅ ⟨rfl, h₅⟩
                exact watch_pure (h₅.ends hit)
              | stored _ hs₄ =>
                refine (watch_act (Q := fun _ d' s' => d' = d ∧ ∀ a, Custody env j it d (out ++ [a]) s')
                  (fun _ h => Op.noConfusion h) (fun _ h => Op.noConfusion h)
                  ⟨rfl, h₂.lease ?_ ?_ ?_ ?_ rfl (le_refl _)⟩).bind ?_
                · rw [hs₄]
                  show ((s₁.store.jobs.put _).get j.id) = s₁.store.jobs.get j.id
                  rw [Bucket.get_put, if_neg]
                  exact fun he => hother he.symm
                · rw [hs₄]; rfl
                · rw [hs₄]; rfl
                · rw [hs₄]; exact Nat.le_succ _
                rintro _ d s₅ ⟨rfl, h₅⟩
                exact hagain _ s₅ _ (h₅ _)
      · -- the job itself, which is read as it was stored
        refine (watch_getJob j.id s₁).bind ?_
        rintro r _ _ ⟨rfl, hr, rfl⟩
        have h₂ : Taken j s₁.ticked := ⟨h₁.stored, h₁.off⟩
        cases hr with
        | failed he => exact hagain out _ _ (.inl ⟨.inr (.read (he ▸ Option.some_ne_none _)), h₂⟩)
        | missing _ hnone => cases hnone.symm.trans h₁.stored
        | found he hfound =>
          cases hfound.symm.trans h₁.stored
          rw [or_iff_left fun h => (letsGo_getJob.1 h).2 he]
          dsimp only
          rw [if_neg (not_not.2 hs)]
          refine (watch_newID _).bind ?_
          rintro _ d _ ⟨rfl, rfl, rfl⟩
          refine (watch_write _ _).bind ?_
          rintro r _ s₄ ⟨rfl, h₄⟩
          cases h₄ with
          | failed he =>
            -- it goes back under the key of its record
            have hkey : (d ∨ LetsGo env j it (.putJob (dispatched j w now), _)) = (it ≠ entryOf j) :=
              propext ⟨fun h => h.elim (absurd · hd) fun h => (letsGo_putJob.1 h).2.2, fun h =>
                .inr (.write rfl (he ▸ Option.some_ne_none _) h)⟩
            have h₃ : Taken j { s₁.ticked.ticked.ticked with minted := s₁.minted + 1 } := ⟨h₂.stored, h₂.off⟩
            rw [hkey]
            refine (watch_act (Q := fun _ d' s' => d' = (it ≠ entryOf j) ∧ PollEnds env j it (it ≠ entryOf j) out s')
              (fun _ h => Op.noConfusion h) (fun _ h => Op.noConfusion h) ⟨rfl, h₃.push hit⟩).bind ?_
            rintro _ _ s₅ ⟨rfl, h₅⟩
            exact watch_pure h₅
          | stored he hs₄ =>
            rw [or_iff_left fun h => (letsGo_putJob.1 h).2.1 he]
            have hlease : ∀ a : TaskAssignment, (a.taskId, a.jobId) = (taskID env s₁.minted, j.id) →
                Kept env j it (out ++ [a]) (handle env (.addLease ⟨taskID env s₁.minted, j.id, w,
                  (dispatched j w now).attempt, now + cfg.leaseTTL⟩) s₄).2 := by
              intro a ha
              refine Taken.lease h₂ hu (?_ : _ = some (dispatched j w now)) rfl ?_ ?_ rfl rfl ha
              · rw [hs₄]
                exact (Bucket.get_put _ _ _).trans (if_pos rfl)
              · rw [hs₄]; rfl
              · rw [hs₄]; exact Nat.lt_succ_self _
            refine (watch_act (Q := fun _ d' s' => d' = d ∧ ∀ a : TaskAssignment,
              (a.taskId, a.jobId) = (taskID env s₁.minted, j.id) → Kept env j it (out ++ [a]) s')
              (fun _ h => Op.noConfusion h) (fun _ h => Op.noConfusion h) ⟨rfl, hlease⟩).bind ?_
            rintro _ d s₅ ⟨rfl, h₅⟩
            exact hagain _ s₅ _ (.inr ⟨hd, h₅ _ rfl⟩)
    · exact watch_pure (h.ends hit)

end Loop

theorem custody_pollTask (hu : Function.Injective env.uuid) (hs : j.state = .queued) (hit : it.jobID = j.id) (cfg : Config)
    (w : String) (maxTasks : Int) (hj : s.store.jobs.get j.id = some j) (hq : it ∈ s.queue.items) :
    Watch (handle env) (LetsGo env j it) False (pollTask cfg w maxTasks) s fun r d s' =>
      PollEnds env j it d (r.toOption.getD []) s' := by
  have hwaits : ∀ t, Custody env j it False [] { s with tick := t } := fun t => .inr ⟨id, .waiting hj hq⟩
  have huses : Uses (fun op => ∀ s, ¬ LetsGo env j it (op, s)) (requireLeader cfg) :=
    uses_requireLeader cfg (not_letsGo (fun _ h => Op.noConfusion h) fun _ h => Op.noConfusion h)
      (not_letsGo (fun _ h => Op.noConfusion h) fun _ h => Op.noConfusion h)
  have hnext : ∀ (op : Op) (t : Nat), (∀ y, op ≠ .getJob y) → (∀ j', op ≠ .putJob j') →
      (handle env op { s with tick := t }).2 = { s with tick := t + 1 } →
      Watch (handle env) (LetsGo env j it) False (act op) { s with tick := t } fun _ d s' =>
        d = False ∧ s' = { s with tick := t + 1 } := fun _ _ hg hp h => watch_act hg hp ⟨rfl, h⟩
  refine ((requireLeader_frame cfg s).watch fun e he => huses.trace e he e.2).bind ?_
  rintro denied _ _ ⟨rfl, t, rfl⟩
  cases denied with
  | some e => exact watch_pure ((hwaits t).ends hit)
  | none =>
    refine (hnext (.getCached w) t (fun _ h => Op.noConfusion h) (fun _ h => Op.noConfusion h) rfl).bind ?_
    rintro known _ _ ⟨rfl, rfl⟩
    cases known with
    | none => exact watch_pure ((hwaits _).ends hit)
    | some _ =>
      refine (hnext .now (t + 1) (fun _ h => Op.noConfusion h) (fun _ h => Op.noConfusion h) rfl).bind ?_
      rintro now _ _ ⟨rfl, rfl⟩
      refine (hnext .queueBound (t + 2) (fun _ h => Op.noConfusion h) (fun _ h => Op.noConfusion h) rfl).bind ?_
      rintro bound _ _ ⟨rfl, rfl⟩
      refine (custody_pollLoop hu hs hit cfg w now.ns _ _ [] _ _ (hwaits _)).bind ?_
      exact fun out d s' h => watch_pure h

/-- A poll of a state in which a job waits: afterwards it is leased and listed, or still waits under the same key, exactly if
no read of it fails in the poll, and no write of it either if its entry in the queue is not under the key of its record. -/
theorem poll_loses_no_job (hu : Function.Injective env.uuid) (cfg : Config) (w : String) (maxTasks : Int) (s : Server)
    (hj : s.store.jobs.get j.id = some j) (hs : j.state = .queued) (hq : it ∈ s.queue.items) (hit : it.jobID = j.id) :
    let r := exec (handle env) (pollTask cfg w maxTasks) s
    ((∃ out a j' l, r.1 = .ok out ∧ a ∈ out ∧ a.jobId = j.id ∧ r.2.store.jobs.get j.id = some j' ∧ j'.state = .running ∧
      r.2.leases[a.taskId]? = some l ∧ l.jobID = j.id) ∨
    (∃ j', r.2.store.jobs.get j.id = some j' ∧ j'.state = .queued) ∧ it ∈ r.2.queue.items) ↔
      ∀ e ∈ trace (handle env) (pollTask cfg w maxTasks) s, ¬ LetsGo env j it e := by
  have hends := custody_pollTask hu hs hit cfg w maxTasks hj hq
  intro r
  unfold Watch at hends
  rw [false_or] at hends
  change PollEnds env j it _ (r.1.toOption.getD []) r.2 at hends
  rcases hends with ⟨⟨e, he, hgo⟩, hstored, hoff⟩ | ⟨hnone, hkept⟩
  · refine iff_of_false ?_ fun hno => hno e he hgo
    rintro (⟨_, _, j', _, -, -, -, hj', hrun, -⟩ | ⟨-, hq⟩)
    · cases hstored.symm.trans hj'
      cases hs.symm.trans hrun
    · exact hoff hq
  · refine iff_of_true ?_ fun e he hgo => hnone ⟨e, he, hgo⟩
    cases hkept with
    | waiting hj hq => exact .inr ⟨⟨j, hj, hs⟩, hq⟩
    | @leased j' a l hj' hs' _ ha hx hl hlx _ =>
      cases hr : r.1 with
      | error e =>
        rw [hr] at ha
        cases ha
      | ok out =>
        rw [hr] at ha
        exact .inl ⟨out, a, j', l, rfl, ha, hx, hj', hs', hl, hlx⟩

/-- A worker registers and a job is submitted, once for each of the given priorities. -/
def awaiting (priorities : List Int) : Server :=
  served (.registerWorker (some { id := "w" }) :: priorities.map fun p =>
    .submitJob (some { id := "a", spec := some { command := "true" }, priority := p }))

/-- A poll in such a state, with a store of which one operation fails. -/
def pollOf (priorities : List Int) (failing : Nat) : Except Status (List TaskAssignment) × Server :=
  exec (handle (.failing (· = failing))) (pollTask .defaults "w" 1) (awaiting priorities)

def readsJob : Op → Bool
  | .getJob _ => true
  | _ => false

/-- The write of the RUNNING record fails, and the job waits again. If the read fails, it is let go. -/
theorem poll_loses_no_job_unwritten : ∃ j, (awaiting [1]).store.jobs.get "a" = some j ∧
    (∃ j', (pollOf [1] 32).2.store.jobs.get "a" = some j' ∧ j'.state = .queued) ∧
    entryOf j ∈ (pollOf [1] 32).2.queue.items ∧
    ∃ e ∈ trace (handle (.failing (· = 30))) (pollTask .defaults "w" 1) (awaiting [1]),
      LetsGo (.failing (· = 30)) j (entryOf j) e := by
  have hfirst : ((awaiting [1]).store.jobs.get "a").map (fun j =>
      (j.id, j.state, decide (entryOf j ∈ (awaiting [1]).queue.items))) = some ("a", .queued, true) := by decide +kernel
  have hreads : (trace (handle (.failing (· = 32))) (pollTask .defaults "w" 1) (awaiting [1])).all (fun e =>
      !readsJob e.1 || decide (e.2.tick ≠ 32)) = true := by decide +kernel
  have hnone : (pollOf [1] 32).1.toOption = some [] ∧ (pollOf [1] 30).1.toOption = some [] ∧
      (pollOf [1] 30).2.queue.items = [] := by decide +kernel
  obtain ⟨j, hj, hfirst⟩ := Option.map_eq_some_iff.1 hfirst
  obtain ⟨hid, hs, hq⟩ : j.id = "a" ∧ j.state = .queued ∧ entryOf j ∈ (awaiting [1]).queue.items := by
    simpa only [Prod.mk.injEq, decide_eq_true_eq] using hfirst
  have hlisted : ∀ {r : Except Status (List TaskAssignment)} {out : List TaskAssignment} {a : TaskAssignment},
      r.toOption = some [] → r = .ok out → a ∉ out := by
    rintro _ out a hr rfl ha
    cases hr
    cases ha
  have hwrite := @poll_loses_no_job (.failing (· = 32)) j (entryOf j) steady_sound.distinct .defaults "w" 1 (awaiting [1])
    (hid ▸ hj) hs hq rfl
  have hread := @poll_loses_no_job (.failing (· = 30)) j (entryOf j) steady_sound.distinct .defaults "w" 1 (awaiting [1])
    (hid ▸ hj) hs hq rfl
  rw [hid] at hwrite hread
  refine ⟨j, hj, ?_⟩
  rw [← and_assoc]
  constructor
  · refine (hwrite.2 fun e he hgo => ?_).resolve_left ?_
    · cases hgo with
      | read hfail => exact hfail (if_neg (by simpa [readsJob] using List.all_eq_true.1 hreads _ he))
      | write _ _ hkey => exact hkey rfl
    · rintro ⟨out, a, j', l, hout, ha, -⟩
      exact hlisted hnone.1 hout ha
  · by_contra hno
    rcases hread.2 fun e he hgo => hno ⟨e, he, hgo⟩ with ⟨out, a, j', l, hout, ha, -⟩ | ⟨-, hq'⟩
    · exact hlisted hnone.2.1 hout ha
    · rw [show (exec _ _ (awaiting [1])).2.queue.items = [] from hnone.2.2] at hq'
      cases hq'

/-- The read of the record fails, and the job is left QUEUED and in nobody's hands. If it was submitted again with another
priority, a write that fails changes its place in the queue. -/
theorem poll_drops_job :
    (awaiting [1]).queue.items.map (fun i => (i.jobID, i.priority)) = [("a", 1)] ∧
    (pollOf [1] 30).1.toOption = some [] ∧ (pollOf [1] 30).2.queue.items = [] ∧
      ((pollOf [1] 30).2.store.jobs.get "a").map Job.state = some .queued ∧
    (awaiting [1, 2]).queue.items.map (fun i => (i.jobID, i.priority)) = [("a", 1)] ∧
      (pollOf [1, 2] 41).2.queue.items.map (fun i => (i.jobID, i.priority)) = [("a", 2)] := by
  decide +kernel

end Distsched.Lifecycle
