/-
What a sweep leaves of the leases. Those past their deadline go, whatever came before. Those of a worker without heartbeats
go when the sweep declares the worker DEAD, which it does only if the cache has it in another state. So after a sweep no
lease belongs to a worker that has timed out, provided that no lease belonged to a DEAD one before it; and that holds in
every run in which no DEAD worker polls. `PollTask` does not look at the state of the worker, so it can be broken.
-/
import Distsched.Scheduler.Reclaim

namespace Distsched.Scheduler

open Prog

variable {env : Env} {cfg : Config} {ps : Cron} {s s' s'' : Server} {op : Op}

/-! ## Leases and their workers -/

/-- Every worker is cached under its ID. -/
def Keyed (s : Server) : Prop := ∀ (id : String) (w : WorkerInfo), s.workers[id]? = some w → w.id = id

/-- Moreover, every lease belongs to a cached worker that is not DEAD. -/
structure Tended (s : Server) : Prop where
  keyed : Keyed s
  held : ∀ (τ : String) (l : Lease), s.leases[τ]? = some l → ∃ w, s.workers[l.workerID]? = some w ∧ w.state ≠ .dead

/-- No lease is new, and the workers are the same. -/
structure Fewer (s s' : Server) : Prop where
  leases : ∀ (τ : String) (l : Lease), s'.leases[τ]? = some l → s.leases[τ]? = some l
  workers : s'.workers = s.workers

theorem Fewer.refl (s : Server) : Fewer s s := ⟨fun _ _ h => h, rfl⟩

theorem Fewer.ticked (s : Server) : Fewer s s.ticked := ⟨fun _ _ h => h, rfl⟩

theorem Fewer.trans (h : Fewer s s') (h' : Fewer s' s'') : Fewer s s'' :=
  ⟨fun τ l hl => h.leases τ l (h'.leases τ l hl), h'.workers.trans h.workers⟩

theorem Tended.fewer (h : Tended s) (hf : Fewer s s') : Tended s' where
  keyed id w hw := h.keyed id w (hf.workers ▸ hw)
  held τ l hl := hf.workers ▸ h.held τ l (hf.leases τ l hl)

/-- Only a grant adds a lease. -/
theorem leases_handle (hop : ∀ l, op ≠ .addLease l) {τ : String} {l : Lease}
    (hl : (handle env op s).2.leases[τ]? = some l) : s.leases[τ]? = some l := by
  cases op with
  | addLease l => exact absurd rfl (hop l)
  | removeLease τ' =>
    have hl : (s.leases.erase τ')[τ]? = some l := hl
    rw [Std.ExtTreeMap.getElem?_erase] at hl
    split at hl
    · cases hl
    · exact hl
  | clearDispatch =>
    have hl : (∅ : Std.ExtTreeMap String Lease)[τ]? = some l := hl
    rw [Std.ExtTreeMap.getElem?_empty] at hl
    cases hl
  | putJob | putDeadLetter | putWorker =>
    simp only [handle, Server.write] at hl
    split at hl <;> exact hl
  | _ => exact hl

theorem workers_handle (hop : ∀ w, op ≠ .cacheWorker w) : (handle env op s).2.workers = s.workers := by
  cases op with
  | cacheWorker w => exact absurd rfl (hop w)
  | putJob | putDeadLetter | putWorker =>
    simp only [handle, Server.write]
    split <;> rfl
  | _ => rfl

theorem fewer_handle (hl : ∀ l, op ≠ .addLease l) (hw : ∀ w, op ≠ .cacheWorker w) (s : Server) :
    Fewer s (handle env op s).2 := ⟨fun _ _ => leases_handle hl, workers_handle hw⟩

theorem workers_cache (w : WorkerInfo) (s : Server) (id : String) :
    (handle env (.cacheWorker w) s).2.workers[id]? = if id = w.id then some w else s.workers[id]? := by
  show (s.workers.insert w.id w)[id]? = _
  rw [Std.ExtTreeMap.getElem?_insert]
  exact if_congr (compare_keys.trans eq_comm) rfl rfl

theorem Keyed.handle (op : Op) (h : Keyed s) : Keyed (handle env op s).2 := by
  intro id v hv
  by_cases hw : ∃ w, op = .cacheWorker w
  · obtain ⟨w, rfl⟩ := hw
    rw [workers_cache] at hv
    split at hv
    · rename_i hid
      cases hv
      exact hid.symm
    · exact h id v hv
  · rw [workers_handle fun w he => hw ⟨w, he⟩] at hv
    exact h id v hv

/-- The operations of the activities other than polls and sweeps. -/
def Tends : Op → Prop
  | .addLease _ => False
  | .cacheWorker w => w.state ≠ .dead
  | _ => True

theorem Tended.tends (hop : Tends op) (h : Tended s) : Tended (handle env op s).2 := by
  have hgrant : ∀ l, op ≠ .addLease l := by
    rintro l rfl
    exact hop
  refine ⟨h.keyed.handle op, fun τ l hl => ?_⟩
  obtain ⟨v, hv, hlive⟩ := h.held τ l (leases_handle hgrant hl)
  by_cases hw : ∃ w, op = .cacheWorker w
  · obtain ⟨w, rfl⟩ := hw
    rw [workers_cache]
    split
    · exact ⟨w, rfl, hop⟩
    · exact ⟨v, hv, hlive⟩
  · rw [workers_handle fun w he => hw ⟨w, he⟩]
    exact ⟨v, hv, hlive⟩

theorem Tended.run {α : Type} {p : M α} (hp : Uses Tends p) (h : Tended s) : Sat (handle env) p s fun _ => Tended :=
  Uses.keeps (I := Tended) (fun _ _ => Tended.tends) hp h

/-! ## Requests -/

theorem tends_of_moves (h : Moves op) : Tends op := by
  cases op <;> first | exact h.elim | trivial

theorem tends_call (cfg : Config) (ps : Cron) {c : Call} (hp : ∀ w n, c ≠ .pollTask w n) (hr : c ≠ .reaper) :
    Uses Tends (c.prog cfg ps) := by
  have hm : ∀ op, Moves op → Tends op := fun _ => tends_of_moves
  have halive : ∀ w : WorkerInfo, w.state = .alive → Tends (.cacheWorker w) := by
    intro w hw
    show w.state ≠ .dead
    rw [hw]
    exact WorkerState.noConfusion
  cases c with
  | submitJob job => exact Uses.bind (uses_submitJob hm cfg ps trivial job) fun _ => Uses.pure _
  | cancelJob x => exact Uses.bind (uses_cancelJob hm cfg trivial x) fun _ => Uses.pure _
  | pollTask w n => exact absurd rfl (hp w n)
  | reportTask τ result error =>
    exact Uses.bind (uses_reportTask hm cfg ps trivial (fun _ => trivial) (fun _ _ => trivial) τ result error) fun _ =>
      Uses.pure _
  | registerWorker w =>
    exact Uses.bind (uses_registerWorker hm cfg trivial (fun _ _ => trivial) halive w) fun _ => Uses.pure _
  | heartbeat w n =>
    have hbeat := uses_heartbeat cfg trivial trivial (fun _ => trivial) trivial (fun _ => trivial) (fun _ _ => trivial) halive w n
    exact Uses.bind hbeat fun _ => Uses.pure _
  | timer x => exact uses_timerFired hm (fun _ => trivial) x
  | reaper => exact absurd rfl hr
  | becomeLeader => exact uses_onBecomeLeader hm ps trivial trivial trivial fun _ _ => trivial

/-! ## Polls -/

/-- The operations of a poll by a known worker. -/
def Serves (w : String) : Op → Prop
  | .addLease l => l.workerID = w
  | .cacheWorker _ => False
  | _ => True

/-- The worker is cached and not DEAD. -/
def InTouch (w : String) (s : Server) : Prop := ∃ i, s.workers[w]? = some i ∧ i.state ≠ .dead

theorem serves_of_moves {w : String} (h : Moves op) : Serves w op := by
  cases op <;> first | exact h.elim | trivial

theorem serves_handle {w : String} (hop : Serves w op) (h : Tended s ∧ InTouch w s) :
    Tended (handle env op s).2 ∧ InTouch w (handle env op s).2 := by
  obtain ⟨ht, ha⟩ := h
  by_cases hl : ∃ l, op = .addLease l
  · obtain ⟨l, rfl⟩ := hl
    refine ⟨⟨ht.keyed, fun τ l' hl' => ?_⟩, ha⟩
    have hl' : (s.leases.insert l.taskID l)[τ]? = some l' := hl'
    rw [Std.ExtTreeMap.getElem?_insert] at hl'
    split at hl'
    · cases hl'
      exact (show l.workerID = w from hop) ▸ ha
    · exact ht.held τ l' hl'
  · have hf : Fewer s (handle env op s).2 := by
      refine fewer_handle (fun l he => hl ⟨l, he⟩) (fun v he => ?_) s
      subst he
      exact hop
    obtain ⟨i, hi, hlive⟩ := ha
    exact ⟨ht.fewer hf, i, hf.workers ▸ hi, hlive⟩

/-- A poll grants leases to the worker that polls, if it is known at all. -/
theorem tended_pollTask (h : Tended s) {w : String} (hw : ∀ i, s.workers[w]? = some i → i.state ≠ .dead) (n : Int) :
    Sat (handle env) (pollTask cfg w n) s fun _ => Tended := by
  have hticks : ∀ t, Tended { s with tick := t } := fun _ => ⟨h.keyed, h.held⟩
  refine (requireLeader_frame cfg s).bind ?_
  rintro denied _ ⟨t, rfl⟩
  cases denied with
  | some e => exact hticks t
  | none =>
    refine Sat.bind (Q := fun r s' => r = s.workers[w]? ∧ s' = { s with tick := t + 1 }) ⟨rfl, rfl⟩ ?_
    rintro _ _ ⟨rfl, rfl⟩
    cases hi : s.workers[w]? with
    | none => exact hticks _
    | some i =>
      have hstart : Tended { s with tick := t + 1 } ∧ InTouch w { s with tick := t + 1 } := ⟨hticks _, i, hi, hw i hi⟩
      refine (Uses.keeps (I := fun s => Tended s ∧ InTouch w s) (fun _ _ => serves_handle) ?_ hstart).mono fun _ _ h => h.1
      refine Uses.bind (Uses.perform trivial) fun now => Uses.bind (Uses.perform trivial) fun bound => ?_
      refine Uses.bind (uses_pollLoop (fun _ => serves_of_moves) cfg w now.ns _ trivial (fun _ _ => trivial) ?_ _ [])
        fun _ => Uses.pure _
      exact fun _ hl => hl

/-! ## Sweeps -/

theorem fewer_of_moves (hop : Moves op) (s : Server) : Fewer s (handle env op s).2 := by
  refine fewer_handle (fun l he => ?_) (fun w he => ?_) s <;> (subst he; exact hop)

/-- A requeue takes away its lease and nothing else. -/
theorem fewer_requeueLease (τ reason : String) (s : Server) : Sat (handle env) (requeueLease ps τ reason) s fun _ s' =>
    Fewer s s' ∧ s'.leases[τ]? = none := by
  have hget : Sat (handle env) (getLease τ) s fun r s₁ => r = s.leases[τ]? ∧ s₁ = s.ticked := ⟨rfl, rfl⟩
  refine hget.bind ?_
  rintro _ _ ⟨rfl, rfl⟩
  cases hl : s.leases[τ]? with
  | none => exact ⟨.ticked s, hl⟩
  | some l =>
    have hdrop : Sat (handle env) (removeLease τ) s.ticked fun _ s₂ => Fewer s s₂ ∧ s₂.leases[τ]? = none := by
      have hf : Fewer s.ticked (handle env (.removeLease τ) s.ticked).2 := by
        refine fewer_handle ?_ ?_ _ <;> exact nofun
      exact ⟨(Fewer.ticked s).trans hf, Std.ExtTreeMap.getElem?_erase_self⟩
    refine hdrop.bind fun _ s₂ h₂ => ?_
    refine Uses.keeps (I := fun s' => Fewer s s' ∧ s'.leases[τ]? = none) (fun op s₃ hop h₃ => ?_)
      (moves_requeued ps l.jobID reason) h₂
    exact ⟨h₃.1.trans (fewer_of_moves hop s₃), (leases_of_moves hop).symm ▸ h₃.2⟩

theorem fewer_requeueLeases (τs : List String) (reason : String) (s : Server) :
    Sat (handle env) (τs.forM fun τ => requeueLease ps τ reason) s fun _ s' =>
      Fewer s s' ∧ ∀ τ ∈ τs, s'.leases[τ]? = none := by
  refine sat_forM Fewer.refl (fun _ _ _ => Fewer.trans) (fun τ s₁ s₂ hf hnone => ?_) fun τ _ s₁ =>
    fewer_requeueLease τ reason s₁
  cases hl : s₂.leases[τ]? with
  | none => rfl
  | some l => exact absurd (hnone.symm.trans (hf.leases τ l hl)) nofun

/-- The worker holds no lease. -/
def Holdless (id : String) (s : Server) : Prop := ∀ (τ : String) (l : Lease), s.leases[τ]? = some l → l.workerID ≠ id

theorem fewer_requeueLeasesForWorker (id reason : String) (s : Server) :
    Sat (handle env) (requeueLeasesForWorker ps id reason) s fun _ s' => Fewer s s' ∧ Holdless id s' := by
  have hlist : Sat (handle env) (act .listLeases) s fun ls s₁ => ls = env.range s.tick s.leases ∧ s₁ = s.ticked := ⟨rfl, rfl⟩
  refine hlist.bind ?_
  rintro _ _ ⟨rfl, rfl⟩
  refine (fewer_requeueLeases _ reason s.ticked).mono ?_
  rintro _ s' ⟨hf, hgone⟩
  refine ⟨(Fewer.ticked s).trans hf, fun τ l hl hid => ?_⟩
  -- the lease was listed
  have hmem : (τ, l) ∈ (env.range s.tick s.leases).filter fun p => p.2.workerID = id :=
    List.mem_filter.2 ⟨(mem_range ..).2 (hf.leases τ l hl), decide_eq_true hid⟩
  cases (hgone τ (List.mem_map_of_mem hmem)).symm.trans hl

/-- What the first loop of a sweep makes of the workers. -/
structure Marked (cfg : Config) (now : Int) (s s' : Server) : Prop where
  leases : s'.leases = s.leases
  known : ∀ (id : String) (w' : WorkerInfo), s'.workers[id]? = some w' → ∃ w, s.workers[id]? = some w
  marks : ∀ (id : String) (w : WorkerInfo), s.workers[id]? = some w → ∃ w', s'.workers[id]? = some w' ∧ w'.id = w.id ∧
    w'.lastHeartbeat = w.lastHeartbeat ∧ (w'.state = .dead → w.state = .dead ∨ liveness cfg now w = .dead)

theorem Marked.refl (cfg : Config) (now : Int) (hl : s'.leases = s.leases) (hw : s'.workers = s.workers) :
    Marked cfg now s s' :=
  ⟨hl, fun _ w' hw' => ⟨w', hw ▸ hw'⟩, fun _ w hw' => ⟨w, hw ▸ hw', rfl, rfl, .inl⟩⟩

theorem mem_downgraded {now : Int} {cached : List (String × WorkerInfo)} {p : String × WorkerInfo} :
    p ∈ downgraded cfg now cached ↔ ∃ w, (p.1, w) ∈ cached ∧ liveness cfg now w ≠ .alive ∧ w.state ≠ liveness cfg now w ∧
      p.2 = { w with state := liveness cfg now w } := by
  unfold downgraded
  rw [List.mem_map]
  constructor
  · rintro ⟨⟨id, w⟩, hmem, rfl⟩
    obtain ⟨hc, hcond⟩ := List.mem_filter.1 hmem
    obtain ⟨ha, hs⟩ := of_decide_eq_true hcond
    exact ⟨w, hc, ha, hs, rfl⟩
  · rintro ⟨w, hc, ha, hs, hp⟩
    refine ⟨(p.1, w), List.mem_filter.2 ⟨hc, decide_eq_true ⟨ha, hs⟩⟩, ?_⟩
    exact Prod.ext rfl hp.symm

/-- One round of the first loop. -/
theorem Marked.put {now : Int} {cached : List (String × WorkerInfo)} (h : Keyed s)
    (hc : ∀ id w, (id, w) ∈ cached → s.workers[id]? = some w) {p : String × WorkerInfo}
    (hp : p ∈ downgraded cfg now cached) (hm : Marked cfg now s s') :
    Sat (handle env) (putWorker p.2) s' fun _ s'' => Marked cfg now s s'' := by
  obtain ⟨w, hw, -, -, hpw⟩ := mem_downgraded.1 hp
  have hw : s.workers[p.1]? = some w := hc p.1 w hw
  have hid : p.2.id = p.1 := by
    rw [hpw]
    exact h p.1 w hw
  refine (putWorker_frame p.2 s').mono ?_
  rintro _ s'' ⟨hl, -, hsame | hput⟩
  · exact ⟨hl.trans hm.leases, fun id w' hw' => hm.known id w' (hsame ▸ hw'), fun id v hv => hsame ▸ hm.marks id v hv⟩
  · have hget : ∀ id : String, s''.workers[id]? = if id = p.1 then some p.2 else s'.workers[id]? := by
      intro id
      rw [hput, hid, Std.ExtTreeMap.getElem?_insert]
      exact if_congr (compare_keys.trans eq_comm) rfl rfl
    refine ⟨hl.trans hm.leases, fun id w' hw' => ?_, fun id v hv => ?_⟩
    · rw [hget] at hw'
      split at hw'
      · rename_i he
        exact ⟨w, he ▸ hw⟩
      · exact hm.known id w' hw'
    · rw [hget]
      split
      · rename_i he
        subst he
        cases hw.symm.trans hv
        exact ⟨p.2, rfl, by rw [hpw], by rw [hpw], fun hd => .inr (by rw [hpw] at hd; exact hd)⟩
      · exact hm.marks id v hv

/-- No lease is past its deadline. -/
def Unexpired (now : Int) (s : Server) : Prop := ∀ (τ : String) (l : Lease), s.leases[τ]? = some l → now ≤ l.deadline

/-- Every lease belongs to a worker that has been heard of within the timeout. -/
def Heard (cfg : Config) (now : Int) (s : Server) : Prop := ∀ (τ : String) (l : Lease), s.leases[τ]? = some l →
  ∃ w, s.workers[l.workerID]? = some w ∧ now - asTime w.lastHeartbeat ≤ cfg.heartbeatTimeout

/-- The worker of every lease that is left has been heard of. -/
theorem heard_of_marked {now : Int} {cached : List (String × WorkerInfo)} (h : Tended s)
    (hc : ∀ id w, s.workers[id]? = some w → (id, w) ∈ cached) (hm : Marked cfg now s s') (hf : Fewer s' s'')
    (hdead : ∀ id ∈ ((downgraded cfg now cached).filter fun p => p.2.state = .dead).map Prod.fst, Holdless id s'') :
    Tended s'' ∧ Heard cfg now s'' := by
  have hlive : ∀ (τ : String) (l : Lease), s''.leases[τ]? = some l →
      ∃ w', s''.workers[l.workerID]? = some w' ∧ w'.state ≠ .dead ∧ now - asTime w'.lastHeartbeat ≤ cfg.heartbeatTimeout := by
    intro τ l hl
    obtain ⟨w, hw, hs⟩ := h.held τ l (hm.leases ▸ hf.leases τ l hl)
    -- a worker that has timed out was not DEAD before, so it is marked and its leases are requeued
    have hheard : liveness cfg now w ≠ .dead := by
      intro hd
      have hmem : (l.workerID, { w with state := .dead }) ∈ downgraded cfg now cached :=
        mem_downgraded.2 ⟨w, hc _ w hw, by rw [hd]; exact nofun, by rw [hd]; exact hs, by rw [hd]⟩
      exact hdead _ (List.mem_map.2 ⟨_, List.mem_filter.2 ⟨hmem, decide_eq_true rfl⟩, rfl⟩) τ l hl rfl
    obtain ⟨w', hw', -, hbeat, hmark⟩ := hm.marks _ w hw
    refine ⟨w', hf.workers ▸ hw', fun hd => ?_, hbeat ▸ (liveness_ne_dead cfg).1 hheard⟩
    exact (hmark hd).elim hs hheard
  refine ⟨⟨fun id w' hw' => ?_, fun τ l hl => ?_⟩, fun τ l hl => ?_⟩
  · have hw' := hf.workers ▸ hw'
    obtain ⟨w, hw⟩ := hm.known id w' hw'
    obtain ⟨w'', hw'', hid, -⟩ := hm.marks id w hw
    cases hw'.symm.trans hw''
    exact hid.trans (h.keyed id w hw)
  · obtain ⟨w', hw', hs, -⟩ := hlive τ l hl
    exact ⟨w', hw', hs⟩
  · obtain ⟨w', hw', -, hbeat⟩ := hlive τ l hl
    exact ⟨w', hw', hbeat⟩

/-- A sweep of any state leaves no lease past its deadline. -/
theorem swept_reapOnce (cfg : Config) (ps : Cron) (s : Server) : Sat (handle env) (reapOnce cfg ps) s fun _ s' =>
    Unexpired (env.clock s.tick) s' ∧ (Tended s → Tended s' ∧ Heard cfg (env.clock s.tick) s') := by
  have hnow : Sat (handle env) timeNow s fun t s₁ => t.ns = env.clock s.tick ∧ s₁ = s.ticked := ⟨rfl, rfl⟩
  refine hnow.bind ?_
  rintro ⟨now, zone⟩ _ ⟨rfl, rfl⟩
  have hlist : Sat (handle env) (act .listCached) s.ticked fun cached s₂ =>
      (∀ id w, (id, w) ∈ cached ↔ s.workers[id]? = some w) ∧ s₂ = s.ticked.ticked := ⟨mem_range env _ s.workers, rfl⟩
  refine hlist.bind ?_
  rintro cached _ ⟨hc, rfl⟩
  dsimp only
  have hmark : SatIf (handle env) (fun _ => True)
      ((downgraded cfg (env.clock s.tick) cached).forM fun p => do let _ ← putWorker p.2) s.ticked.ticked
      fun _ s' => Keyed s → Marked cfg (env.clock s.tick) s s' := by
    refine satIf_forM (fun p hp s' hm => Sat.satIf ?_) fun _ => .refl cfg _ rfl rfl
    have hput : Sat (handle env) (putWorker p.2) s' fun _ s'' => Keyed s → Marked cfg (env.clock s.tick) s s'' :=
      fun hk => Marked.put hk (fun id w => (hc id w).1) hp (hm hk)
    exact hput.bind fun _ _ hm' => hm'
  refine Sat.bind (hmark fun _ _ => trivial) fun _ s₃ h₃ => ?_
  refine (sat_forM Fewer.refl (fun _ _ _ => Fewer.trans) (fun id _ _ hf hid τ l hl => hid τ l (hf.leases τ l hl))
    fun id _ s => fewer_requeueLeasesForWorker id _ s).bind ?_
  rintro _ s₄ ⟨hf₄, hdead⟩
  have hlist : Sat (handle env) (act .listLeases) s₄ fun ls s₅ => ls = env.range s₄.tick s₄.leases ∧ s₅ = s₄.ticked :=
    ⟨rfl, rfl⟩
  refine hlist.bind ?_
  rintro _ _ ⟨rfl, rfl⟩
  refine (fewer_requeueLeases _ _ s₄.ticked).mono ?_
  rintro _ s₆ ⟨hf₆, hgone⟩
  have hf : Fewer s₄ s₆ := (Fewer.ticked s₄).trans hf₆
  refine ⟨fun τ l hl => ?_, fun h => ?_⟩
  · by_contra hlate
    have hmem : (τ, l) ∈ (env.range s₄.tick s₄.leases).filter fun p => env.clock s.tick > p.2.deadline :=
      List.mem_filter.2 ⟨(mem_range ..).2 (hf.leases τ l hl), decide_eq_true (not_le.1 hlate)⟩
    cases (hgone τ (List.mem_map_of_mem hmem)).symm.trans hl
  · refine heard_of_marked h (fun id w => (hc id w).2) (h₃ h.keyed) (hf₄.trans hf) fun id hid τ l hl => ?_
    exact hdead id hid τ l (hf.leases τ l hl)

/-! ## Runs -/

/-- No poll is by a worker that is cached as DEAD. -/
def Fit (s : Server) (ev : Event) : Prop :=
  ∀ w n i, ev = .call (.pollTask w n) → s.workers[w]? = some i → i.state ≠ .dead

/-- A start grants no lease. -/
theorem grantless_boot (ps : Cron) (node : Cluster.Node) : Uses (fun op => ∀ l, op ≠ .addLease l) (boot ps node) := by
  have hrecover : Uses (fun op => ∀ l, op ≠ .addLease l) recover := by
    refine recover_uses.mono ?_
    rintro _ (rfl | ⟨w, rfl⟩) <;> exact nofun
  refine Uses.bind hrecover fun r => ?_
  cases r with
  | error e => exact Uses.pure _
  | ok u =>
    refine Uses.bind (Uses.perform nofun) fun _ => uses_onBecomeLeader ?_ ps nofun nofun nofun nofun
    rintro _ hop l rfl
    exact hop

theorem tended_restart (ps : Cron) (node : Cluster.Node) (s : Server) : Tended (restart env ps node s) := by
  have hstart : Keyed s.fresh ∧ ∀ (τ : String) (l : Lease), s.fresh.leases[τ]? ≠ some l := by
    refine ⟨fun id w hw => ?_, fun τ l hl => ?_⟩
    · have hw : (∅ : Std.ExtTreeMap String WorkerInfo)[id]? = some w := hw
      rw [Std.ExtTreeMap.getElem?_empty] at hw
      cases hw
    · have hl : (∅ : Std.ExtTreeMap String Lease)[τ]? = some l := hl
      rw [Std.ExtTreeMap.getElem?_empty] at hl
      cases hl
  obtain ⟨hkeyed, hnone⟩ := Uses.keeps (I := fun s => Keyed s ∧ ∀ (τ : String) (l : Lease), s.leases[τ]? ≠ some l)
    (h := handle env) (fun op s hop hs => ⟨hs.1.handle op, fun τ l hl => hs.2 τ l (leases_handle hop hl)⟩)
    (grantless_boot ps node) hstart
  exact ⟨hkeyed, fun τ l hl => absurd hl (hnone τ l)⟩

theorem tended_step {ev : Event} (hfit : Fit s ev) (h : Tended s) (hstep : step env ps s ev = some s') : Tended s' := by
  cases ev with
  | crash c ops aborted node =>
    obtain ⟨_, ⟨⟩⟩ := Option.ite_none_right_eq_some.1 hstep
    exact tended_restart ps node _
  | call c =>
    obtain ⟨_, ⟨⟩⟩ := Option.ite_none_right_eq_some.1 hstep
    show Sat (handle env) (c.prog env.cfg ps) s fun _ => Tended
    by_cases hpoll : ∃ w n, c = .pollTask w n
    · obtain ⟨w, n, rfl⟩ := hpoll
      refine Sat.bind (tended_pollTask h (fun i => hfit w n i rfl) n) fun _ s₁ h₁ => ?_
      exact h₁
    · by_cases hreap : c = .reaper
      · subst hreap
        have h₁ : Tended s.ticked := h.fewer (.ticked s)
        refine Sat.bind (Q := fun _ s₁ => s₁ = s.ticked) rfl ?_
        rintro leads _ rfl
        cases leads with
        | true => exact (swept_reapOnce env.cfg ps s.ticked).mono fun _ _ hs => (hs.2 h₁).1
        | false => exact h₁
      · exact h.run (tends_call env.cfg ps (fun w n he => hpoll ⟨w, n, he⟩) hreap)

theorem tended_of_runs {store : Store} {node : Cluster.Node} (h : Runs env ps Fit (started env ps store node) s) :
    Tended s := by
  induction h with
  | refl => exact tended_restart ps node _
  | step _ hfit hstep ih => exact tended_step hfit ih hstep

/-- After a sweep every lease that is left has time to run. In a run in which no DEAD worker has polled, the worker of each
has been heard of within the timeout. -/
theorem sweep_leaves_live_leases (env : Env) (ps : Cron) (store : Store) (node : Cluster.Node) (s : Server) :
    let s' := (exec (handle env) (reapOnce env.cfg ps) s).2
    (∀ (τ : String) (l : Lease), s'.leases[τ]? = some l → env.clock s.tick ≤ l.deadline) ∧
    (Runs env ps Fit (started env ps store node) s → ∀ (τ : String) (l : Lease), s'.leases[τ]? = some l →
      ∃ w, s'.workers[l.workerID]? = some w ∧ env.clock s.tick - asTime w.lastHeartbeat ≤ env.cfg.heartbeatTimeout) := by
  obtain ⟨htimely, hheard⟩ := @swept_reapOnce env env.cfg ps s
  exact ⟨htimely, fun h => (hheard (tended_of_runs h)).2⟩

/-- An hour passes after a number of operations. -/
def Env.hourAfter (ops : Nat) : Env := .leaping ops (3600 * 1000000000)

/-- The state after some activities, in one of which the hour passes. -/
def servedAcross (ops : Nat) (cs : List Call) : Server :=
  cs.foldl (after (.hourAfter ops) noCron) (started (.hourAfter ops) noCron .empty leading)

/-- The sweep after that. -/
def sweptAcross (ops : Nat) (cs : List Call) : Server :=
  (exec (handle (.hourAfter ops)) (reapOnce .defaults noCron) (servedAcross ops cs)).2

/-- A worker registers, a job is submitted and the worker polls. -/
def polling : List Call := [.registerWorker (some { id := "w" }), submitting "a" [], .pollTask "w" 1]

/-- The lease of a worker that has just polled is left in place. -/
theorem sweep_leaves_live_leases_polled : ∃ l, (sweptAcross 1000 polling).leases["task-"]? = some l ∧ 0 ≤ l.deadline ∧
    ∃ w, (sweptAcross 1000 polling).workers[l.workerID]? = some w ∧ 0 - asTime w.lastHeartbeat ≤ 15 * 1000000000 := by
  have halive : ((servedAcross 1000 [.registerWorker (some { id := "w" }), submitting "a" []]).workers["w"]?).map
      WorkerInfo.state = some .alive := by decide +kernel
  have hleft : ((sweptAcross 1000 polling).leases["task-"]?).isSome = true := by decide +kernel
  have hclock : (Env.hourAfter 1000).clock (servedAcross 1000 polling).tick = 0 := by decide +kernel
  have hruns : Runs (.hourAfter 1000) noCron Fit (started (.hourAfter 1000) noCron .empty leading)
      (servedAcross 1000 polling) := by
    refine ((Runs.refl.call ?_ rfl).call ?_ rfl).call (fun w n i he hi => ?_) rfl
    · exact fun _ _ _ he => nomatch he
    · exact fun _ _ _ he => nomatch he
    · cases he
      obtain ⟨i', hi', hs⟩ := Option.map_eq_some_iff.1 halive
      cases hi'.symm.trans hi
      rw [hs]
      exact nofun
  obtain ⟨l, hl⟩ := Option.isSome_iff_exists.1 hleft
  have hswept := sweep_leaves_live_leases (.hourAfter 1000) noCron .empty leading (servedAcross 1000 polling)
  have hd := hswept.1 "task-" l hl
  obtain ⟨w, hw, hbeat⟩ := hswept.2 hruns "task-" l hl
  rw [hclock] at hd hbeat
  exact ⟨l, hl, hd, w, hw, hbeat⟩

/-- The same with a sweep before the poll. -/
def pollingDead : List Call := [.registerWorker (some { id := "w" }), submitting "a" [], .reaper, .pollTask "w" 1]

/-- A worker that a sweep has declared DEAD polls, and the next sweep leaves it the lease. -/
theorem sweep_spares_dead_worker :
    enabledAll (.hourAfter 25) noCron (started (.hourAfter 25) noCron .empty leading) pollingDead = true ∧
    ((sweptAcross 25 pollingDead).leases["task-"]?).map Lease.workerID = some "w" ∧
    ((sweptAcross 25 pollingDead).workers["w"]?).map WorkerInfo.lastHeartbeat = some (some 0) ∧
    (Env.hourAfter 25).clock (servedAcross 25 pollingDead).tick - asTime (some 0) > (Env.hourAfter 25).cfg.heartbeatTimeout := by
  decide +kernel

end Distsched.Scheduler
