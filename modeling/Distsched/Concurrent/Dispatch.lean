/-
Polls that run at the same time, among cancellations and retry timers. A job is in one place: in the ready queue, in
the hands of one handler, or handed to one worker. Handlers take it from the queue under the queue's lock, so however
their operations interleave, and whichever store calls fail, no job is handed to two workers.
-/
import Distsched.Concurrent.Handlers
import Distsched.Lib.Tokens
import Distsched.Lifecycle.Entries
import Distsched.Scheduler.Polls
import Distsched.Scheduler.Routine
import Mathlib.Data.List.Flatten

namespace Distsched.Concurrent

open Scheduler Lifecycle Prog

/-- The handlers that move jobs towards workers, and the cancellations that run beside them. -/
inductive Errand
  | pollTask (workerID : String) (maxTasks : Int)
  | cancelJob (jobID : String)
  /-- A retry timer that has fired. -/
  | timerFired (jobID : String)

def Errand.prog (cfg : Config) : Errand → M Reply
  | .pollTask workerID maxTasks => do pure (.polled (← Scheduler.pollTask cfg workerID maxTasks))
  | .cancelJob jobID => do pure (.canceled (← Scheduler.cancelJob cfg jobID))
  | .timerFired jobID => do
    Scheduler.timerFired jobID
    pure .done

/-- The worker for which a handler takes jobs. -/
def Errand.worker : Errand → String
  | .pollTask workerID _ => workerID
  | _ => ""

/-- The job that a timer brings. -/
def Errand.brings : Errand → Option String
  | .timerFired jobID => some jobID
  | _ => none

/-- The tasks of a reply. -/
def Reply.tasks : Reply → List TaskAssignment
  | .polled (.ok out) => out
  | _ => []

/-! ## What a handler has in hand -/

structure Hand where
  worker : String := ""
  /-- The job taken and not yet passed on. -/
  held : Option String := none
  /-- The attempt with which that job has been stored RUNNING. -/
  mark : Option Int := none
  /-- The jobs leased, each with its attempt. -/
  taken : List (String × Int) := []

namespace Hand

/-- Every job in hand or leased. -/
def jobs (g : Hand) : List String := g.held.toList ++ g.taken.map Prod.fst

/-- The jobs stored RUNNING. -/
def marked (g : Hand) : List (String × Int) := (g.held.bind fun x => g.mark.map fun a => (x, a)).toList ++ g.taken

theorem mem_jobs_of_marked {g : Hand} {p : String × Int} (h : p ∈ g.marked) : p.1 ∈ g.jobs := by
  rcases List.mem_append.1 h with h | h
  · obtain ⟨x, hx, h⟩ := Option.bind_eq_some_iff.1 (Option.mem_toList.1 h)
    obtain ⟨a, -, rfl⟩ := Option.map_eq_some_iff.1 h
    exact List.mem_append_left _ (Option.mem_toList.2 hx)
  · exact List.mem_append_right _ (List.mem_map_of_mem h)

/-- What a handler may do: it stores a job CANCELED, or RUNNING if the job is in its hand; it queues and leases only the
job in its hand, and leases it only as stored. -/
def Permits (g : Hand) : Op → Prop
  | .putJob j => j.state = .canceled ∨ (j.state = .running ∧ g.held = some j.id ∧ j.assignedWorkerId = g.worker)
  | .push id _ _ => g.held = some id
  | .addLease l => g.held = some l.jobID ∧ g.mark = some l.attempt
  | .clearQueue => False
  | _ => True

def next (g : Hand) : (op : Op) → op.Resp → Hand
  | .putJob j, .ok _ => if j.state = .running then { g with mark := some j.attempt } else g
  | .pop, r => { g with held := r, mark := none }
  | .push .., _ => { g with held := none, mark := none }
  | .addLease l, _ => { g with held := none, mark := none, taken := g.taken ++ [(l.jobID, l.attempt)] }
  | _, _ => g

end Hand

/-- Stored jobs are found under their own IDs. -/
def keyed : (op : Op) → op.Resp → Prop
  | .getJob x, .ok j => j.id = x
  | _, _ => True

def dealing : Protocol Op Op.Resp Hand where
  permits op g := g.Permits op
  answers op r _ := keyed op r
  next op r g := g.next op r

abbrev Deals {α : Type} (p : M α) (g : Hand) (Q : α → Hand → Prop) : Prop := Meets dealing p g Q

def Errand.hand (e : Errand) : Hand := { worker := e.worker, held := e.brings }

def errands (cfg : Config) (es : List Errand) (s : Server) : Pool Op Op.Resp Server Hand Reply :=
  Pool.spawn (Errand.prog cfg) Errand.hand es s

/-! ## The handlers keep to it -/

/-- The operations that leave what is in hand as it is. -/
def LeavesHand : Op → Prop
  | .putJob _ | .push .. | .pop | .addLease _ | .clearQueue => False
  | _ => True

theorem deals_leavesHand (op : Op) (h : LeavesHand op) : Silent dealing op := by
  intro g
  cases op with
  | putJob | push | pop | addLease | clearQueue => exact h.elim
  | _ => exact ⟨trivial, fun _ _ => rfl⟩

variable {g : Hand} {env : Env}

/-- What a cancellation may do: it stores jobs CANCELED, and arms and queues none. -/
def withdrawing : Protocol Op Op.Resp Unit where
  permits op _ := Plain op ∨ ∃ j, op = .putJob j ∧ j.state = .canceled
  answers op r _ := keyed op r
  next _ _ _ := ()

theorem routine_withdrawing : Routine (fun _ p => Meets withdrawing p () fun _ _ => True) (fun _ => True)
    (fun _ => True) where
  pure _ := trivial
  bind hp hf := Meets.bind hp fun a _ _ => hf a
  act _ h := ⟨.inl h, fun _ _ => trivial⟩
  getJob x f he hj := by
    refine ⟨.inl trivial, fun r hr => ?_⟩
    cases r with
    | error e => exact he e
    | ok j => exact hj j hr trivial
  now hf := ⟨.inl trivial, fun t _ => hf t trivial⟩
  utc _ _ := trivial

/-- The operations of a cancellation leave what is in hand as it is. -/
theorem silent_withdrawing {op : Op} (hop : Moves op ∨ op = .leaderID) (hperm : withdrawing.permits op ()) :
    Silent dealing op := by
  cases op with
  | putJob j =>
    obtain ⟨_, ⟨⟩, hj⟩ := hperm.resolve_left id
    refine fun g => ⟨.inl hj, fun r _ => ?_⟩
    cases r with
    | error e => rfl
    | ok u =>
      refine if_neg ?_
      rw [hj]
      exact JobState.noConfusion
  | push =>
    rcases hperm with h | ⟨_, ⟨⟩, _⟩
    exact h.elim
  | pop | addLease | clearQueue =>
    rcases hop with h | ⟨⟨⟩⟩
    exact h.elim
  | _ => exact fun _ => ⟨trivial, fun _ _ => rfl⟩

theorem deals_cancelJob (cfg : Config) (x : String) : Deals (cancelJob cfg x) g fun _ g' => g' = g := by
  have huses : Uses (fun op => Moves op ∨ op = .leaderID) (cancelJob cfg x) :=
    uses_cancelJob (fun _ => .inl) cfg (.inr rfl) x
  have hput : ∀ j : Job, j.state = .canceled → Meets withdrawing (putJob j) () fun _ _ => True := by
    intro j hj
    refine Meets.bind (Q := fun _ _ => True) ⟨.inr ⟨j, rfl, hj⟩, fun _ _ => trivial⟩ fun r _ _ => ?_
    cases r with
    | error e => exact trivial
    | ok u => exact routine_withdrawing.bind (routine_withdrawing.appendRepl _) fun _ => trivial
  exact Uses.silent (fun _ => silent_withdrawing) (fun _ _ _ h => h) g huses (routine_withdrawing.cancelJob hput x)

/-- A timer queues the job it has brought, or lets it go. -/
theorem deals_timerFired {x : String} (hx : g.held = some x) :
    Deals (timerFired x) g fun _ g' => g'.taken = g.taken ∧ g'.worker = g.worker := by
  refine Meets.bind ((deals_leavesHand (.deleteTimer x) trivial).meets g) ?_
  rintro _ g rfl
  refine Meets.bind ((deals_leavesHand .isClosed trivial).meets g) ?_
  rintro closed g rfl
  cases closed with
  | true => exact ⟨rfl, rfl⟩
  | false =>
    refine Meets.bind ((deals_leavesHand .isLeader trivial).meets g) ?_
    rintro leads g rfl
    cases leads with
    | false => exact ⟨rfl, rfl⟩
    | true =>
      refine ⟨trivial, fun r hr => ?_⟩
      cases r with
      | error e => exact ⟨rfl, rfl⟩
      | ok job =>
        show Deals (if job.state ≠ .queued then pure () else do
          let _ ← Queue.push job.id job.priority (asTime job.createdAt)) g _
        split
        · exact ⟨rfl, rfl⟩
        · have hid : job.id = x := hr
          refine ⟨?_, fun _ _ => ⟨rfl, rfl⟩⟩
          rw [hid]
          exact hx

theorem deals_putJob {j : Job} (h : g.Permits (.putJob j)) :
    Deals (putJob j) g fun r g' => g' = g.next (.putJob j) r := by
  refine Meets.bind (Q := fun r g' => g' = g.next (.putJob j) r) ⟨h, fun _ _ => rfl⟩ ?_
  rintro r _ rfl
  cases r with
  | error e => exact rfl
  | ok u =>
    have hlog : ∀ g m, Deals (appendRepl m) g fun _ g' => g' = g := fun g m =>
      meets_appendRepl m (deals_leavesHand .isLeader trivial) (deals_leavesHand (.appendLog m) trivial)
    exact (hlog _ _).bind fun _ _ h => h

/-- What a task hands out. -/
def dealt (out : List TaskAssignment) : List (String × Int) := out.map fun a => (a.jobId, a.attempt)

/-- A poll leases what it returns, and nothing else. -/
theorem deals_pollLoop (cfg : Config) (w : String) (now : Int) (n : Nat) : ∀ (fuel : Nat) (out : List TaskAssignment)
    (g : Hand), g.worker = w → g.taken = dealt out →
    Deals (pollLoop cfg w now n fuel out) g fun out' g' => g'.taken = dealt out' ∧ g'.worker = w
  | 0, _, _, hw, hout => ⟨hout, hw⟩
  | fuel + 1, out, g, hw, hout => by
    unfold pollLoop
    split
    · refine Meets.bind (Q := fun r g' => g' = g.next .pop r) ⟨trivial, fun _ _ => rfl⟩ ?_
      rintro r _ rfl
      cases r with
      | none => exact ⟨hout, hw⟩
      | some x =>
        generalize hg : g.next .pop (some x) = g₁
        have hheld : g₁.held = some x := hg ▸ rfl
        have hw : g₁.worker = w := hg ▸ hw
        have hout : g₁.taken = dealt out := hg ▸ hout
        refine ⟨trivial, fun r hr => ?_⟩
        cases r with
        | error e => exact deals_pollLoop cfg w now n fuel out g₁ hw hout
        | ok job =>
          have hid : job.id = x := hr
          subst hid
          show Deals (if job.state ≠ .queued then pollLoop cfg w now n fuel out else _) g₁ _
          split
          · exact deals_pollLoop cfg w now n fuel out g₁ hw hout
          · refine Meets.bind ((deals_leavesHand (.newID "task") trivial).meets g₁) ?_
            rintro τ g₁ rfl
            refine Meets.bind (deals_putJob (.inr ⟨rfl, hheld, hw.symm⟩)) ?_
            rintro r _ rfl
            cases r with
            | error e => exact ⟨hheld, fun _ _ => ⟨hout, hw⟩⟩
            | ok u =>
              refine ⟨⟨hheld, rfl⟩, fun _ _ => deals_pollLoop cfg w now n fuel _ _ hw ?_⟩
              show g₁.taken ++ _ = dealt (out ++ _)
              rw [hout, dealt, dealt, List.map_append]
              rfl
    · exact ⟨hout, hw⟩

theorem deals_pollTask (cfg : Config) (w : String) (maxTasks : Int) (hw : g.worker = w) (hg : g.taken = []) :
    Deals (pollTask cfg w maxTasks) g fun r g' => g'.taken = dealt (Reply.polled r).tasks ∧ g'.worker = w := by
  refine (meets_requireLeader cfg (deals_leavesHand .isLeader trivial) (deals_leavesHand .leaderID trivial)).bind ?_
  rintro denied g rfl
  cases denied with
  | some e => exact ⟨hg, hw⟩
  | none =>
    refine Meets.bind ((deals_leavesHand (.getCached w) trivial).meets g) ?_
    rintro known g rfl
    cases known with
    | none => exact ⟨hg, hw⟩
    | some _ =>
      refine Meets.bind ((deals_leavesHand .now trivial).meets g) ?_
      rintro now g rfl
      refine Meets.bind ((deals_leavesHand .queueBound trivial).meets g) ?_
      rintro bound g rfl
      exact (deals_pollLoop cfg w now.ns _ _ [] g hw hg).bind fun _ _ h => h

/-- What a finished handler has leased is what it returns. -/
theorem deals_errand (cfg : Config) (e : Errand) :
    Deals (e.prog cfg) e.hand fun r g => g.taken = dealt r.tasks ∧ g.worker = e.worker := by
  cases e with
  | pollTask w n => exact (deals_pollTask cfg w n rfl rfl).bind fun _ _ h => h
  | cancelJob x => exact (deals_cancelJob cfg x).bind fun _ _ h => h ▸ ⟨rfl, rfl⟩
  | timerFired x => exact (deals_timerFired rfl).bind fun _ _ h => h

/-! ## No job is in two places -/

/-- A job handed to the worker is stored RUNNING with it at that attempt, unless it has been canceled since. -/
def Assigned (worker : String) (p : String × Int) (s : Server) : Prop :=
  ∃ j, s.store.jobs.get p.1 = some j ∧
    (j.state = .canceled ∨ (j.state = .running ∧ j.assignedWorkerId = worker ∧ j.attempt = p.2))

structure Dealt (s : Server) (gs : List Hand) : Prop where
  apart : Apart Hand.jobs (s.queue.items.map Item.jobID) gs
  assigned : ∀ g ∈ gs, ∀ p ∈ g.marked, Assigned g.worker p s

section

variable {s : Server} {gs : List Hand} {i : Nat}

theorem worker_next (g : Hand) (op : Op) (r : op.Resp) : (g.next op r).worker = g.worker := by
  cases op with
  | putJob j =>
    cases r with
    | error e => rfl
    | ok u =>
      show (if _ then _ else _ : Hand).worker = _
      split <;> rfl
  | _ => rfl

/-- Off the queue, and without a lease, the jobs in hand stay the same. -/
theorem jobs_next {op : Op} (hq : OffQueue op) (hl : ∀ l, op ≠ .addLease l) (r : op.Resp) : (g.next op r).jobs = g.jobs := by
  cases op with
  | push | pop | remove | clearQueue => exact hq.elim
  | addLease l => exact absurd rfl (hl l)
  | putJob j =>
    cases r with
    | error e => rfl
    | ok u =>
      show (if _ then _ else _ : Hand).jobs = _
      split <;> rfl
  | _ => rfl

theorem subperm_push {q : PriorityQueue} {x : String} {p c : Int} (hx : g.held = some x) :
    ((q.push x p c).2.items.map Item.jobID ++ (g.next (.push x p c) (q.push x p c).1).jobs).Subperm
      (q.items.map Item.jobID ++ g.jobs) := by
  have hjobs : g.jobs = x :: g.taken.map Prod.fst := by
    rw [Hand.jobs, hx]
    rfl
  rw [hjobs]
  show (_ ++ g.taken.map Prod.fst).Subperm _
  unfold PriorityQueue.push
  split
  · exact ((List.sublist_cons_self x _).append_left _).subperm
  · have hperm := (insertItem_perm ⟨x, p, c⟩ q.items).map Item.jobID
    exact ((hperm.append_right _).trans List.perm_middle.symm).subperm

theorem subperm_pop {q : PriorityQueue} :
    (q.pop.2.items.map Item.jobID ++ (g.next .pop q.pop.1).jobs).Subperm (q.items.map Item.jobID ++ g.jobs) := by
  have hdrop : (g.taken.map Prod.fst).Sublist g.jobs := List.sublist_append_right ..
  cases h : q.pop.1 with
  | none =>
    obtain ⟨he, -⟩ := PriorityQueue.pop_none h
    rw [he]
    exact (hdrop.append_left _).subperm
  | some x =>
    obtain ⟨it, rfl, hitems⟩ := PriorityQueue.pop_some h
    rw [hitems, List.map_cons, List.cons_append]
    exact (List.perm_middle.subperm).trans ((hdrop.append_left _).cons_cons _).subperm

theorem subperm_addLease {l : Lease} (hx : g.held = some l.jobID) : (g.next (.addLease l) ()).jobs.Subperm g.jobs := by
  show (([] : List String) ++ (g.taken ++ [_]).map Prod.fst).Subperm (g.held.toList ++ _)
  rw [hx, List.map_append, List.nil_append]
  exact List.perm_append_comm.subperm

theorem apart_handle (op : Op) (hd : Apart Hand.jobs (s.queue.items.map Item.jobID) gs) (hi : gs[i]? = some g)
    (hperm : g.Permits op) :
    Apart Hand.jobs ((handle env op s).2.queue.items.map Item.jobID) (gs.set i (g.next op (handle env op s).1)) := by
  have hoff : OffQueue op → (∀ l, op ≠ .addLease l) → Apart Hand.jobs ((handle env op s).2.queue.items.map Item.jobID)
      (gs.set i (g.next op (handle env op s).1)) := by
    intro hq hl
    refine hd.set hi ?_
    rw [queue_handle op s hq, jobs_next hq hl]
  cases op with
  | push x p c => exact hd.set hi (subperm_push hperm)
  | pop => exact hd.set hi subperm_pop
  | addLease l => exact hd.set hi ((List.Subperm.refl _).append (subperm_addLease hperm.1))
  | remove x => exact hd.set hi ((List.filter_sublist.map _).append_right _).subperm
  | clearQueue => exact hperm.elim
  | _ => exact hoff trivial fun _ => by rintro ⟨⟩

/-- Only a job stored RUNNING is newly marked. -/
theorem marked_next {op : Op} (hput : ∀ j, op ≠ .putJob j) (hperm : g.Permits op) (r : op.Resp) :
    (g.next op r).marked ⊆ g.marked := by
  have htaken : g.taken ⊆ g.marked := List.subset_append_right ..
  cases op with
  | putJob j => exact absurd rfl (hput j)
  | push => exact htaken
  | pop =>
    cases r with
    | none => exact htaken
    | some x => exact htaken
  | addLease l =>
    obtain ⟨hheld, hmark⟩ := hperm
    intro p hp
    have hp : p ∈ g.taken ++ [(l.jobID, l.attempt)] := hp
    rcases List.mem_append.1 hp with hp | hp
    · exact htaken hp
    · refine List.mem_append_left _ ?_
      rw [hheld, hmark]
      exact hp
  | _ => exact List.Subset.refl _

theorem mem_of_mem_set_self {g' : Hand} (hi : gs[i]? = some g) (h : g' ∈ gs.set i g) : g' ∈ gs := by
  rcases List.mem_or_eq_of_mem_set h with h | rfl
  · exact h
  · exact List.mem_of_getElem? hi

theorem Assigned.congr {w : String} {p : String × Int} {s' : Server} (h : Assigned w p s) (ht : table s' p.1 = table s p.1) :
    Assigned w p s' := by
  obtain ⟨j, hj, hstate⟩ := h
  exact ⟨j, ht.trans hj, hstate⟩

/-- A job is stored RUNNING by the handler that has it in hand, so no other worker's record is replaced. -/
theorem assigned_put {j : Job} (hd : Dealt s gs) (hi : gs[i]? = some g) (hperm : g.Permits (.putJob j)) {s' : Server}
    (ht : table s' = Function.update (table s) j.id (some j)) :
    ∀ g' ∈ gs.set i (g.next (.putJob j) (.ok ())), ∀ p ∈ g'.marked, Assigned g'.worker p s' := by
  intro g' hg' p hp
  have hnew : table s' j.id = some j := by
    rw [ht]
    exact Function.update_self ..
  have hold : p.1 ≠ j.id → table s' p.1 = table s p.1 := by
    intro hne
    rw [ht]
    exact Function.update_of_ne hne ..
  rcases hperm with hstate | ⟨hstate, hheld, hworker⟩
  · -- a canceled job counts for every worker, and the hands are as before
    have hnext : g.next (.putJob j) (.ok ()) = g := if_neg (by rw [hstate]; exact JobState.noConfusion)
    rw [hnext] at hg'
    replace hg' : g' ∈ gs := mem_of_mem_set_self hi hg'
    by_cases hid : p.1 = j.id
    · exact ⟨j, hid ▸ hnew, .inl hstate⟩
    · exact (hd.assigned g' hg' p hp).congr (hold hid)
  · have hnext : g.next (.putJob j) (.ok ()) = { g with mark := some j.attempt } := if_pos hstate
    have hjob : j.id ∈ g.jobs := List.mem_append_left _ (Option.mem_toList.2 hheld)
    rw [hnext] at hg'
    obtain ⟨k, hk⟩ := List.mem_iff_getElem?.1 hg'
    rw [List.getElem?_set] at hk
    split at hk
    · rename_i hik
      subst hik
      split at hk
      · cases hk
        have hmarked : p = (j.id, j.attempt) ∨ p ∈ g.taken := by
          rw [Hand.marked, hheld] at hp
          exact List.mem_cons.1 hp
        rcases hmarked with rfl | hp
        · exact ⟨j, hnew, .inr ⟨hstate, hworker, rfl⟩⟩
        · have hne : p.1 ≠ j.id := by
            rintro hid
            have hnodup := hd.apart.nodup_hand (List.mem_of_getElem? hi)
            rw [Hand.jobs, hheld] at hnodup
            exact (List.nodup_cons.1 hnodup).1 (hid ▸ List.mem_map_of_mem hp)
          exact (hd.assigned g (List.mem_of_getElem? hi) p (List.mem_append_right _ hp)).congr (hold hne)
      · cases hk
    · rename_i hik
      have hne : p.1 ≠ j.id := by
        rintro hid
        exact hik (hd.apart.owner hi hk hjob (hid ▸ Hand.mem_jobs_of_marked hp))
      exact (hd.assigned g' (List.mem_of_getElem? hk) p hp).congr (hold hne)

theorem assigned_handle (op : Op) (hd : Dealt s gs) (hi : gs[i]? = some g) (hperm : g.Permits op) :
    ∀ g' ∈ gs.set i (g.next op (handle env op s).1), ∀ p ∈ g'.marked, Assigned g'.worker p (handle env op s).2 := by
  by_cases hput : ∃ j, op = .putJob j
  · obtain ⟨j, rfl⟩ := hput
    simp only [handle, Server.write]
    split
    · exact fun g' hg' => hd.assigned g' (mem_of_mem_set_self hi hg')
    · exact assigned_put hd hi hperm (table_put ..)
  · have htable : table (handle env op s).2 = table s := table_handle fun j hj => hput ⟨j, hj⟩
    intro g' hg' p hp
    refine Assigned.congr ?_ (congrFun htable p.1)
    rcases List.mem_or_eq_of_mem_set hg' with hg' | rfl
    · exact hd.assigned g' hg' p hp
    · rw [worker_next]
      exact hd.assigned g (List.mem_of_getElem? hi) p (marked_next (fun j hj => hput ⟨j, hj⟩) hperm _ hp)

theorem keyed_handle (op : Op) (s : Server) : keyed op (handle env op s).1 := by
  cases op with
  | getJob x =>
    simp only [handle]
    split
    · trivial
    · split
      · trivial
      · rename_i hj
        exact Bucket.get_id hj
  | _ => trivial

theorem inductive_dealt (env : Env) : Pool.Inductive (handle env) dealing Pool.free Dealt := by
  intro op g gs s i hi hd hperm _
  refine ⟨keyed_handle op s, ?_, ?_⟩
  · exact apart_handle op hd.apart hi hperm
  · exact assigned_handle op hd hi hperm

/-- At the start the jobs in hand are those that timers bring. -/
theorem dealt_errands {cfg : Config} {es : List Errand} {s₀ : Server}
    (h : (s₀.queue.items.map Item.jobID ++ es.filterMap Errand.brings).Nodup) : Dealt s₀ (errands cfg es s₀).notes := by
  have hnotes : (errands cfg es s₀).notes = es.map Errand.hand := by
    rw [Pool.notes, errands, Pool.spawn, List.map_map]
    rfl
  rw [hnotes]
  constructor
  · have hjobs : (es.map Errand.hand).flatMap Hand.jobs = es.filterMap Errand.brings := by
      rw [List.flatMap_map, List.filterMap_eq_flatMap_toList]
      refine List.flatMap_congr fun e _ => ?_
      exact List.append_nil _
    rw [Apart, hjobs]
    exact h
  · intro g hg p hp
    obtain ⟨e, -, rfl⟩ := List.mem_map.1 hg
    cases e <;> cases hp

/-- What a finished handler of a pool has leased is what it returns, to the worker that polled. -/
theorem sound_errands {es : List Errand} {s₀ : Server} {c : Pool Op Op.Resp Server Hand Reply}
    (hstart : (s₀.queue.items.map Item.jobID ++ es.filterMap Errand.brings).Nodup)
    (h : Pool.Reaches (handle env) dealing Pool.free (errands env.cfg es s₀) c) :
    Pool.Sound dealing Dealt
      (fun i r g => ∃ e, es[i]? = some e ∧ g.taken = dealt r.tasks ∧ g.worker = e.worker) c := by
  refine Pool.Reaches.sound (inductive_dealt env) ⟨dealt_errands hstart, fun i t ht => ?_⟩ h
  obtain ⟨e, he, rfl⟩ := Pool.thread_spawn ht
  exact (deals_errand env.cfg e).mono fun r g hq => ⟨e, he, hq⟩

/-- The tasks that the finished handlers have returned. -/
def returned (c : Pool Op Op.Resp Server Hand Reply) : List TaskAssignment :=
  c.threads.flatMap fun t => match t.prog with
    | .ret r => r.tasks
    | .call .. => []

/-- However polls, cancellations and retry timers interleave, and whatever store calls fail, no job is handed out twice; and
each job handed out is stored RUNNING with the worker that polled, at the attempt of its task, unless it has been canceled.
Every timer must bring a job of its own, that is not yet queued. -/
theorem no_double_dispatch {es : List Errand} {s₀ : Server} {c : Pool Op Op.Resp Server Hand Reply}
    (hstart : (s₀.queue.items.map Item.jobID ++ es.filterMap Errand.brings).Nodup)
    (h : Pool.Reaches (handle env) dealing Pool.free (errands env.cfg es s₀) c) :
    ((returned c).map TaskAssignment.jobId).Nodup ∧
    ∀ (i : Nat) (w : String) (n : Int) (out : List TaskAssignment), es[i]? = some (.pollTask w n) →
      c.result i = some (.polled (.ok out)) → ∀ a ∈ out, ¬ c.state.queue.Holds a.jobId ∧
        ∃ j, c.state.store.jobs.get a.jobId = some j ∧
          (j.state = .canceled ∨ (j.state = .running ∧ j.assignedWorkerId = w ∧ j.attempt = a.attempt)) := by
  have hc := sound_errands hstart h
  constructor
  · have hsub : ((returned c).map TaskAssignment.jobId).Sublist (c.notes.flatMap Hand.jobs) := by
      rw [returned, List.map_flatMap, Pool.notes, List.flatMap_map]
      refine List.Sublist.flatMap_right _ fun t ht => ?_
      obtain ⟨i, hi⟩ := List.mem_iff_getElem?.1 ht
      have hmeets := hc.threads i t hi
      obtain ⟨p, g⟩ := t
      cases p with
      | call op k => exact List.nil_sublist _
      | ret r =>
        obtain ⟨e, -, htaken, -⟩ := hmeets
        have hjobs : g.taken.map Prod.fst = r.tasks.map TaskAssignment.jobId := by
          rw [htaken, dealt, List.map_map]
          rfl
        show (r.tasks.map _).Sublist (g.held.toList ++ g.taken.map Prod.fst)
        rw [← hjobs]
        exact List.sublist_append_right ..
    exact hc.inv.apart.of_append_right.sublist hsub
  · intro i w n out hi hresult a ha
    obtain ⟨g, hg, e, he, htaken, hworker⟩ := hc.finished hresult
    cases hi.symm.trans he
    have hmem : (a.jobId, a.attempt) ∈ g.taken := by
      rw [htaken]
      exact List.mem_map_of_mem ha
    have hmarked : (a.jobId, a.attempt) ∈ g.marked := List.mem_append_right _ hmem
    constructor
    · exact hc.inv.apart.not_mem_pot hg (Hand.mem_jobs_of_marked hmarked)
    · obtain ⟨j, hj, hstate⟩ := hc.inv.assigned g hg _ hmarked
      rw [hworker] at hstate
      exact ⟨j, hj, hstate⟩

end

/-- Two workers, a queued job and one that waits for its time. -/
def twoWorkers : Server :=
  served [.registerWorker (some { id := "v" }), .registerWorker (some { id := "w" }), Scheduler.submitting "a" [],
    .submitJob (some { id := "b", spec := some { command := "true" }, schedule := some { kind := some (.runAt 5) } })]

/-- One poll stops before it stores its job, the timer fires, and the other poll takes what the timer brings. -/
theorem no_double_dispatch_pair : ∃ c, Pool.Reaches (handle .steady) dealing Pool.free
      (errands {} [.pollTask "v" 1, .pollTask "w" 2, .timerFired "b"] twoWorkers) c ∧
    (returned c).length = 2 ∧ ((returned c).map TaskAssignment.jobId).Nodup := by
  have hrun : ((errands {} [.pollTask "v" 1, .pollTask "w" 2, .timerFired "b"] twoWorkers).run (handle .steady) dealing
      (fun _ _ _ _ => true) (List.replicate 7 0 ++ List.replicate 5 2 ++ List.replicate 12 1 ++ List.replicate 4 0)).map
      (fun c => (returned c).length) = some 2 := by decide +kernel
  obtain ⟨c, hc, hlen⟩ := Option.map_eq_some_iff.1 hrun
  have hreach : Pool.Reaches (handle .steady) dealing Pool.free _ c := Pool.reaches_of_run (fun _ _ _ _ _ => trivial) hc
  exact ⟨c, hreach, hlen, (no_double_dispatch (by decide +kernel) hreach).1⟩

end Distsched.Concurrent
