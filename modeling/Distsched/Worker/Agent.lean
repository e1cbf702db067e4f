/-
The worker agent (`internal/worker/agent.go`): the slots for its tasks, the filter against tasks delivered twice, and the
poll, which reads the free capacity before the call and claims slots one by one after it, while tasks finish in between.

A poll under way has been promised slots: as many as it asked for, or as its answer has tasks left. The slots in use and
the slots promised are never more than the capacity. Only a poll claims slots, and a task that finishes frees one, so every
claim finds one free.
-/
import Distsched.Lib.Bucket
import Distsched.Lib.Steps
import Mathlib.Data.Finset.Card

open Std (ExtTreeMap)

namespace Distsched.Worker

/-! ## The agent -/

/-- The most tasks that run at a time. -/
structure Config where
  capacity : Int32

def Config.withDefaults (c : Config) : Config := if c.capacity ≤ 0 then { c with capacity := 4 } else c

/-- How long a finished task is remembered: ten minutes. -/
def doneRetention : Int := 10 * 60 * 1000000000

/-- What the mutex of the agent guards: the tasks being executed, and those finished lately with the time of completion. -/
structure Agent where
  cfg : Config
  running : Finset String := ∅
  done : ExtTreeMap String Int := ∅

namespace Agent

def freeCapacity (a : Agent) : Int := a.cfg.capacity.toInt - a.running.card

/-- Claims a slot for a task, unless the task is running, was completed lately, or all slots are taken. -/
def tryStart (a : Agent) (taskID : String) : Agent × Bool :=
  if taskID ∈ a.running then (a, false)
  else if taskID ∈ a.done then (a, false)
  else if (a.running.card : Int) ≥ a.cfg.capacity.toInt then (a, false)
  else ({ a with running := insert taskID a.running }, true)

/-- Frees the slot of a task, and forgets what finished too long ago. -/
def finish (a : Agent) (taskID : String) (now : Int) : Agent :=
  { a with
    running := a.running.erase taskID
    done := (a.done.insert taskID now).filter fun _ t => !decide (now - t > doneRetention) }

/-! ## What the methods do -/

variable {a : Agent} {id : String} {now : Int}

theorem tryStart_cfg : (a.tryStart id).1.cfg = a.cfg := by
  unfold tryStart
  repeat' split
  all_goals rfl

theorem tryStart_done : (a.tryStart id).1.done = a.done := by
  unfold tryStart
  repeat' split
  all_goals rfl

theorem tryStart_running (a : Agent) (id : String) :
    (a.tryStart id).1.running = if (a.tryStart id).2 then insert id a.running else a.running := by
  unfold tryStart
  repeat' split
  all_goals first | rfl | contradiction

theorem tryStart_true (h : (a.tryStart id).2 = true) : id ∉ a.running ∧ id ∉ a.done := by
  unfold tryStart at h
  split at h
  · cases h
  · split at h
    · cases h
    · exact ⟨by assumption, by assumption⟩

/-- With a slot free, a task is turned away only if it is running or was completed lately. -/
theorem tryStart_false (h : (a.tryStart id).2 = false) (hfree : (a.running.card : Int) < a.cfg.capacity.toInt) :
    id ∈ a.running ∨ id ∈ a.done := by
  unfold tryStart at h
  split at h
  · left; assumption
  · split at h
    · right; assumption
    · rw [if_neg (by omega)] at h
      cases h

theorem card_tryStart_le (a : Agent) (id : String) : (a.tryStart id).1.running.card ≤ a.running.card + 1 := by
  rw [tryStart_running]
  split
  · exact Finset.card_insert_le _ _
  · omega

/-- What is remembered of a task after another one has finished. -/
theorem finish_done (a : Agent) (id id' : String) (now : Int) :
    (a.finish id now).done[id']? =
      Option.filter (fun t => !decide (now - t > doneRetention)) (if id = id' then some now else a.done[id']?) := by
  unfold finish
  rw [ExtTreeMap.getElem?_filter', ExtTreeMap.getElem?_insert]
  simp only [compare_keys]

end Agent

/-! ## The worker over time -/

/-- Where the poll of the agent is. -/
inductive Poll
  | idle
  /-- the call is under way -/
  | asked (maxTasks : Int32)
  /-- the tasks of the answer that are still to be started -/
  | claiming (tasks : List String)
  deriving DecidableEq

/-- What is remembered of the past. -/
inductive Mark
  | started (taskID : String)
  | finished (taskID : String)
  deriving DecidableEq

structure State where
  agent : Agent
  poll : Poll := .idle
  /-- the tasks whose `run` has been started and has not come to its end -/
  runs : List String := []
  /-- the time of the last event -/
  clock : Int
  /-- what has happened and when, the last first -/
  history : List (Int × Mark) := []

inductive Event
  /-- a tick of the poll timer -/
  | poll
  /-- the call of `PollTask` returns an error -/
  | fail
  /-- the call of `PollTask` returns these tasks -/
  | answer (tasks : List String)
  /-- the next task of the answer is tried, or the poll is over -/
  | claim
  /-- a task comes to its end -/
  | finish (taskID : String)

/-- An event at the time the clock shows. -/
def State.happen (s : State) (e : Event) : Option State := match e, s.poll with
  | .poll, .idle =>
    let free := s.agent.freeCapacity
    if free ≤ 0 then some s else some { s with poll := .asked (Int32.ofInt free) }
  | .fail, .asked _ => some { s with poll := .idle }
  | .answer tasks, .asked maxTasks =>
    -- the scheduler hands out no more than was asked for
    if (tasks.length : Int) ≤ maxTasks.toInt then some { s with poll := .claiming tasks } else none
  | .claim, .claiming [] => some { s with poll := .idle }
  | .claim, .claiming (id :: rest) =>
    let (agent, ok) := s.agent.tryStart id
    if ok then
      some { s with
        agent := agent, poll := .claiming rest, runs := id :: s.runs, history := (s.clock, .started id) :: s.history }
    else some { s with agent := agent, poll := .claiming rest }
  | .finish id, _ =>
    if id ∈ s.runs then
      some { s with
        agent := s.agent.finish id s.clock, runs := s.runs.erase id, history := (s.clock, .finished id) :: s.history }
    else none
  | _, _ => none

/-- An event no earlier than the last one. -/
def State.step (s : State) : Int × Event → Option State
  | (now, e) => if now < s.clock then none else State.happen { s with clock := now } e

/-- The agent as it is made (`New`). -/
def State.new (cfg : Config) (clock : Int) : State := { agent := { cfg := cfg.withDefaults }, clock := clock }

/-- The runs of an agent. -/
abbrev State.Reaches (cfg : Config) (clock : Int) : State → Prop :=
  Steps.Reaches State.step (fun _ _ => True) (State.new cfg clock)

/-- When a task last came to its end. -/
def lastFinish (history : List (Int × Mark)) (id : String) : Option Int :=
  history.findSome? fun e => if e.2 = .finished id then some e.1 else none

theorem lastFinish_started (h : List (Int × Mark)) (now : Int) (id id' : String) :
    lastFinish ((now, .started id) :: h) id' = lastFinish h id' := by
  simp [lastFinish]

theorem lastFinish_finished (h : List (Int × Mark)) (now : Int) (id id' : String) :
    lastFinish ((now, .finished id) :: h) id' = if id = id' then some now else lastFinish h id' := by
  by_cases he : id = id' <;> simp [lastFinish, he]

/-- The slots promised to the poll under way. -/
def Poll.promised : Poll → Int
  | .idle => 0
  | .asked maxTasks => maxTasks.toInt
  | .claiming tasks => tasks.length

/-- The tasks with a slot are those that run, once each. The slots in use and those promised are within the capacity. A
completion is remembered unless it is longer ago than the retention. A task that was started runs or has finished. -/
structure State.Admits (cfg : Config) (s : State) : Prop where
  cfg_eq : s.agent.cfg = cfg.withDefaults
  runs_nodup : s.runs.Nodup
  runs_iff : ∀ id, id ∈ s.runs ↔ id ∈ s.agent.running
  slots : s.agent.running.card + s.poll.promised ≤ cfg.withDefaults.capacity.toInt
  promised : 0 ≤ s.poll.promised
  remembered : ∀ id t, lastFinish s.history id = some t → s.agent.done[id]? = some t ∨ s.clock - t > doneRetention
  started : ∀ id t, (t, Mark.started id) ∈ s.history → id ∈ s.agent.running ∨ ∃ t', lastFinish s.history id = some t'

namespace State

variable {cfg : Config} {s : State} {now : Int}

theorem Admits.new (cfg : Config) (clock : Int) : (State.new cfg clock).Admits cfg where
  cfg_eq := rfl
  runs_nodup := List.nodup_nil
  runs_iff := by simp [State.new]
  slots := by
    show ((∅ : Finset String).card : Int) + 0 ≤ _
    rw [Finset.card_empty]
    unfold Config.withDefaults
    split
    · decide
    · rename_i h
      rw [Int32.le_iff_toInt_le, Int32.toInt_zero] at h
      omega
  promised := Int.le_refl 0
  remembered := nofun
  started := nofun

/-- Time passes. -/
theorem Admits.later (h : s.Admits cfg) (hle : s.clock ≤ now) : State.Admits cfg { s with clock := now } := by
  refine { h with remembered := fun id t ht => ?_ }
  rcases h.remembered id t ht with hd | hr
  · exact .inl hd
  · right
    show now - t > doneRetention
    omega

/-- The poll goes on without claiming a slot. -/
theorem Admits.polls (h : s.Admits cfg) {p : Poll} (h0 : 0 ≤ p.promised)
    (hp : p.promised ≤ s.poll.promised ∨ p.promised ≤ s.agent.freeCapacity) : State.Admits cfg { s with poll := p } := by
  refine { h with slots := ?_, promised := h0 }
  have hslots := h.slots
  have hcfg := h.cfg_eq
  show (s.agent.running.card : Int) + p.promised ≤ _
  rcases hp with hp | hp
  · omega
  · rw [Agent.freeCapacity, hcfg] at hp
    omega

/-- What the agent asks for is what is free: it fits into the field of the request. -/
theorem toInt_freeCapacity (h : 0 < s.agent.freeCapacity) :
    (Int32.ofInt s.agent.freeCapacity).toInt = s.agent.freeCapacity := by
  have hlt := Int32.toInt_lt s.agent.cfg.capacity
  refine Int32.toInt_ofInt_of_le (by omega) ?_
  unfold Agent.freeCapacity
  omega

theorem Admits.claim (h : s.Admits cfg) {id : String} {rest : List String} (hp : s.poll = .claiming (id :: rest)) :
    (if (s.agent.tryStart id).2 then
      State.Admits cfg { s with
        agent := (s.agent.tryStart id).1, poll := .claiming rest, runs := id :: s.runs,
        history := (s.clock, .started id) :: s.history }
    else State.Admits cfg { s with agent := (s.agent.tryStart id).1, poll := .claiming rest }) := by
  have hslots : (s.agent.running.card : Int) + (rest.length + 1) ≤ cfg.withDefaults.capacity.toInt := by
    have := h.slots
    rw [hp] at this
    simpa [Poll.promised] using this
  have hcard := Agent.card_tryStart_le s.agent id
  have hrunning := Agent.tryStart_running s.agent id
  have hnext : ((s.agent.tryStart id).1.running.card : Int) + rest.length ≤ cfg.withDefaults.capacity.toInt := by omega
  split
  · rename_i hok
    rw [if_pos hok] at hrunning
    obtain ⟨hnew, -⟩ := Agent.tryStart_true hok
    refine ⟨Agent.tryStart_cfg.trans h.cfg_eq, ?_, ?_, hnext, Int.natCast_nonneg _, ?_, ?_⟩
    · exact List.nodup_cons.2 ⟨fun hr => hnew ((h.runs_iff id).1 hr), h.runs_nodup⟩
    · intro id'
      simp only [hrunning, List.mem_cons, Finset.mem_insert, h.runs_iff]
    · intro id' t ht
      rw [lastFinish_started] at ht
      simp only [Agent.tryStart_done]
      exact h.remembered id' t ht
    · intro id' t ht
      simp only [hrunning, lastFinish_started]
      rcases List.mem_cons.1 ht with he | ht
      · cases he
        exact .inl (Finset.mem_insert_self _ _)
      · exact (h.started id' t ht).imp_left (Finset.mem_insert_of_mem ·)
  · rename_i hno
    rw [if_neg hno] at hrunning
    refine ⟨Agent.tryStart_cfg.trans h.cfg_eq, h.runs_nodup, ?_, hnext, Int.natCast_nonneg _, ?_, ?_⟩
    · simpa only [hrunning] using h.runs_iff
    · simpa only [Agent.tryStart_done] using h.remembered
    · simpa only [hrunning] using h.started

theorem Admits.finish (h : s.Admits cfg) (id : String) :
    State.Admits cfg { s with
      agent := s.agent.finish id s.clock, runs := s.runs.erase id, history := (s.clock, .finished id) :: s.history } := by
  refine ⟨h.cfg_eq, h.runs_nodup.erase id, ?_, ?_, h.promised, ?_, ?_⟩
  · intro id'
    show id' ∈ s.runs.erase id ↔ id' ∈ s.agent.running.erase id
    rw [h.runs_nodup.mem_erase_iff, Finset.mem_erase, h.runs_iff]
  · have hslots := h.slots
    have hle : (s.agent.running.erase id).card ≤ s.agent.running.card := Finset.card_erase_le
    show ((s.agent.running.erase id).card : Int) + s.poll.promised ≤ _
    omega
  · intro id' t ht
    rw [lastFinish_finished] at ht
    -- either the entry passes the pruning, or it is too old
    have hknown : (if id = id' then some s.clock else s.agent.done[id']?) = some t ∨ s.clock - t > doneRetention := by
      by_cases he : id = id'
      · rw [if_pos he] at ht ⊢
        exact .inl ht
      · rw [if_neg he] at ht ⊢
        exact h.remembered id' t ht
    by_cases hold : s.clock - t > doneRetention
    · exact .inr hold
    · left
      show (s.agent.finish id s.clock).done[id']? = some t
      rw [Agent.finish_done, hknown.resolve_right hold]
      simp [hold]
  · intro id' t ht
    rw [lastFinish_finished]
    by_cases he : id = id'
    · exact .inr ⟨s.clock, if_pos he⟩
    · rw [if_neg he]
      have ht : (t, Mark.started id') ∈ s.history := by simpa using ht
      refine (h.started id' t ht).imp_left fun hr => ?_
      exact Finset.mem_erase.2 ⟨Ne.symm he, hr⟩

theorem Admits.happen (h : s.Admits cfg) {e : Event} {s' : State} (hs : s.happen e = some s') : s'.Admits cfg := by
  unfold State.happen at hs
  split at hs
  · -- a poll
    dsimp only at hs
    split at hs <;> cases hs
    · exact h
    · rename_i hfree
      have hfit := toInt_freeCapacity (Int.not_le.1 hfree)
      refine h.polls ?_ (.inr (Int.le_of_eq hfit))
      show 0 ≤ (Int32.ofInt s.agent.freeCapacity).toInt
      omega
  · -- an error
    cases hs
    exact h.polls (p := .idle) (Int.le_refl 0) (.inl h.promised)
  · -- an answer
    rename_i tasks maxTasks hp
    split at hs <;> cases hs
    rename_i hlen
    refine h.polls (p := .claiming tasks) (Int.natCast_nonneg _) (.inl ?_)
    rw [hp]
    exact hlen
  · -- the end of a poll
    cases hs
    exact h.polls (p := .idle) (Int.le_refl 0) (.inl h.promised)
  · -- a task of the answer
    rename_i id rest hp
    have hclaim := h.claim hp
    dsimp only at hs
    split at hs <;> cases hs
    · rename_i hok
      rwa [if_pos hok] at hclaim
    · rename_i hno
      rwa [if_neg hno] at hclaim
  · -- a task that ends
    split at hs <;> cases hs
    exact h.finish _
  · cases hs

theorem Admits.step (h : s.Admits cfg) {e : Int × Event} {s' : State} (hs : s.step e = some s') : s'.Admits cfg := by
  obtain ⟨now, e⟩ := e
  unfold State.step at hs
  dsimp only at hs
  split at hs
  · cases hs
  · exact (h.later (by omega)).happen hs

/-- The tasks that run have a slot each. -/
theorem Admits.runs_length (h : s.Admits cfg) : s.runs.length = s.agent.running.card := by
  have heq : s.runs.toFinset = s.agent.running := by
    ext id
    rw [List.mem_toFinset, h.runs_iff]
  rw [← heq, List.toFinset_card_of_nodup h.runs_nodup]

theorem admits_of_reaches {clock : Int} (h : State.Reaches cfg clock s) : s.Admits cfg :=
  h.invariant (I := State.Admits cfg) (State.Admits.new cfg clock) fun _ _ _ hs _ hstep => hs.step hstep

end State

/-- In every run of an agent: no more tasks run than it has capacity for; a task of an answer is turned away only if it runs
already or was completed lately; and one that was started before is started again only if it does not run and its last
completion is longer ago than the retention. -/
theorem worker_admission (cfg : Config) (clock : Int) {s : State} (h : State.Reaches cfg clock s) :
    (s.runs.length = s.agent.running.card ∧ (s.agent.running.card : Int) ≤ cfg.withDefaults.capacity.toInt) ∧
      ∀ id rest, s.poll = .claiming (id :: rest) →
        ((s.agent.tryStart id).2 = false → id ∈ s.agent.running ∨ id ∈ s.agent.done) ∧
        ((s.agent.tryStart id).2 = true → id ∉ s.agent.running ∧ ∀ t, (t, Mark.started id) ∈ s.history →
          ∃ t', lastFinish s.history id = some t' ∧ ∀ now, s.clock ≤ now → now - t' > doneRetention) := by
  have hinv : s.Admits cfg := State.admits_of_reaches h
  have hslots := hinv.slots
  refine ⟨⟨hinv.runs_length, by have := hinv.promised; omega⟩, ?_⟩
  intro id rest hp
  rw [hp] at hslots
  constructor
  · intro hno
    refine Agent.tryStart_false hno ?_
    rw [hinv.cfg_eq]
    simp only [Poll.promised, List.length_cons] at hslots
    omega
  · intro hok
    obtain ⟨hnew, hdone⟩ := Agent.tryStart_true hok
    refine ⟨hnew, fun t ht => ?_⟩
    obtain ⟨t', ht'⟩ := (hinv.started id t ht).resolve_left hnew
    refine ⟨t', ht', fun now hnow => ?_⟩
    -- the filter has let the task through, so its completion has been forgotten
    rcases hinv.remembered id t' ht' with hd | hr
    · rw [ExtTreeMap.getElem?_eq_none hdone] at hd
      cases hd
    · omega

/-- Half an hour of a worker with one slot: "t" is done after a second; "u" takes longer than the retention, and when it is
done, "t" is forgotten; then "t" is delivered once more. -/
def delivered : List (Int × Event) :=
  let late := 30 * 60 * 1000000000
  [(0, .poll), (0, .answer ["t"]), (0, .claim), (0, .claim), (1000000000, .finish "t"),
    (2000000000, .poll), (2000000000, .answer ["u"]), (2000000000, .claim), (2000000000, .claim), (late, .finish "u"),
    (late, .poll), (late, .answer ["t"])]

theorem worker_admission_again : ∃ s : State, State.Reaches ⟨1⟩ 0 s ∧ s.poll = .claiming ["t"] ∧
    (s.agent.tryStart "t").2 = true ∧ "t" ∉ s.agent.running ∧
    ∃ t', lastFinish s.history "t" = some t' ∧ ∀ now, s.clock ≤ now → now - t' > doneRetention := by
  obtain ⟨s, hs⟩ : ∃ s, Steps.perform State.step (fun _ _ => true) (State.new ⟨1⟩ 0) delivered = some s :=
    Option.isSome_iff_exists.1 (by decide +kernel)
  have hfacts : (Steps.perform State.step (fun _ _ => true) (State.new ⟨1⟩ 0) delivered).map
      (fun s => (s.poll, (s.agent.tryStart "t").2, s.history.contains (0, .started "t"))) =
        some (.claiming ["t"], true, true) := by
    decide +kernel
  rw [hs] at hfacts
  simp only [Option.map_some, Option.some.injEq, Prod.mk.injEq] at hfacts
  obtain ⟨hp, hok, hstarted⟩ := hfacts
  have hrun : State.Reaches ⟨1⟩ 0 s := Steps.Reaches.perform (fun _ _ _ => trivial) .refl hs
  obtain ⟨hnew, hlast⟩ := ((worker_admission ⟨1⟩ 0 hrun).2 "t" [] hp).2 hok
  exact ⟨s, hrun, hp, hok, hnew, hlast 0 (List.contains_iff_mem.1 hstarted)⟩

end Distsched.Worker
