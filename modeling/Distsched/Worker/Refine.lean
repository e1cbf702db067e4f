/-
The goroutines of an agent (`Worker.Session`) refine the machine of its slots (`Worker.Agent`): whatever order they take
their steps in, what happens to the slots is a run of that machine. Reading the free capacity begins a poll of the machine,
the answer to the call is its answer, each `tryStart` is a claim, and a `finish` is the end of a task.

A goroutine has a duty: the main one polls, and each of the others holds the slot of its task until it gives it back. So no
more tasks are executed at a time than the agent has capacity for.
-/
import Distsched.Lib.Tokens
import Distsched.Worker.Session
import Mathlib.Data.Int.ConditionallyCompleteOrder
import Mathlib.Order.ConditionallyCompleteLattice.Indexed
import Mathlib.Order.Lattice.Nat

namespace Distsched.Worker

open Scheduler (TaskAssignment)
open Prog

/-! ## Duties -/

inductive Duty
  /-- the main goroutine, and where its poll is -/
  | polling (poll : Poll)
  /-- the main goroutine with a slot for a task that it is about to start, and what is left of the answer -/
  | starting (taskID : String) (rest : List String)
  /-- the goroutine of a task, which has its slot -/
  | executing (taskID : String)
  /-- the goroutine of a task that has given its slot back -/
  | over

namespace Duty

def isMain : Duty → Bool
  | .polling _ | .starting .. => true
  | .executing _ | .over => false

def poll : Duty → Poll
  | .polling p => p
  | .starting _ rest => .claiming rest
  | .executing _ | .over => .idle

/-- The slot that goes with a duty. -/
def slot : Duty → List String
  | .starting id _ | .executing id => [id]
  | .polling _ | .over => []

/-- The duty after a step. -/
def next : (a : Act) → a.Resp → Duty → Duty
  | .freeCapacity, free, _ => .polling (if free ≤ 0 then .idle else .asked (Int32.ofInt free))
  | .call _ (.pollTask ..), .ok tasks, _ => .polling (.claiming (tasks.map TaskAssignment.taskId))
  | .call _ (.pollTask ..), .error _, _ => .polling .idle
  | .tryStart id, ok, d => match d with
    | .polling (.claiming (_ :: rest)) => if ok then .starting id rest else .polling (.claiming rest)
    | d => d
  | .goRun _, _, d => match d with
    | .starting _ rest => .polling (.claiming rest)
    | d => d
  | .finish _, _, _ => .over
  | _, _, d => d

/-- The steps that go with a duty. -/
def Permits : Act → Duty → Prop
  | .freeCapacity, d => d = .polling .idle ∨ d = .polling (.claiming [])
  | .call _ (.pollTask _ n), d => d = .polling (.asked n) ∧ 0 < n.toInt
  | .tryStart id, d => ∃ rest, d = .polling (.claiming (id :: rest))
  | .goRun task, d => ∃ rest, d = .starting task.taskId rest
  | .finish id, d => d = .executing id
  | _, d => d ≠ .over

end Duty

def shifts : Protocol Act Act.Resp Duty where
  permits := Duty.Permits
  answers
    -- what is free fits into the field of the request
    | .freeCapacity, free, _ => free < 2 ^ 31
    | _, _, _ => True
  next := Duty.next

/-! ## The programs keep to their duties -/

/-- A step that has nothing to do with slots. -/
def Quiet : Act → Prop
  | .freeCapacity | .call _ (.pollTask ..) | .tryStart _ | .goRun _ | .finish _ => False
  | _ => True

section Duties

variable {cfg : Settings} {d : Duty} {α : Type}

theorem Quiet.permits {a : Act} (h : Quiet a) (hd : d ≠ .over) : Duty.Permits a d ∧ ∀ r, Duty.next a r d = d := by
  cases a with
  | call client c =>
    cases c with
    | pollTask workerID maxTasks => exact h.elim
    | _ => exact ⟨hd, fun _ => rfl⟩
  | freeCapacity | tryStart | goRun | finish => exact h.elim
  | _ => exact ⟨hd, fun _ => rfl⟩

theorem shifts_step (a : Act) (h : Duty.Permits a d) :
    Meets shifts (step a) d fun r d' => shifts.answers a r d ∧ d' = Duty.next a r d :=
  ⟨h, fun _ hr => ⟨hr, rfl⟩⟩

/-- A program that has nothing to do with slots leaves the duty of its goroutine as it is. -/
theorem quiet_meets {p : A α} (h : Uses Quiet p) (hd : d ≠ .over) : Meets shifts p d fun _ d' => d' = d := by
  refine Uses.meets (I := (· = d)) ?_ h rfl
  rintro a _ ha rfl
  obtain ⟨hperm, hnext⟩ := ha.permits hd
  exact ⟨hperm, fun r _ => hnext r⟩

theorem quiet_discoverAmong (all : List String) : ∀ (seeds : List String) (lastErr : Option Failure),
    Uses Quiet (discoverAmong all seeds lastErr)
  | [], _ => Uses.pure _
  | seed :: seeds, lastErr => by
    refine Uses.bind (Uses.perform trivial) fun e => ?_
    cases e with
    | some e => exact quiet_discoverAmong all seeds _
    | none =>
      refine Uses.bind (Uses.perform trivial) fun r => ?_
      cases r with
      | error e => exact quiet_discoverAmong all seeds _
      | ok st =>
        dsimp only
        split
        · exact Uses.pure _
        · exact quiet_discoverAmong all seeds _

theorem quiet_connectLeader : Uses Quiet (connectLeader cfg) := by
  refine Uses.bind (quiet_discoverAmong _ _ _) fun r => ?_
  cases r with
  | error e => exact Uses.pure _
  | ok addr =>
    refine Uses.bind (Uses.perform trivial) fun e => ?_
    cases e with
    | some e => exact Uses.pure _
    | none => exact Uses.bind (Uses.perform trivial) fun _ => Uses.pure _

theorem quiet_register : Uses Quiet (register cfg) := by
  refine Uses.bind (Uses.perform trivial) fun client => Uses.bind (Uses.perform trivial) fun id =>
    Uses.bind (Uses.perform trivial) fun r => ?_
  cases r with
  | error e => exact Uses.pure _
  | ok p => exact Uses.bind (Uses.perform trivial) fun _ => Uses.pure _

theorem quiet_join : Uses Quiet (join cfg) := by
  refine Uses.bind quiet_connectLeader fun r => ?_
  cases r with
  | error e => exact Uses.pure _
  | ok u =>
    refine Uses.bind quiet_register fun r => ?_
    cases r <;> exact Uses.pure _

theorem quiet_bootstrapLoop (ctx : Bool) : ∀ (n : Nat) (backoff : Int), Uses Quiet (bootstrapLoop cfg ctx n backoff)
  | 0, _ => Uses.pure _
  | n + 1, backoff => by
    refine Uses.bind quiet_join fun ok => ?_
    cases ok with
    | true => exact Uses.pure _
    | false =>
      refine Uses.bind (Uses.perform trivial) fun canceled => ?_
      cases canceled with
      | true => exact Uses.pure _
      | false => exact quiet_bootstrapLoop ctx n _

theorem quiet_bootstrap (ctx : Bool) : Uses Quiet (bootstrap cfg ctx) :=
  Uses.bind (Uses.perform trivial) fun n => quiet_bootstrapLoop ctx n _

theorem quiet_onLeadershipError (ctx : Bool) (e : Failure) : Uses Quiet (onLeadershipError cfg ctx e) := by
  unfold onLeadershipError
  split
  · exact Uses.pure _
  · refine Uses.bind (quiet_bootstrap ctx) fun r => ?_
    cases r <;> exact Uses.pure _

theorem quiet_heartbeat : Uses Quiet (heartbeat cfg) := by
  refine Uses.bind (Uses.perform trivial) fun client => Uses.bind (Uses.perform trivial) fun id =>
    Uses.bind (Uses.perform trivial) fun running => Uses.bind (Uses.perform trivial) fun r => ?_
  cases r with
  | error e => exact Uses.bind (quiet_onLeadershipError true e) fun _ => Uses.pure _
  | ok ok =>
    cases ok with
    | true => exact Uses.pure _
    | false => exact Uses.bind quiet_register fun _ => Uses.pure _

theorem quiet_execute (taskID : String) (spec : Option TaskSpec) : Uses Quiet (execute taskID spec) := by
  unfold execute
  dsimp only
  split
  · exact Uses.pure _
  · refine Uses.bind (Uses.perform trivial) fun r => ?_
    obtain ⟨buf, err⟩ := r
    cases err <;> exact Uses.pure _

theorem quiet_reportLoop (taskID : String) (o : Outcome) : ∀ n, Uses Quiet (reportLoop cfg taskID o n)
  | 0 => Uses.pure _
  | n + 1 => by
    refine Uses.bind (Uses.perform trivial) fun client => Uses.bind (Uses.perform trivial) fun id =>
      Uses.bind (Uses.perform trivial) fun r => ?_
    cases r with
    | ok u => exact Uses.pure _
    | error e =>
      refine Uses.bind (quiet_onLeadershipError false e) fun handled => ?_
      rcases handled with _ | handled
      · exact Uses.pure _
      · cases handled with
        | true => exact quiet_reportLoop taskID o n
        | false => exact Uses.bind (Uses.perform trivial) fun _ => quiet_reportLoop taskID o n

/-- The duties of the main goroutine between its polls. -/
def BetweenPolls (d : Duty) : Prop := d = .polling .idle ∨ d = .polling (.claiming [])

theorem BetweenPolls.ne_over (h : BetweenPolls d) : d ≠ .over := by
  rcases h with rfl | rfl <;> nofun

theorem shifts_startTask (task : TaskAssignment) (rest : List String) :
    Meets shifts (startTask task) (.polling (.claiming (task.taskId :: rest))) fun _ d => d = .polling (.claiming rest) := by
  refine ⟨⟨rest, rfl⟩, fun ok _ => ?_⟩
  cases ok with
  | true => exact ⟨⟨rest, rfl⟩, fun _ _ => rfl⟩
  | false => exact rfl

/-- Each task of the answer is claimed in turn. -/
theorem shifts_startTasks : ∀ tasks : List TaskAssignment,
    Meets shifts (tasks.forM startTask) (.polling (.claiming (tasks.map TaskAssignment.taskId)))
      fun _ d => d = .polling (.claiming [])
  | [] => rfl
  | task :: tasks => by
    refine Meets.bind (shifts_startTask task (tasks.map TaskAssignment.taskId)) ?_
    rintro _ _ rfl
    exact shifts_startTasks tasks

theorem shifts_poll (h : BetweenPolls d) : Meets shifts (poll cfg) d fun _ d' => BetweenPolls d' := by
  refine (shifts_step .freeCapacity h).bind ?_
  rintro free _ ⟨hfit, rfl⟩
  dsimp only [Duty.next]
  split
  · exact .inl rfl
  · rename_i hfree
    have hfit : (free : Int) < 2 ^ 31 := hfit
    have hfree : (0 : Int) < free := Int.not_le.1 hfree
    have hpos : 0 < (Int32.ofInt free).toInt := by
      rw [Int32.toInt_ofInt_of_le (by omega) hfit]
      omega
    refine ⟨nofun, fun client _ => ⟨nofun, fun id _ => ⟨⟨rfl, hpos⟩, fun r _ => ?_⟩⟩⟩
    cases r with
    | error e =>
      refine (quiet_meets (d := .polling .idle) (quiet_onLeadershipError true e) nofun).bind ?_
      rintro _ _ rfl
      exact .inl rfl
    | ok tasks => exact (shifts_startTasks tasks).bind fun _ _ h => .inr h

theorem shifts_runLoop : ∀ (n : Nat) {d : Duty}, BetweenPolls d → Meets shifts (runLoop cfg n) d fun _ _ => True
  | 0, _, _ => trivial
  | n + 1, d, h => by
    have hselect : Uses Quiet (step .select) := Uses.perform trivial
    refine (quiet_meets hselect h.ne_over).bind ?_
    rintro tick _ rfl
    cases tick with
    | done => trivial
    | heartbeat =>
      refine (quiet_meets quiet_heartbeat h.ne_over).bind ?_
      rintro r _ rfl
      cases r with
      | none => trivial
      | some u => exact shifts_runLoop n h
    | poll =>
      refine (shifts_poll h).bind fun r d' h' => ?_
      cases r with
      | none => trivial
      | some u => exact shifts_runLoop n h'

theorem shifts_main : Meets shifts (main cfg) (.polling .idle) fun _ _ => True := by
  refine (quiet_meets (d := .polling .idle) (quiet_bootstrap true) nofun).bind ?_
  rintro r _ rfl
  cases r with
  | registered => exact ⟨nofun, fun n _ => shifts_runLoop n (.inl rfl)⟩
  | canceled => trivial
  | trying => trivial

theorem shifts_run (task : TaskAssignment) : Meets shifts (run cfg task) (.executing task.taskId) fun _ _ => True := by
  refine (quiet_meets (d := .executing task.taskId) (quiet_execute task.taskId task.spec) nofun).bind ?_
  rintro o _ rfl
  refine (quiet_meets (d := .executing task.taskId) (quiet_reportLoop task.taskId o 5) nofun).bind ?_
  rintro r _ rfl
  cases r with
  | none => trivial
  | some u => exact ⟨rfl, fun _ _ => trivial⟩

end Duties

/-! ## Simulation -/

section Simulation

variable {env : Env} {cfg : Settings} {s : Process} {gs : List Duty} {st : State}

/-- A state of the machine of the slots that the process has come to. -/
structure Mirrors (env : Env) (cfg : Settings) (s : Process) (gs : List Duty) (st : State) : Prop where
  reaches : State.Reaches cfg.toConfig (env.clock 0) st
  agent : st.agent = s.agent
  clock : st.clock ≤ env.clock s.tick
  /-- the first goroutine is the main one -/
  main : ∃ d rest, gs = d :: rest ∧ d.isMain = true ∧ st.poll = d.poll ∧ ∀ d' ∈ rest, d'.isMain = false
  /-- the tasks that run are those whose goroutine has their slot -/
  runs : st.runs.Perm (s.launched.map TaskAssignment.taskId ++ gs.flatMap Duty.slot)

/-- A poll is answered as a scheduler answers it. -/
def PollsServed (env : Env) : Prop := ∀ t a id n tasks, env.reply t a (.pollTask id n) = .ok tasks →
  ∃ node : Scheduler.Env, Yields (Scheduler.handle node) (Scheduler.pollTask node.cfg id n.toInt) (.ok tasks)

theorem PollsServed.length (h : PollsServed env) {t : Nat} {a : Option String} {id : String} {n : Int32}
    {tasks : List TaskAssignment} (hr : env.reply t a (.pollTask id n) = .ok tasks) (hn : 0 < n.toInt) :
    (tasks.length : Int) ≤ n.toInt := by
  obtain ⟨node, hy⟩ := h t a id n tasks hr
  have hlen := Scheduler.pollTask_batch hy
  unfold Scheduler.batchSize at hlen
  rw [if_neg (by omega)] at hlen
  omega

/-- An event of the machine at the time it shows. -/
theorem reaches_happen {c : Config} {t : Int} (h : State.Reaches c t st) {e : Event} {st' : State}
    (he : st.happen e = some st') : State.Reaches c t st' := by
  refine h.step (a := (st.clock, e)) trivial ?_
  simp only [State.step, lt_irrefl, if_false]
  exact he

/-- Between its polls the machine is idle. -/
theorem reaches_idle {c : Config} {t : Int} (h : State.Reaches c t st) (hp : st.poll = .idle ∨ st.poll = .claiming []) :
    State.Reaches c t { st with poll := .idle } := by
  rcases hp with hp | hp
  · rw [← hp]
    exact h
  · refine reaches_happen h (e := .claim) ?_
    simp only [State.happen, hp]

variable {d : Duty} {i : Nat}

/-- The main goroutine takes a step. -/
theorem Mirrors.mainStep (h : Mirrors env cfg s gs st) (hi : gs[i]? = some d) (hd : d.isMain = true) :
    i = 0 ∧ st.poll = d.poll ∧ ∃ rest, gs = d :: rest ∧ (∀ d' ∈ rest, d'.isMain = false) := by
  obtain ⟨d₀, rest, rfl, -, hpoll, hrest⟩ := h.main
  cases i with
  | zero =>
    cases hi
    exact ⟨rfl, hpoll, rest, rfl, hrest⟩
  | succ i =>
    have hmem : d ∈ rest := List.mem_of_getElem? hi
    rw [hrest d hmem] at hd
    cases hd

theorem Mirrors.turn (h : Mirrors env cfg s gs st) (hi : gs[i]? = some d) (hd : d.isMain = true) {d' : Duty}
    (hd' : d'.isMain = true) {s' : Process} {st' : State} (hreaches : State.Reaches cfg.toConfig (env.clock 0) st')
    (hagent : st'.agent = s'.agent) (hclock : st'.clock ≤ env.clock s'.tick) (hpoll : st'.poll = d'.poll)
    (hruns : st'.runs.Perm (s'.launched.map TaskAssignment.taskId ++ (gs.set i d').flatMap Duty.slot)) :
    Mirrors env cfg s' (gs.set i d') st' := by
  obtain ⟨rfl, -, rest, rfl, hrest⟩ := h.mainStep hi hd
  exact ⟨hreaches, hagent, hclock, ⟨d', rest, rfl, hd', hpoll, hrest⟩, hruns⟩

/-- Steps that have nothing to do with slots. -/
theorem Mirrors.later (h : Mirrors env cfg s gs st) (hclock : Monotone env.clock) {s' : Process} (ha : s'.agent = s.agent)
    (hl : s'.launched = s.launched) (ht : s.tick ≤ s'.tick) : Mirrors env cfg s' gs st :=
  ⟨h.reaches, h.agent.trans ha.symm, h.clock.trans (hclock ht), h.main, hl ▸ h.runs⟩

/-- A duty without a slot is exchanged for another. -/
theorem Mirrors.slots_eq (h : Mirrors env cfg s gs st) (hi : gs[i]? = some d) {d' : Duty} (hs : d'.slot = d.slot) :
    st.runs.Perm (s.launched.map TaskAssignment.taskId ++ (gs.set i d').flatMap Duty.slot) := by
  have hset := perm_flatMap_set Duty.slot hi d'
  rw [hs] at hset
  exact h.runs.trans (((List.perm_append_right_iff _).1 hset).symm.append_left _)

/-- The free capacity is read. -/
theorem Mirrors.free (h : Mirrors env cfg s gs st) (hi : gs[i]? = some d) (hd : BetweenPolls d) :
    ∃ st', Mirrors env cfg s (gs.set i (Duty.next .freeCapacity s.agent.freeCapacity d)) st' := by
  have hmain : d.isMain = true := by rcases hd with rfl | rfl <;> rfl
  have hslot : d.slot = [] := by rcases hd with rfl | rfl <;> rfl
  obtain ⟨-, hpoll, -⟩ := h.mainStep hi hmain
  have hidle : State.Reaches cfg.toConfig (env.clock 0) { st with poll := .idle } := by
    refine reaches_idle h.reaches ?_
    rcases hd with rfl | rfl
    · exact .inl hpoll
    · exact .inr hpoll
  have hruns := h.slots_eq hi (show (Duty.next .freeCapacity s.agent.freeCapacity d).slot = d.slot by rw [hslot]; rfl)
  by_cases hfree : s.agent.freeCapacity ≤ 0
  · refine ⟨{ st with poll := .idle }, h.turn hi hmain rfl hidle h.agent h.clock ?_ hruns⟩
    simp [Duty.next, Duty.poll, hfree]
  · refine ⟨{ st with poll := .asked (Int32.ofInt s.agent.freeCapacity) }, h.turn hi hmain rfl ?_ h.agent h.clock ?_ hruns⟩
    · refine reaches_happen hidle (e := .poll) ?_
      simp only [State.happen, h.agent, hfree, if_false]
    · simp [Duty.next, Duty.poll, hfree]

/-- The call of a poll returns. -/
theorem Mirrors.answered (h : Mirrors env cfg s gs st) (hi : gs[i]? = some d) {n : Int32} (hd : d = .polling (.asked n))
    {r : Except Failure (List TaskAssignment)} (hr : ∀ tasks, r = .ok tasks → (tasks.length : Int) ≤ n.toInt)
    (a : Option String) (id : String) :
    ∃ st', Mirrors env cfg s (gs.set i (Duty.next (.call a (.pollTask id n)) r d)) st' := by
  subst hd
  obtain ⟨-, hpoll, -⟩ := h.mainStep hi rfl
  have hpoll : st.poll = .asked n := hpoll
  cases r with
  | error e =>
    refine ⟨{ st with poll := .idle }, h.turn hi rfl rfl ?_ h.agent h.clock rfl (h.slots_eq hi rfl)⟩
    refine reaches_happen h.reaches (e := .fail) ?_
    simp only [State.happen, hpoll]
  | ok tasks =>
    have hlen : ((tasks.map TaskAssignment.taskId).length : Int) ≤ n.toInt := by
      rw [List.length_map]
      exact hr tasks rfl
    refine ⟨{ st with poll := .claiming (tasks.map TaskAssignment.taskId) },
      h.turn hi rfl rfl ?_ h.agent h.clock rfl (h.slots_eq hi rfl)⟩
    refine reaches_happen h.reaches (e := .answer (tasks.map TaskAssignment.taskId)) ?_
    simp only [State.happen, hpoll, hlen, if_true]

/-- A slot is claimed for a task, or refused. -/
theorem Mirrors.claim (h : Mirrors env cfg s gs st) {id : String} {rest : List String}
    (hi : gs[i]? = some (.polling (.claiming (id :: rest)))) :
    ∃ st', Mirrors env cfg { s with agent := (s.agent.tryStart id).1 }
      (gs.set i (Duty.next (.tryStart id) (s.agent.tryStart id).2 (.polling (.claiming (id :: rest))))) st' := by
  obtain ⟨-, hpoll, -⟩ := h.mainStep hi rfl
  have hpoll : st.poll = .claiming (id :: rest) := hpoll
  cases hok : (s.agent.tryStart id).2 with
  | true =>
    have htake := perm_set_take Duty.slot (.starting id rest) hi rfl rfl
    refine ⟨{ st with
      agent := (s.agent.tryStart id).1, poll := .claiming rest, runs := id :: st.runs,
      history := (st.clock, .started id) :: st.history }, h.turn hi rfl rfl ?_ rfl h.clock rfl ?_⟩
    · refine reaches_happen h.reaches (e := .claim) ?_
      simp only [State.happen, hpoll, h.agent, hok, if_true]
    · exact (h.runs.cons id).trans (List.perm_middle.symm.trans (htake.symm.append_left _))
  | false =>
    refine ⟨{ st with agent := (s.agent.tryStart id).1, poll := .claiming rest },
      h.turn hi rfl rfl ?_ rfl h.clock rfl (h.slots_eq hi rfl)⟩
    refine reaches_happen h.reaches (e := .claim) ?_
    simp only [State.happen, hpoll, h.agent, hok, Bool.false_eq_true, if_false]

/-- The goroutine of a task is started. -/
theorem Mirrors.goRun (h : Mirrors env cfg s gs st) {task : TaskAssignment} {rest : List String}
    (hi : gs[i]? = some (.starting task.taskId rest)) :
    Mirrors env cfg { s with launched := task :: s.launched } (gs.set i (.polling (.claiming rest))) st := by
  obtain ⟨-, hpoll, -⟩ := h.mainStep hi rfl
  have hgive := perm_set_give Duty.slot (.polling (.claiming rest)) hi rfl rfl
  refine h.turn hi rfl rfl h.reaches h.agent h.clock hpoll ?_
  exact h.runs.trans ((hgive.append_left _).trans List.perm_middle)

/-- A task gives its slot back. -/
theorem Mirrors.finish (h : Mirrors env cfg s gs st) {id : String} (hi : gs[i]? = some (.executing id)) :
    ∃ st', Mirrors env cfg { s with agent := s.agent.finish id (env.clock s.tick) } (gs.set i .over) st' := by
  have hgive := perm_set_give Duty.slot .over hi rfl rfl
  have hruns : st.runs.Perm (id :: (s.launched.map TaskAssignment.taskId ++ (gs.set i .over).flatMap Duty.slot)) :=
    h.runs.trans ((hgive.append_left _).trans List.perm_middle)
  have hmem : id ∈ st.runs := hruns.mem_iff.2 (List.mem_cons_self)
  refine ⟨{ st with
    clock := env.clock s.tick, agent := st.agent.finish id (env.clock s.tick), runs := st.runs.erase id,
    history := (env.clock s.tick, .finished id) :: st.history }, ?_, ?_, le_rfl, ?_, ?_⟩
  · refine h.reaches.step (a := (env.clock s.tick, .finish id)) trivial ?_
    simp only [State.step, State.happen, Int.not_lt.2 h.clock, if_false, hmem, if_true]
  · rw [h.agent]
  · obtain ⟨d, rest, rfl, hd, hpoll, hrest⟩ := h.main
    cases i with
    | zero =>
      cases hi
      cases hd
    | succ i =>
      refine ⟨d, rest.set i .over, rfl, hd, hpoll, fun d' hd' => ?_⟩
      rcases List.mem_or_eq_of_mem_set hd' with hd' | rfl
      · exact hrest d' hd'
      · rfl
  · have herase := hruns.erase id
    rwa [List.erase_cons_head] at herase

/-- The goroutine of a task that was started takes over its slot. -/
theorem Mirrors.begin (h : Mirrors env cfg s gs st) {task : TaskAssignment} (ht : task ∈ s.launched) :
    Mirrors env cfg { s with launched := s.launched.erase task } (gs ++ [.executing task.taskId]) st := by
  refine ⟨h.reaches, h.agent, h.clock, ?_, ?_⟩
  · obtain ⟨d, rest, rfl, hd, hpoll, hrest⟩ := h.main
    refine ⟨d, rest ++ [.executing task.taskId], rfl, hd, hpoll, ?_⟩
    exact List.forall_mem_append.2 ⟨hrest, List.forall_mem_singleton.2 rfl⟩
  · have hlaunched : (s.launched.map TaskAssignment.taskId).Perm
        (task.taskId :: (s.launched.erase task).map TaskAssignment.taskId) := (List.perm_cons_erase ht).map _
    rw [List.flatMap_append]
    refine h.runs.trans ((hlaunched.append_right _).trans ?_)
    rw [← List.append_assoc]
    exact (List.perm_append_singleton _ _).symm

theorem inductive_mirrors (hclock : Monotone env.clock) (hserved : PollsServed env) :
    Pool.Inductive (handle env) shifts (fun _ _ _ _ => True) fun s gs => ∃ st, Mirrors env cfg s gs st := by
  rintro a d gs s i hi ⟨st, h⟩ hperm -
  have htick : s.tick ≤ s.tick + 1 := Nat.le_succ _
  have hquiet : ∀ {s' : Process}, s'.agent = s.agent → s'.launched = s.launched → s'.tick = s.tick + 1 →
      ∃ st, Mirrors env cfg s' (gs.set i d) st := by
    intro s' ha hl ht
    rw [Pool.set_self hi]
    exact ⟨st, h.later hclock ha hl (htick.trans_eq ht.symm)⟩
  cases a with
  | freeCapacity =>
    have hfit := Int32.toInt_lt s.agent.cfg.capacity
    refine ⟨?_, ?_⟩
    · show s.agent.freeCapacity < 2 ^ 31
      unfold Agent.freeCapacity
      omega
    · obtain ⟨st', h'⟩ := h.free hi hperm
      exact ⟨st', h'.later hclock rfl rfl htick⟩
  | call client c =>
    cases c with
    | pollTask id n =>
      obtain ⟨hd, hpos⟩ := hperm
      obtain ⟨st', h'⟩ := h.answered hi hd (fun tasks hr => hserved.length (t := s.tick) (a := client) hr hpos) client id
      exact ⟨trivial, st', h'.later hclock rfl rfl htick⟩
    | registerWorker | heartbeat | reportTask => exact ⟨trivial, hquiet rfl rfl rfl⟩
  | tryStart id =>
    obtain ⟨rest, rfl⟩ := hperm
    obtain ⟨st', h'⟩ := h.claim hi
    exact ⟨trivial, st', h'.later hclock rfl rfl htick⟩
  | goRun task =>
    obtain ⟨rest, rfl⟩ := hperm
    exact ⟨trivial, st, (h.goRun hi).later hclock rfl rfl htick⟩
  | finish id =>
    obtain rfl : d = .executing id := hperm
    obtain ⟨st', h'⟩ := h.finish hi
    exact ⟨trivial, st', h'.later hclock rfl rfl htick⟩
  | newClient | getClusterStatus | connect | workerClient | currentWorkerID | setWorkerID | runningTaskIDs | command
  | select | wait | turns => exact ⟨trivial, hquiet rfl rfl rfl⟩

theorem runs_mirror (hclock : Monotone env.clock) (hserved : PollsServed env) {c : Goroutines} (hr : Runs env cfg c) :
    Pool.Tracked shifts (fun s gs => ∃ st, Mirrors env cfg s gs st) (fun _ _ => True) c := by
  induction hr with
  | launch =>
    have hnew : Mirrors env cfg (launch cfg).state [.polling .idle] (.new cfg.toConfig (env.clock 0)) :=
      ⟨.refl, rfl, le_rfl, ⟨_, [], rfl, rfl, rfl, nofun⟩, .refl _⟩
    refine ⟨[.polling .idle], ⟨_, hnew⟩, rfl, fun i t g ht hg => ?_⟩
    cases i with
    | zero =>
      cases ht
      cases hg
      exact shifts_main
    | succ i => cases ht
  | step _ hs ih => exact ih.step (inductive_mirrors hclock hserved) (fun _ _ _ _ _ _ _ _ => trivial) hs
  | @begin c task _ ht ih =>
    exact ih.enter () (fun gs ⟨st, h⟩ => ⟨st, h.begin ht⟩) (shifts_run task)

/-- Whatever order the goroutines of an agent take their steps in, its slots are those of a run of the machine. So there are
never more tasks in them than the agent has capacity for, and every goroutine that was started has a slot of its own. -/
theorem goroutines_refine (hclock : Monotone env.clock) (hserved : PollsServed env) {c : Goroutines} (hr : Runs env cfg c) :
    (∃ st, State.Reaches cfg.toConfig (env.clock 0) st ∧ st.agent = c.state.agent) ∧
    (c.state.agent.running.card : Int) ≤ cfg.toConfig.withDefaults.capacity.toInt ∧
    (c.state.launched.map TaskAssignment.taskId).Nodup ∧
    ∀ task ∈ c.state.launched, task.taskId ∈ c.state.agent.running := by
  obtain ⟨gs, ⟨st, h⟩, -⟩ := runs_mirror hclock hserved hr
  have hadmits : st.Admits cfg.toConfig := State.admits_of_reaches h.reaches
  have hslots := hadmits.slots
  have hpromised := hadmits.promised
  have hnodup := (h.runs.nodup_iff.1 hadmits.runs_nodup).of_append_left
  rw [← h.agent]
  refine ⟨⟨st, h.reaches, rfl⟩, by omega, hnodup, fun task ht => ?_⟩
  refine (hadmits.runs_iff _).1 (h.runs.mem_iff.2 (List.mem_append_left _ ?_))
  exact List.mem_map_of_mem ht

end Simulation

end Distsched.Worker
