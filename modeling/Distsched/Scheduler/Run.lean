/-
Runs of one scheduler node in which every handler is a single step: client and worker requests,
timer firings, reaper sweeps, the rebuild on gaining leadership, and crashes in the middle of any
of these, each followed by a new process on the same store.
-/
import Distsched.Scheduler.Handlers
import Mathlib.Data.Int.ConditionallyCompleteOrder
import Mathlib.Order.ConditionallyCompleteLattice.Indexed
import Mathlib.Order.Lattice.Nat

namespace Distsched.Scheduler

/-- One activity of the node. -/
inductive Call
  | submitJob (job : Option Job)
  | cancelJob (jobID : String)
  | pollTask (workerID : String) (maxTasks : Int)
  | reportTask (taskID : String) (result : TaskResult) (error : String)
  | registerWorker (worker : Option WorkerInfo)
  | heartbeat (workerID : String) (runningTasks : Nat)
  | timer (jobID : String)
  | reaper
  | becomeLeader

/-- The program an activity runs, without its response. -/
def Call.prog (cfg : Config) (parseStandard : Cron) : Call → M Unit
  | .submitJob job => do let _ ← Scheduler.submitJob cfg parseStandard job
  | .cancelJob jobID => do let _ ← Scheduler.cancelJob cfg jobID
  | .pollTask workerID maxTasks => do let _ ← Scheduler.pollTask cfg workerID maxTasks
  | .reportTask taskID result error => do let _ ← Scheduler.reportTask cfg parseStandard taskID result error
  | .registerWorker worker => do let _ ← Scheduler.registerWorker cfg worker
  | .heartbeat workerID runningTasks => do let _ ← Scheduler.heartbeat cfg workerID runningTasks
  | .timer jobID => timerFired jobID
  | .reaper => reaperTick cfg parseStandard
  | .becomeLeader => onBecomeLeader parseStandard

/-- A timer fires only while it is armed. -/
def Call.enabled (s : Server) : Call → Bool
  | .timer jobID => jobID ∈ s.retryTimers
  | _ => true

/-- The ID under which a submission is stored. -/
def submitID (env : Env) (minted : Nat) (j : Job) : String :=
  if j.id = "" then "job" ++ "-" ++ env.uuid minted else j.id

/-- The job stored under `x` lists `d` as a dependency. -/
def DependsOn (s : Server) (x d : String) : Prop := ∃ j, s.store.jobs.get x = some j ∧ d ∈ j.dependsOn

/-- A process that has not started yet. -/
def Server.off (store : Store) (tick minted : Nat) : Server where
  store := store
  queue := .empty
  leases := ∅
  retryTimers := ∅
  revIndex := ∅
  workers := ∅
  repl := {}
  node := {}
  closed := false
  tick := tick
  minted := minted

/-- A new process on the store of an old one. -/
def Server.fresh (s : Server) : Server := .off s.store s.tick s.minted

/-- An activity of the node that runs to its end, or one broken off by a crash after a number of
operations. A crash is followed by the starts listed in `aborted`, each broken off in turn, and then by
one that completes; `node` is the election state with which the new process leads. -/
inductive Event
  | call (c : Call)
  | crash (c : Call) (ops : Nat) (aborted : List (Cluster.Node × Nat)) (node : Cluster.Node)

/-- The activity of an event, whether it ends or not. -/
def Event.activity : Event → Call
  | .call c => c
  | .crash c .. => c

/-- A timer fires no earlier than it is due. -/
def NotEarly (env : Env) (s : Server) (ev : Event) : Prop :=
  ∀ x t, ev.activity = .timer x → s.retryTimers[x]? = some t → t ≤ env.clock s.tick

/-- A place in the store that holds nothing. -/
def Vacant (o : Option Job) : Prop := o = none

/-- A place in the store that holds no final record. -/
def Unfinished (o : Option Job) : Prop := ∀ j, o = some j → terminal j.state = false

/-- Every submission goes to an ID whose stored record, if any, `free` allows to be replaced. -/
def SubmitsWhere (free : Option Job → Prop) (env : Env) (s : Server) (ev : Event) : Prop :=
  ∀ job, ev.activity = .submitJob (some job) → free (s.store.jobs.get (submitID env s.minted job))

section

variable (env : Env) (parseStandard : Cron)

/-- Starts a new process on the store of `s`. -/
def restart (node : Cluster.Node) (s : Server) : Server :=
  (Prog.exec (handle env) (boot parseStandard node) s.fresh).2

/-- The store, and the counters, after a start broken off. -/
def abortedStart (s : Server) (a : Cluster.Node × Nat) : Server :=
  Prog.execFor (handle env) a.2 (boot parseStandard a.1) s.fresh

/-- What a crash in the middle of an activity, and the starts broken off after it, leave behind. -/
def crashed (s : Server) (c : Call) (ops : Nat) (aborted : List (Cluster.Node × Nat)) : Server :=
  aborted.foldl (abortedStart env parseStandard) (Prog.execFor (handle env) ops (c.prog env.cfg parseStandard) s)

/-- The state after an activity has run alone. -/
def after (s : Server) (c : Call) : Server := (Prog.exec (handle env) (c.prog env.cfg parseStandard) s).2

def step (s : Server) : Event → Option Server
  | .call c => if c.enabled s then some (after env parseStandard s c) else none
  | .crash c ops aborted node =>
    if c.enabled s ∧ node.isLeader then
      some (restart env parseStandard node (crashed env parseStandard s c ops aborted))
    else none

/-- The operations of the activity of an event, up to the crash if there is one, each with the state it finds. -/
def Event.ops (s : Server) : Event → List (Op × Server)
  | .call c => Prog.trace (handle env) (c.prog env.cfg parseStandard) s
  | .crash c ops .. => (Prog.trace (handle env) (c.prog env.cfg parseStandard) s).take ops

/-- The states of the runs from `s₀` whose events all meet a condition on the state before them. -/
inductive Runs (ok : Server → Event → Prop) (s₀ : Server) : Server → Prop
  | refl : Runs ok s₀ s₀
  | step {s s' : Server} {ev : Event} : Runs ok s₀ s → ok s ev → Scheduler.step env parseStandard s ev = some s' →
    Runs ok s₀ s'

/-- The activities can take place one after the other. -/
def enabledAll : Server → List Call → Bool
  | _, [] => true
  | s, c :: cs => c.enabled s && enabledAll (after env parseStandard s c) cs

/-- The activities can take place one after the other, each where `fits` allows it. -/
def fittingAll (fits : Server → Call → Bool) : Server → List Call → Bool
  | _, [] => true
  | s, c :: cs => c.enabled s && fits s c && fittingAll fits (after env parseStandard s c) cs

/-- The node started on a store of any content. -/
def started (store : Store) (node : Cluster.Node) : Server := restart env parseStandard node (.off store 0 0)

variable {env parseStandard}

theorem Runs.mono {ok ok' : Server → Event → Prop} {s₀ s : Server} (hok : ∀ s ev, ok s ev → ok' s ev)
    (h : Runs env parseStandard ok s₀ s) : Runs env parseStandard ok' s₀ s := by
  induction h with
  | refl => exact .refl
  | step _ hev hstep ih => exact ih.step (hok _ _ hev) hstep

theorem Runs.trans {ok : Server → Event → Prop} {s₀ s s' : Server} (h : Runs env parseStandard ok s₀ s)
    (h' : Runs env parseStandard ok s s') : Runs env parseStandard ok s₀ s' := by
  induction h' with
  | refl => exact h
  | step _ hev hstep ih => exact ih.step hev hstep

theorem Runs.call {ok : Server → Event → Prop} {s₀ s : Server} {c : Call} (h : Runs env parseStandard ok s₀ s)
    (hok : ok s (.call c)) (hc : c.enabled s = true) : Runs env parseStandard ok s₀ (after env parseStandard s c) :=
  h.step hok (if_pos hc)

theorem Runs.calls {s₀ : Server} : ∀ {cs : List Call} {s : Server}, Runs env parseStandard (fun _ _ => True) s₀ s →
    enabledAll env parseStandard s cs = true →
    Runs env parseStandard (fun _ _ => True) s₀ (cs.foldl (after env parseStandard) s)
  | [], _, h, _ => h
  | c :: cs, _, h, he => by
    obtain ⟨hc, hcs⟩ := Bool.and_eq_true_iff.1 he
    exact (h.call trivial hc).calls hcs

/-- A run of given activities, each of which is checked where it takes place. -/
theorem Runs.fitting {ok : Server → Event → Prop} {fits : Server → Call → Bool} {s₀ : Server}
    (hok : ∀ s c, fits s c = true → ok s (.call c)) : ∀ {cs : List Call} {s : Server}, Runs env parseStandard ok s₀ s →
    fittingAll env parseStandard fits s cs = true → Runs env parseStandard ok s₀ (cs.foldl (after env parseStandard) s)
  | [], _, h, _ => h
  | c :: cs, _, h, hf => by
    simp only [fittingAll, Bool.and_eq_true] at hf
    obtain ⟨⟨hc, hfit⟩, hcs⟩ := hf
    exact (h.call (hok _ c hfit) hc).fitting hok hcs

end

section Honours

variable {env : Env} {parseStandard : Cron} {γ : Type} {P : Prog.Protocol Op Op.Resp γ} {A : γ → Server → Prop}
  {R : Server → Server → Prop} (hh : Prog.Honours (handle env) P A R) {s s' : Server} {ev : Event} {g : γ}

include hh

/-- What the operations of a start do to the state, starts broken off do as well. -/
theorem abortedStarts_honour (hfresh : ∀ s, R s s.fresh)
    (hboot : ∀ s₁ node, R s s₁ → ∃ g₁, A g₁ s₁.fresh ∧ Prog.Meets P (boot parseStandard node) g₁ fun _ _ => True) :
    ∀ (l : List (Cluster.Node × Nat)) (s₁ : Server), R s s₁ → R s (l.foldl (abortedStart env parseStandard) s₁)
  | [], _, h => h
  | a :: l, s₁, h₁ => by
    obtain ⟨g₁, hg₁, hmeets⟩ := hboot s₁ a.1 h₁
    refine abortedStarts_honour hfresh hboot l _ ?_
    exact hh.trans _ _ _ h₁ (hh.trans _ _ _ (hfresh s₁) (hmeets.execFor hh hg₁))

/-- What the operations of a handler that keeps to a protocol do to the state, a step of the node does, crashes and
starts broken off included. What holds at the end of every handler holds after the step. -/
theorem step_honours_to {Q : γ → Prop} (hfresh : ∀ s, R s s.fresh) (hg : A g s)
    (hcall : Prog.Meets P (ev.activity.prog env.cfg parseStandard) g fun _ => Q)
    (hboot : ∀ s₁ node, R s s₁ → ∃ g₁, A g₁ s₁.fresh ∧ Prog.Meets P (boot parseStandard node) g₁ fun _ => Q)
    (h : step env parseStandard s ev = some s') : (∃ g', A g' s' ∧ Q g') ∧ R s s' := by
  cases ev with
  | call c =>
    obtain ⟨_, ⟨⟩⟩ := Option.ite_none_right_eq_some.1 h
    exact Prog.Meets.exec hh hcall hg
  | crash c ops aborted node =>
    obtain ⟨_, ⟨⟩⟩ := Option.ite_none_right_eq_some.1 h
    -- the writes made before the crash, those of each start broken off, and those of the last start
    have hcrash : R s (crashed env parseStandard s c ops aborted) := by
      refine abortedStarts_honour hh hfresh (fun s₁ node h₁ => ?_) aborted _ (hcall.execFor hh hg)
      obtain ⟨g₁, hg₁, hmeets⟩ := hboot s₁ node h₁
      exact ⟨g₁, hg₁, hmeets.mono fun _ _ _ => trivial⟩
    obtain ⟨g₁, hg₁, hmeets⟩ := hboot _ node hcrash
    obtain ⟨hend, hR⟩ := hmeets.exec hh hg₁
    exact ⟨hend, hh.trans _ _ _ hcrash (hh.trans _ _ _ (hfresh _) hR)⟩

theorem step_honours (hfresh : ∀ s, R s s.fresh) (hg : A g s)
    (hcall : Prog.Meets P (ev.activity.prog env.cfg parseStandard) g fun _ _ => True)
    (hboot : ∀ s₁ node, R s s₁ → ∃ g₁, A g₁ s₁.fresh ∧ Prog.Meets P (boot parseStandard node) g₁ fun _ _ => True)
    (h : step env parseStandard s ev = some s') : (∃ g', A g' s') ∧ R s s' := by
  obtain ⟨⟨g', hg', -⟩, hR⟩ := step_honours_to hh (Q := fun _ => True) hfresh hg hcall hboot h
  exact ⟨⟨g', hg'⟩, hR⟩

end Honours

/-! ## An environment -/

def Store.empty : Store := ⟨.empty, .empty, .empty⟩

/-- Time stands still, the store works, map iteration follows the keys, and the `n`-th UUID has `n` characters. -/
def Env.steady : Env where
  cfg := .defaults
  clock := fun _ => 0
  zone := "UTC"
  float64 := fun _ => ⟨0, 0⟩
  uuid := fun n => String.ofList (List.replicate n 'u')
  fails := fun _ => none
  order := fun _ l => l
  order_perm := fun _ _ => .refl _
  slack := fun _ => 0

/-- The same, except that some of the operations fail if they are store calls. -/
def Env.failing (p : Nat → Bool) : Env := { Env.steady with fails := fun t => if p t then some "disk full" else none }

/-- The same, except that every operation takes the given time. -/
def Env.paced (step : Int) : Env := { Env.steady with clock := fun n => n * step }

/-- Every operation takes half a second. -/
def Env.ticking : Env := .paced 500000000

theorem monotone_ticking : Monotone Env.ticking.clock := by
  intro a b hab
  simp only [Env.ticking, Env.paced]
  omega

/-- The same, except that after some operations the clock stands at `t`. -/
def Env.leaping (ops : Nat) (t : Int) : Env := { Env.steady with clock := fun n => if n < ops then 0 else t }

/-- A parser that accepts no expression. -/
def noCron : Cron := fun _ => .error "no cron"

/-- The election state of a node that leads. -/
def leading : Cluster.Node := { role := .leader, currentTerm := 1 }

/-- A new process that leads. -/
def newLeader : Server := started .steady noCron .empty leading

/-- The request to run a command under the given ID. -/
def jobRequest (id : String) (dependsOn : List String) : Option Job :=
  some { id := id, spec := some { command := "true" }, dependsOn := dependsOn }

def submitting (id : String) (dependsOn : List String) : Call := .submitJob (jobRequest id dependsOn)

/-- The state after some activities of a node started on an empty store. -/
def served (cs : List Call) : Server := cs.foldl (after .steady noCron) newLeader

/-- A worker registers, and a job is submitted. -/
def lodged : Server := served [.registerWorker (some { id := "w" }), submitting "a" []]

/-- A worker registers, a job is submitted and the worker polls. -/
def polled : Server := served [.registerWorker (some { id := "w" }), submitting "a" [], .pollTask "w" 1]

end Distsched.Scheduler
