/-
What the scheduler is for, without its storage and its queues: a board of jobs, of the jobs ready or
armed to run, of the leases handed out and of who waits on whom. A labelled transition relation says
which moves may be made on the board; the handlers of a node are sequences of such moves.
-/
import Distsched.Scheduler.Server
import Mathlib.Data.Set.Insert
import Mathlib.Tactic.Simps.Basic
import Mathlib.Logic.Function.Basic
import Mathlib.Logic.Relation

namespace Distsched.Lifecycle

open Scheduler (Lease)

/-! ## The board -/

@[ext] structure Board where
  jobs : String → Option Job
  /-- The jobs in the ready queue. -/
  ready : Set String
  /-- The jobs with an armed timer. -/
  timers : Set String
  leases : String → Option Lease
  /-- The jobs recorded as waiting on a dependency. -/
  waits : String → Set String
  /-- The task IDs that can have been drawn so far. -/
  issued : Set String
  /-- The UUIDs drawn so far. -/
  minted : Nat

/-- What a submission fixes for the rest of a job's life. -/
def plan (j : Job) : Job :=
  { j with
    state := .unspecified, attempt := 0, assignedWorkerId := "", lastError := "", updatedAt := none,
    scheduledAt := none, startedAt := none, finishedAt := none }

theorem id_of_plan {j j' : Job} (h : plan j' = plan j) : j'.id = j.id := by
  have : (plan j').id = (plan j).id := by rw [h]
  exact this

theorem dependsOn_of_plan {j j' : Job} (h : plan j' = plan j) : j'.dependsOn = j.dependsOn := by
  have : (plan j').dependsOn = (plan j).dependsOn := by rw [h]
  exact this

theorem retryPolicy_of_plan {j j' : Job} (h : plan j' = plan j) : j'.retryPolicy = j.retryPolicy := by
  have : (plan j').retryPolicy = (plan j).retryPolicy := by rw [h]
  exact this

theorem cronExpr_of_plan {j j' : Job} (h : plan j' = plan j) : j'.cronExpr = j.cronExpr := by
  have : (plan j').cronExpr = (plan j).cronExpr := by rw [h]
  exact this

namespace Board

@[simps] def put (b : Board) (j : Job) : Board := { b with jobs := Function.update b.jobs j.id (some j) }
@[simps] def push (b : Board) (x : String) : Board := { b with ready := insert x b.ready }
@[simps] def unready (b : Board) (x : String) : Board := { b with ready := b.ready \ {x} }
@[simps] def arm (b : Board) (x : String) : Board := { b with timers := insert x b.timers }
@[simps] def unarm (b : Board) (x : String) : Board := { b with timers := b.timers \ {x} }
@[simps] def lease (b : Board) (l : Lease) : Board := { b with leases := Function.update b.leases l.taskID (some l) }
@[simps] def unlease (b : Board) (τ : String) : Board := { b with leases := Function.update b.leases τ none }
@[simps] def park (b : Board) (j : Job) : Board :=
  { b with waits := fun d => if d ∈ j.dependsOn then insert j.id (b.waits d) else b.waits d }
@[simps] def draw (b : Board) (τ : String) : Board :=
  { b with issued := insert τ b.issued, minted := b.minted + 1 }
@[simps] def unpark (b : Board) (x : String) : Board := { b with waits := fun d => b.waits d \ {x} }

/-- `b` without its queue, timers, leases and records of who waits. -/
@[simps] def cleared (b : Board) : Board := { b with ready := ∅, timers := ∅, leases := fun _ => none, waits := fun _ => ∅ }

/-- Every dependency of the job is stored SUCCEEDED. -/
def Met (b : Board) (j : Job) : Prop := ∀ d ∈ j.dependsOn, ∃ jd, b.jobs d = some jd ∧ jd.state = .succeeded

/-- The job stored under `y` lists `d`. -/
def Lists (b : Board) (y d : String) : Prop := ∃ j, b.jobs y = some j ∧ d ∈ j.dependsOn

/-- `b'` is `b` with the job in the ready queue or armed. -/
def Scheduled (b : Board) (x : String) (b' : Board) : Prop := b' = b.push x ∨ b' = b.arm x

/-- `b` after the lease of an attempt is given back, if the attempt had one. -/
def yield (b : Board) : Option String → Board
  | none => b
  | some τ => b.unlease τ

/-- The attempt runs under a lease on the job, unless its lease is lost. -/
def Via (b : Board) (x : String) (via : Option String) : Prop :=
  ∀ τ, via = some τ → ∃ l, b.leases τ = some l ∧ l.jobID = x


theorem mem_park {b : Board} {j : Job} {d y : String} :
    y ∈ (b.park j).waits d ↔ (d ∈ j.dependsOn ∧ y = j.id) ∨ y ∈ b.waits d := by
  rw [park_waits]
  by_cases hd : d ∈ j.dependsOn <;> simp [hd]

@[simp] theorem yield_jobs (b : Board) (via : Option String) : (b.yield via).jobs = b.jobs := by cases via <;> rfl
@[simp] theorem yield_issued (b : Board) (via : Option String) : (b.yield via).issued = b.issued := by cases via <;> rfl
@[simp] theorem yield_waits (b : Board) (via : Option String) : (b.yield via).waits = b.waits := by cases via <;> rfl

theorem yield_leases (b : Board) (via : Option String) (τ : String) :
    (b.yield via).leases τ = if via = some τ then none else b.leases τ := by
  cases via with
  | none => rfl
  | some τ' =>
    rw [yield, unlease_leases, Function.update_apply]
    simp only [Option.some.injEq, eq_comm]

theorem Scheduled.jobs {b b' : Board} {x : String} (h : b.Scheduled x b') : b'.jobs = b.jobs := by
  rcases h with rfl | rfl <;> rfl

theorem Scheduled.waits {b b' : Board} {x : String} (h : b.Scheduled x b') : b'.waits = b.waits := by
  rcases h with rfl | rfl <;> rfl

theorem Scheduled.issued {b b' : Board} {x : String} (h : b.Scheduled x b') : b'.issued = b.issued := by
  rcases h with rfl | rfl <;> rfl

theorem Scheduled.leases {b b' : Board} {x : String} (h : b.Scheduled x b') : b'.leases = b.leases := by
  rcases h with rfl | rfl <;> rfl

end Board

/-! ## Moves -/

inductive Label
  | place (x : String)
  | promote (x : String)
  | cancel (x : String)
  | forget (x : String)
  | dispatch (x τ : String)
  | discard (x : String)
  | succeed (x τ : String)
  | requeue (x : String) (via : Option String)
  | bury (x : String) (via : Option String)
  | release (τ : String)
  | fire (x : String)
  | record (x : String)
  | enqueue (x : String)
  | draw (τ : String)
  deriving DecidableEq

inductive Move : Label → Board → Board → Prop
  /-- A submission whose dependency has failed. -/
  | reject {b : Board} {j : Job} : j.state = .canceled → Move (.place j.id) b (b.put j)
  /-- A submission that waits for its dependencies. -/
  | park {b : Board} {j : Job} : j.state = .pending → ¬ b.Met j → Move (.place j.id) b ((b.put j).park j)
  /-- A submission that can run at once, or at its fire time. -/
  | accept {b b' : Board} {j : Job} : j.state = .queued → b.Met j → (b.put j).Scheduled j.id b' →
    Move (.place j.id) b b'
  | promote {b b' : Board} {j j' : Job} : b.jobs j.id = some j → j.state = .pending → b.Met j → plan j' = plan j →
    j'.state = .queued → (b.put j').Scheduled j.id b' → Move (.promote j.id) b (b'.unpark j.id)
  | cancel {b : Board} {j j' : Job} : b.jobs j.id = some j → terminal j.state = false → plan j' = plan j →
    j'.state = .canceled → Move (.cancel j.id) b ((b.put j').unready j.id)
  /-- A job that is missing or final waits on nothing. -/
  | forget {b : Board} {x : String} : (∀ j, b.jobs x = some j → terminal j.state = true) →
    Move (.forget x) b (b.unpark x)
  | dispatch {b : Board} {j j' : Job} {l : Lease} : j.id ∈ b.ready → b.jobs j.id = some j → j.state = .queued →
    plan j' = plan j → j'.state = .running → l.taskID ∉ b.issued → b.leases l.taskID = none → l.jobID = j.id →
    l.attempt = j'.attempt → l.workerID = j'.assignedWorkerId →
    Move (.dispatch j.id l.taskID) b ((((b.draw l.taskID).unready j.id).put j').lease l)
  /-- A stale entry of the ready queue is dropped. -/
  | discard {b : Board} {x : String} : (∀ j, b.jobs x = some j → j.state ≠ .queued) →
    Move (.discard x) b (b.unready x)
  | succeed {b : Board} {j j' : Job} {l : Lease} {τ : String} : b.jobs j.id = some j → j.state = .running →
    b.leases τ = some l → l.jobID = j.id → plan j' = plan j → j'.state = .succeeded →
    Move (.succeed j.id τ) b (((b.unlease τ).put j').unpark j.id)
  /-- A retry, or the next occurrence of a cron job. -/
  | requeue {b b' : Board} {j j' : Job} {via : Option String} : b.jobs j.id = some j → j.state = .running →
    b.Via j.id via → plan j' = plan j → j'.state = .queued → ((b.yield via).put j').Scheduled j.id b' →
    Move (.requeue j.id via) b b'
  | bury {b : Board} {j j' : Job} {via : Option String} : b.jobs j.id = some j → j.state = .running →
    b.Via j.id via → plan j' = plan j → j'.state = .failed →
    Move (.bury j.id via) b (((b.yield via).put j').unpark j.id)
  /-- A lease is dropped when its job is not RUNNING. -/
  | release {b : Board} {τ : String} :
    (∀ l j, b.leases τ = some l → b.jobs l.jobID = some j → j.state ≠ .running) → Move (.release τ) b (b.unlease τ)
  | fire {b : Board} {x : String} {j : Job} : b.jobs x = some j → j.state = .queued →
    Move (.fire x) b ((b.unarm x).push x)
  | fizzle {b : Board} {x : String} : (∀ j, b.jobs x = some j → j.state ≠ .queued) → Move (.fire x) b (b.unarm x)
  /-- On a rebuild, the dependencies of an unfinished job are recorded. -/
  | record {b : Board} {j : Job} : b.jobs j.id = some j → terminal j.state = false →
    Move (.record j.id) b (b.park j)
  /-- On a rebuild, a QUEUED job is scheduled. -/
  | enqueue {b b' : Board} {j : Job} : b.jobs j.id = some j → j.state = .queued → b.Scheduled j.id b' →
    Move (.enqueue j.id) b b'
  /-- An ID is drawn for something else than a task. -/
  | draw {b : Board} {τ : String} : Move (.draw τ) b (b.draw τ)

/-- The job whose record a move writes, if any. -/
def Label.writes : Label → Option String
  | .place x | .promote x | .cancel x | .dispatch x _ | .succeed x _ | .requeue x _ | .bury x _ => some x
  | _ => none

/-- A sequence of moves with labels in `P`. -/
def Moves (P : Label → Prop) : Board → Board → Prop :=
  Relation.ReflTransGen fun b b' => ∃ l, P l ∧ Move l b b'

namespace Moves

variable {P P' : Label → Prop} {b b' b'' : Board}

theorem refl (b : Board) : Moves P b b := Relation.ReflTransGen.refl

theorem trans (h : Moves P b b') (h' : Moves P b' b'') : Moves P b b'' := Relation.ReflTransGen.trans h h'

theorem single {l : Label} (h : Move l b b') (hl : P l) : Moves P b b' :=
  Relation.ReflTransGen.single ⟨l, hl, h⟩

theorem tail {l : Label} (h : Moves P b b') (h' : Move l b' b'') (hl : P l) : Moves P b b'' :=
  Relation.ReflTransGen.tail h ⟨l, hl, h'⟩

theorem mono (h : Moves P b b') (hP : ∀ l, P l → P' l) : Moves P' b b' :=
  Relation.ReflTransGen.mono (fun _ _ ⟨l, hl, hm⟩ => ⟨l, hP l hl, hm⟩) _ _ h

/-- What every move with a label in `P` preserves, a sequence of them preserves. -/
theorem preserves {I : Board → Prop} (hI : ∀ l b b', P l → Move l b b' → I b → I b') (h : Moves P b b')
    (hb : I b) : I b' := by
  induction h with
  | refl => exact hb
  | tail _ hm ih =>
    obtain ⟨l, hl, hm⟩ := hm
    exact hI l _ _ hl hm ih

end Moves

end Distsched.Lifecycle
