/-
The sweep when the store fails. A requeue drops the lease before it reads the job and stores it QUEUED or FAILED, and what
goes wrong after that is only logged. So a job whose record can be read and written is always requeued, or keeps a lease
for a later sweep; one whose record cannot is left RUNNING without a lease, and no sweep or report will find it. Which of
the two it is, the calls on the record decide that are made while the job has no lease.
-/
import Distsched.Scheduler.Run
import Distsched.Scheduler.Silent

namespace Distsched.Scheduler

open Prog

variable {env : Env} {ps : Cron} {x : String} {s s' : Server} {op : Op}

/-! ## Work that can be reclaimed -/

/-- The job is not stored RUNNING. -/
def Idle (x : String) (s : Server) : Prop := ∀ j, s.store.jobs.get x = some j → j.state ≠ .running

/-- Some lease is for the job. -/
def Leased (x : String) (s : Server) : Prop := ∃ (τ : String) (l : Lease), s.leases[τ]? = some l ∧ l.jobID = x

/-- A later sweep or report can act on the job, or need not. -/
def Reclaimable (x : String) (s : Server) : Prop := Idle x s ∨ Leased x s

theorem Idle.put {j : Job} (h : Idle x s) (hj : j.state ≠ .running) (hs : s'.store.jobs = s.store.jobs.put j) :
    Idle x s' := by
  intro k hk
  rw [hs, Bucket.get_put] at hk
  split at hk
  · cases hk
    exact hj
  · exact h k hk

/-- The operations of a sweep: none of them stores a job RUNNING or grants a lease. -/
def Reaps : Op → Prop
  | .putJob j => j.state ≠ .running
  | .addLease _ | .clearDispatch => False
  | _ => True

theorem reaps_of_moves (h : Moves op) : Reaps op := by
  cases op <;> first | exact h.elim | exact h.1 | trivial

theorem Idle.reaped (hop : Reaps op) (h : Idle x s) : Idle x (handle env op s).2 := by
  cases op with
  | putJob j =>
    simp only [handle, Server.write]
    split
    · exact h
    · exact h.put hop rfl
  | putDeadLetter | putWorker =>
    simp only [handle, Server.write]
    split <;> exact h
  | _ => exact h

theorem Reclaimable.moved (hop : Moves op) (h : Reclaimable x s) : Reclaimable x (handle env op s).2 := by
  refine h.imp (Idle.reaped (reaps_of_moves hop)) ?_
  rintro ⟨τ, l, hl, hx⟩
  exact ⟨τ, l, (leases_of_moves hop).symm ▸ hl, hx⟩

section Run

variable {α : Type} {p : M α}

theorem Idle.run (hp : Uses Reaps p) (h : Idle x s) : Sat (handle env) p s fun _ => Idle x :=
  Uses.keeps (I := Idle x) (fun _ _ => Idle.reaped) hp h

theorem Reclaimable.run (hp : Uses Moves p) (h : Reclaimable x s) : Sat (handle env) p s fun _ => Reclaimable x :=
  Uses.keeps (I := Reclaimable x) (fun _ _ => Reclaimable.moved) hp h

end Run

/-! ## Calls that strand the job -/

/-- The operation is on the record of the job. -/
def OnRecord (x : String) : Op → Prop
  | .getJob y => y = x
  | .putJob j | .putDeadLetter j => j.id = x
  | _ => False

/-- A call on the record of the job fails while the job is stored RUNNING and has no lease. -/
structure Strands (env : Env) (x : String) (e : Op × Server) : Prop where
  onRecord : OnRecord x e.1
  fails : env.fails e.2.tick ≠ none
  running : ¬ Idle x e.2
  unleased : ¬ Leased x e.2

/-- A write of the job's record succeeds. -/
def Stores (env : Env) (x : String) (e : Op × Server) : Prop :=
  ∃ j, e.1 = .putJob j ∧ j.id = x ∧ env.fails e.2.tick = none

/-- A call strands the job, and no later one stores it. -/
def Stranded (env : Env) (x : String) (tr : List (Op × Server)) : Prop :=
  ∃ pre e post, tr = pre ++ e :: post ∧ Strands env x e ∧ ∀ e' ∈ post, ¬ Stores env x e'

/-- A write of the record is one of a record that is not RUNNING. -/
theorem Stores.idle {e : Op × Server} (h : Stores env x e) (hop : Reaps e.1) : Idle x (handle env e.1 e.2).2 := by
  obtain ⟨op, s⟩ := e
  obtain ⟨j, hput, hid, hok⟩ := h
  subst hput
  intro k hk
  have hjobs : (handle env (.putJob j) s).2.store.jobs = s.store.jobs.put j := by
    simp only [handle, Server.write, hok]
  rw [hjobs, Bucket.get_put, if_pos hid.symm] at hk
  cases hk
  exact hop

section Run

variable {α β : Type} {p : M α} {f : α → M β} {Q : α → Server → Prop} {Q' : β → Server → Prop}

/-- A run in which the record is stored ends with the job not RUNNING. -/
theorem idle_of_stores (hp : Uses Reaps p) (h : ∃ e ∈ trace (handle env) p s, Stores env x e) :
    Idle x (exec (handle env) p s).2 := by
  obtain ⟨e, he, hstores⟩ := h
  obtain ⟨pre, post, htr⟩ := List.append_of_mem he
  have hkeep : ∀ op s, Reaps op → True → Idle x s → Idle x (handle env op s).2 := fun _ _ hop _ => Idle.reaped hop
  exact Uses.keepsAfter hkeep hp htr (fun _ _ => trivial) (hstores.idle (hp.trace e he))

/-- The run ends as it should, or strands the job. -/
def OrStrands (env : Env) (x : String) (p : M α) (s : Server) (Q : α → Server → Prop) : Prop :=
  Sat (handle env) p s Q ∨ Stranded env x (trace (handle env) p s)

theorem Stranded.append {tr tr' : List (Op × Server)} (h : Stranded env x tr) (h' : ∀ e ∈ tr', ¬ Stores env x e) :
    Stranded env x (tr ++ tr') := by
  obtain ⟨pre, e, post, rfl, hstrands, hpost⟩ := h
  refine ⟨pre, e, post ++ tr', by simp, hstrands, fun e' he' => ?_⟩
  exact (List.mem_append.1 he').elim (hpost e') (h' e')

theorem Stranded.prepend {tr : List (Op × Server)} (h : Stranded env x tr) (tr' : List (Op × Server)) :
    Stranded env x (tr' ++ tr) := by
  obtain ⟨pre, e, post, rfl, hstrands, hpost⟩ := h
  exact ⟨tr' ++ pre, e, post, by simp, hstrands, hpost⟩

theorem OrStrands.and {R : α → Server → Prop} (hp : OrStrands env x p s Q) (h : Sat (handle env) p s R) :
    OrStrands env x p s fun a s' => Q a s' ∧ R a s' := hp.imp_left fun hq => ⟨hq, h⟩

/-- A job that the first part has stranded is stored by the second, or stays stranded. -/
theorem OrStrands.bind (hu : Uses Reaps (p >>= f)) (hp : OrStrands env x p s Q)
    (hf : ∀ a s', Uses Reaps (f a) → Q a s' → OrStrands env x (f a) s' Q') (hQ' : ∀ b s', Idle x s' → Q' b s') :
    OrStrands env x (p >>= f) s Q' := by
  have hrest : Uses Reaps (f (exec (handle env) p s).1) := hu.of_bind
  unfold OrStrands Sat
  rw [exec_bind, trace_bind]
  rcases hp with hq | hstranded
  · exact (hf _ _ hrest hq).imp_right fun h => h.prepend _
  · by_cases hstores : ∃ e ∈ trace (handle env) (f (exec (handle env) p s).1) (exec (handle env) p s).2, Stores env x e
    · exact .inl (hQ' _ _ (idle_of_stores hrest hstores))
    · exact .inr (hstranded.append fun e he hs => hstores ⟨e, he, hs⟩)

theorem OrStrands.forM {ι : Type} {f : ι → M PUnit} (hu : ∀ a, Uses Reaps (f a)) : ∀ {l : List ι} {s : Server},
    (∀ a ∈ l, ∀ s, Reclaimable x s → OrStrands env x (f a) s fun _ => Reclaimable x) → Reclaimable x s →
      OrStrands env x (l.forM f) s fun _ => Reclaimable x
  | [], _, _, hi => .inl hi
  | a :: l, s, hf, hi => by
    have hall : Uses Reaps (f a >>= fun _ => l.forM f) := Uses.bind (hu a) fun _ => Uses.forM hu
    refine OrStrands.bind hall (hf a List.mem_cons_self s hi) (fun _ _ _ hi' => ?_) fun _ _ => .inl
    exact OrStrands.forM hu (fun b hb => hf b (List.mem_cons_of_mem a hb)) hi'

end Run

/-! ## The end of an attempt -/

section Adrift

variable (h : ¬ Reclaimable x s)

include h

end Adrift

/-! ## The sweep -/

/-- Dropping the lease of another job leaves the job its lease. -/
theorem Reclaimable.drop {τ : String} {l : Lease} (h : Reclaimable x s) (hl : s.leases[τ]? = some l) (hx : l.jobID ≠ x) :
    Reclaimable x (handle env (.removeLease τ) s).2 := by
  refine h.imp id ?_
  rintro ⟨τ', l', hl', hx'⟩
  refine ⟨τ', l', ?_, hx'⟩
  have hne : τ ≠ τ' := by
    rintro rfl
    rw [hl] at hl'
    cases hl'
    exact hx hx'
  show (s.leases.erase τ)[τ']? = some l'
  rw [Std.ExtTreeMap.getElem?_erase, if_neg fun he => hne (compare_keys.1 he)]
  exact hl'

end Distsched.Scheduler
