/-
The history of the stored jobs as a sequence of single writes. A write either places a submitted job or
revises a stored one, and `Revision` lists the ways a record is ever revised. Two facts about any such
history need no more than that: a final record stays as it is, and a job gets past PENDING only
once its dependencies have succeeded.
-/
import Distsched.Lifecycle.Board
import Distsched.Scheduler.Run

namespace Distsched.Lifecycle

open Scheduler (dispatched Vacant Unfinished)

/-- The stored jobs. -/
abbrev Table := String → Option Job

/-- Every dependency of the job is stored SUCCEEDED. -/
def Table.Satisfies (T : Table) (j : Job) : Prop := ∀ d ∈ j.dependsOn, ∃ jd, T d = some jd ∧ jd.state = .succeeded

/-- How a record `j₀` may be rewritten. A cron job whose re-arming could not be stored may have lost its
attempt number by the time it ends. -/
inductive Revision : Job → Job → Prop
  | promote {j₀ j : Job} (h : j₀.state = .pending) (hp : plan j = plan j₀) (hs : j.state = .queued)
    (ha : j.attempt = j₀.attempt) : Revision j₀ j
  | dispatch {j₀ : Job} (workerID : String) (now : Int) (h : j₀.state = .queued) :
    Revision j₀ (dispatched j₀ workerID now)
  | retry {j₀ j : Job} (h : j₀.state = .running) (hlt : j₀.attempt < Retry.maxAttempts j₀.retryPolicy)
    (hp : plan j = plan j₀) (hs : j.state = .queued) (ha : j.attempt = j₀.attempt) : Revision j₀ j
  | rearm {j₀ j : Job} (h : j₀.state = .running) (hc : j₀.cronExpr ≠ "") (hp : plan j = plan j₀)
    (hs : j.state = .queued) (ha : j.attempt = 0) : Revision j₀ j
  | succeed {j₀ j : Job} (h : j₀.state = .running) (hp : plan j = plan j₀) (hs : j.state = .succeeded)
    (ha : j.attempt = j₀.attempt ∨ j₀.cronExpr ≠ "") : Revision j₀ j
  | bury {j₀ j : Job} (h : j₀.state = .running) (hle : Retry.maxAttempts j₀.retryPolicy ≤ j₀.attempt)
    (hp : plan j = plan j₀) (hs : j.state = .failed) (ha : j.attempt = j₀.attempt ∨ j₀.cronExpr ≠ "") :
    Revision j₀ j
  | cancel {j₀ j : Job} (h : terminal j₀.state = false) (hp : plan j = plan j₀) (hs : j.state = .canceled)
    (ha : j.attempt = j₀.attempt) : Revision j₀ j

namespace Revision

variable {j₀ j : Job}

theorem plan_eq (h : Revision j₀ j) : plan j = plan j₀ := by
  cases h with
  | dispatch => rfl
  | promote _ hp | retry _ _ hp | rearm _ _ hp | succeed _ hp | bury _ _ hp | cancel _ hp => exact hp

theorem id_eq (h : Revision j₀ j) : j.id = j₀.id := id_of_plan h.plan_eq

theorem dependsOn_eq (h : Revision j₀ j) : j.dependsOn = j₀.dependsOn := dependsOn_of_plan h.plan_eq

/-- Only an unfinished record is ever revised. -/
theorem not_terminal (h : Revision j₀ j) : terminal j₀.state = false := by
  cases h with
  | cancel h => exact h
  | promote h | dispatch _ _ h | retry h | rearm h | succeed h | bury h => rw [h]; rfl

end Revision

/-- The states in which a job has passed its dependencies. -/
def Released : JobState → Prop
  | .queued | .running | .succeeded | .failed => True
  | _ => False

/-- A record that is released by a revision was released before, unless it is promoted. -/
theorem Revision.released {j₀ j : Job} (h : Revision j₀ j) (hr : Released j.state) :
    Released j₀.state ∨ (j₀.state = .pending ∧ j.state = .queued) := by
  cases h with
  | promote h _ hs => exact .inr ⟨h, hs⟩
  | dispatch _ _ h | retry h | rearm h | succeed h | bury h =>
    left
    rw [h]
    trivial
  | cancel _ _ hs =>
    rw [hs] at hr
    exact hr.elim

/-- One write to the stored jobs. A submission may take a place that `free` allows. -/
inductive Write (free : Option Job → Prop) (T : Table) : Table → Prop
  | revise {j₀ j : Job} (h : T j.id = some j₀) (hr : Revision j₀ j)
    (hm : j₀.state = .pending → j.state = .queued → T.Satisfies j) : Write free T (Function.update T j.id (some j))
  | place {j : Job} (hf : free (T j.id)) (ha : j.attempt = 0)
    (hs : j.state = .pending ∨ j.state = .canceled ∨ (j.state = .queued ∧ T.Satisfies j)) :
    Write free T (Function.update T j.id (some j))

/-- Any number of writes. -/
abbrev Writes (free : Option Job → Prop) : Table → Table → Prop := Relation.ReflTransGen (Write free)

variable {free : Option Job → Prop} {T T' : Table}

section

variable (hfree : ∀ o, free o → Unfinished o)

include hfree

/-- A write goes to a place that holds no final record. -/
theorem Write.target (h : Write free T T') : ∃ j, T' = Function.update T j.id (some j) ∧ Unfinished (T j.id) := by
  cases h with
  | @revise j₀ j h hr _ =>
    refine ⟨j, rfl, fun j' hj' => ?_⟩
    rw [h] at hj'
    cases hj'
    exact hr.not_terminal
  | @place j hf _ _ => exact ⟨j, rfl, hfree _ hf⟩

/-- A final record is never written over. -/
theorem Write.final (h : Write free T T') {x : String} {j : Job} (hx : T x = some j) (ht : terminal j.state = true) :
    T' x = some j := by
  obtain ⟨j', rfl, hu⟩ := h.target hfree
  rw [Function.update_apply]
  split
  · rename_i he
    rw [← he] at hu
    rw [hu j hx] at ht
    cases ht
  · exact hx

theorem Writes.final (h : Writes free T T') {x : String} {j : Job} (hx : T x = some j) (ht : terminal j.state = true) :
    T' x = some j := by
  induction h with
  | refl => exact hx
  | tail _ hw ih => exact hw.final hfree ih ht

theorem Write.satisfies (h : Write free T T') {j : Job} (hs : T.Satisfies j) : T'.Satisfies j := by
  intro d hd
  obtain ⟨jd, hjd, hst⟩ := hs d hd
  exact ⟨jd, h.final hfree hjd (by rw [hst]; rfl), hst⟩

end

/-! ## Gating -/

/-- Whatever has passed its dependencies has them SUCCEEDED. -/
def Gated (T : Table) : Prop := ∀ x j, T x = some j → Released j.state → T.Satisfies j

theorem Vacant.unfinished : ∀ o, Vacant o → Unfinished o := by
  rintro _ rfl _ h
  cases h

theorem Gated.write (h : Gated T) (hw : Write Vacant T T') : Gated T' := by
  intro x j hx hr
  refine hw.satisfies Vacant.unfinished ?_
  cases hw with
  | @revise j₀ j' hj hrev hm =>
    rw [Function.update_apply] at hx
    split at hx
    · cases hx
      rcases hrev.released hr with hrel | ⟨hp, hq⟩
      · -- the dependencies of the record before are those of the record after
        have := h _ j₀ hj hrel
        unfold Table.Satisfies at this ⊢
        rwa [hrev.dependsOn_eq]
      · exact hm hp hq
    · exact h x j hx hr
  | @place j' hf _ hs =>
    rw [Function.update_apply] at hx
    split at hx
    · cases hx
      rcases hs with hs | hs | ⟨_, hm⟩
      · rw [hs] at hr
        exact hr.elim
      · rw [hs] at hr
        exact hr.elim
      · exact hm
    · exact h x j hx hr

theorem Gated.writes (h : Gated T) (hw : Writes Vacant T T') : Gated T' := by
  induction hw with
  | refl => exact h
  | tail _ hw ih => exact ih.write hw

end Distsched.Lifecycle
