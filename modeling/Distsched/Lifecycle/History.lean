/-
The stored jobs over a run of a node in which any store call may fail and any activity may be broken
off by a crash: every activity, finished or not, leaves a sequence of the writes listed in `Writes`.
-/
import Distsched.Lifecycle.Entries

namespace Distsched.Lifecycle

open Scheduler Prog

variable {env : Env} {free : Option Job → Prop} {g : Notes} {s s' : Server}

/-! ## The notes of a handler that runs alone are true -/

structure Faithful (env : Env) (free : Option Job → Prop) (g : Notes) (s : Server) : Prop where
  seen : ∀ x j, j ∈ g.seen x → table s x = some j
  ended : ∀ x st, st ∈ g.ended x → ∃ j, table s x = some j ∧ j.state = st ∧ terminal st = true
  ran : ∀ x, x ∈ g.ran → ∃ j, table s x = some j ∧ j.state = .running
  indexed : ∀ S, g.indexed = some S → ∀ d x, RevIndex.Waits s.revIndex d x → x ∈ S
  placing : ∀ x, g.placing = some x → free (table s x)
  drawing : g.drawing = true → free (table s ("job" ++ "-" ++ env.uuid s.minted))

namespace Faithful

theorem recalls (h : Faithful env free g s) : Recalls env (fun T x => free (T x)) g s :=
  ⟨h.seen, h.indexed, h.placing, h.drawing⟩

/-- The notes on the store, and those on what has ended or was written RUNNING. -/
theorem of_recalls (h : Recalls env (fun T x => free (T x)) g s)
    (hended : ∀ x st, st ∈ g.ended x → ∃ j, table s x = some j ∧ j.state = st ∧ terminal st = true)
    (hran : ∀ x, x ∈ g.ran → ∃ j, table s x = some j ∧ j.state = .running) : Faithful env free g s :=
  ⟨h.seen, hended, hran, h.indexed, h.placing, h.drawing⟩

/-- A write the notes account for is one of those listed in `Writes`. -/
theorem write (h : Faithful env free g s) {j : Job} (ha : g.Accounts j) :
    Write free (table s) (Function.update (table s) j.id (some j)) := by
  have hsat : g.Satisfied j → (table s).Satisfies j := by
    intro hg d hd
    obtain ⟨jd, hjd, hst, _⟩ := h.ended d _ (hg d hd)
    exact ⟨jd, hjd, hst⟩
  rcases ha with ⟨j₀, hj₀, hr, hm⟩ | ⟨hp, ha, hs⟩
  · exact .revise (h.seen _ _ hj₀) hr fun hp hq => hsat (hm hp hq)
  · refine .place (h.placing _ hp) ha ?_
    rcases hs with hs | hs | ⟨hq, hs⟩
    · exact .inl hs
    · exact .inr (.inl hs)
    · exact .inr (.inr ⟨hq, hsat hs⟩)

/-- What has ended is known from the record read. -/
theorem ended_read (h : Faithful env free g s) {j : Job} (hj : table s j.id = some j) :
    ∀ x st, st ∈ (g.read j).ended x → ∃ j', table s x = some j' ∧ j'.state = st ∧ terminal st = true := by
  rintro x st (hst | ⟨rfl, rfl, ht⟩)
  · exact h.ended x st hst
  · exact ⟨j, hj, rfl, ht⟩

theorem ended_wrote (hfree : ∀ o, free o → Unfinished o) (h : Faithful env free g s) {j : Job} (ha : g.Accounts j)
    (ht : table s' = Function.update (table s) j.id (some j)) :
    ∀ x st, st ∈ (g.wrote j).ended x → ∃ j', table s' x = some j' ∧ j'.state = st ∧ terminal st = true := by
  rintro x st (hst | ⟨rfl, rfl, hterm⟩)
  · obtain ⟨j', hj', rfl, hterm⟩ := h.ended x st hst
    refine ⟨j', ?_, rfl, hterm⟩
    rw [ht]
    exact (h.write ha).final hfree hj' hterm
  · exact ⟨j, by rw [ht, Function.update_self], rfl, hterm⟩

theorem ran_wrote (h : Faithful env free g s) {j : Job} (ht : table s' = Function.update (table s) j.id (some j)) :
    ∀ x, x ∈ (g.wrote j).ran → ∃ j', table s' x = some j' ∧ j'.state = .running := by
  intro x hx
  replace hx : x ∈ if j.state = .running then insert j.id g.ran else g.ran \ {j.id} := hx
  rw [ht, Function.update_apply]
  split
  · rename_i he
    refine ⟨j, rfl, ?_⟩
    by_contra hs
    rw [if_neg hs] at hx
    exact hx.2 he
  · rename_i hne
    refine h.ran x ?_
    split at hx
    · exact hx.resolve_left hne
    · exact hx.1

end Faithful

/-- Alone, a handler that keeps to the protocol finds its notes true and only writes what `Writes` lists. -/
theorem honours (env : Env) (hfree : ∀ o, free o → Unfinished o) :
    Honours (handle env) (bookkeeping true) (Faithful env free) fun s s' => Writes free (table s) (table s') where
  refl _ := .refl
  trans _ _ _ h h' := h.trans h'
  step op g s h hop := by
    have hnext := h.recalls.next op hop
    refine ⟨answers_handle op h.indexed, ?_⟩
    by_cases hput : ∃ j, op = .putJob j
    · obtain ⟨j, rfl⟩ := hput
      revert hnext
      simp only [handle, Server.write]
      split
      · exact fun hnext => ⟨.of_recalls hnext h.ended h.ran, .refl⟩
      · refine fun hnext => ⟨.of_recalls hnext (h.ended_wrote hfree hop.2 (table_put s j)) (h.ran_wrote (table_put s j)),
          .single ?_⟩
        show Write free (table s) (s.store.jobs.put j).get
        rw [table_put]
        exact h.write hop.2
    · have htab : table (handle env op s).2 = table s := table_handle fun j hj => hput ⟨j, hj⟩
      refine ⟨.of_recalls hnext ?_ ?_, by rw [htab]⟩
      · rw [htab]
        cases op with
        | getJob id =>
          simp only [handle]
          split
          · exact h.ended
          · split
            · exact h.ended
            · rename_i j hj
              refine h.ended_read ?_
              rw [Bucket.get_id hj]
              exact hj
        | listJobs =>
          simp only [handle]
          split <;> exact h.ended
        | newID kind =>
          show ∀ x st, st ∈ (if kind = "job" then _ else g : Notes).ended x → _
          split <;> exact h.ended
        | putJob j => exact absurd ⟨j, rfl⟩ hput
        | _ => exact h.ended
      · rw [htab]
        cases op with
        | getJob id =>
          simp only [handle]
          split
          · exact h.ran
          · split <;> exact h.ran
        | listJobs =>
          simp only [handle]
          split <;> exact h.ran
        | newID kind =>
          show ∀ x, x ∈ (if kind = "job" then _ else g : Notes).ran → _
          split <;> exact h.ran
        | putJob j => exact absurd ⟨j, rfl⟩ hput
        | _ => exact h.ran

/-! ## Runs -/

theorem faithful_empty : Faithful env free {} s :=
  .of_recalls .empty (fun _ _ h => h.elim) fun _ h => h.elim

/-- An activity begins with true notes if the place of a submission is free. -/
theorem faithful_firstNotes {c : Call}
    (h : ∀ job, c = .submitJob (some job) → free (table s (submitID env s.minted job))) :
    Faithful env free (firstNotes c) s := by
  have hnone : (firstNotes c).ended = (fun _ => ∅) ∧ (firstNotes c).ran = ∅ := by
    cases c with
    | submitJob req =>
      cases req with
      | none => exact ⟨rfl, rfl⟩
      | some job =>
        show (if job.id = "" then _ else _ : Notes).ended = _ ∧ (if job.id = "" then _ else _ : Notes).ran = _
        split <;> exact ⟨rfl, rfl⟩
    | _ => exact ⟨rfl, rfl⟩
  refine .of_recalls (.firstNotes h) (fun x st hst => ?_) fun x hx => ?_
  · rw [hnone.1] at hst
    exact hst.elim
  · rw [hnone.2] at hx
    exact hx.elim

section

variable {ps : Cron} (hfree : ∀ o, free o → Unfinished o)

include hfree

theorem restart_writes (node : Cluster.Node) (s : Server) : Writes free (table s) (table (restart env ps node s)) :=
  (Meets.exec (honours env hfree) (keeping_boot ps node rfl) (faithful_empty (s := s.fresh))).2

theorem step_writes {ev : Event} (hev : SubmitsWhere free env s ev) (h : step env ps s ev = some s') :
    Writes free (table s) (table s') :=
  step_keeping (honours env hfree) (fun _ => faithful_empty) (fun _ => .refl) (faithful_firstNotes hev) h

/-- The stored jobs of a run change by the writes listed in `Writes` only. -/
theorem runs_writes {s₀ : Server} (h : Runs env ps (SubmitsWhere free env) s₀ s) : Writes free (table s₀) (table s) := by
  induction h with
  | refl => exact .refl
  | step _ hev hstep ih => exact ih.trans (step_writes hfree hev hstep)

end

end Distsched.Lifecycle
