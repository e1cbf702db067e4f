/-
A cancellation reaches everything that waits: `cancelCascade` ends every job recorded as waiting on its root, on one of
those, and so on, and touches no other.

The loop works off a list of jobs. Each job it comes to for the first time is ended, and whoever waits on it is put on
the list, so that the jobs seen and those on the list are closed under waiting. The list is empty before the loop runs
out of turns, since each edge of the index puts at most one job on it.
-/
import Distsched.Lib.Worklist
import Distsched.Lifecycle.Refine

namespace Distsched.Lifecycle

open Scheduler Prog

variable {env : Env} {b b' : Board} {x : String}

/-! ## Final records -/

/-- The job is missing, or its record is final. -/
def Ended (b : Board) (x : String) : Prop := ∀ j, b.jobs x = some j → terminal j.state = true

/-- A move other than a submission writes to an unfinished record. -/
theorem Move.unfinished {l : Label} (hm : Move l b b') (hw : l.writes = some x) (hp : l ≠ .place x) :
    ∃ j, b.jobs x = some j ∧ terminal j.state = false := by
  cases hm with
  | reject | park | accept => exact absurd (congrArg Label.place (Option.some.inj hw)) hp
  | cancel hj ht =>
    cases hw
    exact ⟨_, hj, ht⟩
  | promote hj hs | succeed hj hs | requeue hj hs | bury hj hs =>
    cases hw
    exact ⟨_, hj, by rw [hs]; rfl⟩
  | dispatch _ hj hs =>
    cases hw
    exact ⟨_, hj, by rw [hs]; rfl⟩
  | _ => cases hw

theorem Move.final {l : Label} (hm : Move l b b') (hp : l ≠ .place x) {j : Job} (hj : b.jobs x = some j)
    (ht : terminal j.state = true) : b'.jobs x = some j := by
  rw [hm.other, hj]
  intro hw
  obtain ⟨j', hj', ht'⟩ := hm.unfinished hw hp
  cases hj.symm.trans hj'
  rw [ht] at ht'
  cases ht'

theorem Moves.final {P : Label → Prop} (hm : Moves P b b') (hP : ¬ P (.place x)) {j : Job} (hj : b.jobs x = some j)
    (ht : terminal j.state = true) : b'.jobs x = some j :=
  hm.preserves (I := fun b => b.jobs x = some j) (fun _ _ _ hl hm hj => hm.final (by rintro rfl; exact hP hl) hj ht) hj

theorem Move.ended {l : Label} (hm : Move l b b') (hp : l ≠ .place x) (h : Ended b x) : Ended b' x := by
  intro j hj
  obtain ⟨j₀, hj₀, _⟩ := hm.of_stored hp hj
  have ht := h j₀ hj₀
  cases (hm.final hp hj₀ ht).symm.trans hj
  exact ht

theorem Moves.ended {P : Label → Prop} (hm : Moves P b b') (hP : ¬ P (.place x)) (h : Ended b x) : Ended b' x :=
  hm.preserves (I := fun b => Ended b x) (fun _ _ _ hl hm h => hm.ended (fun he => hP (he ▸ hl)) h) h

/-! ## The loop of a cascade -/

theorem does_dependentsOf_nodup (d : String) : DoesOn env (dependentsOf d) b fun r b' =>
    b' = b ∧ r.Nodup ∧ ∀ x, x ∈ r ↔ x ∈ b.waits d := by
  refine does_act fun s hs hv => ⟨⟨hs.leads, hs.opened, hs.traced⟩, hv, ?_, fun x => ?_⟩
  · exact (env.order_perm _ _).nodup_iff.2 (RevIndex.nodup_dependentsOf _ _)
  · subst hv
    exact (env.order_perm _ _).mem_iff.trans (RevIndex.mem_dependentsOf ..)

/-- The bound on the turns of the loop is at least the number of recorded edges. -/
theorem does_indexBound : DoesOn env (act .indexBound) b fun r b' =>
    b' = b ∧ ∃ E : List (String × String), (∀ d x, x ∈ b.waits d → (d, x) ∈ E) ∧ E.length ≤ r := by
  refine does_act fun s hs hv => ⟨⟨hs.leads, hs.opened, hs.traced⟩, hv, RevIndex.edges s.revIndex, fun d x hx => ?_, ?_⟩
  · subst hv
    exact RevIndex.mem_edges hx
  · rw [RevIndex.length_edges]
    exact Nat.le_add_right _ _

/-- The jobs that wait on `r`, on one of those, and so on, and `r` itself. -/
def Below (b : Board) (r : String) : Set String := {v | Relation.ReflTransGen (fun d x => x ∈ b.waits d) r v}

theorem closed_below (b : Board) (r : String) : Closed (Below b r) b := fun _ hd _ hx => hd.tail hx

theorem below_subset {r : String} {V : Set String} (hr : r ∈ V) (hV : Closed V b) : Below b r ⊆ V := by
  intro v hv
  induction hv with
  | refl => exact hr
  | tail _ hx ih => exact hV _ ih hx

/-- The loop, begun on board `b₀`, has come to board `b`. -/
structure Sweeping (b₀ b : Board) (visited work : List String) : Prop where
  /-- whoever waits on a job visited is visited or on the list -/
  frontier : ∀ v ∈ visited, ∀ x ∈ b₀.waits v, x ∈ visited ∨ x ∈ work
  /-- only jobs visited have left the index -/
  indexed : ∀ d x, x ∈ b₀.waits d → x ∈ b.waits d ∨ x ∈ visited
  /-- and all of those have -/
  left : ∀ d x, x ∈ b.waits d → x ∉ visited
  ended : ∀ v ∈ visited, Ended b v

theorem Sweeping.done {b₀ : Board} {visited : List String} (h : Sweeping b₀ b visited []) :
    Closed {v | v ∈ visited} b₀ := by
  intro v hv x hx
  rcases h.frontier v hv x hx with h | h
  · exact h
  · cases h

theorem Sweeping.over {b₀ : Board} {visited work : List String} (h : Sweeping b₀ b visited work) :
    ∀ v ∈ visited, Ended b v ∧ ∀ d, v ∉ b.waits d := fun v hv => ⟨h.ended v hv, fun d hw => h.left d v hw hv⟩

/-- The next job on the list has been visited before. -/
theorem Sweeping.skip {b₀ : Board} {visited work : List String} {cur : String} (h : Sweeping b₀ b visited (cur :: work))
    (hcur : cur ∈ visited) : Sweeping b₀ b visited work := by
  refine ⟨fun v hv x hx => ?_, h.indexed, h.left, h.ended⟩
  rcases h.frontier v hv x hx with hx | hx
  · exact .inl hx
  · rcases List.mem_cons.1 hx with rfl | hx
    · exact .inl hcur
    · exact .inr hx

/-- The next job on the list is ended, and whoever waits on it put on the list. -/
theorem Sweeping.visit {b₀ b₁ : Board} {visited work deps : List String} {cur : String}
    (h : Sweeping b₀ b visited (cur :: work)) (hw : b₁.waits = b.waits) (hcur : Ended b₁ cur)
    (hold : ∀ v, Ended b v → Ended b₁ v) (hdeps : ∀ x, x ∈ deps ↔ x ∈ b₁.waits cur) :
    Sweeping b₀ (b₁.unpark cur) (cur :: visited) (deps.reverse ++ work) := by
  refine ⟨fun v hv x hx => ?_, fun d x hx => ?_, fun d x hx hv => ?_, fun v hv => ?_⟩
  · rcases List.mem_cons.1 hv with rfl | hv
    · rcases h.indexed v x hx with hx | hx
      · exact .inr (List.mem_append_left _ (List.mem_reverse.2 ((hdeps x).2 (hw ▸ hx))))
      · exact .inl (List.mem_cons_of_mem _ hx)
    · rcases h.frontier v hv x hx with hx | hx
      · exact .inl (List.mem_cons_of_mem _ hx)
      · rcases List.mem_cons.1 hx with rfl | hx
        · exact .inl (List.mem_cons_self ..)
        · exact .inr (List.mem_append_right _ hx)
  · rcases h.indexed d x hx with hx | hx
    · by_cases hxc : x = cur
      · exact .inr (hxc ▸ List.mem_cons_self ..)
      · exact .inl ⟨hw ▸ hx, hxc⟩
    · exact .inr (List.mem_cons_of_mem _ hx)
  · rcases List.mem_cons.1 hv with rfl | hv
    · exact hx.2 rfl
    · exact h.left d x (hw ▸ hx.1) hv
  · rcases List.mem_cons.1 hv with rfl | hv
    · exact hcur
    · exact hold v (h.ended v hv)

/-- The loop comes to an empty list if it may take a turn for each job on the list and each edge out of a job not visited. -/
theorem does_cascadeLoop_ends (he : Sound env) (now : Int) {b₀ : Board} :
    ∀ (fuel : Nat) (visited work : List String) (reason : String) {b : Board} {E : List (String × String)},
      Sweeping b₀ b visited work → (∀ d x, d ∉ visited → x ∈ b.waits d → (d, x) ∈ E) →
      work.length + E.length ≤ fuel →
      DoesOn env (cascadeLoop now fuel visited work reason) b fun _ b' => ∃ V : Set String,
        (∀ v ∈ visited ++ work, v ∈ V) ∧ Closed V b₀ ∧ ∀ v ∈ V, Ended b' v ∧ ∀ d, v ∉ b'.waits d
  | 0, visited, work, _, _, E, hs, _, hfuel => by
    obtain rfl : work = [] := List.length_eq_zero_iff.1 (by omega)
    exact Does.pure ⟨_, by simp, hs.done, hs.over⟩
  | _ + 1, visited, [], _, _, _, hs, _, _ => Does.pure ⟨_, by simp, hs.done, hs.over⟩
  | fuel + 1, visited, cur :: work, reason, b, E, hs, hE, hfuel => by
    rw [List.length_cons] at hfuel
    unfold cascadeLoop
    split
    · rename_i hcur
      refine (does_cascadeLoop_ends he now fuel visited work reason (hs.skip hcur) hE (by omega)).mono ?_
      rintro _ b' ⟨V, hV, hrest⟩
      refine ⟨V, fun v hv => hV v ?_, hrest⟩
      rcases List.mem_append.1 hv with hv | hv
      · exact List.mem_append_left _ hv
      · rcases List.mem_cons.1 hv with rfl | hv
        · exact List.mem_append_left _ hcur
        · exact List.mem_append_right _ hv
    · rename_i hcur
      refine (does_cancelOne he (Set.mem_univ cur) reason now).bind ?_
      rintro _ b₁ ⟨hm, hw, ht⟩
      refine (does_dependentsOf_nodup cur).bind ?_
      rintro deps b₁ ⟨rfl, hnodup, hdeps⟩
      refine (does_removeFromIndex cur).bind ?_
      rintro _ _ rfl
      have hs' := hs.visit hw ht (fun v => hm.ended id) hdeps
      have hE' : ∀ d x, d ∉ cur :: visited → x ∈ (b₁.unpark cur).waits d → (d, x) ∈ E.filter fun e => e.1 ≠ cur := by
        intro d x hd hx
        rw [List.mem_cons, not_or] at hd
        exact List.mem_filter.2 ⟨hE d x hd.2 (hw ▸ hx.1), by simpa using hd.1⟩
      have hlen := Worklist.length_edges_of hnodup fun x hx => hE cur x hcur (hw ▸ (hdeps x).1 hx)
      refine (does_cascadeLoop_ends he now fuel _ _ _ hs' hE' ?_).mono ?_
      · rw [List.length_append, List.length_reverse]
        omega
      · rintro _ b' ⟨V, hV, hrest⟩
        refine ⟨V, fun v hv => hV v ?_, hrest⟩
        simp only [List.mem_append, List.mem_cons] at hv ⊢
        tauto

/-- What a cascade from `r` does: it cancels jobs below `r` only, and all of those are ended after it and wait on nothing. -/
structure Cascades (r : String) (b b' : Board) : Prop where
  moves : Moves (Label.Cascade (Below b r)) b b'
  ended : ∀ v ∈ Below b r, Ended b' v
  left : ∀ v ∈ Below b r, ∀ d, v ∉ b'.waits d

theorem does_cancelCascade_cascades (he : Sound env) (r reason : String) :
    DoesOn env (cancelCascade r reason) b fun _ b' => Cascades r b b' := by
  have hends : DoesOn env (cancelCascade r reason) b fun _ b' => ∀ v ∈ Below b r, Ended b' v ∧ ∀ d, v ∉ b'.waits d := by
    refine (does_silent .now trivial).bind ?_
    rintro now b rfl
    refine does_indexBound.bind ?_
    rintro bound b ⟨rfl, E, hE, hlen⟩
    have hs : Sweeping b b [] [r] := ⟨by simp, fun _ _ hx => .inl hx, by simp, by simp⟩
    refine (does_cascadeLoop_ends he _ _ _ _ _ hs (fun d x _ hx => hE d x hx) ?_).mono ?_
    · rw [List.length_singleton]
      omega
    · rintro _ b' ⟨V, hV, hcl, hended⟩ v hv
      exact hended v (below_subset (hV r (by simp)) hcl hv)
  refine ((does_cancelCascade he (.refl : r ∈ Below b r) (closed_below b r) reason).and hends).mono ?_
  rintro _ b' ⟨hm, hv⟩
  exact ⟨hm, fun v h => (hv v h).1, fun v h => (hv v h).2⟩

/-- A cascade takes the jobs below its root out of the index, and no others. -/
theorem Cascades.waits {r : String} (h : Cascades r b b') (d : String) :
    x ∈ b'.waits d ↔ x ∈ b.waits d ∧ x ∉ Below b r := by
  constructor
  · intro hx
    refine ⟨?_, fun hbelow => h.left x hbelow d hx⟩
    refine h.moves.preserves (I := fun b₁ => x ∈ b₁.waits d → x ∈ b.waits d) ?_ id hx
    intro l b₁ b₂ hl hm hi hx
    exact hi (hm.of_waits (by rintro rfl; exact hl) (by rintro rfl; exact hl) hx)
  · rintro ⟨hx, hbelow⟩
    refine h.moves.preserves (I := fun b₁ => x ∈ b₁.waits d) ?_ hx
    intro l b₁ b₂ hl hm hi
    cases hm with
    | cancel => exact hi
    | @forget _ y =>
      refine ⟨hi, ?_⟩
      rintro rfl
      exact hbelow hl
    | _ => exact hl.elim

end Distsched.Lifecycle
