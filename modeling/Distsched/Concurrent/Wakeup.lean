/-
What a handler owes to the jobs that wait. A handler that writes a job SUCCEEDED owes a look at its dependents,
first at the index and then at each of them; one that writes a job PENDING owes its registration in the index.
`waking` is the protocol that keeps these debts, under a store that works. Every handler pays them before it ends.
-/
import Distsched.Concurrent.Handlers
import Distsched.Scheduler.Silent
import Mathlib.Data.Set.Basic

namespace Distsched.Concurrent

open Scheduler Prog

/-! ## Debts -/

structure Debts where
  /-- The dependencies with which a job was read or written. -/
  deps : String → Set (List String) := fun _ => ∅
  /-- Jobs known to be stored. -/
  stored : Set String := ∅
  /-- Jobs known to be stored in another state than PENDING. -/
  past : Set String := ∅
  /-- Jobs written SUCCEEDED whose dependents are yet to be looked up. -/
  calls : Set String := ∅
  /-- Dependents looked up that are yet to be tried. -/
  owes : Set String := ∅
  /-- The job written PENDING that is yet to be registered, with its dependencies. -/
  parking : Option (String × List String) := none
  /-- The ID a submission may place. -/
  placing : Option String := none

namespace Debts

/-- The jobs known to depend on `d`. -/
def behind (g : Debts) (d : String) : Set String := {x | ∃ ds ∈ g.deps x, d ∈ ds}

/-- The record is stored. -/
def found (g : Debts) (j : Job) : Debts :=
  { g with
    deps := Function.update g.deps j.id (insert j.dependsOn (g.deps j.id))
    stored := insert j.id g.stored
    past := g.past ∪ {x | x = j.id ∧ j.state ≠ .pending} }

/-- A job read past PENDING has been tried, and so have those behind a job read other than SUCCEEDED. -/
def read (g : Debts) (j : Job) : Debts :=
  { g.found j with
    owes := g.owes \ ({x | x = j.id ∧ j.state ≠ .pending} ∪ {x | j.state ≠ .succeeded ∧ x ∈ g.behind j.id}) }

def missed (g : Debts) (id : String) : Debts := { g with owes := g.owes \ insert id (g.behind id) }

def wrote (g : Debts) (j : Job) : Debts :=
  { g.found j with
    calls := g.calls ∪ {x | x = j.id ∧ j.state = .succeeded}
    owes := g.owes \ {j.id}
    parking := if j.state = .pending then some (j.id, j.dependsOn) else g.parking
    placing := none }

def lookedUp (g : Debts) (d : String) (xs : List String) : Debts :=
  { g with
    stored := g.stored ∪ {x | x ∈ xs}
    calls := g.calls \ {d}
    owes := g.owes ∪ {x | x ∈ xs ∧ d ∈ g.calls} }

def next (g : Debts) : (op : Op) → op.Resp → Debts
  | .getJob _, .ok j => g.read j
  | .getJob id, .error _ => g.missed id
  | .putJob j, _ => g.wrote j
  | .newID kind, id => if kind = "job" then { g with placing := some id } else g
  | .addDeps _, _ => { g with parking := none }
  | .dependentsOf d, xs => g.lookedUp d xs
  | _, _ => g

/-- A job is placed, but not SUCCEEDED, or written past PENDING with the dependencies it has. -/
def Accounts (g : Debts) (j : Job) : Prop :=
  (g.placing = some j.id ∧ j.state ≠ .succeeded ∧ g.parking = none) ∨ (j.dependsOn ∈ g.deps j.id ∧ j.state ≠ .pending)

def Permits (g : Debts) : Op → Prop
  | .putJob j => g.Accounts j
  | .addDeps j => g.parking = some (j.id, j.dependsOn)
  | .removeFromIndex x => x ∈ g.past
  | .clearIndex => False
  | _ => True

def Answers (g : Debts) : (op : Op) → op.Resp → Prop
  | .getJob id, .ok j => j.id = id
  | .getJob id, .error _ => id ∉ g.stored
  | .putJob _, r => r = .ok ()
  | _, _ => True

/-- The job is stored past PENDING and no look at it is owed. -/
structure Done (g : Debts) (x : String) : Prop where
  stored : x ∈ g.stored
  past : x ∈ g.past
  paid : x ∉ g.owes

/-- Nothing is owed. -/
structure Clear (g : Debts) : Prop where
  calls : g.calls = ∅
  owes : g.owes = ∅
  parking : g.parking = none

end Debts

def waking : Protocol Op Op.Resp Debts where
  permits op g := g.Permits op
  answers op r g := g.Answers op r
  next op r g := g.next op r

abbrev Waking {α : Type} (p : M α) (g : Debts) (Q : α → Debts → Prop) : Prop := Meets waking p g Q

/-- The operations of which no note is taken. -/
def Unowed : Op → Prop
  | .getJob _ | .putJob _ | .newID _ | .addDeps _ | .removeFromIndex _ | .dependentsOf _ | .clearIndex => False
  | _ => True

theorem silent_unowed {op : Op} (h : Unowed op) : Silent waking op := by
  cases op <;> first | exact h.elim | exact fun _ => ⟨trivial, fun _ _ => rfl⟩

variable {g g' g'' : Debts} {job j : Job} {x : String}

theorem waking_unowed (op : Op) (h : Unowed op) : Waking (act op) g fun _ g' => g' = g := (silent_unowed h).meets g

/-- From `g` to `g'` more is known and no more is owed. -/
structure Later (g g' : Debts) : Prop where
  deps : ∀ x, g.deps x ⊆ g'.deps x
  stored : g.stored ⊆ g'.stored
  past : g.past ⊆ g'.past
  calls : g'.calls ⊆ g.calls
  owes : g'.owes ⊆ g.owes
  parking : g'.parking = g.parking

namespace Later

theorem refl (g : Debts) : Later g g := ⟨fun _ => subset_rfl, subset_rfl, subset_rfl, subset_rfl, subset_rfl, rfl⟩

theorem of_eq (h : g' = g) : Later g g' := h ▸ refl g

theorem trans (h : Later g g') (h' : Later g' g'') : Later g g'' where
  deps x := (h.deps x).trans (h'.deps x)
  stored := h.stored.trans h'.stored
  past := h.past.trans h'.past
  calls := h'.calls.trans h.calls
  owes := h'.owes.trans h.owes
  parking := h'.parking.trans h.parking

theorem calls_empty (h : Later g g') (hc : g.calls = ∅) : g'.calls = ∅ := Set.subset_empty_iff.1 (hc ▸ h.calls)

theorem clear (h : Later g g') (hg : g.Clear) : g'.Clear :=
  ⟨h.calls_empty hg.calls, Set.subset_empty_iff.1 (hg.owes ▸ h.owes), h.parking.trans hg.parking⟩

theorem done (h : Later g g') (hx : g.Done x) : g'.Done x :=
  ⟨h.stored hx.stored, h.past hx.past, fun ho => hx.paid (h.owes ho)⟩

theorem behind (h : Later g g') (d : String) : g.behind d ⊆ g'.behind d :=
  fun x ⟨ds, hds, hd⟩ => ⟨ds, h.deps x hds, hd⟩

end Later

namespace Debts

theorem deps_found (g : Debts) (j : Job) (x : String) : g.deps x ⊆ (g.found j).deps x := by
  intro ds hds
  show ds ∈ Function.update g.deps j.id (insert j.dependsOn (g.deps j.id)) x
  rw [Function.update_apply]
  split
  · rename_i he
    exact Set.mem_insert_of_mem _ (he ▸ hds)
  · exact hds

theorem dependsOn_found (g : Debts) (j : Job) : j.dependsOn ∈ (g.found j).deps j.id := by
  show j.dependsOn ∈ Function.update g.deps j.id (insert j.dependsOn (g.deps j.id)) j.id
  rw [Function.update_self]
  exact Set.mem_insert _ _

theorem later_read (g : Debts) (j : Job) : Later g (g.read j) :=
  ⟨g.deps_found j, Set.subset_insert _ _, Set.subset_union_left, subset_rfl, Set.sdiff_subset, rfl⟩

theorem later_missed (g : Debts) (id : String) : Later g (g.missed id) :=
  ⟨fun _ => subset_rfl, subset_rfl, subset_rfl, subset_rfl, Set.sdiff_subset, rfl⟩

/-- After a write past PENDING that completes nothing. -/
theorem later_wrote (hp : j.state ≠ .pending) (hs : j.state ≠ .succeeded) : Later g (g.wrote j) := by
  refine ⟨g.deps_found j, Set.subset_insert _ _, Set.subset_union_left, ?_, Set.sdiff_subset, if_neg hp⟩
  rintro x (hx | ⟨_, h⟩)
  · exact hx
  · exact absurd h hs

theorem later_lookedUp {d : String} (xs : List String) (hd : d ∉ g.calls) : Later g (g.lookedUp d xs) := by
  refine ⟨fun _ => subset_rfl, Set.subset_union_left, subset_rfl, Set.sdiff_subset, ?_, rfl⟩
  rintro x (hx | ⟨_, h⟩)
  · exact hx
  · exact absurd h hd

theorem done_read (hp : j.state ≠ .pending) : (g.read j).Done j.id :=
  ⟨Set.mem_insert _ _, .inr ⟨rfl, hp⟩, fun h => h.2 (.inl ⟨rfl, hp⟩)⟩

theorem done_wrote (hp : j.state ≠ .pending) : (g.wrote j).Done j.id :=
  ⟨Set.mem_insert _ _, .inr ⟨rfl, hp⟩, fun h => h.2 rfl⟩

end Debts

/-! ## Reading and writing -/

theorem waking_getJob (id : String) : Waking (Db.getJob id) g fun r g' => g' = g.next (.getJob id) r ∧
    (∀ j, r = .ok j → j.id = id) ∧ ∀ e, r = .error e → id ∉ g.stored := by
  refine ⟨trivial, fun r hr => ⟨rfl, ?_, ?_⟩⟩
  · rintro j rfl
    exact hr
  · rintro e rfl
    exact hr

theorem waking_putJob (h : g.Accounts j) : Waking (putJob j) g fun r g' => r = .ok () ∧ g' = g.wrote j := by
  have hput : Waking (Db.putJob j) g fun r g' => r = .ok () ∧ g' = g.wrote j := ⟨h, fun _ hr => ⟨hr, rfl⟩⟩
  refine hput.bind ?_
  rintro _ _ ⟨rfl, rfl⟩
  refine (meets_appendRepl _ (silent_unowed trivial) (silent_unowed trivial)).bind ?_
  rintro _ _ rfl
  exact ⟨rfl, rfl⟩

/-- A job in hand is written past PENDING. -/
theorem waking_rewrite (h : j.dependsOn ∈ g.deps j.id) (hp : j.state ≠ .pending) (hs : j.state ≠ .succeeded) :
    Waking (putJob j) g fun r g' => r = .ok () ∧ Later g g' ∧ g'.Done j.id := by
  refine (waking_putJob (.inr ⟨h, hp⟩)).mono ?_
  rintro _ _ ⟨rfl, rfl⟩
  exact ⟨rfl, Debts.later_wrote hp hs, Debts.done_wrote hp⟩

theorem waking_enqueueJob (x : String) : Waking (enqueueJob x) g fun _ g' => Later g g' := by
  refine Meets.bind (waking_unowed .isClosed trivial) ?_
  rintro closed g rfl
  cases closed with
  | true => exact Later.refl g
  | false =>
    refine Meets.bind (waking_unowed .isLeader trivial) ?_
    rintro leads g rfl
    cases leads with
    | false => exact Later.refl g
    | true =>
      refine (waking_getJob x).bind ?_
      rintro r _ ⟨rfl, -⟩
      cases r with
      | error e => exact g.later_missed x
      | ok j =>
        dsimp only
        split
        · exact g.later_read j
        · exact (waking_unowed (.push ..) trivial).bind fun _ _ hg => hg ▸ g.later_read j

theorem waking_armEnqueue (x : String) (delay : Int) : Waking (armEnqueue x delay) g fun _ g' => Later g g' := by
  unfold armEnqueue
  split
  · exact waking_enqueueJob x
  · exact (waking_unowed (.startTimer ..) trivial).mono fun _ _ => Later.of_eq

/-- If the dependencies are not found satisfied, one of them was read other than SUCCEEDED, and the jobs behind it
have been tried. -/
theorem waking_depsSatisfied : ∀ (deps : List String) (g : Debts), Waking (depsSatisfied deps) g fun r g' =>
    Later g g' ∧ g'.placing = g.placing ∧ (r.1 = false → ∃ d ∈ deps, ∀ x ∈ g.behind d, x ∉ g'.owes)
  | [], g => ⟨.refl g, rfl, fun h => nomatch h⟩
  | d :: rest, g => by
    refine (waking_getJob d).bind ?_
    rintro r _ ⟨rfl, hid, -⟩
    cases r with
    | error e =>
      exact ⟨g.later_missed d, rfl, fun _ => ⟨d, List.mem_cons_self .., fun x hx h => h.2 (.inr hx)⟩⟩
    | ok dep =>
      obtain rfl : dep.id = d := hid dep rfl
      have hread : Later g (g.read dep) := g.later_read dep
      have hmet : dep.state ≠ .succeeded → ∃ d ∈ dep.id :: rest, ∀ x ∈ g.behind d, x ∉ (g.read dep).owes :=
        fun hs => ⟨dep.id, List.mem_cons_self .., fun x hx h => h.2 (.inr ⟨hs, hx⟩)⟩
      dsimp only
      cases hs : dep.state
      case succeeded =>
        refine (waking_depsSatisfied rest (g.read dep)).mono ?_
        rintro r g' ⟨hg', hp, hrest⟩
        refine ⟨hread.trans hg', hp, fun hr => ?_⟩
        obtain ⟨d, hd, hbehind⟩ := hrest hr
        exact ⟨d, List.mem_cons_of_mem _ hd, fun x hx => hbehind x (hread.behind d hx)⟩
      all_goals exact ⟨hread, rfl, fun _ => hmet (by rw [hs]; decide)⟩

/-! ## Placement and promotion -/

/-- A job in hand, or one that may be placed, is made ready. -/
theorem waking_makeReady (ps : Cron) (now : Time)
    (ha : ∀ t, g.Accounts { job with scheduledAt := t, state := .queued, updatedAt := some now.ns }) :
    Waking (makeReady ps job now) g fun _ g' => Later g g' ∧ g'.Done job.id := by
  refine (meets_fireTime ps job now (silent_unowed trivial)).bind ?_
  rintro ⟨_, delay⟩ g ⟨rfl, t, rfl⟩
  refine (waking_putJob (ha t)).bind ?_
  rintro _ _ ⟨rfl, rfl⟩
  have hq : ({ job with scheduledAt := t, state := .queued, updatedAt := some now.ns } : Job).state ≠ .pending :=
    fun h => nomatch h
  refine (waking_armEnqueue _ _).mono fun _ g' h => ?_
  exact ⟨(Debts.later_wrote hq fun h => nomatch h).trans h, h.done (Debts.done_wrote hq)⟩

/-- A submission registers the job it parks. -/
theorem waking_placeNewJob (ps : Cron) (now : Time) (hp : g.placing = some job.id) (hg : g.Clear) :
    Waking (placeNewJob ps job now) g fun _ g' => g'.Clear := by
  refine (waking_depsSatisfied job.dependsOn g).bind ?_
  rintro ⟨ready, failedDep⟩ g₁ ⟨h₁, hp₁, -⟩
  have hplace : g₁.placing = some job.id := hp₁.trans hp
  have hg₁ : g₁.Clear := h₁.clear hg
  dsimp only
  split
  · refine (waking_putJob (.inl ⟨?_, ?_, hg₁.parking⟩)).bind ?_
    · exact hplace
    · exact fun h => nomatch h
    rintro _ _ ⟨rfl, rfl⟩
    refine (Debts.later_wrote ?_ ?_).clear hg₁ <;> exact fun h => nomatch h
  · split
    · refine (waking_putJob (.inl ⟨?_, ?_, hg₁.parking⟩)).bind ?_
      · exact hplace
      · exact fun h => nomatch h
      rintro _ _ ⟨rfl, rfl⟩
      -- the debt of the registration is incurred by the write and paid at once
      refine ⟨rfl, fun _ _ => ⟨?_, ?_, rfl⟩⟩
      · show g₁.calls ∪ _ = ∅
        rw [hg₁.calls, Set.empty_union]
        exact Set.eq_empty_of_forall_notMem fun _ h => nomatch h.2
      · show g₁.owes \ _ = ∅
        rw [hg₁.owes, Set.empty_sdiff]
    · exact (waking_makeReady ps now fun t => .inl ⟨hplace, (fun h => nomatch h), hg₁.parking⟩).mono fun _ _ h => h.1.clear hg₁

/-- The root of a cascade, and whatever the index names, is stored, so it is found and gets past PENDING. -/
theorem waking_cancelOne (reason : String) (now : Int) (hx : x ∈ g.stored) :
    Waking (cancelOne x reason now) g fun _ g' => Later g g' ∧ g'.Done x := by
  refine (waking_getJob x).bind ?_
  rintro r _ ⟨rfl, hid, hmiss⟩
  cases r with
  | error e => exact absurd hx (hmiss e rfl)
  | ok job =>
    have hread : Later g (g.read job) := g.later_read job
    obtain rfl : job.id = x := hid job rfl
    dsimp only
    split
    · rename_i ht
      have hp : job.state ≠ .pending := by
        intro h
        rw [h] at ht
        cases ht
      exact ⟨hread, Debts.done_read hp⟩
    · refine (waking_rewrite ?_ ?_ ?_).bind ?_
      · exact g.dependsOn_found job
      · exact fun h => nomatch h
      · exact fun h => nomatch h
      rintro _ g' ⟨rfl, hput, hdone⟩
      refine (waking_unowed (.remove _) trivial).bind ?_
      rintro _ _ rfl
      exact ⟨hread.trans hput, hdone⟩

theorem waking_cascadeLoop (now : Int) : ∀ (fuel : Nat) (visited work : List String) (reason : String) (g : Debts),
    g.calls = ∅ → (∀ x ∈ work, x ∈ g.stored) → Waking (cascadeLoop now fuel visited work reason) g fun _ g' =>
      Later g g' ∧ ∀ x ∉ visited, work.head? = some x → fuel ≠ 0 → x ∉ g'.owes
  | 0, _, _, _, g, _, _ => ⟨Later.refl g, fun _ _ _ h => absurd rfl h⟩
  | _ + 1, _, [], _, g, _, _ => ⟨Later.refl g, fun _ _ h => nomatch h⟩
  | fuel + 1, visited, x :: work, reason, g, hc, hwork => by
    have hrest : ∀ y ∈ work, y ∈ g.stored := fun y hy => hwork y (List.mem_cons_of_mem _ hy)
    unfold cascadeLoop
    split
    · rename_i hv
      refine (waking_cascadeLoop now fuel visited work reason g hc hrest).mono fun _ g' h => ⟨h.1, ?_⟩
      rintro _ hn ⟨⟩
      exact absurd hv hn
    · refine (waking_cancelOne reason now (hwork x (List.mem_cons_self ..))).bind ?_
      rintro _ g₁ ⟨h₁, hdone⟩
      have hc₁ : g₁.calls = ∅ := h₁.calls_empty hc
      refine Meets.bind (Q := fun xs g₂ => g₂ = g₁.lookedUp x xs) ⟨trivial, fun _ _ => rfl⟩ ?_
      rintro xs _ rfl
      have h₂ : Later g₁ (g₁.lookedUp x xs) := Debts.later_lookedUp xs (hc₁ ▸ Set.notMem_empty x)
      refine Meets.bind (Q := fun _ g₂ => g₂ = g₁.lookedUp x xs) ⟨hdone.past, fun _ _ => rfl⟩ ?_
      rintro _ _ rfl
      refine (waking_cascadeLoop now fuel _ _ _ _ (h₂.calls_empty hc₁) fun y hy => ?_).mono fun _ g' h => ?_
      · rcases List.mem_append.1 hy with hy | hy
        · exact .inr (List.mem_reverse.1 hy)
        · exact h₂.stored (h₁.stored (hrest y hy))
      · refine ⟨h₁.trans (h₂.trans h.1), ?_⟩
        rintro _ _ ⟨⟩ _ hx
        exact hdone.paid (h₂.owes (h.1.owes hx))

theorem waking_cancelCascade (reason : String) (hc : g.calls = ∅) (hx : x ∈ g.stored) :
    Waking (cancelCascade x reason) g fun _ g' => Later g g' ∧ x ∉ g'.owes := by
  refine Meets.bind (waking_unowed .now trivial) ?_
  rintro now g rfl
  refine Meets.bind (waking_unowed .indexBound trivial) ?_
  rintro bound g rfl
  refine (waking_cascadeLoop _ (bound + 1) [] [x] reason g hc fun y hy => ?_).mono fun _ g' h => ?_
  · rw [List.mem_singleton.1 hy]
    exact hx
  · exact ⟨h.1, h.2 x (List.not_mem_nil) rfl (Nat.succ_ne_zero _)⟩

/-- Whatever is found, the job has been tried. -/
theorem waking_tryPromote (ps : Cron) (x : String) (hc : g.calls = ∅) :
    Waking (tryPromote ps x) g fun _ g' => Later g g' ∧ x ∉ g'.owes := by
  refine (waking_getJob x).bind ?_
  rintro r _ ⟨rfl, hid, -⟩
  cases r with
  | error e => exact ⟨g.later_missed x, fun h => h.2 (.inl rfl)⟩
  | ok job =>
    have hread : Later g (g.read job) := g.later_read job
    obtain rfl : job.id = x := hid job rfl
    dsimp only
    split
    · rename_i hs
      exact ⟨hread, (Debts.done_read hs).paid⟩
    · refine (waking_depsSatisfied job.dependsOn (g.read job)).bind ?_
      rintro ⟨ready, failedDep⟩ g₁ ⟨h₁, -, hmet⟩
      have hg₁ : Later g g₁ := hread.trans h₁
      have hc₁ : g₁.calls = ∅ := hg₁.calls_empty hc
      dsimp only at hmet ⊢
      split
      · exact (waking_cancelCascade _ hc₁ (h₁.stored (Set.mem_insert _ _))).mono fun _ _ h => ⟨hg₁.trans h.1, h.2⟩
      · split
        · refine Meets.bind (waking_unowed .now trivial) ?_
          rintro now g₁ rfl
          refine (waking_makeReady ps now fun t => .inr ⟨?_, fun h => nomatch h⟩).bind ?_
          · exact h₁.deps _ (g.dependsOn_found job)
          rintro _ g₂ ⟨h₂, hdone⟩
          refine Meets.mono (Q := fun _ g' => g' = g₂) ⟨hdone.past, fun _ _ => rfl⟩ ?_
          rintro _ _ rfl
          exact ⟨hg₁.trans h₂, hdone.paid⟩
        · rename_i hready
          obtain ⟨d, hd, hbehind⟩ := hmet (by simpa using hready)
          exact ⟨hg₁, hbehind _ ⟨_, g.dependsOn_found job, hd⟩⟩

/-- The dependents of a completed job are looked up and tried, one after the other. -/
theorem waking_promoteDependents (ps : Cron) (hc : g.calls ⊆ {x}) (ho : g.owes = ∅) (hp : g.parking = none) :
    Waking (promoteDependents ps x) g fun _ g' => g'.Clear := by
  refine Meets.bind (Q := fun xs g₁ => g₁ = g.lookedUp x xs) ⟨trivial, fun _ _ => rfl⟩ ?_
  rintro xs _ rfl
  have hcalls : (g.lookedUp x xs).calls = ∅ := Set.sdiff_eq_empty.2 hc
  refine (Meets.forM (fun d g' => g'.calls = ∅ ∧ g'.parking = none ∧ ∀ y ∈ g'.owes, y ∈ xs ∧ y ∉ d) ?_
    ⟨hcalls, hp, ?_⟩).mono ?_
  · rintro d y r g₁ - ⟨hc₁, hp₁, ho₁⟩
    refine (waking_tryPromote ps y hc₁).mono ?_
    rintro _ g₂ ⟨h₂, hy⟩
    refine ⟨h₂.calls_empty hc₁, h₂.parking.trans hp₁, fun z hz => ⟨(ho₁ z (h₂.owes hz)).1, ?_⟩⟩
    rw [List.mem_append, List.mem_singleton]
    rintro (hd | rfl)
    · exact (ho₁ z (h₂.owes hz)).2 hd
    · exact hy hz
  · rintro y (hy | hy)
    · rw [ho] at hy
      exact hy.elim
    · exact ⟨hy.1, List.not_mem_nil⟩
  · rintro _ g' ⟨hc', hp', ho'⟩
    exact ⟨hc', Set.eq_empty_of_forall_notMem fun y hy => (ho' y hy).2 (ho' y hy).1, hp'⟩

end Distsched.Concurrent
