/-
No promotion is lost, if a job is registered in the dependency index only while one of its dependencies has not
succeeded. Then whenever a stored job is PENDING with all its dependencies SUCCEEDED, some handler still owes it a
look, and handlers end with no debts. Without the condition a completion can slip in between the moment a submission
reads its dependencies and the moment it registers, and the job then waits for ever.
-/
import Distsched.Concurrent.Paying
import Distsched.Lifecycle.History
import Distsched.Lifecycle.Turn

namespace Distsched.Concurrent

open Scheduler Lifecycle Prog

/-- No ID is used again. -/
def Fresh : Pool.Guard Op Server Debts := fun op g _ s =>
  ∀ j, op = .putJob j → g.placing = some j.id → s.store.jobs.get j.id = none

/-- No ID is used again, and a job is registered only while a dependency is missing or not SUCCEEDED. -/
def Timely : Pool.Guard Op Server Debts := fun op g gs s => Fresh op g gs s ∧
  ∀ j, op = .addDeps j → ∃ d ∈ j.dependsOn, ∀ jd, s.store.jobs.get d = some jd → jd.state ≠ .succeeded

/-! ## What the notes of a handler say of the store -/

/-- Records are only rewritten, with the dependencies they have, and none becomes PENDING again. -/
def Evolves (T T' : Table) : Prop := ∀ x j, T x = some j →
  ∃ j', T' x = some j' ∧ j'.dependsOn = j.dependsOn ∧ (j.state ≠ .pending → j'.state ≠ .pending)

structure Tells (g : Debts) (T : Table) : Prop where
  deps : ∀ x ds, ds ∈ g.deps x → ∃ j, T x = some j ∧ j.dependsOn = ds
  stored : ∀ x, x ∈ g.stored → ∃ j, T x = some j
  past : ∀ x, x ∈ g.past → ∃ j, T x = some j ∧ j.state ≠ .pending
  parking : ∀ x ds, g.parking = some (x, ds) → ∃ j, T x = some j ∧ j.dependsOn = ds

variable {env : Env} {g : Debts} {T T' : Table} {j : Job} {s : Server} {gs : List Debts} {i : Nat}

theorem Tells.evolves (h : Tells g T) (he : Evolves T T') : Tells g T' where
  deps x ds hds := by
    obtain ⟨j, hj, rfl⟩ := h.deps x ds hds
    obtain ⟨j', hj', hd, -⟩ := he x j hj
    exact ⟨j', hj', hd⟩
  stored x hx := by
    obtain ⟨j, hj⟩ := h.stored x hx
    obtain ⟨j', hj', -⟩ := he x j hj
    exact ⟨j', hj'⟩
  past x hx := by
    obtain ⟨j, hj, hs⟩ := h.past x hx
    obtain ⟨j', hj', -, hs'⟩ := he x j hj
    exact ⟨j', hj', hs' hs⟩
  parking x ds hds := by
    obtain ⟨j, hj, rfl⟩ := h.parking x ds hds
    obtain ⟨j', hj', hd, -⟩ := he x j hj
    exact ⟨j', hj', hd⟩

theorem Tells.found (h : Tells g T) (hj : T j.id = some j) : Tells (g.found j) T where
  deps x ds hds := by
    replace hds : ds ∈ Function.update g.deps j.id (insert j.dependsOn (g.deps j.id)) x := hds
    rw [Function.update_apply] at hds
    split at hds
    · rename_i he
      subst he
      rcases hds with rfl | hds
      · exact ⟨j, hj, rfl⟩
      · exact h.deps _ ds hds
    · exact h.deps x ds hds
  stored x hx := by
    rcases hx with rfl | hx
    · exact ⟨j, hj⟩
    · exact h.stored x hx
  past x hx := by
    rcases hx with hx | ⟨rfl, hs⟩
    · exact h.past x hx
    · exact ⟨j, hj, hs⟩
  parking := h.parking

/-- The write of a job that the notes account for. -/
theorem Tells.evolves_put (h : Tells g T) (ha : g.Accounts j) (hfresh : g.placing = some j.id → T j.id = none) :
    Evolves T (Function.update T j.id (some j)) := by
  intro x j₀ hj₀
  rw [Function.update_apply]
  split
  · rename_i he
    subst he
    refine ⟨j, rfl, ?_⟩
    rcases ha with ⟨hp, _⟩ | ⟨hds, hs⟩
    · rw [hfresh hp] at hj₀
      cases hj₀
    · obtain ⟨j₁, hj₁, hd⟩ := h.deps _ _ hds
      cases hj₁.symm.trans hj₀
      exact ⟨hd.symm, fun _ => hs⟩
  · exact ⟨j₀, hj₀, rfl, id⟩

theorem Tells.wrote (h : Tells g T) (ha : g.Accounts j) (hfresh : g.placing = some j.id → T j.id = none) :
    Tells (g.wrote j) (Function.update T j.id (some j)) := by
  have hT : Function.update T j.id (some j) j.id = some j := Function.update_self ..
  have hf := (h.evolves (h.evolves_put ha hfresh)).found hT
  refine ⟨hf.deps, hf.stored, hf.past, fun x ds hp => ?_⟩
  replace hp : (if j.state = .pending then some (j.id, j.dependsOn) else g.parking) = some (x, ds) := hp
  split at hp
  · cases hp
    exact ⟨j, hT, rfl⟩
  · exact hf.parking x ds hp

/-! ## Every job that could run is owed a look -/

/-- The handler still owes a look at the job, or its registration. -/
def Debts.Owed (g : Debts) (x : String) (j : Job) : Prop :=
  g.parking = some (x, j.dependsOn) ∨ x ∈ g.owes ∨ ∃ d ∈ j.dependsOn, d ∈ g.calls

structure Watched (s : Server) (gs : List Debts) : Prop where
  /-- A PENDING job is registered, or is about to be. -/
  recorded : ∀ x j, table s x = some j → j.state = .pending →
    (∀ d ∈ j.dependsOn, RevIndex.Waits s.revIndex d x) ∨ ∃ g ∈ gs, g.parking = some (x, j.dependsOn)
  woken : ∀ x j, table s x = some j → j.state = .pending → (table s).Satisfies j → ∃ g ∈ gs, g.Owed x j
  named : ∀ d x, RevIndex.Waits s.revIndex d x → ∃ j, table s x = some j
  tells : ∀ g ∈ gs, Tells g (table s)

theorem Watched.tells_set (h : ∀ g ∈ gs, Tells g T) {g' : Debts} (hg' : Tells g' T) : ∀ a ∈ gs.set i g', Tells a T := by
  intro a ha
  rcases List.mem_or_eq_of_mem_set ha with ha | rfl
  · exact h a ha
  · exact hg'

/-- An operation that changes neither the stored jobs nor the index, and pays a debt only if it is met. -/
theorem Watched.noted (h : Watched s gs) (hi : gs[i]? = some g) {s' : Server} {g' : Debts} (ht : table s' = table s)
    (hx : s'.revIndex = s.revIndex) (htell : Tells g' (table s)) (hp : g'.parking = g.parking)
    (howed : ∀ x j, table s x = some j → j.state = .pending → (table s).Satisfies j → g.Owed x j →
      ∃ a ∈ gs.set i g', a.Owed x j) : Watched s' (gs.set i g') where
  recorded x j hj hs := by
    rw [ht] at hj
    rw [hx]
    refine (h.recorded x j hj hs).imp_right fun hpark => ?_
    exact Pool.exists_mem_set hi hpark fun hg => hp.trans hg
  woken x j hj hs hmet := by
    rw [ht] at hj hmet
    obtain ⟨a, ha, hao⟩ := h.woken x j hj hs hmet
    by_cases hg : g.Owed x j
    · exact howed x j hj hs hmet hg
    · exact Pool.exists_mem_set hi ⟨a, ha, hao⟩ fun hg' => absurd hg' hg
  named := by
    rw [ht, hx]
    exact h.named
  tells := by
    rw [ht]
    exact Watched.tells_set h.tells htell

theorem Watched.unowed (h : Watched s gs) (hi : gs[i]? = some g) {op : Op} (hop : Unowed op) :
    Watched (handle env op s).2 (gs.set i (g.next op (handle env op s).1)) := by
  have hg : g.next op (handle env op s).1 = g := by cases op <;> first | exact hop.elim | rfl
  have ht : table (handle env op s).2 = table s := table_handle (by rintro j rfl; exact hop)
  have hx : (handle env op s).2.revIndex = s.revIndex := by
    cases op with
    | putDeadLetter j | putWorker w =>
      simp only [handle, Server.write]
      split <;> rfl
    | putJob | addDeps | removeFromIndex | clearIndex => exact hop.elim
    | _ => rfl
  rw [hg]
  refine h.noted hi ht hx (h.tells g (List.mem_of_getElem? hi)) rfl fun x j _ _ _ ho => ?_
  exact Pool.exists_mem_set hi ⟨g, List.mem_of_getElem? hi, ho⟩ id

theorem handle_getJob (he : env.Reliable) (id : String) : (handle env (.getJob id) s).1 =
    match table s id with
    | none => .error .notFound
    | some j => .ok j := by
  simp only [handle, he s.tick]
  rfl

/-- A job read past PENDING, or one behind a job read other than SUCCEEDED, is not one that could run. -/
theorem Watched.getJob (he : env.Reliable) (h : Watched s gs) (hi : gs[i]? = some g) (id : String) :
    Watched s.ticked (gs.set i (g.next (.getJob id) (handle env (.getJob id) s).1)) := by
  have htell : Tells g (table s) := h.tells g (List.mem_of_getElem? hi)
  have hmem : ∀ g' : Debts, g' ∈ gs.set i g' := fun g' => List.mem_set (List.getElem?_eq_some_iff.1 hi).1 g'
  have hdep : ∀ x j, table s x = some j → x ∈ g.behind id → id ∈ j.dependsOn := by
    rintro x j hj ⟨ds, hds, hid⟩
    obtain ⟨j', hj', rfl⟩ := htell.deps x ds hds
    cases hj.symm.trans hj'
    exact hid
  rw [handle_getJob he]
  cases hid : table s id with
  | none =>
    refine h.noted hi rfl rfl ⟨htell.deps, htell.stored, htell.past, htell.parking⟩ rfl ?_
    intro x j hj hs hmet ho
    refine ⟨_, hmem _, ho.imp_right (Or.imp_left fun hx => ⟨hx, ?_⟩)⟩
    rintro (rfl | hx)
    · rw [hid] at hj
      cases hj
    · obtain ⟨jd, hjd, _⟩ := hmet id (hdep x j hj hx)
      rw [hid] at hjd
      cases hjd
  | some j₀ =>
    obtain rfl : j₀.id = id := Bucket.get_id hid
    have hfound : Tells (g.found j₀) (table s) := htell.found hid
    refine h.noted hi rfl rfl ⟨hfound.deps, hfound.stored, hfound.past, hfound.parking⟩ rfl ?_
    intro x j hj hs hmet ho
    refine ⟨_, hmem _, ho.imp_right (Or.imp_left fun hx => ⟨hx, ?_⟩)⟩
    rintro (⟨rfl, hp⟩ | ⟨hns, hx⟩)
    · cases hid.symm.trans hj
      exact hp hs
    · obtain ⟨jd, hjd, hsucc⟩ := hmet _ (hdep x j hj hx)
      cases hid.symm.trans hjd
      exact hns hsucc

/-- Whoever looks up the dependents of a completed job finds each of them registered, or about to be. -/
theorem Watched.dependentsOf (h : Watched s gs) (hi : gs[i]? = some g) (d : String) :
    Watched s.ticked (gs.set i (g.lookedUp d (env.order s.tick (RevIndex.dependentsOf s.revIndex d)))) := by
  have htell : Tells g (table s) := h.tells g (List.mem_of_getElem? hi)
  let xs := env.order s.tick (RevIndex.dependentsOf s.revIndex d)
  have hxs : ∀ x, x ∈ xs ↔ RevIndex.Waits s.revIndex d x :=
    fun x => (env.order_perm _ _).mem_iff.trans (RevIndex.mem_dependentsOf _ _ _)
  refine h.noted hi rfl rfl ⟨htell.deps, ?_, htell.past, htell.parking⟩ rfl ?_
  · rintro x (hx | hx)
    · exact htell.stored x hx
    · exact h.named d x ((hxs x).1 hx)
  · intro x j hj hs _ ho
    have hmem : g.lookedUp d xs ∈ gs.set i (g.lookedUp d xs) := List.mem_set (List.getElem?_eq_some_iff.1 hi).1 _
    rcases ho with hp | ho | ⟨d', hd', hc⟩
    · exact ⟨_, hmem, .inl hp⟩
    · exact ⟨_, hmem, .inr (.inl (.inl ho))⟩
    · by_cases hd : d' = d
      · subst hd
        rcases h.recorded x j hj hs with hw | hp
        · exact ⟨_, hmem, .inr (.inl (.inr ⟨(hxs x).2 (hw d' hd'), hc⟩))⟩
        · have hpark : ∃ a ∈ gs.set i (g.lookedUp d' xs), a.parking = some (x, j.dependsOn) :=
            Pool.exists_mem_set hi hp id
          exact hpark.imp fun a ha => ⟨ha.1, .inl ha.2⟩
      · exact ⟨_, hmem, .inr (.inr ⟨d', hd', hc, hd⟩)⟩

/-- Only a job past PENDING is taken from the index. -/
theorem Watched.removeFromIndex (h : Watched s gs) (hi : gs[i]? = some g) {x : String} (hx : x ∈ g.past) :
    Watched (handle env (.removeFromIndex x) s).2 (gs.set i g) := by
  have hset : gs.set i g = gs := Pool.set_self hi
  rw [hset]
  refine ⟨fun y j hj hs => ?_, h.woken, fun d y hy => ?_, h.tells⟩
  · refine (h.recorded y j hj hs).imp_left fun hw d hd => (RevIndex.waits_removeFromIndex ..).2 ⟨hw d hd, ?_⟩
    rintro rfl
    obtain ⟨j', hj', hs'⟩ := (h.tells g (List.mem_of_getElem? hi)).past y hx
    cases hj'.symm.trans hj
    exact hs' hs
  · exact h.named d y ((RevIndex.waits_removeFromIndex ..).1 hy).1

/-- The job that is registered could not run yet. -/
theorem Watched.addDeps (h : Watched s gs) (hi : gs[i]? = some g) (hp : g.parking = some (j.id, j.dependsOn))
    (hok : ∃ d ∈ j.dependsOn, ∀ jd, table s d = some jd → jd.state ≠ .succeeded) :
    Watched (handle env (.addDeps j) s).2 (gs.set i { g with parking := none }) := by
  have htell : Tells g (table s) := h.tells g (List.mem_of_getElem? hi)
  obtain ⟨j₀, hj₀, hd₀⟩ := htell.parking _ _ hp
  -- the debts of the other jobs stay where they are
  have hother : ∀ x ds, x ≠ j.id → (∃ a ∈ gs, a.parking = some (x, ds)) →
      ∃ a ∈ gs.set i { g with parking := none }, a.parking = some (x, ds) := by
    intro x ds hne hex
    refine Pool.exists_mem_set hi hex fun hg => ?_
    rw [hp] at hg
    cases hg
    exact absurd rfl hne
  refine ⟨fun x j' hj' hs => ?_, fun x j' hj' hs hmet => ?_, fun d x hx => ?_, Watched.tells_set h.tells ?_⟩
  · by_cases hx : x = j.id
    · subst hx
      cases hj₀.symm.trans hj'
      exact .inl fun d hd => (RevIndex.waits_addDeps ..).2 (.inr ⟨hd₀ ▸ hd, rfl⟩)
    · exact (h.recorded x j' hj' hs).imp (fun hw d hd => (RevIndex.waits_addDeps ..).2 (.inl (hw d hd)))
        (hother x _ hx)
  · have hx : x ≠ j.id := by
      rintro rfl
      cases hj₀.symm.trans hj'
      obtain ⟨d, hd, hno⟩ := hok
      obtain ⟨jd, hjd, hsucc⟩ := hmet d (hd₀ ▸ hd)
      exact hno jd hjd hsucc
    refine Pool.exists_mem_set hi (h.woken x j' hj' hs hmet) fun ho => ?_
    rcases ho with hg | ho
    · rw [hp] at hg
      exact absurd (congrArg Prod.fst (Option.some.inj hg)).symm hx
    · exact .inr ho
  · rcases (RevIndex.waits_addDeps ..).1 hx with hx | ⟨_, rfl⟩
    · exact h.named d x hx
    · exact ⟨j₀, hj₀⟩
  · exact ⟨htell.deps, htell.stored, htell.past, fun _ _ h => nomatch h⟩

/-- A completion is noted by the handler that writes it, a submission by the one that places it. -/
theorem Watched.putJob (h : Watched s gs) (hi : gs[i]? = some g) (ha : g.Accounts j)
    (hfresh : g.placing = some j.id → table s j.id = none) {s' : Server} (hx : s'.revIndex = s.revIndex)
    (ht : table s' = Function.update (table s) j.id (some j)) : Watched s' (gs.set i (g.wrote j)) := by
  have htell : Tells g (table s) := h.tells g (List.mem_of_getElem? hi)
  have hev : Evolves (table s) (table s') := ht ▸ htell.evolves_put ha hfresh
  have hmem : g.wrote j ∈ gs.set i (g.wrote j) := List.mem_set (List.getElem?_eq_some_iff.1 hi).1 _
  have hold : ∀ x, x ≠ j.id → table s' x = table s x := fun x hne => by rw [ht, Function.update_of_ne hne]
  have hnew : table s' j.id = some j := by rw [ht, Function.update_self]
  have hpark : ∀ x ds, g.parking = some (x, ds) → (g.wrote j).parking = some (x, ds) := by
    intro x ds hp
    have hs : j.state ≠ .pending := by
      rcases ha with ⟨_, _, hnone⟩ | ⟨_, hs⟩
      · rw [hnone] at hp
        cases hp
      · exact hs
    exact (if_neg hs).trans hp
  have hself : j.state = .pending → (g.wrote j).parking = some (j.id, j.dependsOn) := fun hs => if_pos hs
  refine ⟨fun x j' hj' hs => ?_, fun x j' hj' hs hmet => ?_, fun d x hw => ?_, ?_⟩
  · by_cases hxj : x = j.id
    · subst hxj
      cases hnew.symm.trans hj'
      exact .inr ⟨_, hmem, hself hs⟩
    · rw [hold x hxj] at hj'
      rw [hx]
      exact (h.recorded x j' hj' hs).imp_right fun hp => Pool.exists_mem_set hi hp (hpark x _)
  · by_cases hxj : x = j.id
    · subst hxj
      cases hnew.symm.trans hj'
      exact ⟨_, hmem, .inl (hself hs)⟩
    · rw [hold x hxj] at hj'
      by_cases hbefore : (table s).Satisfies j'
      · refine Pool.exists_mem_set hi (h.woken x j' hj' hs hbefore) fun ho => ?_
        exact ho.imp (hpark x _) (Or.imp (fun ho => ⟨ho, hxj⟩) fun ⟨d, hd, hc⟩ => ⟨d, hd, .inl hc⟩)
      · -- the write has completed the last dependency
        have hlast : j.id ∈ j'.dependsOn ∧ j.state = .succeeded := by
          by_contra hno
          refine hbefore fun d hd => ?_
          obtain ⟨jd, hjd, hsucc⟩ := hmet d hd
          by_cases hdj : d = j.id
          · subst hdj
            cases hnew.symm.trans hjd
            exact absurd ⟨hd, hsucc⟩ hno
          · exact ⟨jd, hold d hdj ▸ hjd, hsucc⟩
        exact ⟨_, hmem, .inr (.inr ⟨j.id, hlast.1, .inr ⟨rfl, hlast.2⟩⟩)⟩
  · rw [hx] at hw
    obtain ⟨j', hj'⟩ := h.named d x hw
    obtain ⟨j'', hj'', -⟩ := hev x j' hj'
    exact ⟨j'', hj''⟩
  · refine Watched.tells_set (fun a ha => (h.tells a ha).evolves hev) ?_
    rw [ht]
    exact htell.wrote ha hfresh

theorem inductive_watched (he : env.Reliable) : Pool.Inductive (handle env) waking Timely Watched := by
  intro op g gs s i hi h hperm hok
  have htell : Tells g (table s) := h.tells g (List.mem_of_getElem? hi)
  by_cases hop : Unowed op
  · refine ⟨?_, h.unowed hi hop⟩
    cases op <;> first | exact hop.elim | trivial
  cases op with
  | getJob id =>
    refine ⟨?_, h.getJob he hi id⟩
    show g.Answers (.getJob id) (handle env (.getJob id) s).1
    rw [handle_getJob he]
    cases hid : table s id with
    | some j => exact Bucket.get_id hid
    | none =>
      intro hst
      obtain ⟨j, hj⟩ := htell.stored id hst
      rw [hid] at hj
      cases hj
  | putJob j =>
    have hput : handle env (.putJob j) s =
        (.ok (), { s.ticked with store := { s.store with jobs := s.store.jobs.put j } }) := by
      simp only [handle, Server.write, he s.tick]
    refine ⟨congrArg Prod.fst hput, h.putJob hi hperm (hok.1 j rfl) ?_ ?_⟩
    · rw [hput]
      rfl
    · rw [hput]
      exact table_put s j
  | newID kind =>
    refine ⟨trivial, h.noted hi rfl rfl ?_ ?_ fun x j _ _ _ ho => ?_⟩
    · show Tells (if kind = "job" then _ else g) _
      split
      · exact ⟨htell.deps, htell.stored, htell.past, htell.parking⟩
      · exact htell
    · show (if kind = "job" then _ else g).parking = _
      split <;> rfl
    · refine ⟨_, List.mem_set (List.getElem?_eq_some_iff.1 hi).1 _, ?_⟩
      show (if kind = "job" then _ else g).Owed x j
      split <;> exact ho
  | addDeps j => exact ⟨trivial, h.addDeps hi hperm (hok.2 j rfl)⟩
  | removeFromIndex x => exact ⟨trivial, h.removeFromIndex hi hperm⟩
  | dependentsOf d => exact ⟨trivial, h.dependentsOf hi d⟩
  | clearIndex => exact hperm.elim
  | _ => exact absurd trivial hop

/-! ## Handlers that have all finished -/

/-- Nothing is owed in a settled state in which no handler is under way. -/
theorem watched_of_settled (h : Settled (view env s)) (hgs : ∀ g ∈ gs, Tells g (table s)) : Watched s gs where
  recorded x j hj hs := .inl (h.recorded x j hj hs)
  woken x j hj hs hmet := absurd hmet (h.blocked x j hj hs)
  named d x hx := h.named x d hx
  tells := hgs

theorem Request.tells_debts (r : Request) : Tells r.debts T := by
  cases r with
  | submitJob job => cases job <;> exact ⟨fun _ _ h => h.elim, fun _ h => h.elim, fun _ h => h.elim, fun _ _ h => nomatch h⟩
  | _ => exact ⟨fun _ _ h => h.elim, fun _ h => h.elim, fun _ h => h.elim, fun _ _ h => nomatch h⟩

/-- Handlers begin in a state reached by a leader whose activities ran one after the other. Once all have finished, no
job is PENDING with all its dependencies SUCCEEDED. -/
theorem no_lost_promotion {ps : Cron} {store : Store} {node : Cluster.Node} {s₀ : Server} {rs : List Request}
    {c : Pool Op Op.Resp Server Debts Reply} {x : String} (he : Sound env) (hn : node.isLeader = true)
    (h₀ : Runs env ps (fun _ _ => True) (started env ps store node) s₀)
    (h : Pool.Reaches (handle env) waking Timely (handlers env.cfg ps Request.debts rs s₀) c)
    (hidle : c.idle = true) (hj : c.state.store.jobs.get x = some j)
    (hs : j.state = .pending) : ∃ d ∈ j.dependsOn, ∀ jd, c.state.store.jobs.get d = some jd → jd.state ≠ .succeeded := by
  obtain ⟨_, hb⟩ := Runs.board he hn (I := Settled) (fun _ hr => hr.settled) (fun _ _ _ _ hb ht => hb.turn ht) h₀
  have hsound : Pool.Sound waking Watched (fun _ _ g => g.Clear) c := by
    refine Pool.Reaches.sound (inductive_watched he.reliable) ⟨watched_of_settled hb ?_, ?_⟩ h
    · intro g hg
      obtain ⟨r, _, rfl⟩ := Pool.mem_notes_spawn hg
      exact r.tells_debts
    · intro i t ht
      obtain ⟨r, _, rfl⟩ := Pool.thread_spawn ht
      exact waking_request env.cfg ps r
  by_contra hno
  push Not at hno
  obtain ⟨g, hg, ho⟩ := hsound.inv.woken x j hj hs hno
  obtain ⟨_, _, hclear⟩ := hsound.ended hidle hg
  rcases ho with hp | ho | ⟨d, _, hc⟩
  · rw [hclear.parking] at hp
    cases hp
  · rw [hclear.owes] at ho
    exact ho.elim
  · rw [hclear.calls] at hc
    exact hc.elim

/-! ## Two schedules -/

/-- The report that completes "a". -/
def reportA : Request := .reportTask "task-" .succeeded ""

/-- Whether an operation meets `Fresh`. -/
def fresh (op : Op) (g : Debts) (_ : List Debts) (s : Server) : Bool :=
  match op with
  | .putJob j => g.placing ≠ some j.id || (s.store.jobs.get j.id).isNone
  | _ => true

theorem fresh_sound (op : Op) (g : Debts) (gs : List Debts) (s : Server) (h : fresh op g gs s = true) :
    Fresh op g gs s := by
  rintro j rfl hp
  simpa [fresh, hp] using h

/-- Whether an operation meets `Timely`. -/
def timely (op : Op) (g : Debts) (gs : List Debts) (s : Server) : Bool :=
  fresh op g gs s && match op with
    | .addDeps j => j.dependsOn.any fun d => (s.store.jobs.get d).map Job.state ≠ some .succeeded
    | _ => true

theorem timely_sound (op : Op) (g : Debts) (gs : List Debts) (s : Server) (h : timely op g gs s = true) :
    Timely op g gs s := by
  obtain ⟨h₁, h₂⟩ := Bool.and_eq_true_iff.1 h
  refine ⟨fresh_sound op g gs s h₁, ?_⟩
  rintro j rfl
  obtain ⟨d, hd, hs⟩ := List.any_eq_true.1 h₂
  refine ⟨d, hd, fun jd hjd hsucc => ?_⟩
  simp [hjd, hsucc] at hs

/-- Both submissions read the dependency unfinished while the report is under way. They park their jobs before the report
writes "a" SUCCEEDED, so that it finds "b" in the index and promotes it. "c" waits for "b". -/
theorem no_lost_promotion_parked : ∃ c, Pool.Reaches (handle .steady) waking Timely
      (handlers {} noCron Request.debts
        [.submitJob (jobRequest "b" ["a"]), reportA, .submitJob (jobRequest "c" ["b"])] polled) c ∧ c.idle = true ∧
    (c.state.store.jobs.get "a").map Job.state = some .succeeded ∧ (c.state.store.jobs.get "b").map Job.state = some .queued ∧
    ∃ j, c.state.store.jobs.get "c" = some j ∧ j.state = .pending ∧
      ∃ d ∈ j.dependsOn, ∀ jd, c.state.store.jobs.get d = some jd → jd.state ≠ .succeeded := by
  let schedule : List Nat := List.replicate 4 0 ++ List.replicate 5 1 ++ List.replicate 4 2 ++ List.replicate 4 0 ++
    List.replicate 4 2 ++ List.replicate 16 1
  have hout : ((handlers {} noCron Request.debts
      [.submitJob (jobRequest "b" ["a"]), reportA, .submitJob (jobRequest "c" ["b"])] polled).run (handle .steady) waking timely
      schedule).map (fun c => (c.idle, (c.state.store.jobs.get "a").map Job.state,
        (c.state.store.jobs.get "b").map Job.state, (c.state.store.jobs.get "c").map Job.state)) =
      some (true, some .succeeded, some .queued, some .pending) := by decide +kernel
  obtain ⟨c, hc, hout⟩ := Option.map_eq_some_iff.1 hout
  obtain ⟨hidle, ha, hb, hstate⟩ : _ ∧ _ ∧ _ ∧ _ := by simpa only [Prod.mk.injEq] using hout
  obtain ⟨j, hj, hs⟩ := Option.map_eq_some_iff.1 hstate
  have hreach := Pool.reaches_of_run timely_sound hc
  have hrun : Runs .steady noCron (fun _ _ => True) (started .steady noCron .empty leading) polled :=
    ((Runs.refl.call trivial rfl).call trivial rfl).call trivial rfl
  exact ⟨c, hreach, hidle, ha, hb, j, hj, hs, no_lost_promotion steady_sound rfl hrun hreach hidle hj hs⟩

/-- The submission reads "a" RUNNING; then the report completes "a" and finds nobody waiting; then the submission
parks "b" and registers it. Both have finished, no ID was used again, and nobody will look at "b". -/
theorem promotion_lost : ∃ c, Pool.Reaches (handle .steady) waking Fresh
      (handlers {} noCron Request.debts [.submitJob (jobRequest "b" ["a"]), reportA] polled) c ∧ c.idle = true ∧
    (c.state.store.jobs.get "b").map (fun j => (j.state, j.dependsOn)) = some (.pending, ["a"]) ∧
    (c.state.store.jobs.get "a").map Job.state = some .succeeded := by
  have hout : ((handlers {} noCron Request.debts [.submitJob (jobRequest "b" ["a"]), reportA] polled).run
      (handle .steady) waking fresh
      (List.replicate 4 0 ++ List.replicate 10 1 ++ List.replicate 4 0)).map (fun c =>
        (c.idle, (c.state.store.jobs.get "b").map fun j => (j.state, j.dependsOn),
          (c.state.store.jobs.get "a").map Job.state)) =
      some (true, some (.pending, ["a"]), some .succeeded) := by decide +kernel
  obtain ⟨c, hc, hout⟩ := Option.map_eq_some_iff.1 hout
  obtain ⟨hidle, hb, ha⟩ : _ ∧ _ ∧ _ := by simpa only [Prod.mk.injEq] using hout
  exact ⟨c, Pool.reaches_of_run fresh_sound hc, hidle, hb, ha⟩

end Distsched.Concurrent
