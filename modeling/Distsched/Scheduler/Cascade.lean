/-
What `cancelCascade` does, for any content of the store and any reverse index, cyclic or stale as it may be, while the
store works: it visits the jobs that can be reached from its root along the index as it was at the start, cancels those
that are stored and not final, and takes the visited ones out of the index as dependents.

The loop takes edges out of the index it is walking. It takes out only edges into the job it has just visited, so of an
unvisited job no edge is ever missing. Each edge puts a job on the list at most once, which bounds the number of turns.
-/
import Distsched.Lib.Worklist
import Distsched.Scheduler.Run

namespace Distsched.Scheduler

open Prog
open Relation (ReflTransGen)

variable {env : Env} {s s₀ s₁ : Server} {root cur reason : String} {now : Int}

/-! ## One visit -/

/-- The record of a job canceled for a reason. -/
def canceledFor (reason : String) (now : Int) (j : Job) : Job :=
  { j with state := .canceled, lastError := reason, updatedAt := some now }

/-- What a visit makes of a place in the store. -/
def struck (reason : String) (now : Int) (o : Option Job) : Option Job :=
  o.map fun j => if terminal j.state then j else canceledFor reason now j

/-- The job is stored and not final. -/
def Alive (s : Server) (x : String) : Prop := ∃ j, s.store.jobs.get x = some j ∧ terminal j.state = false

theorem struck_of_alive {o : Option Job} {j : Job} (h : o = some j) (ht : terminal j.state = false) :
    struck reason now o = some (canceledFor reason now j) := by
  rw [h, struck, Option.map_some, ht]
  rfl

theorem struck_of_not_alive {x : String} (h : ¬ Alive s x) :
    struck reason now (s.store.jobs.get x) = s.store.jobs.get x := by
  cases hx : s.store.jobs.get x with
  | none => rfl
  | some j =>
    cases ht : terminal j.state with
    | false => exact absurd ⟨j, hx, ht⟩ h
    | true => rw [struck, Option.map_some, if_pos ht]

/-- A visit leaves a job that had not SUCCEEDED CANCELED or FAILED. -/
theorem struck_of_not_succeeded (reason : String) (now : Int) {o : Option Job} {j : Job} (h : o = some j)
    (hs : j.state ≠ .succeeded) :
    ∃ j', struck reason now o = some j' ∧ (j'.state = .canceled ∨ j'.state = .failed) := by
  cases ht : terminal j.state with
  | false => exact ⟨_, struck_of_alive h ht, .inl rfl⟩
  | true =>
    refine ⟨j, by rw [h, struck, Option.map_some, if_pos ht], ?_⟩
    revert ht hs
    cases j.state <;> simp [terminal]

/-- What `cancelOne` does. -/
structure Strikes (cur reason : String) (now : Int) (s s' : Server) : Prop where
  struck : s'.store.jobs.get cur = struck reason now (s.store.jobs.get cur)
  other : ∀ x, x ≠ cur → s'.store.jobs.get x = s.store.jobs.get x
  ready : ∀ x, s'.queue.Holds x ↔ s.queue.Holds x ∧ ¬ (x = cur ∧ Alive s cur)
  index : s'.revIndex = s.revIndex

theorem Strikes.of_not_alive (h : ¬ Alive s cur) : Strikes cur reason now s s.ticked :=
  ⟨(struck_of_not_alive h).symm, fun _ _ => rfl, fun _ => (and_iff_left fun hx => h hx.2).symm, rfl⟩

theorem sat_cancelOne (he : env.Reliable) (cur reason : String) (now : Int) (s : Server) :
    Sat (handle env) (cancelOne cur reason now) s fun _ s' => Strikes cur reason now s s' := by
  refine (getJob_reliable he cur s).bind ?_
  rintro r _ ⟨hr, rfl⟩
  cases hj : s.store.jobs.get cur with
  | none =>
    simp only [hj] at hr
    subst hr
    refine Strikes.of_not_alive ?_
    rintro ⟨j, hj', -⟩
    cases hj.symm.trans hj'
  | some j =>
    simp only [hj] at hr
    subst hr
    dsimp only
    split
    · rename_i ht
      refine Strikes.of_not_alive ?_
      rintro ⟨j', hj', ht'⟩
      cases hj.symm.trans hj'
      rw [ht] at ht'
      cases ht'
    · rename_i ht
      have ht : terminal j.state = false := Bool.eq_false_iff.2 ht
      obtain rfl : j.id = cur := Bucket.get_id hj
      refine (putJob_reliable he _ s.ticked).bind ?_
      rintro _ s₁ ⟨rfl, h₁⟩
      have hremove : Sat (handle env) (Queue.remove j.id) s₁ fun _ s₂ =>
          s₂ = { s₁.ticked with queue := (s₁.queue.remove j.id).2 } := rfl
      refine hremove.bind ?_
      rintro _ _ rfl
      rw [h₁]
      refine ⟨?_, fun x hx => ?_, fun x => ?_, rfl⟩
      · show (s.store.jobs.put _).get j.id = _
        rw [struck_of_alive hj ht, Bucket.get_put]
        exact if_pos rfl
      · show (s.store.jobs.put _).get x = _
        rw [Bucket.get_put]
        exact if_neg hx
      · show (s.queue.remove j.id).2.Holds x ↔ _
        rw [PriorityQueue.holds_remove, and_comm]
        exact and_congr_right fun _ => ⟨fun hx h => hx h.1, fun h hx => h ⟨hx, j, hj, ht⟩⟩

/-! ## The loop -/

/-- The jobs that wait on `root`, on one of those, and so on, and `root` itself. -/
def Reach (s : Server) (root x : String) : Prop := ReflTransGen (RevIndex.Waits s.revIndex) root x

/-- The loop, begun in state `s₀`, has visited some jobs, each with a reason, and has come to state `s`. -/
structure Swept (s₀ : Server) (root : String) (now : Int) (trace : List (String × String)) (work : List String)
    (s : Server) : Prop where
  sweep : Worklist.Sweep (RevIndex.Waits s₀.revIndex) root (trace.map Prod.fst) work
  struck : ∀ p ∈ trace, s.store.jobs.get p.1 = struck p.2 now (s₀.store.jobs.get p.1)
  other : ∀ x, x ∉ trace.map Prod.fst → s.store.jobs.get x = s₀.store.jobs.get x
  ready : ∀ x, s.queue.Holds x ↔ s₀.queue.Holds x ∧ ¬ (x ∈ trace.map Prod.fst ∧ Alive s₀ x)
  waits : ∀ d y, RevIndex.Waits s.revIndex d y ↔ RevIndex.Waits s₀.revIndex d y ∧ y ∉ trace.map Prod.fst

namespace Swept

variable {trace : List (String × String)} {work deps : List String}

theorem start : Swept s root now [] [root] s.ticked.ticked :=
  ⟨.start, by simp, fun _ _ => rfl, by simp [Server.ticked], by simp [Server.ticked]⟩

theorem skip (h : Swept s₀ root now trace (cur :: work) s) (hcur : cur ∈ trace.map Prod.fst) :
    Swept s₀ root now trace work s := { h with sweep := h.sweep.skip hcur }

theorem visit (h : Swept s₀ root now trace (cur :: work) s) (hcur : cur ∉ trace.map Prod.fst)
    (hs : Strikes cur reason now s s₁) (hdeps : ∀ y, y ∈ deps ↔ RevIndex.Waits s₁.revIndex cur y) {s₂ : Server}
    (hjobs : s₂.store.jobs = s₁.store.jobs) (hqueue : s₂.queue = s₁.queue)
    (hindex : s₂.revIndex = RevIndex.removeFromIndex s₁.revIndex cur) :
    Swept s₀ root now ((cur, reason) :: trace) (deps.reverse ++ work) s₂ := by
  have hplace : s.store.jobs.get cur = s₀.store.jobs.get cur := h.other cur hcur
  have halive : Alive s cur ↔ Alive s₀ cur := by rw [Alive, Alive, hplace]
  refine ⟨h.sweep.visit fun y => ?_, ?_, fun x hx => ?_, fun x => ?_, fun d y => ?_⟩
  · rw [List.mem_reverse, hdeps, hs.index, h.waits]
  · refine List.forall_mem_cons.2 ⟨?_, fun p hp => ?_⟩
    · rw [hjobs, hs.struck, hplace]
    · have hne : p.1 ≠ cur := fun he => hcur (he ▸ List.mem_map_of_mem hp)
      rw [hjobs, hs.other _ hne, h.struck p hp]
  · rw [List.map_cons, List.mem_cons, not_or] at hx
    rw [hjobs, hs.other x hx.1, h.other x hx.2]
  · rw [hqueue, hs.ready, h.ready, List.map_cons, List.mem_cons, halive]
    by_cases hx : x = cur
    · subst hx
      simp [hcur]
    · simp [hx]
  · rw [hindex, RevIndex.waits_removeFromIndex, hs.index, h.waits, List.map_cons, List.mem_cons, not_or]
    tauto

end Swept

/-- What the loop keeps, told by its visits so far, its list and the reason it has ready. -/
structure LoopRule (env : Env) (s₀ : Server) (root : String) (I : List (String × String) → List String → String → Prop) :
    Prop where
  skip : ∀ trace cur work reason, cur ∈ trace.map Prod.fst → I trace (cur :: work) reason → I trace work reason
  visit : ∀ trace cur work reason (deps : List String),
    Worklist.Sweep (RevIndex.Waits s₀.revIndex) root (trace.map Prod.fst) (cur :: work) → cur ∉ trace.map Prod.fst →
    (∃ t l, deps = env.order t l) → (∀ y, y ∈ deps ↔ RevIndex.Waits s₀.revIndex cur y ∧ y ∉ trace.map Prod.fst) →
    I trace (cur :: work) reason → I ((cur, reason) :: trace) (deps.reverse ++ work) (upstreamFailed cur)

/-- The dependents read for a job, and the index without them. -/
theorem sat_dependentsOf (cur : String) (s : Server) : Sat (handle env) (dependentsOf cur) s fun r s' =>
    r.Nodup ∧ (∃ t l, r = env.order t l) ∧ (∀ y, y ∈ r ↔ RevIndex.Waits s.revIndex cur y) ∧ s' = s.ticked := by
  refine ⟨?_, ⟨_, _, rfl⟩, fun y => ?_, rfl⟩
  · exact (env.order_perm _ _).nodup_iff.2 (RevIndex.nodup_dependentsOf _ _)
  · exact (env.order_perm _ _).mem_iff.trans (RevIndex.mem_dependentsOf ..)

/-- The edges out of jobs not visited, when one more job has been. -/
theorem edges_left {E : List (String × String)} {visited deps : List String} {m m' : RevIndex}
    (hE : ∀ d y, d ∉ visited → m.Waits d y → (d, y) ∈ E) (hcur : cur ∉ visited) (hn : deps.Nodup)
    (hdeps : ∀ y ∈ deps, m.Waits cur y) (hm : ∀ d y, m'.Waits d y → m.Waits d y) :
    (∀ d y, d ∉ cur :: visited → m'.Waits d y → (d, y) ∈ E.filter fun e => e.1 ≠ cur) ∧
      deps.length + (E.filter fun e => e.1 ≠ cur).length ≤ E.length := by
  refine ⟨fun d y hd hy => ?_, Worklist.length_edges_of hn fun y hy => hE cur y hcur (hdeps y hy)⟩
  rw [List.mem_cons, not_or] at hd
  exact List.mem_filter.2 ⟨hE d y hd.2 (hm d y hy), by simpa using hd.1⟩

/-- The loop comes to an empty list if it may take a turn for each job on the list and each edge out of a job not visited. -/
theorem sat_cascadeLoop (he : env.Reliable) {I : List (String × String) → List String → String → Prop}
    (hI : LoopRule env s₀ root I) (now : Int) :
    ∀ (fuel : Nat) (trace : List (String × String)) (work : List String) (reason : String) (s : Server)
      (E : List (String × String)), Swept s₀ root now trace work s → I trace work reason →
      (∀ d y, d ∉ trace.map Prod.fst → RevIndex.Waits s.revIndex d y → (d, y) ∈ E) → work.length + E.length ≤ fuel →
      Sat (handle env) (cascadeLoop now fuel (trace.map Prod.fst) work reason) s fun _ s' =>
        ∃ trace' reason', Swept s₀ root now trace' [] s' ∧ I trace' [] reason'
  | 0, trace, work, reason, s, E, hs, hi, _, hfuel => by
    obtain rfl : work = [] := List.length_eq_zero_iff.1 (by omega)
    exact ⟨trace, reason, hs, hi⟩
  | _ + 1, trace, [], reason, s, E, hs, hi, _, _ => ⟨trace, reason, hs, hi⟩
  | fuel + 1, trace, cur :: work, reason, s, E, hs, hi, hE, hfuel => by
    rw [List.length_cons] at hfuel
    unfold cascadeLoop
    split
    · rename_i hcur
      exact sat_cascadeLoop he hI now fuel trace work reason s E (hs.skip hcur) (hI.skip _ _ _ _ hcur hi) hE (by omega)
    · rename_i hcur
      refine (sat_cancelOne he cur reason now s).bind fun _ s₁ h₁ => ?_
      refine (sat_dependentsOf cur s₁).bind ?_
      rintro deps _ ⟨hn, horder, hdeps, rfl⟩
      have hremove : Sat (handle env) (removeFromIndex cur) s₁.ticked fun _ s₂ =>
        s₂ = { s₁.ticked.ticked with revIndex := RevIndex.removeFromIndex s₁.revIndex cur } := rfl
      refine hremove.bind ?_
      rintro _ _ rfl
      have hold : ∀ y ∈ deps, RevIndex.Waits s.revIndex cur y := fun y hy => h₁.index ▸ (hdeps y).1 hy
      have hless : ∀ d y, RevIndex.Waits (RevIndex.removeFromIndex s₁.revIndex cur) d y → RevIndex.Waits s.revIndex d y := by
        intro d y hy
        rw [RevIndex.waits_removeFromIndex, h₁.index] at hy
        exact hy.1
      obtain ⟨hE', hlen⟩ := edges_left hE hcur hn hold hless
      refine sat_cascadeLoop he hI now fuel ((cur, reason) :: trace) _ _ _ _
        (hs.visit hcur h₁ hdeps rfl rfl rfl) (hI.visit _ _ _ _ deps hs.sweep hcur horder (fun y => ?_) hi) hE' ?_
      · rw [hdeps, h₁.index, hs.waits]
      · rw [List.length_append, List.length_reverse]
        omega

/-- With any more fuel the loop does the same. -/
theorem exec_cascadeLoop_succ (he : env.Reliable) (now : Int) :
    ∀ (fuel : Nat) (visited work : List String) (reason : String) (s : Server) (E : List (String × String)),
      (∀ d y, d ∉ visited → RevIndex.Waits s.revIndex d y → (d, y) ∈ E) → work.length + E.length ≤ fuel →
      exec (handle env) (cascadeLoop now (fuel + 1) visited work reason) s =
        exec (handle env) (cascadeLoop now fuel visited work reason) s
  | 0, visited, work, reason, s, E, _, hfuel => by
    obtain rfl : work = [] := List.length_eq_zero_iff.1 (by omega)
    rfl
  | _ + 1, visited, [], reason, s, E, _, _ => rfl
  | fuel + 1, visited, cur :: work, reason, s, E, hE, hfuel => by
    rw [List.length_cons] at hfuel
    rw [cascadeLoop.eq_def now (fuel + 1 + 1), cascadeLoop.eq_def now (fuel + 1)]
    dsimp only
    split
    · exact exec_cascadeLoop_succ he now fuel visited work reason s E hE (by omega)
    · rename_i hcur
      refine (sat_cancelOne he cur reason now s).exec_congr fun _ s₁ h₁ => ?_
      refine (sat_dependentsOf cur s₁).exec_congr ?_
      rintro deps _ ⟨hn, -, hdeps, rfl⟩
      have hremove : Sat (handle env) (removeFromIndex cur) s₁.ticked fun _ s₂ =>
        s₂.revIndex = RevIndex.removeFromIndex s₁.revIndex cur := rfl
      refine hremove.exec_congr fun _ s₂ h₂ => ?_
      have hless : ∀ d y, RevIndex.Waits s₂.revIndex d y → RevIndex.Waits s.revIndex d y := by
        intro d y hy
        rw [h₂, RevIndex.waits_removeFromIndex, h₁.index] at hy
        exact hy.1
      obtain ⟨hE', hlen⟩ := edges_left hE hcur hn (fun y hy => h₁.index ▸ (hdeps y).1 hy) hless
      refine exec_cascadeLoop_succ he now fuel _ _ _ s₂ _ hE' ?_
      rw [List.length_append, List.length_reverse]
      omega

/-- The number of recorded edges bounds the turns of the loop. -/
theorem exec_cascadeLoop_fuel (he : env.Reliable) (now : Int) (root reason : String) (s : Server) {fuel : Nat}
    (hfuel : RevIndex.size s.revIndex < fuel) : exec (handle env) (cascadeLoop now fuel [] [root] reason) s =
      exec (handle env) (cascadeLoop now (RevIndex.size s.revIndex + 1) [] [root] reason) s := by
  induction fuel, hfuel using Nat.le_induction with
  | base => rfl
  | succ fuel hle ih =>
    rw [← ih, exec_cascadeLoop_succ he now fuel [] [root] reason s (RevIndex.edges s.revIndex)
      fun _ _ _ hy => RevIndex.mem_edges hy]
    rw [List.length_singleton, RevIndex.length_edges]
    omega

/-! ## The cascade -/

theorem sat_cancelCascade (he : env.Reliable) {I : List (String × String) → List String → String → Prop}
    (hI : LoopRule env s root I) (hstart : I [] [root] reason) :
    Sat (handle env) (cancelCascade root reason) s fun _ s' =>
      ∃ now trace reason', Swept s root now trace [] s' ∧ I trace [] reason' := by
  have hnow : Sat (handle env) timeNow s fun _ s₁ => s₁ = s.ticked := rfl
  refine hnow.bind ?_
  rintro now _ rfl
  have hbound : Sat (handle env) (act .indexBound) s.ticked fun r s₂ =>
      RevIndex.size s.revIndex ≤ r ∧ s₂ = s.ticked.ticked := ⟨Nat.le_add_right _ _, rfl⟩
  refine hbound.bind ?_
  rintro bound _ ⟨hle, rfl⟩
  refine (sat_cascadeLoop he hI now.ns (bound + 1) [] [root] reason s.ticked.ticked (RevIndex.edges s.revIndex) .start hstart
    (fun _ _ _ hy => RevIndex.mem_edges hy) ?_).mono fun _ s' h => ⟨now.ns, h⟩
  rw [List.length_singleton, RevIndex.length_edges]
  omega

/-- The rule of no condition. -/
theorem LoopRule.free : LoopRule env s₀ root fun _ _ _ => True :=
  ⟨fun _ _ _ _ _ _ => trivial, fun _ _ _ _ _ _ _ _ _ _ => trivial⟩

/-- What a cascade does. -/
structure Cascaded (root : String) (s s' : Server) : Prop where
  canceled : ∀ x j, Reach s root x → s.store.jobs.get x = some j → terminal j.state = false →
    ∃ r now, s'.store.jobs.get x = some (canceledFor r now j)
  ready : ∀ x, Reach s root x → Alive s x → ¬ s'.queue.Holds x
  other : ∀ x, ¬ (Reach s root x ∧ Alive s x) → s'.store.jobs.get x = s.store.jobs.get x
  waits : ∀ d y, RevIndex.Waits s'.revIndex d y ↔ RevIndex.Waits s.revIndex d y ∧ ¬ Reach s root y

theorem sat_cascaded (he : env.Reliable) (root reason : String) (s : Server) :
    Sat (handle env) (cancelCascade root reason) s fun _ s' => Cascaded root s s' := by
  refine (sat_cancelCascade he LoopRule.free trivial).mono ?_
  rintro _ s' ⟨now, trace, -, h, -⟩
  have hvisited : ∀ x, x ∈ trace.map Prod.fst ↔ Reach s root x := h.sweep.mem_visited
  refine ⟨fun x j hx hj ht => ?_, fun x hx ha hq => ?_, fun x hx => ?_, fun d y => ?_⟩
  · obtain ⟨⟨_, r⟩, hp, rfl⟩ := List.mem_map.1 ((hvisited x).2 hx)
    exact ⟨r, now, (h.struck _ hp).trans (struck_of_alive hj ht)⟩
  · exact ((h.ready x).1 hq).2 ⟨(hvisited x).2 hx, ha⟩
  · by_cases hr : Reach s root x
    · obtain ⟨⟨_, r⟩, hp, rfl⟩ := List.mem_map.1 ((hvisited x).2 hr)
      exact (h.struck _ hp).trans (struck_of_not_alive fun ha => hx ⟨hr, ha⟩)
    · exact h.other x fun hv => hr ((hvisited x).1 hv)
  · rw [h.waits, hvisited]

/-- The loop of a cascade ends, within as many turns as the index has edges and one more. After the cascade, every job that
was stored and not final and can be reached from the root along the index is CANCELED and off the queue, every other place
in the store is as it was, and the index has lost exactly the entries of the jobs reached. -/
theorem cancelCascade_exact (he : env.Reliable) (root reason : String) (s : Server) :
    (∀ (now : Int) (fuel : Nat), RevIndex.size s.revIndex < fuel →
      exec (handle env) (cascadeLoop now fuel [] [root] reason) s =
        exec (handle env) (cascadeLoop now (RevIndex.size s.revIndex + 1) [] [root] reason) s) ∧
    Sat (handle env) (cancelCascade root reason) s fun _ s' =>
      (∀ x j, Reach s root x → s.store.jobs.get x = some j → terminal j.state = false →
        (∃ r now, s'.store.jobs.get x = some (canceledFor r now j)) ∧ ¬ s'.queue.Holds x) ∧
      (∀ x, ¬ (Reach s root x ∧ Alive s x) → s'.store.jobs.get x = s.store.jobs.get x) ∧
      ∀ d y, RevIndex.Waits s'.revIndex d y ↔ RevIndex.Waits s.revIndex d y ∧ ¬ Reach s root y := by
  refine ⟨fun now fuel => exec_cascadeLoop_fuel he now root reason s, (sat_cascaded he root reason s).mono ?_⟩
  intro _ s' h
  exact ⟨fun x j hx hj ht => ⟨h.canceled x j hx hj ht, h.ready x hx ⟨j, hj, ht⟩⟩, h.other, h.waits⟩

/-- Three jobs, each but the first waiting on the one before it. -/
def chained : Server := served [submitting "r" [], submitting "a" ["r"], submitting "b" ["a"]]

theorem steady_reliable : Env.steady.Reliable := fun _ => rfl

theorem cancelCascade_exact_chained :
    ∃ j, (exec (handle .steady) (cancelCascade "r" "gone") chained).2.store.jobs.get "b" = some j ∧ j.state = .canceled := by
  have hstored : (chained.store.jobs.get "b").map Job.state = some .pending ∧
      "a" ∈ RevIndex.dependentsOf chained.revIndex "r" ∧ "b" ∈ RevIndex.dependentsOf chained.revIndex "a" := by decide +kernel
  obtain ⟨hj, hra, hab⟩ := hstored
  rw [RevIndex.mem_dependentsOf] at hra hab
  obtain ⟨j, hj, hs⟩ := Option.map_eq_some_iff.1 hj
  obtain ⟨-, hcanceled, -, -⟩ := cancelCascade_exact steady_reliable "r" "gone" chained
  obtain ⟨⟨r, now, hget⟩, -⟩ := hcanceled "b" j ((ReflTransGen.single hra).tail hab) hj (by rw [hs]; rfl)
  exact ⟨_, hget, rfl⟩

end Distsched.Scheduler
