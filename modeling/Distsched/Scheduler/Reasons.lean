/-
The reasons `cancelCascade` gives. One variable holds the reason for all cancellations and is set after each visit to name
the job just visited. So the next job on the list is told that it failed because of that one, whether or not it waits on
it.

The dependents of a job are read from a Go map, in any order. The reasons are right for every order exactly if the loop
never has to go back: each walk along the index that cannot be continued has come to all jobs there are to reach. If there
is another walk, the map can be read in an order that leads the loop along it, and the job visited after its last one is
told the wrong name.
-/
import Distsched.Scheduler.Cascade

namespace Distsched.Scheduler

open Prog
open Relation (ReflTransGen)

variable {env : Env} {s s₀ : Server} {root reason : String}

/-! ## What the jobs are told -/

/-- The index agrees with the store: a dependent on record is stored and not final, and is on record under the jobs it
lists. -/
def IndexAgrees (s : Server) : Prop :=
  ∀ d y, RevIndex.Waits s.revIndex d y → ∃ j, s.store.jobs.get y = some j ∧ terminal j.state = false ∧ d ∈ j.dependsOn ∧
    ∀ d' ∈ j.dependsOn, RevIndex.Waits s.revIndex d' y

/-- The reason ready for the next job, after visits to some, the last one first. -/
def told (first : String) : List String → String
  | [] => first
  | x :: _ => upstreamFailed x

/-- No job is visited twice, and each is told the name of the one before it. -/
structure Threaded (first : String) (trace : List (String × String)) (reason : String) : Prop where
  ready : reason = told first (trace.map Prod.fst)
  nodup : (trace.map Prod.fst).Nodup
  given : ∀ ahead x l, trace.map Prod.fst = ahead ++ x :: l → (x, told first l) ∈ trace

theorem Threaded.start : Threaded reason [] reason where
  ready := rfl
  nodup := List.nodup_nil
  given ahead x l h := absurd h (by simp)

theorem Threaded.visit {first cur : String} {trace : List (String × String)} (h : Threaded first trace reason)
    (hcur : cur ∉ trace.map Prod.fst) : Threaded first ((cur, reason) :: trace) (upstreamFailed cur) where
  ready := rfl
  nodup := List.nodup_cons.2 ⟨hcur, h.nodup⟩
  given ahead x l hl := by
    cases ahead with
    | nil =>
      obtain ⟨rfl, rfl⟩ := List.cons.inj hl
      rw [h.ready]
      exact List.mem_cons_self
    | cons a ahead => exact List.mem_cons_of_mem _ (h.given ahead x l (List.cons.inj hl).2)

/-- The reasons, and one more thing that only the visits and the list tell. -/
theorem threaded_rule (first : String) {J : List String → List String → Prop}
    (hskip : ∀ visited cur work, cur ∈ visited → J visited (cur :: work) → J visited work)
    (hvisit : ∀ visited cur work (deps : List String),
      Worklist.Sweep (RevIndex.Waits s₀.revIndex) root visited (cur :: work) → cur ∉ visited →
      (∃ t l, deps = env.order t l) → (∀ y, y ∈ deps ↔ RevIndex.Waits s₀.revIndex cur y ∧ y ∉ visited) →
      J visited (cur :: work) → J (cur :: visited) (deps.reverse ++ work)) :
    LoopRule env s₀ root fun trace work reason => Threaded first trace reason ∧ J (trace.map Prod.fst) work where
  skip _ _ _ _ hcur hi := ⟨hi.1, hskip _ _ _ hcur hi.2⟩
  visit _ _ _ _ deps hsweep hcur horder hdeps hi :=
    ⟨hi.1.visit hcur, hvisit _ _ _ deps hsweep hcur horder hdeps hi.2⟩

/-- A job reached other than the root is stored and not final. -/
theorem IndexAgrees.alive {x : String} (h : IndexAgrees s) (hx : Reach s root x) (hne : x ≠ root) : Alive s x := by
  cases hx with
  | refl => exact absurd rfl hne
  | tail _ hwaits =>
    obtain ⟨j, hj, ht, -⟩ := h _ _ hwaits
    exact ⟨j, hj, ht⟩

/-- Each job other than the root that is moved to CANCELED is told the name of a job which it lists and which is then
CANCELED or FAILED. -/
def ToldTruly (root : String) (s s' : Server) : Prop :=
  ∀ x j j', x ≠ root → s.store.jobs.get x = some j → j.state ≠ .canceled → s'.store.jobs.get x = some j' →
    j'.state = .canceled → ∃ d jd, j'.lastError = upstreamFailed d ∧ d ∈ j'.dependsOn ∧ s'.store.jobs.get d = some jd ∧
      (jd.state = .canceled ∨ jd.state = .failed)

/-- If the root has a dependent then it is stored and has not SUCCEEDED. -/
def RootFails (s : Server) (root : String) : Prop :=
  ∀ y, RevIndex.Waits s.revIndex root y → y ≠ root → ∃ j, s.store.jobs.get root = some j ∧ j.state ≠ .succeeded

/-! ## Where the loop goes straight on -/

theorem toldTruly_of_walk {s' : Server} {now : Int} {trace : List (String × String)} (hagree : IndexAgrees s)
    (hroot : RootFails s root) (h : Swept s root now trace [] s') {reason' : String} (ht : Threaded reason trace reason')
    (hwalk : Worklist.Walk (RevIndex.Waits s.revIndex) root (trace.map Prod.fst)) : ToldTruly root s s' := by
  intro x j j' hne hj hs hj' hs'
  -- the job was visited, since its record has changed
  have hvisited : x ∈ trace.map Prod.fst := by
    by_contra hx
    rw [h.other x hx, hj] at hj'
    cases hj'
    exact hs hs'
  obtain ⟨ahead, d, back, hsplit, hwaits⟩ := hwalk.pred_of_mem hvisited hne
  obtain ⟨j₀, hj₀, halive, hdep, -⟩ := hagree d x hwaits
  have hget := (h.struck _ (ht.given ahead x (d :: back) hsplit)).trans (struck_of_alive hj₀ halive)
  cases hget.symm.trans hj'
  -- the job it names is stored and has not SUCCEEDED: it is the root, or itself a dependent on record
  have hd : d ∈ trace.map Prod.fst := by
    rw [hsplit]
    simp
  obtain ⟨jd, hjd, hsd⟩ : ∃ jd, s.store.jobs.get d = some jd ∧ jd.state ≠ .succeeded := by
    by_cases hdr : d = root
    · subst hdr
      exact hroot x hwaits hne
    · obtain ⟨jd, hjd, htd⟩ := hagree.alive ((h.sweep.mem_visited d).1 hd) hdr
      refine ⟨jd, hjd, fun hs => ?_⟩
      rw [hs] at htd
      cases htd
  obtain ⟨⟨_, r⟩, hpd, rfl⟩ := List.mem_map.1 hd
  obtain ⟨jd', hjd', hended⟩ := struck_of_not_succeeded r now hjd hsd
  exact ⟨_, jd', rfl, hdep, (h.struck _ hpd).trans hjd', hended⟩

theorem sat_toldTruly (hagree : IndexAgrees s) (htrace : Worklist.Traceable (RevIndex.Waits s.revIndex) root)
    (hroot : RootFails s root) (he : env.Reliable) (reason : String) :
    Sat (handle env) (cancelCascade root reason) s fun _ s' => ToldTruly root s s' := by
  have hrule : LoopRule env s root fun trace work reason' => Threaded reason trace reason' ∧
      Worklist.Straight (RevIndex.Waits s.revIndex) root (trace.map Prod.fst) work :=
    threaded_rule reason (fun visited cur work hcur hi => hi.skip hcur) fun visited cur work deps hsweep hcur _ hdeps hi =>
      hi.visit htrace hsweep hcur fun y => List.mem_reverse.trans (hdeps y)
  refine (sat_cancelCascade he hrule ⟨.start, .inl ⟨rfl, rfl⟩⟩).mono ?_
  rintro _ s' ⟨now, trace, _, h, ht, ⟨-, hwork⟩ | ⟨x, l, hvisited, hwalk, -⟩⟩
  · cases hwork
  · exact toldTruly_of_walk hagree hroot h ht (hvisited ▸ hwalk)

/-! ## Leading the loop along a walk -/

/-- An environment in which `range` lists first what lies farther along a walk: of the jobs put on the list, those are
taken last. -/
def Env.along (walk : List String) : Env :=
  { Env.steady with
    order := fun _ l => l.mergeSort fun a b => decide (Worklist.place walk b ≤ Worklist.place walk a)
    order_perm := fun _ l => List.mergeSort_perm l _ }

theorem Env.along_reliable (walk : List String) : (Env.along walk).Reliable := fun _ => rfl

theorem pairwise_along (walk l : List String) (t : Nat) :
    ((Env.along walk).order t l).reverse.Pairwise fun a b => Worklist.place walk a ≤ Worklist.place walk b := by
  rw [List.pairwise_reverse]
  refine (List.pairwise_mergeSort ?_ ?_ l).imp fun h => of_decide_eq_true h
  · intro a b c hab hbc
    rw [decide_eq_true_eq] at *
    omega
  · intro a b
    rw [Bool.or_eq_true, decide_eq_true_eq, decide_eq_true_eq]
    omega

/-- A cascade that goes along a walk first tells the next job the name of its last one. -/
theorem sat_along {walk : List String} (hwalk : Worklist.Walk (RevIndex.Waits s.revIndex) root walk) (reason : String) :
    Sat (handle (Env.along walk)) (cancelCascade root reason) s fun _ s' =>
      ∃ now trace reason' more, Swept s root now trace [] s' ∧ Threaded reason trace reason' ∧
        trace.map Prod.fst = more ++ walk := by
  have hrule : LoopRule (Env.along walk) s root fun trace work reason' => Threaded reason trace reason' ∧
      Worklist.Along walk (trace.map Prod.fst) work := by
    refine threaded_rule reason (fun visited cur work hcur hi => hi.skip hcur) ?_
    rintro visited cur work _ hsweep hcur ⟨t, l, rfl⟩ hdeps hi
    exact hi.visit hwalk hcur (fun y => List.mem_reverse.trans (hdeps y)) (pairwise_along walk l t)
  refine (sat_cancelCascade (Env.along_reliable walk) hrule ⟨.start, hwalk.along_start⟩).mono ?_
  rintro _ s' ⟨now, trace, reason', h, ht, ⟨more, hmore⟩ | ⟨ahead, x, -, hx⟩⟩
  · exact ⟨now, trace, reason', more, h, ht, hmore⟩
  · cases hx

theorem upstreamFailed_inj {d d' : String} (h : upstreamFailed d = upstreamFailed d') : d = d' :=
  (String.append_right_inj _).1 ((String.append_left_inj _).1 h)

/-- The job visited after `x` lists it if it is told the truth, and `x` is then stored and has not SUCCEEDED. -/
theorem listed_of_told {s' : Server} {now : Int} {trace : List (String × String)} {reason' x z : String}
    {ahead l : List String} (hagree : IndexAgrees s) (h : Swept s root now trace [] s') (ht : Threaded reason trace reason')
    (htrue : ToldTruly root s s') (hsplit : trace.map Prod.fst = ahead ++ z :: x :: l) (hz : z ≠ root) :
    RevIndex.Waits s.revIndex x z ∧ ∃ j, s.store.jobs.get x = some j ∧ j.state ≠ .succeeded := by
  have hreach : Reach s root z := (h.sweep.mem_visited z).1 (by rw [hsplit]; simp)
  obtain ⟨j, hj, halive⟩ := hagree.alive hreach hz
  have hget := (h.struck _ (ht.given ahead z (x :: l) hsplit)).trans (struck_of_alive hj halive)
  have hmoved : j.state ≠ .canceled := by
    intro hs
    rw [hs] at halive
    cases halive
  obtain ⟨d, jd, hd, hdep, hjd, hended⟩ := htrue z j _ hz hj hmoved hget rfl
  obtain rfl : x = d := upstreamFailed_inj hd
  constructor
  · cases hreach with
    | refl => exact absurd rfl hz
    | tail _ hwaits =>
      obtain ⟨j', hj', -, -, hall⟩ := hagree _ _ hwaits
      cases hj.symm.trans hj'
      exact hall x hdep
  · obtain ⟨⟨_, r⟩, hp, rfl⟩ := List.mem_map.1 (show x ∈ trace.map Prod.fst by rw [hsplit]; simp)
    have hstruck := (h.struck _ hp).symm.trans hjd
    obtain ⟨jx, hjx, hs⟩ := Option.map_eq_some_iff.1 hstruck
    refine ⟨jx, hjx, fun hsucc => ?_⟩
    rw [hsucc, terminal, if_pos rfl] at hs
    subst hs
    rw [hsucc] at hended
    simp at hended

/-! ## The condition -/

/-- Let the index agree with the store. In whatever order the dependents of a job are listed, and whatever the first
reason, each job other than the root that a cascade moves to CANCELED is told the name of a job which it lists and which is
then CANCELED or FAILED, exactly if every walk along the index that cannot be continued has come to all jobs reached, and
the root, if it has a dependent, is stored and has not SUCCEEDED. -/
theorem cascade_reasons (hagree : IndexAgrees s) :
    (∀ env reason, env.Reliable → Sat (handle env) (cancelCascade root reason) s fun _ s' => ∀ x j j', x ≠ root →
      s.store.jobs.get x = some j → j.state ≠ .canceled → s'.store.jobs.get x = some j' → j'.state = .canceled →
        ∃ d jd, j'.lastError = upstreamFailed d ∧ d ∈ j'.dependsOn ∧ s'.store.jobs.get d = some jd ∧
          (jd.state = .canceled ∨ jd.state = .failed)) ↔
      Worklist.Traceable (RevIndex.Waits s.revIndex) root ∧ RootFails s root := by
  refine ⟨fun htrue => ⟨fun x l hwalk hend y hy => ?_, fun y hy hne => ?_⟩, fun h env reason he =>
    sat_toldTruly hagree h.1 h.2 he reason⟩
  · by_contra hout
    obtain ⟨now, trace, reason', more, h, ht, hvisited⟩ := sat_along hwalk ""
    have htold := htrue _ "" (Env.along_reliable (x :: l))
    have hmore : y ∈ more := by
      have hmem := (h.sweep.mem_visited y).2 hy
      rw [hvisited] at hmem
      exact (List.mem_append.1 hmem).resolve_right hout
    rcases List.eq_nil_or_concat more with rfl | ⟨ahead, z, rfl⟩
    · cases hmore
    rw [List.concat_eq_append, List.append_assoc] at hvisited
    -- the job visited after the last one of the walk is none of its dependents
    have hz : z ∉ x :: l := by
      have hnodup := ht.nodup
      rw [hvisited] at hnodup
      exact (List.nodup_cons.1 (List.nodup_append.1 hnodup).2.1).1
    have hne : z ≠ root := by
      obtain ⟨front, hends⟩ := hwalk.ends
      rintro rfl
      rw [hends] at hz
      simp at hz
    exact hz (hend z (listed_of_told hagree h ht htold hvisited hne).1)
  · have hwalk : Worklist.Walk (RevIndex.Waits s.revIndex) root [y, root] := .next .start hy (by simpa using hne)
    obtain ⟨now, trace, reason', more, h, ht, hvisited⟩ := sat_along hwalk ""
    have htold := htrue _ "" (Env.along_reliable [y, root])
    exact (listed_of_told hagree h ht htold hvisited hne).2

theorem indexAgrees_of_edges (h : ∀ e ∈ RevIndex.edges s.revIndex,
    ((s.store.jobs.get e.2).any fun j => !terminal j.state && (decide (e.1 ∈ j.dependsOn) &&
      j.dependsOn.all fun d => decide (e.2 ∈ RevIndex.dependentsOf s.revIndex d))) = true) : IndexAgrees s := by
  intro d y hy
  have hany := h _ (RevIndex.mem_edges hy)
  cases hj : s.store.jobs.get y with
  | none =>
    rw [hj] at hany
    cases hany
  | some j =>
    simp only [hj, Option.any_some, Bool.and_eq_true, Bool.not_eq_true', decide_eq_true_eq, List.all_eq_true,
      RevIndex.mem_dependentsOf] at hany
    exact ⟨j, rfl, hany⟩

theorem cascade_reasons_chained : ∃ j d jd, (exec (handle .steady) (cancelCascade "r" "gone") chained).2.store.jobs.get "b" =
    some j ∧ j.lastError = upstreamFailed d ∧ d ∈ j.dependsOn ∧
    (exec (handle .steady) (cancelCascade "r" "gone") chained).2.store.jobs.get d = some jd ∧
    (jd.state = .canceled ∨ jd.state = .failed) := by
  have hedges : ∀ e ∈ RevIndex.edges chained.revIndex, ∀ e' ∈ RevIndex.edges chained.revIndex, e.1 = e'.1 → e.2 = e'.2 := by
    decide +kernel
  have htrace : Worklist.Traceable (RevIndex.Waits chained.revIndex) "r" := Worklist.traceable_of_unique fun x _ y y' hy hy' =>
    hedges _ (RevIndex.mem_edges hy) _ (RevIndex.mem_edges hy') rfl
  have hstates : (chained.store.jobs.get "r").map Job.state = some .queued ∧
      (chained.store.jobs.get "b").map Job.state = some .pending ∧
      ((exec (handle .steady) (cancelCascade "r" "gone") chained).2.store.jobs.get "b").map Job.state = some .canceled := by
    decide +kernel
  obtain ⟨hr, hb, hb'⟩ := hstates
  obtain ⟨jr, hjr, hsr⟩ := Option.map_eq_some_iff.1 hr
  obtain ⟨j, hj, hs⟩ := Option.map_eq_some_iff.1 hb
  obtain ⟨j', hj', hs'⟩ := Option.map_eq_some_iff.1 hb'
  have hroot : RootFails chained "r" := fun _ _ _ => ⟨jr, hjr, by rw [hsr]; decide⟩
  obtain ⟨d, jd, hd⟩ := (cascade_reasons (indexAgrees_of_edges (by decide +kernel))).2 ⟨htrace, hroot⟩ .steady "gone"
    steady_reliable "b" j j' (by decide) hj (by rw [hs]; decide) hj' hs'
  exact ⟨j', d, jd, hj', hd⟩

/-- Two jobs that wait on a third. -/
def branched : Server := served [submitting "r" [], submitting "a" ["r"], submitting "b" ["r"]]

/-- One of the two is told that it failed because of the other. -/
theorem cascade_misnames : IndexAgrees branched ∧
    (∀ j ∈ branched.store.jobs.list, j.state = .pending → ∀ d ∈ j.dependsOn, RevIndex.Waits branched.revIndex d j.id) ∧
    ((exec (handle .steady) (cancelCascade "r" "gone") branched).2.store.jobs.get "a").map
      (fun j => (j.state, j.lastError, j.dependsOn)) = some (.canceled, upstreamFailed "b", ["r"]) ∧
    ((after .steady noCron branched (.cancelJob "r")).store.jobs.get "a").map
      (fun j => (j.state, j.lastError, j.dependsOn)) = some (.canceled, upstreamFailed "b", ["r"]) := by
  refine ⟨indexAgrees_of_edges (by decide +kernel), ?_, by decide +kernel⟩
  simp only [← RevIndex.mem_dependentsOf]
  decide +kernel

end Distsched.Scheduler
