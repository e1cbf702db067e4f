/-
Only dependents are canceled. A cascade follows the index of who waits on whom and not the dependencies stored with the
jobs, so this rests on the index naming stored dependencies only. Every activity keeps it so but a submission under an ID
that is already in the index: the entries made for the earlier job of that ID stay.
-/
import Distsched.Lifecycle.Spread

namespace Distsched.Lifecycle

open Scheduler Prog

variable {env : Env} {b b' b₁ : Board} {x y r d : String} {l : Label} {P : Label → Prop}

/-- The index names `x` only under dependencies it lists. -/
def Genuine (b : Board) (x : String) : Prop := ∀ d, x ∈ b.waits d → b.Lists x d

/-! ## The index names stored dependencies -/

theorem Move.lists_iff (hm : Move l b b') (hp : l ≠ .place y) : b'.Lists y d ↔ b.Lists y d := by
  constructor
  · rintro ⟨j, hj, hd⟩
    obtain ⟨j₀, hj₀, hplan⟩ := hm.of_stored hp hj
    exact ⟨j₀, hj₀, dependsOn_of_plan hplan ▸ hd⟩
  · rintro ⟨j₀, hj₀, hd⟩
    rcases hm.keeps_or_rewrites y with hk | ⟨j, hr⟩
    · exact ⟨j₀, hk.stored.trans hj₀, hd⟩
    · obtain ⟨j₁, hj₁, hplan⟩ := hm.of_stored hp hr.stored
      cases hj₀.symm.trans hj₁
      exact ⟨j, hr.stored, dependsOn_of_plan hplan ▸ hd⟩

theorem Moves.lists_eq (hm : Moves P b b') (hP : ∀ y, ¬ P (.place y)) : b'.Lists = b.Lists := by
  refine hm.preserves (I := fun b₁ => b₁.Lists = b.Lists) (fun l b₁ b₂ hl hm hi => ?_) rfl
  rw [← hi]
  funext y d
  exact propext (hm.lists_iff (by rintro rfl; exact hP y hl))

theorem Move.genuine (hm : Move l b b') (hp : l ≠ .place x) (h : Genuine b x) : Genuine b' x := by
  intro d hd
  rw [hm.lists_iff hp]
  by_cases hrec : l = .record x
  · subst hrec
    cases hm with
    | @record _ j hj =>
      rcases Board.mem_park.1 hd with ⟨hd, _⟩ | hd
      · exact ⟨j, hj, hd⟩
      · exact h d hd
  · exact h d (hm.of_waits hp hrec hd)

theorem Moves.genuine (hm : Moves P b b') (hP : ¬ P (.place x)) (h : Genuine b x) : Genuine b' x :=
  hm.preserves (I := fun b => Genuine b x) (fun _ _ _ hl hm h => hm.genuine (by rintro rfl; exact hP hl) h) h

/-- A submission under an ID in the index lists what the index names it under. -/
theorem Move.genuine_place (hm : Move (.place x) b b') (h : ∀ d, x ∈ b.waits d → b'.Lists x d) : Genuine b' x := by
  intro d hd
  cases hm with
  | reject => exact h d hd
  | @park _ j =>
    rcases Board.mem_park.1 hd with ⟨hd, _⟩ | hd
    · exact ⟨j, Function.update_self .., hd⟩
    · exact h d hd
  | accept _ _ hsch =>
    rw [hsch.waits] at hd
    exact h d hd

/-- The record placed by a submission lists the dependencies of the request. -/
theorem does_placeNewJob_lists (he : Sound env) (ps : Cron) (j : Job) (now : Time) :
    DoesOn env (placeNewJob ps j now) b fun _ b' => ∃ j', b'.jobs j.id = some j' ∧ j'.dependsOn = j.dependsOn := by
  refine (does_depsSatisfied_doomed he j.dependsOn).bind ?_
  rintro ⟨ready, failedDep⟩ b ⟨rfl, -⟩
  dsimp only
  split
  · refine (does_putJob he _).bind ?_
    rintro _ _ ⟨rfl, rfl⟩
    exact Does.pure ⟨_, Function.update_self .., rfl⟩
  · split
    · refine (does_putJob he _).bind ?_
      rintro _ _ ⟨rfl, rfl⟩
      refine (does_addDeps j).mono ?_
      rintro _ _ rfl
      exact ⟨_, Function.update_self .., rfl⟩
    · refine (does_makeReady he ps j now).mono ?_
      rintro _ b' ⟨j', hp, _, hsch⟩
      rw [hsch.jobs, ← id_of_plan hp]
      exact ⟨j', Function.update_self .., dependsOn_of_plan hp⟩

theorem genuine_submitJob (he : Sound env) (cfg : Config) (ps : Cron) {job : Job} (h : ∀ x, Genuine b x)
    (hid : ∀ d, submitID env b.minted job ∈ b.waits d → d ∈ job.dependsOn) :
    DoesOn env (submitJob cfg ps (some job)) b fun _ b' => ∀ x, Genuine b' x := by
  refine does_submitJob_rule he cfg ps (fun b₁ hd _ x d hx => ?_) fun b₁ t hd _ => ?_
  · rw [hd.waits] at hx
    unfold Board.Lists
    rw [hd.jobs]
    exact h x d hx
  · refine ((does_placeNewJob he ps _ _).and (does_placeNewJob_lists he ps _ _)).mono ?_
    rintro _ b' ⟨hm, j', hj', hdeps⟩ x
    by_cases hx : x = submitID env b.minted job
    · subst hx
      refine hm.genuine_place fun d hw => ⟨j', hj', ?_⟩
      rw [hd.waits] at hw
      rw [hdeps]
      exact hid d hw
    · refine hm.genuine (fun hl => hx (Label.place.inj hl).symm) fun d hw => ?_
      rw [hd.waits] at hw
      unfold Board.Lists
      rw [hd.jobs]
      exact h x d hw

/-! ## Cascades follow stored dependencies -/

theorem reaches_of_below (h : ∀ x, Genuine b x) (hy : y ∈ Below b r) : Relation.ReflTransGen b.Lists y r := by
  have hedge : ∀ d x, x ∈ b.waits d → Function.swap b.Lists d x := fun d x hx => h x d hx
  exact Relation.reflTransGen_swap.1 (Relation.ReflTransGen.mono hedge _ _ hy)

/-- Why `y` may be canceled: it is below a job that is newly FAILED, or it is one, or below one, that was PENDING on a job
that is FAILED or CANCELED, and is newly CANCELED itself. -/
def Rooted (b b' : Board) (y : String) : Prop := ∃ r,
  (Relation.TransGen b'.Lists y r ∧ ∃ jr, b'.jobs r = some jr ∧ jr.state = .failed ∧ b.jobs r ≠ some jr) ∨
    (Relation.ReflTransGen b'.Lists y r ∧ ∃ jr, b.jobs r = some jr ∧ jr.state = .pending ∧
      (∃ jr', b'.jobs r = some jr' ∧ jr'.state = .canceled) ∧
      ∃ d ∈ jr.dependsOn, ∃ jd, b'.jobs d = some jd ∧ (jd.state = .failed ∨ jd.state = .canceled))

/-- From a board with a genuine index to another one, nothing canceled without reason. -/
structure Culls (b b' : Board) : Prop where
  genuine : ∀ x, Genuine b' x
  moves : Moves Label.Settling b b'
  rooted : ∀ y j, b'.jobs y = some j → j.state = .canceled → b.jobs y ≠ some j → Rooted b b' y

theorem Rooted.moves_after (h : Rooted b b₁ y) (hm : Moves Label.Settling b₁ b') : Rooted b b' y := by
  have hlists : b'.Lists = b₁.Lists := hm.lists_eq fun _ => id
  obtain ⟨r, ⟨hr, jr, hjr, hs, hnew⟩ | ⟨hr, jr, hjr, hs, ⟨jr', hjr', hs'⟩, d, hd, jd, hjd, hb⟩⟩ := h
  · refine ⟨r, .inl ⟨hlists ▸ hr, jr, hm.final id hjr (by rw [hs]; rfl), hs, hnew⟩⟩
  · exact ⟨r, .inr ⟨hlists ▸ hr, jr, hjr, hs, ⟨jr', hm.final id hjr' (by rw [hs']; rfl), hs'⟩, d, hd, jd,
      hm.final id hjd (Broken.terminal hb), hb⟩⟩

theorem Rooted.moves_before (h : Rooted b₁ b' y) (hm : Moves Label.Settling b b₁) : Rooted b b' y := by
  obtain ⟨r, ⟨hr, jr, hjr, hs, hnew⟩ | ⟨hr, jr, hjr, hs, hrest⟩⟩ := h
  · exact ⟨r, .inl ⟨hr, jr, hjr, hs, fun hold => hnew (hm.final id hold (by rw [hs]; rfl))⟩⟩
  · exact ⟨r, .inr ⟨hr, jr, hm.of_pending (fun _ => id) hjr hs, hs, hrest⟩⟩

theorem Culls.refl (h : ∀ x, Genuine b x) : Culls b b := ⟨h, .refl _, fun _ _ hj _ hn => absurd hj hn⟩

theorem Culls.trans (h : Culls b b₁) (h' : Culls b₁ b') : Culls b b' where
  genuine := h'.genuine
  moves := h.moves.trans h'.moves
  rooted y j hj hs hn := by
    by_cases hold : b₁.jobs y = some j
    · exact (h.rooted y j hold hs hn).moves_after h'.moves
    · exact (h'.rooted y j hj hs hold).moves_before h.moves

/-- What a cascade from `r` newly cancels, other than `r`, reaches `r`. -/
theorem Cascades.reaches (h : Cascades r b b') (hg : ∀ x, Genuine b x) {j : Job} (hj : b'.jobs y = some j)
    (hn : b.jobs y ≠ some j) : Relation.ReflTransGen b'.Lists y r := by
  have hy : y ∈ Below b r := by
    by_contra hy
    rw [h.other hy] at hj
    exact hn hj
  rw [h.moves.lists_eq fun _ => id]
  exact reaches_of_below hg hy

/-- A cascade leaves a record as it is, or CANCELED. -/
theorem Cascades.canceled (h : Cascades r b b') {j : Job} (hj : b'.jobs y = some j) :
    b.jobs y = some j ∨ j.state = .canceled := by
  refine h.moves.preserves (I := fun b₁ => ∀ j, b₁.jobs y = some j → b.jobs y = some j ∨ j.state = .canceled) ?_
    (fun _ => .inl) j hj
  intro l b₁ b₂ hl hm hi j hj
  cases hm with
  | @cancel _ j₀ j' _ _ hplan hs' =>
    by_cases hy : y = j'.id
    · subst hy
      cases hj.symm.trans (Function.update_self ..)
      exact .inr hs'
    · exact hi j ((Function.update_of_ne hy ..).symm.trans hj)
  | forget => exact hi j hj
  | _ => exact hl.elim

theorem transGen_of_ne {R : String → String → Prop} (h : Relation.ReflTransGen R x y) (hne : x ≠ y) :
    Relation.TransGen R x y :=
  (Relation.reflTransGen_iff_eq_or_transGen.1 h).resolve_left fun he => hne he.symm

theorem Culls.of_bury {via : Option String} (hg : ∀ x, Genuine b x) (hm : Move (.bury r via) b b₁)
    (hc : Cascades r b₁ b') : Culls b b' := by
  have hg₁ : ∀ x, Genuine b₁ x := fun x => hm.genuine nofun (hg x)
  -- the job buried is FAILED from then on
  obtain ⟨jr, hjr, hs, hold⟩ : ∃ jr, b₁.jobs r = some jr ∧ jr.state = .failed ∧ b.jobs r ≠ some jr := by
    cases hm with
    | @bury _ j j' _ hj hs _ hplan hs' =>
      refine ⟨j', ?_, hs', fun h => ?_⟩
      · rw [← id_of_plan hplan]
        exact Function.update_self ..
      · cases hj.symm.trans h
        rw [hs] at hs'
        cases hs'
  have hjr' : b'.jobs r = some jr := hc.moves.final id hjr (by rw [hs]; rfl)
  refine ⟨fun x => hc.moves.genuine id (hg₁ x), (Moves.single hm trivial).trans (hc.moves.mono fun _ hl => hl.settling),
    fun y j hj hcan hn => ⟨r, .inl ⟨transGen_of_ne (hc.reaches hg₁ hj ?_) ?_, jr, hjr', hs, hold⟩⟩⟩
  · have hyr : y ≠ r := by
      rintro rfl
      cases hjr'.symm.trans hj
      rw [hs] at hcan
      cases hcan
    rw [hm.other (fun hw => hyr (Option.some.inj hw).symm)]
    exact hn
  · rintro rfl
    cases hjr'.symm.trans hj
    rw [hs] at hcan
    cases hcan

theorem Culls.of_expel {j : Job} (hg : ∀ x, Genuine b x) (hj : b.jobs r = some j) (hs : j.state = .pending)
    (hd : Doomed b.jobs j.dependsOn) (hc : Cascades r b b') : Culls b b' := by
  obtain ⟨d, hdep, jd, hjd, hb⟩ := hd.exists_broken
  obtain ⟨j', hj', hs'⟩ : ∃ j', b'.jobs r = some j' ∧ j'.state = .canceled := by
    have hlists : (∃ d, b'.Lists r d) := by
      rw [hc.moves.lists_eq fun _ => id]
      exact ⟨d, j, hj, hdep⟩
    obtain ⟨_, j', hj', _⟩ := hlists
    refine ⟨j', hj', (hc.canceled hj').resolve_left fun h => ?_⟩
    cases hj.symm.trans h
    have := hc.ended r .refl j hj'
    rw [hs] at this
    cases this
  refine ⟨fun x => hc.moves.genuine id (hg x), hc.moves.mono fun _ hl => hl.settling, fun y jy hjy _ hn => ?_⟩
  exact ⟨r, .inr ⟨hc.reaches hg hjy hn, j, hj, hs, ⟨j', hj', hs'⟩, d, hdep, jd, hc.moves.final id hjd hb.terminal, hb⟩⟩

theorem Deed.culls (hg : ∀ x, Genuine b x) (h : Deed b b') : Culls b b' := by
  cases h with
  | plain hl hm =>
    refine ⟨fun x => hm.genuine (by rintro rfl; exact hl) (hg x), .single hm hl.settling, fun y j hj hs hn => ?_⟩
    exact absurd (hm.of_broken (by rintro rfl; exact hl) (by rintro rfl; exact hl) (by rintro via rfl; exact hl) hj
      (.inr hs)) hn
  | bury hm hc => exact .of_bury hg hm hc
  | expel hj hs hd hc => exact .of_expel hg hj hs hd hc

theorem Deeds.culls (hg : ∀ x, Genuine b x) (h : Deeds b b') : Culls b b' := by
  induction h with
  | refl => exact .refl hg
  | tail _ ha ih => exact ih.trans (ha.culls ih.genuine)

/-! ## Every activity -/

/-- Why an activity may leave `y` newly CANCELED. -/
def Justified (env : Env) (s s' : Server) (y : String) : Call → Prop
  | .submitJob req => ∃ job, req = some job ∧ y = submitID env s.minted job
  | .cancelJob x => y = x ∨ Relation.TransGen (DependsOn s') y x
  | _ => ∃ r,
    (Relation.TransGen (DependsOn s') y r ∧
      ∃ jr, s'.store.jobs.get r = some jr ∧ jr.state = .failed ∧ s.store.jobs.get r ≠ some jr) ∨
    (Relation.ReflTransGen (DependsOn s') y r ∧ ∃ jr, s.store.jobs.get r = some jr ∧ jr.state = .pending ∧
      (∃ jr', s'.store.jobs.get r = some jr' ∧ jr'.state = .canceled) ∧
      ∃ d ∈ jr.dependsOn, ∃ jd, s'.store.jobs.get d = some jd ∧ (jd.state = .failed ∨ jd.state = .canceled))

/-- A submission under an ID that the index names under `d` lists `d`. -/
def ListsIndexed (env : Env) (s : Server) : Event → Prop
  | .call (.submitJob (some job)) =>
    ∀ d, RevIndex.Waits s.revIndex d (submitID env s.minted job) → d ∈ job.dependsOn
  | _ => True

theorem genuine_onBecomeLeader (he : Sound env) (ps : Cron) :
    DoesOn env (onBecomeLeader ps) b fun _ b' => ∀ x, Genuine b' x := by
  have hcleared : ∀ x, Genuine b.cleared x := fun _ _ h => h.elim
  exact (deeds_onBecomeLeader he ps).mono fun _ _ hd => (hd.culls hcleared).genuine

theorem genuine_call (he : Sound env) (ps : Cron) {s : Server} (c : Call) (hc : ListsIndexed env s (.call c))
    (hg : ∀ x, Genuine (view env s) x) :
    DoesOn env (c.prog env.cfg ps) (view env s) fun _ b' => ∀ x, Genuine b' x := by
  cases c with
  | submitJob req =>
    cases req with
    | none =>
      refine DoesOn.ignore ((does_submitJob_none env.cfg ps).mono ?_)
      rintro _ _ rfl
      exact hg
    | some job => exact DoesOn.ignore (genuine_submitJob he env.cfg ps hg hc)
  | cancelJob x => exact DoesOn.ignore ((does_cancelJob he env.cfg x).mono fun _ _ hm y => hm.genuine id (hg y))
  | pollTask w n => exact DoesOn.ignore ((does_pollTask he env.cfg w n).mono fun _ _ hm x => hm.genuine id (hg x))
  | reportTask τ result err =>
    exact DoesOn.ignore ((deeds_reportTask he env.cfg ps τ result err).mono fun _ _ hd => (hd.culls hg).genuine)
  | registerWorker w =>
    refine DoesOn.ignore ((does_registerWorker he env.cfg w).mono fun _ b' hd x d hx => ?_)
    rw [hd.waits] at hx
    unfold Board.Lists
    rw [hd.jobs]
    exact hg x d hx
  | heartbeat w n =>
    refine DoesOn.ignore ((does_heartbeat env.cfg w n).mono ?_)
    rintro _ _ rfl
    exact hg
  | timer x => exact (does_timerFired he x).mono fun _ _ hm y => hm.genuine nofun (hg y)
  | reaper => exact (deeds_reaperTick he env.cfg ps).mono fun _ _ hd => (hd.culls hg).genuine
  | becomeLeader => exact genuine_onBecomeLeader he ps

/-- What an activity newly cancels, it has a reason for. -/
theorem justified_call (he : Sound env) (ps : Cron) {s : Server} (hs : Serving env s) (hg : ∀ x, Genuine (view env s) x)
    (c : Call) {j : Job} (hj : (after env ps s c).store.jobs.get y = some j) (hcan : j.state = .canceled)
    (hnew : s.store.jobs.get y ≠ some j) : Justified env s (after env ps s c) y c := by
  -- the activity on the board, with what it says of the jobs newly canceled
  have hrun : ∀ {Q : Board → Prop}, (DoesOn env (c.prog env.cfg ps) (view env s) fun _ b' => Q b') →
      Q (view env (after env ps s c)) := by
    intro Q h
    obtain ⟨b', ⟨-, rfl⟩, hq⟩ := h s ⟨hs, rfl⟩
    exact hq
  have hjobs : (view env (after env ps s c)).jobs ≠ (view env s).jobs := fun h => hnew ((congrFun h y).symm.trans hj)
  cases c with
  | submitJob req =>
    rcases hrun (DoesOn.ignore (does_submitJob he env.cfg ps req)) with hb | ⟨job, hreq, hsub⟩
    · exact absurd (congrArg Board.jobs hb) hjobs
    · refine ⟨job, hreq, ?_⟩
      by_contra hy
      exact hnew ((hsub.other hy).symm.trans hj)
  | cancelJob x =>
    rcases hrun (DoesOn.ignore (cascades_cancelJob he env.cfg x)) with hb | ⟨b₁, hm, hc⟩
    · exact absurd (congrArg Board.jobs hb) hjobs
    · by_cases hy : y = x
      · exact .inl hy
      · refine .inr (transGen_of_ne (hc.reaches (fun x => hm.genuine nofun (hg x)) hj ?_) hy)
        rw [hm.other (fun hw => hy (Option.some.inj hw).symm)]
        exact hnew
  | reportTask τ result err =>
    exact ((hrun (DoesOn.ignore (deeds_reportTask he env.cfg ps τ result err))).culls hg).rooted y j hj hcan hnew
  | reaper => exact ((hrun (deeds_reaperTick he env.cfg ps)).culls hg).rooted y j hj hcan hnew
  | becomeLeader =>
    have hcleared : ∀ x, Genuine (view env s).cleared x := fun _ _ h => h.elim
    exact ((hrun (deeds_onBecomeLeader he ps)).culls hcleared).rooted y j hj hcan hnew
  | pollTask w n =>
    exact absurd ((hrun (DoesOn.ignore (does_pollTask he env.cfg w n))).spares (fun _ => id) (fun _ => id)
      (fun _ _ => id) y j hj (.inr hcan)) hnew
  | registerWorker w =>
    exact absurd (hrun (DoesOn.ignore (does_registerWorker he env.cfg w))).jobs hjobs
  | heartbeat w n =>
    have hb : view env (after env ps s (.heartbeat w n)) = view env s := hrun (DoesOn.ignore (does_heartbeat env.cfg w n))
    exact absurd (congrArg Board.jobs hb) hjobs
  | timer x =>
    have hm : Move (.fire x) (view env s) (view env (after env ps s (.timer x))) := hrun (does_timerFired he x)
    exact absurd (hm.of_broken nofun nofun nofun hj (.inr hcan)) hnew

/-! ## Runs -/

/-- In every state of a run whose submissions meet the condition, an activity that leaves a job newly CANCELED was called
on it, or the job reaches, over the dependencies stored, the job that was canceled or has failed. -/
theorem only_dependents_canceled {ps : Cron} {store : Store} {node : Cluster.Node} {s : Server} (he : Sound env)
    (hn : node.isLeader = true) (h : Runs env ps (ListsIndexed env) (started env ps store node) s) (c : Call)
    {y : String} {j : Job} (hj : (after env ps s c).store.jobs.get y = some j) (hcan : j.state = .canceled)
    (hnew : s.store.jobs.get y ≠ some j) : Justified env s (after env ps s c) y c := by
  obtain ⟨hs, hg⟩ := Runs.keeps (I := fun b => ∀ x, Genuine b x) he hn (fun _ => genuine_onBecomeLeader he ps)
    (fun _ c hok hi => genuine_call he ps c hok hi) h
  exact justified_call he ps hs hg c hj hcan hnew

/-- `b` waits on `a`. -/
def waiting : Server := served [submitting "a" [], submitting "b" ["a"]]

theorem only_dependents_canceled_waiting :
    ∃ j, (after .steady noCron waiting (.cancelJob "a")).store.jobs.get "b" = some j ∧ j.state = .canceled ∧
      Justified .steady waiting (after .steady noCron waiting (.cancelJob "a")) "b" (.cancelJob "a") := by
  have hbefore : (waiting.store.jobs.get "b").map Job.state = some .pending := by decide +kernel
  have hstate : ((after .steady noCron waiting (.cancelJob "a")).store.jobs.get "b").map Job.state = some .canceled := by
    decide +kernel
  obtain ⟨j₀, hj₀, hs₀⟩ := Option.map_eq_some_iff.1 hbefore
  obtain ⟨j, hj, hs⟩ := Option.map_eq_some_iff.1 hstate
  have hrun : Runs .steady noCron (ListsIndexed .steady) (started .steady noCron .empty leading) waiting := by
    -- neither ID is in the index when it is submitted
    have hnone : ∀ (s : Server) (job : Job), RevIndex.edges s.revIndex = [] →
        ListsIndexed .steady s (.call (.submitJob (some job))) := by
      intro s job he d hd
      have := RevIndex.mem_edges hd
      rw [he] at this
      cases this
    exact (Runs.refl.call (hnone _ _ (by decide +kernel)) rfl).call (hnone _ _ (by decide +kernel)) rfl
  refine ⟨j, hj, hs, only_dependents_canceled steady_sound rfl hrun _ hj hs fun h => ?_⟩
  cases hj₀.symm.trans h
  rw [hs] at hs₀
  cases hs₀

/-- `x` waits on `a` and is submitted again without dependencies. Canceling `a` cancels it all the same. -/
theorem unrelated_canceled : ∃ s, Runs .steady noCron (fun _ _ => True) (started .steady noCron .empty leading) s ∧
    ∃ j, (after .steady noCron s (.cancelJob "a")).store.jobs.get "x" = some j ∧ j.state = .canceled ∧
      s.store.jobs.get "x" ≠ some j ∧
      ¬ Relation.TransGen (DependsOn (after .steady noCron s (.cancelJob "a"))) "x" "a" := by
  let s := served [submitting "a" [], submitting "x" ["a"], submitting "x" []]
  have hbefore : (s.store.jobs.get "x").map Job.state = some .queued := by decide +kernel
  have hstate : ((after .steady noCron s (.cancelJob "a")).store.jobs.get "x").map (fun j => (j.state, j.dependsOn)) =
      some (.canceled, []) := by decide +kernel
  obtain ⟨j₀, hj₀, hs₀⟩ := Option.map_eq_some_iff.1 hbefore
  obtain ⟨j, hj, hs⟩ := Option.map_eq_some_iff.1 hstate
  simp only [Prod.mk.injEq] at hs
  refine ⟨s, ((Runs.refl.call trivial rfl).call trivial rfl).call trivial rfl, j, hj, hs.1, fun h => ?_, fun h => ?_⟩
  · cases hj₀.symm.trans h
    rw [hs.1] at hs₀
    cases hs₀
  · -- the first edge of a path from `x` would be in its empty list
    obtain ⟨d, ⟨jx, hjx, hd⟩, _⟩ := Relation.TransGen.head'_iff.1 h
    cases hj.symm.trans hjx
    rw [hs.2] at hd
    cases hd

end Distsched.Lifecycle
