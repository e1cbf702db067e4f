/-
Every handler keeps to the protocol of the occurrences. What is at stake is that a job just stored is armed for no
earlier than its occurrence, before the handler does anything that relies on it: in `makeReady`, in
`maybeRescheduleCron`, in `handleFailure`, and in the first pass of a rebuild, which works from a listing; and that the
job is not in the ready queue then. While that pass goes on, the records still to come are as they were listed or have
ended, since it replaces no record but the one it is at, and cascades only cancel.
-/
import Distsched.Timing.Almanac
import Distsched.Timing.Dispatch

namespace Distsched.Timing

open Scheduler Prog

variable {env : Env} {ps : Cron} {S : Set String} {a a' a'' : Almanac} {x : String} {j job : Job} {now : Time}

/-! ## Almanacs -/

namespace Almanac

theorem DueBy.mono {n m : Int} (h : a.DueBy ps x n) (hnm : n ≤ m) : a.DueBy ps x m :=
  fun j t hj ho ht => (h j t hj ho ht).trans hnm

theorem put_self (a : Almanac) (j : Job) : (a.put j).jobs j.id = some j := Function.update_self ..

theorem dueBy_put {n : Int} (h : ∀ t, Occurrence ps j → j.scheduledAt = some t → t ≤ n) : (a.put j).DueBy ps j.id n := by
  intro j' t hj
  obtain rfl : j = j' := Option.some.inj ((put_self a j).symm.trans hj)
  exact h t

theorem Calm.put (h : a.Calm ps) (hj : j.id ∈ a.ready → Recurs ps j → terminal j.state = true) : (a.put j).Calm ps := by
  intro x hx
  by_cases he : x = j.id
  · subst he
    constructor
    · intro j' hj' hrec
      obtain rfl : j = j' := Option.some.inj ((put_self a j).symm.trans hj')
      exact .inl (hj hx hrec)
    · refine dueBy_put fun t ho => ?_
      have hend := hj hx ho.2.2
      rw [ho.1] at hend
      cases hend
  · have hjobs : (a.put j).jobs x = a.jobs x := Function.update_of_ne he ..
    unfold Fit DueBy
    rw [hjobs]
    exact h x hx

/-- A record that is no occurrence needs no arming. -/
theorem Storable.put (h : a.Storable ps j) (hno : ¬ Occurrence ps j) : (a.put j).Settled ps := by
  constructor
  · exact h.settled.calm.put h.unready
  · rintro x ⟨⟩
    exact dueBy_put fun _ ho => absurd ho hno

theorem Settled.pass (h : a.Settled ps) (n : Int) : (a.pass n).Settled ps := by
  constructor
  · intro x hx
    exact ⟨(h.calm x hx).1, (h.calm x hx).2.mono (le_max_left a.now n)⟩
  · exact fun x hx => (h.loose x hx).mono (le_max_left a.now n)

theorem Settled.push (h : a.Settled ps) (hx : a.Fit ps x) : (a.push x).Settled ps := by
  constructor
  · rintro y (rfl | hy)
    · exact hx
    · exact h.calm y hy
  · exact h.loose

/-- Jobs leave the queue. -/
theorem Settled.fewer (h : a.Settled ps) {ready : Set String} (hr : ready ⊆ a.ready) :
    Settled ps { a with ready := ready } := ⟨fun x hx => h.calm x (hr hx), h.loose⟩

theorem Settled.mint (h : a.Settled ps) : a.mint.Settled ps := ⟨h.calm, h.loose⟩

/-- A job that recurs and is PENDING or RUNNING is not in the queue. -/
theorem Settled.unready (h : a.Settled ps) (hj : a.jobs x = some j) (hs : j.state = .pending ∨ j.state = .running) :
    x ∈ a.ready → ¬ Recurs ps j := by
  intro hx hrec
  rcases (h.calm x hx).1 j hj hrec with hend | hq
  · rcases hs with hs | hs <;> rw [hs] at hend <;> cases hend
  · rcases hs with hs | hs <;> cases hs.symm.trans hq

end Almanac

/-- What a handler that works on the jobs of `S` does: time passes, any other job is as it was or has ended, and none of
them enters the queue. -/
structure Spares (S : Set String) (a a' : Almanac) : Prop where
  now : a.now ≤ a'.now
  jobs : ∀ x ∉ S, a'.jobs x = a.jobs x ∨ ∃ j, a'.jobs x = some j ∧ terminal j.state = true
  ready : ∀ x ∉ S, x ∈ a'.ready → x ∈ a.ready

theorem Spares.of_eq (hj : a'.jobs = a.jobs) (hn : a.now ≤ a'.now) (hr : a'.ready ⊆ a.ready) : Spares S a a' :=
  ⟨hn, fun _ _ => .inl (by rw [hj]), fun _ _ h => hr h⟩

theorem Spares.refl (S : Set String) (a : Almanac) : Spares S a a := .of_eq rfl (le_refl _) subset_rfl

theorem Spares.trans (h : Spares S a a') (h' : Spares S a' a'') : Spares S a a'' := by
  refine ⟨h.now.trans h'.now, fun x hx => ?_, fun x hx hr => h.ready x hx (h'.ready x hx hr)⟩
  rcases h'.jobs x hx with h₁ | h₁
  · rw [h₁]
    exact h.jobs x hx
  · exact .inr h₁

theorem Spares.pass (S : Set String) (a : Almanac) (n : Int) : Spares S a (a.pass n) :=
  .of_eq rfl (le_max_left ..) subset_rfl

theorem Spares.put (h : j.id ∈ S ∨ terminal j.state = true) : Spares S a (a.put j) := by
  refine ⟨le_refl _, fun x hx => ?_, fun _ _ h => h⟩
  by_cases he : x = j.id
  · subst he
    exact .inr ⟨j, Function.update_self .., h.resolve_left hx⟩
  · exact .inl (Function.update_of_ne he ..)

theorem Spares.mint (S : Set String) (a : Almanac) : Spares S a a.mint := .of_eq rfl (le_refl _) subset_rfl

theorem Spares.push (h : x ∈ S) : Spares S a (a.push x) := by
  refine ⟨le_refl _, fun _ _ => .inl rfl, fun y hy hr => ?_⟩
  exact hr.resolve_left fun he => hy (he ▸ h)

/-! ## Programs -/

/-- Begun with every job seen to, the program keeps to the protocol and ends so; it works on the jobs of `S`. -/
def Arms (env : Env) (ps : Cron) (S : Set String) {α : Type} (p : M α) : Prop :=
  ∀ a, a.Settled ps → Meets (arming env ps) p a fun _ a' => a'.Settled ps ∧ Spares S a a'

theorem arms_pure {α : Type} (r : α) : Arms env ps S (pure r : M α) := fun a ha => ⟨ha, .refl S a⟩

theorem arms_act (op : Op) (h : Plain op) : Arms env ps S (act op) := by
  intro a ha
  refine ⟨by cases op <;> first | exact h.elim | trivial, fun r _ => ?_⟩
  cases op
  case putJob | push | startTimer => exact h.elim
  case now => exact ⟨ha.pass r.ns, .pass S a r.ns⟩
  case pop =>
    cases r with
    | none => exact ⟨ha, .refl S a⟩
    | some x => exact ⟨ha.fewer Set.sdiff_subset, .of_eq rfl (le_refl _) Set.sdiff_subset⟩
  case remove x => exact ⟨ha.fewer Set.sdiff_subset, .of_eq rfl (le_refl _) Set.sdiff_subset⟩
  case clearQueue => exact ⟨ha.fewer (Set.empty_subset _), .of_eq rfl (le_refl _) (Set.empty_subset _)⟩
  case newID => exact ⟨ha.mint, .mint S a⟩
  all_goals exact ⟨ha, .refl S a⟩

theorem Arms.bind {α β : Type} {p : M α} {f : α → M β} (hp : Arms env ps S p) (hf : ∀ r, Arms env ps S (f r)) :
    Arms env ps S (p >>= f) :=
  fun a ha => (hp a ha).bind fun r a' ⟨ha', hs⟩ => (hf r a' ha').mono fun _ _ ⟨ha'', hs'⟩ => ⟨ha'', hs.trans hs'⟩

/-- What a program does that begins with an almanac which another one has left. -/
theorem Spares.meets {α : Type} {p : M α} (hs : Spares S a a')
    (hp : Meets (arming env ps) p a' fun _ a'' => a''.Settled ps ∧ Spares S a' a'') :
    Meets (arming env ps) p a' fun _ a'' => a''.Settled ps ∧ Spares S a a'' :=
  hp.mono fun _ _ ⟨hset, hs'⟩ => ⟨hset, hs.trans hs'⟩

theorem meets_getJob (x : String) : Meets (arming env ps) (Db.getJob x) a fun r a' =>
    a' = a ∧ ∀ j, r = .ok j → j.id = x ∧ a.jobs x = some j ∧ Good env ps j := by
  refine ⟨trivial, fun r hr => ⟨rfl, ?_⟩⟩
  rintro j rfl
  exact hr

theorem meets_timeNow : Meets (arming env ps) timeNow a fun t a' => a' = a.pass t.ns ∧ Stamp env t ∧ a.Past ps t.ns :=
  ⟨trivial, fun _ ht => ⟨rfl, ht⟩⟩

theorem meets_depsSatisfied (deps : List String) : Meets (arming env ps) (depsSatisfied deps) a fun _ a' => a' = a :=
  Scheduler.meets_depsSatisfied (fun _ _ => ⟨trivial, fun _ _ => rfl⟩) deps a

theorem routine_arms : Routine (fun _ p => Arms env ps S p) (Good env ps) (Stamp env) where
  pure := arms_pure
  bind := Arms.bind
  act := arms_act
  getJob x f he hj a ha := by
    refine (meets_getJob x).bind ?_
    rintro r a ⟨rfl, hread⟩
    cases r with
    | error e => exact he e a ha
    | ok j => exact hj j (hread j rfl).1 (hread j rfl).2.2 a ha
  now hf a ha := by
    refine meets_timeNow.bind ?_
    rintro t _ ⟨rfl, ht, -⟩
    exact (Spares.pass S a t.ns).meets (hf t ht _ (ha.pass t.ns))
  utc t ht := ⟨ht.1, .inl rfl⟩

/-! ## Storing and arming -/

theorem meets_putJob (hg : Good env ps j) (ha : a.Storable ps j) : Meets (arming env ps) (putJob j) a fun r a' =>
    (r = .ok () ∧ a' = a.put j) ∨ (∃ e, r = .error e) ∧ a' = a := by
  have hlog : ∀ (b : Almanac) m, Meets (arming env ps) (appendRepl m) b fun _ b' => b' = b := by
    intro b m
    refine ⟨trivial, fun leads _ => ?_⟩
    cases leads with
    | true => exact ⟨trivial, fun _ _ => rfl⟩
    | false => rfl
  refine ⟨⟨hg, ha⟩, fun r _ => ?_⟩
  cases r with
  | error e => exact .inr ⟨⟨e, rfl⟩, rfl⟩
  | ok u => exact (hlog _ _).bind fun _ _ h => .inl ⟨rfl, h⟩

/-- A record that is no occurrence. -/
theorem meets_putOther (hg : Good env ps j) (ha : a.Storable ps j) (hn : ¬ Occurrence ps j)
    (hS : j.id ∈ S ∨ terminal j.state = true) :
    Meets (arming env ps) (putJob j) a fun _ a' => a'.Settled ps ∧ Spares S a a' := by
  refine (meets_putJob hg ha).mono ?_
  rintro r _ (⟨-, rfl⟩ | ⟨-, rfl⟩)
  · exact ⟨ha.put hn, .put hS⟩
  · exact ⟨ha.settled, .refl S _⟩

/-- A record of a job that has ended. -/
theorem arms_putTerminal (h : terminal j.state = true) : Arms env ps S (putJob j) := by
  have hno : ¬ Occurrence ps j := by
    rintro ⟨hs, -⟩
    rw [hs] at h
    cases h
  exact fun a ha => meets_putOther (.of_terminal h) ⟨ha, fun _ _ => h, fun ho => absurd ho hno⟩ hno (.inr h)

theorem arms_canceled (j : Job) (hs : j.state = .canceled) : Arms env ps S (putJob j) := arms_putTerminal (by rw [hs]; rfl)

theorem meets_enqueueJob (h : a.DueBy ps x a.now) : Meets (arming env ps) (enqueueJob x) a fun _ a' =>
    a' = a ∨ a' = a.push x ∧ a.Fit ps x := by
  refine ⟨trivial, fun closed _ => ?_⟩
  cases closed with
  | true => exact .inl rfl
  | false =>
    refine ⟨trivial, fun leads _ => ?_⟩
    cases leads with
    | false => exact .inl rfl
    | true =>
      refine (meets_getJob x).bind ?_
      rintro r a ⟨rfl, hread⟩
      cases r with
      | error e => exact .inl rfl
      | ok job =>
        obtain ⟨rfl, hj, -⟩ := hread job rfl
        dsimp only
        split
        · exact .inl rfl
        · rename_i hs
          -- only a QUEUED job is pushed
          have hfit : a.Fit ps job.id := by
            refine ⟨fun j' hj' _ => ?_, h⟩
            obtain rfl : job = j' := Option.some.inj (hj.symm.trans hj')
            exact .inr (not_not.1 hs)
          exact ⟨hfit, fun _ _ => .inr ⟨rfl, hfit⟩⟩

/-- After a job is armed for no earlier than its occurrence, every job is seen to if only this one was not. -/
theorem meets_armEnqueue {d : Int} (hx : x ∈ S) (hcalm : a.Calm ps) (hd : a.DueBy ps x (a.now + d))
    (hl : ∀ y, a.loose = some y → y = x ∨ a.DueBy ps y a.now) :
    Meets (arming env ps) (armEnqueue x d) a fun _ a' => a'.Settled ps ∧ Spares S a a' := by
  unfold armEnqueue
  split
  · have hdue : a.DueBy ps x a.now := hd.mono (by omega)
    have hset : a.Settled ps := by
      refine ⟨hcalm, fun y hy => ?_⟩
      rcases hl y hy with rfl | h
      · exact hdue
      · exact h
    refine (meets_enqueueJob hdue).mono ?_
    rintro _ _ (rfl | ⟨rfl, hfit⟩)
    · exact ⟨hset, .refl S _⟩
    · exact ⟨hset.push hfit, .push hx⟩
  · refine ⟨hd, fun _ _ => ⟨⟨hcalm, fun y hy => ?_⟩, .of_eq rfl (le_refl _) subset_rfl⟩⟩
    obtain ⟨hne, hloose⟩ : a.loose ≠ some x ∧ a.loose = some y := Option.ite_none_left_eq_some.1 hy
    rcases hl y hloose with rfl | h
    · exact absurd hloose hne
    · exact h

/-- A job just stored is armed, perhaps after a look at the clock. -/
theorem meets_armStored {d n : Int} (hid : j.id = x) (hS : x ∈ S) (ha : a.Storable ps j)
    (hd : ∀ t, Occurrence ps j → j.scheduledAt = some t → t ≤ max a.now n + d) :
    Meets (arming env ps) (armEnqueue x d) ((a.put j).pass n) fun _ a' => a'.Settled ps ∧ Spares S a a' := by
  subst hid
  have hspare : Spares S a ((a.put j).pass n) := (Spares.put (.inl hS)).trans (.pass S _ n)
  have hcalm : ((a.put j).pass n).Calm ps := by
    intro y hy
    obtain ⟨hstate, hdue⟩ := ha.settled.calm.put ha.unready y hy
    exact ⟨hstate, hdue.mono (le_max_left a.now n)⟩
  refine hspare.meets (meets_armEnqueue hS hcalm (fun j' t hj' => ?_) fun y hy => .inl (Option.some.inj hy).symm)
  exact Almanac.dueBy_put hd j' t hj'

/-! ## Placement -/

/-- What `fireTime` makes of a job, by any protocol that allows a look at the clock: the record differs in `scheduled_at`
only, and for a job that recurs this is the time the library gives, with the delay until then. -/
theorem meets_fireTime_record {G : Type} {P : Protocol Op Op.Resp G} (hnow : ∀ g, P.permits .now g) (job : Job) (g : G) :
    Meets P (fireTime ps job now) g fun p g' =>
      (g' = g ∨ ∃ t, g' = P.next .now t g) ∧ p.1 = { job with scheduledAt := p.1.scheduledAt } ∧
        (Recurs ps job → ∃ next t, ps job.cronExpr = .ok next ∧ p.1.scheduledAt = some (next now).ns ∧
          p.2 = durationTo (next now).ns t.ns ∧ g' = P.next .now t g) := by
  unfold fireTime
  split
  · rename_i hnone
    refine ⟨.inl rfl, rfl, fun hrec => absurd ?_ hrec.1⟩
    simp [Job.cronExpr, hnone]
  · rename_i sched hsched
    have hexpr : job.cronExpr = sched.getCronExpr := by simp [Job.cronExpr, hsched]
    split
    · cases hparse : ps sched.getCronExpr with
      | error e =>
        simp only [nextCron, hparse]
        refine ⟨.inl rfl, rfl, fun hrec => ?_⟩
        obtain ⟨_, next, hnext⟩ := hrec
        rw [hexpr, hparse] at hnext
        cases hnext
      | ok next =>
        simp only [nextCron, hparse]
        exact ⟨hnow g, fun t _ => ⟨.inr ⟨t, rfl⟩, rfl, fun _ => ⟨next, t, hexpr ▸ hparse, rfl, rfl, rfl⟩⟩⟩
    · rename_i hempty
      have hno : ¬ Recurs ps job := fun hrec => hrec.1 (hexpr.trans (not_not.1 hempty))
      split
      · exact ⟨.inl rfl, rfl, fun hrec => absurd hrec hno⟩
      · split
        · exact ⟨hnow g, fun t _ => ⟨.inr ⟨t, rfl⟩, rfl, fun hrec => absurd hrec hno⟩⟩
        · exact ⟨.inl rfl, rfl, fun hrec => absurd hrec hno⟩

/-- No fire time is so far ahead of the instant of arming that no timer can be set for it. -/
def Soon (env : Env) (ps : Cron) : Prop :=
  ∀ expr next t, ps expr = .ok next → Stamp env t → (next t).ns ≤ t.ns + maxDuration

section Placement

variable (hps : Soon env ps)

include hps

/-- The record to be stored, and the delay until the occurrence of a job that recurs. -/
theorem meets_fireTime (job : Job) (hstamp : Stamp env now) (hn : now.ns ≤ a.now) :
    Meets (arming env ps) (fireTime ps job now) a fun p a' =>
      (∃ n, a.now ≤ n ∧ a' = { a with now := n }) ∧ p.1 = { job with scheduledAt := p.1.scheduledAt } ∧
        (Recurs ps job → ∃ next, ps job.cronExpr = .ok next ∧ p.1.scheduledAt = some (next now).ns ∧
          (next now).ns ≤ a'.now + p.2) := by
  refine (meets_fireTime_record (fun _ => trivial) job a).mono ?_
  rintro ⟨job', d⟩ a' ⟨hnext, hjob, hrec⟩
  refine ⟨?_, hjob, fun h => ?_⟩
  · rcases hnext with rfl | ⟨t, rfl⟩
    · exact ⟨_, le_refl _, rfl⟩
    · exact ⟨_, le_max_left a.now t.ns, rfl⟩
  · obtain ⟨next, t, hparse, hsched, rfl, rfl⟩ := hrec h
    refine ⟨next, hparse, hsched, ?_⟩
    have hnear : (next now).ns ≤ now.ns + maxDuration := hps _ next now hparse hstamp
    have hle : a.now ≤ max a.now t.ns := le_max_left ..
    exact le_add_durationTo (n := max a.now t.ns) (le_max_right ..) (le_refl _) (by omega)

/-- A job that is not in the queue, if it recurs. -/
theorem meets_makeReady (ha : job.attempt = 0) (hS : job.id ∈ S) (hstamp : Stamp env now) (hn : now.ns ≤ a.now)
    (hset : a.Settled ps) (hoff : job.id ∈ a.ready → ¬ Recurs ps job) :
    Meets (arming env ps) (makeReady ps job now) a fun _ a' => a'.Settled ps ∧ Spares S a a' := by
  refine (meets_fireTime hps job hstamp hn).bind ?_
  rintro ⟨job', d⟩ _ ⟨⟨n, hle, rfl⟩, hjob, hrec⟩
  dsimp only at hjob hrec ⊢
  generalize hready : ({ job' with state := .queued, updatedAt := some now.ns } : Job) = ready
  have hid : ready.id = job.id := by rw [← hready, hjob]
  have hcron : Recurs ps ready → Recurs ps job := by
    rw [← hready, hjob]
    exact id
  -- a job that recurs is stored with the time that the library gives for `now`
  have hgood : Good env ps ready := by
    refine .of_first (by rw [← hready]) (by rw [← hready, hjob]; exact ha) fun h => ?_
    obtain ⟨next, hnext, hsched, -⟩ := hrec (hcron h)
    refine ⟨now, hstamp, by rw [← hready], next, ?_, by rw [← hready]; exact hsched⟩
    rw [← hready, hjob]
    exact hnext
  have hpass : a.pass n = { a with now := n } := by
    unfold Almanac.pass
    rw [max_eq_right hle]
  have hstore : Almanac.Storable ps { a with now := n } ready := by
    refine ⟨hpass ▸ hset.pass n, fun hr h => absurd (hcron h) (hoff (hid ▸ hr)), fun _ u hu => ?_⟩
    rw [← hready] at hu
    cases hu
    exact hn.trans hle
  have hspare : Spares S a { a with now := n } := .of_eq rfl hle subset_rfl
  refine (meets_putJob hgood hstore).bind ?_
  rintro r _ (⟨rfl, rfl⟩ | ⟨⟨e, rfl⟩, rfl⟩)
  · have harm : Meets (arming env ps) (armEnqueue ready.id d) ((Almanac.put { a with now := n } ready).pass n) fun _ a'' =>
        a''.Settled ps ∧ Spares S { a with now := n } a'' := by
      refine meets_armStored rfl (hid ▸ hS) hstore fun t ho ht => ?_
      obtain ⟨next, -, hsched, hle⟩ := hrec (hcron ho.2.2)
      rw [← hready] at ht
      obtain rfl : (next now).ns = t := Option.some.inj (hsched.symm.trans ht)
      rw [max_self]
      exact hle
    have hsame : (Almanac.put { a with now := n } ready).pass n = Almanac.put { a with now := n } ready := by
      simp only [Almanac.pass, Almanac.put, max_self]
    rw [hsame] at harm
    have hjid : job'.id = ready.id := by rw [← hready]
    rw [hjid]
    exact harm.mono fun _ _ ⟨h, hs⟩ => ⟨h, hspare.trans hs⟩
  · exact ⟨hstore.settled, hspare⟩

theorem meets_placeNewJob (ha : job.attempt = 0) (hstamp : Stamp env now) (hn : now.ns ≤ a.now) (hset : a.Settled ps)
    (hoff : job.id ∈ a.ready → ¬ Recurs ps job) :
    Meets (arming env ps) (placeNewJob ps job now) a fun _ a' => a'.Settled ps := by
  refine (meets_depsSatisfied job.dependsOn).bind ?_
  rintro ⟨ready, failedDep⟩ a rfl
  dsimp only
  split
  · exact (arms_canceled (S := Set.univ) _ rfl a hset).bind fun _ _ h => h.1
  · split
    · have hno : ¬ Occurrence ps { job with state := .pending, updatedAt := some now.ns } := by
        rintro ⟨⟨⟩, -⟩
      have hstore : a.Storable ps { job with state := .pending, updatedAt := some now.ns } :=
        ⟨hset, fun hr h => absurd h (hoff hr), fun ho => absurd ho hno⟩
      have hgood : Good env ps { job with state := .pending, updatedAt := some now.ns } := .of_pending rfl ha
      refine (meets_putOther (S := Set.univ) hgood hstore hno (.inl (Set.mem_univ _))).bind fun _ a₁ h₁ => ?_
      exact (arms_act (S := Set.univ) (.addDeps job) trivial a₁ h₁.1).mono fun _ _ h => h.1
    · exact (meets_makeReady (S := Set.univ) hps ha trivial hstamp hn hset hoff).mono fun _ _ h => h.1

theorem arms_tryPromote (hS : x ∈ S) : Arms env ps S (tryPromote ps x) := by
  intro a hset
  refine (meets_getJob x).bind ?_
  rintro r a ⟨rfl, hread⟩
  cases r with
  | error e => exact ⟨hset, .refl S a⟩
  | ok job =>
    obtain ⟨rfl, hj, hgood⟩ := hread job rfl
    dsimp only
    split
    · exact ⟨hset, .refl S a⟩
    · rename_i hs
      have hs : job.state = .pending := not_not.1 hs
      refine (meets_depsSatisfied job.dependsOn).bind ?_
      rintro ⟨ready, failedDep⟩ a rfl
      dsimp only
      split
      · exact routine_arms.cancelCascade arms_canceled _ _ a hset
      · split
        · refine meets_timeNow.bind ?_
          rintro now _ ⟨rfl, hstamp, -⟩
          refine (Spares.pass S a now.ns).meets ?_
          have hready := meets_makeReady (S := S) hps (hgood.pending hs) hS hstamp (le_max_right a.now now.ns)
            (hset.pass now.ns) (hset.unready hj (.inl hs))
          refine hready.bind fun _ a₁ ⟨h₁, hs₁⟩ => hs₁.meets ?_
          exact arms_act (.removeFromIndex job.id) trivial a₁ h₁
        · exact ⟨hset, .refl S a⟩

theorem arms_promoteDependents (x : String) : Arms env ps Set.univ (promoteDependents ps x) :=
  (arms_act (.dependentsOf x) trivial).bind fun _ => routine_arms.forM fun _ _ => arms_tryPromote hps trivial

/-- A submission of a job that recurs goes to an ID that is not in the queue. -/
theorem meets_submitJob (cfg : Config) (req : Option Job) (hset : a.Settled ps)
    (hreq : ∀ job, req = some job → Recurs ps job → submitID env a.minted job ∉ a.ready) :
    Meets (arming env ps) (submitJob cfg ps req) a fun _ a' => a'.Settled ps := by
  have haccept : ∀ (a : Almanac) (job : Job), a.Settled ps → (job.id ∈ a.ready → ¬ Recurs ps job) →
      Meets (arming env ps) (acceptJob ps job) a fun _ a' => a'.Settled ps := by
    intro a job hset hoff
    have hcycle : Meets (arming env ps) (formsCycle job) a fun _ a' => a' = a := by
      unfold formsCycle
      split
      · refine ⟨trivial, fun r _ => ?_⟩
        cases r <;> rfl
      · rfl
    refine hcycle.bind ?_
    rintro cyclic a rfl
    cases cyclic with
    | true => exact hset
    | false =>
      refine meets_timeNow.bind ?_
      rintro now _ ⟨rfl, hstamp, -⟩
      have hplace : Meets (arming env ps) (placeNewJob ps { job with
          attempt := 0, assignedWorkerId := "", lastError := "", createdAt := some now.ns, updatedAt := some now.ns }
          (.utc now.ns)) (a.pass now.ns) fun _ a' => a'.Settled ps :=
        meets_placeNewJob hps rfl ⟨hstamp.1, .inl rfl⟩ (le_max_right a.now now.ns) (hset.pass now.ns) hoff
      exact hplace.bind fun _ _ h => h
  have hassign : ∀ (a : Almanac) (job : Job), a.Settled ps → (Recurs ps job → submitID env a.minted job ∉ a.ready) →
      Meets (arming env ps) (assignID job >>= acceptJob ps) a fun _ a' => a'.Settled ps := by
    intro a job hset hoff
    unfold submitID at hoff
    unfold assignID
    split
    · rename_i hid
      rw [if_pos hid] at hoff
      refine ⟨trivial, fun id he => ?_⟩
      obtain rfl : id = "job" ++ "-" ++ env.uuid a.minted := he
      exact haccept _ _ hset.mint fun hr hrec => hoff hrec hr
    · rename_i hid
      rw [if_neg hid] at hoff
      exact haccept a job hset fun hr hrec => hoff hrec hr
  refine (meets_requireLeader cfg (fun _ => ⟨trivial, fun _ _ => rfl⟩) fun _ => ⟨trivial, fun _ _ => rfl⟩).bind ?_
  rintro denied a rfl
  cases denied with
  | some e => exact hset
  | none =>
    cases req with
    | none => exact hset
    | some job =>
      dsimp only
      split
      · exact hset
      · split
        · exact hassign a job hset (hreq job rfl)
        · refine meets_timeNow.bind ?_
          rintro now _ ⟨rfl, -⟩
          split
          · exact hset.pass now.ns
          · exact hassign _ job (hset.pass now.ns) (hreq job rfl)

/-! ## The end of an attempt -/

theorem meets_maybeRescheduleCron (hS : job.id ∈ S) (hstamp : Stamp env now) (hn : now.ns ≤ a.now) (hset : a.Settled ps)
    (hoff : job.id ∈ a.ready → ¬ Recurs ps job) :
    Meets (arming env ps) (maybeRescheduleCron ps job now) a fun _ a' => a'.Settled ps ∧ Spares S a a' := by
  unfold maybeRescheduleCron
  split
  · exact ⟨hset, .refl S a⟩
  · rename_i hcron
    cases hparse : ps job.cronExpr with
    | error e =>
      simp only [nextCron, hparse]
      exact ⟨hset, .refl S a⟩
    | ok next =>
      simp only [nextCron, hparse]
      generalize hre : ({ job with
        state := .queued, attempt := 0, assignedWorkerId := "", lastError := "", finishedAt := none,
        scheduledAt := some (next now).ns, updatedAt := some now.ns } : Job) = rearmed
      have hid : rearmed.id = job.id := by rw [← hre]
      have hsched : rearmed.scheduledAt = some (next now).ns := by rw [← hre]
      have hgood : Good env ps rearmed := by
        rw [← hre]
        exact .of_first rfl rfl fun _ => ⟨now, hstamp, rfl, next, hparse, rfl⟩
      have hstore : a.Storable ps rearmed := by
        refine ⟨hset, fun hr _ => absurd ⟨hcron, next, hparse⟩ (hoff (hid ▸ hr)), fun _ u hu => ?_⟩
        rw [← hre] at hu
        cases hu
        exact hn
      refine (meets_putJob hgood hstore).bind ?_
      rintro r _ (⟨rfl, rfl⟩ | ⟨⟨e, rfl⟩, rfl⟩)
      · refine meets_timeNow.bind ?_
        rintro t _ ⟨rfl, -⟩
        have harm : Meets (arming env ps) (armEnqueue job.id (durationTo (next now).ns t.ns)) ((a.put rearmed).pass t.ns)
            fun _ a' => a'.Settled ps ∧ Spares S a a' := by
          refine meets_armStored hid hS hstore fun t' _ ht' => ?_
          obtain rfl : (next now).ns = t' := Option.some.inj (hsched.symm.trans ht')
          have hnear : (next now).ns ≤ now.ns + maxDuration := hps _ next now hparse hstamp
          exact le_add_durationTo (le_max_right a.now t.ns) (le_refl _) (by omega)
        exact Meets.bind harm fun _ _ h => h
      · exact ⟨hset, .refl S _⟩

omit hps in
/-- The cascade and what goes before it. -/
theorem arms_cascade (x reason : String) {α : Type} (r : α) : Arms env ps S (do
    removeFromIndex x
    cancelCascade x reason
    pure r) :=
  (arms_act (.removeFromIndex x) trivial).bind fun _ =>
    (routine_arms.cancelCascade arms_canceled x reason).bind fun _ => arms_pure r

theorem meets_handleFailure (msg : String) (hg : Good env ps job) (hs : job.state = .running) (hS : job.id ∈ S)
    (hstamp : Stamp env now) (hn : now.ns ≤ a.now) (hset : a.Settled ps) (hoff : job.id ∈ a.ready → ¬ Recurs ps job) :
    Meets (arming env ps) (handleFailure ps job msg now) a fun _ a' => a'.Settled ps ∧ Spares S a a' := by
  unfold handleFailure
  dsimp only
  split
  · rename_i hlt
    refine Meets.bind (Q := fun _ a' => a' = a) ⟨trivial, fun _ _ => rfl⟩ ?_
    rintro chance a rfl
    obtain ⟨hgood, hno⟩ := hg.retried hs hlt msg now.ns (Retry.backoff job.retryPolicy job.attempt chance)
    generalize hre : retried _ _ _ = waiting at hgood hno ⊢
    have hid : waiting.id = job.id := by rw [← hre]; rfl
    have hrec : Recurs ps waiting → Recurs ps job := by
      rw [← hre]
      exact id
    have hstore : a.Storable ps waiting :=
      ⟨hset, fun hr h => absurd (hrec h) (hoff (hid ▸ hr)), fun ho => absurd ho hno⟩
    refine (meets_putJob hgood hstore).bind ?_
    rintro r _ (⟨rfl, rfl⟩ | ⟨⟨e, rfl⟩, rfl⟩)
    · have hdue : (a.put waiting).DueBy ps job.id
          ((a.put waiting).now + Retry.backoff job.retryPolicy job.attempt chance) :=
        hid ▸ Almanac.dueBy_put fun _ ho => absurd ho hno
      refine (meets_armEnqueue hS (hset.calm.put hstore.unready) hdue
        fun y hy => .inl (hid ▸ (Option.some.inj hy).symm)).bind fun _ a' ⟨hset', hs'⟩ => ⟨hset', ?_⟩
      exact (Spares.put (.inl (hid ▸ hS))).trans hs'
    · exact ⟨hset, .refl S _⟩
  · refine Meets.bind (meets_maybeRescheduleCron hps ?_ hstamp hn hset hoff) fun r a₁ ⟨h₁, hs₁⟩ => hs₁.meets ?_
    · exact hS
    obtain ⟨rescheduled, job'⟩ := r
    cases rescheduled with
    | true => exact arms_pure _ a₁ h₁
    | false =>
      refine (arms_act (.putDeadLetter _) trivial a₁ h₁).bind fun r a₂ ⟨h₂, hs₂⟩ => hs₂.meets ?_
      cases r with
      | error e => exact arms_pure _ a₂ h₂
      | ok u =>
        refine (arms_putTerminal rfl a₂ h₂).bind fun r a₃ ⟨h₃, hs₃⟩ => hs₃.meets ?_
        cases r with
        | error e => exact arms_pure _ a₃ h₃
        | ok u => exact arms_cascade _ _ _ a₃ h₃

theorem meets_reportSuccess (τ : String) (hstamp : Stamp env now) (hn : now.ns ≤ a.now) (hset : a.Settled ps)
    (hoff : job.id ∈ a.ready → ¬ Recurs ps job) :
    Meets (arming env ps) (reportSuccess ps τ job now) a fun _ a' => a'.Settled ps ∧ Spares Set.univ a a' := by
  refine ⟨trivial, fun _ _ => ?_⟩
  refine (meets_maybeRescheduleCron hps (Set.mem_univ _) hstamp hn hset hoff).bind fun r a₁ ⟨h₁, hs₁⟩ => hs₁.meets ?_
  obtain ⟨rescheduled, job'⟩ := r
  cases rescheduled with
  | true => exact arms_pure _ a₁ h₁
  | false =>
    refine (arms_putTerminal rfl a₁ h₁).bind fun r a₂ ⟨h₂, hs₂⟩ => hs₂.meets ?_
    cases r with
    | error e => exact arms_pure _ a₂ h₂
    | ok u =>
      refine ((arms_act (.removeFromIndex _) trivial).bind fun _ => ?_) a₂ h₂
      exact (arms_promoteDependents hps _).bind fun _ => arms_pure _

theorem arms_reportTask (cfg : Config) (τ : String) (result : TaskResult) (error : String) :
    Arms env ps Set.univ (reportTask cfg ps τ result error) := by
  have hdrop : Arms env ps Set.univ (do removeLease τ; pure (.ok true : Except Status Bool)) :=
    (arms_act (.removeLease τ) trivial).bind fun _ => arms_pure _
  refine routine_arms.leading (fun _ => arms_pure _) ((arms_act (.getLease τ) trivial).bind fun held => ?_)
  cases held with
  | none => exact arms_pure _
  | some ls =>
    intro a hset
    refine (meets_getJob ls.jobID).bind ?_
    rintro r a ⟨rfl, hread⟩
    cases r with
    | error e => exact hdrop a hset
    | ok job =>
      obtain ⟨hid, hj, hgood⟩ := hread job rfl
      dsimp only
      split
      · exact hdrop a hset
      · rename_i hs
        have hs : job.state = .running := not_not.1 hs
        have hoff : job.id ∈ a.ready → ¬ Recurs ps job := hset.unready (hid ▸ hj) (.inr hs)
        refine meets_timeNow.bind ?_
        rintro now _ ⟨rfl, hstamp, -⟩
        refine (Spares.pass Set.univ a now.ns).meets ?_
        have hset' := hset.pass now.ns
        have hn : now.ns ≤ (a.pass now.ns).now := le_max_right ..
        cases result with
        | succeeded => exact meets_reportSuccess hps τ hstamp hn hset' hoff
        | failed =>
          refine (meets_handleFailure (S := Set.univ) hps error hgood hs trivial hstamp hn hset' hoff).bind
            fun r a₁ ⟨h₁, hs₁⟩ => hs₁.meets ?_
          cases r with
          | error e => exact arms_pure _ a₁ h₁
          | ok u => exact hdrop a₁ h₁
        | unspecified => exact arms_pure _ _ hset'

theorem arms_requeueLease (τ reason : String) : Arms env ps Set.univ (requeueLease ps τ reason) := by
  refine (arms_act (.getLease τ) trivial).bind fun held => ?_
  cases held with
  | none => exact arms_pure _
  | some l =>
    refine (arms_act (.removeLease τ) trivial).bind fun _ a hset => ?_
    refine (meets_getJob l.jobID).bind ?_
    rintro r a ⟨rfl, hread⟩
    cases r with
    | error e => exact arms_pure _ a hset
    | ok job =>
      obtain ⟨hid, hj, hgood⟩ := hread job rfl
      dsimp only
      split
      · exact arms_pure _ a hset
      · rename_i hs
        have hs : job.state = .running := not_not.1 hs
        refine meets_timeNow.bind ?_
        rintro now _ ⟨rfl, hstamp, -⟩
        refine (Spares.pass Set.univ a now.ns).meets ?_
        exact (meets_handleFailure (S := Set.univ) hps reason hgood hs trivial hstamp (le_max_right ..) (hset.pass now.ns)
          (hset.unready (hid ▸ hj) (.inr hs))).bind fun _ _ h => h

theorem arms_reaperTick (cfg : Config) : Arms env ps Set.univ (reaperTick cfg ps) := by
  have hworker : ∀ w reason, Arms env ps Set.univ (requeueLeasesForWorker ps w reason) := fun w reason =>
    (arms_act .listLeases trivial).bind fun _ => routine_arms.forM fun τ _ => arms_requeueLease hps τ reason
  have hreap : Arms env ps Set.univ (reapOnce cfg ps) := by
    refine (arms_act .now trivial).bind fun now => (arms_act .listCached trivial).bind fun cached => ?_
    refine (routine_arms.forM fun p _ => (routine_arms.putWorker p.2).bind fun _ => arms_pure _).bind fun _ => ?_
    refine (routine_arms.forM fun id _ => hworker id _).bind fun _ => ?_
    exact (arms_act .listLeases trivial).bind fun _ => routine_arms.forM fun τ _ => arms_requeueLease hps τ _
  refine (arms_act .isLeader trivial).bind fun leads => ?_
  cases leads with
  | true => exact hreap
  | false => exact arms_pure _

end Placement

/-! ## Polls and timers -/

theorem arms_pollLoop (cfg : Config) (w : String) (now : Int) (n : Nat) : ∀ (fuel : Nat) (out : List TaskAssignment),
    Arms env ps Set.univ (pollLoop cfg w now n fuel out)
  | 0, _ => arms_pure _
  | fuel + 1, out => by
    unfold pollLoop
    split
    · intro a hset
      refine ⟨trivial, fun popped hx => ?_⟩
      cases popped with
      | none => exact arms_pure _ a hset
      | some x =>
        -- the job leaves the queue, and was fit to be there
        have hset' : (a.unready x).Settled ps := hset.fewer Set.sdiff_subset
        have hfit : (a.unready x).Fit ps x := hset.calm x hx
        have hspare : Spares Set.univ a (a.unready x) := .of_eq rfl (le_refl _) Set.sdiff_subset
        refine hspare.meets ((meets_getJob x).bind ?_)
        rintro r _ ⟨rfl, hread⟩
        cases r with
        | error e => exact arms_pollLoop cfg w now n fuel out _ hset'
        | ok job =>
          obtain ⟨rfl, -, hgood⟩ := hread job rfl
          dsimp only
          split
          · exact arms_pollLoop cfg w now n fuel out _ hset'
          · rename_i hs
            have hrun : Good env ps (dispatched job w now) := hgood.dispatched (not_not.1 hs) w now
            have hno : ¬ Occurrence ps (dispatched job w now) := by
              rintro ⟨⟨⟩, -⟩
            refine ⟨trivial, fun τ _ => ?_⟩
            have hstore : (a.unready job.id).mint.Storable ps (dispatched job w now) :=
              ⟨hset'.mint, fun hr _ => absurd rfl hr.2, fun ho => absurd ho hno⟩
            refine (meets_putJob hrun hstore).bind ?_
            rintro r _ (⟨rfl, rfl⟩ | ⟨⟨e, rfl⟩, rfl⟩)
            · refine ((Spares.mint Set.univ _).trans (.put (.inl (Set.mem_univ _)))).meets ?_
              exact ((arms_act (.addLease _) trivial).bind fun _ => arms_pollLoop cfg w now n fuel _) _ (hstore.put hno)
            · -- the job goes back to where it was taken from
              have hback : Spares Set.univ (a.unready job.id) ((a.unready job.id).mint.push job.id) :=
                (Spares.mint Set.univ _).trans (.push (Set.mem_univ _))
              exact ⟨hfit, fun _ _ => ⟨hset'.mint.push hfit, hback⟩⟩
    · exact arms_pure _

theorem arms_pollTask (cfg : Config) (w : String) (n : Int) : Arms env ps Set.univ (pollTask cfg w n) := by
  refine routine_arms.leading (fun _ => arms_pure _) ((arms_act (.getCached w) trivial).bind fun known => ?_)
  cases known with
  | none => exact arms_pure _
  | some _ =>
    refine (arms_act .now trivial).bind fun _ => (arms_act .queueBound trivial).bind fun _ => ?_
    exact (arms_pollLoop cfg w _ _ _ _).bind fun _ => arms_pure _

/-- A timer that is not early. -/
theorem meets_timerFired (ha : a.Settled ps) (hx : a.DueBy ps x a.now) :
    Meets (arming env ps) (timerFired x) a fun _ a' => a'.Settled ps := by
  refine ⟨trivial, fun _ _ => (meets_enqueueJob hx).mono ?_⟩
  rintro _ _ (rfl | ⟨rfl, hfit⟩)
  · exact ha
  · exact ha.push hfit

/-! ## Rebuilds -/

/-- A listed record is stored, or the job has ended since. -/
def Current (a : Almanac) (j : Job) : Prop :=
  a.jobs j.id = some j ∨ ∃ j', a.jobs j.id = some j' ∧ terminal j'.state = true

theorem Current.spared (h : Current a j) (hs : Spares S a a') (hj : j.id ∉ S) : Current a' j := by
  rcases hs.jobs j.id hj with he | hend
  · unfold Current
    rw [he]
    exact h
  · exact .inr hend

/-- A record that is listed for `t` is due by then. -/
theorem Current.dueBy {n : Int} (h : Current a j) (hn : ∀ t, Occurrence ps j → j.scheduledAt = some t → t ≤ n) :
    a.DueBy ps j.id n := by
  intro j' t hj ho ht
  rcases h with h | ⟨j₁, h, hend⟩
  · obtain rfl : j = j' := Option.some.inj (h.symm.trans hj)
    exact hn t ho ht
  · obtain rfl : j₁ = j' := Option.some.inj (h.symm.trans hj)
    rw [ho.1] at hend
    cases hend

/-- What the first pass of a rebuild that began at `now` knows of a listed job: occurrences were armed before. -/
structure Awaited (env : Env) (ps : Cron) (now : Int) (j : Job) : Prop where
  good : Good env ps j
  past : Occurrence ps j → ∀ u, j.updatedAt = some u → u ≤ now

theorem Awaited.near (hps : Soon env ps) {n : Int} (h : Awaited env ps n j) (ho : Occurrence ps j) {t : Int}
    (ht : j.scheduledAt = some t) : t ≤ n + maxDuration := by
  obtain ⟨armed, hstamp, hup, next, hnext, hsched⟩ := h.good.armed ho
  obtain rfl : (next armed).ns = t := Option.some.inj (hsched.symm.trans ht)
  have := h.past ho armed.ns hup
  have := hps _ next armed hnext hstamp
  omega

theorem meets_rebuildJob (hps : Soon env ps) (hset : a.Settled ps) (hstamp : Stamp env now) (hnow : now.ns ≤ a.now)
    (hj : Awaited env ps now.ns j) (hcur : Current a j) (hoff : j.id ∉ a.ready) :
    Meets (arming env ps) (rebuildJob ps now j) a fun _ a' => a'.Settled ps ∧ Spares {j.id} a a' := by
  have hindex : Meets (arming env ps) (reindex j) a fun _ a' => a' = a := by
    unfold reindex
    split
    · rfl
    · exact ⟨trivial, fun _ _ => rfl⟩
  refine hindex.bind ?_
  rintro _ a rfl
  cases hstate : j.state with
  | queued =>
    dsimp only
    split
    · rename_i hpast
      have hdue : a.DueBy ps j.id a.now := by
        refine hcur.dueBy fun t _ ht => ?_
        rw [ht] at hpast
        exact (hpast.resolve_left nofun).trans hnow
      have hfit : a.Fit ps j.id := by
        refine ⟨fun j' hj' _ => ?_, hdue⟩
        rcases hcur with h | ⟨j₁, h, hend⟩
        · obtain rfl : j = j' := Option.some.inj (h.symm.trans hj')
          exact .inr hstate
        · obtain rfl : j₁ = j' := Option.some.inj (h.symm.trans hj')
          exact .inl hend
      exact ⟨hfit, fun _ _ => ⟨hset.push hfit, .push rfl⟩⟩
    · refine meets_armEnqueue rfl hset.calm (hcur.dueBy fun t ho ht => ?_) fun y hy => .inr (hset.loose y hy)
      have hnear := hj.near hps ho ht
      rw [ht]
      exact le_add_durationTo hnow (le_refl t) (by omega)
  | running =>
    exact (meets_handleFailure hps _ hj.good hstate (Set.mem_singleton _) hstamp hnow hset
      fun hr => absurd hr hoff).bind fun _ _ h => h
  | _ => exact ⟨hset, .refl _ a⟩

/-- The first pass of a rebuild. The records still to come are current and not in the queue. -/
theorem meets_rebuildJobs (hps : Soon env ps) {js : List Job} (hset : a.Settled ps) (hstamp : Stamp env now)
    (hnow : now.ns ≤ a.now) (hnd : (js.map Job.id).Nodup)
    (hjs : ∀ j ∈ js, Awaited env ps now.ns j ∧ Current a j ∧ j.id ∉ a.ready) :
    Meets (arming env ps) (js.forM (rebuildJob ps now)) a fun _ a' => a'.Settled ps ∧ a.now ≤ a'.now := by
  refine (Meets.forM (fun done a' => a'.Settled ps ∧ a.now ≤ a'.now ∧
    ∀ r, js = done ++ r → ∀ j ∈ r, Current a' j ∧ j.id ∉ a'.ready) ?_
    ⟨hset, le_refl _, fun r hr j hj => (hjs j (by rw [hr]; exact hj)).2⟩).mono fun _ _ h => ⟨h.1, h.2.1⟩
  intro done j rest b hsplit ⟨hb, hab, hrest⟩
  have hj : j ∈ js := by
    rw [hsplit]
    exact List.mem_append_right _ List.mem_cons_self
  obtain ⟨hcur, hoff⟩ := hrest (j :: rest) hsplit j List.mem_cons_self
  refine (meets_rebuildJob hps hb hstamp (hnow.trans hab) (hjs j hj).1 hcur hoff).mono fun _ b' ⟨hb', hs⟩ =>
    ⟨hb', hab.trans hs.now, ?_⟩
  intro r hr k hk
  have hr : rest = r := by
    rw [hsplit, List.append_assoc] at hr
    exact (List.cons.inj (List.append_cancel_left hr)).2
  subst hr
  obtain ⟨hcur', hoff'⟩ := hrest (j :: rest) hsplit k (List.mem_cons_of_mem j hk)
  -- no two records of a listing have the same ID
  have hne : k.id ∉ ({j.id} : Set String) := by
    rw [hsplit, List.map_append, List.map_cons] at hnd
    have hne := (List.nodup_cons.1 (List.nodup_append.1 hnd).2.1).1
    exact fun he => hne (he ▸ List.mem_map_of_mem hk)
  exact ⟨hcur'.spared hs hne, fun hr => hoff' (hs.ready _ hne hr)⟩

theorem arms_rebuildSchedulingState (hps : Soon env ps) : Arms env ps Set.univ (rebuildSchedulingState ps) := by
  intro a hset
  have hclear : Meets (arming env ps) clearSchedulingState a fun _ a' => a' = { a with ready := ∅ } :=
    ⟨trivial, fun _ _ => ⟨trivial, fun _ _ => ⟨trivial, fun _ _ => rfl⟩⟩⟩
  have hspare : Spares Set.univ a { a with ready := ∅ } := .of_eq rfl (le_refl _) (Set.empty_subset _)
  refine hclear.bind ?_
  rintro _ _ rfl
  have hempty : Almanac.Settled ps { a with ready := ∅ } := hset.fewer (Set.empty_subset _)
  refine hspare.meets ⟨trivial, fun r hr => ?_⟩
  cases r with
  | error e => exact ⟨hempty, .refl _ _⟩
  | ok js =>
    refine ⟨trivial, fun now hnow => (Spares.pass Set.univ _ now.ns).meets ?_⟩
    have hjs : ∀ j ∈ js, Awaited env ps now.ns j ∧ Current (Almanac.pass { a with ready := ∅ } now.ns) j ∧
        j.id ∉ (Almanac.pass { a with ready := ∅ } now.ns).ready := fun j hj =>
      ⟨⟨(hr.2 j hj).2, fun ho u hu => hnow.2 j.id j u (hr.2 j hj).1 ho hu⟩, .inl (hr.2 j hj).1, id⟩
    refine (meets_rebuildJobs hps (hempty.pass now.ns) hnow.1 (le_max_right ..) hr.1 hjs).bind fun _ a₁ ⟨h₁, hle⟩ => ?_
    have hpromote : Arms env ps Set.univ ((js.filter fun j => j.state = .pending).forM fun j => tryPromote ps j.id) :=
      routine_arms.forM fun j _ => arms_tryPromote hps trivial
    refine (hpromote a₁ h₁).mono fun _ a₂ ⟨h₂, hs⟩ => ⟨h₂, hle.trans hs.now, ?_, ?_⟩
    · exact fun x hx => absurd trivial hx
    · exact fun x hx => absurd trivial hx

/-! ## Activities -/

/-- Every activity keeps to the protocol, if a job that is submitted and recurs is not in the queue, and the job of a timer
that fires is due. -/
theorem meets_call (hps : Soon env ps) {cfg : Config} {c : Call} (ha : a.Settled ps)
    (hsubmit : ∀ job, c = .submitJob (some job) → Recurs ps job → submitID env a.minted job ∉ a.ready)
    (htimer : ∀ x, c = .timer x → a.DueBy ps x a.now) :
    Meets (arming env ps) (c.prog cfg ps) a fun _ a' => a'.Settled ps := by
  have hall : ∀ {p : M Unit}, Arms env ps Set.univ p → Meets (arming env ps) p a fun _ a' => a'.Settled ps :=
    fun hp => (hp a ha).mono fun _ _ h => h.1
  cases c with
  | submitJob req =>
    refine Meets.bind (meets_submitJob hps cfg req ha ?_) fun _ _ h => h
    rintro job rfl
    exact hsubmit job rfl
  | cancelJob x => exact hall ((routine_arms.cancelJob arms_canceled x).bind fun _ => arms_pure _)
  | pollTask w n => exact hall ((arms_pollTask cfg w n).bind fun _ => arms_pure _)
  | reportTask τ result error => exact hall ((arms_reportTask hps cfg τ result error).bind fun _ => arms_pure _)
  | registerWorker w => exact hall ((routine_arms.registerWorker w).bind fun _ => arms_pure _)
  | heartbeat w n => exact hall ((routine_arms.heartbeat w n).bind fun _ => arms_pure _)
  | timer x => exact meets_timerFired ha (htimer x rfl)
  | reaper => exact hall (arms_reaperTick hps cfg)
  | becomeLeader => exact hall (routine_arms.onBecomeLeader (arms_rebuildSchedulingState hps))

/-! ## Runs -/

/-- A job that recurs is submitted under an ID that is not in the ready queue. -/
def SubmitsUnqueued (ps : Cron) (env : Env) (s : Server) (ev : Event) : Prop :=
  ∀ job, ev.activity = .submitJob (some job) → Recurs ps job → ¬ s.queue.Holds (submitID env s.minted job)

/-- No timer is early, and no ID in the ready queue is submitted again as a job that recurs. -/
def Regular (ps : Cron) (env : Env) (s : Server) (ev : Event) : Prop := NotEarly env s ev ∧ SubmitsUnqueued ps env s ev

variable {s s' : Server} {ev : Event}

/-- The job of a timer that fires, and is not early, is due. -/
theorem OnTime.dueBy (h : OnTime env ps s) (hearly : NotEarly env s ev) (hen : ev.activity.enabled s = true)
    (hx : ev.activity = .timer x) : (almanac env s).DueBy ps x (almanac env s).now := by
  intro j t hj ho ht
  rw [hx] at hen
  obtain ⟨due, hdue⟩ : ∃ due, s.retryTimers[x]? = some due := by
    rw [← Option.isSome_iff_exists, Std.ExtTreeMap.isSome_getElem?_iff_mem]
    exact of_decide_eq_true hen
  rcases h.timers x due j t hdue hj ho ht with h₁ | h₁
  · exact h₁.trans (hearly x due hx hdue)
  · exact h₁

theorem enabled_of_step (h : step env ps s ev = some s') : ev.activity.enabled s = true := by
  cases ev with
  | call c => exact (Option.ite_none_right_eq_some.1 h).1
  | crash c ops aborted node => exact (Option.ite_none_right_eq_some.1 h).1.1

/-- The activity of an event keeps to the protocol. -/
theorem OnTime.meets (hps : Soon env ps) (h : OnTime env ps s) (hev : Regular ps env s ev)
    (hstep : step env ps s ev = some s') :
    Meets (arming env ps) (ev.activity.prog env.cfg ps) (almanac env s) fun _ a' => a'.Settled ps :=
  meets_call hps h.settled hev.2 fun _ hx => h.dueBy hev.1 (enabled_of_step hstep) hx

end Distsched.Timing
