/-
What a rebuild ends, exactly. The first pass takes the jobs in the order of the listing. When it comes to an orphan without
an attempt left it ends that one and, along the index, all that wait on it; but the index knows only the jobs the pass has
come to so far, and none that it has ended before. The second pass looks at the jobs that were PENDING: one whose first
unmet dependency has failed is ended with all that wait on it, and by now the index knows everyone who is left.
-/
import Distsched.Lifecycle.Cull
import Distsched.Lifecycle.Writes

namespace Distsched.Lifecycle

open Scheduler Prog
open Relation (ReflTransGen)

variable {env : Env} {ps : Cron} {b b' b₀ b₁ : Board} {P : Label → Prop} {x y d r : String} {j : Job} {done js : List Job}

/-! ## The moves of a rebuild -/

def Label.Recovery : Label → Prop
  | .record _ | .enqueue _ | .requeue _ none | .bury _ none | .cancel _ | .forget _ | .promote _ => True
  | _ => False

theorem Label.Promotion.recovery {l : Label} (h : l.Promotion) : l.Recovery := by
  cases l <;> first | exact h.elim | trivial

theorem Label.Cascade.recovery {S : Set String} {l : Label} (h : l.Cascade S) : l.Recovery := h.promotion.recovery

/-- A record stays stored, with its plan. -/
theorem Moves.stays (hm : Moves P b b') (hP : ¬ P (.place x)) (hj : b.jobs x = some j) :
    ∃ j', b'.jobs x = some j' ∧ plan j' = plan j := by
  refine hm.preserves (I := fun b₁ => ∃ j', b₁.jobs x = some j' ∧ plan j' = plan j) ?_ ⟨j, hj, rfl⟩
  rintro l b₁ b₂ hl hm ⟨j₁, hj₁, hplan⟩
  rcases hm.keeps_or_rewrites x with hk | ⟨j₂, hr⟩
  · exact ⟨j₁, hk.stored.trans hj₁, hplan⟩
  · obtain ⟨j₀, hj₀, hplan'⟩ := hm.of_stored (by rintro rfl; exact hP hl) hr.stored
    cases hj₁.symm.trans hj₀
    exact ⟨j₂, hr.stored, hplan'.trans hplan⟩

theorem Moves.of_succeeded (hm : Moves P b b') (hP : ∀ τ, ¬ P (.succeed x τ)) (hj : b'.jobs x = some j)
    (hs : j.state = .succeeded) : b.jobs x = some j := by
  refine hm.preserves (I := fun b₁ => b₁.jobs x = some j → b.jobs x = some j) (fun l b₁ b₂ hl hm hi hj => ?_) id hj
  exact hi (hm.of_succeeded (by rintro τ rfl; exact hP τ hl) hj hs)

/-- What is stored SUCCEEDED. -/
def MetIn (T : Table) (d : String) : Prop := ∃ j, T d = some j ∧ j.state = .succeeded

/-- What is stored FAILED or CANCELED. -/
def BrokenIn (T : Table) (d : String) : Prop := ∃ j, T d = some j ∧ Broken j.state

theorem MetIn.moves (hm : Moves P b b') (hP : ¬ P (.place d)) (h : MetIn b.jobs d) : MetIn b'.jobs d := by
  obtain ⟨j, hj, hs⟩ := h
  exact ⟨j, hm.final hP hj (by rw [hs]; rfl), hs⟩

theorem BrokenIn.moves (hm : Moves P b b') (hP : ¬ P (.place d)) (h : BrokenIn b.jobs d) : BrokenIn b'.jobs d := by
  obtain ⟨j, hj, hb⟩ := h
  exact ⟨j, hm.final hP hj hb.terminal, hb⟩

theorem MetIn.of_moves (hm : Moves Label.Recovery b b') (h : MetIn b'.jobs d) : MetIn b.jobs d := by
  obtain ⟨j, hj, hs⟩ := h
  exact ⟨j, hm.of_succeeded (fun _ => id) hj hs, hs⟩

theorem not_metIn_of_alive {T : Table} (hj : T d = some j) (ht : terminal j.state = false) : ¬ MetIn T d := by
  rintro ⟨j', hj', hs⟩
  cases hj.symm.trans hj'
  rw [hs] at ht
  cases ht

/-- Nothing succeeds in a rebuild, so a job that is ended in it is FAILED or CANCELED. -/
theorem brokenIn_of_ended (hm : Moves Label.Recovery b b') (hj : b.jobs x = some j) (ht : terminal j.state = false)
    (h : Ended b' x) : BrokenIn b'.jobs x := by
  obtain ⟨j', hj', -⟩ := hm.stays id hj
  refine ⟨j', hj', ?_⟩
  have hterm := h j' hj'
  cases hs : j'.state with
  | succeeded => exact absurd ⟨j', hm.of_succeeded (fun _ => id) hj' hs, hs⟩ (not_metIn_of_alive hj ht)
  | failed => exact .inl rfl
  | canceled => exact .inr rfl
  | _ =>
    rw [hs] at hterm
    cases hterm

/-- A job that is PENDING on something unmet stays as it is until it is ended. -/
theorem waiting_or_ended (hm : Moves Label.Recovery b b') (hj : b.jobs y = some j) (hs : j.state = .pending)
    (hd : d ∈ j.dependsOn) (hunmet : ¬ MetIn b.jobs d) : b'.jobs y = some j ∨ Ended b' y := by
  suffices h : (b'.jobs y = some j ∨ Ended b' y) ∧ ¬ MetIn b'.jobs d from h.1
  refine hm.preserves (I := fun b₁ => (b₁.jobs y = some j ∨ Ended b₁ y) ∧ ¬ MetIn b₁.jobs d) ?_ ⟨.inl hj, hunmet⟩
  rintro l b₁ b₂ hl hm ⟨hor, hun⟩
  have hplace : l ≠ .place y := by
    rintro rfl
    exact hl
  refine ⟨?_, fun hmet => hun (MetIn.of_moves (.single hm hl) hmet)⟩
  rcases hor with hj | hend
  swap
  · exact .inr (hm.ended hplace hend)
  by_cases hw : l.writes = some y
  · -- of the moves that write the record, only a cancellation finds it PENDING with a dependency unmet
    cases hm with
    | @cancel _ _ j' _ _ hplan hs' =>
      cases hw
      refine .inr fun j₂ hj₂ => ?_
      rw [← id_of_plan hplan] at hj₂
      cases hj₂.symm.trans (Function.update_self ..)
      rw [hs']
      rfl
    | promote hj' _ hmet =>
      cases hw
      cases hj.symm.trans hj'
      exact absurd (hmet d hd) hun
    | requeue hj' hs' | bury hj' hs' =>
      cases hw
      cases hj.symm.trans hj'
      rw [hs] at hs'
      cases hs'
    | record | enqueue | forget => cases hw
    | _ => exact hl.elim
  · exact .inl ((hm.other hw).trans hj)

/-! ## The first pass -/

/-- A job of the list that is not final waits on `d`. -/
def Awaits (js : List Job) (d y : String) : Prop := ∃ j ∈ js, j.id = y ∧ terminal j.state = false ∧ d ∈ j.dependsOn

/-- What the first pass has ended when it has come to the jobs of a list, the last one first: with each orphan that had no
attempt left, all that waited on it, on one of those, and so on, among the jobs it had come to and not yet ended. -/
def Felled (ps : Cron) : List Job → String → Prop
  | [], _ => False
  | j :: earlier, x => Felled ps earlier x ∨ (j.state = .running ∧ Exhausted ps j ∧
    ReflTransGen (fun d y => Awaits (j :: earlier) d y ∧ ¬ Felled ps earlier y) j.id x)

theorem awaits_cons : Awaits (j :: done) d y ↔ (j.id = y ∧ terminal j.state = false ∧ d ∈ j.dependsOn) ∨ Awaits done d y := by
  simp [Awaits]

theorem awaits_reverse : Awaits js.reverse d y ↔ Awaits js d y := by
  simp [Awaits]

theorem Felled.listed : ∀ {done : List Job} {x : String}, Felled ps done x → ∃ j ∈ done, j.id = x ∧ terminal j.state = false
  | _ :: _, _, .inl h => by
    obtain ⟨j, hj, hx⟩ := h.listed
    exact ⟨j, List.mem_cons_of_mem _ hj, hx⟩
  | f :: _, _, .inr ⟨hs, _, hpath⟩ => by
    rcases ReflTransGen.cases_tail hpath with rfl | ⟨_, _, ⟨j, hj, hid, ht, _⟩, _⟩
    · exact ⟨f, List.mem_cons_self, rfl, by rw [hs]; rfl⟩
    · exact ⟨j, hj, hid, ht⟩

theorem felled_cons_of_not (h : ¬ (j.state = .running ∧ Exhausted ps j)) : Felled ps (j :: done) x ↔ Felled ps done x :=
  or_iff_left fun hx => h ⟨hx.1, hx.2.1⟩

/-- The first pass, begun on board `b₀`, has come to the jobs of `done`, the last one first. -/
structure Felling (ps : Cron) (b₀ : Board) (done : List Job) (b : Board) : Prop where
  moves : Moves Label.Recovery b₀ b
  ended : ∀ x, Felled ps done x → Ended b x
  only : ∀ x j, b.jobs x = some j → Broken j.state → b₀.jobs x = some j ∨ Felled ps done x
  waits : ∀ d y, y ∈ b.waits d ↔ Awaits done d y ∧ ¬ Felled ps done y

/-- The job at hand ends nothing. -/
theorem Felling.spare (h : Felling ps b₀ done b) (hm : Moves Label.Recovery b b') (hspare : Spares b b')
    (hw : ∀ d y, y ∈ b'.waits d ↔ Awaits (j :: done) d y ∧ ¬ Felled ps done y)
    (hj : ¬ (j.state = .running ∧ Exhausted ps j)) : Felling ps b₀ (j :: done) b' where
  moves := h.moves.trans hm
  ended x hx := hm.ended id (h.ended x ((felled_cons_of_not hj).1 hx))
  only x jx hjx hb := (h.only x jx (hspare x jx hjx hb) hb).imp_right (felled_cons_of_not hj).2
  waits d y := by rw [hw, felled_cons_of_not hj]

/-- Edges into the root do not matter to what can be reached from it. -/
theorem below_iff {R : String → String → Prop} (h : ∀ d y, y ∈ b.waits d ↔ R d y ∧ y ≠ r) :
    x ∈ Below b r ↔ ReflTransGen R r x := by
  constructor
  · exact ReflTransGen.mono (fun d y hy => ((h d y).1 hy).1) _ _
  · intro hpath
    induction hpath with
    | refl => exact .refl
    | @tail d y _ hy ih =>
      by_cases hr : y = r
      · rw [hr]
        exact .refl
      · exact ReflTransGen.tail ih ((h d y).2 ⟨hy, hr⟩)

theorem Move.of_bury {via : Option String} (hm : Move (.bury r via) b b') :
    (∀ x, x ≠ r → b'.jobs x = b.jobs x) ∧ ∀ d y, y ∈ b'.waits d ↔ y ∈ b.waits d ∧ y ≠ r := by
  refine ⟨fun x hx => hm.other fun hw => hx (Option.some.inj hw).symm, fun d y => ?_⟩
  cases hm with
  | bury =>
    rw [Board.unpark_waits, Board.put_waits, Board.yield_waits]
    rfl

theorem Move.waits_requeue {via : Option String} (hm : Move (.requeue r via) b b') : b'.waits = b.waits := by
  cases hm with
  | requeue _ _ _ _ _ hsch =>
    rw [hsch.waits]
    exact Board.yield_waits b via

/-- The job at hand is an orphan without an attempt left. -/
theorem Felling.fell (h : Felling ps b₀ done b) (hm : Moves Label.Recovery b b₁)
    (hjobs : b₁.jobs = b.jobs) (hw : ∀ d y, y ∈ b₁.waits d ↔ Awaits (j :: done) d y ∧ ¬ Felled ps done y)
    (hs : j.state = .running) (hex : Exhausted ps j) {b₂ : Board} (hbury : Move (.bury j.id none) b₁ b₂)
    (hc : Cascades j.id b₂ b') : Felling ps b₀ (j :: done) b' := by
  obtain ⟨hother, hwaits⟩ := hbury.of_bury
  have hbelow : ∀ x, x ∈ Below b₂ j.id ↔
      ReflTransGen (fun d y => Awaits (j :: done) d y ∧ ¬ Felled ps done y) j.id x := fun x =>
    below_iff fun d y => by rw [hwaits, hw]
  have hfelled : ∀ x, Felled ps (j :: done) x ↔ Felled ps done x ∨ x ∈ Below b₂ j.id := fun x => by
    rw [Felled, hbelow]
    exact or_congr_right ⟨fun h => h.2.2, fun h => ⟨hs, hex, h⟩⟩
  have hmoves : Moves Label.Recovery b b' :=
    (hm.tail hbury trivial).trans (hc.moves.mono fun _ hl => hl.recovery)
  refine ⟨h.moves.trans hmoves, fun x hx => ?_, fun x jx hjx hb => ?_, fun d y => ?_⟩
  · rcases (hfelled x).1 hx with hx | hx
    · exact hmoves.ended id (h.ended x hx)
    · exact hc.ended x hx
  · by_cases hx : x ∈ Below b₂ j.id
    · exact .inr ((hfelled x).2 (.inr hx))
    · have hne : x ≠ j.id := by
        rintro rfl
        exact hx .refl
      rw [hc.other hx, hother x hne, hjobs] at hjx
      exact (h.only x jx hjx hb).imp_right fun hf => (hfelled x).2 (.inl hf)
  · rw [hc.waits, hwaits, hw, hfelled, not_or]
    constructor
    · rintro ⟨⟨⟨ha, hf⟩, -⟩, hb⟩
      exact ⟨ha, hf, hb⟩
    · rintro ⟨ha, hf, hb⟩
      exact ⟨⟨⟨ha, hf⟩, by rintro rfl; exact hb .refl⟩, hb⟩

theorem felling_rebuildJob (he : Sound env) (ps : Cron) (now : Time) (hj : b.jobs j.id = some j) (hnew : j.id ∉ idsOf done)
    (h : Felling ps b₀ done b) : DoesOn env (rebuildJob ps now j) b fun _ b' => Felling ps b₀ (j :: done) b' := by
  refine (does_reindex j).bind ?_
  rintro _ b₁ (⟨ht, rfl⟩ | ⟨ht, rfl⟩)
  · have hw : ∀ d y, y ∈ b₁.waits d ↔ Awaits (j :: done) d y ∧ ¬ Felled ps done y := fun d y => by
      rw [h.waits, awaits_cons, or_iff_right fun hj => by rw [ht] at hj; cases hj.2.1]
    have hspare : ¬ (j.state = .running ∧ Exhausted ps j) → Felling ps b₀ (j :: done) b₁ :=
      h.spare (.refl _) (fun _ _ h _ => h) hw
    cases hs : j.state <;> rw [hs] at ht hspare <;> first | exact Does.pure (hspare nofun) | cases ht
  · have hw : ∀ d y, y ∈ (b.park j).waits d ↔ Awaits (j :: done) d y ∧ ¬ Felled ps done y := fun d y => by
      have hnot : ¬ Felled ps done j.id := fun hf => by
        obtain ⟨j', hj', hid, -⟩ := hf.listed
        exact hnew ⟨j', hj', hid⟩
      rw [Board.mem_park, h.waits, awaits_cons]
      constructor
      · rintro (⟨hd, rfl⟩ | ⟨ha, hf⟩)
        · exact ⟨.inl ⟨rfl, ht, hd⟩, hnot⟩
        · exact ⟨.inr ha, hf⟩
      · rintro ⟨⟨rfl, -, hd⟩ | ha, hf⟩
        · exact .inl ⟨hd, rfl⟩
        · exact .inr ⟨ha, hf⟩
    have hrec : Moves Label.Recovery b (b.park j) := .single (l := .record j.id) (.record hj ht) trivial
    have hp : (b.park j).jobs j.id = some j := hj
    cases hs : j.state with
    | queued =>
      have hsch : ∀ b₂, (b.park j).Scheduled j.id b₂ → Felling ps b₀ (j :: done) b₂ := fun b₂ hb₂ => by
        have hm : Move (.enqueue j.id) (b.park j) b₂ := .enqueue hp hs hb₂
        refine h.spare (hrec.tail hm trivial) (fun x jx hjx _ => ?_) (fun d y => ?_) (by rw [hs]; exact nofun)
        · rw [hb₂.jobs] at hjx
          exact hjx
        · rw [hb₂.waits]
          exact hw d y
      dsimp only
      split
      · refine (does_push _ _ _).bind ?_
        rintro _ _ rfl
        exact Does.pure (hsch _ (.inl rfl))
      · exact (does_armEnqueue he hp hs _).mono fun _ b₂ hb₂ => hsch b₂ hb₂
    | running =>
      refine (loses_handleFailure he ps hp hs _ now).bind ?_
      rintro _ b₂ ⟨-, ⟨hex, hm⟩ | ⟨hex, b₁, hbury, hc⟩⟩
      · refine Does.pure (h.spare (hrec.tail hm trivial) (fun x jx hjx hb => ?_) (fun d y => ?_) fun hboth => hex hboth.2)
        · exact hm.spares (l := .requeue j.id none) trivial x jx hjx hb
        · rw [hm.waits_requeue]
          exact hw d y
      · exact Does.pure (h.fell hrec rfl hw hs hex hbury hc)
    | pending | unspecified =>
      exact Does.pure (h.spare hrec (fun _ _ h _ => h) hw (by rw [hs]; exact nofun))
    | succeeded | failed | canceled =>
      rw [hs] at ht
      cases ht

theorem felling_firstPass (he : Sound env) (ps : Cron) (now : Time) (hnodup : (js.map Job.id).Nodup)
    (hr : Rebuilding js ∅ b₀) (hempty : ∀ d, b₀.waits d = ∅) :
    DoesOn env (js.forM (rebuildJob ps now)) b₀ fun _ b' => Felling ps b₀ js.reverse b' := by
  have hstart : Felling ps b₀ [] b₀ :=
    ⟨.refl _, fun _ h => h.elim, fun _ _ hj _ => .inl hj, fun d y => by simp [hempty d, Awaits]⟩
  refine (does_firstPass_keeping he ps now hnodup hr (I := fun done b' => Felling ps b₀ done.reverse b') hstart ?_).mono
    fun _ _ h => h.2
  intro done j _ hnew b hstored h
  rw [List.reverse_append]
  refine felling_rebuildJob he ps now hstored (fun hmem => hnew ?_) h
  obtain ⟨j', hj', hid⟩ := hmem
  exact ⟨j', List.mem_reverse.1 hj', hid⟩

/-! ## The second pass -/

/-- The first of the dependencies that is not met is broken. -/
def FailsFirst (broken met : String → Prop) : List String → Prop
  | [] => False
  | d :: rest => broken d ∨ (met d ∧ FailsFirst broken met rest)

section FailsFirst

variable {A A' B B' C : String → Prop}

theorem doomed_iff {T : Table} : ∀ {deps : List String}, Doomed T deps ↔ FailsFirst (BrokenIn T) (MetIn T) deps
  | [] => Iff.rfl
  | d :: rest => by
    rw [Doomed, FailsFirst, ← doomed_iff]
    constructor
    · rintro ⟨j, hj, hb | ⟨hs, hrest⟩⟩
      · exact .inl ⟨j, hj, hb⟩
      · exact .inr ⟨⟨j, hj, hs⟩, hrest⟩
    · rintro (⟨j, hj, hb⟩ | ⟨⟨j, hj, hs⟩, hrest⟩)
      · exact ⟨j, hj, .inl hb⟩
      · exact ⟨j, hj, .inr ⟨hs, hrest⟩⟩

theorem FailsFirst.mono (hA : ∀ d, A d → A' d) (hB : ∀ d, B d → B' d) :
    ∀ {deps : List String}, FailsFirst A B deps → FailsFirst A' B' deps
  | _ :: _, .inl h => .inl (hA _ h)
  | _ :: _, .inr ⟨hm, h⟩ => .inr ⟨hB _ hm, h.mono hA hB⟩

theorem FailsFirst.exists_broken : ∀ {deps : List String}, FailsFirst A B deps → ∃ d ∈ deps, A d
  | d :: _, .inl h => ⟨d, List.mem_cons_self, h⟩
  | _ :: _, .inr ⟨_, h⟩ => by
    obtain ⟨d, hd, ha⟩ := h.exists_broken
    exact ⟨d, List.mem_cons_of_mem _ hd, ha⟩

/-- The dependency that fails first is broken for one reason or for the other. -/
theorem FailsFirst.split : ∀ {deps : List String}, FailsFirst (fun d => A d ∨ C d) B deps →
    FailsFirst A B deps ∨ ∃ d ∈ deps, C d
  | _ :: _, .inl (.inl h) => .inl (.inl h)
  | d :: _, .inl (.inr h) => .inr ⟨d, List.mem_cons_self, h⟩
  | _ :: _, .inr ⟨hm, h⟩ => by
    rcases h.split with h | ⟨d, hd, hc⟩
    · exact .inl (.inr ⟨hm, h⟩)
    · exact .inr ⟨d, List.mem_cons_of_mem _ hd, hc⟩

end FailsFirst

/-- What the second pass ends: a PENDING job of which the first unmet dependency has failed, before the rebuild or in the
first pass, and all that wait on it, on one of those, and so on, among the jobs that the first pass has not ended. -/
inductive Dropped (T : Table) (felled : String → Prop) : String → Prop
  | looked {y : String} {j : Job} (hj : T y = some j) (hs : j.state = .pending) (hy : ¬ felled y)
    (hd : FailsFirst (fun d => felled d ∨ BrokenIn T d) (MetIn T) j.dependsOn) : Dropped T felled y
  | waited {d y : String} {j : Job} (hd : Dropped T felled d) (hj : T y = some j) (ht : terminal j.state = false)
    (hdep : d ∈ j.dependsOn) (hy : ¬ felled y) : Dropped T felled y

theorem Dropped.alive {T : Table} {felled : String → Prop} (h : Dropped T felled y) :
    (∃ j, T y = some j ∧ terminal j.state = false) ∧ ¬ felled y := by
  cases h with
  | looked hj hs hy => exact ⟨⟨_, hj, by rw [hs]; rfl⟩, hy⟩
  | waited _ hj ht _ hy => exact ⟨⟨_, hj, ht⟩, hy⟩

/-- The second pass, begun on board `b₁` after a first pass begun on `b₀`, has looked at the jobs of `seen`. -/
structure Dropping (b₀ b₁ : Board) (felled : String → Prop) (seen : List Job) (b : Board) : Prop where
  moves : Moves Label.Promotion b₁ b
  only : ∀ x j, b.jobs x = some j → Broken j.state → b₁.jobs x = some j ∨ Dropped b₀.jobs felled x
  kept : ∀ d y, y ∈ b₁.waits d → ¬ MetIn b₀.jobs d → y ∈ b.waits d ∨ Ended b y
  spread : ∀ d j, b.jobs d = some j → Broken j.state → b₁.jobs d ≠ some j → ∀ y ∈ b₁.waits d, Ended b y
  looked : ∀ j ∈ seen, FailsFirst (fun d => felled d ∨ BrokenIn b₀.jobs d) (MetIn b₀.jobs) j.dependsOn → Ended b j.id

section Dropping

variable {felled : String → Prop} {seen : List Job}

theorem Dropping.start : Dropping b₀ b₁ felled [] b₁ where
  moves := .refl _
  only _ _ hj _ := .inl hj
  kept _ _ hy _ := .inl hy
  spread _ _ hj _ hn := absurd hj hn
  looked _ hj := absurd hj List.not_mem_nil

theorem Dropping.promoted (h : Dropping b₀ b₁ felled seen b) (hmoves : Moves Label.Recovery b₀ b₁)
    (hlists : ∀ d, x ∈ b₁.waits d → ∀ j, b.jobs x = some j → d ∈ j.dependsOn) (hm : Move (.promote x) b b') :
    Dropping b₀ b₁ felled seen b' where
  moves := h.moves.tail hm trivial
  only y jy hjy hb := h.only y jy (hm.spares (l := .promote x) trivial y jy hjy hb) hb
  kept d y hy hunmet := by
    rcases h.kept d y hy hunmet with hw | hend
    · cases hm with
      | @promote _ _ j j' hj _ hmet _ _ hsch =>
        have hne : y ≠ j.id := by
          rintro rfl
          have hall := hmoves.trans (h.moves.mono fun _ hl => hl.recovery)
          exact hunmet (MetIn.of_moves hall (hmet d (hlists d hy j hj)))
        refine .inl ⟨?_, hne⟩
        rw [hsch.waits]
        exact hw
    · exact .inr (hm.ended nofun hend)
  spread d j hj hb hn y hy := hm.ended nofun (h.spread d j (hm.spares (l := .promote x) trivial d j hj hb) hb hn y hy)
  looked j hj hf := hm.ended nofun (h.looked j hj hf)

theorem Dropping.expelled (h : Dropping b₀ b₁ felled seen b)
    (hdropped : ∀ y ∈ Below b x, Dropped b₀.jobs felled y) (hc : Cascades x b b') : Dropping b₀ b₁ felled seen b' := by
  have hcm : Moves Label.Promotion b b' := hc.moves.mono fun _ hl => hl.promotion
  refine ⟨h.moves.trans hcm, fun y jy hjy hb => ?_, fun d y hy hunmet => ?_, fun d jd hjd hb hn y hy => ?_,
    fun j hj hf => hcm.ended id (h.looked j hj hf)⟩
  · by_cases hy : y ∈ Below b x
    · exact .inr (hdropped y hy)
    · rw [hc.other hy] at hjy
      exact h.only y jy hjy hb
  · rcases h.kept d y hy hunmet with hw | hend
    · by_cases hbelow : y ∈ Below b x
      · exact .inr (hc.ended y hbelow)
      · exact .inl ((hc.waits d).2 ⟨hw, hbelow⟩)
    · exact .inr (hcm.ended id hend)
  · by_cases hd : d ∈ Below b x
    · -- who waits on a job of the cascade is in the cascade, unless it was ended before
      obtain ⟨⟨j₀, hj₀, ht⟩, -⟩ := (hdropped d hd).alive
      rcases h.kept d y hy (not_metIn_of_alive hj₀ ht) with hw | hend
      · exact hc.ended y (ReflTransGen.tail hd hw)
      · exact hcm.ended id hend
    · rw [hc.other hd] at hjd
      exact hcm.ended id (h.spread d jd hjd hb hn y hy)

end Dropping

section Passes

variable {seen : List Job} (hf : Felling ps b₀ js.reverse b₁) (hjs : ∀ j ∈ js, b₀.jobs j.id = some j)
include hf hjs

/-- Who is in the index after the first pass is stored and lists what it waits on. -/
theorem Felling.lists (hy : y ∈ b₁.waits d) :
    (∃ j, b₀.jobs y = some j ∧ terminal j.state = false ∧ d ∈ j.dependsOn) ∧ ¬ Felled ps js.reverse y := by
  obtain ⟨ha, hy⟩ := (hf.waits d y).1 hy
  obtain ⟨j, hj, rfl, ht, hd⟩ := awaits_reverse.1 ha
  exact ⟨⟨j, hjs j hj, ht, hd⟩, hy⟩

omit hf in
theorem alive_of_felled (hx : Felled ps js.reverse x) : ∃ j, b₀.jobs x = some j ∧ terminal j.state = false := by
  obtain ⟨j, hj, rfl, ht⟩ := hx.listed
  exact ⟨j, hjs j (List.mem_reverse.1 hj), ht⟩

/-- A PENDING job whose first unmet dependency has failed, and what waits on it. -/
theorem dropped_of_below (h : Dropping b₀ b₁ (Felled ps js.reverse) seen b) (hj : b.jobs x = some j) (hs : j.state = .pending)
    (hd : Doomed b.jobs j.dependsOn) (hy : y ∈ Below b x) : Dropped b₀.jobs (Felled ps js.reverse) y := by
  have hall : Moves Label.Recovery b₀ b := hf.moves.trans (h.moves.mono fun _ hl => hl.recovery)
  have hwaits : ∀ {d y}, y ∈ b.waits d → y ∈ b₁.waits d := by
    intro d y hy
    refine h.moves.preserves (I := fun b₂ => y ∈ b₂.waits d → y ∈ b₁.waits d) ?_ id hy
    intro l b₂ b₃ hl hm hi hy
    exact hi (hm.of_waits (by rintro rfl; exact hl) (by rintro rfl; exact hl) hy)
  induction hy with
  | refl =>
    have hstored : b₀.jobs x = some j := hall.of_pending (fun _ => id) hj hs
    have hx : ¬ Felled ps js.reverse x := fun hfelled => by
      have := h.moves.ended id (hf.ended x hfelled) j hj
      rw [hs] at this
      cases this
    have hbroken : ∀ d, BrokenIn b.jobs d →
        (Felled ps js.reverse d ∨ BrokenIn b₀.jobs d) ∨ Dropped b₀.jobs (Felled ps js.reverse) d := by
      rintro d ⟨jd, hjd, hb⟩
      rcases h.only d jd hjd hb with hold | hdrop
      · exact .inl ((hf.only d jd hold hb).symm.imp_right fun hjd => ⟨jd, hjd, hb⟩)
      · exact .inr hdrop
    rcases ((doomed_iff.1 hd).mono hbroken fun d => MetIn.of_moves hall).split with hfirst | ⟨d, hdep, hdrop⟩
    · exact .looked hstored hs hx hfirst
    · exact .waited hdrop hstored (by rw [hs]; rfl) hdep hx
  | tail _ hy ih =>
    obtain ⟨⟨jy, hjy, ht, hdep⟩, hnot⟩ := hf.lists hjs (hwaits hy)
    exact .waited ih hjy ht hdep hnot

theorem dropping_tryPromote (he : Sound env) (hnamed : b₀.jobs "" = none) (hj : j ∈ js) (hs : j.state = .pending)
    (h : Dropping b₀ b₁ (Felled ps js.reverse) seen b) :
    DoesOn env (tryPromote ps j.id) b fun _ b' => Dropping b₀ b₁ (Felled ps js.reverse) (seen ++ [j]) b' := by
  have hall : Moves Label.Recovery b₀ b := hf.moves.trans (h.moves.mono fun _ hl => hl.recovery)
  refine (promotes_tryPromote he ps j.id).mono ?_
  rintro _ b' ⟨hpromotes, hleft⟩
  have hstep : Dropping b₀ b₁ (Felled ps js.reverse) seen b' := by
    cases hpromotes with
    | left => exact h
    | moved hm =>
      refine h.promoted hf.moves (fun d hd j' hj' => ?_) hm
      obtain ⟨⟨j₀, hj₀, -, hdep⟩, -⟩ := hf.lists hjs hd
      obtain ⟨j₁, hj₁, hplan⟩ := hall.stays id hj₀
      cases hj'.symm.trans hj₁
      rw [dependsOn_of_plan hplan]
      exact hdep
    | expelled hj hs hd hc => exact h.expelled (fun y hy => dropped_of_below hf hjs h hj hs hd hy) hc
  refine { hstep with looked := fun j' hj' hfirst => ?_ }
  rcases List.mem_append.1 hj' with hj' | hj'
  · exact hstep.looked j' hj' hfirst
  obtain rfl : j' = j := List.mem_singleton.1 hj'
  -- the job cannot be left PENDING, as its first unmet dependency has failed by now
  obtain ⟨d, hd, hbroken⟩ := hfirst.exists_broken
  have hunmet : ¬ MetIn b₀.jobs d := by
    rcases hbroken with hfelled | ⟨jd, hjd, hb⟩
    · obtain ⟨jd, hjd, ht⟩ := alive_of_felled hjs hfelled
      exact not_metIn_of_alive hjd ht
    · rintro ⟨jd', hjd', hsd⟩
      cases hjd.symm.trans hjd'
      rw [hsd] at hb
      rcases hb with hb | hb <;> cases hb
  have hall' : Moves Label.Recovery b₀ b' := hf.moves.trans (hstep.moves.mono fun _ hl => hl.recovery)
  rcases waiting_or_ended hall' (hjs j' hj) hs hd hunmet with hst | hend
  · obtain ⟨rfl, hnot⟩ := hleft j' hst hs
    have hempty : b'.jobs "" = none := by
      rw [Option.eq_none_iff_forall_ne_some]
      intro j₁ hj₁
      obtain ⟨d, hd⟩ : ∃ j₀, b₀.jobs "" = some j₀ := by
        refine hall.preserves (I := fun b₂ => ∀ j, b₂.jobs "" = some j → ∃ j₀, b₀.jobs "" = some j₀) ?_
          (fun j hj => ⟨j, hj⟩) j₁ hj₁
        intro l b₂ b₃ hl hm hi j hj
        obtain ⟨j₂, hj₂, -⟩ := hm.of_stored (by rintro rfl; exact hl) hj
        exact hi j₂ hj₂
      rw [hnamed] at hd
      cases hd
    refine absurd (doomed_iff.2 (hfirst.mono ?_ fun d => MetIn.moves hall id)) (hnot hempty)
    rintro d (hfelled | hb)
    · obtain ⟨jd, hjd, ht⟩ := alive_of_felled hjs hfelled
      exact brokenIn_of_ended hall hjd ht (h.moves.ended id (hf.ended d hfelled))
    · exact hb.moves hall id
  · exact hend

theorem dropping_secondPass (he : Sound env) (hnamed : b₀.jobs "" = none) :
    DoesOn env ((js.filter fun j => j.state = .pending).forM fun j => tryPromote ps j.id) b₁ fun _ b' =>
      Dropping b₀ b₁ (Felled ps js.reverse) (js.filter fun j => j.state = .pending) b' := by
  refine Does.forM (fun d b' => Dropping b₀ b₁ (Felled ps js.reverse) d b') ?_ .start
  intro d j r b hsplit h
  have hmem : j ∈ js.filter fun j => j.state = .pending := by
    rw [hsplit]
    simp
  obtain ⟨hj, hs⟩ := List.mem_filter.1 hmem
  exact dropping_tryPromote hf hjs he hnamed hj (by simpa using hs) h

omit hjs in
/-- Everything that is to be ended is. -/
theorem Dropping.ended (hall : ∀ x j, b₀.jobs x = some j → j ∈ js ∧ j.id = x)
    (h : Dropping b₀ b₁ (Felled ps js.reverse) (js.filter fun j => j.state = .pending) b)
    (hy : Dropped b₀.jobs (Felled ps js.reverse) y) : Ended b y := by
  induction hy with
  | looked hj hs _ hfirst =>
    obtain ⟨hmem, rfl⟩ := hall _ _ hj
    exact h.looked _ (List.mem_filter.2 ⟨hmem, by simpa using hs⟩) hfirst
  | @waited d y j hd hj ht hdep hy ih =>
    obtain ⟨⟨jd, hjd, htd⟩, hnot⟩ := hd.alive
    obtain ⟨jd', hjd', hb⟩ := brokenIn_of_ended (hf.moves.trans (h.moves.mono fun _ hl => hl.recovery)) hjd htd ih
    refine h.spread d jd' hjd' hb (fun hold => ?_) y ?_
    · rcases hf.only d jd' hold hb with hfirst | hfelled
      · cases hjd.symm.trans hfirst
        rw [hb.terminal] at htd
        cases htd
      · exact hnot hfelled
    · obtain ⟨hmem, hid⟩ := hall _ _ hj
      exact (hf.waits d y).2 ⟨awaits_reverse.2 ⟨j, hmem, hid, ht, hdep⟩, hy⟩

end Passes

/-! ## The whole rebuild -/

/-- What a rebuild makes of the jobs stored: it ends those felled and those dropped, and no others. -/
structure Rebuilds (felled : String → Prop) (b₀ b : Board) : Prop where
  moves : Moves Label.Recovery b₀ b
  alive : ∀ x, felled x → ∃ j, b₀.jobs x = some j ∧ terminal j.state = false
  only : ∀ x j, b.jobs x = some j → Broken j.state → b₀.jobs x = some j ∨ felled x ∨ Dropped b₀.jobs felled x
  ended : ∀ x, felled x ∨ Dropped b₀.jobs felled x → Ended b x

theorem rebuilds_rebuildSchedulingState (he : Sound env) (ps : Cron) (hnamed : b.jobs "" = none) {B : Bucket Job.id}
    (hB : B.get = b.jobs) :
    DoesOn env (rebuildSchedulingState ps) b fun _ b' => Rebuilds (Felled ps B.list.reverse) b.cleared b' := by
  refine does_clearSchedulingState.bind ?_
  rintro _ _ rfl
  refine ((does_listJobs he).and (does_listJobs_list he)).bind ?_
  rintro _ b₁ ⟨⟨hb₁, js, rfl, hjs, hall, hnodup⟩, hlist⟩
  subst hb₁
  cases hlist B hB
  refine (does_silent .now trivial).bind ?_
  rintro now b₁ hb₁
  subst hb₁
  refine (felling_firstPass he ps now hnodup (rebuilding_cleared (b := b) hjs hall) fun _ => rfl).bind ?_
  intro _ b₁ hf
  refine (dropping_secondPass hf hjs he hnamed).mono ?_
  intro _ b' h
  refine ⟨hf.moves.trans (h.moves.mono fun _ hl => hl.recovery), fun x hx => alive_of_felled hjs hx, fun x j hj hb => ?_,
    fun x hx => ?_⟩
  · rcases h.only x j hj hb with hold | hdrop
    · exact (hf.only x j hold hb).imp_right .inl
    · exact .inr (.inr hdrop)
  · rcases hx with hx | hx
    · exact h.moves.ended id (hf.ended x hx)
    · exact h.ended hf hall hx

/-- A rebuild spreads failure exactly if every PENDING job that lists a job ended in the first pass is ended itself. -/
theorem Rebuilds.spreads_iff {felled : String → Prop} (h : Rebuilds felled b₀ b) : Spreads b₀ b ↔
    ∀ y j, b₀.jobs y = some j → j.state = .pending → ∀ x ∈ j.dependsOn, felled x → felled y ∨ Dropped b₀.jobs felled y := by
  constructor
  · intro hsp y j hj hs x hx hfelled
    by_contra hnot
    obtain ⟨jx, hjx, ht⟩ := h.alive x hfelled
    obtain ⟨jx', hjx', hb⟩ := brokenIn_of_ended h.moves hjx ht (h.ended x (.inl hfelled))
    have hnew : b₀.jobs x ≠ some jx' := fun hold => by
      cases hjx.symm.trans hold
      rw [hb.terminal] at ht
      cases ht
    rcases waiting_or_ended h.moves hj hs hx (not_metIn_of_alive hjx ht) with hst | hend
    · exact hsp x jx' hjx' hb hnew y j hst hs hx
    · obtain ⟨jy, hjy, hby⟩ := brokenIn_of_ended h.moves hj (by rw [hs]; rfl) hend
      rcases h.only y jy hjy hby with hold | hended
      · cases hj.symm.trans hold
        rw [hs] at hby
        rcases hby with hby | hby <;> cases hby
      · exact hnot hended
  · intro hcond x jx hjx hb hnew y jy hjy hs hx
    have hold : b₀.jobs y = some jy := h.moves.of_pending (fun _ => id) hjy hs
    have hnot : ¬ (felled y ∨ Dropped b₀.jobs felled y) := fun hended => by
      have := h.ended y hended jy hjy
      rw [hs] at this
      cases this
    rcases (h.only x jx hjx hb).resolve_left hnew with hfelled | hdrop
    · exact hnot (hcond y jy hold hs x hx hfelled)
    · exact hnot (.inr (.waited hdrop hold (by rw [hs]; rfl) hx fun hf => hnot (.inl hf)))

end Distsched.Lifecycle
