/-
The zone in which a cron expression is evaluated. It is that of the time handed to `Next`: UTC for a submission, the
server's for a promotion and after an attempt. The time zone of the schedule is never read. So all ways to arm an
occurrence agree with the zone of the schedule, at every instant, exactly if the expression matches the same times in UTC,
in the server's zone and in that of the schedule.
-/
import Distsched.Timing.Occurrences

namespace Distsched.Timing

open Scheduler Prog

variable {env : Env} {ps : Cron} {job j : Job} {now : Time}

/-! ## The records that are stored -/

/-- A QUEUED record of a job that recurs is stored for the time that the library gives for an instant that was read. -/
def zoning (env : Env) (ps : Cron) : Protocol Op Op.Resp Unit where
  permits op _ := match op with
    | .putJob j => j.state = .queued → Recurs ps j → ∃ now, ArmedAt env ps j now
    | _ => True
  answers op r _ := match op, r with
    | .getJob x, .ok j => j.id = x
    | .now, t => Stamp env t
    | _, _ => True
  next _ _ _ := ()

theorem honours_zoning (env : Env) (ps : Cron) :
    Honours (handle env) (zoning env ps) (fun _ _ => True) fun _ _ => True where
  refl _ := trivial
  trans _ _ _ _ _ := trivial
  step op _ s _ _ := by
    refine ⟨?_, trivial, trivial⟩
    cases op with
    | getJob x =>
      simp only [handle]
      split
      · trivial
      · split
        · trivial
        · rename_i j hj
          exact Bucket.get_id hj
    | now => exact ⟨⟨s.tick, rfl⟩, .inr rfl⟩
    | _ => trivial

/-- The program stores only such records. -/
def Zones (env : Env) (ps : Cron) {α : Type} (p : M α) : Prop := Meets (zoning env ps) p () fun _ _ => True

theorem zones_putJob (h : j.state = .queued → Recurs ps j → ∃ now, ArmedAt env ps j now) : Zones env ps (putJob j) := by
  have hlog : ∀ m, Zones env ps (appendRepl m) := by
    refine fun m => ⟨trivial, fun leads _ => ?_⟩
    cases leads with
    | true => exact ⟨trivial, fun _ _ => trivial⟩
    | false => trivial
  refine ⟨h, fun r _ => ?_⟩
  cases r with
  | error e => trivial
  | ok u => exact (hlog _).bind fun _ _ _ => trivial

theorem zones_armEnqueue (x : String) (delay : Int) : Zones env ps (armEnqueue x delay) := by
  have harm : Meets (zoning env ps) (armEnqueue x delay) () fun _ g => g = () :=
    Scheduler.meets_armEnqueue x delay (fun _ => ⟨trivial, fun _ _ => rfl⟩) (fun _ => ⟨trivial, fun _ _ => rfl⟩)
      (fun _ _ => ⟨trivial, fun _ _ => rfl⟩) (fun _ _ _ _ => ⟨trivial, fun _ _ => rfl⟩)
      fun _ _ _ => ⟨trivial, fun _ _ => rfl⟩
  exact harm.mono fun _ _ _ => trivial

theorem zones_makeReady (job : Job) (hn : Stamp env now) : Zones env ps (makeReady ps job now) := by
  refine (meets_fireTime_record (P := zoning env ps) (fun _ => trivial) job ()).bind ?_
  rintro ⟨job', delay⟩ _ ⟨-, hjob, hrec⟩
  refine (zones_putJob fun _ hr => ⟨now, hn, rfl, ?_⟩).bind fun r _ _ => ?_
  · dsimp only at hjob hrec hr ⊢
    rw [hjob] at hr ⊢
    obtain ⟨next, -, hparse, hsched, -⟩ := hrec hr
    exact ⟨next, hparse, hsched⟩
  · cases r with
    | error e => trivial
    | ok u => exact zones_armEnqueue _ _

/-- Placements and promotions. -/
theorem placing_zones : Placing ps (fun _ p => Zones env ps p) (fun _ => True) (Stamp env) where
  pure _ := trivial
  bind hp hf := Meets.bind hp fun a _ _ => hf a
  act op hop := ⟨by cases op <;> first | exact hop.elim | trivial, fun _ _ => trivial⟩
  getJob x f he hj := by
    refine ⟨trivial, fun r hr => ?_⟩
    cases r with
    | error e => exact he e
    | ok j => exact hj j hr trivial
  now hf := ⟨trivial, fun t ht => hf t ht⟩
  utc t ht := ⟨ht.1, .inl rfl⟩
  canceled j hs := zones_putJob fun hq => by cases hs.symm.trans hq
  pending j hs _ := zones_putJob fun hq => by cases hs.symm.trans hq
  makeReady job now _ hn := zones_makeReady job hn

theorem zones_maybeRescheduleCron (job : Job) (hn : Stamp env now) : Zones env ps (maybeRescheduleCron ps job now) := by
  unfold maybeRescheduleCron
  split
  · trivial
  · cases hparse : ps job.cronExpr with
    | error e =>
      simp only [nextCron, hparse]
      trivial
    | ok next =>
      simp only [nextCron, hparse]
      generalize hre : ({ job with
        state := .queued, attempt := 0, assignedWorkerId := "", lastError := "", finishedAt := none,
        scheduledAt := some (next now).ns, updatedAt := some now.ns } : Job) = rearmed
      have harmed : ArmedAt env ps rearmed now := by
        rw [← hre]
        exact ⟨hn, rfl, next, hparse, rfl⟩
      refine (zones_putJob fun _ _ => ⟨now, harmed⟩).bind fun r _ _ => ?_
      cases r with
      | error e => trivial
      | ok u => exact ⟨trivial, fun t _ => (zones_armEnqueue _ _).bind fun _ _ _ => trivial⟩

/-! ## The three ways to arm an occurrence -/

/-- The record is stored by `SubmitJob`'s placement, by `tryPromote`, or by `maybeRescheduleCron` for an instant read
from the clock. -/
inductive ArmedBy (env : Env) (ps : Cron) (j : Job) : Prop
  | placed {job : Job} {s st : Server} (h : (.putJob j, st) ∈ trace (handle env) (acceptJob ps job) s)
  | promoted {x : String} {s st : Server} (h : (.putJob j, st) ∈ trace (handle env) (tryPromote ps x) s)
  | rearmed {job : Job} {n : Nat} {s st : Server}
    (h : (.putJob j, st) ∈ trace (handle env) (maybeRescheduleCron ps job ⟨env.clock n, env.zone⟩) s)

theorem ArmedBy.armedAt (h : ArmedBy env ps j) (hs : j.state = .queued) (hr : Recurs ps j) : ∃ now, ArmedAt env ps j now := by
  have hstored : ∀ {α : Type} {p : M α} {s st : Server}, Zones env ps p → (.putJob j, st) ∈ trace (handle env) p s →
      ∃ now, ArmedAt env ps j now := by
    intro α p s st hp he
    obtain ⟨_, -, hput⟩ := hp.trace (honours_zoning env ps) trivial _ he
    exact hput hs hr
  cases h with
  | placed h => exact hstored (placing_zones.acceptJob _) h
  | promoted h => exact hstored (placing_zones.tryPromote _) h
  | rearmed h => exact hstored (zones_maybeRescheduleCron _ ⟨⟨_, rfl⟩, .inr rfl⟩) h

/-- The zone of a schedule, UTC if it names none. -/
def zoneOf (timezone : String) : String := if timezone = "" then "UTC" else timezone

/-- On a server in the zone, at whatever instant and whichever way the expression is armed, `scheduled_at` is the next
match in the zone of the schedule. -/
def Agree (ps : Cron) (zone expr timezone : String) : Prop :=
  ∀ env j next, env.zone = zone → (∀ n, zeroTime ≤ env.clock n) → ArmedBy env ps j → j.state = .queued →
    j.schedule = some { kind := some (.cronExpr expr), timezone := timezone } → ps expr = .ok next →
    ∃ armed, j.updatedAt = some armed ∧ j.scheduledAt = some (next ⟨armed, zoneOf timezone⟩).ns

/-! ## Matches -/

section

variable {fires : String → String → Int → Int → Prop} {fiveYears : Int → Int}

/-- The expression matches the same times in both zones. -/
def SameMatches (fires : String → String → Int → Int → Prop) (expr zone zone' : String) : Prop :=
  ∀ n t, zeroTime ≤ n → n < t → (fires expr zone n t ↔ fires expr zone' n t)

variable (hlib : NextSpec fires fiveYears ps) {expr zone zone' : String} {next : Time → Time} (hparse : ps expr = .ok next)

include hlib hparse

theorem next_eq_of_sameMatches (h : SameMatches fires expr zone zone') {n : Int} (hn : zeroTime ≤ n) :
    (next ⟨n, zone⟩).ns = (next ⟨n, zone'⟩).ns := by
  have hsame : ∀ t, n < t → (fires expr zone n t ↔ fires expr zone' n t) := fun t ht => h n t hn ht
  by_cases hmatch : ∃ t, n < t ∧ t ≤ fiveYears n ∧ fires expr zone n t
  · have hleast := hlib.earliest ⟨n, zone⟩ hparse hmatch
    obtain ⟨t, ht, hle, hf⟩ := hmatch
    have hleast' := hlib.earliest ⟨n, zone'⟩ hparse ⟨t, ht, hle, (hsame t ht).1 hf⟩
    have hset : { t | n < t ∧ fires expr zone n t } = { t | n < t ∧ fires expr zone' n t } :=
      Set.ext fun t => and_congr_right fun ht => hsame t ht
    exact hleast.unique (hset ▸ hleast')
  · have hmatch' : ¬ ∃ t, n < t ∧ t ≤ fiveYears n ∧ fires expr zone' n t := by
      rintro ⟨t, ht, hle, hf⟩
      exact hmatch ⟨t, ht, hle, (hsame t ht).2 hf⟩
    rw [hlib.zero ⟨n, zone⟩ hparse hmatch, hlib.zero ⟨n, zone'⟩ hparse hmatch']

/-- A match is the next one for the instant just before it. -/
theorem fires_of_next_eq (hfive : ∀ n, n < fiveYears n) {t : Int} (ht : zeroTime < t)
    (heq : (next ⟨t - 1, zone⟩).ns = (next ⟨t - 1, zone'⟩).ns) (hf : fires expr zone (t - 1) t) :
    fires expr zone' (t - 1) t := by
  have hafter : t - 1 < t := by omega
  have hyears : t ≤ fiveYears (t - 1) := by
    have := hfive (t - 1)
    omega
  obtain ⟨⟨hlt, -⟩, hle⟩ := hlib.earliest ⟨t - 1, zone⟩ hparse ⟨t, hafter, hyears, hf⟩
  have hnext : (next ⟨t - 1, zone⟩).ns ≤ t := hle ⟨hafter, hf⟩
  replace hlt : t - 1 < (next ⟨t - 1, zone⟩).ns := hlt
  have ht' : (next ⟨t - 1, zone'⟩).ns = t := by omega
  by_cases hmatch : ∃ u, t - 1 < u ∧ u ≤ fiveYears (t - 1) ∧ fires expr zone' (t - 1) u
  · have hf' := (hlib.earliest ⟨t - 1, zone'⟩ hparse hmatch).1.2
    rw [ht'] at hf'
    exact hf'
  · rw [hlib.zero ⟨t - 1, zone'⟩ hparse hmatch] at ht'
    omega

theorem sameMatches_of_next_eq (hfive : ∀ n, n < fiveYears n)
    (hkind : (∀ z n n' t, fires expr z n t ↔ fires expr z n' t) ∨ ∀ z z' n t, fires expr z n t ↔ fires expr z' n t)
    (h : ∀ n, zeroTime ≤ n → (next ⟨n, zone⟩).ns = (next ⟨n, zone'⟩).ns) : SameMatches fires expr zone zone' := by
  intro n t hn ht
  rcases hkind with hfixed | hinterval
  · rw [hfixed zone n (t - 1), hfixed zone' n (t - 1)]
    have heq := h (t - 1) (by omega)
    exact ⟨fires_of_next_eq hlib hparse hfive (by omega) heq, fires_of_next_eq hlib hparse hfive (by omega) heq.symm⟩
  · exact hinterval zone zone' n t

end

/-- A server in the zone, whose clock stands at `n`. -/
def standing (n : Int) (zone : String) : Env := { Env.steady with clock := fun _ => n, zone := zone }

/-- A command to be run by the expression in the zone. -/
def zonedJob (expr timezone : String) : Job where
  id := "a"
  spec := some { command := "true" }
  schedule := some { kind := some (.cronExpr expr), timezone := timezone }

section

variable {expr timezone zone : String} {next : Time → Time} (hne : expr ≠ "") (hparse : ps expr = .ok next) (n : Int)

include hne hparse

theorem armedBy_placed : ArmedBy (standing n zone) ps { zonedJob expr timezone with
    state := .queued, createdAt := some n, updatedAt := some n, scheduledAt := some (next ⟨n, "UTC"⟩).ns } := by
  refine @ArmedBy.placed _ _ _ (zonedJob expr timezone) (.off .empty 0 0) { Server.off .empty 0 0 with tick := 2 } ?_
  simp only [acceptJob, formsCycle, zonedJob, placeNewJob, depsSatisfied, makeReady, fireTime, nextCron, hparse,
    Schedule.getCronExpr]
  simp [hne]
  exact .tail _ (.tail _ (.head _))

theorem armedBy_rearmed : ArmedBy (standing n zone) ps { zonedJob expr timezone with
    state := .queued, updatedAt := some n, scheduledAt := some (next ⟨n, zone⟩).ns } := by
  refine @ArmedBy.rearmed _ _ _ (zonedJob expr timezone) 0 (.off .empty 0 0) (.off .empty 0 0) ?_
  simp [maybeRescheduleCron, zonedJob, Job.cronExpr, nextCron, hparse, Schedule.getCronExpr, hne]
  exact .head _

end

/-- The ways to arm an occurrence agree on the zone of the schedule exactly if the expression matches the same times there,
in UTC and in the zone of the server. -/
theorem arming_agrees_on_zone {fires : String → String → Int → Int → Prop} {fiveYears : Int → Int}
    (hlib : NextSpec fires fiveYears ps) (hfive : ∀ n, n < fiveYears n) {expr : String} {next : Time → Time}
    (hne : expr ≠ "") (hparse : ps expr = .ok next)
    (hkind : (∀ z n n' t, fires expr z n t ↔ fires expr z n' t) ∨ ∀ z z' n t, fires expr z n t ↔ fires expr z' n t)
    (zone timezone : String) :
    Agree ps zone expr timezone ↔
      SameMatches fires expr "UTC" (zoneOf timezone) ∧ SameMatches fires expr zone (zoneOf timezone) := by
  constructor
  · intro h
    constructor
    · refine sameMatches_of_next_eq hlib hparse hfive hkind fun n hn => ?_
      obtain ⟨armed, hup, hsched⟩ :=
        h (standing n zone) _ next rfl (fun _ => hn) (armedBy_placed hne hparse n) rfl rfl hparse
      cases hup
      exact Option.some.inj hsched
    · refine sameMatches_of_next_eq hlib hparse hfive hkind fun n hn => ?_
      obtain ⟨armed, hup, hsched⟩ :=
        h (standing n zone) _ next rfl (fun _ => hn) (armedBy_rearmed hne hparse n) rfl rfl hparse
      cases hup
      exact Option.some.inj hsched
  · rintro ⟨hutc, hzone⟩ env j next' rfl hclock harms hs hsched hparse'
    obtain rfl : next = next' := by
      rw [hparse] at hparse'
      exact Except.ok.inj hparse'
    have hexpr : j.cronExpr = expr := by simp [Job.cronExpr, hsched, Schedule.getCronExpr]
    obtain ⟨now, ⟨⟨n, hnow⟩, hloc⟩, hup, next', hparse', hnext⟩ := harms.armedAt hs ⟨hexpr ▸ hne, next, hexpr ▸ hparse⟩
    obtain rfl : next = next' := by
      rw [hexpr, hparse] at hparse'
      exact Except.ok.inj hparse'
    have hpast : zeroTime ≤ now.ns := hnow ▸ hclock n
    refine ⟨now.ns, hup, hnext.trans (congrArg some ?_)⟩
    obtain ⟨ns, loc⟩ := now
    rcases hloc with rfl | rfl
    · exact next_eq_of_sameMatches hlib hparse hutc hpast
    · exact next_eq_of_sameMatches hlib hparse hzone hpast

/-- Nine o'clock, in New York in winter or in UTC. -/
def nineIn (zone : String) : Int := if zone = "America/New_York" then 14 * hour else 9 * hour

def dailyAtNine : Cron := periodic (24 * hour) nineIn

theorem nextSpec_dailyAtNine : NextSpec (fun _ zone _ t => 24 * hour ∣ t - nineIn zone) fiveYearsOn dailyAtNine :=
  nextSpec_periodic (by decide) (by decide) nineIn

/-- Nine o'clock of a schedule without a zone is met by a server in UTC and not by one in New York. -/
theorem arming_agrees_on_zone_utc : Agree dailyAtNine "UTC" "0 9 * * *" "" ∧
    ¬ Agree dailyAtNine "America/New_York" "0 9 * * *" "" ∧
    ¬ Agree dailyAtNine "America/New_York" "0 9 * * *" "America/New_York" := by
  have hfive : ∀ n, n < fiveYearsOn n := fun n => Int.lt_add_of_pos_right n (by decide)
  have hne : "0 9 * * *" ≠ "" := by decide
  have hiff := arming_agrees_on_zone nextSpec_dailyAtNine hfive hne rfl (.inl fun _ _ _ _ => .rfl)
  have hdiffer : ¬ (24 * hour ∣ 9 * hour - nineIn "UTC" ↔ 24 * hour ∣ 9 * hour - nineIn "America/New_York") := by decide
  refine ⟨(hiff "UTC" "").2 ⟨fun _ _ _ _ => .rfl, fun _ _ _ _ => .rfl⟩, fun h => ?_, fun h => ?_⟩
  · exact hdiffer (((hiff _ _).1 h).2 0 (9 * hour) (by decide) (by decide)).symm
  · exact hdiffer (((hiff _ _).1 h).1 0 (9 * hour) (by decide) (by decide))

/-- A node in New York. -/
def newYork : Env := { Env.steady with zone := "America/New_York" }

/-- Three jobs for nine o'clock: one is submitted ready, one is submitted with the zone of the node as that of its schedule,
and one is promoted when the job it depends on succeeds. -/
def nineOClock : List Call :=
  [.registerWorker (some { id := "w" }), submitting "d" [], .submitJob (some (cronJob "submitted" "0 9 * * *")),
    .submitJob (some { cronJob "zoned" "0 9 * * *" with
      schedule := some { kind := some (.cronExpr "0 9 * * *"), timezone := "America/New_York" } }),
    .submitJob (some { cronJob "promoted" "0 9 * * *" with dependsOn := ["d"] }), .pollTask "w" 1,
    .reportTask "task-" .succeeded ""]

def atNine : Server := nineOClock.foldl (after newYork dailyAtNine) (started newYork dailyAtNine .empty leading)

/-- Where the server's zone is not UTC, the same expression armed at the same instant gives two times: a submission goes by
UTC, also if the schedule names another zone, and a promotion by the server's zone, though the schedule names none. -/
theorem zones_disagree :
    NextSpec (fun _ zone _ t => 24 * hour ∣ t - nineIn zone) fiveYearsOn dailyAtNine ∧
    Runs newYork dailyAtNine (fun _ _ => True) (started newYork dailyAtNine .empty leading) atNine ∧
    ["submitted", "zoned", "promoted"].map (fun x => (atNine.store.jobs.get x).map
        fun j => (j.schedule.map fun sched => zoneOf sched.timezone, j.updatedAt, j.scheduledAt)) =
      [some (some "UTC", some 0, some (9 * hour)), some (some "America/New_York", some 0, some (9 * hour)),
        some (some "UTC", some 0, some (14 * hour))] ∧
    nineIn "UTC" = 9 * hour ∧ nineIn "America/New_York" = 14 * hour := by
  refine ⟨nextSpec_dailyAtNine, Runs.refl.calls ?_, ?_, ?_, ?_⟩ <;> decide +kernel

end Distsched.Timing
