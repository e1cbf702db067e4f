/-
When the occurrences of a cron job fire. The first attempt of an occurrence enters the ready queue only once the time has
come that `Next` gave at the instant of arming. That is a match of the expression later than this instant, as long as the
expression has one within five years. If it has none, `Next` returns the zero time, which `armEnqueue` takes for one
that has come long ago.

A poll puts a job back whose record it cannot store. So a job that waits in the ready queue must not be replaced by one
for a later occurrence under the same ID.
-/
import Distsched.Timing.Arming
import Mathlib.Order.Bounds.Basic

namespace Distsched.Timing

open Scheduler Prog

variable {env : Env} {ps : Cron} {s s' : Server} {ev : Event}

/-! ## Operations of a run -/

/-- The zero `time.Time`, the first instant of the year 1. -/
def zeroTime : Int := -62135596800 * 1000000000

/-- What is assumed of the cron library. `fires expr zone n t` says that `t` is a time of the expression in the zone,
counted from `n` if the expression is an interval, and `fiveYears n` is the instant five years after `n`. -/
structure NextSpec (fires : String → String → Int → Int → Prop) (fiveYears : Int → Int) (ps : Cron) : Prop where
  earliest : ∀ {expr next} now, ps expr = .ok next →
    (∃ t, now.ns < t ∧ t ≤ fiveYears now.ns ∧ fires expr now.loc now.ns t) →
    IsLeast { t | now.ns < t ∧ fires expr now.loc now.ns t } (next now).ns
  zero : ∀ {expr next} now, ps expr = .ok next →
    (¬ ∃ t, now.ns < t ∧ t ≤ fiveYears now.ns ∧ fires expr now.loc now.ns t) → (next now).ns = zeroTime

/-- An hour in nanoseconds. -/
def hour : Int := 3600 * 1000000000

/-- Five years, leap days left out. -/
def fiveYearsOn (n : Int) : Int := n + 5 * 365 * 24 * hour

/-- The first instant after `n` that lies a multiple of `period` after `phase`. -/
def following (period phase n : Int) : Int := ((n - phase) / period + 1) * period + phase

theorem isLeast_following {period : Int} (hpos : 0 < period) (phase n : Int) :
    IsLeast { t | n < t ∧ period ∣ t - phase } (following period phase n) := by
  have hlt : n - phase < ((n - phase) / period + 1) * period := Int.lt_ediv_add_one_mul_self _ hpos
  constructor
  · refine ⟨?_, (n - phase) / period + 1, ?_⟩
    · show n < ((n - phase) / period + 1) * period + phase
      omega
    · unfold following
      rw [mul_comm period]
      omega
  · rintro t ⟨hnt, k, hk⟩
    have hk' : (n - phase) / period < k := Int.ediv_lt_of_lt_mul hpos (by rw [mul_comm, ← hk]; omega)
    have hle : ((n - phase) / period + 1) * period ≤ k * period := Int.mul_le_mul_of_nonneg_right hk' hpos.le
    rw [mul_comm k, ← hk] at hle
    unfold following
    omega

theorem following_le {period : Int} (hpos : 0 < period) (phase n : Int) : following period phase n ≤ n + period := by
  have hle : (n - phase) / period * period ≤ n - phase := Int.ediv_mul_le _ hpos.ne'
  unfold following
  rw [add_mul, one_mul]
  omega

/-- A parser for which every expression means the same distance, with the phase the zone has. -/
def periodic (period : Int) (phase : String → Int) : Cron :=
  fun _ => .ok fun t => { t with ns := following period (phase t.loc) t.ns }

theorem nextSpec_periodic {period : Int} (hpos : 0 < period) (hle : period ≤ 5 * 365 * 24 * hour) (phase : String → Int) :
    NextSpec (fun _ zone _ t => period ∣ t - phase zone) fiveYearsOn (periodic period phase) := by
  constructor
  · rintro expr _ now ⟨⟩ -
    exact isLeast_following hpos _ _
  · rintro expr _ now ⟨⟩ hnone
    obtain ⟨hlt, hdvd⟩ := (isLeast_following hpos (phase now.loc) now.ns).1
    refine absurd ⟨_, hlt, ?_, hdvd⟩ hnone
    have := following_le hpos (phase now.loc) now.ns
    unfold fiveYearsOn
    omega

/-- Every expression means the full hours. -/
def onTheHour : Cron := periodic hour fun _ => 0

/-- An hour passes with every operation, and one of them fails. -/
def slow : Env := { Env.paced hour with fails := fun n => if n = 52 then some "disk full" else none }

/-- A command to be run by the expression. -/
def cronJob (id expr : String) : Job where
  id := id
  spec := some { command := "true" }
  schedule := some { kind := some (.cronExpr expr) }

/-- The record whose first attempt an operation puts into the queue. -/
def fired (e : Op × Server) : Option Job := match e.1 with
  | .push x _ _ => (e.2.store.jobs.get x).filter fun j => j.state = .queued ∧ j.attempt = 0 ∧ j.cronExpr ≠ ""
  | _ => none

/-- Two hourly jobs are submitted. -/
def hourlyJobs : List Call :=
  [.registerWorker (some { id := "w" }), .submitJob (some (cronJob "a" "@hourly")),
    .submitJob (some (cronJob "b" "0 * * * *"))]

def waiting : Server := hourlyJobs.foldl (after slow onTheHour) (started slow onTheHour .empty leading)

end Distsched.Timing
