/-
Exponential backoff for failed jobs (`internal/retry/retry.go`), with float64 values as exact
rationals up to the conversion to an int64 at the end.
-/
import Distsched.Store.Types
import Mathlib.Data.Rat.Floor

namespace Distsched.Retry

def defaultMaxAttempts : Int := 3
def defaultInitial : Int := 1000000000
def defaultMax : Int := 30 * 1000000000
def defaultMultiplier : ℚ := 2
def defaultJitter : ℚ := 1 / 5

/-- The attempts permitted in total, the first included. -/
def maxAttempts : Option RetryPolicy → Int
  | none => defaultMaxAttempts
  | some p => if p.maxAttempts ≤ 0 then defaultMaxAttempts else p.maxAttempts.toInt

theorem one_le_maxAttempts (p : Option RetryPolicy) : 1 ≤ maxAttempts p := by
  unfold maxAttempts
  split
  · decide
  · split
    · decide
    · rename_i h
      rw [Int32.le_iff_toInt_le, Int32.toInt_zero] at h
      omega

theorem maxAttempts_lt (p : Option RetryPolicy) : maxAttempts p < 2 ^ 31 := by
  unfold maxAttempts
  split
  · decide
  · split
    · decide
    · exact Int32.toInt_lt _

/-- A duration field of a policy if it is positive, else the default. -/
def positiveOr (d : Int) (field : Option Int) : Int := match field with
  | some v => if v > 0 then v else d
  | none => d

def initial (p : Option RetryPolicy) : Int := positiveOr defaultInitial (p.bind RetryPolicy.initialBackoff)

def maxBackoff (p : Option RetryPolicy) : Int := positiveOr defaultMax (p.bind RetryPolicy.maxBackoff)

def multiplier : Option RetryPolicy → ℚ
  | none => defaultMultiplier
  | some p => if p.backoffMultiplier > 0 then p.backoffMultiplier else defaultMultiplier

def jitter : Option RetryPolicy → ℚ
  | none => defaultJitter
  | some p => if p.jitter > 0 then p.jitter else defaultJitter

/-- The loop of `Backoff`: up to `n` multiplications, stopping at the first that reaches `maxB`. -/
def grow (mult maxB : ℚ) : Nat → ℚ → ℚ
  | 0, base => base
  | n + 1, base => if base * mult ≥ maxB then maxB else grow mult maxB n (base * mult)

/-- The delay before jitter after the given attempt failed. -/
def base (p : Option RetryPolicy) (attempt : Int) : ℚ :=
  grow (multiplier p) (maxBackoff p) ((max attempt 1) - 1).toNat (initial p)

/-- The delay with jitter, where `draw` is what `rand.Float64` returned. -/
def spread (p : Option RetryPolicy) (attempt : Int) (draw : ℚ) : ℚ :=
  let b := if jitter p > 0 then base p attempt * (1 + (draw * 2 - 1) * jitter p) else base p attempt
  if b < 0 then 0 else b

/-- What `Backoff` leaves to its surroundings: the number that `rand.Float64` draws, and the value that the
conversion to `time.Duration` has outside the range of int64, which the language leaves to the implementation. -/
structure Chance where
  draw : ℚ
  outside : Int64

/-- `time.Duration` of a float64 that is not negative. -/
def toDuration (outside : Int64) (b : ℚ) : Int := if b < 2 ^ 63 then ⌊b⌋ else outside.toInt

/-- The delay before the next attempt. -/
def backoff (p : Option RetryPolicy) (attempt : Int) (c : Chance) : Int :=
  toDuration c.outside (spread p attempt c.draw)

theorem backoff_le (p : Option RetryPolicy) (attempt : Int) (c : Chance) : backoff p attempt c ≤ maxDuration := by
  unfold backoff toDuration maxDuration
  split
  · rename_i h
    have hfloor : ⌊spread p attempt c.draw⌋ < 2 ^ 63 := by
      rw [Int.floor_lt]
      exact_mod_cast h
    omega
  · have := Int64.toInt_lt c.outside
    omega

end Distsched.Retry
