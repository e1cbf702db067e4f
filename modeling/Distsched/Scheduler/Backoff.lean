/-
The delays of `Backoff` against the formula they are documented by, min(max_backoff, initial · multiplier^(n−1)).

The cap is applied after a multiplication, and the loop leaves once it has been applied. So the first delay is never
capped, and one that was capped stays at the cap though a multiplier below one would bring it down. Both need an initial
backoff above the maximum; without that the loop computes the formula.
-/
import Distsched.Scheduler.Retry
import Mathlib.Algebra.Order.Field.Rat
import Mathlib.Tactic.Linarith
import Mathlib.Tactic.Positivity

namespace Distsched.Retry

/-! ## The effective fields -/

theorem positiveOr_pos {d : Int} (hd : 0 < d) (field : Option Int) : 0 < positiveOr d field := by
  unfold positiveOr
  split
  · split
    · assumption
    · exact hd
  · exact hd

theorem initial_pos (p : Option RetryPolicy) : 0 < initial p := positiveOr_pos (by decide) _

theorem maxBackoff_pos (p : Option RetryPolicy) : 0 < maxBackoff p := positiveOr_pos (by decide) _

theorem multiplier_pos (p : Option RetryPolicy) : 0 < multiplier p := by
  unfold multiplier
  split
  · norm_num [defaultMultiplier]
  · split
    · assumption
    · norm_num [defaultMultiplier]

theorem jitter_pos (p : Option RetryPolicy) : 0 < jitter p := by
  unfold jitter
  split
  · norm_num [defaultJitter]
  · split
    · assumption
    · norm_num [defaultJitter]

/-! ## The loop -/

section Loop

variable {mult maxB b : ℚ}

/-- From a start below the cap the loop computes the capped power. It leaves early only if the multiplier is at least
one, and then all later powers are above the cap as well. -/
theorem grow_of_le (hm : 0 < mult) (hb : 0 < b) (hle : b ≤ maxB) (n : Nat) :
    grow mult maxB n b = min maxB (b * mult ^ n) := by
  induction n generalizing b with
  | zero => simp [grow, hle]
  | succ n ih =>
    unfold grow
    split
    · rename_i hcap
      have hone : 1 ≤ mult := by
        by_contra hlt
        have : b * mult < b * 1 := mul_lt_mul_of_pos_left (not_le.1 hlt) hb
        linarith
      have hpow : maxB ≤ b * mult ^ (n + 1) := by
        calc maxB ≤ b * mult := hcap
          _ ≤ b * mult * mult ^ n := le_mul_of_one_le_right (by positivity) (one_le_pow₀ hone)
          _ = b * mult ^ (n + 1) := by ring
      rw [min_eq_left hpow]
    · rename_i hcap
      rw [ih (by positivity) (not_le.1 hcap).le, pow_succ']
      ring_nf

/-- Where exactly the loop computes the capped power. -/
theorem grow_eq_min_iff (hm : 0 < mult) (hb : 0 < b) (n : Nat) :
    grow mult maxB n b = min maxB (b * mult ^ n) ↔
      b ≤ maxB ∨ 1 ≤ n ∧ (b * mult < maxB ∨ maxB ≤ b * mult ^ n) := by
  by_cases hle : b ≤ maxB
  · exact iff_of_true (grow_of_le hm hb hle n) (.inl hle)
  · cases n with
    | zero => simp [grow, hle]
    | succ n =>
      by_cases hcap : b * mult < maxB
      · refine iff_of_true ?_ (.inr ⟨by omega, .inl hcap⟩)
        rw [grow, if_neg (not_le.2 hcap), grow_of_le hm (by positivity) hcap.le, pow_succ']
        ring_nf
      · rw [grow, if_pos (not_lt.1 hcap), eq_comm, min_eq_left_iff]
        simp [hle, hcap]

end Loop

/-! ## The delay -/

/-- The attempts after which the delay before jitter is the one of the formula: all of them if the initial backoff is
within the maximum; else those after the first for which one multiplication gets below the maximum, or all of
them together do not. -/
def Capped (p : Option RetryPolicy) (n : Nat) : Prop :=
  (initial p : ℚ) ≤ maxBackoff p ∨
    2 ≤ n ∧ ((initial p : ℚ) * multiplier p < maxBackoff p ∨
      (maxBackoff p : ℚ) ≤ initial p * multiplier p ^ (n - 1))

theorem base_natCast (p : Option RetryPolicy) (n : Nat) :
    base p n = grow (multiplier p) (maxBackoff p) (n - 1) (initial p) := by
  unfold base
  congr 1
  omega

theorem base_eq_min_iff (p : Option RetryPolicy) {n : Nat} (hn : 1 ≤ n) :
    base p n = min (maxBackoff p : ℚ) (initial p * multiplier p ^ (n - 1)) ↔ Capped p n := by
  have hi : (0 : ℚ) < initial p := by exact_mod_cast initial_pos p
  rw [base_natCast, grow_eq_min_iff (multiplier_pos p) hi]
  unfold Capped
  rw [show 1 ≤ n - 1 ↔ 2 ≤ n by omega]

theorem base_nonneg (p : Option RetryPolicy) (n : Nat) : 0 ≤ base p n := by
  have hi : (0 : ℚ) < initial p := by exact_mod_cast initial_pos p
  have hx : (0 : ℚ) < maxBackoff p := by exact_mod_cast maxBackoff_pos p
  rw [base_natCast]
  generalize n - 1 = k
  generalize (initial p : ℚ) = b at hi
  induction k generalizing b with
  | zero => exact hi.le
  | succ k ih =>
    unfold grow
    split
    · exact hx.le
    · exact ih _ (mul_pos hi (multiplier_pos p))

theorem spread_nonneg (p : Option RetryPolicy) (attempt : Int) (draw : ℚ) : 0 ≤ spread p attempt draw := by
  unfold spread
  simp only
  generalize (if jitter p > 0 then base p attempt * (1 + (draw * 2 - 1) * jitter p) else base p attempt) = b
  split
  · exact le_rfl
  · rename_i h
    exact not_lt.1 h

theorem spread_le (p : Option RetryPolicy) {n : Nat} {draw : ℚ} (hle : base p n ≤ maxBackoff p) (h₁ : draw < 1) :
    spread p n draw ≤ maxBackoff p * (1 + jitter p) := by
  have hj := jitter_pos p
  have hx : (0 : ℚ) < maxBackoff p := by exact_mod_cast maxBackoff_pos p
  unfold spread
  simp only [gt_iff_lt, hj, if_true]
  split
  · positivity
  · calc base p n * (1 + (draw * 2 - 1) * jitter p)
        ≤ base p n * (1 + 1 * jitter p) := by
          refine mul_le_mul_of_nonneg_left ?_ (base_nonneg p n)
          have := mul_le_mul_of_nonneg_right (show draw * 2 - 1 ≤ 1 by linarith) hj.le
          linarith
      _ ≤ maxBackoff p * (1 + jitter p) := by
          rw [one_mul]
          exact mul_le_mul_of_nonneg_right hle (by positivity)

/-- What the documented delay amounts to with its jitter is below the first float64 that is no duration. -/
def Convertible (p : Option RetryPolicy) (n : Nat) (draw : ℚ) : Prop :=
  min (maxBackoff p : ℚ) (initial p * multiplier p ^ (n - 1)) * (1 + (draw * 2 - 1) * jitter p) < 2 ^ 63

theorem spread_lt_iff {p : Option RetryPolicy} {n : Nat} {draw : ℚ}
    (hbase : base p n = min (maxBackoff p : ℚ) (initial p * multiplier p ^ (n - 1))) :
    spread p n draw < 2 ^ 63 ↔ Convertible p n draw := by
  unfold spread Convertible
  rw [if_pos (jitter_pos p), hbase]
  dsimp only
  split
  · rename_i hneg
    exact iff_of_true (by norm_num) (hneg.trans (by norm_num))
  · rfl

/-- A delay that can be converted is the one before the conversion, rounded down. -/
theorem backoff_mem (p : Option RetryPolicy) {n : Nat} {draw : ℚ} (outside : Int64) (hle : base p n ≤ maxBackoff p)
    (h₁ : draw < 1) (h : spread p n draw < 2 ^ 63) :
    0 ≤ backoff p n ⟨draw, outside⟩ ∧ (backoff p n ⟨draw, outside⟩ : ℚ) ≤ maxBackoff p * (1 + jitter p) := by
  have hconv : backoff p n ⟨draw, outside⟩ = ⌊spread p n draw⌋ := if_pos h
  rw [hconv]
  constructor
  · exact Int.floor_nonneg.2 (spread_nonneg p n draw)
  · exact (Int.floor_le _).trans (spread_le p hle h₁)

/-- Exactly when the delay before jitter is the documented one and the returned delay is within the documented range,
whatever the conversion makes of a value out of range. -/
theorem backoff_follows_formula (p : Option RetryPolicy) (n : Nat) (hn : 1 ≤ n) (draw : ℚ) (h₁ : draw < 1) :
    (base p n = min (maxBackoff p : ℚ) (initial p * multiplier p ^ (n - 1)) ∧
      ∀ outside : Int64, 0 ≤ backoff p n ⟨draw, outside⟩ ∧
        (backoff p n ⟨draw, outside⟩ : ℚ) ≤ maxBackoff p * (1 + jitter p)) ↔
      Capped p n ∧ Convertible p n draw := by
  constructor
  · rintro ⟨hbase, hrange⟩
    refine ⟨(base_eq_min_iff p hn).1 hbase, (spread_lt_iff hbase).1 ?_⟩
    by_contra hout
    -- the conversion may give a negative duration
    have hneg : backoff p n ⟨draw, -1⟩ = -1 := if_neg hout
    have := (hrange (-1)).1
    omega
  · rintro ⟨hcap, hfit⟩
    have hbase := (base_eq_min_iff p hn).2 hcap
    exact ⟨hbase, fun outside =>
      backoff_mem p outside (hbase.trans_le (min_le_left _ _)) h₁ ((spread_lt_iff hbase).2 hfit)⟩

/-- A policy of one minute between attempts that sets no maximum. -/
def minutely : Option RetryPolicy := some { initialBackoff := some (60 * 1000000000) }

theorem backoff_follows_formula_third :
    base minutely 3 = 30 * 1000000000 ∧ ∀ outside, 0 ≤ backoff minutely 3 ⟨1 / 2, outside⟩ := by
  have hcap : Capped minutely 3 := by
    refine .inr ⟨by decide, .inr ?_⟩
    norm_num [minutely, maxBackoff, initial, multiplier, positiveOr, defaultMax, defaultMultiplier]
  have hfit : Convertible minutely 3 (1 / 2) := by
    norm_num [Convertible, minutely, maxBackoff, initial, multiplier, positiveOr, defaultMax, defaultMultiplier]
  obtain ⟨hbase, hrange⟩ := (backoff_follows_formula minutely 3 (by decide) (1 / 2) (by norm_num)).2 ⟨hcap, hfit⟩
  constructor
  · norm_num [minutely, maxBackoff, initial, multiplier, positiveOr, defaultMax, defaultMultiplier] at hbase ⊢
    exact hbase
  · exact fun outside => (hrange outside).1

/-- The wait after its first attempt is a minute, twice the maximum, and can be more with jitter. -/
theorem first_backoff_uncapped :
    base minutely 1 = 60 * 1000000000 ∧
      min (maxBackoff minutely : ℚ) (initial minutely * multiplier minutely ^ 0) = 30 * 1000000000 ∧
      backoff minutely 1 ⟨3 / 4, 0⟩ = 66 * 1000000000 ∧
      (maxBackoff minutely : ℚ) * (1 + jitter minutely) = 36 * 1000000000 := by
  refine ⟨?_, ?_, ?_, ?_⟩
  · norm_num [base, grow, minutely, initial, positiveOr]
  · norm_num [minutely, maxBackoff, initial, positiveOr, defaultMax]
  · norm_num [backoff, toDuration, spread, base, grow, minutely, initial, positiveOr, jitter, defaultJitter]
  · norm_num [minutely, maxBackoff, positiveOr, defaultMax, jitter, defaultJitter]

end Distsched.Retry
