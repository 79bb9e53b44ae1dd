import Mathlib.Algebra.Order.Ring.Int
import Outbox.Config

/-! # How long a retry waits

The delay before a retry doubles with every failure after the first. The number of doublings, their
power, the product and the cap each stop at a point of their own, and none of these points shows:
the delay is the one that numbers of any size would give. It is a number of 64 bits, and reading it
as a signed one keeps it only if it has 63.
-/

namespace Outbox

namespace Config

/-! ## Doubling -/

theorem val_product (a b : Word64) : (product a b).val = min (a.val * b.val) (2 ^ 64 - 1) := by
  have nonneg : 0 ≤ a.val * b.val := Int.mul_nonneg a.lo_le b.lo_le
  rw [product, Ranged.val_clamp]
  omega

theorem val_power (n : Nat) : (power n).val = min (2 ^ n) (2 ^ 64 - 1) := by
  unfold power
  split
  case isTrue small =>
    have positive : (0 : Int) < 2 ^ n := Int.pow_pos (by decide)
    rw [Ranged.val_clamp, show Int.pow 2 n = 2 ^ n from rfl]
    omega
  case isFalse large =>
    have past : (2 : Int) ^ 64 ≤ 2 ^ n :=
      pow_le_pow_right₀ (by decide) (Nat.le_of_not_lt large)
    rw [min_eq_right (by omega)]
    rfl

/-- From the 65th doubling on, more of them make no difference: they are past every limit, or there
is nothing to double. -/
theorem min_doubled_of_le (initial max : Word64) {m n : Nat} (large : 64 ≤ m) (more : m ≤ n) :
    min (initial.val * 2 ^ m) max.val = min (initial.val * 2 ^ n) max.val := by
  have limit := max.le_hi
  rcases initial.lo_le.eq_or_lt with zero | positive
  · rw [← zero, Int.zero_mul, Int.zero_mul]
  · have past (k : Nat) (large : 64 ≤ k) : max.val ≤ initial.val * 2 ^ k := by
      calc max.val ≤ 2 ^ 64 := by omega
        _ ≤ 2 ^ k := pow_le_pow_right₀ (by decide) large
        _ ≤ initial.val * 2 ^ k := le_mul_of_one_le_left (pow_nonneg (by decide) k) positive
    rw [min_eq_right (past m large), min_eq_right (past n (large.trans more))]

/-- A delay doubles with every failure after the first and stops at its limit, and nowhere
before. -/
theorem val_backoff (initial max : Word64) (failures : Word32) :
    (backoff initial max failures).val =
      min (initial.val * 2 ^ (failures.toNat - 1)) max.val := by
  have limit := max.le_hi
  generalize failed : failures.toNat - 1 = n
  have least : (backoff initial max failures).val =
      min (min (initial.val * min (2 ^ n) (2 ^ 64 - 1)) (2 ^ 64 - 1)) max.val := by
    rw [← val_power, ← val_product]
    unfold backoff
    rw [failed]
    dsimp only
    split <;> omega
  rw [least, min_assoc, min_eq_right (a := (2 ^ 64 - 1 : Int)) (by omega)]
  by_cases small : n < 64
  case pos =>
    have inside : (2 : Int) ^ n < 2 ^ 64 := pow_lt_pow_right₀ (by decide) small
    rw [min_eq_left (b := (2 ^ 64 - 1 : Int)) (by omega)]
  case neg =>
    have past : (2 : Int) ^ 64 ≤ 2 ^ n :=
      pow_le_pow_right₀ (by decide) (Nat.le_of_not_lt small)
    rw [min_eq_right (b := (2 ^ 64 - 1 : Int)) (by omega)]
    rcases initial.lo_le.eq_or_lt with zero | positive
    · rw [← zero, Int.zero_mul, Int.zero_mul]
    · have held : (2 : Int) ^ 64 - 1 ≤ initial.val * (2 ^ 64 - 1) :=
        le_mul_of_one_le_left (by decide) positive
      have doubled : (2 : Int) ^ n ≤ initial.val * 2 ^ n :=
        le_mul_of_one_le_left (by omega) positive
      rw [min_eq_right (by omega), min_eq_right (by omega)]

/-! ## The delay before a retry -/

variable {c : Config} {m n : Word32}

theorem retryDelay_le (c : Config) (n : Word32) : (c.retryDelay n).val ≤ c.retryMaxDelay.val := by
  rw [retryDelay, val_backoff]
  exact min_le_right _ _

/-- A retry never waits less than the one before. -/
theorem retryDelay_mono (more : m.val ≤ n.val) : (c.retryDelay m).val ≤ (c.retryDelay n).val := by
  have doublings : m.toNat - 1 ≤ n.toNat - 1 := by
    unfold Ranged.toNat
    omega
  have grown : (2 : Int) ^ (m.toNat - 1) ≤ 2 ^ (n.toNat - 1) :=
    pow_le_pow_right₀ (by decide) doublings
  rw [retryDelay, retryDelay, val_backoff, val_backoff]
  exact min_le_min_right _ (Int.mul_le_mul_of_nonneg_left grown c.retryInitialDelay.lo_le)

/-- The delay before a retry is the first one, doubled with every failure after the first, up to the
longest. It is what numbers of any size give, for all configurations and all counts: the limits of
64 bits do not show, nor does a first delay of zero or a count of zero. So it never exceeds the
longest delay, and never falls from one count to a higher one. -/
theorem retries_wait_as_unbounded (c : Config) :
    (∀ n : Word32, (c.retryDelay n).val =
      min (c.retryInitialDelay.val * 2 ^ (max (n.val - 1) 0).toNat) c.retryMaxDelay.val) ∧
    (∀ n : Word32, (c.retryDelay n).val ≤ c.retryMaxDelay.val) ∧
    ∀ m n : Word32, m.val ≤ n.val → (c.retryDelay m).val ≤ (c.retryDelay n).val := by
  refine ⟨fun n => ?_, retryDelay_le c, fun m n => retryDelay_mono⟩
  have doublings : (max (n.val - 1) 0).toNat = n.toNat - 1 := by
    unfold Ranged.toNat
    omega
  rw [retryDelay, val_backoff, doublings]

/-- Delays of seconds, the last of which are cut at ten of them. -/
theorem retries_wait_as_unbounded_of_seconds :
    let c := { default with retryInitialDelay := 1000, retryMaxDelay := 10000 }
    (c.retryDelay 4).val = 8000 ∧ (c.retryDelay 200).val = 10000 ∧
      (4 : Word32).val ≤ (200 : Word32).val ∧
      (c.retryDelay 4).val ≤ (c.retryDelay 200).val := by
  intro c
  obtain ⟨exact_, _, grows⟩ := retries_wait_as_unbounded c
  have fewer : (4 : Word32).val ≤ (200 : Word32).val := by decide
  refine ⟨(exact_ 4).trans (by decide), (exact_ 200).trans (by decide), fewer, grows 4 200 fewer⟩

end Config

/-! ## The delay as a signed number -/

/-- A number of 64 bits keeps its value as a signed one if it has 63 of them, and turns negative
otherwise. -/
theorem Millis.val_ofWord (w : Word64) :
    (ofWord w).val = if w.val < 2 ^ 63 then w.val else w.val - 2 ^ 64 := by
  have least := w.lo_le
  have most := w.le_hi
  have wrapped : Int.bmod w.val 18446744073709551616 =
      if w.val < 2 ^ 63 then w.val else w.val - 2 ^ 64 := by
    rw [Int.bmod_def, Int.emod_eq_of_lt least (by omega)]
    split <;> split <;> omega
  rw [ofWord, wrapped]
  split <;> exact Ranged.val_clamp_of_mem (by omega) (by omega)

end Outbox
