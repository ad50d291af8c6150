import Mathlib.Algebra.Order.BigOperators.Ring.Finset
import Mathlib.Algebra.Order.Field.Rat
import Mathlib.Tactic.Linarith
import Mathlib.Tactic.FieldSimp
import Mathlib.Tactic.Positivity

/-!
# Rounded quotients and sums of words

Division of whole numbers that rounds to the nearest one, by adding half of the divisor
first; and loops that add up words of 64 bits.

* `abs_rounded_sub_le` — a rounded quotient is at most one half away from the exact one;
* `abs_sum_sub_le` — the errors of the summands add up;
* `toNat_wrapSum` — a sum that fits does not wrap on the way.
-/

namespace EchoServer.Lib

-- ---------------------------------------------------------------------------
-- Rounding
-- ---------------------------------------------------------------------------

/-- `a / b`, rounded to the nearest number. -/
def roundedDiv (a b : Nat) : Nat := (a + b / 2) / b

theorem roundedDiv_bounds {b : Nat} (a : Nat) (hb : 0 < b) :
    2 * (b * roundedDiv a b) ≤ 2 * a + b ∧ 2 * a ≤ 2 * (b * roundedDiv a b) + b := by
  have hlo := Nat.mul_div_le (a + b / 2) b
  have hhi := Nat.lt_mul_div_succ (a + b / 2) hb
  rw [Nat.mul_succ] at hhi
  unfold roundedDiv
  omega

theorem abs_rounded_sub_le {b : Nat} (a : Nat) (hb : 0 < b) :
    |(roundedDiv a b : ℚ) - a / b| ≤ 1 / 2 := by
  obtain ⟨hlo, hhi⟩ := roundedDiv_bounds a hb
  have hpos : (0 : ℚ) < b := by exact_mod_cast hb
  have hlo' : (2 : ℚ) * (b * roundedDiv a b) ≤ 2 * a + b := by exact_mod_cast hlo
  have hhi' : (2 : ℚ) * a ≤ 2 * (b * roundedDiv a b) + b := by exact_mod_cast hhi
  have hexact : (a : ℚ) = b * (a / b) := by field_simp
  rw [abs_le]
  constructor
  · by_contra hnot
    have hmul : (b : ℚ) * (roundedDiv a b - a / b) < b * -(1 / 2) :=
      mul_lt_mul_of_pos_left (not_le.mp hnot) hpos
    linarith
  · by_contra hnot
    have hmul : (b : ℚ) * (1 / 2) < b * (roundedDiv a b - a / b) :=
      mul_lt_mul_of_pos_left (not_le.mp hnot) hpos
    linarith

theorem abs_sum_sub_le {ι : Type*} (s : Finset ι) {q x : ι → ℚ} {δ : ℚ}
    (h : ∀ i ∈ s, |q i - x i| ≤ δ) : |∑ i ∈ s, q i - ∑ i ∈ s, x i| ≤ s.card * δ := by
  rw [← Finset.sum_sub_distrib, ← nsmul_eq_mul]
  exact (Finset.abs_sum_le_sum_abs _ s).trans (Finset.sum_le_card_nsmul s _ δ h)

-- ---------------------------------------------------------------------------
-- Sums of words
-- ---------------------------------------------------------------------------

/-- What a loop comes to that adds one word after the other. -/
def wrapSum (vs : List UInt64) : UInt64 := vs.foldl (· + ·) 0

theorem wrapSum_append (vs : List UInt64) (v : UInt64) : wrapSum (vs ++ [v]) = wrapSum vs + v := by
  rw [wrapSum, List.foldl_append]
  rfl

/-- One more word of a family. -/
theorem wrapSum_take_succ {n : Nat} {v : Fin n → UInt64} {k : Nat} (hk : k < n) :
    wrapSum ((List.ofFn v).take (k + 1)) = wrapSum ((List.ofFn v).take k) + v ⟨k, hk⟩ := by
  have hget : (List.ofFn v)[k]? = some (v ⟨k, hk⟩) := by simp [hk]
  rw [List.take_add_one, hget]
  exact wrapSum_append _ _

theorem toNat_wrapSum {vs : List UInt64} (h : (vs.map UInt64.toNat).sum < 2 ^ 64) :
    (wrapSum vs).toNat = (vs.map UInt64.toNat).sum := by
  induction vs using List.reverseRecOn with
  | nil => rfl
  | append_singleton vs v ih =>
    rw [List.map_append, List.sum_append, List.map_singleton, List.sum_singleton] at h ⊢
    rw [wrapSum_append, UInt64.toNat_add, ih (by omega), Nat.mod_eq_of_lt h]

end EchoServer.Lib
