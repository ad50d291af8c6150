import Mathlib.Algebra.BigOperators.Intervals
import Mathlib.Algebra.Field.Rat
import Mathlib.Algebra.CharZero.Defs
import Mathlib.Tactic.NormNum
import Mathlib.Tactic.Ring

/-!
# pi.c, pi.go — a thread of the CPU benchmark

A thread sums up a series; its powers are by repeated squaring, with an exponent of 64
bits. The two programs have the same loops, in C with `long double` and in Go with
`float64`; here the numbers are of any field of characteristic 0, without rounding.

The counter of the series and the exponent are words, and `2 * n + 1` is taken modulo
`2^64`. Up to `2^63` terms nothing wraps; `num_iters` is more than that in no benchmark that
comes to an end.

Main results:

* `loop_eq` — what is left to multiply with when the squaring loop is in the middle;
* `summed_eq` — the terms that the loop of a thread still adds;
* `oneThread_arctan` — both programs compute the arctangent series.
-/

namespace EchoServer.Pi

variable {K : Type*} [Field K]

-- ---------------------------------------------------------------------------
-- Powers
-- ---------------------------------------------------------------------------

/-- The `while` loop of `custom_pow` and of `pow`. -/
def powLoop (x y : K) (n : UInt64) : K :=
  if 0 < n then powLoop (x * x) (if n % 2 = 1 then y * x else y) (n / 2) else y
termination_by n.toNat
decreasing_by
  rename_i hpos
  have hlt : 0 < n.toNat := hpos
  have htwo : (2 : UInt64).toNat = 2 := rfl
  rw [UInt64.toNat_div, htwo]
  omega

/-- The body of both functions. -/
def power (x : K) (n : UInt64) : K := if n = 0 then 1 else powLoop x 1 n

/-- The loop multiplies `y` with what is left of the power: halving the exponent squares
the base, and an odd exponent takes one factor out. -/
theorem powLoop_eq (x y : K) (n : UInt64) : powLoop x y n = y * x ^ n.toNat := by
  fun_induction powLoop x y n with
  | case1 x y n hpos ih =>
    have htwo : (2 : UInt64).toNat = 2 := rfl
    have hone : n % 2 = 1 ↔ n.toNat % 2 = 1 := by
      rw [← UInt64.toNat_inj, UInt64.toNat_mod, htwo]
      rfl
    rw [dite_eq_ite] at ih
    rw [ih, UInt64.toNat_div, htwo, ← pow_two, ← pow_mul]
    by_cases hodd : n % 2 = 1
    · have hsplit : n.toNat = 2 * (n.toNat / 2) + 1 := by
        have := hone.mp hodd
        omega
      rw [if_pos hodd]
      conv_rhs => rw [hsplit, pow_succ]
      ring
    · have hsplit : 2 * (n.toNat / 2) = n.toNat := by
        have := mt hone.mpr hodd
        omega
      rw [if_neg hodd, hsplit]
  | case2 x y n hzero =>
    have hn : n.toNat = 0 := Nat.eq_zero_of_not_pos hzero
    rw [hn, pow_zero, mul_one]

theorem power_eq (x : K) (n : UInt64) : power x n = x ^ n.toNat := by
  unfold power
  split
  · rename_i hzero
    rw [hzero]
    exact (pow_zero x).symm
  · rw [powLoop_eq, one_mul]

-- ---------------------------------------------------------------------------
-- The series
-- ---------------------------------------------------------------------------

/-- The `for` loop of a thread; `pow` is how it comes to powers. -/
def sumLoop (pow : K → UInt64 → K) (x : K) (numIters n : UInt64) (a : K) : K :=
  if n < numIters then
    let k := 2 * n + 1
    sumLoop pow x numIters (n + 1) (a + pow (-1) n * pow x k / (k.toNat : K))
  else a
termination_by numIters.toNat - n.toNat
decreasing_by
  rename_i hlt
  have hlt' : n.toNat < numIters.toNat := hlt
  have hbound := numIters.toNat_lt
  have hone : (1 : UInt64).toNat = 1 := rfl
  rw [UInt64.toNat_add, hone, Nat.mod_eq_of_lt (by omega)]
  omega

/-- The `n`-th term of the series of the arctangent. -/
def term (x : K) (n : Nat) : K := (-1) ^ n * x ^ (2 * n + 1) / (2 * n + 1 : Nat)

/-- `k` does not wrap. -/
theorem toNat_odd {n : UInt64} (hn : n.toNat < 2 ^ 63) :
    (2 * n + 1).toNat = 2 * n.toNat + 1 := by
  have hone : (1 : UInt64).toNat = 1 := rfl
  have htwo : (2 : UInt64).toNat = 2 := rfl
  rw [UInt64.toNat_add, UInt64.toNat_mul, hone, htwo]
  omega

/-- The loop adds the terms from `n` on. -/
theorem sumLoop_eq {pow : K → UInt64 → K} (hpow : ∀ x n, pow x n = x ^ n.toNat) (x : K)
    (numIters n : UInt64) (a : K) (hle : numIters.toNat ≤ 2 ^ 63) (hn : n.toNat ≤ numIters.toNat) :
    sumLoop pow x numIters n a =
      a + ∑ i ∈ Finset.Ico n.toNat numIters.toNat, term x i := by
  fun_induction sumLoop pow x numIters n a with
  | case1 n a hlt k ih =>
    have hlt' : n.toNat < numIters.toNat := hlt
    have hone : (1 : UInt64).toNat = 1 := rfl
    have hsucc : (n + 1).toNat = n.toNat + 1 := by
      rw [UInt64.toNat_add, hone, Nat.mod_eq_of_lt (by omega)]
    have hk : k.toNat = 2 * n.toNat + 1 := toNat_odd (by omega)
    have hterm : pow (-1) n * pow x k / (k.toNat : K) = term x n.toNat := by
      rw [hpow, hpow, hk, term]
    rw [ih (by omega), hsucc, hterm, Finset.sum_eq_sum_Ico_succ_bot hlt', add_assoc]
  | case2 n a hge =>
    have hge' : numIters.toNat ≤ n.toNat := Nat.not_lt.mp hge
    rw [Finset.Ico_eq_empty_of_le hge', Finset.sum_empty, add_zero]

-- ---------------------------------------------------------------------------
-- The two programs
-- ---------------------------------------------------------------------------

namespace C

/-- `custom_pow` of pi.c. -/
def customPow (x : K) (n : UInt64) : K := power x n

theorem customPow_eq (x : K) (n : UInt64) : customPow x n = x ^ n.toNat := power_eq x n

/-- What `oneThread` of pi.c leaves in `a`. -/
def oneThread (x : K) (numIters : UInt64) : K := sumLoop customPow x numIters 0 0

end C

namespace Go

/-- `pow` of pi.go. -/
def pow (x : K) (n : UInt64) : K := power x n

theorem pow_eq (x : K) (n : UInt64) : pow x n = x ^ n.toNat := power_eq x n

/-- What `oneThread` of pi.go leaves in `a`. -/
def oneThread (x : K) (numIters : UInt64) : K := sumLoop pow x numIters 0 0

end Go

theorem sumLoop_zero {pow : K → UInt64 → K} (hpow : ∀ x n, pow x n = x ^ n.toNat) (x : K)
    (numIters : UInt64) (hle : numIters.toNat ≤ 2 ^ 63) :
    sumLoop pow x numIters 0 0 =
      ∑ n ∈ Finset.range numIters.toNat, (-1) ^ n * x ^ (2 * n + 1) / (2 * n + 1) := by
  rw [sumLoop_eq hpow x numIters 0 0 hle (Nat.zero_le _), zero_add, Finset.range_eq_Ico]
  refine Finset.sum_congr rfl fun n _ => ?_
  rw [term]
  push_cast
  rfl

/-- **Both programs compute the arctangent series**: their powers are powers, no divisor is
zero, and what they leave in `a` are its first terms. -/
theorem oneThread_arctan [CharZero K] (x : K) (numIters : UInt64)
    (hle : numIters.toNat ≤ 2 ^ 63) :
    (∀ (y : K) (n : UInt64), C.customPow y n = y ^ n.toNat ∧ Go.pow y n = y ^ n.toNat) ∧
      (∀ n < numIters, ((2 * n + 1).toNat : K) ≠ 0) ∧
      C.oneThread x numIters =
        ∑ n ∈ Finset.range numIters.toNat, (-1) ^ n * x ^ (2 * n + 1) / (2 * n + 1) ∧
      Go.oneThread x numIters = C.oneThread x numIters := by
  refine ⟨fun y n => ⟨C.customPow_eq y n, Go.pow_eq y n⟩, fun n hlt => ?_, ?_, ?_⟩
  · have hlt' : n.toNat < numIters.toNat := hlt
    rw [toNat_odd (by omega)]
    exact Nat.cast_ne_zero.mpr (Nat.succ_ne_zero _)
  · exact sumLoop_zero C.customPow_eq x numIters hle
  · rw [C.oneThread, Go.oneThread, sumLoop_zero Go.pow_eq x numIters hle]
    exact (sumLoop_zero C.customPow_eq x numIters hle).symm

/-- Two terms of the series at one half. -/
theorem oneThread_arctan_half : C.oneThread (1 / 2 : ℚ) 2 = 11 / 24 := by
  obtain ⟨-, -, hsum, -⟩ := oneThread_arctan (1 / 2 : ℚ) 2 (by decide)
  have htwo : (2 : UInt64).toNat = 2 := rfl
  rw [hsum, htwo]
  norm_num [Finset.sum_range_succ]

end EchoServer.Pi
