import Mathlib.Data.ZMod.Basic
import Mathlib.NumberTheory.Multiplicity
import Mathlib.RingTheory.Int.Basic
import Mathlib.Tactic.LinearCombination

/-!
# Linear congruential generators

The generator `x ↦ a * x + c` modulo a power of two. Where it is after `k` steps differs
from where it began by a geometric sum, and that sum is divisible by as many twos as `k`.

* `iterate_sub` — how far `k` steps lead;
* `iterate_eq_iff` — with `a` one more than a multiple of 4 and `c` odd, the generator is
  back where it began exactly after the multiples of the modulus.
-/

namespace EchoServer.Lib

/-- One step of the generator. -/
def congruential {R : Type*} [CommRing R] (a c x : R) : R := a * x + c

theorem iterate_sub {R : Type*} [CommRing R] (a c x : R) (k : Nat) :
    (congruential a c)^[k] x - x = (∑ i ∈ Finset.range k, a ^ i) * ((a - 1) * x + c) := by
  induction k with
  | zero => simp
  | succ k ih =>
    rw [Function.iterate_succ_apply', geom_sum_succ, congruential]
    linear_combination a * ih

/-- As many twos divide the sum of the first `k` powers as divide `k`. -/
theorem two_pow_dvd_geom_sum {a : ℤ} (ha : 4 ∣ a - 1) (w k : Nat) :
    (2 : ℤ) ^ w ∣ ∑ i ∈ Finset.range k, a ^ i ↔ 2 ^ w ∣ k := by
  have hcast : (2 : ℤ) ^ w ∣ k ↔ 2 ^ w ∣ k := by exact_mod_cast Int.natCast_dvd_natCast
  by_cases hone : a = 1
  · subst hone
    simpa using hcast
  · have hodd : ¬ 2 ∣ a := by omega
    have hlift := Int.two_pow_sub_pow' k ha hodd
    have hfinite : emultiplicity 2 (a - 1) ≠ ⊤ :=
      finiteMultiplicity_iff_emultiplicity_ne_top.mp
        (Int.finiteMultiplicity_iff.mpr ⟨by decide, sub_ne_zero.mpr hone⟩)
    rw [one_pow, ← geom_sum_mul, mul_comm, emultiplicity_mul Int.prime_two] at hlift
    have hsame := ENat.add_right_injective_of_ne_top hfinite hlift
    rw [pow_dvd_iff_le_emultiplicity, hsame, ← pow_dvd_iff_le_emultiplicity, hcast]

section
variable {a c : ℤ} {w : Nat} {x : ZMod (2 ^ w)}

/-- **The generator has full period.** -/
theorem iterate_eq_iff (ha : 4 ∣ a - 1) (hc : Odd c) (k : Nat) :
    (congruential (a : ZMod (2 ^ w)) c)^[k] x = x ↔ 2 ^ w ∣ k := by
  obtain ⟨z, rfl⟩ := ZMod.intCast_surjective x
  have hcoprime : IsCoprime ((2 : ℤ) ^ w) ((a - 1) * z + c) := by
    have heven : Even (a - 1) := even_iff_two_dvd.mpr (by omega)
    exact IsCoprime.pow_left (Int.isCoprime_two_left.mpr ((heven.mul_right z).add_odd hc))
  have hzero : (congruential (a : ZMod (2 ^ w)) c)^[k] z - z =
      (((∑ i ∈ Finset.range k, a ^ i) * ((a - 1) * z + c) : ℤ) : ZMod (2 ^ w)) := by
    rw [iterate_sub]
    push_cast
    rfl
  rw [← sub_eq_zero, hzero, ZMod.intCast_zmod_eq_zero_iff_dvd]
  push_cast
  rw [← two_pow_dvd_geom_sum ha]
  exact ⟨hcoprime.dvd_of_dvd_mul_right, fun h => h.mul_right _⟩

/-- No state comes twice in fewer steps than the modulus. -/
theorem iterate_injOn (ha : 4 ∣ a - 1) (hc : Odd c) {i j : Nat} (hle : i ≤ j)
    (hlt : j < i + 2 ^ w) (heq : (congruential (a : ZMod (2 ^ w)) c)^[i] x =
      (congruential (a : ZMod (2 ^ w)) c)^[j] x) : i = j := by
  obtain ⟨d, rfl⟩ := Nat.exists_eq_add_of_le hle
  rw [Nat.add_comm i d, Function.iterate_add_apply] at heq
  have hdvd := (iterate_eq_iff ha hc d).mp heq.symm
  have hzero := Nat.eq_zero_of_dvd_of_lt hdvd (by omega)
  omega

end

end EchoServer.Lib
