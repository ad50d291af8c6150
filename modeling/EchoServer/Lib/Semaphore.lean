import Mathlib.Algebra.BigOperators.Group.Finset.Basic
import Mathlib.Algebra.Order.BigOperators.Group.Finset
import Mathlib.Data.Fintype.BigOperators
import Mathlib.Logic.Function.Basic

/-!
# Semaphores and parties

A counting semaphore together with what was posted to it and taken from it so far,
and sums over parties of which one moves at a time.

* `Sem.taken_le_posted` — nothing is taken that was not posted;
* `total_update` — what a party's move adds to the sum;
* `created_update` — who has been created, when the parties are created in order;
* `eq_one_of_total` — when each party adds at most one and the sum is as large as the
  number of parties, each has added one.
-/

namespace EchoServer.Lib

/-! ## Semaphores -/

/-- A semaphore, with how often it was posted and how often a token was taken from it. What
`sem_wait` waits for is the difference. -/
structure Sem where
  value : Nat
  posted : Nat
  taken : Nat
  conserved : value + taken = posted

namespace Sem

/-- `sem_init(&sem, 0, 0)`. -/
def init : Sem := ⟨0, 0, 0, rfl⟩

/-- `sem_post`. -/
def post (s : Sem) : Sem where
  value := s.value + 1
  posted := s.posted + 1
  taken := s.taken
  conserved := by
    have := s.conserved
    omega

/-- `sem_trywait`, `none` when the value is zero. `sem_wait` blocks then. -/
def take (s : Sem) : Option Sem :=
  if h : 0 < s.value then
    some ⟨s.value - 1, s.posted, s.taken + 1, by have := s.conserved; omega⟩
  else none

@[simp] theorem init_posted : init.posted = 0 := rfl
@[simp] theorem init_taken : init.taken = 0 := rfl
@[simp] theorem post_posted (s : Sem) : s.post.posted = s.posted + 1 := rfl
@[simp] theorem post_taken (s : Sem) : s.post.taken = s.taken := rfl

/-- A token that was taken is counted. -/
theorem take_eq_some {s t : Sem} (h : s.take = some t) :
    t.posted = s.posted ∧ t.taken = s.taken + 1 := by
  unfold take at h
  split at h
  · cases h
    exact ⟨rfl, rfl⟩
  · cases h

theorem taken_le_posted (s : Sem) : s.taken ≤ s.posted := by
  have := s.conserved
  omega

end Sem

/-! ## Parties -/

section
variable {ι : Type*} [Fintype ι] {σ : Type*} {g : σ → Nat} {f : ι → σ} {i : ι} {x : σ}

/-- What the parties have done together. -/
def total (g : σ → Nat) (f : ι → σ) : Nat := ∑ i, g (f i)

/-- A total over all threads, when one of them moves. -/
theorem total_update [DecidableEq ι] :
    total g (Function.update f i x) + g (f i) = total g f + g x := by
  have hrest : ∀ h : ι → σ, total g h = g (h i) + ∑ j ∈ Finset.univ.erase i, g (h j) :=
    fun h => (Finset.add_sum_erase _ _ (Finset.mem_univ i)).symm
  have hsame : ∑ j ∈ Finset.univ.erase i, g (Function.update f i x j) =
      ∑ j ∈ Finset.univ.erase i, g (f j) :=
    Finset.sum_congr rfl fun j hj => by rw [Function.update_of_ne (Finset.ne_of_mem_erase hj)]
  rw [hrest (Function.update f i x), hrest f, hsame, Function.update_self]
  omega

theorem le_total (i : ι) : g (f i) ≤ total g f :=
  Finset.single_le_sum (fun j _ => Nat.zero_le (g (f j))) (Finset.mem_univ i)

theorem total_eq_zero (h : ∀ i, g (f i) = 0) : total g f = 0 :=
  Finset.sum_eq_zero fun i _ => h i

/-- The parties that have not moved are what is missing in the sum. -/
theorem card_add_total (hle : ∀ i, g (f i) ≤ 1) :
    (Finset.univ.filter fun i => g (f i) = 0).card + total g f = Fintype.card ι := by
  rw [total, Finset.card_filter, ← Finset.sum_add_distrib, ← Finset.card_univ,
    Finset.card_eq_sum_ones]
  refine Finset.sum_congr rfl fun i _ => ?_
  have := hle i
  split
  · omega
  · omega

/-- When nobody counts more than one and the total is that of all, everybody counts one. -/
theorem eq_one_of_total (hle : ∀ i, g (f i) ≤ 1) (h : Fintype.card ι ≤ total g f) (i : ι) :
    g (f i) = 1 := by
  have hcard := card_add_total hle
  have hnone : (Finset.univ.filter fun i => g (f i) = 0).card = 0 := by omega
  have hi := Finset.filter_eq_empty_iff.mp (Finset.card_eq_zero.mp hnone) (Finset.mem_univ i)
  have := hle i
  omega

end

/-- The parties that are left when the next one in order has been created. -/
theorem created_update {N k : Nat} {σ : Type*} {Q : σ → Prop} {f : Fin N → σ} {x : σ} (hk : k < N)
    (h : ∀ j, Q (f j) ↔ k ≤ j.val) (hx : ¬ Q x) (j : Fin N) :
    Q (Function.update f ⟨k, hk⟩ x j) ↔ k + 1 ≤ j.val := by
  by_cases hj : j = ⟨k, hk⟩
  · subst hj
    rw [Function.update_self]
    exact iff_of_false hx (Nat.not_succ_le_self k)
  · have hne : j.val ≠ k := fun hval => hj (Fin.ext hval)
    rw [Function.update_of_ne hj, h j]
    omega

end EchoServer.Lib
