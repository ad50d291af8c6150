import EchoServer.Lib.Machine
import Mathlib.Data.Finset.Card
import Mathlib.Data.Set.Card

/-!
# How many parties have come so far

The parties are of any number; a property of a party's state holds of some of them, and a
step changes the state of one.

* `Tally.update_succ` — a party that comes to have the property is counted;
* `Tally.all` — when as many have a property as have, later, one that follows from it, whoever
  has the later one had the first.
-/

namespace EchoServer.Lib

variable {κ : Type*} {σ : Type*} {P Q : σ → Prop} {f g : κ → σ} {m n : Nat} {c : κ} {x : σ}

/-- Exactly `n` parties are in a state with the property `P`. -/
def Tally (P : σ → Prop) (f : κ → σ) (n : Nat) : Prop :=
  ∃ A : Finset κ, (∀ c, c ∈ A ↔ P (f c)) ∧ A.card = n

namespace Tally

theorem zero (h : ∀ c, ¬ P (f c)) : Tally P f 0 :=
  ⟨∅, fun c => iff_of_false (Finset.notMem_empty c) (h c), Finset.card_empty⟩

theorem congr (h : Tally P f n) (hiff : ∀ c, P (g c) ↔ P (f c)) : Tally P g n := by
  obtain ⟨A, hA, hcard⟩ := h
  exact ⟨A, fun c => (hA c).trans (hiff c).symm, hcard⟩

theorem encard (h : Tally P f n) : {c | P (f c)}.encard = n := by
  obtain ⟨A, hA, rfl⟩ := h
  have hset : {c | P (f c)} = (A : Set κ) := Set.ext fun c => (hA c).symm
  rw [hset, Set.encard_coe_eq_coe_finsetCard]

theorem pos (h : Tally P f n) (hc : P (f c)) : 0 < n := by
  obtain ⟨A, hA, rfl⟩ := h
  exact Finset.card_pos.mpr ⟨c, (hA c).mpr hc⟩

/-- Somebody is counted where the count is not zero. -/
theorem exists_of_pos (h : Tally P f n) (hn : 0 < n) : ∃ c, P (f c) := by
  obtain ⟨A, hA, rfl⟩ := h
  obtain ⟨c, hc⟩ := Finset.card_pos.mp hn
  exact ⟨c, (hA c).mp hc⟩

/-- Counts of properties of which one implies the other. -/
theorem le (hPQ : ∀ c, P (f c) → Q (g c)) (hP : Tally P f m) (hQ : Tally Q g n) : m ≤ n := by
  obtain ⟨A, hA, rfl⟩ := hP
  obtain ⟨B, hB, rfl⟩ := hQ
  exact Finset.card_le_card fun c hc => (hB c).mpr (hPQ c ((hA c).mp hc))

/-- One that only has the later property makes a difference. -/
theorem lt (hPQ : ∀ c, P (f c) → Q (g c)) (hP : Tally P f m) (hQ : Tally Q g n) (hc : Q (g c))
    (hnot : ¬ P (f c)) : m < n := by
  obtain ⟨A, hA, rfl⟩ := hP
  obtain ⟨B, hB, rfl⟩ := hQ
  have hsub : A ⊆ B := fun c hc => (hB c).mpr (hPQ c ((hA c).mp hc))
  exact Finset.card_lt_card
    ((Finset.ssubset_iff_of_subset hsub).mpr ⟨c, (hB c).mpr hc, fun hmem => hnot ((hA c).mp hmem)⟩)

/-- Where more have the one property than the other, somebody has only that one. -/
theorem exists_of_lt (hP : Tally P f m) (hQ : Tally Q f n) (hlt : m < n) : ∃ c, Q (f c) ∧ ¬ P (f c) := by
  by_contra hnone
  refine absurd (hQ.le (fun c hc => ?_) hP) (Nat.not_le_of_lt hlt)
  by_contra hnot
  exact hnone ⟨c, hc, hnot⟩

theorem unique (hm : Tally P f m) (hn : Tally P f n) : m = n :=
  Nat.le_antisymm (hm.le (fun _ => id) hn) (hn.le (fun _ => id) hm)

/-- If those that have come further are as many as those that have come at all, they are the
same. -/
theorem all (hPQ : ∀ c, P (f c) → Q (g c)) (hP : Tally P f m) (hQ : Tally Q g n) (hle : n ≤ m)
    (hc : Q (g c)) : P (f c) := by
  obtain ⟨A, hA, rfl⟩ := hP
  obtain ⟨B, hB, rfl⟩ := hQ
  have hsub : A ⊆ B := fun c hc => (hB c).mpr (hPQ c ((hA c).mp hc))
  have heq : A = B := Finset.eq_of_subset_of_card_le hsub hle
  rw [← hA, heq]
  exact (hB c).mpr hc

variable [DecidableEq κ]

/-- A step that the property does not see. -/
theorem update_same (h : Tally P f n) (hx : P x ↔ P (f c)) : Tally P (Function.update f c x) n :=
  h.congr (update_iff hx)

/-- A step by which a party comes to have the property. -/
theorem update_succ (h : Tally P f n) (hc : ¬ P (f c)) (hx : P x) :
    Tally P (Function.update f c x) (n + 1) := by
  obtain ⟨A, hA, rfl⟩ := h
  have hnot : c ∉ A := fun hmem => hc ((hA c).mp hmem)
  refine ⟨insert c A, fun d => ?_, Finset.card_insert_of_notMem hnot⟩
  rw [Finset.mem_insert]
  by_cases hd : d = c
  · subst hd
    rw [Function.update_self]
    exact iff_of_true (Or.inl rfl) hx
  · rw [Function.update_of_ne hd, hA, or_iff_right hd]

end Tally

end EchoServer.Lib
