import EchoServer.Lib.Loop

/-!
# i10e.c — polling the receive ring

`rq_poll_once` walks the descriptors that the device has filled, from the one behind
the tail up to the head. Its loop steps modulo the length of the ring and stops by a
comparison with the head.

The ring is of any length, and the head and the tail are where the two registers say;
`init_i10e` makes it of 128 descriptors and puts the tail on the last one. What the loop
does with a descriptor that it visits is in the model of the whole driver, which visits the
same ones.

Main results:

* `rqPollOnce_ends` — the loop ends, and visits what lies between without a wrap;
* `rqPollOnce_visits_iff` — exactly when that is every filled descriptor.
-/

namespace EchoServer.Nic

open EchoServer.Lib

/-- The receive ring: `RQ_LEN`, and what `RDH` and `RDT` read. -/
structure Ring where
  len : Nat
  head : Nat
  tail : Nat
  two_le : 2 ≤ len
  head_lt : head < len
  tail_lt : tail < len

namespace Ring

/-- `first_prepared`. No sum in this function exceeds the length, an `int`. -/
def firstPrepared (r : Ring) : Nat := (r.tail + 1) % r.len

/-- The loop of `rq_poll_once`; it emits the index of each descriptor it visits. -/
def rqPollOnce (r : Ring) : Loop Nat Nat where
  round i := if i < r.head then .next i ((i + 1) % r.len) else .done

/-- The number of filled descriptors, `(head - tail - 1) mod len`. -/
def fill (r : Ring) : Nat := (r.head + (r.len - (r.tail + 1))) % r.len

/-- The filled descriptors, in the order of the ring. -/
def filled (r : Ring) : List Nat := (List.range r.fill).map fun k => (r.tail + 1 + k) % r.len

variable {r : Ring}

theorem firstPrepared_lt (r : Ring) : r.firstPrepared < r.len :=
  Nat.mod_lt _ (by have := r.two_le; omega)

/-- Below the head the loop steps to the next descriptor: the ring does not wrap there. -/
theorem rounds_rqPollOnce {f n : Nat} (h : f + n ≤ r.head) :
    r.rqPollOnce.rounds n f = some (List.range' f n, f + n) := by
  induction n with
  | zero => rfl
  | succ n ih =>
    have hlt : f + n < r.head := by omega
    have hround : r.rqPollOnce.round (f + n) = .next (f + n) (f + (n + 1)) := by
      have hhead := r.head_lt
      simp only [rqPollOnce, if_pos hlt]
      rw [Nat.mod_eq_of_lt (by omega), Nat.add_assoc]
    rw [Loop.rounds_succ (ih (by omega)) hround, List.range'_concat, Nat.one_mul]

/-- **What the loop does**: it ends, and visits the descriptors from the first prepared
one to the head. -/
theorem rqPollOnce_ends (r : Ring) :
    ∃ i, r.rqPollOnce.Ends r.firstPrepared
      (List.range' r.firstPrepared (r.head - r.firstPrepared)) i := by
  refine ⟨r.firstPrepared + (r.head - r.firstPrepared), ⟨r.head - r.firstPrepared, ?_⟩,
    if_neg (by omega)⟩
  by_cases h : r.firstPrepared ≤ r.head
  · exact rounds_rqPollOnce (by omega)
  · -- the first prepared descriptor is behind the head: no round at all
    rw [Nat.sub_eq_zero_of_le (by omega)]
    rfl

/-- The distance from the first prepared descriptor to the head, going round. -/
theorem fill_eq (r : Ring) :
    r.fill = if r.firstPrepared ≤ r.head then r.head - r.firstPrepared
      else r.head + r.len - r.firstPrepared := by
  have hhead := r.head_lt
  have htail := r.tail_lt
  unfold fill firstPrepared
  by_cases hlast : r.tail + 1 = r.len
  · -- the tail is the last slot, so the first prepared one is slot 0
    rw [hlast, Nat.mod_self, if_pos (Nat.zero_le _), Nat.sub_self, Nat.add_zero,
      Nat.mod_eq_of_lt hhead, Nat.sub_zero]
  · rw [Nat.mod_eq_of_lt (a := r.tail + 1) (by omega)]
    split
    · rw [show r.head + (r.len - (r.tail + 1)) = r.head - (r.tail + 1) + r.len by omega,
        Nat.add_mod_right, Nat.mod_eq_of_lt (by omega)]
    · rw [Nat.mod_eq_of_lt (by omega)]
      omega

theorem length_filled (r : Ring) : r.filled.length = r.fill := by
  rw [filled, List.length_map, List.length_range]

/-- As long as the filled part does not wrap, it is what the loop visits. -/
theorem filled_eq (h : r.firstPrepared ≤ r.head) :
    r.filled = List.range' r.firstPrepared (r.head - r.firstPrepared) := by
  have hhead := r.head_lt
  have hfill : r.fill = r.head - r.firstPrepared := by rw [fill_eq, if_pos h]
  rw [filled, hfill, List.range'_eq_map_range]
  refine List.map_congr_left fun k hk => ?_
  have hk : k < r.head - r.firstPrepared := List.mem_range.mp hk
  rw [Nat.add_mod, ← firstPrepared, Nat.mod_eq_of_lt (a := k) (by omega),
    Nat.mod_eq_of_lt (by omega)]

/-- **Exactly when every filled descriptor is visited**: when the first prepared one is not
behind the head. It is behind the head when the filled part goes on at slot 0, and also when
it ends with the last slot and the head is at slot 0. -/
theorem rqPollOnce_visits_iff (r : Ring) :
    (∃ i, r.rqPollOnce.Ends r.firstPrepared r.filled i) ↔ (r.tail + 1) % r.len ≤ r.head := by
  obtain ⟨i, hends⟩ := r.rqPollOnce_ends
  constructor
  · rintro ⟨j, hfilled⟩
    -- compare lengths: a wrapped part is not empty, and the loop visits nothing
    have hlen := congrArg List.length (hfilled.unique hends).1
    rw [length_filled, List.length_range', fill_eq] at hlen
    by_contra hwrap
    have hlt := r.firstPrepared_lt
    change ¬ r.firstPrepared ≤ r.head at hwrap
    rw [if_neg hwrap] at hlen
    omega
  · intro h
    exact ⟨i, by rwa [filled_eq h]⟩

/-- `RQ_LEN` slots, filled from the last one round to the first one. -/
def wrapped : Ring := ⟨128, 1, 126, by decide, by decide, by decide⟩

theorem rqPollOnce_skips :
    wrapped.filled = [127, 0] ∧
      ¬ ∃ i, wrapped.rqPollOnce.Ends wrapped.firstPrepared wrapped.filled i := by
  refine ⟨by decide, ?_⟩
  rintro ⟨i, hends⟩
  have hnone : wrapped.rqPollOnce.Ends wrapped.firstPrepared [] 127 := ⟨⟨0, rfl⟩, rfl⟩
  exact absurd (hends.unique hnone).1 (by decide)

end Ring

end EchoServer.Nic
