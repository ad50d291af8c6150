import EchoServer.Bench.Fill
import EchoServer.Lib.Congruential

/-!
# client.c, multiclient.c — the generator of the messages

`rng_state` goes from one operation of a thread to the next, so the words that a thread
draws are consecutive states of one generator, whatever comes back into `buf`.

* `Draws.eq_rng` — which words a thread draws;
* `generator_period` — the generator has full period.
-/

namespace EchoServer.Bench

open EchoServer.Lib

-- ---------------------------------------------------------------------------
-- The words that a thread draws
-- ---------------------------------------------------------------------------

/-- A thread that was at `x` has drawn `ws` and is at `y`. When the loop of an operation is
over, the next operation begins with what `recv` has left in `buf`. -/
inductive Draws (msgSize : Nat) (x : Fill) : List UInt64 → Fill → Prop
  | entry : Draws msgSize x [] x
  | round {ws : List UInt64} {y z : Fill} {k : Nat} : Draws msgSize x ws y →
      (fillBuf msgSize).round y = .next k z → Draws msgSize x (ws ++ [z.rngState]) z
  | operation {ws : List UInt64} {y : Fill} (buf : Words) : Draws msgSize x ws y →
      (fillBuf msgSize).round y = .done → Draws msgSize x ws ⟨0, y.rngState, buf⟩

section
variable {n : Nat} {x y z : Fill} {ws : List UInt64}

theorem rngState_of_round {k : Nat} (h : (fillBuf n).round x = .next k y) :
    y.rngState = x.rngState * 37 + 1 := by
  simp only [fillBuf] at h
  split at h
  · split at h
    · cases h
      rfl
    · cases h
  · cases h

/-- The words drawn are the next states of the generator. -/
theorem Draws.eq_rng (h : Draws n x ws y) :
    ws = (List.range ws.length).map (fun k => rng x.rngState (k + 1)) ∧
      y.rngState = rng x.rngState ws.length := by
  induction h with
  | entry => exact ⟨rfl, rfl⟩
  | round _ hround ih =>
    obtain ⟨hws, hstate⟩ := ih
    have hnext := rngState_of_round hround
    rw [hstate] at hnext
    refine ⟨?_, ?_⟩
    · rw [List.length_append, List.length_singleton, List.range_succ, List.map_append, ← hws,
        List.map_singleton, hnext]
      rfl
    · rw [hnext, List.length_append]
      rfl
  | operation buf _ _ ih => exact ih

end

-- ---------------------------------------------------------------------------
-- The period
-- ---------------------------------------------------------------------------

theorem rng_cast (s : UInt64) (k : Nat) : ((rng s k).toNat : ZMod (2 ^ 64)) =
    (congruential ((37 : ℤ) : ZMod (2 ^ 64)) ((1 : ℤ) : ZMod (2 ^ 64)))^[k] s.toNat := by
  induction k with
  | zero => rfl
  | succ k ih =>
    rw [Function.iterate_succ_apply', ← ih, rng, congruential, UInt64.toNat_add, UInt64.toNat_mul,
      ZMod.natCast_mod, Nat.cast_add, ZMod.natCast_mod, Nat.cast_mul, mul_comm]
    rfl

theorem cast_inj {s t : UInt64} :
    (s.toNat : ZMod (2 ^ 64)) = (t.toNat : ZMod (2 ^ 64)) ↔ s = t := by
  rw [ZMod.natCast_eq_natCast_iff', Nat.mod_eq_of_lt s.toNat_lt, Nat.mod_eq_of_lt t.toNat_lt,
    UInt64.toNat_inj]

theorem rng_eq_iff (s : UInt64) (k : Nat) : rng s k = s ↔ 2 ^ 64 ∣ k := by
  rw [← cast_inj, rng_cast]
  exact iterate_eq_iff (by decide) (by decide) k

theorem rng_injOn {s : UInt64} {i j : Nat} (hle : i ≤ j) (hlt : j < i + 2 ^ 64)
    (heq : rng s i = rng s j) : i = j := by
  rw [← cast_inj, rng_cast, rng_cast] at heq
  exact iterate_injOn (by decide) (by decide) hle hlt heq

/-- **The generator has full period**, whatever its state and the size of the messages. -/
theorem generator_period (m : MsgSize) :
    (∀ (s : UInt64) (k : Nat), rng s k = s ↔ 2 ^ 64 ∣ k) ∧ (∀ s : UInt64, s * 37 + 1 ≠ s) ∧
      ∀ (x y : Fill) (ws : List UInt64), Draws m.val x ws y →
        ∀ a, ((ws.drop a).take (2 ^ 64)).Nodup := by
  refine ⟨rng_eq_iff, fun s hfix => ?_, fun x y ws h a => ?_⟩
  · have hdvd : 2 ^ 64 ∣ 1 := (rng_eq_iff s 1).mp hfix
    exact absurd hdvd (by decide)
  · rw [List.Nodup, List.pairwise_iff_getElem]
    intro i j hi hj hij heq
    rw [List.length_take] at hj
    rw [List.getElem_take, List.getElem_take, List.getElem_drop, List.getElem_drop] at heq
    rw [List.getElem_of_eq h.eq_rng.1, List.getElem_of_eq h.eq_rng.1 (i := a + j)] at heq
    simp only [List.getElem_map, List.getElem_range] at heq
    have hsame := rng_injOn (by omega) (by omega) heq
    omega

/-- `buf` after the first word of the first operation. -/
def firstStored : Words := (Vector.replicate 128 0).setIfInBounds 0 38

/-- The first words of a thread whose messages are of 8 bytes, one in each operation. -/
theorem generator_period_firstWords :
    ∃ y, Draws 8 ⟨0, 1, Vector.replicate 128 0⟩ [38, 1407] y ∧ [38, (1407 : UInt64)].Nodup := by
  have hone : Draws 8 ⟨0, 1, Vector.replicate 128 0⟩ [38] ⟨8, 38, firstStored⟩ :=
    .round (z := ⟨8, 38, firstStored⟩) (k := 0) .entry rfl
  have htwo : Draws 8 ⟨0, 1, Vector.replicate 128 0⟩ [38, 1407]
      ⟨8, 1407, firstStored.setIfInBounds 0 1407⟩ :=
    .round (z := ⟨8, 1407, firstStored.setIfInBounds 0 1407⟩) (k := 0)
      (hone.operation firstStored rfl) rfl
  obtain ⟨-, -, hperiod⟩ := generator_period ⟨8, by decide, by decide⟩
  have hwords := hperiod _ _ _ htwo 0
  rw [List.drop_zero, List.take_of_length_le (by decide)] at hwords
  exact ⟨_, htwo, hwords⟩

end EchoServer.Bench
