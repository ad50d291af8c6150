import EchoServer.Common
import EchoServer.Lib.Loop

/-!
# client.c, multiclient.c — the message of an operation

Before it sends, `one_operation` runs its generator over `buf`, an array of 64-bit
words. The loop counts bytes, `i` from 0 to `msg_size` in steps of 8, and stores to
word `i`.

* `rounds_fill` — what the loop does in its first rounds;
* `prepared_iff` — exactly when the bytes that are sent are the next states of the
  generator.
-/

namespace EchoServer.Bench

open EchoServer.Lib

/-- `uint64_t buf[BUF_SIZE/8]`. -/
abbrev Words := Vector UInt64 128

/-- The loop of `one_operation`: its counter, `rng_state` and `buf`. -/
structure Fill where
  i : Nat
  rngState : UInt64
  buf : Words

/-- The `for` loop of `one_operation`; it emits the index of the word it stores to. -/
def fillBuf (msgSize : Nat) : Loop Fill Nat where
  round x :=
    if x.i < msgSize then
      let rngState := x.rngState * 37 + 1
      if x.i < 128 then .next x.i ⟨x.i + 8, rngState, x.buf.setIfInBounds x.i rngState⟩
      -- the store is outside the array
      else .fault
    else .done

-- ---------------------------------------------------------------------------
-- What belongs in the message
-- ---------------------------------------------------------------------------

/-- The generator after `k` steps. -/
def rng (s : UInt64) : Nat → UInt64
  | 0 => s
  | k + 1 => rng s k * 37 + 1

/-- The 8-byte words that a message of `n` bytes reaches into. -/
def words (n : Nat) : Nat := (n + 7) / 8

/-- The loop stores inside `buf` only, and leaves the next states of the generator in
the words of the message and every other word as it was. -/
def Prepared (msgSize : Nat) (s : UInt64) (buf : Words) : Prop :=
  ∃ stores x, (fillBuf msgSize).Ends ⟨0, s, buf⟩ stores x ∧
    ∀ k (h : k < 128), x.buf[k] = if k < words msgSize then rng s (k + 1) else buf[k]

-- ---------------------------------------------------------------------------
-- What the loop does
-- ---------------------------------------------------------------------------

/-- `buf` after `j` rounds. -/
def stored (s : UInt64) (buf : Words) : Nat → Words
  | 0 => buf
  | j + 1 => (stored s buf j).setIfInBounds (8 * j) (rng s (j + 1))

section
variable {n j : Nat} {s : UInt64} {buf : Words}

/-- Every eighth word was stored to, with consecutive states. -/
theorem getElem_stored (hj : 8 * j ≤ 128 + 7) {k : Nat} (hk : k < 128) :
    (stored s buf j)[k] = if k % 8 = 0 ∧ k / 8 < j then rng s (k / 8 + 1) else buf[k] := by
  induction j with
  | zero => rw [if_neg (by omega)]; rfl
  | succ j ih =>
    simp only [stored]
    rw [Vector.getElem_setIfInBounds hk, ih (by omega)]
    by_cases hkj : 8 * j = k
    · -- the word of this round
      subst hkj
      rw [if_pos rfl, if_pos (by omega), Nat.mul_div_cancel_left j (by decide)]
    · rw [if_neg hkj]
      refine if_congr ?_ rfl rfl
      omega

/-- The loop, as long as its stores are inside `buf`. -/
theorem rounds_fill (hn : 8 * j < n + 8) (hj : 8 * j < 128 + 8) :
    (fillBuf n).rounds j ⟨0, s, buf⟩ =
      some ((List.range j).map (8 * ·), ⟨8 * j, rng s j, stored s buf j⟩) := by
  induction j with
  | zero => rfl
  | succ j ih =>
    have hround : (fillBuf n).round ⟨8 * j, rng s j, stored s buf j⟩ =
        .next (8 * j) ⟨8 * (j + 1), rng s (j + 1), stored s buf (j + 1)⟩ := by
      have hlt : 8 * j < 128 := by omega
      simp only [fillBuf, if_pos (show 8 * j < n by omega), if_pos hlt]
      rfl
    rw [Loop.rounds_succ (ih (by omega) (by omega)) hround, List.range_succ, List.map_append]
    rfl

theorem fill_ends (hn : n ≤ 128) :
    (fillBuf n).Ends ⟨0, s, buf⟩ ((List.range (words n)).map (8 * ·))
      ⟨8 * words n, rng s (words n), stored s buf (words n)⟩ := by
  unfold words
  refine ⟨⟨_, rounds_fill (by omega) (by omega)⟩, ?_⟩
  simp only [fillBuf]
  exact if_neg (by omega)

/-- A message of more than 128 bytes makes the loop store behind `buf`. -/
theorem fill_faults (hn : 128 < n) :
    (fillBuf n).Faults ⟨0, s, buf⟩ ((List.range 16).map (8 * ·)) := by
  refine ⟨16, _, rounds_fill (by omega) (by omega), ?_⟩
  simp only [fillBuf, if_pos hn]
  rfl

/-- The states of the generator are even and odd by turns. -/
theorem rng_parity (s : UInt64) (k : Nat) : (rng s k).toNat % 2 = (s.toNat + k) % 2 := by
  induction k with
  | zero => rfl
  | succ k ih =>
    have h37 : (37 : UInt64).toNat = 37 := rfl
    have h1 : (1 : UInt64).toNat = 1 := rfl
    rw [rng, UInt64.toNat_add, UInt64.toNat_mul, h37, h1]
    omega

end

-- ---------------------------------------------------------------------------
-- When the message is right
-- ---------------------------------------------------------------------------

section
variable {n : Nat} {s : UInt64} {buf : Words}

/-- The loop always leaves `buf` in the same state, if it does not store outside. -/
theorem prepared_iff_stored (hn : n ≤ 128) :
    Prepared n s buf ↔ ∀ k (h : k < 128), (stored s buf (words n))[k] =
      if k < words n then rng s (k + 1) else buf[k] := by
  constructor
  · rintro ⟨stores, x, hends, hbuf⟩
    obtain ⟨-, rfl⟩ := hends.unique (fill_ends hn)
    exact hbuf
  · exact fun hbuf => ⟨_, _, fill_ends hn, hbuf⟩

theorem Prepared.le_128 (h : Prepared n s buf) : n ≤ 128 := by
  obtain ⟨stores, x, hends, -⟩ := h
  by_contra hbig
  exact hends.not_faults (fill_faults (Nat.not_le.mp hbig))

/-- Word 8 holds the second state of the generator, and never the ninth. -/
theorem Prepared.le_64 (h : Prepared n s buf) : n ≤ 64 := by
  have hfit := h.le_128
  by_contra hbig
  have hwords : 8 < words n ∧ words n ≤ 16 := by
    unfold words
    omega
  have h8 := (prepared_iff_stored hfit).mp h 8 (by decide)
  rw [getElem_stored (by omega) (by decide), if_pos (by omega), if_pos hwords.1] at h8
  have hparity := rng_parity s (8 + 1)
  rw [← h8, rng_parity] at hparity
  omega

end

/-- **Exactly when the message is prepared.** Two words or more are right only if `buf`
already held what belongs there. -/
theorem prepared_iff (m : MsgSize) (s : UInt64) (buf : Words) :
    Prepared m.val s buf ↔
      m.val ≤ 8 ∨ m.val ≤ 64 ∧ ∀ k (h : 8 * k < 128), 0 < k → k < words m.val →
        buf[k] = rng s (k + 1) ∧ buf[8 * k] = rng s (k + 1) := by
  constructor
  · intro h
    have hsmall := h.le_64
    have hwords : words m.val ≤ 8 := by
      unfold words
      omega
    have hbuf := (prepared_iff_stored (by omega)).mp h
    refine Or.inr ⟨hsmall, fun k hk hpos hlt => ⟨?_, ?_⟩⟩
    · -- word k is not stored to, so it must hold its state already
      have hword := hbuf k (by omega)
      rwa [getElem_stored (by omega) (by omega), if_neg (by omega), if_pos hlt] at hword
    · -- word 8k is outside the message, so the store to it must not change it
      have hword := hbuf (8 * k) hk
      rw [getElem_stored (by omega) hk, if_pos (by omega), if_neg (by omega)] at hword
      rw [← hword, Nat.mul_div_cancel_left k (by decide)]
  · intro h
    have hpos := m.pos
    have hwords : 0 < words m.val ∧ words m.val ≤ 8 := by
      unfold words
      omega
    have hheld : ∀ k (h : 8 * k < 128), 0 < k → k < words m.val →
        buf[k] = rng s (k + 1) ∧ buf[8 * k] = rng s (k + 1) := by
      rcases h with hone | ⟨-, hheld⟩
      · intro k _ hk hlt
        unfold words at hlt
        omega
      · exact hheld
    refine (prepared_iff_stored (by omega)).mpr fun k hk => ?_
    rw [getElem_stored (by omega) hk]
    by_cases hmessage : k < words m.val
    · rw [if_pos hmessage]
      by_cases hzero : k = 0
      · subst hzero
        exact if_pos ⟨rfl, hwords.1⟩
      · rw [if_neg (by omega)]
        exact (hheld k (by omega) (by omega) hmessage).1
    · rw [if_neg hmessage]
      split
      · next hstored =>
        -- k is a multiple of 8 that the loop stores to
        obtain ⟨j, rfl⟩ : ∃ j, k = 8 * j := ⟨k / 8, by omega⟩
        rw [Nat.mul_div_cancel_left j (by decide)] at hstored ⊢
        exact (hheld j hk (by omega) hstored.2).2.symm
      · rfl

/-- The first operation of a client: the second word of a 16-byte message stays zero, and
a 1024-byte message is stored to behind `buf`. -/
theorem not_prepared_first :
    ¬ Prepared 16 1 (Vector.replicate 128 0) ∧
      (fillBuf 1024).Faults ⟨0, 1, Vector.replicate 128 0⟩ ((List.range 16).map (8 * ·)) := by
  refine ⟨fun h => ?_, fill_faults (by decide)⟩
  have hword := (prepared_iff_stored (by decide)).mp h 1 (by decide)
  rw [getElem_stored (by decide) (by decide)] at hword
  revert hword
  decide

end EchoServer.Bench
