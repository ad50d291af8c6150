import EchoServer.Bench.Barrier

/-!
# client.c, multiclient.c — the runtime that throughput is divided by

A thread that is inside `one_operation` while `bench` posts both signals takes both
tokens one after the other. Its two readings of the clock then have nothing between
them but the calls themselves, and the clock need not have moved.

The clock never goes back; nothing else is assumed of it. Between the two readings of a
thread it may stand still, as a coarse clock does, or move by any number of nanoseconds; a
multiple of `2^64` of them is no movement in `args->runtime`.

Main results:

* `elapsed_eq_zero_iff` — when `args->runtime` is zero;
* `runtime_iff` — `bench` divides by no zero exactly when the clock has moved between
  the two readings of every thread.
-/

namespace EchoServer.Bench

open EchoServer.Lib

variable {N : Nat} {s u : State N} {i : Fin N} {t t' : Thread} {clock : Nat} {l : Label N}

-- ---------------------------------------------------------------------------
-- The difference of two readings
-- ---------------------------------------------------------------------------

theorem ofInt_eq_zero_iff (x : Int) : UInt64.ofInt x = 0 ↔ (2 ^ 64 : Int) ∣ x := by
  have hlt : (x % 2 ^ 64).toNat < UInt64.size := by
    show _ < 2 ^ 64
    omega
  rw [UInt64.ofInt, ← UInt64.toNat_inj, UInt64.toNat_ofNat_of_lt' hlt]
  show (x % 2 ^ 64).toNat = 0 ↔ _
  omega

/-- The difference of two readings is zero in 64 bits exactly when the clock has moved by a
multiple of `2^64` nanoseconds: the seconds and the nanoseconds that are subtracted one by
one add up to the difference as a whole. -/
theorem elapsed_eq_zero_iff (a b : Nat) :
    elapsed (clockGettime a) (clockGettime b) = 0 ↔ (2 ^ 64 : Int) ∣ b - a := by
  have hdiff : ((clockGettime b).sec - (clockGettime a).sec) * 1000000000 + (clockGettime b).nsec -
      (clockGettime a).nsec = b - a := by
    have ha := toNanos_clockGettime a
    have hb := toNanos_clockGettime b
    unfold Timespec.toNanos at ha hb
    omega
  rw [elapsed, hdiff, ofInt_eq_zero_iff]

theorem one_le_iff (x : UInt64) : 1 ≤ x ↔ x ≠ 0 := by
  rw [UInt64.le_iff_toNat_le, ne_eq, ← UInt64.toNat_inj]
  show 1 ≤ x.toNat ↔ ¬ x.toNat = 0
  omega

-- ---------------------------------------------------------------------------
-- One thread's clock
-- ---------------------------------------------------------------------------

/-- What a thread's variables hold of its two readings. -/
structure Thread.Timed (clock : Nat) (t : Thread) : Prop where
  start : 5 ≤ t.pc.rank → ∃ a ≤ clock, t.start = clockGettime a
  stop : 8 ≤ t.pc.rank → ∃ a b, t.start = clockGettime a ∧ t.stop = clockGettime b
  runtime : 9 ≤ t.pc.rank → t.args.runtime = elapsed t.start t.stop

/-- Once both readings are done, the runtime is not zero. -/
def Thread.Positive (t : Thread) : Prop := 8 ≤ t.pc.rank → elapsed t.start t.stop ≠ 0

/-- A thread's step changes what its readings say only when it reads the clock, or stores its
runtime. -/
theorem Thread.Timed.step (h : t.Timed clock) (hstep : t.Step clock t') : t'.Timed clock := by
  obtain ⟨hstart, hstop, hruntime⟩ := h
  cases hstep with
  | readStart hpc =>
    refine ⟨fun _ => ⟨clock, Nat.le_refl _, rfl⟩, fun hle => ?_, fun hle => ?_⟩
    · exact absurd hle (by show ¬ 8 ≤ 5; decide)
    · exact absurd hle (by show ¬ 9 ≤ 5; decide)
  | readEnd hpc =>
    refine ⟨fun _ => hstart (by rw [hpc]; decide), fun _ => ?_, fun hle => ?_⟩
    · obtain ⟨a, -, ha⟩ := hstart (by rw [hpc]; decide)
      exact ⟨a, clock, ha, rfl⟩
    · exact absurd hle (by show ¬ 9 ≤ 8; decide)
  | storeRuntime hpc =>
    exact ⟨fun _ => hstart (by rw [hpc]; decide), fun _ => hstop (by rw [hpc]; decide), fun _ => rfl⟩
  | runForever hpc =>
    exact ⟨hstart, hstop, hruntime⟩
  | firstOperation hpc | postStarted hpc | measure hpc | noMeasure hpc | warmUp hpc | resetOps hpc
  | report hpc | noReport hpc | operate hpc | countOp hpc | postReported hpc =>
    rw [hpc] at hstart hstop hruntime
    constructor <;> simp_all [Thread.oneOperation, Pc.rank]

theorem Thread.Timed.tick (h : t.Timed clock) (d : Nat) : t.Timed (clock + d) := by
  refine ⟨fun hle => ?_, h.stop, h.runtime⟩
  obtain ⟨a, ha, hstart⟩ := h.start hle
  exact ⟨a, Nat.le_add_right_of_le ha, hstart⟩

/-- Only the second reading decides whether the runtime will be zero: it is when the clock has
not moved since the first. -/
theorem Thread.Timed.positive_step (h : t.Timed clock) (hstep : t.Step clock t') :
    t'.Positive ↔
      t.Positive ∧ (t.pc = .readEnd → ¬ (2 ^ 64 : Int) ∣ clock - t.start.toNanos) := by
  unfold Thread.Positive
  cases hstep with
  | readEnd hpc =>
    obtain ⟨a, -, ha⟩ := h.start (by rw [hpc]; decide)
    have hzero := elapsed_eq_zero_iff a clock
    have hearly : ¬ 8 ≤ Pc.readEnd.rank := by decide
    rw [hpc, ha, toNanos_clockGettime, ← hzero]
    exact ⟨fun h => ⟨fun hle => absurd hle hearly, fun _ => h (Nat.le_refl 8)⟩, fun h _ => h.2 rfl⟩
  | runForever hpc => exact (and_iff_left fun h => by rw [hpc] at h; cases h).symm
  | firstOperation hpc | postStarted hpc | measure hpc | noMeasure hpc | warmUp hpc | readStart hpc
  | resetOps hpc | report hpc | noReport hpc | operate hpc | countOp hpc | storeRuntime hpc
  | postReported hpc =>
    rw [hpc]
    simp [Pc.rank, Thread.oneOperation]

-- ---------------------------------------------------------------------------
-- All of them
-- ---------------------------------------------------------------------------

/-- The clock has moved since the thread's first reading when it takes the second. -/
def ClockMoved (s : State N) : Label N → Prop
  | .client i => (s.threads i).pc = .readEnd →
      ¬ (2 ^ 64 : Int) ∣ s.clock - (s.threads i).start.toNanos
  | _ => True

instance (s : State N) : (l : Label N) → Decidable (ClockMoved s l)
  | .client i => inferInstanceAs (Decidable ((s.threads i).pc = .readEnd →
      ¬ (2 ^ 64 : Int) ∣ s.clock - (s.threads i).start.toNanos))
  | .bench | .tick _ | .fail => isTrue trivial

def Timed (s : State N) : Prop := ∀ i, (s.threads i).Timed s.clock

def Positive (s : State N) : Prop := ∀ i, (s.threads i).Positive

/-- `bench` changes a thread only by creating it. -/
theorem bench_threads (h : bench s = some u) : u.clock = s.clock ∧ ∀ j, u.threads j = s.threads j ∨
    s.bench = .create j.val ∧ u.threads j = { s.threads j with pc := .firstOperation } := by
  cases bench_cases h with
  | create hk hbench =>
    refine ⟨rfl, fun j => ?_⟩
    by_cases heq : j = ⟨_, hk⟩
    · subst heq
      exact Or.inr ⟨hbench, Function.update_self ..⟩
    · exact Or.inl (Function.update_of_ne heq ..)
  | waitStarted | postMeasure | postReport | waitReported | next | add | divide | print =>
    exact ⟨rfl, fun _ => Or.inl rfl⟩

theorem timed_initial (N clock : Nat) (stack : Timespec) : Timed (initial N clock stack) :=
  fun _ => ⟨fun h => absurd h (Nat.not_succ_le_zero 4), fun h => absurd h (Nat.not_succ_le_zero 7),
    fun h => absurd h (Nat.not_succ_le_zero 8)⟩

/-- The readings of all threads, and what they store, over every step; the invariant of the
barrier says that a thread has not stored anything before it has read twice. -/
theorem timed_step : (machine N).Preserves fun s => Inv s ∧ Timed s := by
  refine inv_step.and fun s l u h _ htimed hstep => ?_
  obtain ⟨-, hstep⟩ := Option.ite_none_left_eq_some.mp hstep
  cases l with
  | client i =>
    obtain ⟨t, ht, hmoved⟩ := client_cases hstep
    rw [Timed, hmoved.threads, hmoved.clock]
    exact forall_update htimed ((htimed i).step ht)
  | bench =>
    obtain ⟨hclock, hthreads⟩ := bench_threads hstep
    intro j
    rw [hclock]
    rcases hthreads j with hsame | ⟨-, hcreated⟩
    · rw [hsame]
      exact htimed j
    · rw [hcreated]
      exact ⟨fun h => absurd h (by show ¬ 5 ≤ 1; decide), fun h => absurd h (by show ¬ 8 ≤ 1; decide),
        fun h => absurd h (by show ¬ 9 ≤ 1; decide)⟩
  | tick d =>
    cases hstep
    exact fun j => (htimed j).tick d
  | fail =>
    cases hstep
    exact htimed

/-- A step keeps all runtimes positive if and only if the clock has moved where it is read
for the second time. -/
theorem positive_step (hinv : Inv s) (htimed : Timed s) (hstep : (machine N).step s l = some u) :
    Positive u ↔ Positive s ∧ ClockMoved s l := by
  obtain ⟨-, hstep⟩ := Option.ite_none_left_eq_some.mp hstep
  cases l with
  | client i =>
    obtain ⟨t, ht, hmoved⟩ := client_cases hstep
    unfold Positive
    rw [hmoved.threads]
    exact forall_update_iff_and ((htimed i).positive_step ht)
  | bench =>
    obtain ⟨-, hthreads⟩ := bench_threads hstep
    refine Iff.trans (forall_congr' fun j => ?_) (and_iff_left trivial).symm
    rcases hthreads j with hsame | ⟨hbench, hcreated⟩
    · rw [hsame]
    · have hpc : (s.threads j).pc = .notCreated := by
        rw [hinv.created, hbench]
        exact Nat.le_refl _
      rw [hcreated]
      refine iff_of_true (fun hle => absurd hle (by show ¬ 8 ≤ 1; decide)) fun hle => ?_
      rw [hpc] at hle
      exact absurd hle (by decide)
  | tick d =>
    cases hstep
    exact (and_iff_left trivial).symm
  | fail =>
    cases hstep
    exact (and_iff_left trivial).symm

-- ---------------------------------------------------------------------------
-- The division
-- ---------------------------------------------------------------------------

/-- When `bench` aggregates, every runtime is at least 1 if and only if the clock had moved
whenever a thread read it for the second time. -/
theorem runtime_iff (N clock : Nat) (stack : Timespec) (ls : List (Label N)) (s : State N)
    (hrun : (machine N).exec (initial N clock stack) ls = some s)
    (hagg : s.bench.aggregating = true) :
    (∀ i, 1 ≤ (s.threads i).args.runtime) ↔
      (machine N).Along ClockMoved (initial N clock stack) ls := by
  have hstart : Inv (initial N clock stack) ∧ Timed (initial N clock stack) :=
    ⟨inv_initial N clock stack, timed_initial N clock stack⟩
  have hpositive : Positive (initial N clock stack) := fun _ h => absurd h (Nat.not_succ_le_zero 7)
  have hlast := Machine.last_iff_along timed_step
    (fun s l u h hstep => positive_step h.1 h.2 hstep) hstart hrun
  rw [and_iff_right hpositive] at hlast
  obtain ⟨hinv, htimed⟩ := timed_step.exec hstart hrun
  rw [← hlast]
  refine forall_congr' fun i => ?_
  have hpc := hinv.runForever hagg i
  rw [one_le_iff, (htimed i).runtime (by rw [hpc]; decide)]
  exact ⟨fun h _ => h, fun h => h (by rw [hpc]; decide)⟩

end EchoServer.Bench
