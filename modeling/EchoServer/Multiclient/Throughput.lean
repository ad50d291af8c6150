import EchoServer.Bench.Total
import EchoServer.Multiclient.Model
import Mathlib.Algebra.BigOperators.Fin
import Mathlib.Tactic.Ring

/-!
# driver.py, multiclient.c, client.c, client.go — how accurate the throughput is

A thread's operations per second are rounded to the nearest number, in words of 64 bits;
`bench` adds up those of its threads, and the driver those of the processes. In the range
of measurements of a benchmark none of it wraps, and only the roundings are lost.

What is assumed of a measurement (`Measured`):

* the thread has run for at least a nanosecond, and for no more than some 25 years;
* it has made at most one operation for every nanosecond, and no more than `18 * 10^9`, so
  that their product with `10^9` has 64 bits.

There are at most `2^32` threads in all processes together.

Main results:

* `Measured.exact` — a thread's throughput is its rounded quotient;
* `throughput_accurate` — the overall throughput is at most one half for every thread away
  from the exact one.
-/

namespace EchoServer.Multiclient

open EchoServer.Lib EchoServer.Bench

-- ---------------------------------------------------------------------------
-- One thread
-- ---------------------------------------------------------------------------

/-- What a thread may measure: less than 26 years, at most 18 billion operations, and each
of them takes at least a nanosecond. -/
structure Measured (numOps runtime : UInt64) : Prop where
  pos : 0 < runtime.toNat
  runtime_le : runtime.toNat ≤ 8 * 10 ^ 17
  numOps_le : numOps.toNat ≤ 18 * 10 ^ 9
  numOps_le_runtime : numOps.toNat ≤ runtime.toNat

instance (numOps runtime : UInt64) : Decidable (Measured numOps runtime) :=
  decidable_of_iff (0 < runtime.toNat ∧ runtime.toNat ≤ 8 * 10 ^ 17 ∧ numOps.toNat ≤ 18 * 10 ^ 9 ∧
    numOps.toNat ≤ runtime.toNat)
    ⟨fun h => ⟨h.1, h.2.1, h.2.2.1, h.2.2.2⟩, fun h => ⟨h.pos, h.runtime_le, h.numOps_le, h.numOps_le_runtime⟩⟩

/-- No step of the division wraps. -/
structure Exact (numOps runtime : UInt64) : Prop where
  scaled : (numOps * 1000000000).toNat = numOps.toNat * 10 ^ 9
  dividend : (numOps * 1000000000 + runtime / 2).toNat =
    numOps.toNat * 10 ^ 9 + runtime.toNat / 2
  quotient : ((numOps * 1000000000 + runtime / 2) / runtime).toNat =
    roundedDiv (numOps.toNat * 10 ^ 9) runtime.toNat

section
variable {numOps runtime : UInt64}

theorem Measured.exact (h : Measured numOps runtime) : Exact numOps runtime := by
  obtain ⟨-, hruntime, hnumOps, -⟩ := h
  have hbillion : (1000000000 : UInt64).toNat = 1000000000 := rfl
  have htwo : (2 : UInt64).toNat = 2 := rfl
  have hscaled : (numOps * 1000000000).toNat = numOps.toNat * 10 ^ 9 := by
    rw [UInt64.toNat_mul, hbillion]
    exact Nat.mod_eq_of_lt (by omega)
  have hdividend : (numOps * 1000000000 + runtime / 2).toNat =
      numOps.toNat * 10 ^ 9 + runtime.toNat / 2 := by
    rw [UInt64.toNat_add, hscaled, UInt64.toNat_div, htwo, Nat.mod_eq_of_lt (by omega)]
  exact ⟨hscaled, hdividend, by rw [UInt64.toNat_div, hdividend, roundedDiv]⟩

/-- No thread does more than an operation in a nanosecond. -/
theorem Measured.quotient_le (h : Measured numOps runtime) :
    roundedDiv (numOps.toNat * 10 ^ 9) runtime.toNat ≤ 10 ^ 9 := by
  obtain ⟨hpos, -, -, hle⟩ := h
  refine Nat.lt_succ_iff.mp ((Nat.div_lt_iff_lt_mul hpos).mpr ?_)
  omega

end

-- ---------------------------------------------------------------------------
-- The processes
-- ---------------------------------------------------------------------------

variable {n N : Nat}

/-- What a process with these measurements reports. -/
def reported (args : Fin N → ClientThreadArgs) : UInt64 :=
  wrapSum (List.ofFn fun i => (args i).throughput)

section
variable {args : Fin N → ClientThreadArgs}

/-- The total is never more than so many billions as there are threads. -/
theorem sum_take_le (hargs : ∀ i, Measured (args i).numOps (args i).runtime) (k : Nat) :
    (((List.ofFn fun i => (args i).throughput).take k).map UInt64.toNat).sum ≤ N * 10 ^ 9 := by
  have hall : ∀ x ∈ ((List.ofFn fun i => (args i).throughput).take k).map UInt64.toNat,
      x ≤ 10 ^ 9 := by
    intro x hx
    obtain ⟨v, hv, rfl⟩ := List.mem_map.mp hx
    obtain ⟨i, rfl⟩ := (List.mem_ofFn' _ _).mp (List.mem_of_mem_take hv)
    exact (hargs i).exact.quotient.trans_le (hargs i).quotient_le
  refine (List.sum_le_card_nsmul _ _ hall).trans ?_
  rw [nsmul_eq_mul, Nat.cast_id]
  refine Nat.mul_le_mul_right _ ?_
  rw [List.length_map, List.length_take, List.length_ofFn]
  exact Nat.min_le_right _ _

theorem toNat_reported (hargs : ∀ i, Measured (args i).numOps (args i).runtime)
    (hN : N ≤ 2 ^ 32) : (reported args).toNat ≤ N * 10 ^ 9 ∧ (reported args).toNat =
      ∑ i, roundedDiv ((args i).numOps.toNat * 10 ^ 9) (args i).runtime.toNat := by
  have hsum := sum_take_le hargs N
  rw [List.take_of_length_le (List.length_ofFn).le] at hsum
  rw [reported, toNat_wrapSum (by omega)]
  refine ⟨hsum, ?_⟩
  rw [List.map_ofFn, List.sum_ofFn]
  exact Finset.sum_congr rfl fun i _ => (hargs i).exact.quotient

/-- What a process reports is at most one half for every thread away from the exact sum. -/
theorem abs_reported_sub_le (hargs : ∀ i, Measured (args i).numOps (args i).runtime)
    (hN : N ≤ 2 ^ 32) : |((reported args).toNat : ℚ) -
      ∑ i, ((args i).numOps.toNat * 10 ^ 9 : ℚ) / (args i).runtime.toNat| ≤ N * (1 / 2) := by
  have hround := abs_sum_sub_le Finset.univ fun (i : Fin N) _ =>
    abs_rounded_sub_le ((args i).numOps.toNat * 10 ^ 9) (hargs i).pos
  rw [Finset.card_univ, Fintype.card_fin] at hround
  rw [(toNat_reported hargs hN).2]
  push_cast at hround ⊢
  exact hround

/-- The number in a report of less than `2^63` is not negative. -/
theorem report_eq {v : UInt64} (hv : v.toNat < 2 ^ 63) :
    report v = utf8 (' ' :: decimal (v.toNat : Int)) := by
  have hnat : v.toBitVec.toInt = (v.toNat : Int) :=
    BitVec.toInt_eq_toNat_of_lt (by show 2 * v.toNat < 2 ^ 64; omega)
  rw [report, hnat]

end

/-- **The overall throughput is accurate.** For every number of processes and of threads
and all measurements in range: no step of a thread's division wraps, nor does any round of
the summation; whichever program made them, in whatever order its threads ran, a process
comes to the sum; and what the driver makes of the reports, in whatever order they came, is
at most one half for every thread away from the exact sum. -/
theorem throughput_accurate (n N : Nat) (hsize : n * N ≤ 2 ^ 32)
    (args : Fin n → Fin N → ClientThreadArgs)
    (hargs : ∀ p i, Measured (args p i).numOps (args p i).runtime) :
    (∀ p i, Exact (args p i).numOps (args p i).runtime) ∧
    (∀ (p : Fin n) (k : Nat),
      (wrapSum ((List.ofFn fun i => (args p i).throughput).take k)).toNat =
        (((List.ofFn fun i => (args p i).throughput).take k).map UInt64.toNat).sum) ∧
    (∀ (p : Fin n) (clock : Nat) (numOps throughput : UInt64),
      (∀ (stack : Timespec) (s : Bench.State N),
        (Bench.machine N).Reachable (Bench.initial N clock stack) s →
        (∀ i, (s.threads i).args = args p i) → s.bench = .aggregate N numOps throughput →
          throughput = reported (args p)) ∧
      ∀ s : GoBench.State N, (GoBench.machine N).Reachable (GoBench.initial N clock) s →
        (∀ i, (s.threads i).args = ⟨(args p i).numOps, (args p i).runtime⟩) →
        s.bench = .aggregate N numOps throughput → throughput = reported (args p)) ∧
    ∃ z : Int, (∀ (r : Store Key) (ps : List (Fin n)), ps.Perm (List.finRange n) →
        r .results = some (.string (ps.flatMap fun p => report (reported (args p)))) →
        getThroughput r = some z) ∧
      |(z : ℚ) - ∑ p, ∑ i, ((args p i).numOps.toNat * 10 ^ 9 : ℚ) / (args p i).runtime.toNat| ≤
        n * N / 2 := by
  have hN : ∀ _ : Fin n, N ≤ 2 ^ 32 := fun p =>
    Nat.le_trans (Nat.le_mul_of_pos_left N p.pos) hsize
  refine ⟨fun p i => (hargs p i).exact, fun p k => ?_, fun p clock numOps throughput => ⟨?_, ?_⟩,
    ∑ p, ((reported (args p)).toNat : Int), fun r ps hperm hr => ?_, ?_⟩
  · have hsum := sum_take_le (hargs p) k
    have hp := hN p
    exact toNat_wrapSum (by omega)
  · intro stack s hs hsame hbench
    rw [Bench.throughput_of_aggregate hs hbench, reported]
    simp only [hsame]
  · intro s hs hsame hbench
    rw [GoBench.throughput_of_aggregate hs hbench, reported]
    simp only [hsame]
    rfl
  · -- the reports are read back, and their order does not matter
    have hlt : ∀ p, (reported (args p)).toNat < 2 ^ 63 := fun p => by
      have hle := (toNat_reported (hargs p) (hN p)).1
      have hp := hN p
      omega
    have htext : (ps.flatMap fun p => report (reported (args p))) =
        utf8 ((ps.map fun p => ((reported (args p)).toNat : Int)).flatMap fun z => ' ' :: decimal z) := by
      rw [List.flatMap_map, utf8, List.flatMap_assoc]
      exact List.flatMap_congr fun p _ => report_eq (hlt p)
    have hprint : ∀ z ∈ ps.map fun p => ((reported (args p)).toNat : Int), Printable z := by
      intro z hz
      obtain ⟨p, -, rfl⟩ := List.mem_map.mp hz
      have hp := hlt p
      exact printable_of_long (by omega)
    rw [getThroughput, Store.get, hr]
    show sumBytes _ = _
    rw [htext, sumBytes_flatMap hprint, Fin.sum_univ_def]
    exact congrArg some (hperm.map _).sum_eq
  · have hsum := abs_sum_sub_le Finset.univ fun (p : Fin n) _ =>
      abs_reported_sub_le (hargs p) (hN p)
    rw [Finset.card_univ, Fintype.card_fin] at hsum
    push_cast
    calc _ ≤ (n : ℚ) * (N * (1 / 2)) := hsum
      _ = n * N / 2 := by ring

/-- What the threads of two processes have measured: each of the one's has made an operation
in three nanoseconds, each of the other's two in seven. -/
def measurements (p _i : Fin 2) : ClientThreadArgs := if p.val = 0 then ⟨1, 3⟩ else ⟨2, 7⟩

/-- The process with the second place reports first. -/
theorem throughput_accurate_twoProcesses :
    ∃ z : Int, getThroughput (fun _ =>
        some (.string (report (reported (measurements 1)) ++ report (reported (measurements 0))))) =
          some z ∧
      |(z : ℚ) - (2 * (10 ^ 9 / 3) + 2 * (2 * 10 ^ 9 / 7))| ≤ 2 := by
  obtain ⟨-, -, -, z, hread, herror⟩ := throughput_accurate 2 2 (by decide) measurements
    (by decide)
  refine ⟨z, hread _ [1, 0] (by decide) ?_, ?_⟩
  · simp only [List.flatMap_cons, List.flatMap_nil, List.append_nil]
  · have hfirst (i : Fin 2) : measurements 0 i = ⟨1, 3⟩ := rfl
    have hsecond (i : Fin 2) : measurements 1 i = ⟨2, 7⟩ := rfl
    have h1 : (1 : UInt64).toNat = 1 := rfl
    have h2 : (2 : UInt64).toNat = 2 := rfl
    have h3 : (3 : UInt64).toNat = 3 := rfl
    have h7 : (7 : UInt64).toNat = 7 := rfl
    simp only [Fin.sum_univ_two, hfirst, hsecond, h1, h2, h3, h7] at herror
    norm_num at herror ⊢
    exact herror

end EchoServer.Multiclient
