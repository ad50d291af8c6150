import EchoServer.Bench.Runtime
import EchoServer.Go.Bench

/-!
# The three clients — dividing by a thread's runtime

* `runtimes_iff` — for all three programs, exactly when no thread's throughput is a
  division by zero;
* `divides_by_zero` — one thread, inside `one_operation` while both signals are given.
-/

namespace EchoServer.Bench

open EchoServer.Lib

/-- **Exactly when aggregation divides by no zero.** For every number of threads, every
schedule and every clock that does not go back: when `client.c`, `multiclient.c` or
`client.go` aggregates, every runtime is at least 1 if and only if, whenever a thread took
its second reading, the clock had moved since its first. In the C programs a multiple of
`2^64` nanoseconds is no movement. -/
theorem runtimes_iff (N clock : Nat) :
    (∀ (stack : Timespec) (ls : List (Label N)) (s : State N),
      (machine N).exec (initial N clock stack) ls = some s → s.bench.aggregating = true →
        ((∀ i, 1 ≤ (s.threads i).args.runtime) ↔
          (machine N).Along ClockMoved (initial N clock stack) ls)) ∧
    (∀ (ls : List (GoBench.Label N)) (s : GoBench.State N),
      (GoBench.machine N).exec (GoBench.initial N clock) ls = some s → s.bench.aggregating = true →
        ((∀ i, 1 ≤ (s.threads i).args.runtime) ↔
          (GoBench.machine N).Along GoBench.ClockMoved (GoBench.initial N clock) ls)) :=
  ⟨fun stack ls s => runtime_iff N clock stack ls s, fun ls s => GoBench.runtime_iff N clock ls s⟩

/-- Two threads, whose operations take five nanoseconds and eight. -/
theorem runtimes_iff_operationsMeasured :
    ∃ s, (machine 2).exec (initial 2 0 ⟨0, 0⟩) operationsMeasured = some s ∧
      ∀ i, 1 ≤ (s.threads i).args.runtime := by
  have hview : ((machine 2).exec (initial 2 0 ⟨0, 0⟩) operationsMeasured).map
      (fun s => s.bench.aggregating) = some true := by decide +kernel
  obtain ⟨s, hs, hagg⟩ := Option.map_eq_some_iff.mp hview
  obtain ⟨hC, -⟩ := runtimes_iff 2 0
  exact ⟨s, hs, (hC ⟨0, 0⟩ operationsMeasured s hs hagg).mpr (by decide +kernel)⟩

-- ---------------------------------------------------------------------------
-- A thread that is inside an operation
-- ---------------------------------------------------------------------------

/-- The thread of a client with one. -/
def lone : Fin 1 := .last 0

/-- `client.c`: the thread is warming up when `bench` posts both signals, and takes both
tokens before the clock moves. -/
def bothSignals : List (Label 1) :=
  [.bench, .bench, .client lone, .client lone, .bench, .bench, .client lone, .bench, .bench, .bench,
    .bench, .client lone, .client lone, .client lone, .client lone, .client lone, .client lone,
    .client lone, .client lone, .bench, .bench]

/-- `client.go`: the same with flags. -/
def bothFlags : List (GoBench.Label 1) :=
  [.bench, .bench, .client lone, .bench, .client lone, .bench, .bench, .client lone, .client lone,
    .client lone, .client lone, .client lone, .client lone, .client lone, .bench]

theorem divides_by_zero :
    (∃ s, (machine 1).exec (initial 1 7 ⟨0, 0⟩) bothSignals = some s ∧
      s.bench.aggregating = true ∧ (s.threads 0).args.runtime = 0 ∧
      ((machine 1).step s .bench).map (fun s => s.exit) = some (some .dividedByZero)) ∧
    ∃ s, (GoBench.machine 1).exec (GoBench.initial 1 7) bothFlags = some s ∧
      s.bench.aggregating = true ∧ (s.threads 0).args.runtime = 0 ∧
      ((GoBench.machine 1).step s .bench).map (fun s => s.exit) = some (some .panicked) := by
  constructor
  · have hview : ((machine 1).exec (initial 1 7 ⟨0, 0⟩) bothSignals).map (fun s =>
        (s.bench.aggregating, (s.threads 0).args.runtime, (step s .bench).map fun s => s.exit)) =
        some (true, 0, some (some .dividedByZero)) := by decide
    obtain ⟨s, hs, hview⟩ := Option.map_eq_some_iff.mp hview
    simp only [Prod.mk.injEq] at hview
    exact ⟨s, hs, hview⟩
  · have hview : ((GoBench.machine 1).exec (GoBench.initial 1 7) bothFlags).map (fun s =>
        (s.bench.aggregating, (s.threads 0).args.runtime,
          (GoBench.step s .bench).map fun s => s.exit)) =
        some (true, 0, some (some .panicked)) := by decide
    obtain ⟨s, hs, hview⟩ := Option.map_eq_some_iff.mp hview
    simp only [Prod.mk.injEq] at hview
    exact ⟨s, hs, hview⟩

end EchoServer.Bench
