import EchoServer.Bench.Barrier
import EchoServer.Go.Bench
import EchoServer.Lib.Rounding

/-!
# The three clients — what aggregation comes to

While `bench` aggregates no thread changes its `args`, so the total after each round is
that of the measurements as they are, in whatever order the other threads run on.

* `throughput_of_aggregate` — for the C programs and for `client.go`, what is printed.
-/

namespace EchoServer.Bench

open EchoServer.Lib

variable {N : Nat} {s u : State N}

/-- The threads' throughputs, in the order in which they are added. -/
def State.throughputs (s : State N) : List UInt64 :=
  List.ofFn fun i => (s.threads i).args.throughput

/-- The rounds so far have added the first throughputs. -/
def Summed (s : State N) : Prop :=
  ∀ k numOps throughput, s.bench = .aggregate k numOps throughput →
    throughput = wrapSum (s.throughputs.take k)

theorem throughputs_step {l : Label N} (h : Inv s) (hagg : s.bench.aggregating = true)
    (hstep : (machine N).step s l = some u) : u.throughputs = s.throughputs := by
  have hargs : ∀ i, (u.threads i).args = (s.threads i).args :=
    fun i => (args_step h hagg hstep i).1
  simp only [State.throughputs, hargs]

theorem BenchPc.next_aggregate {b : BenchPc} {k : Nat} {numOps throughput : UInt64}
    (h : b.next = some (.aggregate k numOps throughput)) : k = 0 ∧ throughput = 0 := by
  cases b with
  | waitReported =>
    cases h
    exact ⟨rfl, rfl⟩
  | create | waitStarted | postMeasure | postReport | aggregate => cases h

theorem summed_bench (h : Inv s) (hs : Summed s) (hexit : s.exit = none)
    (hstep : bench s = some u) : Summed u := by
  have hrun : (machine N).step s .bench = some u := by simpa [machine, step, hexit] using hstep
  intro j numOps throughput hu
  cases bench_cases hstep with
  | create | waitStarted | postMeasure | postReport | waitReported => cases hu
  | next _ hnext =>
    obtain ⟨rfl, rfl⟩ := BenchPc.next_aggregate (hnext.trans (congrArg some hu))
    rfl
  | add hk hbench =>
    cases hu
    rw [throughputs_step h (by rw [hbench]; rfl) hrun, hs _ _ _ hbench]
    exact (wrapSum_take_succ hk).symm
  | divide | print => exact hs _ _ _ hu

theorem summed_step : (machine N).Preserves fun s => Inv s ∧ Summed s := by
  refine inv_step.and fun s l u h _ hs hstep => ?_
  obtain ⟨hexit, hmove⟩ := Option.ite_none_left_eq_some.mp hstep
  cases l with
  | client i =>
    obtain ⟨t, -, hmoved⟩ := client_cases hmove
    intro k numOps throughput hu
    rw [hmoved.bench] at hu
    rw [throughputs_step h (by rw [hu]; rfl) hstep]
    exact hs k numOps throughput hu
  | bench => exact summed_bench h hs (by simpa using hexit) hmove
  | tick | fail =>
    cases hmove
    exact hs

/-- What `bench` prints when its last loop is over. -/
theorem throughput_of_aggregate {clock : Nat} {stack : Timespec} {numOps throughput : UInt64}
    (hs : (machine N).Reachable (initial N clock stack) s)
    (hbench : s.bench = .aggregate N numOps throughput) :
    throughput = wrapSum (List.ofFn fun i => (s.threads i).args.throughput) := by
  have hstart : Inv (initial N clock stack) ∧ Summed (initial N clock stack) :=
    ⟨inv_initial N clock stack, fun _ _ _ h => by cases h⟩
  have hsum := (summed_step.reachable hstart hs).2 N numOps throughput hbench
  rwa [State.throughputs, List.take_of_length_le (List.length_ofFn).le] at hsum

end EchoServer.Bench

namespace EchoServer.GoBench

open EchoServer.Lib

variable {N : Nat} {s u : State N}

/-- The goroutines' throughputs, in the order in which they are added. -/
def State.throughputs (s : State N) : List UInt64 :=
  List.ofFn fun i => (s.threads i).args.throughput

/-- The rounds so far have added the first throughputs. -/
def Summed (s : State N) : Prop :=
  ∀ k numOps throughput, s.bench = .aggregate k numOps throughput →
    throughput = wrapSum (s.throughputs.take k)

/-- A goroutine that runs forever does not change. -/
theorem threads_step {l : Label N} (h : Inv s) (hagg : s.bench.aggregating = true)
    (hstep : (machine N).step s l = some u) : u.threads = s.threads := by
  obtain ⟨-, hmove⟩ := Option.ite_none_left_eq_some.mp hstep
  cases l with
  | client i =>
    have hpc := h.runForever hagg i
    simp only [client, hpc] at hmove
    cases hmove
    rfl
  | bench =>
    obtain ⟨-, hthreads⟩ := bench_threads hmove
    funext j
    rcases hthreads j with hsame | ⟨hbench, -⟩
    · exact hsame
    · rw [hbench] at hagg
      cases hagg
  | tick | fail =>
    cases hmove
    rfl

theorem throughputs_step {l : Label N} (h : Inv s) (hagg : s.bench.aggregating = true)
    (hstep : (machine N).step s l = some u) : u.throughputs = s.throughputs := by
  rw [State.throughputs, State.throughputs, threads_step h hagg hstep]

theorem summed_bench (h : Inv s) (hs : Summed s) (hexit : s.exit = none)
    (hstep : bench s = some u) : Summed u := by
  have hrun : (machine N).step s .bench = some u := by simpa [machine, step, hexit] using hstep
  intro j numOps throughput hu
  cases bench_cases hstep with
  | create | created | waitStarted | storeMeasure | storeReport => cases hu
  | waitReported =>
    cases hu
    rfl
  | add hk hbench =>
    cases hu
    rw [throughputs_step h (by rw [hbench]; rfl) hrun, hs _ _ _ hbench]
    exact (wrapSum_take_succ hk).symm
  | divide | print => exact hs _ _ _ hu

theorem summed_step : (machine N).Preserves fun s => Inv s ∧ Summed s := by
  refine inv_step.and fun s l u h _ hs hstep => ?_
  obtain ⟨hexit, hmove⟩ := Option.ite_none_left_eq_some.mp hstep
  cases l with
  | client i =>
    intro k numOps throughput hu
    rcases client_cases hmove with ⟨-, rfl⟩ | ⟨t, -, hmoved⟩
    · exact hs k numOps throughput hu
    · rw [hmoved.bench] at hu
      rw [throughputs_step h (by rw [hu]; rfl) hstep]
      exact hs k numOps throughput hu
  | bench => exact summed_bench h hs (by simpa using hexit) hmove
  | tick | fail =>
    cases hmove
    exact hs

/-- What `bench` prints when its last loop is over. -/
theorem throughput_of_aggregate {clock : Nat} {numOps throughput : UInt64}
    (hs : (machine N).Reachable (initial N clock) s)
    (hbench : s.bench = .aggregate N numOps throughput) :
    throughput = wrapSum (List.ofFn fun i => (s.threads i).args.throughput) := by
  have hstart : Inv (initial N clock) ∧ Summed (initial N clock) :=
    ⟨inv_initial N clock, fun _ _ _ h => by cases h⟩
  have hsum := (summed_step.reachable hstart hs).2 N numOps throughput hbench
  rwa [State.throughputs, List.take_of_length_le (List.length_ofFn).le] at hsum

end EchoServer.GoBench
