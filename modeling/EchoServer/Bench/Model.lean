import EchoServer.Lib.Machine
import EchoServer.Lib.Semaphore

/-!
# client.c, multiclient.c — the phases of a benchmark

`bench` creates `N` threads and leads them through their phases with four
semaphores. The threads and `bench` are the same code in both programs; what `bench`
waits for between two phases, a `nanosleep` or a flag in Redis, is a delay here. A
call that fails ends the process.

The clock is `CLOCK_MONOTONIC` in nanoseconds; it never goes back, and may stand
still.
-/

namespace EchoServer.Bench

open EchoServer.Lib

-- ---------------------------------------------------------------------------
-- Time
-- ---------------------------------------------------------------------------

/-- `struct timespec`. -/
structure Timespec where
  sec : Int
  nsec : Int
  deriving DecidableEq, Repr

/-- `clock_gettime(CLOCK_MONOTONIC, …)` at the time `t`. -/
def clockGettime (t : Nat) : Timespec := ⟨t / 1000000000, t % 1000000000⟩

def Timespec.toNanos (x : Timespec) : Int := x.sec * 1000000000 + x.nsec

@[simp] theorem toNanos_clockGettime (t : Nat) : (clockGettime t).toNanos = t := by
  show (t : Int) / 1000000000 * 1000000000 + t % 1000000000 = t
  omega

/-- The value of `args->runtime`. -/
def elapsed (start stop : Timespec) : UInt64 :=
  UInt64.ofInt ((stop.sec - start.sec) * 1000000000 + stop.nsec - start.nsec)

-- ---------------------------------------------------------------------------
-- Data
-- ---------------------------------------------------------------------------

/-- `struct client_thread_args`. -/
structure ClientThreadArgs where
  numOps : UInt64
  runtime : UInt64
  deriving DecidableEq, Repr

/-- Where a thread is in `client`. -/
inductive Pc
  | notCreated
  | firstOperation
  | postStarted
  | tryMeasure
  | warmUp
  | readStart
  | resetOps
  | tryReport
  | operate
  | countOp
  | readEnd
  | storeRuntime
  | postReported
  | runForever
  deriving DecidableEq, Repr

/-- A thread: where it is, its `args`, its local variables `start` and `end`; and what
it has done so far: calls of `one_operation` that came back, and of these the ones
between its two tokens, tokens taken and posts. -/
structure Thread where
  pc : Pc
  args : ClientThreadArgs
  start : Timespec
  stop : Timespec
  calls : Nat
  between : Nat
  started : Nat
  measure : Nat
  report : Nat
  reported : Nat
  deriving DecidableEq, Repr

/-- Where `bench` is: in the `i`-th round of one of its loops. -/
inductive BenchPc
  | create (i : Nat)
  | waitStarted (i : Nat)
  | postMeasure (i : Nat)
  | postReport (i : Nat)
  | waitReported (i : Nat)
  | aggregate (i : Nat) (numOps throughput : UInt64)
  deriving DecidableEq, Repr

/-- How the process ends: a call failed; `SIGFPE`; or the result is printed. -/
inductive Exit
  | failed
  | dividedByZero
  | finished (numOps throughput : UInt64)
  deriving DecidableEq, Repr

structure State (N : Nat) where
  started : Sem
  shouldMeasure : Sem
  shouldReport : Sem
  reported : Sem
  bench : BenchPc
  threads : Fin N → Thread
  clock : Nat
  exit : Option Exit

variable {N : Nat}

def State.setThread (s : State N) (i : Fin N) (t : Thread) : State N :=
  { s with threads := Function.update s.threads i t }

-- ---------------------------------------------------------------------------
-- The threads
-- ---------------------------------------------------------------------------

/-- `one_operation` comes back. -/
def Thread.oneOperation (t : Thread) : Thread :=
  { t with
    calls := t.calls + 1
    between := if t.measure = 1 ∧ t.report = 0 then t.between + 1 else t.between }

/-- `client`, `start_client`: the thread `i`, from one access to what it shares to the
next. -/
def client (s : State N) (i : Fin N) : Option (State N) :=
  let t := s.threads i
  match t.pc with
  | .notCreated => none
  | .firstOperation => some (s.setThread i { t.oneOperation with pc := .postStarted })
  | .postStarted =>
    some { s.setThread i { t with pc := .tryMeasure, started := t.started + 1 } with
      started := s.started.post }
  | .tryMeasure =>
    match s.shouldMeasure.take with
    | some sem =>
      some { s.setThread i { t with pc := .readStart, measure := t.measure + 1 } with
        shouldMeasure := sem }
    | none => some (s.setThread i { t with pc := .warmUp })
  | .warmUp => some (s.setThread i { t.oneOperation with pc := .tryMeasure })
  | .readStart => some (s.setThread i { t with pc := .resetOps, start := clockGettime s.clock })
  | .resetOps =>
    some (s.setThread i { t with pc := .tryReport, args := { t.args with numOps := 0 } })
  | .tryReport =>
    match s.shouldReport.take with
    | some sem =>
      some { s.setThread i { t with pc := .readEnd, report := t.report + 1 } with
        shouldReport := sem }
    | none => some (s.setThread i { t with pc := .operate })
  | .operate => some (s.setThread i { t.oneOperation with pc := .countOp })
  | .countOp =>
    some (s.setThread i
      { t with pc := .tryReport, args := { t.args with numOps := t.args.numOps + 1 } })
  | .readEnd => some (s.setThread i { t with pc := .storeRuntime, stop := clockGettime s.clock })
  | .storeRuntime =>
    some (s.setThread i
      { t with pc := .postReported, args := { t.args with runtime := elapsed t.start t.stop } })
  | .postReported =>
    some { s.setThread i { t with pc := .runForever, reported := t.reported + 1 } with
      reported := s.reported.post }
  | .runForever => some (s.setThread i t.oneOperation)

-- ---------------------------------------------------------------------------
-- `bench`
-- ---------------------------------------------------------------------------

/-- A thread's operations per second, rounded. -/
def ClientThreadArgs.throughput (a : ClientThreadArgs) : UInt64 :=
  (a.numOps * 1000000000 + a.runtime / 2) / a.runtime

/-- `bench`, one round of a loop at a time. -/
def bench (s : State N) : Option (State N) :=
  match s.bench with
  | .create i =>
    if h : i < N then
      some { s.setThread ⟨i, h⟩ { s.threads ⟨i, h⟩ with pc := .firstOperation } with
        bench := .create (i + 1) }
    else some { s with bench := .waitStarted 0 }
  | .waitStarted i =>
    if i < N then
      s.started.take.map fun sem => { s with started := sem, bench := .waitStarted (i + 1) }
    -- the warm-up: `nanosleep`, or `should_measure` in Redis
    else some { s with bench := .postMeasure 0 }
  | .postMeasure i =>
    if i < N then
      some { s with shouldMeasure := s.shouldMeasure.post, bench := .postMeasure (i + 1) }
    -- the measurement: `nanosleep`, or `should_report` in Redis
    else some { s with bench := .postReport 0 }
  | .postReport i =>
    if i < N then
      some { s with shouldReport := s.shouldReport.post, bench := .postReport (i + 1) }
    else some { s with bench := .waitReported 0 }
  | .waitReported i =>
    if i < N then
      s.reported.take.map fun sem => { s with reported := sem, bench := .waitReported (i + 1) }
    else some { s with bench := .aggregate 0 0 0 }
  | .aggregate i numOps throughput =>
    if h : i < N then
      let a := (s.threads ⟨i, h⟩).args
      if a.runtime = 0 then some { s with exit := some .dividedByZero }
      else some { s with bench := .aggregate (i + 1) (numOps + a.numOps) (throughput + a.throughput) }
    else some { s with exit := some (.finished numOps throughput) }

-- ---------------------------------------------------------------------------
-- The process
-- ---------------------------------------------------------------------------

inductive Label (N : Nat)
  | client (i : Fin N)
  | bench
  | tick (d : Nat)
  | fail
  deriving DecidableEq, Repr

def step (s : State N) (l : Label N) : Option (State N) :=
  if s.exit.isSome then none
  else match l with
    | .client i => client s i
    | .bench => bench s
    | .tick d => some { s with clock := s.clock + d }
    | .fail => some { s with exit := some .failed }

def machine (N : Nat) : Machine (State N) (Label N) := ⟨step⟩

/-- `bench` has initialised the semaphores and `args`; `stack` is what lies in the
threads' `start` and `end`. -/
def initial (N clock : Nat) (stack : Timespec) : State N where
  started := .init
  shouldMeasure := .init
  shouldReport := .init
  reported := .init
  bench := .create 0
  threads := fun _ => ⟨.notCreated, ⟨0, 0⟩, stack, stack, 0, 0, 0, 0, 0, 0⟩
  clock := clock
  exit := none

end EchoServer.Bench
