import EchoServer.Common
import EchoServer.Lib.Machine
import EchoServer.Lib.Redis

/-!
# driver.py, multiclient.c, dsync.c — a distributed benchmark

The driver writes the parameters of the benchmark to Redis and then waits until enough
client processes have started; it sets two flags, waits until enough processes have
reported, and prints the sum of what they reported. Each process claims one of the
places, starts its threads, waits for the flags and reports its throughput. What the
threads of a process do is in the models of a single client; here a process that
aggregates comes to any throughput.

* `step` — a command of a process or of the driver and what it does with the reply, or the
  end of either at any point;
* `initial` — the store that `write_benchmark_params_to_redis` leaves, whatever was in it
  before.
-/

namespace EchoServer.Multiclient

open EchoServer.Lib

-- ---------------------------------------------------------------------------
-- The store
-- ---------------------------------------------------------------------------

inductive Key
  | numclients
  | numthreads
  | address
  | port
  | shouldMeasure
  | shouldReport
  | reported
  | started
  | results
  deriving DecidableEq, Repr

/-- `BenchmarkParams` of driver.py. -/
structure BenchmarkParams where
  numClients : Nat
  numThreads : Text
  serverAddress : Text
  serverPort : Nat

def writeBenchmarkParamsToRedis (r : Store Key) (params : BenchmarkParams) : Store Key :=
  let r := r.set .numclients (utf8 (decimal params.numClients))
  let r := r.set .numthreads (utf8 params.numThreads)
  let r := r.set .address (utf8 params.serverAddress)
  let r := r.set .port (utf8 (decimal params.serverPort))
  let r := r.set .shouldMeasure (utf8 (decimal 0))
  let r := r.set .shouldReport (utf8 (decimal 0))
  let r := r.set .reported (utf8 (decimal 0))
  r.set .started (utf8 (decimal 0))

-- ---------------------------------------------------------------------------
-- dsync.c
-- ---------------------------------------------------------------------------

/-- The reply is not looked at. -/
def dcounterIncr (r : Store Key) (a : Key) (n : Int) : Store Key := (r.incrBy a n).2

/-- One round of `dflag_wait`: does it return? `none` when it ends the process. -/
def dflagWait (r : Store Key) (a : Key) : Option Bool :=
  match r.get a with
  | .string bs => some (0 < strtol (chars bs))
  | _ => none

-- ---------------------------------------------------------------------------
-- multiclient.c
-- ---------------------------------------------------------------------------

/-- `bench_params_t`. -/
structure BenchParams where
  N : Int
  address : Bytes
  port : Bytes
  deriving DecidableEq, Repr

/-- `none` when the process ends. -/
def loadBenchParams (r : Store Key) : Option BenchParams :=
  match r.mget [.numthreads, .address, .port] with
  | .array [some numthreads, some address, some port] => some ⟨atoi (chars numthreads), address, port⟩
  | _ => none

/-- Whether the process goes on, and the store. -/
def tryClaimSpot (r : Store Key) : Bool × Store Key :=
  match r.decr .numclients with
  | (.integer z, r') => (0 ≤ z, r')
  | (_, r') => (false, r')

/-- `asprintf(&data, " %ld", throughput)`. -/
def report (throughput : UInt64) : Bytes := utf8 (' ' :: decimal throughput.toBitVec.toInt)

/-- Whether the process goes on, and the store. -/
def putReport (r : Store Key) (throughput : UInt64) : Bool × Store Key :=
  match r.append .results (report throughput) with
  | (.integer _, r') => (true, r')
  | (_, r') => (false, r')

/-- The call of `bench` that a process is in. -/
inductive Pc
  | tryClaimSpot
  | loadBenchParams
  | started
  | shouldMeasure
  | shouldReport
  | aggregating
  | putReport
  | reported
  | exited
  deriving DecidableEq, Repr

structure Client where
  pc : Pc
  stopped : Bool
  params : Option BenchParams
  throughput : UInt64

/-- A process that has been started. -/
def Client.entry : Client := ⟨.tryClaimSpot, false, none, 0⟩

def Client.goto (c : Client) (pc : Pc) : Client := { c with pc := pc }

def Client.stop (c : Client) : Client := { c with stopped := true }

/-- A flag has been looked at. -/
def Client.poll (c : Client) (flag : Option Bool) (next : Pc) : Client :=
  match flag with
  | some true => c.goto next
  | some false => c
  | none => c.stop

/-- `bench`, from each command to the next; it is in none while its threads finish. -/
def Client.bench (r : Store Key) (c : Client) : Option (Client × Store Key) :=
  match c.pc with
  | .tryClaimSpot =>
    let (ok, r') := tryClaimSpot r
    some (if ok then c.goto .loadBenchParams else c.stop, r')
  | .loadBenchParams =>
    match Multiclient.loadBenchParams r with
    | some params => some ({ c with params := some params }.goto .started, r)
    | none => some (c.stop, r)
  | .started => some (c.goto .shouldMeasure, dcounterIncr r .started 1)
  | .shouldMeasure => some (c.poll (dflagWait r .shouldMeasure) .shouldReport, r)
  | .shouldReport => some (c.poll (dflagWait r .shouldReport) .aggregating, r)
  | .aggregating => none
  | .putReport =>
    let (ok, r') := Multiclient.putReport r c.throughput
    some (if ok then c.goto .reported else c.stop, r')
  | .reported => some (c.goto .exited, dcounterIncr r .reported 1)
  | .exited => none

-- ---------------------------------------------------------------------------
-- driver.py
-- ---------------------------------------------------------------------------

/-- One round of `dcounter_wait`: does it return? `none` when it raises an exception. The
reply is decoded (`decode_responses`). -/
def dcounterWait (r : Store Key) (counterName : Key) (n : Nat) : Option Bool :=
  match r.get counterName with
  | .string bs => ((decode bs).bind pyInt).map fun z => decide ((n : Int) ≤ z)
  | _ => none

def dflagSet (r : Store Key) (flagName : Key) : Store Key := r.set flagName (utf8 ['1'])

/-- `none` when it raises an exception. -/
def getThroughput (r : Store Key) : Option Int :=
  match r.get .results with
  | .string bs => sumBytes bs
  | _ => none

/-- Where `main` is; `printed z` when it has printed `z`. -/
inductive DriverPc
  | started
  | measure
  | report
  | reported
  | throughput
  | printed (z : Int)
  deriving DecidableEq, Repr

structure Driver where
  pc : DriverPc
  stopped : Bool

def Driver.goto (d : Driver) (pc : DriverPc) : Driver := { d with pc := pc }

def Driver.stop (d : Driver) : Driver := { d with stopped := true }

/-- A counter has been looked at. -/
def Driver.poll (d : Driver) (enough : Option Bool) (next : DriverPc) : Driver :=
  match enough with
  | some true => d.goto next
  | some false => d
  | none => d.stop

/-- `main`, from each command to the next. -/
def Driver.main (n : Nat) (r : Store Key) (d : Driver) : Option (Driver × Store Key) :=
  match d.pc with
  | .started => some (d.poll (dcounterWait r .started n) .measure, r)
  | .measure => some (d.goto .report, dflagSet r .shouldMeasure)
  | .report => some (d.goto .reported, dflagSet r .shouldReport)
  | .reported => some (d.poll (dcounterWait r .reported n) .throughput, r)
  | .throughput =>
    match getThroughput r with
    -- the number is converted to be printed
    | some z => some (if Printable z then d.goto (.printed z) else d.stop, r)
    | none => some (d.stop, r)
  | .printed _ => none

-- ---------------------------------------------------------------------------
-- The whole system
-- ---------------------------------------------------------------------------

variable {κ : Type} [DecidableEq κ]

/-- The store, the processes and the driver. -/
structure State (κ : Type) where
  store : Store Key
  clients : κ → Client
  driver : Driver

/-- Who moves next; `aggregate c v` is the moment at which the threads of `c` have finished
and their throughputs sum up to `v`. -/
inductive Label (κ : Type)
  | client (c : κ)
  | aggregate (c : κ) (v : UInt64)
  | stop (c : κ)
  | driver
  | stopDriver
  deriving DecidableEq, Repr

def State.setClient (s : State κ) (c : κ) (x : Client) (r : Store Key) : State κ :=
  { s with clients := Function.update s.clients c x, store := r }

def step (n : Nat) (s : State κ) : Label κ → Option (State κ)
  | .client c =>
    if (s.clients c).stopped then none
    else ((s.clients c).bench s.store).map fun (x, r) => s.setClient c x r
  | .aggregate c v =>
    if (s.clients c).stopped = false ∧ (s.clients c).pc = .aggregating then
      some (s.setClient c { (s.clients c).goto .putReport with throughput := v } s.store)
    else none
  | .stop c => some (s.setClient c (s.clients c).stop s.store)
  | .driver =>
    if s.driver.stopped then none
    else (s.driver.main n s.store).map fun (d, r) => { s with driver := d, store := r }
  | .stopDriver => some { s with driver := s.driver.stop }

def machine (κ : Type) [DecidableEq κ] (n : Nat) : Machine (State κ) (Label κ) := ⟨step n⟩

/-- The driver has written the parameters to a store that was `r`. -/
def initial (κ : Type) (r : Store Key) (params : BenchmarkParams) : State κ :=
  ⟨writeBenchmarkParamsToRedis r params, fun _ => .entry, ⟨.started, false⟩⟩

end EchoServer.Multiclient
