import EchoServer.Bench.Total
import EchoServer.Multiclient.Progress

/-!
# driver.py, multiclient.c — all threads of all processes

`bench` of multiclient.c is one function: between its commands to Redis it leads the
threads of its process from phase to phase. Here a process is both at once, the call of
Redis it is in and its threads, of which there are as many as it read from Redis.

What is assumed:

* the benchmark starts on a store that was empty before the driver wrote its parameters;
* the number of threads is what `atoi` makes of the text that the driver was given. Where it
  is zero or negative no loop of `bench` makes a round: the process has no threads
  (`numThreads`), and reports zero.

Any number of processes come, in any order; each of them and the driver may be killed at any
point, and a call of any thread that fails ends its process. Nothing is assumed of the
server: what is shown here holds in every state that is reached.

Main results:

* `view_reachable` — what Redis and the driver see is a run of the coordination alone;
* `Linked` — the threads' run is one of the benchmark of a single client, as far as the
  commands allow;
* `system_barrier` — no thread of any process measures before every thread of as many processes
  as there are places has an operation behind it;
* `overall_throughput` — the printed number is the sum over all threads of all these processes.
-/

namespace EchoServer.Multiclient.System

open EchoServer.Lib

-- ---------------------------------------------------------------------------
-- A process
-- ---------------------------------------------------------------------------

/-- A process: its commands to Redis; its semaphores and `params.N` threads, once it has
loaded `params`; its host's clock then, and what lies on the threads' stacks. -/
structure Process where
  call : Client
  threads : Option (Σ N, Bench.State N)
  host : Nat × Bench.Timespec

/-- A process that has been started. -/
def Process.entry (host : Nat × Bench.Timespec) : Process := ⟨.entry, none, host⟩

/-- `bench` has come to the command `pc`: the loop before it is over. -/
def arrived (pc : Pc) : Option (Σ N, Bench.State N) → Bool
  | none => pc = .tryClaimSpot ∨ pc = .loadBenchParams
  | some ⟨N, b⟩ =>
    match pc with
    | .started | .shouldMeasure => b.bench = .waitStarted N
    | .shouldReport => b.bench = .postMeasure N
    | .putReport | .reported => true
    | .tryClaimSpot | .loadBenchParams | .aggregating | .exited => false

/-- `bench` is in the loop before the command `pc`. -/
def looping (pc : Pc) {N : Nat} (b : Bench.State N) : Bool :=
  match pc with
  | .started => b.bench ≠ .waitStarted N
  | .shouldReport => b.bench ≠ .postMeasure N
  | .aggregating =>
    match b.bench with
    | .aggregate k _ _ => k < N
    | _ => true
  | _ => false

/-- What comes after a command: `sem_init` and the threads, or the next loop over them. -/
def Process.proceed (p : Process) (x : Client) : Option (Σ N, Bench.State N) :=
  match p.call.pc, x.pc with
  | .loadBenchParams, .started =>
    x.params.map fun params => ⟨params.N.toNat, Bench.initial params.N.toNat p.host.1 p.host.2⟩
  | .shouldMeasure, .shouldReport =>
    p.threads.map fun t => ⟨t.1, { t.2 with bench := .postMeasure 0 }⟩
  | .shouldReport, .aggregating =>
    p.threads.map fun t => ⟨t.1, { t.2 with bench := .postReport 0 }⟩
  | _, _ => p.threads

/-- `bench`, from a command to the next one. -/
def Process.command (r : Store Key) (p : Process) : Option (Process × Store Key) :=
  if arrived p.call.pc p.threads then
    (p.call.bench r).map fun (x, r') => ({ p with call := x, threads := p.proceed x }, r')
  else none

/-- Who moves in a process between two commands. -/
inductive Move
  | thread (i : Nat)
  | bench
  | tick (d : Nat)
  | fail
  deriving DecidableEq, Repr

def Move.label (N : Nat) : Move → Option (Bench.Label N)
  | .thread i => if h : i < N then some (.client ⟨i, h⟩) else none
  | .bench => some .bench
  | .tick d => some (.tick d)
  | .fail => some .fail

/-- A thread, or `bench` in a loop over the threads; a call that fails, and a division by
zero, end the process. -/
def Process.move (p : Process) (m : Move) : Option Process :=
  match p.threads with
  | none => none
  | some ⟨N, b⟩ =>
    if m = .bench ∧ looping p.call.pc b = false then none
    else (m.label N).bind fun l => ((Bench.machine N).step b l).map fun b' =>
      { p with
        threads := some ⟨N, b'⟩
        call := if b'.exit.isSome then p.call.stop else p.call }

/-- The last loop is over. -/
def Process.aggregated (p : Process) : Option UInt64 :=
  match p.call.pc, p.threads with
  | .aggregating, some ⟨N, b⟩ =>
    match b.bench with
    | .aggregate k _ throughput => if k < N then none else some throughput
    | _ => none
  | _, _ => none

/-- The sum goes to `put_report`. -/
def Process.aggregate (p : Process) : Option Process :=
  p.aggregated.map fun v => { p with call := { p.call.goto .putReport with throughput := v } }

-- ---------------------------------------------------------------------------
-- The whole system
-- ---------------------------------------------------------------------------

variable {κ : Type} [DecidableEq κ]

/-- The store, the processes and the driver. -/
structure State (κ : Type) where
  store : Store Key
  processes : κ → Process
  driver : Driver

inductive Label (κ : Type)
  | command (c : κ)
  | move (c : κ) (m : Move)
  | aggregate (c : κ)
  | stop (c : κ)
  | driver
  | stopDriver
  deriving DecidableEq, Repr

def State.setProcess (s : State κ) (c : κ) (p : Process) (r : Store Key) : State κ :=
  { s with processes := Function.update s.processes c p, store := r }

/-- Neither stopped nor through. -/
def Process.running (p : Process) : Bool := !p.call.stopped && p.call.pc ≠ .exited

def step (n : Nat) (s : State κ) : Label κ → Option (State κ)
  | .command c =>
    if (s.processes c).running then
      ((s.processes c).command s.store).map fun (p, r) => s.setProcess c p r
    else none
  | .move c m =>
    if (s.processes c).running then
      ((s.processes c).move m).map fun p => s.setProcess c p s.store
    else none
  | .aggregate c =>
    if (s.processes c).running then
      (s.processes c).aggregate.map fun p => s.setProcess c p s.store
    else none
  | .stop c =>
    some (s.setProcess c { s.processes c with call := (s.processes c).call.stop } s.store)
  | .driver =>
    if s.driver.stopped then none
    else (s.driver.main n s.store).map fun (d, r) => { s with driver := d, store := r }
  | .stopDriver => some { s with driver := s.driver.stop }

def machine (κ : Type) [DecidableEq κ] (n : Nat) : Machine (State κ) (Label κ) := ⟨step n⟩

/-- The driver has written the parameters to an empty store. -/
def initial (κ : Type) (host : κ → Nat × Bench.Timespec) (params : BenchmarkParams) : State κ :=
  ⟨writeBenchmarkParamsToRedis (fun _ => none) params, fun c => .entry (host c), ⟨.started, false⟩⟩

-- ---------------------------------------------------------------------------
-- What Redis and the driver see
-- ---------------------------------------------------------------------------

/-- The processes' commands, without their threads. -/
def State.view (s : State κ) : Multiclient.State κ :=
  ⟨s.store, fun c => (s.processes c).call, s.driver⟩

variable {n : Nat} {s t : State κ} {c : κ} {p q : Process} {r r' : Store Key}

theorem view_setProcess : (s.setProcess c p r).view = s.view.setClient c p.call r := by
  simp only [State.view, State.setProcess, Multiclient.State.setClient, Multiclient.State.mk.injEq,
    true_and, and_true]
  funext d
  by_cases hdc : d = c
  · subst hdc
    rw [Function.update_self, Function.update_self]
  · rw [Function.update_of_ne hdc, Function.update_of_ne hdc]

omit [DecidableEq κ] in
theorem command_call (h : p.command r = some (q, r')) :
    arrived p.call.pc p.threads = true ∧ ∃ x, p.call.bench r = some (x, r') ∧
      q = { p with call := x, threads := p.proceed x } := by
  obtain ⟨harrived, h⟩ := Option.ite_none_right_eq_some.mp h
  obtain ⟨⟨x, r₁⟩, hbench, heq⟩ := Option.map_eq_some_iff.mp h
  cases heq
  exact ⟨harrived, x, hbench, rfl⟩

/-- A move in a process: its threads take a step, and the process ends if that ends it. -/
theorem move_cases {m : Move} (h : p.move m = some q) :
    ∃ (N : Nat) (b b' : Bench.State N) (l : Bench.Label N), p.threads = some ⟨N, b⟩ ∧
      m.label N = some l ∧ (m = .bench → looping p.call.pc b = true) ∧
      (Bench.machine N).step b l = some b' ∧
      q = { p with threads := some ⟨N, b'⟩, call := if b'.exit.isSome then p.call.stop else p.call } := by
  unfold Process.move at h
  cases hthreads : p.threads with
  | none =>
    rw [hthreads] at h
    cases h
  | some t =>
    obtain ⟨N, b⟩ := t
    rw [hthreads] at h
    obtain ⟨hlooping, h⟩ := Option.ite_none_left_eq_some.mp h
    obtain ⟨l, hl, h⟩ := Option.bind_eq_some_iff.mp h
    obtain ⟨b', hb', rfl⟩ := Option.map_eq_some_iff.mp h
    refine ⟨N, b, b', l, rfl, hl, fun hm => ?_, hb', rfl⟩
    rw [not_and, Bool.not_eq_false] at hlooping
    exact hlooping hm

theorem aggregate_cases (h : p.aggregate = some q) :
    ∃ (N : Nat) (b : Bench.State N) (k : Nat) (numOps throughput : UInt64),
      p.call.pc = .aggregating ∧ p.threads = some ⟨N, b⟩ ∧
      b.bench = .aggregate k numOps throughput ∧ N ≤ k ∧
      q = { p with call := { p.call.goto .putReport with throughput := throughput } } := by
  obtain ⟨v, hv, rfl⟩ := Option.map_eq_some_iff.mp h
  unfold Process.aggregated at hv
  cases hpc : p.call.pc with
  | aggregating =>
    cases hthreads : p.threads with
    | none => simp [hpc, hthreads] at hv
    | some t =>
      obtain ⟨N, b⟩ := t
      simp only [hpc, hthreads] at hv
      cases hbench : b.bench with
      | aggregate k numOps throughput =>
        simp only [hbench] at hv
        obtain ⟨hk, heq⟩ := Option.ite_none_left_eq_some.mp hv
        cases heq
        exact ⟨N, b, k, numOps, v, rfl, rfl, hbench, Nat.not_lt.mp hk, rfl⟩
      | create | waitStarted | postMeasure | postReport | waitReported => simp [hbench] at hv
  | tryClaimSpot | loadBenchParams | started | shouldMeasure | shouldReport | putReport | reported
  | exited => simp [hpc] at hv

theorem running_iff : p.running = true ↔ p.call.stopped = false ∧ p.call.pc ≠ .exited := by
  simp [Process.running]

/-- What Redis and the driver see of a step; of a process that its threads end, they see that
it stops. -/
def State.seen (s : State κ) : Label κ → Option (Multiclient.Label κ)
  | .command c => some (.client c)
  | .move c m =>
    match (s.processes c).move m with
    | some p => if p.call.stopped then some (.stop c) else none
    | none => none
  | .aggregate c => (s.processes c).aggregated.map (.aggregate c)
  | .stop c => some (.stop c)
  | .driver => some .driver
  | .stopDriver => some .stopDriver

/-- Each step is one of the coordination, or is not seen by it. -/
theorem view_step {l : Label κ} (h : (machine κ n).step s l = some t) :
    s.seen l = none ∧ t.view = s.view ∨
      ∃ l', s.seen l = some l' ∧ (Multiclient.machine κ n).step s.view l' = some t.view := by
  cases l with
  | command c =>
    obtain ⟨hrunning, h⟩ := Option.ite_none_right_eq_some.mp h
    obtain ⟨⟨q, r⟩, hcommand, rfl⟩ := Option.map_eq_some_iff.mp h
    obtain ⟨-, x, hbench, rfl⟩ := command_call hcommand
    have hstop : (s.view.clients c).stopped = false := (running_iff.mp hrunning).1
    refine Or.inr ⟨.client c, rfl, ?_⟩
    show (if (s.view.clients c).stopped = true then none else _) = some (s.setProcess c _ r).view
    rw [view_setProcess, if_neg (by rw [hstop]; decide)]
    exact Option.map_eq_some_iff.mpr ⟨_, hbench, rfl⟩
  | move c m =>
    obtain ⟨hrunning, h⟩ := Option.ite_none_right_eq_some.mp h
    obtain ⟨q, hmove, rfl⟩ := Option.map_eq_some_iff.mp h
    have hseen : s.seen (.move c m) = if q.call.stopped then some (.stop c) else none := by
      simp only [State.seen, hmove]
    obtain ⟨N, b, b', l, -, -, -, -, rfl⟩ := move_cases hmove
    rw [view_setProcess, hseen]
    by_cases hexit : b'.exit.isSome
    · rw [if_pos hexit]
      exact Or.inr ⟨.stop c, rfl, rfl⟩
    · rw [if_neg hexit]
      have hstop : ¬ (s.processes c).call.stopped = true := by
        rw [(running_iff.mp hrunning).1]
        decide
      exact Or.inl ⟨if_neg hstop, State.setClient_eq rfl⟩
  | aggregate c =>
    obtain ⟨hrunning, h⟩ := Option.ite_none_right_eq_some.mp h
    obtain ⟨q, haggregate, rfl⟩ := Option.map_eq_some_iff.mp h
    obtain ⟨v, hv, hq⟩ := Option.map_eq_some_iff.mp haggregate
    obtain ⟨N, b, k, numOps, v', hpc, -, -, -, -⟩ := aggregate_cases haggregate
    subst hq
    rw [view_setProcess]
    exact Or.inr ⟨.aggregate c v, congrArg (Option.map _) hv, if_pos ⟨(running_iff.mp hrunning).1, hpc⟩⟩
  | stop c =>
    cases h
    rw [view_setProcess]
    exact Or.inr ⟨.stop c, rfl, rfl⟩
  | driver =>
    obtain ⟨hrunning, h⟩ := Option.ite_none_left_eq_some.mp h
    obtain ⟨⟨d, r⟩, hmain, rfl⟩ := Option.map_eq_some_iff.mp h
    refine Or.inr ⟨.driver, rfl, ?_⟩
    show (if s.driver.stopped = true then none else _) = _
    rw [if_neg hrunning]
    exact Option.map_eq_some_iff.mpr ⟨_, hmain, rfl⟩
  | stopDriver =>
    cases h
    exact Or.inr ⟨.stopDriver, rfl, rfl⟩

theorem view_reachable (h : (machine κ n).Reachable s t) :
    (Multiclient.machine κ n).Reachable s.view t.view := by
  have hkeeps : (machine κ n).Preserves fun u => (Multiclient.machine κ n).Reachable s.view u.view := by
    intro u l v hu hstep
    rcases view_step hstep with ⟨-, hsame⟩ | ⟨l', -, hl'⟩
    · rwa [hsame]
    · exact hu.trans (.of_step hl')
  exact hkeeps.reachable (Machine.Reachable.refl _) h

-- ---------------------------------------------------------------------------
-- The threads and the commands
-- ---------------------------------------------------------------------------

/-- Where `bench` is among its loops, by the command that comes next. -/
def Phase (pc : Pc) (throughput : UInt64) {N : Nat} (b : Bench.State N) : Prop :=
  match pc with
  | .tryClaimSpot | .loadBenchParams => False
  | .started => (∃ i, b.bench = .create i) ∨ ∃ i, b.bench = .waitStarted i
  | .shouldMeasure => b.bench = .waitStarted N
  | .shouldReport => ∃ i, b.bench = .postMeasure i
  | .aggregating => (∃ i, b.bench = .postReport i) ∨ (∃ i, b.bench = .waitReported i) ∨
      ∃ i numOps v, b.bench = .aggregate i numOps v
  | .putReport | .reported | .exited => ∃ numOps, b.bench = .aggregate N numOps throughput

/-- The threads of a process run as those of a single client do, and as far as its commands
allow. -/
structure Linked (p : Process) : Prop where
  unloaded : p.threads = none ↔ ¬ p.call.Past .loadBenchParams
  reachable : ∀ N b, p.threads = some ⟨N, b⟩ →
    (Bench.machine N).Reachable (Bench.initial N p.host.1 p.host.2) b
  phase : ∀ N b, p.threads = some ⟨N, b⟩ → Phase p.call.pc p.call.throughput b
  going : ∀ N b, p.threads = some ⟨N, b⟩ → p.call.stopped = false → b.exit = none
  loaded : ∀ N b, p.threads = some ⟨N, b⟩ →
    ∃ params, p.call.params = some params ∧ N = params.N.toNat

theorem Linked.entry (host : Nat × Bench.Timespec) : Linked (.entry host) where
  unloaded := iff_of_true rfl (by show ¬ 1 < 0; decide)
  reachable := nofun
  phase := nofun
  going := nofun
  loaded := nofun

/-- The invariant of the threads. -/
theorem Linked.inv (h : Linked p) {N : Nat} {b : Bench.State N} (hb : p.threads = some ⟨N, b⟩) :
    Bench.Inv b :=
  Bench.inv_step.reachable (Bench.inv_initial N p.host.1 p.host.2) (h.reachable N b hb)

/-- A process that stops, at a command or because of its threads. -/
theorem Linked.stop (h : Linked p) {N : Nat} {b b' : Bench.State N} {l : Bench.Label N}
    (hb : p.threads = some ⟨N, b⟩) (hstep : (Bench.machine N).step b l = some b')
    (hphase : Phase p.call.pc p.call.throughput b') :
    Linked { p with
      threads := some ⟨N, b'⟩, call := if b'.exit.isSome then p.call.stop else p.call } := by
  have hsame : ∀ {τ : Type} (f : Client → τ), f p.call.stop = f p.call →
      f (if b'.exit.isSome then p.call.stop else p.call) = f p.call := by
    intro τ f hf
    split
    · exact hf
    · rfl
  have hpc := hsame Client.pc rfl
  refine ⟨?_, ?_, ?_, ?_, ?_⟩
  · rw [Client.Past, hpc]
    refine iff_of_false (Option.some_ne_none _) fun hnot => ?_
    rw [h.unloaded.mpr hnot] at hb
    cases hb
  · rintro _ _ ⟨⟩
    exact (h.reachable N b hb).trans (.of_step hstep)
  · rintro _ _ ⟨⟩
    rw [hpc, hsame Client.throughput rfl]
    exact hphase
  · rintro _ _ ⟨⟩ hrunning
    cases hexit : b'.exit with
    | none => rfl
    | some e =>
      rw [hexit] at hrunning
      cases hrunning
  · rintro _ _ ⟨⟩
    rw [hsame Client.params rfl]
    exact h.loaded N b hb

/-- A step of `bench` in one of its loops. -/
theorem phase_bench {pc : Pc} {v : UInt64} {N : Nat} {b b' : Bench.State N} (hinv : Bench.Inv b)
    (hphase : Phase pc v b) (hlooping : looping pc b = true) (hstep : Bench.bench b = some b') :
    Phase pc v b' := by
  have hround := hinv.round
  cases pc with
  | tryClaimSpot | loadBenchParams | shouldMeasure | putReport | reported | exited => cases hlooping
  | started =>
    have hnot : b.bench ≠ .waitStarted N := of_decide_eq_true hlooping
    rcases hphase with ⟨i, hi⟩ | ⟨i, hi⟩
    · cases Bench.bench_cases hstep with
      | create => exact Or.inl ⟨_, rfl⟩
      | next _ hnext =>
        rw [hi] at hnext
        cases hnext
        exact Or.inr ⟨_, rfl⟩
      | waitStarted hbench | postMeasure hbench | postReport hbench | waitReported hbench
      | add _ hbench | divide _ hbench | print hbench =>
        rw [hi] at hbench
        cases hbench
    · cases Bench.bench_cases hstep with
      | waitStarted => exact Or.inr ⟨_, rfl⟩
      | next hover =>
        rw [hi] at hround hover hnot
        exact absurd (congrArg _ (Nat.le_antisymm hround hover)) hnot
      | create _ hbench | postMeasure hbench | postReport hbench | waitReported hbench
      | add _ hbench | divide _ hbench | print hbench =>
        rw [hi] at hbench
        cases hbench
  | shouldReport =>
    have hnot : b.bench ≠ .postMeasure N := of_decide_eq_true hlooping
    obtain ⟨i, hi⟩ := hphase
    cases Bench.bench_cases hstep with
    | postMeasure => exact ⟨_, rfl⟩
    | next hover =>
      rw [hi] at hround hover hnot
      exact absurd (congrArg _ (Nat.le_antisymm hround hover)) hnot
    | create _ hbench | waitStarted hbench | postReport hbench | waitReported hbench
    | add _ hbench | divide _ hbench | print hbench =>
      rw [hi] at hbench
      cases hbench
  | aggregating =>
    cases Bench.bench_cases hstep with
    | postReport => exact Or.inl ⟨_, rfl⟩
    | waitReported => exact Or.inr (Or.inl ⟨_, rfl⟩)
    | add => exact Or.inr (Or.inr ⟨_, _, _, rfl⟩)
    | divide | print => exact hphase
    | next _ hnext =>
      rcases hphase with ⟨i, hi⟩ | ⟨i, hi⟩ | ⟨i, numOps, v, hi⟩
      · rw [hi] at hnext
        cases hnext
        exact Or.inr (Or.inl ⟨_, rfl⟩)
      · rw [hi] at hnext
        cases hnext
        exact Or.inr (Or.inr ⟨_, _, _, rfl⟩)
      · rw [hi] at hnext
        cases hnext
    | create _ hbench | waitStarted hbench | postMeasure hbench =>
      rcases hphase with ⟨i, hi⟩ | ⟨i, hi⟩ | ⟨i, numOps, v, hi⟩
      · rw [hi] at hbench
        cases hbench
      · rw [hi] at hbench
        cases hbench
      · rw [hi] at hbench
        cases hbench

/-- The threads' steps do not move `bench`. -/
theorem Phase.congr {pc : Pc} {v : UInt64} {N : Nat} {b b' : Bench.State N} (h : Phase pc v b)
    (hsame : b'.bench = b.bench) : Phase pc v b' := by
  unfold Phase at h ⊢
  rw [hsame]
  exact h

theorem Linked.move {m : Move} (h : Linked p) (hmove : p.move m = some q) : Linked q := by
  obtain ⟨N, b, b', l, hb, hl, hlooping, hstep, rfl⟩ := move_cases hmove
  have hphase := h.phase N b hb
  refine h.stop hb hstep ?_
  obtain ⟨-, hinner⟩ := Option.ite_none_left_eq_some.mp hstep
  cases m with
  | thread i =>
    obtain ⟨hi, heq⟩ := Option.dite_none_right_eq_some.mp hl
    cases heq
    obtain ⟨t, -, hmoved⟩ := Bench.client_cases hinner
    exact hphase.congr hmoved.bench
  | bench =>
    cases hl
    exact phase_bench (h.inv hb) hphase (hlooping rfl) hinner
  | tick d =>
    cases hl
    cases hinner
    exact hphase.congr rfl
  | fail =>
    cases hl
    cases hinner
    exact hphase.congr rfl

theorem Linked.aggregate (h : Linked p) (hstep : p.aggregate = some q) : Linked q := by
  obtain ⟨N, b, k, numOps, v, hpc, hb, hbench, hk, rfl⟩ := aggregate_cases hstep
  have hround := (h.inv hb).round
  rw [hbench] at hround
  obtain rfl : k = N := Nat.le_antisymm hround hk
  refine ⟨?_, h.reachable, ?_, h.going, h.loaded⟩
  · refine iff_of_false (fun hnone => ?_) (not_not_intro (by show 1 < 6; decide))
    rw [hb] at hnone
    cases hnone
  · intro N' b' hb'
    rw [hb] at hb'
    cases hb'
    exact ⟨numOps, hbench⟩

/-- A command after which the threads are as they were. -/
theorem Linked.same {x : Client} (h : Linked p) (hproceed : p.proceed x = p.threads)
    (hpast : x.Past .loadBenchParams ↔ p.call.Past .loadBenchParams) (hparams : x.params = p.call.params)
    (hstop : x.stopped = false → p.call.stopped = false)
    (hphase : ∀ N (b : Bench.State N), p.threads = some ⟨N, b⟩ → Phase x.pc x.throughput b) :
    Linked { p with call := x, threads := p.proceed x } := by
  rw [hproceed]
  refine ⟨h.unloaded.trans (not_congr hpast).symm, h.reachable, hphase,
    fun N b hb hx => h.going N b hb (hstop hx), fun N b hb => ?_⟩
  rw [hparams]
  exact h.loaded N b hb

/-- A command after which `bench` is at the beginning of its next loop. -/
theorem Linked.next {x : Client} {N : Nat} {b u : Bench.State N} (h : Linked p)
    (hb : p.threads = some ⟨N, b⟩) (hproceed : p.proceed x = some ⟨N, u⟩) (hstep : Bench.bench b = some u)
    (hgoes : u.exit = b.exit) (hrunning : p.call.stopped = false) (hx : x.Past .loadBenchParams)
    (hparams : x.params = p.call.params) (hphase : Phase x.pc x.throughput u) :
    Linked { p with call := x, threads := p.proceed x } := by
  have hnone := h.going N b hb hrunning
  have hrun : (Bench.machine N).step b .bench = some u := by
    simp [Bench.machine, Bench.step, hnone, hstep]
  rw [hproceed]
  refine ⟨iff_of_false (Option.some_ne_none _) (not_not_intro hx), ?_, ?_, ?_, ?_⟩
  · rintro _ _ ⟨⟩
    exact (h.reachable N b hb).trans (.of_step hrun)
  · rintro _ _ ⟨⟩
    exact hphase
  · rintro _ _ ⟨⟩ -
    exact hgoes.trans hnone
  · rintro _ _ ⟨⟩
    rw [hparams]
    exact h.loaded N b hb

theorem Linked.command (h : Linked p) (hrunning : p.call.stopped = false)
    (hstep : p.command r = some (q, r')) : Linked q := by
  obtain ⟨harrived, x, hbench, rfl⟩ := command_call hstep
  have hproceed : ∀ y : Client, y.pc = p.call.pc → p.proceed y = p.threads := by
    intro y hy
    unfold Process.proceed
    rw [hy]
    cases p.call.pc <;> rfl
  -- a command that is repeated, or after which the process stops
  have hstay : ∀ y : Client, y.pc = p.call.pc → y.params = p.call.params →
      y.throughput = p.call.throughput →
      Linked { p with call := y, threads := p.proceed y } := by
    intro y hy hparams hthroughput
    refine h.same (hproceed y hy) (Client.past_of_eq hy) hparams (fun _ => hrunning) fun N b hb => ?_
    rw [hy, hthroughput]
    exact h.phase N b hb
  cases hpc : p.call.pc with
  | tryClaimSpot =>
    have hnone : p.threads = none := h.unloaded.mpr fun hpast => absurd ((Client.past_iff hpc).mp hpast) (by decide)
    simp only [Client.bench, hpc, Option.some.injEq, Prod.mk.injEq] at hbench
    obtain ⟨rfl, -⟩ := hbench
    split
    · refine h.same ?_ (iff_of_false (by show ¬ 1 < 1; decide) ?_) rfl (fun _ => hrunning) fun N b hb => ?_
      · rw [Process.proceed, hpc]
      · exact fun hpast => absurd ((Client.past_iff hpc).mp hpast) (by decide)
      · rw [hnone] at hb
        cases hb
    · exact hstay _ rfl rfl rfl
  | loadBenchParams =>
    simp only [Client.bench, hpc] at hbench
    split at hbench
    · next params hload =>
      cases hbench
      have hnew : ∀ y : Client, y.pc = .started → p.proceed y = y.params.map fun params =>
          ⟨params.N.toNat, Bench.initial params.N.toNat p.host.1 p.host.2⟩ := by
        intro y hy
        rw [Process.proceed, hpc, hy]
      rw [hnew _ rfl]
      refine ⟨iff_of_false (Option.some_ne_none _) (not_not_intro (by show 1 < 2; decide)), ?_, ?_, ?_, ?_⟩
      · rintro _ _ ⟨⟩
        exact Machine.Reachable.refl _
      · rintro _ _ ⟨⟩
        exact Or.inl ⟨0, rfl⟩
      · rintro _ _ ⟨⟩ -
        rfl
      · rintro _ _ ⟨⟩
        exact ⟨params, rfl, rfl⟩
    · cases hbench
      exact hstay _ rfl rfl rfl
  | started =>
    simp only [Client.bench, hpc] at hbench
    cases hbench
    refine h.same ?_ (iff_of_true (by show 1 < 3; decide) ((Client.past_iff hpc).mpr (by decide))) rfl
      (fun _ => hrunning) fun N b hb => ?_
    · rw [Process.proceed, hpc]
    · rw [hpc, hb] at harrived
      have hwaits : b.bench = .waitStarted N := of_decide_eq_true harrived
      exact hwaits
  | shouldMeasure =>
    simp only [Client.bench, hpc] at hbench
    cases hbench
    unfold Client.poll
    split
    · obtain ⟨⟨N, b⟩, hb⟩ : ∃ t, p.threads = some t := by
        rw [← Option.ne_none_iff_exists', ne_eq, h.unloaded]
        exact not_not_intro ((Client.past_iff hpc).mpr (by decide))
      have hwaits : b.bench = .waitStarted N := by
        rw [hpc, hb] at harrived
        exact of_decide_eq_true harrived
      refine h.next (u := { b with bench := .postMeasure 0 }) hb ?_ ?_ rfl hrunning
        (by show 1 < 4; decide) rfl ⟨0, rfl⟩
      · rw [Process.proceed, hpc, hb]
        rfl
      · simp [Bench.bench, hwaits]
    · exact hstay _ rfl rfl rfl
    · exact hstay _ rfl rfl rfl
  | shouldReport =>
    simp only [Client.bench, hpc] at hbench
    cases hbench
    unfold Client.poll
    split
    · obtain ⟨⟨N, b⟩, hb⟩ : ∃ t, p.threads = some t := by
        rw [← Option.ne_none_iff_exists', ne_eq, h.unloaded]
        exact not_not_intro ((Client.past_iff hpc).mpr (by decide))
      have hwaits : b.bench = .postMeasure N := by
        rw [hpc, hb] at harrived
        exact of_decide_eq_true harrived
      refine h.next (u := { b with bench := .postReport 0 }) hb ?_ ?_ rfl hrunning
        (by show 1 < 5; decide) rfl (Or.inl ⟨0, rfl⟩)
      · rw [Process.proceed, hpc, hb]
        rfl
      · simp [Bench.bench, hwaits]
    · exact hstay _ rfl rfl rfl
    · exact hstay _ rfl rfl rfl
  | putReport =>
    simp only [Client.bench, hpc, Option.some.injEq, Prod.mk.injEq] at hbench
    obtain ⟨rfl, -⟩ := hbench
    split
    · refine h.same ?_ (iff_of_true (by show 1 < 7; decide) ((Client.past_iff hpc).mpr (by decide))) rfl
        (fun _ => hrunning) fun N b hb => ?_
      · rw [Process.proceed, hpc]
      · have hphase := h.phase N b hb
        rw [hpc] at hphase
        exact hphase
    · exact hstay _ rfl rfl rfl
  | reported =>
    simp only [Client.bench, hpc] at hbench
    cases hbench
    refine h.same ?_ (iff_of_true (by show 1 < 8; decide) ((Client.past_iff hpc).mpr (by decide))) rfl
      (fun _ => hrunning) fun N b hb => ?_
    · rw [Process.proceed, hpc]
    · have hphase := h.phase N b hb
      rw [hpc] at hphase
      exact hphase
  | aggregating | exited =>
    simp only [Client.bench, hpc] at hbench
    cases hbench

/-- Every process is linked, all along. -/
theorem linked_step : (machine κ n).Preserves fun s => ∀ c, Linked (s.processes c) := by
  intro s l t h hstep
  cases l with
  | command c =>
    obtain ⟨hrunning, hstep⟩ := Option.ite_none_right_eq_some.mp hstep
    obtain ⟨⟨q, r⟩, hcommand, rfl⟩ := Option.map_eq_some_iff.mp hstep
    exact forall_update h ((h c).command (running_iff.mp hrunning).1 hcommand)
  | move c m =>
    obtain ⟨-, hstep⟩ := Option.ite_none_right_eq_some.mp hstep
    obtain ⟨q, hmove, rfl⟩ := Option.map_eq_some_iff.mp hstep
    exact forall_update h ((h c).move hmove)
  | aggregate c =>
    obtain ⟨-, hstep⟩ := Option.ite_none_right_eq_some.mp hstep
    obtain ⟨q, haggregate, rfl⟩ := Option.map_eq_some_iff.mp hstep
    exact forall_update h ((h c).aggregate haggregate)
  | stop c =>
    cases hstep
    refine forall_update h ?_
    obtain ⟨hunloaded, hreachable, hphase, -, hloaded⟩ := h c
    exact ⟨hunloaded, hreachable, hphase, fun _ _ _ => nofun, hloaded⟩
  | driver =>
    obtain ⟨-, hstep⟩ := Option.ite_none_left_eq_some.mp hstep
    obtain ⟨⟨d, r⟩, -, rfl⟩ := Option.map_eq_some_iff.mp hstep
    exact h
  | stopDriver =>
    cases hstep
    exact h

-- ---------------------------------------------------------------------------
-- What the processes have from the driver
-- ---------------------------------------------------------------------------

/-- Who is past `dflag_wait(should_measure)` has it from the driver. -/
def Measured (s : Multiclient.State κ) : Prop :=
  ∀ c, (s.clients c).Past .shouldMeasure → s.driver.Past .measure

theorem bench_measure {y x : Client} (h : y.bench r = some (x, r')) (hy : ¬ y.Past .shouldMeasure)
    (hx : x.Past .shouldMeasure) : dflagWait r .shouldMeasure = some true := by
  have hdid := did_of_bench h
  cases hpc : y.pc with
  | shouldMeasure =>
    simp only [Client.bench, hpc] at h
    cases h
    unfold Client.poll at hx
    split at hx
    · next hflag => exact hflag
    · exact absurd hx hy
    · exact absurd hx hy
  | tryClaimSpot | loadBenchParams | started =>
    cases hdid with
    | idle _ hsame => exact absurd ((Client.past_of_eq hsame).mp hx) hy
    | refused => exact absurd hx hy
    | claimed => exact absurd hx (by show ¬ 3 < 1; decide)
    | loaded => exact absurd hx (by show ¬ 3 < 2; decide)
    | started => exact absurd hx (by show ¬ 3 < 3; decide)
    | measuring hpc' | reporting hpc' | aggregated _ hpc' | put hpc' | reported hpc' =>
      rw [hpc] at hpc'
      cases hpc'
  | shouldReport | aggregating | putReport | reported | exited =>
    exact absurd ((Client.past_iff hpc).mpr (by decide)) hy

theorem bench_params {y x : Client} (h : y.bench r = some (x, r')) (hx : x.Past .loadBenchParams) :
    y.Past .loadBenchParams ∧ x.params = y.params ∨ x.params = loadBenchParams r := by
  cases hpc : y.pc with
  | tryClaimSpot =>
    simp only [Client.bench, hpc] at h
    cases h
    split at hx
    · exact absurd hx (by show ¬ 1 < 1; decide)
    · exact absurd ((Client.past_iff hpc).mp hx) (by decide)
  | loadBenchParams =>
    simp only [Client.bench, hpc] at h
    split at h
    · next params hload =>
      cases h
      exact Or.inr hload.symm
    · cases h
      exact absurd ((Client.past_iff hpc).mp hx) (by decide)
  | started | reported =>
    simp only [Client.bench, hpc] at h
    cases h
    exact Or.inl ⟨(Client.past_iff hpc).mpr (by decide), rfl⟩
  | shouldMeasure | shouldReport =>
    simp only [Client.bench, hpc] at h
    cases h
    refine Or.inl ⟨(Client.past_iff hpc).mpr (by decide), ?_⟩
    unfold Client.poll
    split
    · rfl
    · rfl
    · rfl
  | putReport =>
    simp only [Client.bench, hpc] at h
    cases h
    refine Or.inl ⟨(Client.past_iff hpc).mpr (by decide), ?_⟩
    split
    · rfl
    · rfl
  | aggregating | exited =>
    simp only [Client.bench, hpc] at h
    cases h

/-- The parameters are those that the driver has written. -/
def Parameters (params : BenchmarkParams) (s : Multiclient.State κ) : Prop :=
  loadBenchParams s.store =
      some ⟨atoi (chars (utf8 params.numThreads)), utf8 params.serverAddress,
        utf8 (decimal params.serverPort)⟩ ∧
    ∀ c, (s.clients c).Past .loadBenchParams → (s.clients c).params =
      some ⟨atoi (chars (utf8 params.numThreads)), utf8 params.serverAddress,
        utf8 (decimal params.serverPort)⟩

theorem loadBenchParams_congr (h : ∀ k, k = .numthreads ∨ k = .address ∨ k = .port → r' k = r k) :
    loadBenchParams r' = loadBenchParams r := by
  simp only [loadBenchParams, Store.mget, List.map_cons, List.map_nil, h .numthreads (Or.inl rfl),
    h .address (Or.inr (Or.inl rfl)), h .port (Or.inr (Or.inr rfl))]

omit [DecidableEq κ] in
theorem parameters_initial (params : BenchmarkParams) :
    Parameters params (Multiclient.initial κ (fun _ => none) params) :=
  ⟨rfl, fun _ h => absurd h (by show ¬ 1 < 0; decide)⟩

theorem drove_rank_le {d d' : Driver} (h : Drove n r d d' r') : d.pc.rank ≤ d'.pc.rank := by
  cases h with
  | idle _ hpc => rw [hpc]
  | started hpc =>
    rw [hpc]
    exact Nat.le_succ 0
  | measure hpc =>
    rw [hpc]
    exact Nat.le_succ 1
  | report hpc =>
    rw [hpc]
    exact Nat.le_succ 2
  | collected hpc =>
    rw [hpc]
    exact Nat.le_succ 3
  | printed z hpc =>
    rw [hpc]
    exact Nat.le_succ 4

/-- What the processes have from the driver, all along. -/
theorem given_step (params : BenchmarkParams) : (Multiclient.machine κ n).Preserves fun s =>
    Inv n s ∧ Measured s ∧ Parameters params s := by
  refine inv_step.and fun s l t h _ ⟨hmeasured, hload, hparams⟩ hstep => ?_
  cases l with
  | client c =>
    obtain ⟨-, hstep⟩ := Option.ite_none_left_eq_some.mp hstep
    obtain ⟨⟨x, r⟩, hbench, rfl⟩ := Option.map_eq_some_iff.mp hstep
    refine ⟨?_, ?_, ?_⟩
    · refine forall_update (P := fun y : Client => y.Past .shouldMeasure → s.driver.Past .measure)
        hmeasured fun hx => ?_
      by_cases hpast : (s.clients c).Past .shouldMeasure
      · exact hmeasured c hpast
      · have hflag := bench_measure hbench hpast hx
        rw [h.shouldMeasure.wait, Option.some.injEq, decide_eq_true_eq] at hflag
        exact hflag
    · exact (loadBenchParams_congr (did_of_bench hbench).keys.1).trans hload
    · refine forall_update (P := fun y : Client => y.Past .loadBenchParams → y.params = _)
        hparams fun hx => ?_
      rcases bench_params hbench hx with ⟨hpast, hsame⟩ | hnew
      · rw [hsame, hparams c hpast]
      · rw [hnew, hload]
  | aggregate c v =>
    obtain ⟨⟨-, hpc⟩, heq⟩ := Option.ite_none_right_eq_some.mp hstep
    cases heq
    refine ⟨?_, hload, ?_⟩
    · exact forall_update (P := fun y : Client => y.Past .shouldMeasure → s.driver.Past .measure)
        hmeasured fun _ => hmeasured c ((Client.past_iff hpc).mpr (by decide))
    · exact forall_update (P := fun y : Client => y.Past .loadBenchParams → y.params = _)
        hparams fun _ => hparams c ((Client.past_iff hpc).mpr (by decide))
  | stop c =>
    cases hstep
    refine ⟨?_, hload, ?_⟩
    · exact forall_update (P := fun y : Client => y.Past .shouldMeasure → s.driver.Past .measure)
        hmeasured (hmeasured c)
    · exact forall_update (P := fun y : Client => y.Past .loadBenchParams → y.params = _)
        hparams (hparams c)
  | driver =>
    obtain ⟨-, hstep⟩ := Option.ite_none_left_eq_some.mp hstep
    obtain ⟨⟨d, r⟩, hmain, rfl⟩ := Option.map_eq_some_iff.mp hstep
    have hdrove := drove_of_main hmain
    refine ⟨fun c hc => (hmeasured c hc).trans_le (drove_rank_le hdrove), ?_, hparams⟩
    refine (loadBenchParams_congr fun k hk => ?_).trans hload
    cases hdrove with
    | idle | started | collected | printed => rfl
    | measure | report =>
      refine Store.set_of_ne _ ?_
      rcases hk with rfl | rfl | rfl <;> decide
  | stopDriver =>
    cases hstep
    exact ⟨hmeasured, hload, hparams⟩

-- ---------------------------------------------------------------------------
-- Every run
-- ---------------------------------------------------------------------------

/-- How many threads each process has. -/
def numThreads (params : BenchmarkParams) : Nat := (atoi (chars (utf8 params.numThreads))).toNat

/-- What holds of the threads and of the commands together. -/
structure Together (params : BenchmarkParams) (s : State κ) : Prop where
  inv : Inv params.numClients s.view
  measured : Measured s.view
  parameters : Parameters params s.view
  linked : ∀ c, Linked (s.processes c)

theorem together (host : κ → Nat × Bench.Timespec) (params : BenchmarkParams)
    (hs : (machine κ params.numClients).Reachable (initial κ host params) s) : Together params s := by
  have hview : (Multiclient.machine κ params.numClients).Reachable
      (Multiclient.initial κ (fun _ => none) params) s.view := view_reachable hs
  obtain ⟨hinv, hmeasured, hparams⟩ := (given_step params).reachable
    ⟨inv_initial params, fun _ h => absurd h (by show ¬ 3 < 0; decide), parameters_initial params⟩ hview
  exact ⟨hinv, hmeasured, hparams, linked_step.reachable (fun c => .entry (host c)) hs⟩

omit [DecidableEq κ] in
/-- A process that has loaded its parameters has as many threads as the driver asked for. -/
theorem Together.threads {params : BenchmarkParams} (h : Together params s)
    (hpast : (s.processes c).call.Past .loadBenchParams) :
    ∃ b : Bench.State (numThreads params), (s.processes c).threads = some ⟨_, b⟩ := by
  obtain ⟨⟨N, b⟩, hb⟩ : ∃ t, (s.processes c).threads = some t := by
    rw [← Option.ne_none_iff_exists', ne_eq, (h.linked c).unloaded]
    exact not_not_intro hpast
  obtain ⟨params', hparams', rfl⟩ := (h.linked c).loaded N b hb
  have hsame := h.parameters.2 c hpast
  have hcall : (s.view.clients c).params = some params' := hparams'
  rw [hcall, Option.some.injEq] at hsame
  subst hsame
  exact ⟨b, hb⟩

/-- Who has counted itself as started has an operation of each of its threads behind it. -/
theorem Linked.calls (h : Linked p) {N : Nat} {b : Bench.State N} (hb : p.threads = some ⟨N, b⟩)
    (hpast : p.call.Past .started) (j : Fin N) : 1 ≤ (b.threads j).calls := by
  refine (h.inv hb).calls ?_ j
  have hphase := h.phase N b hb
  cases hpc : p.call.pc with
  | tryClaimSpot | loadBenchParams | started =>
    exact absurd ((Client.past_iff hpc).mp hpast) (by decide)
  | shouldMeasure =>
    rw [hpc] at hphase
    have hbench : b.bench = .waitStarted N := hphase
    rw [hbench]
    rfl
  | shouldReport =>
    rw [hpc] at hphase
    obtain ⟨i, hi⟩ := hphase
    rw [hi]
    rfl
  | aggregating =>
    rw [hpc] at hphase
    rcases hphase with ⟨i, hi⟩ | ⟨i, hi⟩ | ⟨i, numOps, v, hi⟩
    · rw [hi]
      rfl
    · rw [hi]
      rfl
    · rw [hi]
      rfl
  | putReport | reported | exited =>
    rw [hpc] at hphase
    obtain ⟨numOps, hi⟩ := hphase
    rw [hi]
    rfl

/-- A thread that has its `should_measure` token has it from a process past the flag. -/
theorem Linked.past_of_measure (h : Linked p) {N : Nat} {b : Bench.State N}
    (hb : p.threads = some ⟨N, b⟩) {i : Fin N} (hi : (b.threads i).measure ≠ 0) :
    p.call.Past .shouldMeasure := by
  have hinv := h.inv hb
  -- the token was posted before it was taken
  have hposted : b.bench.measurePosted N ≠ 0 := by
    have hle := le_total (g := Bench.Thread.measure) (f := b.threads) i
    have htaken := b.shouldMeasure.taken_le_posted
    rw [hinv.measureTaken, hinv.measurePosted] at htaken
    omega
  have hphase := h.phase N b hb
  cases hpc : p.call.pc with
  | shouldReport | aggregating | putReport | reported | exited => exact (Client.past_iff hpc).mpr (by decide)
  | tryClaimSpot | loadBenchParams =>
    rw [hpc] at hphase
    exact absurd hphase id
  | started =>
    rw [hpc] at hphase
    rcases hphase with ⟨k, hk⟩ | ⟨k, hk⟩
    · rw [hk] at hposted
      exact absurd rfl hposted
    · rw [hk] at hposted
      exact absurd rfl hposted
  | shouldMeasure =>
    rw [hpc] at hphase
    have hbench : b.bench = .waitStarted N := hphase
    rw [hbench] at hposted
    exact absurd rfl hposted

/-- A thread that has its `should_report` token has it from a process past the flag. -/
theorem Linked.past_of_report (h : Linked p) {N : Nat} {b : Bench.State N}
    (hb : p.threads = some ⟨N, b⟩) {i : Fin N} (hi : (b.threads i).report ≠ 0) :
    p.call.Past .shouldReport := by
  have hinv := h.inv hb
  have hposted : b.bench.reportPosted N ≠ 0 := by
    have hle := le_total (g := Bench.Thread.report) (f := b.threads) i
    have htaken := b.shouldReport.taken_le_posted
    rw [hinv.reportTaken, hinv.reportPosted] at htaken
    omega
  have hphase := h.phase N b hb
  cases hpc : p.call.pc with
  | aggregating | putReport | reported | exited => exact (Client.past_iff hpc).mpr (by decide)
  | tryClaimSpot | loadBenchParams =>
    rw [hpc] at hphase
    exact absurd hphase id
  | started =>
    rw [hpc] at hphase
    rcases hphase with ⟨k, hk⟩ | ⟨k, hk⟩
    · rw [hk] at hposted
      exact absurd rfl hposted
    · rw [hk] at hposted
      exact absurd rfl hposted
  | shouldMeasure =>
    rw [hpc] at hphase
    have hbench : b.bench = .waitStarted N := hphase
    rw [hbench] at hposted
    exact absurd rfl hposted
  | shouldReport =>
    rw [hpc] at hphase
    obtain ⟨k, hk⟩ := hphase
    rw [hk] at hposted
    exact absurd rfl hposted

/-- **The barrier across processes.** On an empty store, for any number of processes, in every
state that any order of commands, thread steps, failures and kills leads to: every process
that has loaded the parameters has as many threads as the driver asked for; a thread of any
process that has its `should_measure` token has it from the driver, and by then as many
processes as there are places, each with a place of its own, have an operation of every one of
their threads behind them; and a `should_report` token comes from the driver too. -/
theorem system_barrier (host : κ → Nat × Bench.Timespec) (params : BenchmarkParams) (s : State κ)
    (hs : (machine κ params.numClients).Reachable (initial κ host params) s) :
    (∀ c, (s.processes c).call.Past .loadBenchParams →
      ∃ b : Bench.State (numThreads params), (s.processes c).threads = some ⟨_, b⟩) ∧
    (∀ c N (b : Bench.State N) i, (s.processes c).threads = some ⟨N, b⟩ →
      (b.threads i).measure ≠ 0 → s.driver.Past .measure ∧
      ∃ A : Finset κ, A.card = params.numClients ∧
        ∀ d ∈ A, (s.processes d).call.Past .tryClaimSpot ∧ ∃ b' : Bench.State (numThreads params),
          (s.processes d).threads = some ⟨_, b'⟩ ∧ ∀ j, 1 ≤ (b'.threads j).calls) ∧
    ∀ c N (b : Bench.State N) i, (s.processes c).threads = some ⟨N, b⟩ →
      (b.threads i).report ≠ 0 → s.driver.Past .report := by
  have h := together host params hs
  refine ⟨fun c hpast => h.threads hpast, fun c N b i hb hi => ?_, fun c N b i hb hi => ?_⟩
  · have hpast := (h.linked c).past_of_measure hb hi
    have hdriver := h.measured c hpast
    refine ⟨hdriver, ?_⟩
    obtain ⟨k, hk, hle⟩ := h.inv.measuring (Nat.lt_trans (by decide) hdriver)
    obtain ⟨_, m, -, hm, hsum, -⟩ := h.inv.places
    have hkm : k ≤ m := hk.le (fun d hd => Nat.lt_trans (by decide) hd) hm
    obtain ⟨A, hA, rfl⟩ := hk
    refine ⟨A, by omega, fun d hd => ?_⟩
    have hstarted : (s.processes d).call.Past .started := (hA d).mp hd
    obtain ⟨b', hb'⟩ := h.threads (Nat.lt_trans (by decide) hstarted)
    exact ⟨Nat.lt_trans (by decide) hstarted, b', hb', (h.linked d).calls hb' hstarted⟩
  · exact h.inv.released c ((h.linked c).past_of_report hb hi)

/-- **What the driver prints, thread by thread.** When it has printed `z`, each of as many
processes as there are places has led all of its threads through the benchmark, each thread
counted the operations between its two tokens, and `z` is the sum over the processes of the
sum over their threads of the operations per second. -/
theorem overall_throughput (host : κ → Nat × Bench.Timespec) (params : BenchmarkParams) (s : State κ)
    (hs : (machine κ params.numClients).Reachable (initial κ host params) s) (z : Int)
    (hz : s.driver.pc = .printed z) :
    ∃ (A : Finset κ) (b : κ → Bench.State (numThreads params)), A.card = params.numClients ∧
      (∀ c ∈ A, (s.processes c).threads = some ⟨_, b c⟩ ∧ ∀ i, ((b c).threads i).Final) ∧
      z = ∑ c ∈ A, (wrapSum (List.ofFn fun i => ((b c).threads i).args.throughput)).toBitVec.toInt := by
  have h := together host params hs
  obtain ⟨A, hcard, hA, rfl⟩ := h.inv.printed z hz
  have hdriver : s.driver.Past .reported := by
    show 3 < s.driver.pc.rank
    rw [hz]
    exact Nat.lt_add_of_pos_right (by decide : 0 < 2)
  -- whoever has a place has exited, so its last loop is over
  have hexited : ∀ c ∈ A, (s.processes c).call.pc = .exited := by
    intro c hc
    have hreported : (s.processes c).call.Past .reported := h.inv.all_reported hdriver ((hA c).mp hc)
    cases hpc : (s.processes c).call.pc with
    | exited => rfl
    | tryClaimSpot | loadBenchParams | started | shouldMeasure | shouldReport | aggregating | putReport
    | reported => exact absurd ((Client.past_iff hpc).mp hreported) (by decide)
  have hthreads : ∀ c, ∃ b : Bench.State (numThreads params), c ∈ A →
      (s.processes c).threads = some ⟨_, b⟩ := by
    intro c
    by_cases hc : c ∈ A
    · obtain ⟨b, hb⟩ := h.threads (c := c) ((Client.past_iff (hexited c hc)).mpr (by decide))
      exact ⟨b, fun _ => hb⟩
    · exact ⟨Bench.initial _ 0 ⟨0, 0⟩, fun hc' => absurd hc' hc⟩
  choose b hb using hthreads
  have hbench : ∀ c ∈ A, ∃ numOps, (b c).bench =
      .aggregate (numThreads params) numOps (s.processes c).call.throughput := by
    intro c hc
    have hphase := (h.linked c).phase _ _ (hb c hc)
    rw [hexited c hc] at hphase
    exact hphase
  refine ⟨A, b, hcard, fun c hc => ⟨hb c hc, fun i => ?_⟩, Finset.sum_congr rfl fun c hc => ?_⟩
  · obtain ⟨numOps, hagg⟩ := hbench c hc
    exact ((h.linked c).inv (hb c hc)).final (by rw [hagg]; rfl) i
  · obtain ⟨numOps, hagg⟩ := hbench c hc
    show (s.processes c).call.throughput.toBitVec.toInt = _
    rw [Bench.throughput_of_aggregate ((h.linked c).reachable _ _ (hb c hc)) hagg]

-- ---------------------------------------------------------------------------
-- Two processes with two threads each
-- ---------------------------------------------------------------------------

/-- Two places, for processes with two threads. -/
def twoProcesses : BenchmarkParams := ⟨2, ['2'], ['n', 'o', 'd', 'e', '0'], 12345⟩

/-- `k` steps of `bench` in its loops, and of each of two threads. -/
def rounds (c : Bool) (k : Nat) : List (Label Bool) := List.replicate k (.move c .bench)

def both (c : Bool) (k : Nat) : List (Label Bool) :=
  List.replicate k (.move c (.thread 0)) ++ List.replicate k (.move c (.thread 1))

def starts (c : Bool) : List (Label Bool) :=
  [.command c, .command c] ++ rounds c 3 ++ both c 2 ++ rounds c 2 ++ [.command c]

def measures (c : Bool) : List (Label Bool) := [.command c] ++ rounds c 2 ++ both c 6

/-- The clock moves by `d` while the threads make their one operation. -/
def reports (c : Bool) (d : Nat) : List (Label Bool) :=
  [.command c] ++ rounds c 2 ++ [.move c (.tick d)] ++ both c 4 ++ rounds c 6 ++
    [.aggregate c, .command c, .command c]

/-- Until the threads of the one process measure, and those of the other do not yet. -/
def halfRun : List (Label Bool) :=
  starts true ++ starts false ++ [.driver, .driver] ++ measures false

def twoProcessesRun : List (Label Bool) :=
  halfRun ++ measures true ++ [.driver] ++ reports true 5 ++ reports false 8 ++ [.driver, .driver]

theorem system_barrier_twoProcesses : ∃ s : State Bool, (s.processes true).call.pc = .shouldMeasure ∧
    s.driver.Past .measure ∧ ∃ A : Finset Bool, A.card = 2 ∧
      ∀ d ∈ A, (s.processes d).call.Past .tryClaimSpot ∧ ∃ b : Bench.State 2,
        (s.processes d).threads = some ⟨_, b⟩ ∧ ∀ j, 1 ≤ (b.threads j).calls := by
  have hview : ((machine Bool 2).exec (initial Bool (fun _ => (0, ⟨0, 0⟩)) twoProcesses) halfRun).map
      (fun s => ((s.processes true).call.pc, (s.processes false).threads.map fun b =>
        decide (∃ i, (b.2.threads i).measure ≠ 0))) = some (.shouldMeasure, some true) := by
    decide +kernel
  obtain ⟨s, hrun, hs⟩ := Option.map_eq_some_iff.mp hview
  obtain ⟨hpc, hmeasure⟩ := Prod.mk.inj hs
  obtain ⟨⟨N, b⟩, hb, hsome⟩ := Option.map_eq_some_iff.mp hmeasure
  obtain ⟨i, hi⟩ := of_decide_eq_true hsome
  obtain ⟨-, hbarrier, -⟩ := system_barrier _ twoProcesses s ⟨_, hrun⟩
  exact ⟨s, hpc, hbarrier false N b i hb hi⟩

theorem overall_throughput_twoProcesses : ∃ (s : State Bool) (A : Finset Bool)
    (b : Bool → Bench.State 2), s.driver.pc = .printed 650000000 ∧ A.card = 2 ∧
      650000000 = ∑ c ∈ A,
        (wrapSum (List.ofFn fun i => ((b c).threads i).args.throughput)).toBitVec.toInt := by
  have hview : ((machine Bool 2).exec (initial Bool (fun _ => (0, ⟨0, 0⟩)) twoProcesses)
      twoProcessesRun).map (fun s => s.driver.pc) = some (.printed 650000000) := by decide +kernel
  obtain ⟨s, hrun, hpc⟩ := Option.map_eq_some_iff.mp hview
  obtain ⟨A, b, hcard, -, hsum⟩ := overall_throughput _ twoProcesses s ⟨_, hrun⟩ _ hpc
  exact ⟨s, A, b, hpc, hcard, hsum⟩

end EchoServer.Multiclient.System
