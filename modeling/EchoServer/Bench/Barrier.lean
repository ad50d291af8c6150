import EchoServer.Bench.Model

/-!
# client.c, multiclient.c — the phase barrier

The semaphores are anonymous: a token is for whichever thread comes first. What keeps
the threads apart is that each takes one token of a kind and `bench` posts one for each
thread, so that there is one left for each thread that has none yet.

The invariant counts: how often each semaphore was posted and taken from is what the place
of `bench` and the places of the threads say. A step of a thread changes the two counts it
is about by one, and everything else is the sum over the other threads.

Nothing is assumed of the scheduler, the server or the clock: these are facts about every
state of every schedule, also of one in which an operation never comes back.

Main results:

* `client_cases` — every step of a thread, and what it does to the semaphores;
* `inv_step` — each semaphore is posted and taken from by whom the phases say;
* `bench_phases` — the phase barrier, for every number of threads and every schedule.
-/

namespace EchoServer.Bench

open EchoServer.Lib

variable {N : Nat} {s u : State N} {i : Fin N} {t t' : Thread} {clock : Nat}

-- ---------------------------------------------------------------------------
-- One thread
-- ---------------------------------------------------------------------------

/-- Everything a thread can do by itself. -/
inductive Thread.Step (clock : Nat) (t : Thread) : Thread → Prop
  | firstOperation : t.pc = .firstOperation →
      Step clock t { t.oneOperation with pc := .postStarted }
  | postStarted : t.pc = .postStarted →
      Step clock t { t with pc := .tryMeasure, started := t.started + 1 }
  | measure : t.pc = .tryMeasure →
      Step clock t { t with pc := .readStart, measure := t.measure + 1 }
  | noMeasure : t.pc = .tryMeasure → Step clock t { t with pc := .warmUp }
  | warmUp : t.pc = .warmUp → Step clock t { t.oneOperation with pc := .tryMeasure }
  | readStart : t.pc = .readStart →
      Step clock t { t with pc := .resetOps, start := clockGettime clock }
  | resetOps : t.pc = .resetOps →
      Step clock t { t with pc := .tryReport, args := { t.args with numOps := 0 } }
  | report : t.pc = .tryReport → Step clock t { t with pc := .readEnd, report := t.report + 1 }
  | noReport : t.pc = .tryReport → Step clock t { t with pc := .operate }
  | operate : t.pc = .operate → Step clock t { t.oneOperation with pc := .countOp }
  | countOp : t.pc = .countOp →
      Step clock t { t with pc := .tryReport, args := { t.args with numOps := t.args.numOps + 1 } }
  | readEnd : t.pc = .readEnd →
      Step clock t { t with pc := .storeRuntime, stop := clockGettime clock }
  | storeRuntime : t.pc = .storeRuntime →
      Step clock t
        { t with pc := .postReported, args := { t.args with runtime := elapsed t.start t.stop } }
  | postReported : t.pc = .postReported →
      Step clock t { t with pc := .runForever, reported := t.reported + 1 }
  | runForever : t.pc = .runForever → Step clock t t.oneOperation

/-- A thread's move leaves the rest as it is, but for the tokens it posts and takes. -/
structure Moved (s u : State N) (i : Fin N) (t : Thread) : Prop where
  threads : u.threads = Function.update s.threads i t
  bench : u.bench = s.bench
  clock : u.clock = s.clock
  started : u.started.taken = s.started.taken ∧
    u.started.posted + (s.threads i).started = s.started.posted + t.started
  measure : u.shouldMeasure.posted = s.shouldMeasure.posted ∧
    u.shouldMeasure.taken + (s.threads i).measure = s.shouldMeasure.taken + t.measure
  report : u.shouldReport.posted = s.shouldReport.posted ∧
    u.shouldReport.taken + (s.threads i).report = s.shouldReport.taken + t.report
  reported : u.reported.taken = s.reported.taken ∧
    u.reported.posted + (s.threads i).reported = s.reported.posted + t.reported

/-- A move that posts and takes nothing. -/
theorem Moved.quiet (hstarted : t.started = (s.threads i).started)
    (hmeasure : t.measure = (s.threads i).measure) (hreport : t.report = (s.threads i).report)
    (hreported : t.reported = (s.threads i).reported) : Moved s (s.setThread i t) i t :=
  ⟨rfl, rfl, rfl, ⟨rfl, by rw [hstarted]; rfl⟩, ⟨rfl, by rw [hmeasure]; rfl⟩,
    ⟨rfl, by rw [hreport]; rfl⟩, ⟨rfl, by rw [hreported]; rfl⟩⟩

theorem client_cases (h : client s i = some u) :
    ∃ t, (s.threads i).Step s.clock t ∧ Moved s u i t := by
  unfold client at h
  cases hpc : (s.threads i).pc with
  | notCreated => simp [hpc] at h
  | firstOperation =>
    simp only [hpc, Option.some.injEq] at h
    subst h
    exact ⟨_, .firstOperation hpc, .quiet rfl rfl rfl rfl⟩
  | postStarted =>
    simp only [hpc, Option.some.injEq] at h
    subst h
    exact ⟨_, .postStarted hpc, rfl, rfl, rfl, ⟨rfl, by simp only [Sem.post_posted]; omega⟩,
      ⟨rfl, rfl⟩, ⟨rfl, rfl⟩, rfl, rfl⟩
  | tryMeasure =>
    cases htake : s.shouldMeasure.take with
    | none =>
      simp only [hpc, htake, Option.some.injEq] at h
      subst h
      exact ⟨_, .noMeasure hpc, .quiet rfl rfl rfl rfl⟩
    | some sem =>
      simp only [hpc, htake, Option.some.injEq] at h
      subst h
      obtain ⟨hposted, htaken⟩ := Sem.take_eq_some htake
      exact ⟨_, .measure hpc, rfl, rfl, rfl, ⟨rfl, rfl⟩, ⟨hposted, by simp only [htaken]; omega⟩,
        ⟨rfl, rfl⟩, rfl, rfl⟩
  | warmUp =>
    simp only [hpc, Option.some.injEq] at h
    subst h
    exact ⟨_, .warmUp hpc, .quiet rfl rfl rfl rfl⟩
  | readStart =>
    simp only [hpc, Option.some.injEq] at h
    subst h
    exact ⟨_, .readStart hpc, .quiet rfl rfl rfl rfl⟩
  | resetOps =>
    simp only [hpc, Option.some.injEq] at h
    subst h
    exact ⟨_, .resetOps hpc, .quiet rfl rfl rfl rfl⟩
  | tryReport =>
    cases htake : s.shouldReport.take with
    | none =>
      simp only [hpc, htake, Option.some.injEq] at h
      subst h
      exact ⟨_, .noReport hpc, .quiet rfl rfl rfl rfl⟩
    | some sem =>
      simp only [hpc, htake, Option.some.injEq] at h
      subst h
      obtain ⟨hposted, htaken⟩ := Sem.take_eq_some htake
      exact ⟨_, .report hpc, rfl, rfl, rfl, ⟨rfl, rfl⟩, ⟨rfl, rfl⟩,
        ⟨hposted, by simp only [htaken]; omega⟩, rfl, rfl⟩
  | operate =>
    simp only [hpc, Option.some.injEq] at h
    subst h
    exact ⟨_, .operate hpc, .quiet rfl rfl rfl rfl⟩
  | countOp =>
    simp only [hpc, Option.some.injEq] at h
    subst h
    exact ⟨_, .countOp hpc, .quiet rfl rfl rfl rfl⟩
  | readEnd =>
    simp only [hpc, Option.some.injEq] at h
    subst h
    exact ⟨_, .readEnd hpc, .quiet rfl rfl rfl rfl⟩
  | storeRuntime =>
    simp only [hpc, Option.some.injEq] at h
    subst h
    exact ⟨_, .storeRuntime hpc, .quiet rfl rfl rfl rfl⟩
  | postReported =>
    simp only [hpc, Option.some.injEq] at h
    subst h
    exact ⟨_, .postReported hpc, rfl, rfl, rfl, ⟨rfl, rfl⟩, ⟨rfl, rfl⟩, ⟨rfl, rfl⟩,
      rfl, by simp only [Sem.post_posted]; omega⟩
  | runForever =>
    simp only [hpc, Option.some.injEq] at h
    subst h
    exact ⟨_, .runForever hpc, .quiet rfl rfl rfl rfl⟩

/-- How far a thread has come. -/
def Pc.rank : Pc → Nat
  | .notCreated => 0
  | .firstOperation => 1
  | .postStarted => 2
  | .tryMeasure | .warmUp => 3
  | .readStart => 4
  | .resetOps => 5
  | .tryReport | .operate | .countOp => 6
  | .readEnd => 7
  | .storeRuntime => 8
  | .postReported => 9
  | .runForever => 10

/-- What a thread has done, by how far it has come. Between `one_operation` and
`args->num_ops += 1` the counter is one behind. -/
structure Thread.Local (t : Thread) : Prop where
  started : t.started = if 3 ≤ t.pc.rank then 1 else 0
  measure : t.measure = if 4 ≤ t.pc.rank then 1 else 0
  report : t.report = if 7 ≤ t.pc.rank then 1 else 0
  reported : t.reported = if 10 ≤ t.pc.rank then 1 else 0
  calls : 2 ≤ t.pc.rank → 1 ≤ t.calls
  notBetween : t.pc.rank ≤ 5 → t.between = 0
  counted : 6 ≤ t.pc.rank →
    UInt64.ofNat t.between = if t.pc = .countOp then t.args.numOps + 1 else t.args.numOps

theorem Thread.Local.step (h : t.Local) (hstep : t.Step clock t') : t'.Local := by
  obtain ⟨hstarted, hmeasure, hreport, hreported, hcalls, hnot, hcounted⟩ := h
  cases hstep with
  | firstOperation hpc | warmUp hpc | runForever hpc =>
    rw [hpc] at hstarted hmeasure hreport hreported hcalls hnot hcounted
    have hbetween : ¬ (t.measure = 1 ∧ t.report = 0) := by simp [hmeasure, hreport, Pc.rank]
    -- outside of the measured loop a call is not counted
    constructor <;> simp_all [Thread.oneOperation, Pc.rank]
  | operate hpc =>
    rw [hpc] at hstarted hmeasure hreport hreported hcalls hnot hcounted
    have hbetween : t.measure = 1 ∧ t.report = 0 := by simp [hmeasure, hreport, Pc.rank]
    have hops : UInt64.ofNat t.between = t.args.numOps := by simpa [Pc.rank] using hcounted
    refine ⟨hstarted, hmeasure, hreport, hreported, fun _ => Nat.le_add_left ..,
      fun hle => absurd hle (Nat.not_succ_le_self 5), fun _ => ?_⟩
    simp only [Thread.oneOperation, if_pos hbetween, if_true]
    rw [UInt64.ofNat_add, hops]
    rfl
  | postStarted hpc | measure hpc | report hpc | postReported hpc | noMeasure hpc | noReport hpc
  | readStart hpc | readEnd hpc | storeRuntime hpc =>
    rw [hpc] at hstarted hmeasure hreport hreported hcalls hnot hcounted
    constructor <;> simp_all [Pc.rank]
  | resetOps hpc =>
    rw [hpc] at hstarted hmeasure hreport hreported hcalls hnot hcounted
    have hzero : t.between = 0 := hnot (Nat.le_refl _)
    refine ⟨hstarted, hmeasure, hreport, hreported, fun _ => hcalls (by decide), fun hle => absurd hle (Nat.not_succ_le_self 5),
      fun _ => ?_⟩
    simp only [hzero]
    rfl
  | countOp hpc =>
    rw [hpc] at hstarted hmeasure hreport hreported hcalls hnot hcounted
    refine ⟨hstarted, hmeasure, hreport, hreported, hcalls, fun hle => absurd hle (Nat.not_succ_le_self 5),
      fun _ => ?_⟩
    simpa [Pc.rank] using hcounted (by decide)

-- ---------------------------------------------------------------------------
-- `bench`
-- ---------------------------------------------------------------------------

/-- The round of the loop that `bench` is in. -/
def BenchPc.round : BenchPc → Nat
  | .create i | .waitStarted i | .postMeasure i | .postReport i | .waitReported i
  | .aggregate i _ _ => i

/-- The loop after the one that `bench` is in. -/
def BenchPc.next : BenchPc → Option BenchPc
  | .create _ => some (.waitStarted 0)
  | .waitStarted _ => some (.postMeasure 0)
  | .postMeasure _ => some (.postReport 0)
  | .postReport _ => some (.waitReported 0)
  | .waitReported _ => some (.aggregate 0 0 0)
  | .aggregate .. => none

/-- The steps of `bench`: a round of one of its loops, on to the next loop, or the end. -/
inductive BenchStep (s : State N) : State N → Prop
  | create {k : Nat} (hk : k < N) : s.bench = .create k →
      BenchStep s { s.setThread ⟨k, hk⟩ { s.threads ⟨k, hk⟩ with pc := .firstOperation } with
        bench := .create (k + 1) }
  | waitStarted {k : Nat} {sem : Sem} : s.bench = .waitStarted k → k < N →
      s.started.take = some sem →
      BenchStep s { s with started := sem, bench := .waitStarted (k + 1) }
  | postMeasure {k : Nat} : s.bench = .postMeasure k → k < N →
      BenchStep s { s with shouldMeasure := s.shouldMeasure.post, bench := .postMeasure (k + 1) }
  | postReport {k : Nat} : s.bench = .postReport k → k < N →
      BenchStep s { s with shouldReport := s.shouldReport.post, bench := .postReport (k + 1) }
  | waitReported {k : Nat} {sem : Sem} : s.bench = .waitReported k → k < N →
      s.reported.take = some sem →
      BenchStep s { s with reported := sem, bench := .waitReported (k + 1) }
  | next {b : BenchPc} : N ≤ s.bench.round → s.bench.next = some b →
      BenchStep s { s with bench := b }
  | add {k : Nat} {numOps throughput : UInt64} (hk : k < N) :
      s.bench = .aggregate k numOps throughput → (s.threads ⟨k, hk⟩).args.runtime ≠ 0 →
      BenchStep s { s with
        bench := .aggregate (k + 1) (numOps + (s.threads ⟨k, hk⟩).args.numOps)
          (throughput + (s.threads ⟨k, hk⟩).args.throughput) }
  | divide {k : Nat} {numOps throughput : UInt64} (hk : k < N) :
      s.bench = .aggregate k numOps throughput → (s.threads ⟨k, hk⟩).args.runtime = 0 →
      BenchStep s { s with exit := some .dividedByZero }
  | print {k : Nat} {numOps throughput : UInt64} : s.bench = .aggregate k numOps throughput →
      N ≤ k → BenchStep s { s with exit := some (.finished numOps throughput) }

theorem bench_cases (h : bench s = some u) : BenchStep s u := by
  unfold bench at h
  cases hbench : s.bench with
  | create k =>
    simp only [hbench] at h
    split at h
    · next hk =>
      cases h
      exact .create hk hbench
    · next hk =>
      cases h
      exact .next (by rw [hbench]; exact Nat.not_lt.mp hk) (by rw [hbench]; rfl)
  | waitStarted k =>
    simp only [hbench] at h
    split at h
    · next hk =>
      obtain ⟨sem, htake, rfl⟩ := Option.map_eq_some_iff.mp h
      exact .waitStarted hbench hk htake
    · next hk =>
      cases h
      exact .next (by rw [hbench]; exact Nat.not_lt.mp hk) (by rw [hbench]; rfl)
  | postMeasure k =>
    simp only [hbench] at h
    split at h
    · next hk =>
      cases h
      exact .postMeasure hbench hk
    · next hk =>
      cases h
      exact .next (by rw [hbench]; exact Nat.not_lt.mp hk) (by rw [hbench]; rfl)
  | postReport k =>
    simp only [hbench] at h
    split at h
    · next hk =>
      cases h
      exact .postReport hbench hk
    · next hk =>
      cases h
      exact .next (by rw [hbench]; exact Nat.not_lt.mp hk) (by rw [hbench]; rfl)
  | waitReported k =>
    simp only [hbench] at h
    split at h
    · next hk =>
      obtain ⟨sem, htake, rfl⟩ := Option.map_eq_some_iff.mp h
      exact .waitReported hbench hk htake
    · next hk =>
      cases h
      exact .next (by rw [hbench]; exact Nat.not_lt.mp hk) (by rw [hbench]; rfl)
  | aggregate k numOps throughput =>
    simp only [hbench] at h
    split at h
    · next hk =>
      split at h
      · next hzero =>
        cases h
        rw [← hbench]
        exact .divide hk hbench hzero
      · next hpos =>
        cases h
        exact .add hk hbench hpos
    · next hk =>
      cases h
      rw [← hbench]
      exact .print hbench (Nat.not_lt.mp hk)

/-- How many threads have been created. -/
def BenchPc.created (N : Nat) : BenchPc → Nat
  | .create i => i
  | _ => N

/-- How many `started` tokens `bench` has taken. -/
def BenchPc.startedTaken (N : Nat) : BenchPc → Nat
  | .create _ => 0
  | .waitStarted i => i
  | _ => N

/-- How many `should_measure` tokens `bench` has posted. -/
def BenchPc.measurePosted (N : Nat) : BenchPc → Nat
  | .create _ | .waitStarted _ => 0
  | .postMeasure i => i
  | _ => N

/-- How many `should_report` tokens `bench` has posted. -/
def BenchPc.reportPosted (N : Nat) : BenchPc → Nat
  | .create _ | .waitStarted _ | .postMeasure _ => 0
  | .postReport i => i
  | _ => N

/-- How many `reported` tokens `bench` has taken. -/
def BenchPc.reportedTaken (N : Nat) : BenchPc → Nat
  | .waitReported i => i
  | .aggregate .. => N
  | _ => 0

/-- Where a loop is over, the next one starts with the same counts. -/
theorem BenchPc.counts_next {b b' : BenchPc} (hround : b.round = N) (h : b.next = some b') :
    b'.round = 0 ∧ b'.created N = b.created N ∧ b'.startedTaken N = b.startedTaken N ∧
      b'.measurePosted N = b.measurePosted N ∧ b'.reportPosted N = b.reportPosted N ∧
      b'.reportedTaken N = b.reportedTaken N := by
  subst hround
  cases b with
  | create | waitStarted | postMeasure | postReport | waitReported =>
    cases h
    exact ⟨rfl, rfl, rfl, rfl, rfl, rfl⟩
  | aggregate => cases h

/-- Who has posted to each semaphore and taken from it: the threads on one side, `bench`
on the other. -/
structure Inv (s : State N) : Prop where
  threads : ∀ i, (s.threads i).Local
  created : ∀ i, (s.threads i).pc = .notCreated ↔ s.bench.created N ≤ i.val
  round : s.bench.round ≤ N
  startedPosted : s.started.posted = total Thread.started s.threads
  startedTaken : s.started.taken = s.bench.startedTaken N
  measurePosted : s.shouldMeasure.posted = s.bench.measurePosted N
  measureTaken : s.shouldMeasure.taken = total Thread.measure s.threads
  reportPosted : s.shouldReport.posted = s.bench.reportPosted N
  reportTaken : s.shouldReport.taken = total Thread.report s.threads
  reportedPosted : s.reported.posted = total Thread.reported s.threads
  reportedTaken : s.reported.taken = s.bench.reportedTaken N

theorem inv_initial (N clock : Nat) (stack : Timespec) : Inv (initial N clock stack) where
  threads := fun _ => ⟨rfl, rfl, rfl, rfl, fun h => absurd h (Nat.not_succ_le_zero 1), fun _ => rfl,
    fun h => absurd h (Nat.not_succ_le_zero 5)⟩
  created := fun _ => iff_of_true rfl (Nat.zero_le _)
  round := Nat.zero_le N
  startedPosted := (total_eq_zero fun _ => rfl).symm
  startedTaken := rfl
  measurePosted := rfl
  measureTaken := (total_eq_zero fun _ => rfl).symm
  reportPosted := rfl
  reportTaken := (total_eq_zero fun _ => rfl).symm
  reportedPosted := (total_eq_zero fun _ => rfl).symm
  reportedTaken := rfl

theorem Thread.Step.created (h : t.Step clock t') : t.pc ≠ .notCreated ∧ t'.pc ≠ .notCreated := by
  cases h with
  | runForever hpc =>
    have hnext : t.oneOperation.pc = .runForever := hpc
    rw [hpc, hnext]
    exact ⟨Pc.noConfusion, Pc.noConfusion⟩
  | firstOperation hpc | postStarted hpc | measure hpc | noMeasure hpc | warmUp hpc | readStart hpc
  | resetOps hpc | report hpc | noReport hpc | operate hpc | countOp hpc | readEnd hpc
  | storeRuntime hpc | postReported hpc =>
    rw [hpc]
    exact ⟨Pc.noConfusion, Pc.noConfusion⟩

theorem Inv.client (h : Inv s) (hstep : client s i = some u) : Inv u := by
  obtain ⟨t, ht, hmoved⟩ := client_cases hstep
  obtain ⟨hthreads, hbench, -, hstarted, hmeasure, hreport, hreported⟩ := hmoved
  -- in each sum the part of the thread `i` changes
  have hsum : ∀ g : Thread → Nat, total g u.threads + g (s.threads i) = total g s.threads + g t := by
    intro g
    rw [hthreads]
    exact total_update
  have hsum₁ := hsum Thread.started
  have hsum₂ := hsum Thread.measure
  have hsum₃ := hsum Thread.report
  have hsum₄ := hsum Thread.reported
  have hold₁ := h.startedPosted
  have hold₂ := h.measureTaken
  have hold₃ := h.reportTaken
  have hold₄ := h.reportedPosted
  refine ⟨?_, ?_, by rw [hbench]; exact h.round, by omega, ?_, ?_, by omega, ?_, by omega, by omega, ?_⟩
  · rw [hthreads]
    exact forall_update h.threads ((h.threads i).step ht)
  · intro j
    rw [hthreads, hbench, ← h.created j]
    exact update_iff (P := fun t : Thread => t.pc = .notCreated) (iff_of_false ht.created.2 ht.created.1) j
  · rw [hstarted.1, hbench]
    exact h.startedTaken
  · rw [hmeasure.1, hbench]
    exact h.measurePosted
  · rw [hreport.1, hbench]
    exact h.reportPosted
  · rw [hreported.1, hbench]
    exact h.reportedTaken

theorem Thread.Local.create (h : t.Local) (hpc : t.pc = .notCreated) :
    Thread.Local { t with pc := .firstOperation } := by
  obtain ⟨hstarted, hmeasure, hreport, hreported, -, hnot, -⟩ := h
  rw [hpc] at hstarted hmeasure hreport hreported hnot
  exact ⟨hstarted, hmeasure, hreport, hreported, fun hle => absurd hle (Nat.not_succ_le_self 1),
    fun _ => hnot (Nat.zero_le _), fun hle => absurd hle (fun h => Nat.not_succ_le_zero 4 (Nat.le_of_succ_le_succ h))⟩

/-- A thread is created. -/
theorem Inv.create (h : Inv s) {k : Nat} (hk : k < N) (hbench : s.bench = .create k) :
    Inv { s.setThread ⟨k, hk⟩ { s.threads ⟨k, hk⟩ with pc := .firstOperation } with
      bench := .create (k + 1) } := by
  have hpc : (s.threads ⟨k, hk⟩).pc = .notCreated := by
    rw [h.created, hbench]
    exact Nat.le_refl k
  -- a new thread has posted and taken nothing
  have hsum : ∀ g : Thread → Nat,
      g { s.threads ⟨k, hk⟩ with pc := .firstOperation } = g (s.threads ⟨k, hk⟩) →
      total g s.threads = total g (Function.update s.threads ⟨k, hk⟩
        { s.threads ⟨k, hk⟩ with pc := .firstOperation }) := by
    intro g hg
    have htotal := total_update (g := g) (f := s.threads) (i := ⟨k, hk⟩)
      (x := { s.threads ⟨k, hk⟩ with pc := .firstOperation })
    omega
  obtain ⟨hthreads, hcreated, -, hstarted, hstarted', hmeasure, hmeasure', hreport, hreport',
    hreported, hreported'⟩ := h
  rw [hbench] at hcreated hstarted' hmeasure hreport hreported'
  refine ⟨?_, ?_, hk, hstarted.trans (hsum _ rfl), hstarted', hmeasure, hmeasure'.trans (hsum _ rfl),
    hreport, hreport'.trans (hsum _ rfl), hreported.trans (hsum _ rfl), hreported'⟩
  · exact forall_update hthreads ((hthreads _).create hpc)
  · exact created_update (Q := fun t : Thread => t.pc = .notCreated) hk hcreated Pc.noConfusion

theorem Inv.bench (h : Inv s) (hstep : bench s = some u) : Inv u := by
  obtain ⟨hthreads, hcreated, hround, hstarted, hstarted', hmeasure, hmeasure', hreport, hreport',
    hreported, hreported'⟩ := id h
  cases bench_cases hstep with
  | create hk hbench => exact h.create hk hbench
  | waitStarted hbench hk htake =>
    rw [hbench] at hcreated hstarted' hmeasure hreport hreported'
    obtain ⟨hposted, htaken⟩ := Sem.take_eq_some htake
    exact ⟨hthreads, hcreated, hk, hposted.trans hstarted, htaken.trans (congrArg (· + 1) hstarted'),
      hmeasure, hmeasure', hreport, hreport', hreported, hreported'⟩
  | postMeasure hbench hk =>
    rw [hbench] at hcreated hstarted' hmeasure hreport hreported'
    exact ⟨hthreads, hcreated, hk, hstarted, hstarted', congrArg (· + 1) hmeasure, hmeasure',
      hreport, hreport', hreported, hreported'⟩
  | postReport hbench hk =>
    rw [hbench] at hcreated hstarted' hmeasure hreport hreported'
    exact ⟨hthreads, hcreated, hk, hstarted, hstarted', hmeasure, hmeasure',
      congrArg (· + 1) hreport, hreport', hreported, hreported'⟩
  | waitReported hbench hk htake =>
    rw [hbench] at hcreated hstarted' hmeasure hreport hreported'
    obtain ⟨hposted, htaken⟩ := Sem.take_eq_some htake
    exact ⟨hthreads, hcreated, hk, hstarted, hstarted', hmeasure, hmeasure', hreport, hreport',
      hposted.trans hreported, htaken.trans (congrArg (· + 1) hreported')⟩
  | next hover hnext =>
    obtain ⟨hzero, hcount₁, hcount₂, hcount₃, hcount₄, hcount₅⟩ :=
      BenchPc.counts_next (Nat.le_antisymm hround hover) hnext
    rw [← hcount₁] at hcreated
    exact ⟨hthreads, hcreated, hzero.trans_le (Nat.zero_le N), hstarted, hstarted'.trans hcount₂.symm,
      hmeasure.trans hcount₃.symm, hmeasure', hreport.trans hcount₄.symm, hreport', hreported,
      hreported'.trans hcount₅.symm⟩
  | add hk hbench =>
    rw [hbench] at hcreated hstarted' hmeasure hreport hreported'
    exact ⟨hthreads, hcreated, hk, hstarted, hstarted', hmeasure, hmeasure', hreport, hreport',
      hreported, hreported'⟩
  | divide | print => exact { h with }

theorem inv_step : (machine N).Preserves Inv := by
  intro s l u h hstep
  obtain ⟨-, hstep⟩ := Option.ite_none_left_eq_some.mp hstep
  cases l with
  | client i => exact h.client hstep
  | bench => exact h.bench hstep
  | tick d =>
    cases hstep
    exact { h with }
  | fail =>
    cases hstep
    exact { h with }

-- ---------------------------------------------------------------------------
-- The barrier
-- ---------------------------------------------------------------------------

theorem Thread.Local.once (h : t.Local) :
    t.started ≤ 1 ∧ t.measure ≤ 1 ∧ t.report ≤ 1 ∧ t.reported ≤ 1 := by
  rw [h.started, h.measure, h.report, h.reported]
  refine ⟨?_, ?_, ?_, ?_⟩ <;> split <;> omega

/-- Once `bench` has taken all `started` tokens, every thread has called `one_operation`. -/
theorem Inv.calls (h : Inv s) (htaken : s.bench.startedTaken N = N) (j : Fin N) :
    1 ≤ (s.threads j).calls := by
  have hall : Fintype.card (Fin N) ≤ total Thread.started s.threads := by
    have hle := s.started.taken_le_posted
    rw [h.startedTaken, htaken, h.startedPosted] at hle
    rwa [Fintype.card_fin]
  have hone := eq_one_of_total (fun i => (h.threads i).once.1) hall j
  rw [(h.threads j).started] at hone
  refine (h.threads j).calls ?_
  by_contra hlt
  rw [if_neg (by omega)] at hone
  cases hone

theorem BenchPc.startedTaken_of_posted {pc : BenchPc} (h : pc.measurePosted N ≠ 0) :
    pc.startedTaken N = N := by
  cases pc with
  | create | waitStarted => exact absurd rfl h
  | postMeasure | postReport | waitReported | aggregate => rfl

theorem Inv.barrier (h : Inv s) (hmeasure : (s.threads i).measure ≠ 0) (j : Fin N) :
    1 ≤ (s.threads j).calls := by
  refine h.calls (BenchPc.startedTaken_of_posted ?_) j
  -- the token was posted before it was taken
  have hle := le_total (g := Thread.measure) (f := s.threads) i
  have hposted := s.shouldMeasure.taken_le_posted
  rw [h.measureTaken, h.measurePosted] at hposted
  omega

-- ---------------------------------------------------------------------------
-- The tokens
-- ---------------------------------------------------------------------------

/-- Each thread takes and posts one token of a kind at most, and there is one `should_measure`
and one `should_report` for each thread that has none yet: in the semaphore, or still to be
posted. -/
structure Tokens (s : State N) : Prop where
  once : ∀ i, (s.threads i).started ≤ 1 ∧ (s.threads i).measure ≤ 1 ∧ (s.threads i).report ≤ 1 ∧
    (s.threads i).reported ≤ 1
  measure : (Finset.univ.filter fun i => (s.threads i).measure = 0).card =
    s.shouldMeasure.value + (N - s.shouldMeasure.posted)
  report : (Finset.univ.filter fun i => (s.threads i).report = 0).card =
    s.shouldReport.value + (N - s.shouldReport.posted)

theorem BenchPc.posted_le {pc : BenchPc} (h : pc.round ≤ N) :
    pc.measurePosted N ≤ N ∧ pc.reportPosted N ≤ N := by
  cases pc with
  | create | waitStarted => exact ⟨Nat.zero_le N, Nat.zero_le N⟩
  | postMeasure => exact ⟨h, Nat.zero_le N⟩
  | postReport => exact ⟨Nat.le_refl N, h⟩
  | waitReported | aggregate => exact ⟨Nat.le_refl N, Nat.le_refl N⟩

theorem Inv.tokens (h : Inv s) : Tokens s := by
  obtain ⟨hmeasure, hreport⟩ := BenchPc.posted_le h.round
  rw [← h.measurePosted] at hmeasure
  rw [← h.reportPosted] at hreport
  refine ⟨fun i => (h.threads i).once, ?_, ?_⟩
  · have hcard := card_add_total (g := Thread.measure) fun i => (h.threads i).once.2.1
    have hvalue := s.shouldMeasure.conserved
    rw [Fintype.card_fin, ← h.measureTaken] at hcard
    omega
  · have hcard := card_add_total (g := Thread.report) fun i => (h.threads i).once.2.2.1
    have hvalue := s.shouldReport.conserved
    rw [Fintype.card_fin, ← h.reportTaken] at hcard
    omega

-- ---------------------------------------------------------------------------
-- The result
-- ---------------------------------------------------------------------------

/-- `bench` has started to aggregate. -/
def BenchPc.aggregating : BenchPc → Bool
  | .aggregate .. => true
  | _ => false

theorem Inv.runForever (h : Inv s) (hagg : s.bench.aggregating = true) (i : Fin N) :
    (s.threads i).pc = .runForever := by
  have htaken : s.reported.taken = N := by
    rw [h.reportedTaken]
    cases hbench : s.bench with
    | aggregate => rfl
    | create | waitStarted | postMeasure | postReport | waitReported =>
      rw [hbench] at hagg
      cases hagg
  have hall : Fintype.card (Fin N) ≤ total Thread.reported s.threads := by
    have hle := s.reported.taken_le_posted
    rw [htaken, h.reportedPosted] at hle
    rwa [Fintype.card_fin]
  have hone := eq_one_of_total (fun i => (h.threads i).once.2.2.2) hall i
  rw [(h.threads i).reported] at hone
  cases hpc : (s.threads i).pc with
  | runForever => rfl
  | notCreated | firstOperation | postStarted | tryMeasure | warmUp | readStart | resetOps | tryReport
  | operate | countOp | readEnd | storeRuntime | postReported =>
    rw [hpc] at hone
    cases hone

/-- What `bench` aggregates of a thread: it has taken and posted one token of each kind,
and `num_ops` is the number of its calls between its two tokens. -/
structure Thread.Final (t : Thread) : Prop where
  once : t.started = 1 ∧ t.measure = 1 ∧ t.report = 1 ∧ t.reported = 1
  numOps : t.args.numOps = UInt64.ofNat t.between

theorem Inv.final (h : Inv s) (hagg : s.bench.aggregating = true) (i : Fin N) :
    (s.threads i).Final := by
  have hpc := h.runForever hagg i
  obtain ⟨hstarted, hmeasure, hreport, hreported, -, -, hcounted⟩ := h.threads i
  rw [hpc] at hstarted hmeasure hreport hreported hcounted
  exact ⟨⟨hstarted, hmeasure, hreport, hreported⟩, (hcounted (by decide)).symm⟩

theorem aggregating_step {l : Label N} (hagg : s.bench.aggregating = true)
    (hstep : (machine N).step s l = some u) : u.bench.aggregating = true := by
  obtain ⟨-, hstep⟩ := Option.ite_none_left_eq_some.mp hstep
  cases l with
  | client i =>
    obtain ⟨t, -, hmoved⟩ := client_cases hstep
    rw [hmoved.bench]
    exact hagg
  | bench =>
    cases hbench : s.bench with
    | aggregate k numOps throughput =>
      simp only [bench, hbench] at hstep
      split at hstep
      · split at hstep
        · cases hstep
          rfl
        · cases hstep
          rfl
      · cases hstep
        rfl
    | create | waitStarted | postMeasure | postReport | waitReported =>
      rw [hbench] at hagg
      cases hagg
  | tick | fail =>
    cases hstep
    exact hagg

/-- A thread that runs forever changes neither its `args` nor what it has counted. -/
theorem Thread.Step.args (h : t.Step clock t') (hpc : t.pc = .runForever) (hreport : t.report = 1) :
    t'.args = t.args ∧ t'.between = t.between := by
  cases h with
  | runForever =>
    refine ⟨rfl, ?_⟩
    show (if t.measure = 1 ∧ t.report = 0 then _ else _) = _
    rw [if_neg (by omega)]
  | firstOperation h | postStarted h | measure h | noMeasure h | warmUp h | readStart h | resetOps h
  | report h | noReport h | operate h | countOp h | readEnd h | storeRuntime h | postReported h =>
    rw [hpc] at h
    cases h

theorem args_step {l : Label N} (h : Inv s) (hagg : s.bench.aggregating = true)
    (hstep : (machine N).step s l = some u) (i : Fin N) :
    (u.threads i).args = (s.threads i).args ∧ (u.threads i).between = (s.threads i).between := by
  obtain ⟨-, hstep⟩ := Option.ite_none_left_eq_some.mp hstep
  cases l with
  | client j =>
    obtain ⟨t, ht, hmoved⟩ := client_cases hstep
    rw [hmoved.threads]
    by_cases heq : i = j
    · subst heq
      rw [Function.update_self]
      exact ht.args (h.runForever hagg i) (h.final hagg i).once.2.2.1
    · rw [Function.update_of_ne heq]
      exact ⟨rfl, rfl⟩
  | bench =>
    cases hbench : s.bench with
    | aggregate k numOps throughput =>
      simp only [bench, hbench] at hstep
      split at hstep
      · split at hstep
        · cases hstep
          exact ⟨rfl, rfl⟩
        · cases hstep
          exact ⟨rfl, rfl⟩
      · cases hstep
        exact ⟨rfl, rfl⟩
    | create | waitStarted | postMeasure | postReport | waitReported =>
      rw [hbench] at hagg
      cases hagg
  | tick | fail =>
    cases hstep
    exact ⟨rfl, rfl⟩

theorem args_reachable (h : Inv s) (hagg : s.bench.aggregating = true)
    (hrun : (machine N).Reachable s u) (i : Fin N) :
    (u.threads i).args = (s.threads i).args ∧ (u.threads i).between = (s.threads i).between := by
  have hkeeps : (machine N).Preserves fun v => Inv v ∧ (v.bench.aggregating = true ∧
      (v.threads i).args = (s.threads i).args ∧ (v.threads i).between = (s.threads i).between) := by
    refine inv_step.and fun v l w hv _ hprev hstep => ?_
    obtain ⟨hagg, hargs, hbetween⟩ := hprev
    obtain ⟨hargs', hbetween'⟩ := args_step hv hagg hstep i
    exact ⟨aggregating_step hagg hstep, hargs'.trans hargs, hbetween'.trans hbetween⟩
  exact (hkeeps.reachable ⟨h, hagg, rfl, rfl⟩ hrun).2.2

/-- **The phase barrier.** For every number of threads, in every state of every schedule:
a thread that has its `should_measure` token has every thread's first operation behind it;
no thread takes a token meant for another one; and from when `bench` starts to aggregate,
each thread's tokens are taken and posted once, its `num_ops` is the number of its
operations between its two tokens, and its `args` never change again. -/
theorem bench_phases (N clock : Nat) (stack : Timespec) (s : State N)
    (hs : (machine N).Reachable (initial N clock stack) s) :
    (∀ i, (s.threads i).measure ≠ 0 → ∀ j, 1 ≤ (s.threads j).calls) ∧ Tokens s ∧
      (s.bench.aggregating = true → ∀ i, (s.threads i).Final ∧
        ∀ u, (machine N).Reachable s u → (u.threads i).args = (s.threads i).args ∧
          (u.threads i).between = (s.threads i).between) := by
  have h := inv_step.reachable (inv_initial N clock stack) hs
  refine ⟨fun i hi j => h.barrier hi j, h.tokens, fun hagg i => ⟨h.final hagg i, fun u hu => ?_⟩⟩
  exact args_reachable h hagg hu i

/-- `k` steps of the thread `i`. -/
def steps (k : Nat) (i : Fin 2) : List (Label 2) := List.replicate k (.client i)

/-- Two threads, which make one operation and two between their tokens. -/
def operationsMeasured : List (Label 2) :=
  List.replicate 3 .bench ++ steps 2 0 ++ steps 2 1 ++ List.replicate 5 .bench ++
    steps 2 0 ++ steps 2 1 ++ steps 4 0 ++ steps 7 1 ++ List.replicate 3 .bench ++
    steps 1 0 ++ [.tick 5] ++ steps 3 0 ++ steps 1 1 ++ [.tick 3] ++ steps 3 1 ++
    List.replicate 4 .bench

theorem bench_phases_operationsMeasured :
    ∃ s, (machine 2).exec (initial 2 0 ⟨0, 0⟩) operationsMeasured = some s ∧
      (s.threads 0).args = ⟨1, 5⟩ ∧ (s.threads 1).args = ⟨2, 8⟩ ∧
      (∀ i, 1 ≤ (s.threads i).calls) ∧ ∀ i, (s.threads i).Final := by
  have hview : ((machine 2).exec (initial 2 0 ⟨0, 0⟩) operationsMeasured).map (fun s =>
      (s.bench.aggregating, (s.threads 0).args, (s.threads 1).args, (s.threads 0).measure)) =
      some (true, ⟨1, 5⟩, ⟨2, 8⟩, 1) := by decide +kernel
  obtain ⟨s, hs, hview⟩ := Option.map_eq_some_iff.mp hview
  simp only [Prod.mk.injEq] at hview
  obtain ⟨hagg, hone, htwo, hmeasure⟩ := hview
  obtain ⟨hbarrier, -, hfinal⟩ := bench_phases 2 0 ⟨0, 0⟩ s ⟨_, hs⟩
  refine ⟨s, hs, hone, htwo, hbarrier 0 ?_, fun i => (hfinal hagg i).1⟩
  rw [hmeasure]
  exact Nat.one_ne_zero

end EchoServer.Bench
