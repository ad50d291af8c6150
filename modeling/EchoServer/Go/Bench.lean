import EchoServer.Bench.Runtime

/-!
# go/client.go — the phases of a benchmark

`bench` leads its goroutines through the same phases as the C programs do, with two
wait groups and two flags. A flag is for everyone, so here the barrier is the second
wait group alone.

* `inv_step` — the wait group counts the goroutines that have not reported;
* `runtime_iff` — `bench` divides by no zero exactly when the clock has moved between
  the two readings of every goroutine.
-/

namespace EchoServer.GoBench

open EchoServer.Lib
open EchoServer.Bench (ofInt_eq_zero_iff one_le_iff)

-- ---------------------------------------------------------------------------
-- Time
-- ---------------------------------------------------------------------------

/-- `uint64(stop.Sub(start).Nanoseconds())`, for two monotonic readings: a `Duration` has
64 bits, and `Sub` saturates. -/
def elapsed (start stop : Nat) : UInt64 :=
  UInt64.ofInt (max (-2 ^ 63) (min ((stop : Int) - start) (2 ^ 63 - 1)))

theorem elapsed_eq_zero_iff {start stop : Nat} (hle : start ≤ stop) :
    elapsed start stop = 0 ↔ stop = start := by
  rw [elapsed, ofInt_eq_zero_iff]
  omega

-- ---------------------------------------------------------------------------
-- Data
-- ---------------------------------------------------------------------------

/-- `clientArgs`. -/
structure ClientArgs where
  numOps : UInt64
  runtime : UInt64
  deriving DecidableEq, Repr

/-- Where a goroutine is in `client`. -/
inductive Pc
  | notCreated
  | startedDone
  | loadMeasure
  | warmUp
  | readStart
  | loadReport
  | operate
  | countOp
  | readEnd
  | storeRuntime
  | reportedDone
  | runForever
  deriving DecidableEq, Repr

/-- A goroutine: where it is, its `args`, and its two readings of the clock. -/
structure Thread where
  pc : Pc
  args : ClientArgs
  start : Nat
  stop : Nat
  deriving DecidableEq, Repr

/-- Where `bench` is. -/
inductive BenchPc
  | create (i : Nat)
  | waitStarted
  | storeMeasure
  | storeReport
  | waitReported
  | aggregate (i : Nat) (numOps throughput : UInt64)
  deriving DecidableEq, Repr

/-- How the process ends. -/
inductive Exit
  | panicked
  | finished (numOps throughput : UInt64)
  deriving DecidableEq, Repr

/-- `started` and `reported` are the counters of the wait groups. -/
structure State (N : Nat) where
  started : Nat
  shouldMeasure : Bool
  shouldReport : Bool
  reported : Nat
  bench : BenchPc
  threads : Fin N → Thread
  clock : Nat
  exit : Option Exit

variable {N : Nat}

def State.setThread (s : State N) (i : Fin N) (t : Thread) : State N :=
  { s with threads := Function.update s.threads i t }

-- ---------------------------------------------------------------------------
-- The goroutines
-- ---------------------------------------------------------------------------

/-- `client`, from one access to what it shares to the next; `Done` panics below zero. -/
def client (s : State N) (i : Fin N) : Option (State N) :=
  let t := s.threads i
  match t.pc with
  | .notCreated => none
  | .startedDone =>
    match s.started with
    | 0 => some { s with exit := some .panicked }
    | n + 1 => some { s.setThread i { t with pc := .loadMeasure } with started := n }
  | .loadMeasure =>
    some (s.setThread i { t with pc := if s.shouldMeasure then .readStart else .warmUp })
  | .warmUp => some (s.setThread i { t with pc := .loadMeasure })
  | .readStart => some (s.setThread i { t with pc := .loadReport, start := s.clock })
  | .loadReport =>
    some (s.setThread i { t with pc := if s.shouldReport then .readEnd else .operate })
  | .operate => some (s.setThread i { t with pc := .countOp })
  | .countOp =>
    some (s.setThread i
      { t with pc := .loadReport, args := { t.args with numOps := t.args.numOps + 1 } })
  | .readEnd => some (s.setThread i { t with pc := .storeRuntime, stop := s.clock })
  | .storeRuntime =>
    some (s.setThread i
      { t with pc := .reportedDone, args := { t.args with runtime := elapsed t.start t.stop } })
  | .reportedDone =>
    match s.reported with
    | 0 => some { s with exit := some .panicked }
    | n + 1 => some { s.setThread i { t with pc := .runForever } with reported := n }
  | .runForever => some s

-- ---------------------------------------------------------------------------
-- `bench`
-- ---------------------------------------------------------------------------

/-- A goroutine's operations per second, rounded. -/
def ClientArgs.throughput (a : ClientArgs) : UInt64 :=
  (a.numOps * 1000000000 + a.runtime / 2) / a.runtime

/-- `bench`. -/
def bench (s : State N) : Option (State N) :=
  match s.bench with
  | .create i =>
    if h : i < N then
      some { s.setThread ⟨i, h⟩ { s.threads ⟨i, h⟩ with pc := .startedDone } with
        started := s.started + 1, reported := s.reported + 1, bench := .create (i + 1) }
    else some { s with bench := .waitStarted }
  | .waitStarted => if s.started = 0 then some { s with bench := .storeMeasure } else none
  | .storeMeasure => some { s with shouldMeasure := true, bench := .storeReport }
  | .storeReport => some { s with shouldReport := true, bench := .waitReported }
  | .waitReported => if s.reported = 0 then some { s with bench := .aggregate 0 0 0 } else none
  | .aggregate i numOps throughput =>
    if h : i < N then
      let a := (s.threads ⟨i, h⟩).args
      if a.runtime = 0 then some { s with exit := some .panicked }
      else some { s with bench := .aggregate (i + 1) (numOps + a.numOps) (throughput + a.throughput) }
    else some { s with exit := some (.finished numOps throughput) }

-- ---------------------------------------------------------------------------
-- The process
-- ---------------------------------------------------------------------------

inductive Label (N : Nat)
  | client (i : Fin N)
  | bench
  | tick (d : Nat)
  | fail
  deriving DecidableEq, Repr

/-- A call that fails makes its goroutine panic, which ends the process. -/
def step (s : State N) (l : Label N) : Option (State N) :=
  if s.exit.isSome then none
  else match l with
    | .client i => client s i
    | .bench => bench s
    | .tick d => some { s with clock := s.clock + d }
    | .fail => some { s with exit := some .panicked }

def machine (N : Nat) : Machine (State N) (Label N) := ⟨step⟩

def initial (N clock : Nat) : State N where
  started := 0
  shouldMeasure := false
  shouldReport := false
  reported := 0
  bench := .create 0
  threads := fun _ => ⟨.notCreated, ⟨0, 0⟩, 0, 0⟩
  clock := clock
  exit := none

-- ---------------------------------------------------------------------------
-- One goroutine
-- ---------------------------------------------------------------------------

variable {s u : State N} {i : Fin N} {t t' : Thread} {clock : Nat} {l : Label N}

/-- How far a goroutine has come. -/
def Pc.rank : Pc → Nat
  | .notCreated => 0
  | .startedDone => 1
  | .loadMeasure | .warmUp => 2
  | .readStart => 3
  | .loadReport | .operate | .countOp => 4
  | .readEnd => 5
  | .storeRuntime => 6
  | .reportedDone => 7
  | .runForever => 8

/-- How often a goroutine has called `reported.Done`. -/
def Thread.reports (t : Thread) : Nat := if t.pc = .runForever then 1 else 0

/-- Everything a goroutine can do by itself. -/
inductive Thread.Step (clock : Nat) (t : Thread) : Thread → Prop
  | startedDone : t.pc = .startedDone → Step clock t { t with pc := .loadMeasure }
  | measure : t.pc = .loadMeasure → Step clock t { t with pc := .readStart }
  | noMeasure : t.pc = .loadMeasure → Step clock t { t with pc := .warmUp }
  | warmUp : t.pc = .warmUp → Step clock t { t with pc := .loadMeasure }
  | readStart : t.pc = .readStart → Step clock t { t with pc := .loadReport, start := clock }
  | report : t.pc = .loadReport → Step clock t { t with pc := .readEnd }
  | noReport : t.pc = .loadReport → Step clock t { t with pc := .operate }
  | operate : t.pc = .operate → Step clock t { t with pc := .countOp }
  | countOp : t.pc = .countOp →
      Step clock t { t with pc := .loadReport, args := { t.args with numOps := t.args.numOps + 1 } }
  | readEnd : t.pc = .readEnd → Step clock t { t with pc := .storeRuntime, stop := clock }
  | storeRuntime : t.pc = .storeRuntime →
      Step clock t
        { t with pc := .reportedDone, args := { t.args with runtime := elapsed t.start t.stop } }
  | reportedDone : t.pc = .reportedDone → Step clock t { t with pc := .runForever }
  | runForever : t.pc = .runForever → Step clock t t

/-- A goroutine's move leaves the rest as it is, but for the wait groups. -/
structure Moved (s u : State N) (i : Fin N) (t : Thread) : Prop where
  threads : u.threads = Function.update s.threads i t
  bench : u.bench = s.bench
  clock : u.clock = s.clock
  reported : u.reported + t.reports = s.reported + (s.threads i).reports

/-- A move that does not report. -/
theorem Moved.quiet (h : t.reports = (s.threads i).reports) : Moved s (s.setThread i t) i t :=
  ⟨rfl, rfl, rfl, by rw [h]; rfl⟩

theorem client_cases (h : client s i = some u) :
    ((s.threads i).pc = .startedDone ∨ (s.threads i).pc = .reportedDone) ∧
        u = { s with exit := some .panicked } ∨
      ∃ t, (s.threads i).Step s.clock t ∧ Moved s u i t := by
  have hquiet : ∀ {t : Thread} {pc : Pc}, (s.threads i).pc = pc → pc ≠ .runForever →
      t.pc ≠ .runForever → t.reports = (s.threads i).reports := by
    rintro t _ rfl hold hnew
    rw [Thread.reports, Thread.reports, if_neg hold, if_neg hnew]
  unfold client at h
  cases hpc : (s.threads i).pc with
  | notCreated => simp [hpc] at h
  | startedDone =>
    simp only [hpc] at h
    cases hstarted : s.started with
    | zero =>
      simp only [hstarted, Option.some.injEq] at h
      exact Or.inl ⟨Or.inl rfl, h.symm⟩
    | succ n =>
      simp only [hstarted, Option.some.injEq] at h
      subst h
      refine Or.inr ⟨_, .startedDone hpc, rfl, rfl, rfl, ?_⟩
      rw [hquiet hpc Pc.noConfusion Pc.noConfusion]
      rfl
  | loadMeasure =>
    simp only [hpc, Option.some.injEq] at h
    subst h
    split
    · exact Or.inr ⟨_, .measure hpc, .quiet (hquiet hpc Pc.noConfusion Pc.noConfusion)⟩
    · exact Or.inr ⟨_, .noMeasure hpc, .quiet (hquiet hpc Pc.noConfusion Pc.noConfusion)⟩
  | warmUp =>
    simp only [hpc, Option.some.injEq] at h
    subst h
    exact Or.inr ⟨_, .warmUp hpc, .quiet (hquiet hpc Pc.noConfusion Pc.noConfusion)⟩
  | readStart =>
    simp only [hpc, Option.some.injEq] at h
    subst h
    exact Or.inr ⟨_, .readStart hpc, .quiet (hquiet hpc Pc.noConfusion Pc.noConfusion)⟩
  | loadReport =>
    simp only [hpc, Option.some.injEq] at h
    subst h
    split
    · exact Or.inr ⟨_, .report hpc, .quiet (hquiet hpc Pc.noConfusion Pc.noConfusion)⟩
    · exact Or.inr ⟨_, .noReport hpc, .quiet (hquiet hpc Pc.noConfusion Pc.noConfusion)⟩
  | operate =>
    simp only [hpc, Option.some.injEq] at h
    subst h
    exact Or.inr ⟨_, .operate hpc, .quiet (hquiet hpc Pc.noConfusion Pc.noConfusion)⟩
  | countOp =>
    simp only [hpc, Option.some.injEq] at h
    subst h
    exact Or.inr ⟨_, .countOp hpc, .quiet (hquiet hpc Pc.noConfusion Pc.noConfusion)⟩
  | readEnd =>
    simp only [hpc, Option.some.injEq] at h
    subst h
    exact Or.inr ⟨_, .readEnd hpc, .quiet (hquiet hpc Pc.noConfusion Pc.noConfusion)⟩
  | storeRuntime =>
    simp only [hpc, Option.some.injEq] at h
    subst h
    exact Or.inr ⟨_, .storeRuntime hpc, .quiet (hquiet hpc Pc.noConfusion Pc.noConfusion)⟩
  | reportedDone =>
    simp only [hpc] at h
    cases hreported : s.reported with
    | zero =>
      simp only [hreported, Option.some.injEq] at h
      exact Or.inl ⟨Or.inr rfl, h.symm⟩
    | succ n =>
      simp only [hreported, Option.some.injEq] at h
      subst h
      refine Or.inr ⟨_, .reportedDone hpc, rfl, rfl, rfl, ?_⟩
      simp only [Thread.reports, hpc, hreported]
      rfl
  | runForever =>
    simp only [hpc, Option.some.injEq] at h
    subst h
    exact Or.inr ⟨_, .runForever hpc, (Function.update_eq_self i s.threads).symm, rfl, rfl, rfl⟩

-- ---------------------------------------------------------------------------
-- The barrier
-- ---------------------------------------------------------------------------

/-- How many goroutines have been created. -/
def BenchPc.created (N : Nat) : BenchPc → Nat
  | .create i => i
  | _ => N

/-- The round of the loop that `bench` is in. -/
def BenchPc.round : BenchPc → Nat
  | .create i | .aggregate i _ _ => i
  | _ => 0

/-- `bench` has started to aggregate. -/
def BenchPc.aggregating : BenchPc → Bool
  | .aggregate .. => true
  | _ => false

/-- The steps of `bench`. -/
inductive BenchStep (s : State N) : State N → Prop
  | create {k : Nat} (hk : k < N) : s.bench = .create k →
      BenchStep s { s.setThread ⟨k, hk⟩ { s.threads ⟨k, hk⟩ with pc := .startedDone } with
        started := s.started + 1, reported := s.reported + 1, bench := .create (k + 1) }
  | created {k : Nat} : s.bench = .create k → N ≤ k →
      BenchStep s { s with bench := .waitStarted }
  | waitStarted : s.bench = .waitStarted → s.started = 0 →
      BenchStep s { s with bench := .storeMeasure }
  | storeMeasure : s.bench = .storeMeasure →
      BenchStep s { s with shouldMeasure := true, bench := .storeReport }
  | storeReport : s.bench = .storeReport →
      BenchStep s { s with shouldReport := true, bench := .waitReported }
  | waitReported : s.bench = .waitReported → s.reported = 0 →
      BenchStep s { s with bench := .aggregate 0 0 0 }
  | add {k : Nat} {numOps throughput : UInt64} (hk : k < N) :
      s.bench = .aggregate k numOps throughput → (s.threads ⟨k, hk⟩).args.runtime ≠ 0 →
      BenchStep s { s with
        bench := .aggregate (k + 1) (numOps + (s.threads ⟨k, hk⟩).args.numOps)
          (throughput + (s.threads ⟨k, hk⟩).args.throughput) }
  | divide {k : Nat} {numOps throughput : UInt64} (hk : k < N) :
      s.bench = .aggregate k numOps throughput → (s.threads ⟨k, hk⟩).args.runtime = 0 →
      BenchStep s { s with exit := some .panicked }
  | print {k : Nat} {numOps throughput : UInt64} : s.bench = .aggregate k numOps throughput →
      N ≤ k → BenchStep s { s with exit := some (.finished numOps throughput) }

theorem bench_cases (h : bench s = some u) : BenchStep s u := by
  unfold bench at h
  cases hbench : s.bench with
  | create k =>
    simp only [hbench] at h
    split at h
    · next hk =>
      cases h
      exact .create hk hbench
    · next hk =>
      cases h
      exact .created hbench (Nat.not_lt.mp hk)
  | waitStarted =>
    simp only [hbench] at h
    obtain ⟨hzero, heq⟩ := Option.ite_none_right_eq_some.mp h
    cases heq
    exact .waitStarted hbench hzero
  | storeMeasure =>
    simp only [hbench, Option.some.injEq] at h
    subst h
    exact .storeMeasure hbench
  | storeReport =>
    simp only [hbench, Option.some.injEq] at h
    subst h
    exact .storeReport hbench
  | waitReported =>
    simp only [hbench] at h
    obtain ⟨hzero, heq⟩ := Option.ite_none_right_eq_some.mp h
    cases heq
    exact .waitReported hbench hzero
  | aggregate k numOps throughput =>
    simp only [hbench] at h
    split at h
    · next hk =>
      split at h
      · next hzero =>
        cases h
        rw [← hbench]
        exact .divide hk hbench hzero
      · next hpos =>
        cases h
        exact .add hk hbench hpos
    · next hk =>
      cases h
      rw [← hbench]
      exact .print hbench (Nat.not_lt.mp hk)

/-- The wait group counts the goroutines that have not reported, and is at zero when
`bench` aggregates. -/
structure Inv (s : State N) : Prop where
  created : ∀ i, (s.threads i).pc = .notCreated ↔ s.bench.created N ≤ i.val
  round : s.bench.round ≤ N
  reported : s.reported + total Thread.reports s.threads = s.bench.created N
  waited : s.bench.aggregating = true → s.reported = 0

theorem inv_initial (N clock : Nat) : Inv (initial N clock) where
  created := fun _ => iff_of_true rfl (Nat.zero_le _)
  round := Nat.zero_le N
  reported := (Nat.zero_add _).trans (total_eq_zero fun _ => rfl)
  waited := fun h => by cases h

theorem Thread.Step.created (h : t.Step clock t') : t.pc ≠ .notCreated ∧ t'.pc ≠ .notCreated := by
  cases h with
  | runForever hpc =>
    rw [hpc]
    exact ⟨Pc.noConfusion, Pc.noConfusion⟩
  | startedDone hpc | measure hpc | noMeasure hpc | warmUp hpc | readStart hpc | report hpc
  | noReport hpc | operate hpc | countOp hpc | readEnd hpc | storeRuntime hpc | reportedDone hpc =>
    rw [hpc]
    exact ⟨Pc.noConfusion, Pc.noConfusion⟩

/-- Who has reported does not go back. -/
theorem Thread.Step.reports_le (h : t.Step clock t') : t.reports ≤ t'.reports := by
  unfold Thread.reports
  cases h with
  | runForever => exact Nat.le_refl _
  | startedDone hpc | measure hpc | noMeasure hpc | warmUp hpc | readStart hpc | report hpc
  | noReport hpc | operate hpc | countOp hpc | readEnd hpc | storeRuntime hpc | reportedDone hpc =>
    rw [if_neg (by rw [hpc]; exact Pc.noConfusion)]
    exact Nat.zero_le _

theorem Inv.client (h : Inv s) (hstep : client s i = some u) : Inv u := by
  rcases client_cases hstep with ⟨-, rfl⟩ | ⟨t, ht, hthreads, hbench, -, hreported⟩
  · exact ⟨h.created, h.round, h.reported, h.waited⟩
  · have hsum : total Thread.reports u.threads + (s.threads i).reports =
        total Thread.reports s.threads + t.reports := by
      rw [hthreads]
      exact total_update
    have hold := h.reported
    have hle := ht.reports_le
    refine ⟨?_, by rw [hbench]; exact h.round, by rw [hbench]; omega, fun hagg => ?_⟩
    · intro j
      rw [hthreads, hbench, ← h.created j]
      exact update_iff (P := fun t : Thread => t.pc = .notCreated) (iff_of_false ht.created.2 ht.created.1) j
    · rw [hbench] at hagg
      have hzero := h.waited hagg
      omega

/-- `bench` changes a goroutine only by creating it. -/
theorem bench_threads (h : bench s = some u) : u.clock = s.clock ∧ ∀ j, u.threads j = s.threads j ∨
    s.bench = .create j.val ∧ u.threads j = { s.threads j with pc := .startedDone } := by
  cases bench_cases h with
  | create hk hbench =>
    refine ⟨rfl, fun j => ?_⟩
    by_cases heq : j = ⟨_, hk⟩
    · subst heq
      exact Or.inr ⟨hbench, Function.update_self ..⟩
    · exact Or.inl (Function.update_of_ne heq ..)
  | created | waitStarted | storeMeasure | storeReport | waitReported | add | divide | print =>
    exact ⟨rfl, fun _ => Or.inl rfl⟩

/-- A goroutine is created; both wait groups wait for it. -/
theorem Inv.create (h : Inv s) {k : Nat} (hk : k < N) (hbench : s.bench = .create k) :
    Inv { s.setThread ⟨k, hk⟩ { s.threads ⟨k, hk⟩ with pc := .startedDone } with
      started := s.started + 1, reported := s.reported + 1, bench := .create (k + 1) } := by
  have hpc : (s.threads ⟨k, hk⟩).pc = .notCreated := by
    rw [h.created, hbench]
    exact Nat.le_refl k
  obtain ⟨hcreated, -, hreported, -⟩ := h
  rw [hbench] at hcreated hreported
  refine ⟨?_, hk, ?_, fun hagg => by cases hagg⟩
  · exact created_update (Q := fun t : Thread => t.pc = .notCreated) hk hcreated Pc.noConfusion
  · have hsum := total_update (g := Thread.reports) (f := s.threads) (i := ⟨k, hk⟩)
      (x := { s.threads ⟨k, hk⟩ with pc := .startedDone })
    have hnew : Thread.reports { s.threads ⟨k, hk⟩ with pc := .startedDone } = 0 := rfl
    have hold : (s.threads ⟨k, hk⟩).reports = 0 := if_neg (by rw [hpc]; exact Pc.noConfusion)
    have hcount : s.reported + total Thread.reports s.threads = k := hreported
    show s.reported + 1 + total Thread.reports (Function.update s.threads ⟨k, hk⟩ _) = k + 1
    omega

theorem Inv.bench (h : Inv s) (hstep : bench s = some u) : Inv u := by
  obtain ⟨hcreated, hround, hreported, hwaited⟩ := id h
  cases bench_cases hstep with
  | create hk hbench => exact h.create hk hbench
  | created hbench hover =>
    rw [hbench] at hcreated hround hreported
    obtain rfl := Nat.le_antisymm hround hover
    exact ⟨hcreated, Nat.zero_le _, hreported, fun hagg => by cases hagg⟩
  | waitStarted hbench | storeMeasure hbench | storeReport hbench =>
    rw [hbench] at hcreated hreported
    exact ⟨hcreated, Nat.zero_le _, hreported, fun hagg => by cases hagg⟩
  | waitReported hbench hzero =>
    rw [hbench] at hcreated hreported
    exact ⟨hcreated, Nat.zero_le _, hreported, fun _ => hzero⟩
  | add hk hbench =>
    rw [hbench] at hcreated hreported hwaited
    exact ⟨hcreated, hk, hreported, hwaited⟩
  | divide | print => exact { h with }

theorem inv_step : (machine N).Preserves Inv := by
  intro s l u h hstep
  obtain ⟨-, hstep⟩ := Option.ite_none_left_eq_some.mp hstep
  cases l with
  | client i => exact h.client hstep
  | bench => exact h.bench hstep
  | tick d =>
    cases hstep
    exact { h with }
  | fail =>
    cases hstep
    exact { h with }

theorem Inv.runForever (h : Inv s) (hagg : s.bench.aggregating = true) (i : Fin N) :
    (s.threads i).pc = .runForever := by
  have hall : Fintype.card (Fin N) ≤ total Thread.reports s.threads := by
    have hcount := h.reported
    rw [h.waited hagg, Nat.zero_add] at hcount
    rw [Fintype.card_fin, hcount]
    cases hbench : s.bench with
    | aggregate => exact Nat.le_refl N
    | create | waitStarted | storeMeasure | storeReport | waitReported =>
      rw [hbench] at hagg
      cases hagg
  have hone := eq_one_of_total (g := Thread.reports) (f := s.threads)
    (fun i => by unfold Thread.reports; split <;> omega) hall i
  by_contra hpc
  rw [Thread.reports, if_neg hpc] at hone
  cases hone

-- ---------------------------------------------------------------------------
-- The readings of the clock
-- ---------------------------------------------------------------------------

/-- What a goroutine's variables hold of its two readings. -/
structure Thread.Timed (clock : Nat) (t : Thread) : Prop where
  start : 4 ≤ t.pc.rank → t.start ≤ clock
  stop : 6 ≤ t.pc.rank → t.start ≤ t.stop
  runtime : 7 ≤ t.pc.rank → t.args.runtime = elapsed t.start t.stop

/-- Once both readings are done, the runtime is not zero. -/
def Thread.Positive (t : Thread) : Prop := 6 ≤ t.pc.rank → elapsed t.start t.stop ≠ 0

theorem Thread.Timed.step (h : t.Timed clock) (hstep : t.Step clock t') : t'.Timed clock := by
  obtain ⟨hstart, hstop, hruntime⟩ := h
  cases hstep with
  | readStart hpc =>
    refine ⟨fun _ => Nat.le_refl _, fun hle => ?_, fun hle => ?_⟩
    · exact absurd hle (by show ¬ 6 ≤ 4; decide)
    · exact absurd hle (by show ¬ 7 ≤ 4; decide)
  | readEnd hpc =>
    refine ⟨fun _ => hstart (by rw [hpc]; decide), fun _ => hstart (by rw [hpc]; decide),
      fun hle => ?_⟩
    exact absurd hle (by show ¬ 7 ≤ 6; decide)
  | storeRuntime hpc =>
    exact ⟨fun _ => hstart (by rw [hpc]; decide), fun _ => hstop (by rw [hpc]; decide), fun _ => rfl⟩
  | runForever hpc => exact ⟨hstart, hstop, hruntime⟩
  | startedDone hpc | measure hpc | noMeasure hpc | warmUp hpc | report hpc | noReport hpc
  | operate hpc | countOp hpc | reportedDone hpc =>
    rw [hpc] at hstart hstop hruntime
    constructor <;> simp_all [Pc.rank]

/-- Only the second reading decides whether the runtime will be zero: it is when the clock has
not moved since the first. -/
theorem Thread.Timed.positive_step (h : t.Timed clock) (hstep : t.Step clock t') :
    t'.Positive ↔ t.Positive ∧ (t.pc = .readEnd → clock ≠ t.start) := by
  unfold Thread.Positive
  cases hstep with
  | readEnd hpc =>
    have hzero := elapsed_eq_zero_iff (h.start (by rw [hpc]; decide))
    have hearly : ¬ 6 ≤ Pc.readEnd.rank := by decide
    rw [hpc, ne_eq, ne_eq, hzero]
    exact ⟨fun h => ⟨fun hle => absurd hle hearly, fun _ => h (Nat.le_refl 6)⟩, fun h _ => h.2 rfl⟩
  | runForever hpc => exact (and_iff_left fun h => by rw [hpc] at h; cases h).symm
  | startedDone hpc | measure hpc | noMeasure hpc | warmUp hpc | readStart hpc | report hpc
  | noReport hpc | operate hpc | countOp hpc | storeRuntime hpc | reportedDone hpc =>
    rw [hpc]
    simp [Pc.rank]

/-- The clock has moved since the goroutine's first reading when it takes the second. -/
def ClockMoved (s : State N) : Label N → Prop
  | .client i => (s.threads i).pc = .readEnd → s.clock ≠ (s.threads i).start
  | _ => True

instance (s : State N) : (l : Label N) → Decidable (ClockMoved s l)
  | .client i =>
    inferInstanceAs (Decidable ((s.threads i).pc = .readEnd → s.clock ≠ (s.threads i).start))
  | .bench | .tick _ | .fail => isTrue trivial

def Timed (s : State N) : Prop := ∀ i, (s.threads i).Timed s.clock

def Positive (s : State N) : Prop := ∀ i, (s.threads i).Positive

theorem timed_initial (N clock : Nat) : Timed (initial N clock) :=
  fun _ => ⟨fun h => absurd h (Nat.not_succ_le_zero 3), fun h => absurd h (Nat.not_succ_le_zero 5),
    fun h => absurd h (Nat.not_succ_le_zero 6)⟩

theorem timed_step : (machine N).Preserves fun s => Inv s ∧ Timed s := by
  refine inv_step.and fun s l u h _ htimed hstep => ?_
  obtain ⟨-, hstep⟩ := Option.ite_none_left_eq_some.mp hstep
  cases l with
  | client i =>
    rcases client_cases hstep with ⟨-, rfl⟩ | ⟨t, ht, hmoved⟩
    · exact htimed
    · rw [Timed, hmoved.threads, hmoved.clock]
      exact forall_update htimed ((htimed i).step ht)
  | bench =>
    obtain ⟨hclock, hthreads⟩ := bench_threads hstep
    intro j
    rw [hclock]
    rcases hthreads j with hsame | ⟨-, hcreated⟩
    · rw [hsame]
      exact htimed j
    · rw [hcreated]
      exact ⟨fun h => absurd h (by show ¬ 4 ≤ 1; decide), fun h => absurd h (by show ¬ 6 ≤ 1; decide),
        fun h => absurd h (by show ¬ 7 ≤ 1; decide)⟩
  | tick d =>
    cases hstep
    exact fun j => ⟨fun h => Nat.le_add_right_of_le ((htimed j).start h), (htimed j).stop,
      (htimed j).runtime⟩
  | fail =>
    cases hstep
    exact htimed

/-- A step keeps all runtimes positive if and only if the clock has moved where it is read
for the second time. -/
theorem positive_step (hinv : Inv s) (htimed : Timed s) (hstep : (machine N).step s l = some u) :
    Positive u ↔ Positive s ∧ ClockMoved s l := by
  obtain ⟨-, hstep⟩ := Option.ite_none_left_eq_some.mp hstep
  cases l with
  | client i =>
    rcases client_cases hstep with ⟨hdone, rfl⟩ | ⟨t, ht, hmoved⟩
    · -- a goroutine that reads the clock does not panic
      refine (and_iff_left fun hpc => ?_).symm
      rw [hpc] at hdone
      rcases hdone with h | h <;> cases h
    · unfold Positive
      rw [hmoved.threads]
      exact forall_update_iff_and ((htimed i).positive_step ht)
  | bench =>
    obtain ⟨-, hthreads⟩ := bench_threads hstep
    refine Iff.trans (forall_congr' fun j => ?_) (and_iff_left trivial).symm
    rcases hthreads j with hsame | ⟨hbench, hcreated⟩
    · rw [hsame]
    · have hpc : (s.threads j).pc = .notCreated := by
        rw [hinv.created, hbench]
        exact Nat.le_refl _
      rw [hcreated]
      refine iff_of_true (fun hle => absurd hle (by show ¬ 6 ≤ 1; decide)) fun hle => ?_
      rw [hpc] at hle
      exact absurd hle (by decide)
  | tick d =>
    cases hstep
    exact (and_iff_left trivial).symm
  | fail =>
    cases hstep
    exact (and_iff_left trivial).symm

-- ---------------------------------------------------------------------------
-- The division
-- ---------------------------------------------------------------------------

/-- When `bench` aggregates, every runtime is at least 1 if and only if the clock had moved
whenever a goroutine read it for the second time. -/
theorem runtime_iff (N clock : Nat) (ls : List (Label N)) (s : State N)
    (hrun : (machine N).exec (initial N clock) ls = some s) (hagg : s.bench.aggregating = true) :
    (∀ i, 1 ≤ (s.threads i).args.runtime) ↔
      (machine N).Along ClockMoved (initial N clock) ls := by
  have hstart : Inv (initial N clock) ∧ Timed (initial N clock) :=
    ⟨inv_initial N clock, timed_initial N clock⟩
  have hpositive : Positive (initial N clock) := fun _ h => absurd h (Nat.not_succ_le_zero 5)
  have hlast := Machine.last_iff_along timed_step
    (fun s l u h hstep => positive_step h.1 h.2 hstep) hstart hrun
  rw [and_iff_right hpositive] at hlast
  obtain ⟨hinv, htimed⟩ := timed_step.exec hstart hrun
  rw [← hlast]
  refine forall_congr' fun i => ?_
  have hpc := hinv.runForever hagg i
  rw [one_le_iff, (htimed i).runtime (by rw [hpc]; decide)]
  exact ⟨fun h _ => h, fun h => h (by rw [hpc]; decide)⟩

end EchoServer.GoBench
