import EchoServer.Bench.Total
import EchoServer.Lib.Justice
import Mathlib.Data.Prod.Lex

/-!
# go/client.go — every benchmark ends

The two wait groups count the goroutines that have not called `Done`, so that no call of
`Done` panics and `Wait` waits for a goroutine that is on its way there. The two flags are
set before `bench` waits for the reports, and a goroutine that looks at them goes on.

What is assumed of a run:

* the scheduler leaves out neither `bench` nor a goroutine that can go on (`JustUnless`);
* the server answers every operation: a goroutine that is in `conn.Read`, for the announcement
  or for a reply, comes back at some time (`Answers`, `State.Operating`). A server that stays
  silent once keeps `Wait` waiting;
* the calls of `time.Sleep` return (`Answers`, `State.Delayed`);
* for what is printed: no call fails, and the clock moves between the two readings of a
  goroutine (`Smooth`).

Main results:

* `groups_step` — whom the wait groups wait for;
* `distance_client`, `left_bench` — what a step of a goroutine and of `bench` brings closer;
* `bench_completes` — that `bench` comes to its end, in every such run, and what it prints.
-/

namespace EchoServer.GoBench

open EchoServer.Lib

variable {N : Nat} {s u : State N} {i : Fin N} {t t' : Thread} {clock : Nat} {l : Label N}

-- ---------------------------------------------------------------------------
-- The wait groups
-- ---------------------------------------------------------------------------

/-- A goroutine that `started` waits for. -/
def Thread.starting (t : Thread) : Nat := if t.pc = .startedDone then 1 else 0

/-- A goroutine that `reported` waits for. -/
def Thread.owing (t : Thread) : Nat := if t.pc = .notCreated ∨ t.pc = .runForever then 0 else 1

/-- The wait groups count, and the flags are set before `bench` waits for the reports. -/
structure Groups (s : State N) : Prop where
  started : s.started = total Thread.starting s.threads
  reported : s.reported = total Thread.owing s.threads
  flags : s.bench = .waitReported → s.shouldMeasure = true ∧ s.shouldReport = true
  measured : s.bench = .storeReport → s.shouldMeasure = true

theorem groups_initial (N clock : Nat) : Groups (initial N clock) where
  started := (total_eq_zero fun _ => rfl).symm
  reported := (total_eq_zero fun _ => rfl).symm
  flags := fun h => by cases h
  measured := fun h => by cases h

/-- A goroutine's step: it is counted down where it calls `Done`, and the rest stays. -/
structure Done (s u : State N) (i : Fin N) (t : Thread) : Prop where
  threads : u.threads = Function.update s.threads i t
  started : u.started + (s.threads i).starting = s.started + t.starting
  reported : u.reported + (s.threads i).owing = s.reported + t.owing
  bench : u.bench = s.bench
  flags : u.shouldMeasure = s.shouldMeasure ∧ u.shouldReport = s.shouldReport
  exit : u.exit = s.exit

/-- A step that no wait group counts. -/
theorem Done.quiet (hstarted : t.starting = (s.threads i).starting)
    (hreported : t.owing = (s.threads i).owing) : Done s (s.setThread i t) i t :=
  ⟨rfl, by rw [hstarted]; rfl, by rw [hreported]; rfl, rfl, ⟨rfl, rfl⟩, rfl⟩

/-- No call of `Done` panics. -/
theorem client_done (h : Groups s) (hstep : client s i = some u) :
    ∃ t, (s.threads i).Step s.clock t ∧ Done s u i t := by
  unfold client at hstep
  cases hpc : (s.threads i).pc with
  | notCreated => simp [hpc] at hstep
  | startedDone =>
    simp only [hpc] at hstep
    cases hstarted : s.started with
    | zero =>
      have hle := le_total (g := Thread.starting) (f := s.threads) i
      rw [← h.started, hstarted, Thread.starting, if_pos hpc] at hle
      cases hle
    | succ n =>
      simp only [hstarted, Option.some.injEq] at hstep
      subst hstep
      exact ⟨_, .startedDone hpc, rfl, by simp [Thread.starting, hpc, hstarted],
        by simp [Thread.owing, hpc, State.setThread], rfl, ⟨rfl, rfl⟩, rfl⟩
  | reportedDone =>
    simp only [hpc] at hstep
    cases hreported : s.reported with
    | zero =>
      have hle := le_total (g := Thread.owing) (f := s.threads) i
      rw [← h.reported, hreported, Thread.owing, if_neg (by rw [hpc]; decide)] at hle
      cases hle
    | succ n =>
      simp only [hreported, Option.some.injEq] at hstep
      subst hstep
      exact ⟨_, .reportedDone hpc, rfl, by simp [Thread.starting, hpc, State.setThread],
        by simp [Thread.owing, hpc, hreported], rfl, ⟨rfl, rfl⟩, rfl⟩
  | loadMeasure =>
    simp only [hpc, Option.some.injEq] at hstep
    subst hstep
    split
    · exact ⟨_, .measure hpc, .quiet (by simp [Thread.starting, hpc]) (by simp [Thread.owing, hpc])⟩
    · exact ⟨_, .noMeasure hpc, .quiet (by simp [Thread.starting, hpc]) (by simp [Thread.owing, hpc])⟩
  | loadReport =>
    simp only [hpc, Option.some.injEq] at hstep
    subst hstep
    split
    · exact ⟨_, .report hpc, .quiet (by simp [Thread.starting, hpc]) (by simp [Thread.owing, hpc])⟩
    · exact ⟨_, .noReport hpc, .quiet (by simp [Thread.starting, hpc]) (by simp [Thread.owing, hpc])⟩
  | warmUp =>
    simp only [hpc, Option.some.injEq] at hstep
    subst hstep
    exact ⟨_, .warmUp hpc, .quiet (by simp [Thread.starting, hpc]) (by simp [Thread.owing, hpc])⟩
  | readStart =>
    simp only [hpc, Option.some.injEq] at hstep
    subst hstep
    exact ⟨_, .readStart hpc, .quiet (by simp [Thread.starting, hpc]) (by simp [Thread.owing, hpc])⟩
  | operate =>
    simp only [hpc, Option.some.injEq] at hstep
    subst hstep
    exact ⟨_, .operate hpc, .quiet (by simp [Thread.starting, hpc]) (by simp [Thread.owing, hpc])⟩
  | countOp =>
    simp only [hpc, Option.some.injEq] at hstep
    subst hstep
    exact ⟨_, .countOp hpc, .quiet (by simp [Thread.starting, hpc]) (by simp [Thread.owing, hpc])⟩
  | readEnd =>
    simp only [hpc, Option.some.injEq] at hstep
    subst hstep
    exact ⟨_, .readEnd hpc, .quiet (by simp [Thread.starting, hpc]) (by simp [Thread.owing, hpc])⟩
  | storeRuntime =>
    simp only [hpc, Option.some.injEq] at hstep
    subst hstep
    exact ⟨_, .storeRuntime hpc, .quiet (by simp [Thread.starting, hpc]) (by simp [Thread.owing, hpc])⟩
  | runForever =>
    simp only [hpc, Option.some.injEq] at hstep
    subst hstep
    exact ⟨_, .runForever hpc, (Function.update_eq_self i s.threads).symm, rfl, rfl, rfl,
      ⟨rfl, rfl⟩, rfl⟩

theorem Groups.client (h : Groups s) (hstep : client s i = some u) : Groups u := by
  obtain ⟨t, -, hthreads, hstarted, hreported, hbench, ⟨hmeasure, hreport⟩, -⟩ := client_done h hstep
  have hsum : ∀ g : Thread → Nat, total g u.threads + g (s.threads i) = total g s.threads + g t := by
    intro g
    rw [hthreads]
    exact total_update
  have hsum₁ := hsum Thread.starting
  have hsum₂ := hsum Thread.owing
  have hold₁ := h.started
  have hold₂ := h.reported
  refine ⟨by omega, by omega, ?_, ?_⟩
  · rw [hbench, hmeasure, hreport]
    exact h.flags
  · rw [hbench, hmeasure]
    exact h.measured

theorem groups_step : (machine N).Preserves fun s => Inv s ∧ Groups s := by
  refine inv_step.and fun s l u h _ hs hstep => ?_
  obtain ⟨-, hmove⟩ := Option.ite_none_left_eq_some.mp hstep
  obtain ⟨hstarted, hreported, hflags, hmeasured⟩ := id hs
  cases l with
  | client i => exact hs.client hmove
  | bench =>
    cases bench_cases hmove with
    | create hk hbench =>
      have hpc : (s.threads ⟨_, hk⟩).pc = .notCreated := by
        rw [h.created, hbench]
        exact Nat.le_refl _
      have hsum : ∀ g : Thread → Nat, g (s.threads ⟨_, hk⟩) = 0 →
          g { s.threads ⟨_, hk⟩ with pc := .startedDone } = 1 →
          total g s.threads + 1 = total g (Function.update s.threads ⟨_, hk⟩
            { s.threads ⟨_, hk⟩ with pc := .startedDone }) := by
        intro g hzero hone
        have htotal := total_update (g := g) (f := s.threads) (i := ⟨_, hk⟩)
          (x := { s.threads ⟨_, hk⟩ with pc := .startedDone })
        omega
      refine ⟨?_, ?_, nofun, nofun⟩
      · exact (congrArg (· + 1) hstarted).trans (hsum _ (by simp [Thread.starting, hpc]) rfl)
      · exact (congrArg (· + 1) hreported).trans (hsum _ (by simp [Thread.owing, hpc]) rfl)
    | created | waitStarted | waitReported | add =>
      exact ⟨hstarted, hreported, nofun, nofun⟩
    | storeMeasure => exact ⟨hstarted, hreported, nofun, fun _ => rfl⟩
    | storeReport hbench => exact ⟨hstarted, hreported, fun _ => ⟨hmeasured hbench, rfl⟩, nofun⟩
    | divide | print => exact { hs with }
  | tick d =>
    cases hmove
    exact { hs with }
  | fail =>
    cases hmove
    exact { hs with }

-- ---------------------------------------------------------------------------
-- The goroutines
-- ---------------------------------------------------------------------------

/-- How many steps a goroutine is at most from its report, once the flags are set. -/
def Pc.toReported : Pc → Nat
  | .notCreated | .runForever => 0
  | .reportedDone => 1
  | .storeRuntime => 2
  | .readEnd => 3
  | .loadReport => 4
  | .countOp | .readStart => 5
  | .operate | .loadMeasure => 6
  | .warmUp | .startedDone => 7

/-- How many steps a goroutine is from what `bench` waits for. -/
def BenchPc.distance : BenchPc → Pc → Nat
  | .waitStarted => fun pc => if pc = .startedDone then 1 else 0
  | .waitReported => Pc.toReported
  | _ => fun _ => 0

def State.distance (s : State N) : Nat := total (fun t : Thread => s.bench.distance t.pc) s.threads

theorem distance_notCreated (b : BenchPc) : b.distance .notCreated = 0 := by
  cases b <;> rfl

/-- A flag that is set is seen. -/
theorem next_pc (hstep : client s i = some u) :
    ((s.threads i).pc = .loadMeasure → s.shouldMeasure = true → (u.threads i).pc = .readStart) ∧
      ((s.threads i).pc = .loadReport → s.shouldReport = true → (u.threads i).pc = .readEnd) := by
  constructor
  · intro hpc hflag
    simp only [client, hpc, hflag, if_true, Option.some.injEq] at hstep
    subst hstep
    simp [State.setThread]
  · intro hpc hflag
    simp only [client, hpc, hflag, if_true, Option.some.injEq] at hstep
    subst hstep
    simp [State.setThread]

/-- A goroutine's step brings it one step closer to what `bench` waits for. -/
theorem distance_client (h : Groups s) (hstep : client s i = some u) :
    s.bench.distance (u.threads i).pc = s.bench.distance (s.threads i).pc - 1 := by
  obtain ⟨t, ht, hdone⟩ := client_done h hstep
  have hself : u.threads i = t := by rw [hdone.threads, Function.update_self]
  rw [hself]
  cases hbench : s.bench with
  | create | storeMeasure | storeReport | aggregate => rfl
  | waitStarted =>
    cases ht with
    | startedDone hpc | measure hpc | noMeasure hpc | warmUp hpc | readStart hpc | report hpc
    | noReport hpc | operate hpc | countOp hpc | readEnd hpc | storeRuntime hpc | reportedDone hpc
    | runForever hpc =>
      simp only [BenchPc.distance, hpc]
      rfl
  | waitReported =>
    obtain ⟨hmeasure, hreport⟩ := next_pc hstep
    obtain ⟨hflag, hflag'⟩ := h.flags hbench
    rw [hself] at hmeasure hreport
    cases ht with
    | noMeasure hpc => cases hmeasure hpc hflag
    | noReport hpc => cases hreport hpc hflag'
    | startedDone hpc | measure hpc | warmUp hpc | readStart hpc | report hpc | operate hpc
    | countOp hpc | readEnd hpc | storeRuntime hpc | reportedDone hpc | runForever hpc =>
      simp only [BenchPc.distance, hpc]
      rfl

theorem client_enabled (hpc : (s.threads i).pc ≠ .notCreated) : ∃ u, client s i = some u := by
  rw [← Option.isSome_iff_exists]
  cases h : (s.threads i).pc with
  | notCreated => exact absurd h hpc
  | startedDone =>
    simp only [client, h]
    split
    · rfl
    · rfl
  | reportedDone =>
    simp only [client, h]
    split
    · rfl
    · rfl
  | loadMeasure | warmUp | readStart | loadReport | operate | countOp | readEnd | storeRuntime
  | runForever =>
    simp only [client, h]
    rfl

-- ---------------------------------------------------------------------------
-- `bench`
-- ---------------------------------------------------------------------------

/-- How many steps `bench` still has to do. -/
def BenchPc.left (N : Nat) : BenchPc → Nat
  | .create i => N - i + (N + 6)
  | .waitStarted => N + 5
  | .storeMeasure => N + 4
  | .storeReport => N + 3
  | .waitReported => N + 2
  | .aggregate i _ _ => N - i

/-- `bench` need not wait. -/
def State.Ready (s : State N) : Prop :=
  (s.bench = .waitStarted → s.started = 0) ∧ (s.bench = .waitReported → s.reported = 0)

theorem left_bench (h : Inv s) (hstep : bench s = some u) :
    u.exit ≠ none ∨ u.bench.left N < s.bench.left N := by
  have hround := h.round
  cases bench_cases hstep with
  | divide | print => exact Or.inl (Option.some_ne_none _)
  | create hk hbench | created hbench hk | add hk hbench =>
    right
    rw [hbench]
    simp only [BenchPc.left]
    omega
  | waitStarted hbench | storeMeasure hbench | storeReport hbench | waitReported hbench =>
    right
    rw [hbench]
    simp only [BenchPc.left]
    omega

theorem bench_enabled (h : s.Ready) : ∃ u, bench s = some u := by
  obtain ⟨hstarted, hreported⟩ := h
  rw [← Option.isSome_iff_exists]
  cases hbench : s.bench with
  | create k =>
    simp only [bench, hbench]
    split
    · rfl
    · rfl
  | waitStarted =>
    simp only [bench, hbench, hstarted hbench]
    rfl
  | waitReported =>
    simp only [bench, hbench, hreported hbench]
    rfl
  | storeMeasure | storeReport =>
    simp only [bench, hbench]
    rfl
  | aggregate k numOps throughput =>
    simp only [bench, hbench]
    split
    · split
      · rfl
      · rfl
    · rfl

-- ---------------------------------------------------------------------------
-- The rank
-- ---------------------------------------------------------------------------

/-- Who brings the end closer: `bench`, if it does not wait, or a goroutine it waits for. -/
def Helps (s : State N) : Option (Fin N) → Prop
  | none => s.Ready
  | some i => 0 < s.bench.distance (s.threads i).pc

/-- The steps of `bench`, and those of one goroutine. -/
def Party : Option (Fin N) → Label N → Prop
  | none, l => l = .bench
  | some i, l => l = .client i

/-- The steps that are left to `bench`, and the way that is left to the goroutines it waits
for. -/
def Ranked (x : ℕ ×ₗ ℕ) (s : State N) : Prop :=
  (Inv s ∧ Groups s) ∧ x = toLex (s.bench.left N, s.distance)

theorem exists_pos {g : Thread → Nat} {f : Fin N → Thread} (h : total g f ≠ 0) :
    ∃ i, 0 < g (f i) := by
  by_contra hnone
  exact h (total_eq_zero fun i => Nat.eq_zero_of_not_pos fun hpos => hnone ⟨i, hpos⟩)

theorem Pc.toReported_pos {pc : Pc} (h : ¬ (pc = .notCreated ∨ pc = .runForever)) :
    0 < pc.toReported := by
  revert h
  cases pc <;> decide

/-- When `bench` waits, some goroutine has not called `Done`. -/
theorem Groups.helps (h : Groups s) : ∃ a, Helps s a := by
  by_cases hready : s.Ready
  · exact ⟨none, hready⟩
  · rw [State.Ready, not_and_or, Classical.not_imp, Classical.not_imp] at hready
    rcases hready with ⟨hbench, hnot⟩ | ⟨hbench, hnot⟩
    · rw [h.started] at hnot
      obtain ⟨i, hi⟩ := exists_pos hnot
      refine ⟨some i, ?_⟩
      rw [Helps, hbench]
      exact hi
    · rw [h.reported] at hnot
      obtain ⟨i, hi⟩ := exists_pos hnot
      refine ⟨some i, ?_⟩
      rw [Helps, hbench]
      refine Pc.toReported_pos fun hpc => ?_
      rw [Thread.owing, if_pos hpc] at hi
      exact absurd hi (Nat.lt_irrefl 0)

/-- The goroutines only count down. -/
theorem ready_client (h : Groups s) (hstep : client s i = some u) (hready : s.Ready) : u.Ready := by
  obtain ⟨t, ht, hdone⟩ := client_done h hstep
  have hle : t.starting ≤ (s.threads i).starting ∧ t.owing ≤ (s.threads i).owing := by
    unfold Thread.starting Thread.owing
    cases ht with
    | startedDone hpc | measure hpc | noMeasure hpc | warmUp hpc | readStart hpc | report hpc
    | noReport hpc | operate hpc | countOp hpc | readEnd hpc | storeRuntime hpc | reportedDone hpc
    | runForever hpc => simp [hpc]
  have hstarted := hdone.started
  have hreported := hdone.reported
  unfold State.Ready at hready ⊢
  rw [hdone.bench]
  refine ⟨fun hbench => ?_, fun hbench => ?_⟩
  · have hzero := hready.1 hbench
    omega
  · have hzero := hready.2 hbench
    omega

/-- A goroutine's step: it comes closer, or it is not waited for. -/
theorem ranked_client {x : ℕ ×ₗ ℕ} (h : Ranked x s) (hstep : client s i = some u)
    (hinv : Inv u ∧ Groups u) :
    (∃ y < x, Ranked y u) ∨
      Ranked x u ∧ ∀ a, Helps s a → Helps u a ∧ ¬ Party a (.client i) := by
  obtain ⟨⟨-, hs⟩, rfl⟩ := h
  obtain ⟨t, -, hdone⟩ := client_done hs hstep
  have hcloser := distance_client hs hstep
  have hself : u.threads i = t := by rw [hdone.threads, Function.update_self]
  rw [hself] at hcloser
  have hsum := total_update (g := fun t : Thread => s.bench.distance t.pc) (f := s.threads) (i := i)
    (x := t)
  rw [← hdone.threads] at hsum
  have hdistance : u.distance = total (fun t : Thread => s.bench.distance t.pc) u.threads := by
    rw [State.distance, hdone.bench]
  by_cases hpos : 0 < s.bench.distance (s.threads i).pc
  · left
    refine ⟨_, ?_, hinv, rfl⟩
    rw [hdone.bench, hdistance, Prod.Lex.toLex_lt_toLex]
    refine Or.inr ⟨rfl, ?_⟩
    show total (fun t : Thread => s.bench.distance t.pc) u.threads < s.distance
    rw [State.distance]
    omega
  · right
    refine ⟨⟨hinv, ?_⟩, fun a ha => ?_⟩
    · have hsame : s.distance = u.distance := by
        rw [hdistance]
        show total _ s.threads = _
        omega
      rw [hdone.bench, hsame]
    · cases a with
      | none => exact ⟨ready_client hs hstep ha, fun h => by cases h⟩
      | some j =>
        have hne : j ≠ i := fun heq => hpos (heq ▸ ha)
        refine ⟨?_, fun heq => hne (Label.client.inj heq).symm⟩
        rw [Helps, hdone.bench, hdone.threads, Function.update_of_ne hne]
        exact ha

/-- Outside of the end, the rank goes down or who helps goes on to do so. -/
theorem ranking : Machine.Ranking (machine N) (fun _ _ => True) (fun s => s.exit ≠ none) Party Ranked
    (fun _ => Helps) where
  helps := fun x s h _ => h.1.2.helps
  enabled := by
    intro x s a h hexit ha
    have hnone : ¬ s.exit.isSome := by simpa using hexit
    cases a with
    | none =>
      obtain ⟨u, hu⟩ := bench_enabled ha
      exact ⟨.bench, u, rfl, by simp only [machine, step, if_neg hnone, hu]⟩
    | some i =>
      have hcreated : (s.threads i).pc ≠ .notCreated := by
        intro hpc
        have hpos : 0 < s.bench.distance (s.threads i).pc := ha
        rw [hpc, distance_notCreated] at hpos
        exact absurd hpos (Nat.lt_irrefl 0)
      obtain ⟨u, hu⟩ := client_enabled hcreated
      exact ⟨.client i, u, rfl, by simp only [machine, step, if_neg hnone, hu]⟩
  step := by
    intro x s l u h _ _ hstep
    have hinv := groups_step h.1 hstep
    obtain ⟨-, hmove⟩ := Option.ite_none_left_eq_some.mp hstep
    cases l with
    | client i => exact Or.inr (ranked_client h hmove hinv)
    | bench =>
      rcases left_bench h.1.1 hmove with hexit | hlt
      · exact Or.inl hexit
      · obtain ⟨-, rfl⟩ := h
        exact Or.inr (Or.inl ⟨_, Prod.Lex.toLex_lt_toLex.mpr (Or.inl hlt), hinv, rfl⟩)
    | tick d =>
      cases hmove
      refine Or.inr (Or.inr ⟨⟨hinv, h.2⟩, fun a ha => ⟨?_, ?_⟩⟩)
      · cases a with
        | none => exact ha
        | some j => exact ha
      · cases a with
        | none => exact fun h => by cases h
        | some j => exact fun h => by cases h
    | fail =>
      cases hmove
      exact Or.inl (Option.some_ne_none _)

-- ---------------------------------------------------------------------------
-- The result
-- ---------------------------------------------------------------------------

/-- The goroutines' counters, in the order in which they are added. -/
def State.numOps (s : State N) : List UInt64 := List.ofFn fun i => (s.threads i).args.numOps

/-- The rounds so far have added the first counters. -/
def Counted (s : State N) : Prop :=
  ∀ k numOps throughput, s.bench = .aggregate k numOps throughput → numOps = wrapSum (s.numOps.take k)

theorem counted_step : (machine N).Preserves fun s => Inv s ∧ Counted s := by
  refine inv_step.and fun s l u h _ hs hstep => ?_
  intro j numOps throughput hu
  have hsame : s.bench.aggregating = true → u.numOps = s.numOps :=
    fun hagg => by rw [State.numOps, State.numOps, threads_step h hagg hstep]
  obtain ⟨-, hmove⟩ := Option.ite_none_left_eq_some.mp hstep
  cases l with
  | client i =>
    rcases client_cases hmove with ⟨-, rfl⟩ | ⟨t, -, hmoved⟩
    · exact hs j numOps throughput hu
    · rw [hmoved.bench] at hu
      rw [hsame (by rw [hu]; rfl)]
      exact hs j numOps throughput hu
  | bench =>
    cases bench_cases hmove with
    | create | created | waitStarted | storeMeasure | storeReport => cases hu
    | waitReported =>
      cases hu
      rfl
    | add hk hbench =>
      cases hu
      rw [hs _ _ _ hbench]
      exact (wrapSum_take_succ hk).symm
    | divide | print => exact hs j numOps throughput hu
  | tick | fail =>
    cases hmove
    exact hs j numOps throughput hu

/-- No call fails, and the clock has moved where it is read for the second time. -/
def Smooth (s : State N) (l : Label N) : Prop := l ≠ .fail ∧ ClockMoved s l

instance (s : State N) (l : Label N) : Decidable (Smooth s l) :=
  inferInstanceAs (Decidable (l ≠ .fail ∧ ClockMoved s l))

/-- How the process ends, if it ends: it prints what the goroutines counted. -/
def Printed (s : State N) : Prop :=
  ∀ e, s.exit = some e → e = .finished (wrapSum s.numOps) (wrapSum s.throughputs)

/-- What holds all along a run in which no call fails and the clock moves. -/
structure Going (s : State N) : Prop where
  inv : Inv s
  groups : Groups s
  timed : Timed s
  positive : Positive s
  summed : Summed s
  counted : Counted s
  printed : Printed s

theorem going_initial (N clock : Nat) : Going (initial N clock) where
  inv := inv_initial N clock
  groups := groups_initial N clock
  timed := timed_initial N clock
  positive := fun _ h => absurd h (Nat.not_succ_le_zero 5)
  summed := fun _ _ _ h => by cases h
  counted := fun _ _ _ h => by cases h
  printed := fun _ h => by cases h

theorem Going.step (h : Going s) (hl : Smooth s l) (hstep : (machine N).step s l = some u) :
    Going u := by
  refine ⟨inv_step h.inv hstep, (groups_step ⟨h.inv, h.groups⟩ hstep).2,
    (timed_step ⟨h.inv, h.timed⟩ hstep).2, (positive_step h.inv h.timed hstep).mpr ⟨h.positive, hl.2⟩,
    (summed_step ⟨h.inv, h.summed⟩ hstep).2, (counted_step ⟨h.inv, h.counted⟩ hstep).2, ?_⟩
  obtain ⟨hnone, hmove⟩ := Option.ite_none_left_eq_some.mp hstep
  have hnone : s.exit = none := by simpa using hnone
  -- before the step the process goes on
  have hgoes : u.exit = s.exit → Printed u := fun hsame e he => by
    rw [hsame, hnone] at he
    cases he
  cases l with
  | client i =>
    obtain ⟨t, -, hdone⟩ := client_done h.groups hmove
    exact hgoes hdone.exit
  | bench =>
    cases bench_cases hmove with
    | create | created | waitStarted | storeMeasure | storeReport | waitReported | add => exact hgoes rfl
    | divide hk hbench hzero =>
      have hpc := h.inv.runForever (by rw [hbench]; rfl) ⟨_, hk⟩
      refine absurd hzero ?_
      rw [(h.timed ⟨_, hk⟩).runtime (by rw [hpc]; decide)]
      exact h.positive ⟨_, hk⟩ (by rw [hpc]; decide)
    | print hbench hover =>
      intro e he
      cases he
      have hnum := h.counted _ _ _ hbench
      have hthroughput := h.summed _ _ _ hbench
      rw [State.numOps] at hnum
      rw [State.throughputs] at hthroughput
      rw [List.take_of_length_le (List.length_ofFn.le.trans hover)] at hnum hthroughput
      rw [hnum, hthroughput]
      rfl
  | tick d =>
    cases hmove
    exact hgoes rfl
  | fail => exact absurd rfl hl.1

/-- The goroutine is in `conn.Read`: in `oneOperation`, where it waits for the server's reply,
or before `started.Done`, where it waits for the announcement. -/
def State.Operating (s : State N) (i : Fin N) : Prop :=
  match (s.threads i).pc with
  | .startedDone | .warmUp | .operate | .runForever => True
  | _ => False

/-- `bench` sleeps before it sets a flag. -/
def State.Delayed (s : State N) : Prop := s.bench = .storeMeasure ∨ s.bench = .storeReport

/-- **Every benchmark ends.** For every number of goroutines, in every run in which neither
`bench` nor a goroutine that can go on is left out for ever, the server answers every
operation, and `time.Sleep` returns, the process comes to its end. If no call fails and the
clock has moved between the two readings of every goroutine, it prints the sums of what the
goroutines counted and of their throughputs. -/
theorem bench_completes (N clock : Nat) (r : (machine N).Run) (hstart : r.state 0 = initial N clock)
    (hbench : r.JustUnless State.Delayed fun l => l = .bench)
    (hdelays : r.Answers State.Delayed fun l => l = .bench)
    (hclients : ∀ i, r.JustUnless (fun s => s.Operating i) fun l => l = .client i)
    (hserver : ∀ i, r.Answers (fun s => s.Operating i) fun l => l = .client i) :
    ∃ k, (r.state k).exit ≠ none ∧ (r.Always Smooth → (r.state k).exit =
      some (.finished (wrapSum (r.state k).numOps) (wrapSum (r.state k).throughputs))) := by
  have hinv : Inv (r.state 0) ∧ Groups (r.state 0) := by
    rw [hstart]
    exact ⟨inv_initial N clock, groups_initial N clock⟩
  have hjust : ∀ a, r.Just (Party a) := by
    rintro (_ | i)
    · exact hbench.just hdelays
    · exact (hclients i).just (hserver i)
  obtain ⟨k, -, hexit⟩ := ranking.eventually (fun _ _ _ => trivial) (fun a => (hjust a).unless _)
    ⟨hinv, rfl⟩
  refine ⟨k, hexit, fun hsmooth => ?_⟩
  have hgoing : Going (r.state k) :=
    hsmooth.invariant (hstart ▸ going_initial N clock) (fun _ _ _ h hl hstep => h.step hl hstep) k
  obtain ⟨e, he⟩ := Option.ne_none_iff_exists'.mp hexit
  rw [he, hgoing.printed e he]

def first : Fin 2 := .castSucc (.last 0)

def second : Fin 2 := .last 1

/-- `k` steps of the goroutine `i`. -/
def steps (k : Nat) (i : Fin 2) : List (Label 2) := List.replicate k (.client i)

/-- Two goroutines, and `bench` to its end: the one warms up with an operation and then makes
one in five nanoseconds, the other two in eight. -/
def operationsMeasured : List (Label 2) :=
  [.bench, .bench, .bench] ++ steps 3 first ++ steps 1 second ++ [.bench, .bench] ++
    steps 5 first ++ steps 6 second ++ [.bench] ++ steps 2 second ++ [.tick 5] ++ steps 4 first ++
    [.tick 3] ++ steps 4 second ++ [.bench, .bench, .bench, .bench]

theorem bench_completes_operationsMeasured :
    ∃ (r : (machine 2).Run) (k : ℕ), (r.state k).exit =
      some (.finished (wrapSum (r.state k).numOps) (wrapSum (r.state k).throughputs)) := by
  have hview : ((machine 2).exec (initial 2 0) operationsMeasured).map (fun s => s.exit) =
      some (some (.finished 3 450000000)) := by decide +kernel
  have hsmooth : (machine 2).Along Smooth (initial 2 0) operationsMeasured := by decide +kernel
  obtain ⟨s, hs, hexit⟩ := Option.map_eq_some_iff.mp hview
  obtain ⟨r, h0, hend, halways⟩ := Machine.exists_run hs
  -- at its end nothing is enabled
  have hdisabled : ∀ l, (machine 2).step s l = none := by
    intro l
    simp [machine, step, hexit]
  have hjust : ∀ A, r.Just A := fun A => Machine.Run.just_of_disabled hend fun l _ => hdisabled l
  obtain ⟨k, -, hprinted⟩ := bench_completes 2 0 r h0 ((hjust _).unless _) ((hjust _).answers _)
    (fun _ => (hjust _).unless _) fun _ => (hjust _).answers _
  exact ⟨r, k, hprinted (halways _ hsmooth)⟩

end EchoServer.GoBench
