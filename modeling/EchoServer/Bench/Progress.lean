import EchoServer.Bench.Total
import EchoServer.Bench.Runtime
import EchoServer.Lib.Justice
import Mathlib.Algebra.BigOperators.Fin
import Mathlib.Data.Prod.Lex

/-!
# client.c, multiclient.c — every benchmark ends

Nothing bounds how long a thread warms up or how often it operates; what ends its loops
is a token, and what posts the tokens is `bench`, which itself waits for the threads. In
a run in which neither is left out for ever, `bench` comes to its end: while it waits for
a token, every step of a thread brings the thread closer to posting one.

Nothing of this happens by the program alone. What is assumed of a run:

* the scheduler leaves out neither `bench` nor a thread that can go on (`JustUnless`);
* the server answers every operation: a thread that blocks in a `recv`, for the announcement
  or for a reply, comes back at some time (`Answers`, `State.Operating`). A server that stays
  silent once makes `bench` wait for ever;
* the delays between the phases are over at some time: `nanosleep` returns, or the driver
  sets the flag (`Answers`, `State.Delayed`);
* for what is printed: no call fails, and the clock moves between the two readings of a
  thread (`Smooth`).

Main results:

* `distance_client` — what a thread's step does to its distance;
* `left_bench` — what a step of `bench` does to the rounds that are left;
* `ranking` — the two together make a rank;
* `Going.step` — what is printed, if no call fails and the clock moves;
* `bench_ends` — that it is printed, in every such run.
-/

namespace EchoServer.Bench

open EchoServer.Lib

variable {N : Nat} {s u : State N} {i : Fin N}

-- ---------------------------------------------------------------------------
-- The threads
-- ---------------------------------------------------------------------------

/-- How many steps a thread is from posting its `started` token. -/
def Pc.toStarted : Pc → Nat
  | .firstOperation => 2
  | .postStarted => 1
  | _ => 0

/-- How many steps a thread is at most from posting its `reported` token, once `bench` has
posted all of its own. -/
def Pc.toReported : Pc → Nat
  | .notCreated | .runForever => 0
  | .postReported => 1
  | .storeRuntime => 2
  | .readEnd => 3
  | .tryReport => 4
  | .countOp | .resetOps => 5
  | .operate | .readStart => 6
  | .tryMeasure => 7
  | .warmUp | .postStarted => 8
  | .firstOperation => 9

/-- How many steps a thread is from what `bench` waits for. -/
def BenchPc.distance : BenchPc → Pc → Nat
  | .waitStarted _ => Pc.toStarted
  | .waitReported _ => Pc.toReported
  | _ => fun _ => 0

def State.distance (s : State N) : Nat := total (fun t : Thread => s.bench.distance t.pc) s.threads

theorem distance_notCreated (b : BenchPc) : b.distance .notCreated = 0 := by
  cases b <;> rfl

/-- A thread that finds no token of its kind has taken its own, as long as all are posted. -/
theorem Inv.take_measure (h : Inv s) (hposted : s.bench.measurePosted N = N)
    (hi : (s.threads i).measure = 0) : ∃ sem, s.shouldMeasure.take = some sem := by
  have hcard := (h.tokens).measure
  have hpos : 0 < (Finset.univ.filter fun i => (s.threads i).measure = 0).card :=
    Finset.card_pos.mpr ⟨i, Finset.mem_filter.mpr ⟨Finset.mem_univ i, hi⟩⟩
  rw [h.measurePosted, hposted, Nat.sub_self, Nat.add_zero] at hcard
  rw [Sem.take, dif_pos (hcard ▸ hpos)]
  exact ⟨_, rfl⟩

theorem Inv.take_report (h : Inv s) (hposted : s.bench.reportPosted N = N)
    (hi : (s.threads i).report = 0) : ∃ sem, s.shouldReport.take = some sem := by
  have hcard := (h.tokens).report
  have hpos : 0 < (Finset.univ.filter fun i => (s.threads i).report = 0).card :=
    Finset.card_pos.mpr ⟨i, Finset.mem_filter.mpr ⟨Finset.mem_univ i, hi⟩⟩
  rw [h.reportPosted, hposted, Nat.sub_self, Nat.add_zero] at hcard
  rw [Sem.take, dif_pos (hcard ▸ hpos)]
  exact ⟨_, rfl⟩

/-- The token that a thread tries to take is there while `bench` waits for the reports. -/
theorem next_pc (h : Inv s) {k : Nat} (hbench : s.bench = .waitReported k)
    (hstep : client s i = some u) :
    ((s.threads i).pc = .tryMeasure → (u.threads i).pc = .readStart) ∧
      ((s.threads i).pc = .tryReport → (u.threads i).pc = .readEnd) := by
  have hlocal := h.threads i
  constructor
  · intro hpc
    have hzero := hlocal.measure
    rw [hpc] at hzero
    obtain ⟨sem, htake⟩ := h.take_measure (by rw [hbench]; rfl) hzero
    simp only [client, hpc, htake, Option.some.injEq] at hstep
    subst hstep
    simp [State.setThread]
  · intro hpc
    have hzero := hlocal.report
    rw [hpc] at hzero
    obtain ⟨sem, htake⟩ := h.take_report (by rw [hbench]; rfl) hzero
    simp only [client, hpc, htake, Option.some.injEq] at hstep
    subst hstep
    simp [State.setThread]

/-- A thread's step brings it one step closer to what `bench` waits for. -/
theorem distance_client (h : Inv s) (hstep : client s i = some u) :
    s.bench.distance (u.threads i).pc = s.bench.distance (s.threads i).pc - 1 := by
  obtain ⟨t, ht, hmoved⟩ := client_cases hstep
  have hself : u.threads i = t := by rw [hmoved.threads, Function.update_self]
  rw [hself]
  cases hbench : s.bench with
  | create | postMeasure | postReport | aggregate => rfl
  | waitStarted =>
    cases ht with
    | runForever hpc =>
      show Pc.toStarted (s.threads i).pc = Pc.toStarted (s.threads i).pc - 1
      rw [hpc]
      rfl
    | firstOperation hpc | postStarted hpc | measure hpc | noMeasure hpc | warmUp hpc | readStart hpc
    | resetOps hpc | report hpc | noReport hpc | operate hpc | countOp hpc | readEnd hpc
    | storeRuntime hpc | postReported hpc =>
      rw [hpc]
      rfl
  | waitReported k =>
    obtain ⟨hmeasure, hreport⟩ := next_pc h hbench hstep
    rw [hself] at hmeasure hreport
    cases ht with
    | noMeasure hpc => cases hmeasure hpc
    | noReport hpc => cases hreport hpc
    | runForever hpc =>
      show Pc.toReported (s.threads i).pc = Pc.toReported (s.threads i).pc - 1
      rw [hpc]
      rfl
    | firstOperation hpc | postStarted hpc | measure hpc | warmUp hpc | readStart hpc
    | resetOps hpc | report hpc | operate hpc | countOp hpc | readEnd hpc | storeRuntime hpc
    | postReported hpc =>
      rw [hpc]
      rfl

theorem client_exit (h : client s i = some u) : u.exit = s.exit := by
  cases hpc : (s.threads i).pc with
  | notCreated => simp [client, hpc] at h
  | tryMeasure =>
    simp only [client, hpc] at h
    split at h
    · cases h
      rfl
    · cases h
      rfl
  | tryReport =>
    simp only [client, hpc] at h
    split at h
    · cases h
      rfl
    · cases h
      rfl
  | firstOperation | postStarted | warmUp | readStart | resetOps | operate | countOp | readEnd
  | storeRuntime | postReported | runForever =>
    simp only [client, hpc, Option.some.injEq] at h
    subst h
    rfl

theorem client_enabled (hpc : (s.threads i).pc ≠ .notCreated) : ∃ u, client s i = some u := by
  rw [← Option.isSome_iff_exists]
  cases h : (s.threads i).pc with
  | notCreated => exact absurd h hpc
  | tryMeasure =>
    simp only [client, h]
    split
    · rfl
    · rfl
  | tryReport =>
    simp only [client, h]
    split
    · rfl
    · rfl
  | firstOperation | postStarted | warmUp | readStart | resetOps | operate | countOp | readEnd
  | storeRuntime | postReported | runForever =>
    simp only [client, h]
    rfl

-- ---------------------------------------------------------------------------
-- `bench`
-- ---------------------------------------------------------------------------

/-- How many steps `bench` still has to do. -/
def BenchPc.left (N : Nat) : BenchPc → Nat
  | .create i => N - i + 5 * (N + 1)
  | .waitStarted i => N - i + 4 * (N + 1)
  | .postMeasure i => N - i + 3 * (N + 1)
  | .postReport i => N - i + 2 * (N + 1)
  | .waitReported i => N - i + (N + 1)
  | .aggregate i _ _ => N - i

/-- What `bench` waits for, if it waits, is there. -/
def State.Ready (s : State N) : Prop :=
  match s.bench with
  | .waitStarted k => k < N → 0 < s.started.value
  | .waitReported k => k < N → 0 < s.reported.value
  | _ => True

theorem left_bench (h : Inv s) (hstep : bench s = some u) :
    u.exit ≠ none ∨ u.bench.left N < s.bench.left N := by
  have hround := h.round
  cases bench_cases hstep with
  | divide | print => exact Or.inl (Option.some_ne_none _)
  | next hover hnext =>
    right
    cases hbench : s.bench with
    | create | waitStarted | postMeasure | postReport | waitReported =>
      rw [hbench] at hnext hround hover
      cases hnext
      simp only [BenchPc.left, BenchPc.round] at hround hover ⊢
      omega
    | aggregate =>
      rw [hbench] at hnext
      cases hnext
  | create hk hbench | waitStarted hbench hk | postMeasure hbench hk | postReport hbench hk
  | waitReported hbench hk | add hk hbench =>
    right
    rw [hbench]
    simp only [BenchPc.left]
    omega

theorem bench_enabled (h : s.Ready) : ∃ u, bench s = some u := by
  have htake : ∀ sem : Sem, 0 < sem.value → ∃ sem', sem.take = some sem' :=
    fun sem hpos => ⟨_, by rw [Sem.take, dif_pos hpos]⟩
  unfold State.Ready at h
  unfold bench
  cases hbench : s.bench with
  | create | postMeasure | postReport =>
    simp only
    split
    · exact ⟨_, rfl⟩
    · exact ⟨_, rfl⟩
  | waitStarted k =>
    rw [hbench] at h
    simp only
    split
    · next hk =>
      obtain ⟨sem, hsem⟩ := htake _ (h hk)
      exact ⟨_, by rw [hsem]; rfl⟩
    · exact ⟨_, rfl⟩
  | waitReported k =>
    rw [hbench] at h
    simp only
    split
    · next hk =>
      obtain ⟨sem, hsem⟩ := htake _ (h hk)
      exact ⟨_, by rw [hsem]; rfl⟩
    · exact ⟨_, rfl⟩
  | aggregate k numOps throughput =>
    simp only
    split
    · split
      · exact ⟨_, rfl⟩
      · exact ⟨_, rfl⟩
    · exact ⟨_, rfl⟩

/-- The threads take no token that `bench` waits for. -/
theorem ready_client (hstep : client s i = some u) (h : s.Ready) : u.Ready := by
  obtain ⟨t, ht, hmoved⟩ := client_cases hstep
  have hstarted := hmoved.started
  have hreported := hmoved.reported
  have hmono : (s.threads i).started ≤ t.started ∧ (s.threads i).reported ≤ t.reported := by
    cases ht <;> exact ⟨by simp [Thread.oneOperation], by simp [Thread.oneOperation]⟩
  have hvalue₁ := s.started.conserved
  have hvalue₂ := u.started.conserved
  have hvalue₃ := s.reported.conserved
  have hvalue₄ := u.reported.conserved
  unfold State.Ready at h ⊢
  rw [hmoved.bench]
  cases hbench : s.bench with
  | create | postMeasure | postReport | aggregate => trivial
  | waitStarted k =>
    rw [hbench] at h
    intro hk
    have hpos := h hk
    omega
  | waitReported k =>
    rw [hbench] at h
    intro hk
    have hpos := h hk
    omega

-- ---------------------------------------------------------------------------
-- The rank
-- ---------------------------------------------------------------------------

/-- Who brings the end closer: `bench`, if it does not wait, or a thread that it waits for. -/
def Helps (s : State N) : Option (Fin N) → Prop
  | none => s.Ready
  | some i => 0 < s.bench.distance (s.threads i).pc

/-- The steps of `bench`, and those of one thread. -/
def Party : Option (Fin N) → Label N → Prop
  | none, l => l = .bench
  | some i, l => l = .client i

/-- The rounds that are left to `bench`, and the way that is left to the threads it waits for. -/
def Ranked (x : ℕ ×ₗ ℕ) (s : State N) : Prop :=
  Inv s ∧ x = toLex (s.bench.left N, s.distance)

theorem exists_eq_zero {g : Thread → Nat} {f : Fin N → Thread} (hle : ∀ i, g (f i) ≤ 1)
    (hlt : total g f < N) : ∃ i, g (f i) = 0 := by
  have hcard := card_add_total hle
  rw [Fintype.card_fin] at hcard
  have hpos : 0 < (Finset.univ.filter fun i => g (f i) = 0).card := by omega
  obtain ⟨i, hi⟩ := Finset.card_pos.mp hpos
  exact ⟨i, (Finset.mem_filter.mp hi).2⟩

theorem Pc.toStarted_pos {pc : Pc} (hcreated : pc ≠ .notCreated) (h : ¬ 3 ≤ pc.rank) :
    0 < pc.toStarted := by
  revert hcreated h
  cases pc <;> decide

theorem Pc.toReported_pos {pc : Pc} (hcreated : pc ≠ .notCreated) (h : ¬ 10 ≤ pc.rank) :
    0 < pc.toReported := by
  revert hcreated h
  cases pc <;> decide

/-- When `bench` waits for a token, some thread has not posted its own. -/
theorem Inv.helps (h : Inv s) : ∃ a, Helps s a := by
  have hcreated : ∀ i, s.bench.created N = N → (s.threads i).pc ≠ .notCreated := by
    intro i hall hpc
    have hle := (h.created i).mp hpc
    have hlt := i.isLt
    omega
  by_cases hready : s.Ready
  · exact ⟨none, hready⟩
  · have hnot := hready
    unfold State.Ready at hnot
    cases hbench : s.bench with
    | create | postMeasure | postReport | aggregate =>
      rw [hbench] at hnot
      exact absurd trivial hnot
    | waitStarted k =>
      rw [hbench] at hnot
      have hsum : total Thread.started s.threads < N := by
        have htaken := h.startedTaken
        rw [hbench] at htaken
        rw [← h.startedPosted, ← s.started.conserved, htaken]
        simp only [BenchPc.startedTaken]
        omega
      obtain ⟨i, hi⟩ := exists_eq_zero (fun i => (h.threads i).once.1) hsum
      have hrank := (h.threads i).started
      rw [hi] at hrank
      refine ⟨some i, ?_⟩
      rw [Helps, hbench]
      exact Pc.toStarted_pos (hcreated i (by rw [hbench]; rfl)) (by split at hrank <;> omega)
    | waitReported k =>
      rw [hbench] at hnot
      have hsum : total Thread.reported s.threads < N := by
        have htaken := h.reportedTaken
        rw [hbench] at htaken
        rw [← h.reportedPosted, ← s.reported.conserved, htaken]
        simp only [BenchPc.reportedTaken]
        omega
      obtain ⟨i, hi⟩ := exists_eq_zero (fun i => (h.threads i).once.2.2.2) hsum
      have hrank := (h.threads i).reported
      rw [hi] at hrank
      refine ⟨some i, ?_⟩
      rw [Helps, hbench]
      exact Pc.toReported_pos (hcreated i (by rw [hbench]; rfl)) (by split at hrank <;> omega)

/-- A thread's step: it comes closer, or it is not waited for. -/
theorem ranked_client {x : ℕ ×ₗ ℕ} (h : Ranked x s) (hstep : client s i = some u) (hinv : Inv u) :
    (∃ y < x, Ranked y u) ∨
      Ranked x u ∧ ∀ a, Helps s a → Helps u a ∧ ¬ Party a (.client i) := by
  obtain ⟨hs, rfl⟩ := h
  obtain ⟨t, -, hmoved⟩ := client_cases hstep
  have hcloser := distance_client hs hstep
  have hself : u.threads i = t := by rw [hmoved.threads, Function.update_self]
  rw [hself] at hcloser
  have hsum := total_update (g := fun t : Thread => s.bench.distance t.pc) (f := s.threads) (i := i)
    (x := t)
  rw [← hmoved.threads] at hsum
  have hdistance : u.distance = total (fun t : Thread => s.bench.distance t.pc) u.threads := by
    rw [State.distance, hmoved.bench]
  by_cases hpos : 0 < s.bench.distance (s.threads i).pc
  · left
    refine ⟨_, ?_, hinv, rfl⟩
    rw [hmoved.bench, hdistance, Prod.Lex.toLex_lt_toLex]
    refine Or.inr ⟨rfl, ?_⟩
    show total (fun t : Thread => s.bench.distance t.pc) u.threads < s.distance
    rw [State.distance]
    omega
  · right
    refine ⟨⟨hinv, ?_⟩, fun a ha => ?_⟩
    · have hsame : s.distance = u.distance := by
        rw [hdistance]
        show total _ s.threads = _
        omega
      rw [hmoved.bench, hsame]
    · cases a with
      | none => exact ⟨ready_client hstep ha, fun h => by cases h⟩
      | some j =>
        have hne : j ≠ i := fun heq => hpos (heq ▸ ha)
        refine ⟨?_, fun heq => hne (Label.client.inj heq).symm⟩
        rw [Helps, hmoved.bench, hmoved.threads, Function.update_of_ne hne]
        exact ha

/-- Outside of the end, the rank goes down or who helps goes on to do so. -/
theorem ranking : Machine.Ranking (machine N) (fun _ _ => True) (fun s => s.exit ≠ none) Party Ranked
    (fun _ => Helps) where
  helps := fun x s h _ => h.1.helps
  enabled := by
    intro x s a h hexit ha
    have hnone : ¬ s.exit.isSome := by simpa using hexit
    cases a with
    | none =>
      obtain ⟨u, hu⟩ := bench_enabled ha
      exact ⟨.bench, u, rfl, by simp only [machine, step, if_neg hnone, hu]⟩
    | some i =>
      have hcreated : (s.threads i).pc ≠ .notCreated := by
        intro hpc
        have hpos : 0 < s.bench.distance (s.threads i).pc := ha
        rw [hpc, distance_notCreated] at hpos
        exact absurd hpos (Nat.lt_irrefl 0)
      obtain ⟨u, hu⟩ := client_enabled hcreated
      exact ⟨.client i, u, rfl, by simp only [machine, step, if_neg hnone, hu]⟩
  step := by
    intro x s l u h _ _ hstep
    have hinv : Inv u := inv_step h.1 hstep
    obtain ⟨-, hmove⟩ := Option.ite_none_left_eq_some.mp hstep
    cases l with
    | client i => exact Or.inr (ranked_client h hmove hinv)
    | bench =>
      rcases left_bench h.1 hmove with hexit | hlt
      · exact Or.inl hexit
      · obtain ⟨-, rfl⟩ := h
        exact Or.inr (Or.inl ⟨_, Prod.Lex.toLex_lt_toLex.mpr (Or.inl hlt), hinv, rfl⟩)
    | tick d =>
      cases hmove
      refine Or.inr (Or.inr ⟨⟨hinv, h.2⟩, fun a ha => ⟨?_, ?_⟩⟩)
      · cases a with
        | none => exact ha
        | some j => exact ha
      · cases a with
        | none => exact fun h => by cases h
        | some j => exact fun h => by cases h
    | fail =>
      cases hmove
      exact Or.inl (Option.some_ne_none _)

-- ---------------------------------------------------------------------------
-- The result
-- ---------------------------------------------------------------------------

/-- The rounds so far have added the first counters. -/
def Counted (s : State N) : Prop :=
  ∀ k numOps throughput, s.bench = .aggregate k numOps throughput →
    numOps = wrapSum ((List.ofFn fun i => (s.threads i).args.numOps).take k)

theorem counted_step : (machine N).Preserves fun s => Inv s ∧ Counted s := by
  refine inv_step.and fun s l u h _ hs hstep => ?_
  have hsame : s.bench.aggregating = true →
      ∀ i, (u.threads i).args.numOps = (s.threads i).args.numOps :=
    fun hagg i => by rw [(args_step h hagg hstep i).1]
  obtain ⟨-, hmove⟩ := Option.ite_none_left_eq_some.mp hstep
  intro j numOps throughput hu
  cases l with
  | client i =>
    obtain ⟨t, -, hmoved⟩ := client_cases hmove
    rw [hmoved.bench] at hu
    simp only [hsame (by rw [hu]; rfl)]
    exact hs j numOps throughput hu
  | bench =>
    cases bench_cases hmove with
    | create | waitStarted | postMeasure | postReport | waitReported => cases hu
    | next hover hnext =>
      cases hbench : s.bench with
      | waitReported =>
        rw [hbench] at hnext
        cases hnext
        cases hu
        rfl
      | create | waitStarted | postMeasure | postReport | aggregate =>
        rw [hbench] at hnext
        cases hnext <;> cases hu
    | add hk hbench =>
      cases hu
      rw [hs _ _ _ hbench]
      exact (wrapSum_take_succ hk).symm
    | divide | print => exact hs j numOps throughput hu
  | tick | fail =>
    cases hmove
    exact hs j numOps throughput hu

theorem wrapSum_ofNat (vs : List Nat) : wrapSum (vs.map UInt64.ofNat) = UInt64.ofNat vs.sum := by
  induction vs using List.reverseRecOn with
  | nil => rfl
  | append_singleton vs v ih =>
    rw [List.map_append, List.map_singleton, wrapSum_append, ih, List.sum_append,
      List.sum_singleton, UInt64.ofNat_add]

theorem total_between (h : Inv s) (hagg : s.bench.aggregating = true) :
    wrapSum (List.ofFn fun i => (s.threads i).args.numOps) =
      UInt64.ofNat (total Thread.between s.threads) := by
  have hmap : (List.ofFn fun i => (s.threads i).args.numOps) =
      (List.ofFn fun i => (s.threads i).between).map UInt64.ofNat := by
    rw [List.map_ofFn]
    exact congrArg List.ofFn (funext fun i => (h.final hagg i).numOps)
  rw [hmap, wrapSum_ofNat, List.sum_ofFn]
  rfl

/-- No call fails, and the clock has moved where it is read for the second time. -/
def Smooth (s : State N) (l : Label N) : Prop := l ≠ .fail ∧ ClockMoved s l

instance (s : State N) (l : Label N) : Decidable (Smooth s l) :=
  inferInstanceAs (Decidable (l ≠ .fail ∧ ClockMoved s l))

/-- How the process ends, if it ends: it prints how many operations the threads made between
their tokens, and the sum of their throughputs. -/
def Printed (s : State N) : Prop :=
  ∀ e, s.exit = some e → e = .finished (UInt64.ofNat (total Thread.between s.threads))
    (wrapSum s.throughputs)

/-- What holds all along a run in which no call fails and the clock moves. -/
structure Going (s : State N) : Prop where
  inv : Inv s
  timed : Timed s
  positive : Positive s
  summed : Summed s
  counted : Counted s
  printed : Printed s

theorem going_initial (N clock : Nat) (stack : Timespec) : Going (initial N clock stack) where
  inv := inv_initial N clock stack
  timed := timed_initial N clock stack
  positive := fun _ h => absurd h (Nat.not_succ_le_zero 7)
  summed := fun _ _ _ h => by cases h
  counted := fun _ _ _ h => by cases h
  printed := fun _ h => by cases h

theorem Going.step {l : Label N} (h : Going s) (hl : Smooth s l)
    (hstep : (machine N).step s l = some u) : Going u := by
  refine ⟨inv_step h.inv hstep, (timed_step ⟨h.inv, h.timed⟩ hstep).2,
    (positive_step h.inv h.timed hstep).mpr ⟨h.positive, hl.2⟩,
    (summed_step ⟨h.inv, h.summed⟩ hstep).2, (counted_step ⟨h.inv, h.counted⟩ hstep).2, ?_⟩
  obtain ⟨hnone, hmove⟩ := Option.ite_none_left_eq_some.mp hstep
  have hnone : s.exit = none := by simpa using hnone
  -- before the step the process goes on
  have hgoes : u.exit = s.exit → Printed u := fun hsame e he => by
    rw [hsame, hnone] at he
    cases he
  cases l with
  | client i => exact hgoes (client_exit hmove)
  | bench =>
    cases bench_cases hmove with
    | create | waitStarted | postMeasure | postReport | waitReported | next | add => exact hgoes rfl
    | divide hk hbench hzero =>
      -- its thread has stored its runtime, which is not zero
      have hpc := h.inv.runForever (by rw [hbench]; rfl) ⟨_, hk⟩
      refine absurd hzero ?_
      rw [(h.timed ⟨_, hk⟩).runtime (by rw [hpc]; decide)]
      exact h.positive ⟨_, hk⟩ (by rw [hpc]; decide)
    | print hbench hover =>
      intro e he
      cases he
      have hagg : s.bench.aggregating = true := by rw [hbench]; rfl
      have hnum := h.counted _ _ _ hbench
      have hthroughput := h.summed _ _ _ hbench
      rw [State.throughputs] at hthroughput
      rw [List.take_of_length_le (List.length_ofFn.le.trans hover)] at hnum hthroughput
      rw [hnum, hthroughput, total_between h.inv hagg]
      rfl
  | tick d =>
    cases hmove
    exact hgoes rfl
  | fail => exact absurd rfl hl.1

/-- The thread is in `one_operation`, where it waits for the server's reply; before the first
it has waited for the announcement. -/
def State.Operating (s : State N) (i : Fin N) : Prop :=
  match (s.threads i).pc with
  | .firstOperation | .warmUp | .operate | .runForever => True
  | _ => False

/-- `bench` is between two of its phases, in `nanosleep` or waiting for a flag. -/
def State.Delayed (s : State N) : Prop :=
  match s.bench with
  | .waitStarted k | .postMeasure k => N ≤ k
  | _ => False

end EchoServer.Bench
