import EchoServer.Lib.Justice
import EchoServer.Multiclient.Independence
import Mathlib.Algebra.Group.Action.Defs
import Mathlib.Algebra.Order.BigOperators.Group.Finset

/-!
# driver.py, multiclient.c — every distributed benchmark ends

The driver and the processes wait for each other with counters and flags that nobody ever
resets. A process that has a place and is killed before it has counted itself as reported
is therefore waited for for ever, and nothing else is.

The benchmark starts on a store that was empty before the driver wrote its parameters. What
is assumed of a run:

* as many processes as there are places try to get one, and are not killed before they have
  come to know whether they do; the driver is not stopped;
* the scheduler, and Redis, leave out neither the driver nor a process that can go on
  (`JustUnless`): a command that is sent is answered;
* the threads of a process come to what their process waits for (`Answers`,
  `Client.AwaitsThreads`): to their first reply, and to their reports. That they do when
  the server answers every operation is `bench_ends`.

Main results:

* `Healthy.bench`, `Healthy.main` — a command either goes on to the next one, or finds that
  it has to wait, or is refused because all places are taken;
* `Healthy.helps` — the driver never waits for something that nobody is about to do;
* `prints_iff` — the driver prints if and only if no process with a place is killed before
  it has reported.
-/

namespace EchoServer.Multiclient

open EchoServer.Lib

variable {κ : Type} {n : Nat} {A : Finset κ} {s t : State κ} {c : κ} {x : Client} {r : Store Key}

-- ---------------------------------------------------------------------------
-- Who can go on
-- ---------------------------------------------------------------------------

/-- All places are taken. -/
def Full (n : Nat) (s : State κ) : Prop :=
  ∃ m, Tally (Client.Past .tryClaimSpot) s.clients m ∧ n ≤ m

/-- What a process that has not been stopped needs in order to go on to its next call; those
in `A` are the ones that try to get a place for as long as there is one. -/
def Moves (n : Nat) (A : Finset κ) (s : State κ) (c : κ) : Prop :=
  match (s.clients c).pc with
  | .tryClaimSpot => c ∈ A ∧ ¬ Full n s
  | .shouldMeasure => s.driver.Past .measure
  | .shouldReport => s.driver.Past .report
  | .exited => False
  | _ => True

/-- What the driver needs in order to go on. -/
def DriverMoves (n : Nat) (s : State κ) : Prop :=
  match s.driver.pc with
  | .started => ∃ m, Tally (Client.Past .started) s.clients m ∧ n ≤ m
  | .reported => ∃ m, Tally (Client.Past .reported) s.clients m ∧ n ≤ m
  | .printed _ => False
  | _ => True

/-- Nobody who is waited for has been stopped, and the store holds what the commands expect. -/
structure Healthy (n : Nat) (A : Finset κ) (s : State κ) : Prop where
  inv : Inv n s
  driver : s.driver.stopped = false
  stopped : ∀ c, (s.clients c).stopped = true →
    (s.clients c).Past .reported ∨ (s.clients c).pc = .tryClaimSpot ∧ (c ∈ A → Full n s)
  params : ∀ k, k = .numthreads ∨ k = .address ∨ k = .port → ∃ t, s.store k = some (.string t)
  results : s.store .results ≠ some .other

theorem healthy_initial (A : Finset κ) (params : BenchmarkParams) :
    Healthy params.numClients A (initial κ (fun _ => none) params) where
  inv := inv_initial params
  driver := rfl
  stopped := fun c h => by cases h
  params := by
    rintro k (rfl | rfl | rfl)
    · exact ⟨_, rfl⟩
    · exact ⟨_, rfl⟩
    · exact ⟨_, rfl⟩
  results := nofun

/-- The places that are left, while not all are taken. -/
theorem Inv.not_full (h : Inv n s) (hnot : ¬ Full n s) :
    ∃ z : Int, 0 < z ∧ z ≤ n ∧ s.store .numclients = some (.text (decimal z)) := by
  obtain ⟨z, m, hz, htally, hsum, -⟩ := h.places
  have hlt : m < n := Nat.lt_of_not_le fun hle => hnot ⟨m, htally, hle⟩
  exact ⟨z, by omega, by omega, hz⟩

-- ---------------------------------------------------------------------------
-- A process
-- ---------------------------------------------------------------------------

/-- No command of a process touches the parameters, or leaves something other than a text in
`results`. -/
theorem Did.keys {y : Client} {r' : Store Key} (h : Did r y x r') :
    (∀ k, k = .numthreads ∨ k = .address ∨ k = .port → r' k = r k) ∧
      (r .results ≠ some .other → r' .results ≠ some .other) := by
  have hincr : ∀ (key : Key) (d : Int), key ≠ .results →
      (∀ k, k = .numthreads ∨ k = .address ∨ k = .port → key ≠ k) →
      (∀ k, k = .numthreads ∨ k = .address ∨ k = .port → (r.incrBy key d).2 k = r k) ∧
        (r .results ≠ some .other → (r.incrBy key d).2 .results ≠ some .other) := by
    intro key d hres hkey
    refine ⟨fun k hk => Store.incrBy_of_ne d (hkey k hk).symm, fun h => ?_⟩
    rwa [Store.incrBy_of_ne d hres.symm]
  have hother : ∀ key : Key, key = .numclients ∨ key = .started ∨ key = .reported →
      key ≠ .results ∧ ∀ k, k = .numthreads ∨ k = .address ∨ k = .port → key ≠ k := by
    rintro key (rfl | rfl | rfl)
    · exact ⟨by decide, by rintro k (rfl | rfl | rfl) <;> decide⟩
    · exact ⟨by decide, by rintro k (rfl | rfl | rfl) <;> decide⟩
    · exact ⟨by decide, by rintro k (rfl | rfl | rfl) <;> decide⟩
  cases h with
  | idle | loaded | measuring | reporting | aggregated => exact ⟨fun _ _ => rfl, id⟩
  | refused =>
    obtain ⟨hres, hkey⟩ := hother .numclients (Or.inl rfl)
    exact hincr _ _ hres hkey
  | claimed z r' hpc hdecr =>
    obtain ⟨hres, hkey⟩ := hother .numclients (Or.inl rfl)
    have hstore : (r.decr .numclients).2 = r' := by rw [hdecr]
    rw [← hstore]
    exact hincr _ _ hres hkey
  | started =>
    obtain ⟨hres, hkey⟩ := hother .started (Or.inr (Or.inl rfl))
    exact hincr _ _ hres hkey
  | reported =>
    obtain ⟨hres, hkey⟩ := hother .reported (Or.inr (Or.inr rfl))
    exact hincr _ _ hres hkey
  | put =>
    refine ⟨fun k hk => Store.set_of_ne _ ?_, fun _ => ?_⟩
    · rcases hk with rfl | rfl | rfl <;> decide
    · rw [Store.set_self]
      nofun

theorem Flag.wait {k : Key} {p : DriverPc} (h : Flag k p s) :
    dflagWait s.store k = some (decide (s.driver.Past p)) := by
  unfold Flag at h
  by_cases hp : s.driver.Past p
  · rw [if_pos hp] at h
    simp only [dflagWait, Store.get, h, hp, decide_true]
    decide
  · rw [if_neg hp] at h
    simp only [dflagWait, Store.get, h, hp, decide_false]
    decide

/-- What a command of a process comes to. -/
theorem Healthy.bench (h : Healthy n A s) (hsmall : 21 * n ≤ Store.maxLength)
    (hstep : (s.clients c).bench s.store = some (x, r)) :
    (x = s.clients c ∧ r = s.store ∧ ¬ Moves n A s c) ∨
      ((s.clients c).pc = .tryClaimSpot ∧ x = (s.clients c).stop ∧ Full n s) ∨
      (x.pc.rank = (s.clients c).pc.rank + 1 ∧ x.stopped = (s.clients c).stopped) := by
  cases hpc : (s.clients c).pc with
  | tryClaimSpot =>
    simp only [Client.bench, hpc] at hstep
    cases hstep
    by_cases hfull : Full n s
    · rcases tryClaimSpot_cases s.store with ⟨z, r₁, hdecr, htry⟩ | ⟨hno, htry⟩
      · rw [htry]
        by_cases hz : 0 ≤ z
        · rw [decide_eq_true hz]
          exact Or.inr (Or.inr ⟨rfl, rfl⟩)
        · rw [decide_eq_false hz]
          exact Or.inr (Or.inl ⟨rfl, rfl, hfull⟩)
      · rw [htry]
        exact Or.inr (Or.inl ⟨rfl, rfl, hfull⟩)
    · obtain ⟨z, hpos, hle, hz⟩ := h.inv.not_full hfull
      have hlt : z < 2 ^ 63 := by
        have hmax : Store.maxLength = 536870912 := rfl
        omega
      have hdecr : s.store.decr .numclients = _ :=
        Store.incrBy_counter (d := -1) hz ⟨by omega, hlt⟩ ⟨by omega, by omega⟩
      have htry : tryClaimSpot s.store = (true, s.store.set .numclients (utf8 (decimal (z + -1)))) := by
        unfold tryClaimSpot
        rw [hdecr]
        simp only [decide_eq_true (show (0 : Int) ≤ z + -1 by omega)]
      rw [htry]
      exact Or.inr (Or.inr ⟨rfl, rfl⟩)
  | loadBenchParams =>
    simp only [Client.bench, hpc] at hstep
    obtain ⟨numthreads, h₁⟩ := h.params .numthreads (Or.inl rfl)
    obtain ⟨address, h₂⟩ := h.params .address (Or.inr (Or.inl rfl))
    obtain ⟨port, h₃⟩ := h.params .port (Or.inr (Or.inr rfl))
    have hload : Multiclient.loadBenchParams s.store = some ⟨atoi (chars numthreads), address, port⟩ := by
      simp only [Multiclient.loadBenchParams, Store.mget, List.map_cons, List.map_nil, h₁, h₂, h₃]
    simp only [hload, Option.some.injEq] at hstep
    cases hstep
    exact Or.inr (Or.inr ⟨rfl, rfl⟩)
  | started =>
    simp only [Client.bench, hpc] at hstep
    cases hstep
    exact Or.inr (Or.inr ⟨rfl, rfl⟩)
  | shouldMeasure =>
    simp only [Client.bench, hpc, h.inv.shouldMeasure.wait] at hstep
    cases hstep
    by_cases hpast : s.driver.Past .measure
    · rw [decide_eq_true hpast]
      exact Or.inr (Or.inr ⟨rfl, rfl⟩)
    · rw [decide_eq_false hpast]
      exact Or.inl ⟨rfl, rfl, by rwa [Moves, hpc]⟩
  | shouldReport =>
    simp only [Client.bench, hpc, h.inv.shouldReport.wait] at hstep
    cases hstep
    by_cases hpast : s.driver.Past .report
    · rw [decide_eq_true hpast]
      exact Or.inr (Or.inr ⟨rfl, rfl⟩)
    · rw [decide_eq_false hpast]
      exact Or.inl ⟨rfl, rfl, by rwa [Moves, hpc]⟩
  | putReport =>
    simp only [Client.bench, hpc] at hstep
    have hroom := h.inv.length_results_le hpc
    have hfits := length_report_le (s.clients c).throughput
    rcases putReport_cases s.store (s.clients c).throughput with ⟨t, happend, hput⟩ | ⟨hnone, -⟩
    · simp only [hput, if_true, Option.some.injEq] at hstep
      cases hstep
      exact Or.inr (Or.inr ⟨rfl, rfl⟩)
    · unfold Store.appended at hnone
      unfold Store.bytes at hroom
      cases hv : s.store .results with
      | none => simp [hv] at hnone
      | some v =>
        cases v with
        | string t =>
          rw [hv] at hroom hnone
          simp only [ite_eq_right_iff, reduceCtorEq, imp_false] at hnone hroom
          omega
        | other => exact absurd hv h.results
  | reported =>
    simp only [Client.bench, hpc] at hstep
    cases hstep
    exact Or.inr (Or.inr ⟨rfl, rfl⟩)
  | aggregating | exited =>
    simp only [Client.bench, hpc] at hstep
    cases hstep

-- ---------------------------------------------------------------------------
-- The driver
-- ---------------------------------------------------------------------------

/-- No more than the places. -/
theorem Inv.tally_le {p : Pc} {m : Nat} (h : Inv n s) (hm : Tally (Client.Past p) s.clients m) :
    m ≤ n := by
  obtain ⟨_, m', -, hm', hsum, -⟩ := h.places
  have hle := hm.le (fun c hc => Nat.lt_of_le_of_lt (Nat.zero_le _) hc) hm'
  omega

theorem Inv.dcounterWait {k : Key} {p : Pc} (hinv : Inv n s) (hsmall : 21 * n ≤ Store.maxLength)
    (h : Counter k p s) :
    ∃ m, Tally (Client.Past p) s.clients m ∧
      Multiclient.dcounterWait s.store k n = some (decide (n ≤ m)) := by
  obtain ⟨m, hm, htally⟩ := h
  have hle := hinv.tally_le htally
  have hprint : Printable m := printable_of_long (by rw [Store.maxLength] at hsmall; omega)
  refine ⟨m, htally, ?_⟩
  rw [dcounterWait_eq hm, pyInt_decimal, if_pos hprint, Option.map_some]
  simp only [Int.ofNat_le]

theorem abs_sum_le {zs : List Int} (h : ∀ z ∈ zs, z.natAbs ≤ 2 ^ 63) :
    zs.sum.natAbs ≤ zs.length * 2 ^ 63 := by
  induction zs with
  | nil => exact Nat.zero_le _
  | cons z zs ih =>
    have hz := h z List.mem_cons_self
    have hzs := ih fun x hx => h x (List.mem_cons_of_mem z hx)
    rw [List.sum_cons, List.length_cons, Nat.add_mul, Nat.one_mul]
    exact (Int.natAbs_add_le _ _).trans (by omega)

/-- The results that the driver reads when all have reported. -/
theorem Inv.getThroughput [DecidableEq κ] (h : Inv n s) (hn : 1 ≤ n)
    (hsmall : 21 * n ≤ Store.maxLength) (hother : s.store .results ≠ some .other)
    (hd : s.driver.Past .reported) : ∃ z, getThroughput s.store = some z ∧ Printable z := by
  obtain ⟨ws, hnodup, hws, htext⟩ := h.results
  have hlen : ws.length ≤ n :=
    h.tally_le (p := .putReport) ⟨ws.toFinset, fun c => by rw [List.mem_toFinset, hws],
      List.toFinset_card_of_nodup hnodup⟩
  obtain ⟨c, hc⟩ : ∃ c, c ∈ ws := by
    obtain ⟨m, hm, hle⟩ := h.collected hd
    obtain ⟨c, hc⟩ := hm.exists_of_pos (by omega)
    exact ⟨c, (hws c).mpr (Nat.lt_trans (by decide) hc)⟩
  rw [getThroughput_eq]
  unfold Store.bytes at htext
  cases hv : s.store .results with
  | none =>
    rw [hv] at htext
    have hnil := List.flatMap_eq_nil_iff.mp htext.symm c hc
    have hlen := length_report (s.clients c).throughput
    rw [hnil, List.length_nil] at hlen
    omega
  | some v =>
    cases v with
    | string t =>
      simp only [hv, flatMap_report] at htext
      refine ⟨_, by rw [throughputIn, htext, sumBytes_flatMap (printable_reports _ _)], ?_⟩
      have hbound : ∀ z ∈ ws.map fun c => (s.clients c).throughput.toBitVec.toInt,
          z.natAbs ≤ 2 ^ 63 := by
        intro z hz
        obtain ⟨c, -, rfl⟩ := List.mem_map.mp hz
        have hlo := BitVec.le_toInt (s.clients c).throughput.toBitVec
        have hhi := BitVec.toInt_lt (x := (s.clients c).throughput.toBitVec)
        omega
      have habs := abs_sum_le hbound
      rw [List.length_map] at habs
      have hmax : Store.maxLength = 536870912 := rfl
      exact printable_of_lt (k := 28) (by decide) (by decide) (by omega)
    | other => exact absurd hv hother

/-- What a command of the driver comes to. -/
theorem Healthy.main [DecidableEq κ] (h : Healthy n A s) (hn : 1 ≤ n)
    (hsmall : 21 * n ≤ Store.maxLength) {d : Driver}
    (hstep : s.driver.main n s.store = some (d, r)) :
    (d = s.driver ∧ r = s.store ∧ ¬ DriverMoves n s) ∨
      (d.pc.rank = s.driver.pc.rank + 1 ∧ d.stopped = s.driver.stopped ∧
        ∀ k, k ≠ .shouldMeasure → k ≠ .shouldReport → r k = s.store k) := by
  cases hpc : s.driver.pc with
  | started =>
    obtain ⟨m, htally, hwait⟩ := h.inv.dcounterWait hsmall h.inv.started
    simp only [Driver.main, hpc, hwait] at hstep
    cases hstep
    by_cases hle : n ≤ m
    · rw [decide_eq_true hle]
      exact Or.inr ⟨rfl, rfl, fun _ _ _ => rfl⟩
    · rw [decide_eq_false hle]
      refine Or.inl ⟨rfl, rfl, ?_⟩
      rw [DriverMoves, hpc]
      rintro ⟨m', htally', hle'⟩
      exact hle (htally'.unique htally ▸ hle')
  | measure =>
    simp only [Driver.main, hpc] at hstep
    cases hstep
    exact Or.inr ⟨rfl, rfl, fun k hk _ => Store.set_of_ne _ hk⟩
  | report =>
    simp only [Driver.main, hpc] at hstep
    cases hstep
    exact Or.inr ⟨rfl, rfl, fun k _ hk => Store.set_of_ne _ hk⟩
  | reported =>
    obtain ⟨m, htally, hwait⟩ := h.inv.dcounterWait hsmall h.inv.reported
    simp only [Driver.main, hpc, hwait] at hstep
    cases hstep
    by_cases hle : n ≤ m
    · rw [decide_eq_true hle]
      exact Or.inr ⟨rfl, rfl, fun _ _ _ => rfl⟩
    · rw [decide_eq_false hle]
      refine Or.inl ⟨rfl, rfl, ?_⟩
      rw [DriverMoves, hpc]
      rintro ⟨m', htally', hle'⟩
      exact hle (htally'.unique htally ▸ hle')
  | throughput =>
    obtain ⟨z, hz, hprint⟩ :=
      h.inv.getThroughput hn hsmall h.results ((DriverPc.past_iff hpc).mpr (by decide))
    simp only [Driver.main, hpc, hz, if_pos hprint, Option.some.injEq] at hstep
    cases hstep
    exact Or.inr ⟨rfl, rfl, fun _ _ _ => rfl⟩
  | printed z =>
    simp only [Driver.main, hpc] at hstep
    cases hstep

-- ---------------------------------------------------------------------------
-- Every step keeps them going
-- ---------------------------------------------------------------------------

/-- Who may be killed: a process without a place, but one of `A` only when it has been
refused, and a process that has reported. -/
def Spared (A : Finset κ) (s : State κ) : Label κ → Prop
  | .stop c => ((s.clients c).Past .tryClaimSpot → (s.clients c).Past .reported) ∧
      (c ∈ A → (s.clients c).Past .tryClaimSpot ∨ (s.clients c).stopped = true)
  | .stopDriver => False
  | _ => True

theorem Full.mono (h : Full n s) (ht : Inv n t)
    (hmono : ∀ c, (s.clients c).Past .tryClaimSpot → (t.clients c).Past .tryClaimSpot) : Full n t := by
  obtain ⟨m, hm, hle⟩ := h
  obtain ⟨_, m', -, hm', -, -⟩ := ht.places
  exact ⟨m', hm', hle.trans (hm.le hmono hm')⟩

theorem Client.tryClaimSpot_of_not_past {y : Client} (h : ¬ y.Past .tryClaimSpot) :
    y.pc = .tryClaimSpot :=
  Pc.rank_injective _ _ (Nat.eq_zero_of_not_pos h)

section
variable [DecidableEq κ]

/-- A process that moves, to the state `x`, while the store comes to be `r`. -/
theorem Healthy.setClient (h : Healthy n A s) (hinv : Inv n (s.setClient c x r))
    (hdid : Did s.store (s.clients c) x r)
    (hpast : (s.clients c).Past .tryClaimSpot → x.Past .tryClaimSpot)
    (hx : x.stopped = true → x.Past .reported ∨
      x.pc = .tryClaimSpot ∧ (c ∈ A → Full n (s.setClient c x r))) :
    Healthy n A (s.setClient c x r) := by
  obtain ⟨hparams, hresults⟩ := hdid.keys
  have hmono : ∀ d, (s.clients d).Past .tryClaimSpot →
      (Function.update s.clients c x d).Past .tryClaimSpot := by
    intro d hd
    by_cases hdc : d = c
    · subst hdc
      rw [Function.update_self]
      exact hpast hd
    · rwa [Function.update_of_ne hdc]
  refine ⟨hinv, h.driver, fun d hd => ?_, fun k hk => ?_, hresults h.results⟩
  · by_cases hdc : d = c
    · subst hdc
      rw [State.setClient_clients] at hd ⊢
      exact hx hd
    · have hsame : (s.setClient c x r).clients d = s.clients d := Function.update_of_ne hdc ..
      rw [hsame] at hd ⊢
      exact (h.stopped d hd).imp_right fun hfull => ⟨hfull.1, fun hA => (hfull.2 hA).mono hinv hmono⟩
  · obtain ⟨t, ht⟩ := h.params k hk
    exact ⟨t, (hparams k hk).trans ht⟩

/-- Who is stopped stays where it is. -/
theorem past_stop (d : κ) : ((s.setClient c (s.clients c).stop r).clients d).Past .tryClaimSpot ↔
    (s.clients d).Past .tryClaimSpot := by
  have hx : (s.clients c).stop.Past .tryClaimSpot ↔ (s.clients c).Past .tryClaimSpot := Iff.rfl
  exact update_iff hx d

theorem Client.past_mono {y : Client} (h : x.pc.rank = y.pc.rank + 1) {p : Pc} (hy : y.Past p) :
    x.Past p :=
  (Client.past_next h).mpr (Or.inl hy)

theorem healthy_step {l : Label κ} (hn : 1 ≤ n) (hsmall : 21 * n ≤ Store.maxLength)
    (h : Healthy n A s) (hl : Spared A s l) (hstep : (machine κ n).step s l = some t) :
    Healthy n A t := by
  have hinv : Inv n t := inv_step h.inv hstep
  cases l with
  | client c =>
    obtain ⟨hrunning, hstep⟩ := Option.ite_none_left_eq_some.mp hstep
    obtain ⟨⟨x, r⟩, hbench, rfl⟩ := Option.map_eq_some_iff.mp hstep
    have hdid := did_of_bench hbench
    rcases h.bench hsmall hbench with ⟨rfl, rfl, -⟩ | ⟨hpc, rfl, hfull⟩ | ⟨hrank, hstop⟩
    · exact h.setClient hinv hdid id fun hstop => absurd hstop hrunning
    · refine h.setClient hinv hdid id fun _ => Or.inr ⟨hpc, fun _ => hfull.mono hinv fun d hd => ?_⟩
      exact (past_stop d).mpr hd
    · refine h.setClient hinv hdid (Client.past_mono hrank) fun hx => absurd ?_ hrunning
      rw [← hstop, hx]
  | aggregate c v =>
    obtain ⟨⟨hrunning, hpc⟩, heq⟩ := Option.ite_none_right_eq_some.mp hstep
    cases heq
    refine h.setClient hinv (.aggregated v hpc) (fun _ => (Client.past_iff (q := .putReport) rfl).mpr (by decide))
      fun hx => ?_
    have hx : (s.clients c).stopped = true := hx
    rw [hrunning] at hx
    cases hx
  | stop c =>
    cases hstep
    refine h.setClient hinv (.idle _ rfl rfl) id fun _ => ?_
    by_cases hpast : (s.clients c).Past .tryClaimSpot
    · exact Or.inl (hl.1 hpast)
    · refine Or.inr ⟨Client.tryClaimSpot_of_not_past hpast, fun hA => ?_⟩
      have hfull : Full n s := by
        rcases h.stopped c ((hl.2 hA).resolve_left hpast) with hreported | ⟨-, hfull⟩
        · exact absurd (Nat.lt_of_le_of_lt (Nat.zero_le _) hreported) hpast
        · exact hfull hA
      exact hfull.mono hinv fun d hd => (past_stop d).mpr hd
  | driver =>
    obtain ⟨hrunning, hstep⟩ := Option.ite_none_left_eq_some.mp hstep
    obtain ⟨⟨d, r⟩, hmain, rfl⟩ := Option.map_eq_some_iff.mp hstep
    rcases h.main hn hsmall hmain with ⟨rfl, rfl, -⟩ | ⟨-, hstop, hkeep⟩
    · exact h
    · refine ⟨hinv, hstop.trans h.driver, h.stopped, fun k hk => ?_, ?_⟩
      · show ∃ t, r k = some (.string t)
        rw [hkeep k (by rcases hk with rfl | rfl | rfl <;> decide)
          (by rcases hk with rfl | rfl | rfl <;> decide)]
        exact h.params k hk
      · show r .results ≠ some .other
        rw [hkeep .results (by decide) (by decide)]
        exact h.results
  | stopDriver => exact absurd hl id

end

-- ---------------------------------------------------------------------------
-- Who is about to do what is waited for
-- ---------------------------------------------------------------------------

/-- The driver, if it need not wait, or a process that need not. -/
def Helps (n : Nat) (A : Finset κ) (s : State κ) : Option κ → Prop
  | none => DriverMoves n s
  | some c => (s.clients c).stopped = false ∧ Moves n A s c

/-- The commands of the driver, and what one process does. -/
def Party : Option κ → Label κ → Prop
  | none, l => l = .driver
  | some c, l => l = .client c ∨ ∃ v, l = .aggregate c v

/-- Who has a place and has not reported has not been killed. -/
theorem Healthy.running (h : Healthy n A s) (hc : (s.clients c).Past .tryClaimSpot)
    (hnot : ¬ (s.clients c).Past .reported) : (s.clients c).stopped = false := by
  cases hstop : (s.clients c).stopped with
  | false => rfl
  | true =>
    rcases h.stopped c hstop with hreported | ⟨hpc, -⟩
    · exact absurd hreported hnot
    · exact absurd ((Client.past_iff hpc).mp hc) (by decide)

/-- There is always somebody who need not wait, until the driver has printed. -/
theorem Healthy.helps (h : Healthy n A s) (hA : A.card = n) (hprinted : ∀ z, s.driver.pc ≠ .printed z) :
    ∃ a, Helps n A s a := by
  by_cases hmoves : DriverMoves n s
  · exact ⟨none, hmoves⟩
  · obtain ⟨_, k, -, hk, hsum, -⟩ := id h.inv.places
    have hnot := hmoves
    unfold DriverMoves at hnot
    cases hpc : s.driver.pc with
    | measure | report | throughput =>
      rw [hpc] at hnot
      exact absurd trivial hnot
    | printed z => exact absurd hpc (hprinted z)
    | started =>
      rw [hpc] at hnot
      obtain ⟨m, -, hm⟩ := h.inv.started
      have hlt : m < n := Nat.lt_of_not_le fun hle => hnot ⟨m, hm, hle⟩
      by_cases hfull : n ≤ k
      · -- somebody has a place and has not counted itself as started
        obtain ⟨c, hc, hstarted⟩ := hm.exists_of_lt hk (by omega)
        refine ⟨some c, h.running hc fun hr => hstarted (Nat.lt_trans (by decide) hr), ?_⟩
        unfold Moves
        cases hcpc : (s.clients c).pc with
        | tryClaimSpot => exact absurd ((Client.past_iff hcpc).mp hc) (by decide)
        | loadBenchParams | started | aggregating | putReport | reported => trivial
        | shouldMeasure | shouldReport | exited =>
          exact absurd ((Client.past_iff hcpc).mpr (by decide)) hstarted
      · -- a place is left for somebody in `A`
        obtain ⟨C, hC, rfl⟩ := hk
        have hnotFull : ¬ Full n s := by
          rintro ⟨m', hm', hle⟩
          exact hfull (hm'.unique ⟨C, hC, rfl⟩ ▸ hle)
        obtain ⟨c, hcA, hcC⟩ := Finset.exists_mem_notMem_of_card_lt_card (s := C) (t := A) (by omega)
        have hcpc := Client.tryClaimSpot_of_not_past fun hpast => hcC ((hC c).mpr hpast)
        refine ⟨some c, ?_, ?_⟩
        · cases hstop : (s.clients c).stopped with
          | false => rfl
          | true =>
            rcases h.stopped c hstop with hreported | ⟨-, hfull'⟩
            · exact absurd ((Client.past_iff hcpc).mp hreported) (by decide)
            · exact absurd (hfull' hcA) hnotFull
        · rw [Moves, hcpc]
          exact ⟨hcA, hnotFull⟩
    | reported =>
      rw [hpc] at hnot
      obtain ⟨m, -, hm⟩ := h.inv.reported
      have hlt : m < n := Nat.lt_of_not_le fun hle => hnot ⟨m, hm, hle⟩
      obtain ⟨m', hm', hle⟩ := h.inv.measuring ((DriverPc.past_iff hpc).mpr (by decide))
      have hkm : m' ≤ k := hm'.le (fun c hc => Nat.lt_trans (by decide) hc) hk
      -- somebody has a place and has not reported, and the flags are set
      obtain ⟨c, hc, hreported⟩ := hm.exists_of_lt hk (by omega)
      refine ⟨some c, h.running hc hreported, ?_⟩
      unfold Moves
      cases hcpc : (s.clients c).pc with
      | tryClaimSpot => exact absurd ((Client.past_iff hcpc).mp hc) (by decide)
      | loadBenchParams | started | aggregating | putReport | reported => trivial
      | shouldMeasure => exact (DriverPc.past_iff hpc).mpr (by decide)
      | shouldReport => exact (DriverPc.past_iff hpc).mpr (by decide)
      | exited => exact absurd ((Client.past_iff hcpc).mpr (by decide)) hreported

section
variable [DecidableEq κ]

theorem Healthy.enabled {a : Option κ} (h : Healthy n A s) (ha : Helps n A s a) :
    ∃ l t, Party a l ∧ (machine κ n).step s l = some t := by
  cases a with
  | none =>
    have hmain : ∃ y, s.driver.main n s.store = some y := by
      rw [← Option.isSome_iff_exists]
      have hmoves : DriverMoves n s := ha
      unfold DriverMoves at hmoves
      cases hpc : s.driver.pc with
      | printed z =>
        rw [hpc] at hmoves
        exact absurd hmoves id
      | throughput =>
        simp only [Driver.main, hpc]
        split
        · rfl
        · rfl
      | started | measure | report | reported =>
        simp only [Driver.main, hpc]
        rfl
    obtain ⟨y, hy⟩ := hmain
    refine ⟨.driver, { s with driver := y.1, store := y.2 }, rfl, ?_⟩
    simp only [machine, step, h.driver, hy]
    rfl
  | some c =>
    obtain ⟨hrunning, hmoves⟩ := ha
    by_cases hagg : (s.clients c).pc = .aggregating
    · exact ⟨.aggregate c 0, _, Or.inr ⟨0, rfl⟩, if_pos ⟨hrunning, hagg⟩⟩
    · have hbench : ∃ y, (s.clients c).bench s.store = some y := by
        rw [← Option.isSome_iff_exists]
        unfold Moves at hmoves
        cases hpc : (s.clients c).pc with
        | exited =>
          rw [hpc] at hmoves
          exact absurd hmoves id
        | aggregating => exact absurd hpc hagg
        | loadBenchParams =>
          simp only [Client.bench, hpc]
          split
          · rfl
          · rfl
        | tryClaimSpot | started | shouldMeasure | shouldReport | putReport | reported =>
          simp only [Client.bench, hpc]
          rfl
      obtain ⟨y, hy⟩ := hbench
      refine ⟨.client c, s.setClient c y.1 y.2, Or.inl rfl, ?_⟩
      simp only [machine, step, hrunning, hy]
      rfl

-- ---------------------------------------------------------------------------
-- The rank
-- ---------------------------------------------------------------------------

omit [DecidableEq κ] in
/-- How many calls the driver and those who get a place have still to come back from. -/
def Ranked (n : Nat) (A : Finset κ) (x : ℕ) (s : State κ) : Prop :=
  Healthy n A s ∧ ∃ C : Finset κ, (∀ c, c ∈ C ↔ (s.clients c).Past .tryClaimSpot) ∧
    x + (∑ c ∈ C, (s.clients c).pc.rank + s.driver.pc.rank) = 8 * n + 5

theorem Pc.rank_le (p : Pc) : p.rank ≤ 8 := by
  cases p <;> decide

theorem DriverPc.rank_le (p : DriverPc) : p.rank ≤ 5 := by
  cases p with
  | printed z => exact Nat.le_refl 5
  | started | measure | report | reported | throughput => decide

omit [DecidableEq κ] in
theorem Inv.ranks_le (h : Inv n s) {C : Finset κ} (hC : ∀ c, c ∈ C ↔ (s.clients c).Past .tryClaimSpot) :
    ∑ c ∈ C, (s.clients c).pc.rank ≤ 8 * n := by
  obtain ⟨_, k, -, hk, hsum, -⟩ := h.places
  have hcard : C.card = k := Tally.unique ⟨C, hC, rfl⟩ hk
  have hle := Finset.sum_le_card_nsmul C (fun c => (s.clients c).pc.rank) 8 fun c _ => Pc.rank_le _
  rw [smul_eq_mul, hcard] at hle
  omega

/-- A process that goes on to its next call. -/
theorem Ranked.next {z : ℕ} (h : Ranked n A z s) (ht : Healthy n A (s.setClient c x r))
    (hrank : x.pc.rank = (s.clients c).pc.rank + 1) :
    ∃ y < z, Ranked n A y (s.setClient c x r) := by
  obtain ⟨-, C, hC, hz⟩ := h
  -- whoever goes on has a place then
  have hC' : ∀ d, d ∈ insert c C ↔ ((s.setClient c x r).clients d).Past .tryClaimSpot := by
    intro d
    rw [Finset.mem_insert]
    by_cases hdc : d = c
    · subst hdc
      rw [State.setClient_clients]
      refine iff_of_true (Or.inl rfl) ?_
      show 0 < x.pc.rank
      omega
    · have hsame : (s.setClient c x r).clients d = s.clients d := Function.update_of_ne hdc ..
      rw [or_iff_right hdc, hC, hsame]
  have hsum : ∑ d ∈ insert c C, ((s.setClient c x r).clients d).pc.rank =
      ∑ d ∈ C, (s.clients d).pc.rank + 1 := by
    have hrest : ∑ d ∈ C.erase c, ((s.setClient c x r).clients d).pc.rank =
        ∑ d ∈ C.erase c, (s.clients d).pc.rank := by
      refine Finset.sum_congr rfl fun d hd => ?_
      have hsame : (s.setClient c x r).clients d = s.clients d :=
        Function.update_of_ne (Finset.ne_of_mem_erase hd) ..
      rw [hsame]
    have hold : (s.clients c).pc.rank + ∑ d ∈ C.erase c, (s.clients d).pc.rank =
        ∑ d ∈ C, (s.clients d).pc.rank := by
      by_cases hc : c ∈ C
      · exact Finset.add_sum_erase C (fun d => (s.clients d).pc.rank) hc
      · have hzero : (s.clients c).pc.rank = 0 :=
          Nat.eq_zero_of_not_pos fun hpos => hc ((hC c).mpr hpos)
        rw [Finset.erase_eq_of_notMem hc, hzero, Nat.zero_add]
    rw [← Finset.insert_erase (Finset.mem_insert_self c C), Finset.erase_insert_eq_erase,
      Finset.sum_insert (Finset.notMem_erase c C), State.setClient_clients, hrest, hrank, ← hold]
    omega
  have hle := ht.inv.ranks_le hC'
  have hdriver := DriverPc.rank_le s.driver.pc
  have hsame : (s.setClient c x r).driver = s.driver := rfl
  refine ⟨z - 1, by omega, ht, insert c C, hC', ?_⟩
  rw [hsum, hsame]
  omega

omit [DecidableEq κ] in
/-- The driver goes on to its next command. -/
theorem Ranked.drive {z : ℕ} {d : Driver} (h : Ranked n A z s)
    (ht : Healthy n A { s with driver := d, store := r }) (hrank : d.pc.rank = s.driver.pc.rank + 1) :
    ∃ y < z, Ranked n A y { s with driver := d, store := r } := by
  obtain ⟨-, C, hC, hz⟩ := h
  have hle := ht.inv.ranks_le hC
  have hdriver := DriverPc.rank_le d.pc
  have hclients : ∑ c ∈ C, (s.clients c).pc.rank ≤ 8 * n := hle
  refine ⟨z - 1, by omega, ht, C, hC, ?_⟩
  show z - 1 + (∑ c ∈ C, (s.clients c).pc.rank + d.pc.rank) = _
  omega

/-- Killing a process changes nothing for the others. -/
theorem Helps.stop {a : Option κ} (h : Helps n A s a) (hne : a ≠ some c) :
    Helps n A (s.setClient c (s.clients c).stop r) a := by
  have htally : ∀ (p : Pc) (m : Nat), Tally (Client.Past p) s.clients m ↔
      Tally (Client.Past p) (s.setClient c (s.clients c).stop r).clients m := by
    intro p m
    have hx : (s.clients c).stop.Past p ↔ (s.clients c).Past p := Iff.rfl
    refine ⟨fun htally => htally.update_same hx, fun htally => htally.congr fun d => ?_⟩
    exact (update_iff hx d).symm
  cases a with
  | none =>
    simp only [Helps, DriverMoves, htally] at h ⊢
    exact h
  | some d =>
    have hdc : d ≠ c := fun heq => hne (congrArg some heq)
    have hsame : (s.setClient c (s.clients c).stop r).clients d = s.clients d :=
      Function.update_of_ne hdc ..
    simp only [Helps, Moves, Full, htally, hsame] at h ⊢
    exact h

theorem Ranked.stop {z : ℕ} (h : Ranked n A z s)
    (ht : Healthy n A (s.setClient c (s.clients c).stop r)) :
    Ranked n A z (s.setClient c (s.clients c).stop r) := by
  obtain ⟨-, C, hC, hz⟩ := h
  refine ⟨ht, C, fun d => (hC d).trans (past_stop d).symm, ?_⟩
  have hsame : ∀ d, ((s.setClient c (s.clients c).stop r).clients d).pc = (s.clients d).pc := by
    intro d
    by_cases hdc : d = c
    · subst hdc
      rw [State.setClient_clients]
      rfl
    · exact congrArg Client.pc (Function.update_of_ne hdc ..)
  simp only [hsame]
  exact hz

omit [DecidableEq κ] in
theorem party_client {a : Option κ} (h : Party a (.client c)) : a = some c := by
  cases a with
  | none => cases h
  | some d =>
    rcases h with h | ⟨v, h⟩
    · cases h
      rfl
    · cases h

/-- Until the driver has printed, the rank goes down or who helps goes on to do so. -/
theorem ranking (hn : 1 ≤ n) (hsmall : 21 * n ≤ Store.maxLength) (hA : A.card = n) :
    Machine.Ranking (machine κ n) (Spared A) (fun s => ∃ z, s.driver.pc = .printed z) Party
      (Ranked n A) (fun _ => Helps n A) where
  helps := fun _ s h hnot => h.1.helps hA fun z hz => hnot ⟨z, hz⟩
  enabled := fun _ s a h _ ha => h.1.enabled ha
  step := by
    intro z s l t h _ hl hstep
    right
    have ht := healthy_step hn hsmall h.1 hl hstep
    cases l with
    | client c =>
      obtain ⟨-, hmove⟩ := Option.ite_none_left_eq_some.mp hstep
      obtain ⟨⟨x, r⟩, hbench, rfl⟩ := Option.map_eq_some_iff.mp hmove
      rcases h.1.bench hsmall hbench with ⟨rfl, rfl, hwaits⟩ | ⟨hpc, rfl, hfull⟩ | ⟨hrank, -⟩
      · right
        have hsame : s.setClient c (s.clients c) s.store = s := State.setClient_eq rfl
        show Ranked n A z (s.setClient c (s.clients c) s.store) ∧ ∀ a, Helps n A s a →
          Helps n A (s.setClient c (s.clients c) s.store) a ∧ ¬ Party a (.client c)
        rw [hsame]
        refine ⟨h, fun a ha => ⟨ha, fun hparty => ?_⟩⟩
        rw [party_client hparty] at ha
        exact hwaits ha.2
      · right
        have hne : ∀ a, Helps n A s a → a ≠ some c := by
          intro a ha heq
          subst heq
          have hmoves := ha.2
          rw [Moves, hpc] at hmoves
          exact hmoves.2 hfull
        exact ⟨h.stop ht, fun a ha => ⟨ha.stop (hne a ha), fun hparty => hne a ha (party_client hparty)⟩⟩
      · exact Or.inl (h.next ht hrank)
    | aggregate c v =>
      obtain ⟨⟨-, hpc⟩, heq⟩ := Option.ite_none_right_eq_some.mp hstep
      cases heq
      exact Or.inl (h.next ht (by rw [hpc]; rfl))
    | stop c =>
      cases hstep
      right
      have hne : ∀ a, Helps n A s a → a ≠ some c := by
        intro a ha heq
        subst heq
        obtain ⟨hrunning, hmoves⟩ := ha
        unfold Moves at hmoves
        by_cases hpast : (s.clients c).Past .tryClaimSpot
        · -- it has reported, and does nothing any more
          have hreported := hl.1 hpast
          cases hpc : (s.clients c).pc with
          | exited =>
            rw [hpc] at hmoves
            exact hmoves
          | tryClaimSpot | loadBenchParams | started | shouldMeasure | shouldReport | aggregating
          | putReport | reported => exact absurd ((Client.past_iff hpc).mp hreported) (by decide)
        · rw [Client.tryClaimSpot_of_not_past hpast] at hmoves
          rcases hl.2 hmoves.1 with hpast' | hstop
          · exact hpast hpast'
          · rw [hrunning] at hstop
            cases hstop
      refine ⟨h.stop ht, fun a ha => ⟨ha.stop (hne a ha), fun hparty => ?_⟩⟩
      cases a with
      | none => cases hparty
      | some d =>
        rcases hparty with hparty | ⟨v, hparty⟩
        · cases hparty
        · cases hparty
    | driver =>
      obtain ⟨-, hmove⟩ := Option.ite_none_left_eq_some.mp hstep
      obtain ⟨⟨d, r⟩, hmain, rfl⟩ := Option.map_eq_some_iff.mp hmove
      rcases h.1.main hn hsmall hmain with ⟨rfl, rfl, hwaits⟩ | ⟨hrank, -, -⟩
      · right
        refine ⟨h, fun a ha => ⟨ha, fun hparty => ?_⟩⟩
        cases a with
        | none => exact hwaits ha
        | some c =>
          rcases hparty with hparty | ⟨v, hparty⟩
          · cases hparty
          · cases hparty
      · exact Or.inl (h.drive ht hrank)
    | stopDriver => exact absurd hl id

-- ---------------------------------------------------------------------------
-- The end
-- ---------------------------------------------------------------------------

omit [DecidableEq κ] in
theorem ranked_initial (A : Finset κ) (params : BenchmarkParams) :
    Ranked params.numClients A (8 * params.numClients + 5) (initial κ (fun _ => none) params) :=
  ⟨healthy_initial A params, ∅,
    fun c => iff_of_false (Finset.notMem_empty c) (Nat.lt_irrefl 0), rfl⟩

/-- The driver stays where it has printed. -/
theorem printed_step : (machine κ n).Preserves fun s => Inv n s ∧ s.driver.Past .throughput := by
  refine inv_step.and fun s l t _ _ hd hstep => ?_
  have hpc : ∃ z, s.driver.pc = .printed z := by
    cases hpc : s.driver.pc with
    | printed z => exact ⟨z, rfl⟩
    | started | measure | report | reported | throughput =>
      exact absurd ((DriverPc.past_iff hpc).mp hd) (by decide)
  obtain ⟨z, hz⟩ := hpc
  cases l with
  | client c =>
    obtain ⟨-, hmove⟩ := Option.ite_none_left_eq_some.mp hstep
    obtain ⟨_, -, rfl⟩ := Option.map_eq_some_iff.mp hmove
    exact hd
  | aggregate c v =>
    obtain ⟨-, heq⟩ := Option.ite_none_right_eq_some.mp hstep
    cases heq
    exact hd
  | driver =>
    obtain ⟨-, hmove⟩ := Option.ite_none_left_eq_some.mp hstep
    obtain ⟨_, hmain, -⟩ := Option.map_eq_some_iff.mp hmove
    simp only [Driver.main, hz] at hmain
    cases hmain
  | stop | stopDriver =>
    cases hstep
    exact hd

omit [DecidableEq κ] in
/-- A process that is waited for and will not come. -/
def Lost (c : κ) (s : State κ) : Prop :=
  (s.clients c).stopped = true ∧ (s.clients c).Past .tryClaimSpot ∧ ¬ (s.clients c).Past .reported

theorem lost_step (c : κ) : (machine κ n).Preserves fun s => Inv n s ∧ Lost c s := by
  refine inv_step.and fun s l t _ _ hlost hstep => ?_
  -- only the process itself could change this, and it does nothing
  have hother : ∀ {d : κ} {x : Client} {r : Store Key}, d ≠ c → Lost c (s.setClient d x r) := by
    intro d x r hdc
    have hsame : (s.setClient d x r).clients c = s.clients c := Function.update_of_ne hdc.symm ..
    rw [Lost, hsame]
    exact hlost
  cases l with
  | client d =>
    obtain ⟨hrunning, hmove⟩ := Option.ite_none_left_eq_some.mp hstep
    obtain ⟨_, -, rfl⟩ := Option.map_eq_some_iff.mp hmove
    exact hother fun hdc => hrunning (hdc ▸ hlost.1)
  | aggregate d v =>
    obtain ⟨⟨hrunning, -⟩, heq⟩ := Option.ite_none_right_eq_some.mp hstep
    cases heq
    refine hother fun hdc => ?_
    rw [hdc, hlost.1] at hrunning
    cases hrunning
  | stop d =>
    cases hstep
    by_cases hdc : d = c
    · subst hdc
      rw [Lost, State.setClient_clients]
      exact ⟨rfl, hlost.2⟩
    · exact hother hdc
  | driver =>
    obtain ⟨-, hmove⟩ := Option.ite_none_left_eq_some.mp hstep
    obtain ⟨_, -, rfl⟩ := Option.map_eq_some_iff.mp hmove
    exact hlost
  | stopDriver =>
    cases hstep
    exact hlost

/-- A process with a place is killed only when it has reported. -/
def Finishing (s : State κ) (l : Label κ) : Prop :=
  ∀ c, l = .stop c → (s.clients c).Past .tryClaimSpot → (s.clients c).Past .reported

omit [DecidableEq κ] in
/-- The process waits for its own threads: before it counts itself as started, for their first
replies, and before it reports, for their measurements. -/
def Client.AwaitsThreads (c : Client) : Prop := c.pc = .started ∨ c.pc = .aggregating

/-- **Every distributed benchmark ends**, or waits for a process that was killed. On an empty
store, for any number of places, of which as many processes as there are places try to get one:
in every run in which neither the driver nor a process that can go on is left out for ever,
the threads that a process waits for come to their ends, and the driver is not stopped, the
driver prints if and only if no process with a place is killed before it has counted itself as
reported. -/
theorem prints_iff (params : BenchmarkParams) (hn : 1 ≤ params.numClients)
    (hsmall : 21 * params.numClients ≤ Store.maxLength) (A : Finset κ)
    (hA : A.card = params.numClients) (r : (machine κ params.numClients).Run)
    (hstart : r.state 0 = initial κ (fun _ => none) params)
    (hdriver : r.Just fun l => l = .driver)
    (hclients : ∀ c, r.JustUnless (fun s => (s.clients c).AwaitsThreads) (Party (some c)))
    (hthreads : ∀ c, r.Answers (fun s => (s.clients c).AwaitsThreads) (Party (some c)))
    (htry : r.Always fun s l => l ≠ .stopDriver ∧ ∀ c ∈ A, l = .stop c →
      (s.clients c).Past .tryClaimSpot ∨ (s.clients c).stopped = true) :
    (∃ k z, (r.state k).driver.pc = .printed z) ↔ r.Always Finishing := by
  have hinv : ∀ k, Inv params.numClients (r.state k) :=
    fun k => inv_step.reachable (hstart ▸ inv_initial params) (r.reachable k)
  constructor
  · rintro ⟨k, z, hz⟩ j l hlabel c rfl hclaimed
    have hd : (r.state k).driver.Past .throughput := (DriverPc.past_iff hz).mpr (Nat.lt_succ_self 4)
    by_contra hnot
    rcases Nat.le_total k j with hkj | hjk
    · -- all have reported when the driver prints
      have hd' := (r.preserves printed_step hkj ⟨hinv k, hd⟩).2
      exact hnot ((hinv j).all_reported (Nat.lt_trans (by decide) hd') hclaimed)
    · rcases Nat.lt_or_eq_of_le hjk with hlt | rfl
      · have hlost : Lost c (r.state (j + 1)) := by
          have hnext : (r.state j).setClient c ((r.state j).clients c).stop (r.state j).store =
              r.state (j + 1) := Option.some.inj (r.step j _ hlabel)
          rw [← hnext, Lost, State.setClient_clients]
          exact ⟨rfl, hclaimed, hnot⟩
        have hlost' := (r.preserves (lost_step c) hlt ⟨hinv (j + 1), hlost⟩).2
        exact hlost'.2.2 ((hinv k).all_reported (Nat.lt_trans (by decide) hd) hlost'.2.1)
      · exact hnot ((hinv j).all_reported (Nat.lt_trans (by decide) hd) hclaimed)
  · intro hfinish
    have hspared : r.Always (Spared A) := by
      intro k l hlabel
      obtain ⟨hdriver, hA⟩ := htry k l hlabel
      cases l with
      | stop c => exact ⟨hfinish k _ hlabel c rfl, fun hc => hA c hc rfl⟩
      | stopDriver => exact absurd rfl hdriver
      | client | aggregate | driver => trivial
    have hjust : ∀ a, r.Just (Party a) := by
      rintro (_ | c)
      · exact hdriver
      · exact (hclients c).just (hthreads c)
    obtain ⟨k, -, hprinted⟩ := (ranking hn hsmall hA).eventually hspared
      (fun a => (hjust a).unless _) (k := 0)
      (x := 8 * params.numClients + 5) (hstart ▸ ranked_initial A params)
    exact ⟨k, hprinted⟩

/-- Two places and three processes, of which the third comes too late. -/
theorem prints_iff_twoReports : ∃ r : (machine (Fin 3) 2).Run,
    r.state 0 = initial (Fin 3) (fun _ => none) twoPlaces ∧
      (∃ k, (r.state k).driver.pc = .printed 2234) ∧ r.Always Finishing := by
  have hview : ((machine (Fin 3) 2).exec (initial (Fin 3) (fun _ => none) twoPlaces) twoReports).map
      (fun s => (s.driver.pc, decide (∀ c, (s.clients c).stopped = true ∨ (s.clients c).pc = .exited),
        decide (∀ c, (s.clients c).pc ≠ .aggregating))) = some (.printed 2234, true, true) := by
    decide +kernel
  have hspared : (machine (Fin 3) 2).Along (fun _ l => l ≠ .stopDriver ∧ ∀ c, l ≠ .stop c)
      (initial (Fin 3) (fun _ => none) twoPlaces) twoReports := by decide +kernel
  obtain ⟨s, hrun, hs⟩ := Option.map_eq_some_iff.mp hview
  simp only [Prod.mk.injEq, decide_eq_true_eq] at hs
  obtain ⟨hprinted, hover, hnot⟩ := hs
  obtain ⟨r, h0, hend, halways⟩ := Machine.exists_run hrun
  have hnone := halways _ hspared
  refine ⟨r, h0, ⟨_, by rw [hend _ le_rfl, hprinted]⟩, ?_⟩
  -- at its end nothing is left to do
  have hclients : ∀ c, r.Just (Party (some c)) := by
    intro c
    refine Machine.Run.just_of_disabled hend ?_
    rintro _ (rfl | ⟨v, rfl⟩)
    · rcases hover c with hstopped | hexited
      · simp [machine, step, hstopped]
      · simp [machine, step, Client.bench, hexited]
    · simp [machine, step, hnot c]
  refine (prints_iff twoPlaces (by decide) (by decide) {0, 1} rfl r h0 ?_
    (fun c => (hclients c).unless _) (fun c => (hclients c).answers _) ?_).mp
    ⟨_, _, by rw [hend _ le_rfl, hprinted]⟩
  · refine Machine.Run.just_of_disabled hend ?_
    rintro _ rfl
    simp [machine, step, Driver.main, hprinted]
  · exact fun k l hlabel => ⟨(hnone k l hlabel).1, fun c _ hl => absurd hl ((hnone k l hlabel).2 c)⟩

end

end EchoServer.Multiclient
