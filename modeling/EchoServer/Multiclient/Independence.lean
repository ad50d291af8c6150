import EchoServer.Multiclient.Coordination

/-!
# driver.py, multiclient.c — one benchmark after another

`write_benchmark_params_to_redis` sets every key that a run reads but one: nobody clears
`results`. What is in it stays in front of the reports.

The store holds anything to begin with: a string of any bytes, UTF-8 or not, or a value of
another kind, at any key. What the driver does with `results` in the end is to decode it, to
split it into words and to add up what `int` makes of them, and each of the three may raise
an exception: bytes that are no UTF-8, a word that is no number, a number of more digits
than Python converts. Redis refuses an `APPEND` that would make a value longer than 512 MB.

Two runs are compared step by step, with the same labels; that the driver is in the same
place in both, whatever the labels, is what is meant by independence.

Main results:

* `exec_behind` — a run behind an earlier text is the run on an empty store, step by step, if
  the text adds nothing to the sum and leaves room for the reports;
* `exec_reports` — a run in which all report, on any `results`;
* `independent_iff` — exactly when the driver sees nothing of what was in the store.
-/

namespace EchoServer.Multiclient

open EchoServer.Lib

-- ---------------------------------------------------------------------------
-- How long the reports are
-- ---------------------------------------------------------------------------

theorem length_report (v : UInt64) :
    (report v).length = 1 + (utf8 (decimal v.toBitVec.toInt)).length := by
  obtain ⟨b, hb, -⟩ := utf8_cons (c := ' ') (by decide)
  rw [report, hb, List.length_cons, Nat.add_comm]

theorem length_report_le (v : UInt64) : (report v).length ≤ 21 := by
  have hv := Store.length_decimal_le (z := v.toBitVec.toInt) ⟨BitVec.le_toInt _, BitVec.toInt_lt⟩
  rw [length_report]
  omega

/-- A throughput whose report is so long. -/
def ofLength (l : Nat) : UInt64 :=
  if l = 21 then UInt64.ofNat (2 ^ 64 - 10 ^ 18) else UInt64.ofNat (10 ^ (l - 2))

theorem length_report_ofLength {l : Nat} (h : 2 ≤ l ∧ l ≤ 21) :
    (report (ofLength l)).length = l := by
  have hall : ∀ l ∈ List.range' 2 20, (report (ofLength l)).length = l := by decide
  exact hall l (List.mem_range'_1.mpr (by omega))

variable {κ : Type} {n : Nat} {s : State κ} {c : κ}

theorem length_flatMap_le (ws : List κ) (f : κ → UInt64) :
    (ws.flatMap fun c => report (f c)).length ≤ 21 * ws.length := by
  induction ws with
  | nil => exact Nat.le_refl 0
  | cons c ws ih =>
    have hc := length_report_le (f c)
    rw [List.flatMap_cons, List.length_append, List.length_cons]
    omega

/-- A process that is about to report finds room for its report among those of the others. -/
theorem Inv.length_results_le (h : Inv n s) (hc : (s.clients c).pc = .putReport) :
    (s.store.bytes .results).length + 21 ≤ 21 * n := by
  obtain ⟨ws, hnodup, hws, htext⟩ := h.results
  obtain ⟨_, m, -, hm, hsum, -⟩ := h.places
  have hall : Tally (Client.Past .putReport) s.clients ws.length := by
    classical
    exact ⟨ws.toFinset, fun d => by rw [List.mem_toFinset, hws], List.toFinset_card_of_nodup hnodup⟩
  have hlt : ws.length < m :=
    hall.lt (fun d hd => Nat.lt_trans (by decide) hd) hm ((Client.past_iff hc).mpr (by decide))
      fun hd => absurd ((Client.past_iff hc).mp hd) (by decide)
  have hle := length_flatMap_le ws fun d => (s.clients d).throughput
  rw [htext]
  omega

-- ---------------------------------------------------------------------------
-- What does not depend on the results
-- ---------------------------------------------------------------------------

/-- The same, with another value at `results`. -/
def State.withResults (s : State κ) (v : Option Value) : State κ :=
  { s with store := Function.update s.store .results v }

variable {v : Option Value}

@[simp] theorem State.withResults_clients : (s.withResults v).clients = s.clients := rfl

@[simp] theorem State.withResults_driver : (s.withResults v).driver = s.driver := rfl

@[simp] theorem State.withResults_store :
    (s.withResults v).store = Function.update s.store .results v := rfl

theorem tryClaimSpot_update (r : Store Key) (v : Option Value) :
    tryClaimSpot (Function.update r .results v) =
      ((tryClaimSpot r).1, Function.update (tryClaimSpot r).2 .results v) := by
  simp (disch := decide) only [tryClaimSpot, Store.decr, Store.incrBy_update]
  generalize r.incrBy .numclients (-1) = p
  obtain ⟨reply, r'⟩ := p
  cases reply <;> rfl

/-- Only `put_report` looks at `results`. -/
theorem Client.bench_update {r : Store Key} {x : Client} (h : x.pc ≠ .putReport) :
    x.bench (Function.update r .results v) =
      (x.bench r).map fun (y, r') => (y, Function.update r' .results v) := by
  unfold Client.bench
  cases hpc : x.pc with
  | tryClaimSpot => simp only [tryClaimSpot_update, Option.map_some]
  | loadBenchParams =>
    have hload : Multiclient.loadBenchParams (Function.update r .results v) =
        Multiclient.loadBenchParams r := by
      rw [Multiclient.loadBenchParams, Multiclient.loadBenchParams, Store.mget_update (by decide)]
    simp only [hload]
    cases Multiclient.loadBenchParams r <;> rfl
  | started | reported =>
    simp (disch := decide) only [dcounterIncr, Store.incrBy_update, Option.map_some]
  | shouldMeasure | shouldReport =>
    simp (disch := decide) only [dflagWait, Store.get_update, Option.map_some]
  | aggregating | exited => rfl
  | putReport => exact absurd hpc h

/-- Only `get_throughput` does. -/
theorem Driver.main_update {r : Store Key} {d : Driver} (h : d.pc ≠ .throughput) :
    d.main n (Function.update r .results v) =
      (d.main n r).map fun (e, r') => (e, Function.update r' .results v) := by
  unfold Driver.main
  cases hpc : d.pc with
  | started | reported =>
    simp (disch := decide) only [dcounterWait, Store.get_update, Option.map_some]
  | measure | report =>
    simp (disch := decide) only [dflagSet, Store.set_update, Option.map_some]
  | printed => rfl
  | throughput => exact absurd hpc h

variable [DecidableEq κ]

/-- A step at which nobody looks at `results`. -/
theorem step_withResults {l : Label κ} (hput : ∀ c, l = .client c → (s.clients c).pc ≠ .putReport)
    (hget : l = .driver → s.driver.pc ≠ .throughput) :
    step n (s.withResults v) l = (step n s l).map (·.withResults v) := by
  cases l with
  | client c =>
    simp only [step, State.withResults_clients, State.withResults_store,
      Client.bench_update (hput c rfl)]
    split
    · rfl
    · rw [Option.map_map, Option.map_map]
      rfl
  | driver =>
    simp only [step, State.withResults_driver, State.withResults_store,
      Driver.main_update (hget rfl)]
    split
    · rfl
    · rw [Option.map_map, Option.map_map]
      rfl
  | aggregate c w =>
    by_cases hc : (s.clients c).stopped = false ∧ (s.clients c).pc = .aggregating
    · have hstep : step n s (.aggregate c w) = some _ := if_pos hc
      rw [hstep]
      exact if_pos hc
    · have hstep : step n s (.aggregate c w) = none := if_neg hc
      rw [hstep]
      exact if_neg hc
  | stop c | stopDriver => rfl

omit [DecidableEq κ] in
theorem initial_withResults (r : Store Key) (params : BenchmarkParams) :
    initial κ r params = (initial κ (fun _ => none) params).withResults (r .results) := by
  have hstore : writeBenchmarkParamsToRedis r params =
      Function.update (writeBenchmarkParamsToRedis (fun _ => none) params) .results (r .results) := by
    funext k
    cases k <;> rfl
  rw [initial, hstore]
  rfl

-- ---------------------------------------------------------------------------
-- Behind an earlier text
-- ---------------------------------------------------------------------------

/-- What `results` holds when there was already a text in it. -/
def behind (t : Bytes) : Option Value → Option Value
  | none => some (.string t)
  | some (.string t') => some (.string (t ++ t'))
  | some .other => some .other

def State.behind (t : Bytes) (s : State κ) : State κ :=
  s.withResults (Multiclient.behind t (s.store .results))

/-- There is room for all reports behind the text; behind no text there always is. -/
def Room (n : Nat) (t : Bytes) : Prop := t = [] ∨ t.length + 21 * n ≤ Store.maxLength

variable {t : Bytes}

omit [DecidableEq κ] in
theorem appended_behind (hroom : Room n t) {w : Bytes} (hw : w.length ≤ 21)
    (hx : (s.store.bytes .results).length + 21 ≤ 21 * n) :
    Store.appended (behind t (s.store .results)) w =
      (Store.appended (s.store .results) w).map (t ++ ·) := by
  unfold Store.bytes at hx
  unfold behind Store.appended
  cases hv : s.store .results with
  | none =>
    have hfits : t.length + w.length ≤ Store.maxLength := by
      rcases hroom with rfl | hroom
      · exact Nat.le_trans (Nat.add_le_add_left hw _) (by decide)
      · omega
    simp only [if_pos hfits, Option.map_some]
  | some v =>
    cases v with
    | string t' =>
      simp only [hv] at hx
      simp only [List.length_append]
      rcases hroom with rfl | hroom
      · simp only [List.nil_append, Option.map_id']
        rw [show ([] : Bytes).length = 0 from rfl, Nat.zero_add]
      · rw [if_pos (by omega), if_pos (by omega), Option.map_some, List.append_assoc]
    | other => rfl

/-- What is printed for a value of `results`. -/
def throughputIn (v : Option Value) : Option Int :=
  match v with
  | some (.string t) => sumBytes t
  | _ => none

theorem getThroughput_eq (r : Store Key) : getThroughput r = throughputIn (r .results) := by
  unfold getThroughput Store.get throughputIn
  cases r .results with
  | none => rfl
  | some v => cases v <;> rfl

omit [DecidableEq κ] in
theorem getThroughput_behind (h : Inv n s) (hn : 1 ≤ n) (hd : s.driver.Past .reported)
    (ht : sumBytes t = some 0) :
    getThroughput (s.behind t).store = getThroughput s.store := by
  obtain ⟨ws, -, hws, htext⟩ := h.results
  -- all have reported, so the key exists
  obtain ⟨c, hc⟩ : ∃ c, c ∈ ws := by
    obtain ⟨m, hm, hle⟩ := h.collected hd
    obtain ⟨c, hc⟩ := hm.exists_of_pos (by omega)
    exact ⟨c, (hws c).mpr (Nat.lt_trans (by decide) hc)⟩
  have hlong : ∀ v : UInt64, report v ≠ [] := fun v hnil => by
    have hlen := length_report v
    rw [hnil, List.length_nil] at hlen
    omega
  unfold Store.bytes at htext
  rw [getThroughput_eq, getThroughput_eq, State.behind, State.withResults_store, Function.update_self]
  cases hv : s.store .results with
  | none =>
    rw [hv] at htext
    exact absurd (List.flatMap_eq_nil_iff.mp htext.symm c hc) (hlong _)
  | some v =>
    cases v with
    | string t' =>
      simp only [hv] at htext
      show sumBytes (t ++ t') = sumBytes t'
      have hprintable := printable_reports ws fun c => (s.clients c).throughput
      rw [htext, flatMap_report, sumBytes_append t hprintable, sumBytes_flatMap hprintable, ht,
        Option.map_some, Int.zero_add]
    | other => rfl

/-- A step at which nobody looks at `results` leaves it as it is. -/
theorem step_results {l : Label κ} {s' : State κ}
    (hput : ∀ c, l = .client c → (s.clients c).pc ≠ .putReport)
    (hget : l = .driver → s.driver.pc ≠ .throughput) (hstep : step n s l = some s') :
    s'.store .results = s.store .results := by
  have hsame : s.withResults (s.store .results) = s := by
    rw [State.withResults, Function.update_eq_self]
  have h := step_withResults (n := n) (v := s.store .results) hput hget
  rw [hsame, hstep, Option.map_some, Option.some.injEq] at h
  rw [h, State.withResults_store, Function.update_self]

omit [DecidableEq κ] in
theorem Client.bench_putReport {x : Client} (h : x.pc = .putReport) (r : Store Key) :
    x.bench r = some (match Store.appended (r .results) (report x.throughput) with
      | some w => (x.goto .reported, r.set .results w)
      | none => (x.stop, r)) := by
  simp only [Client.bench, h]
  rcases putReport_cases r x.throughput with ⟨w, hw, hput⟩ | ⟨hw, hput⟩
  · simp only [hw, hput, if_true]
  · simp only [hw, hput]
    rfl

omit [DecidableEq κ] in
/-- The report of a process, behind an earlier text. -/
theorem bench_behind (h : Inv n s) (hroom : Room n t) (hc : (s.clients c).pc = .putReport) :
    (s.clients c).bench (s.behind t).store = ((s.clients c).bench s.store).map fun (x, r) =>
      (x, Function.update r .results (behind t (r .results))) := by
  have happend := appended_behind (s := s) hroom (length_report_le (s.clients c).throughput)
    (h.length_results_le hc)
  have hbehind : (s.behind t).store .results = behind t (s.store .results) := by
    rw [State.behind, State.withResults_store, Function.update_self]
  rw [Client.bench_putReport hc, Client.bench_putReport hc, hbehind, happend]
  cases Store.appended (s.store .results) (report (s.clients c).throughput) with
  | none => rfl
  | some w =>
    simp only [Option.map_some, State.behind, State.withResults_store, Store.set,
      Function.update_idem, Function.update_self]
    rfl

/-- One step behind an earlier text. -/
theorem step_behind (h : Inv n s) (hn : 1 ≤ n) (ht : sumBytes t = some 0) (hroom : Room n t)
    (l : Label κ) : step n (s.behind t) l = (step n s l).map (State.behind t) := by
  by_cases hput : ∃ c, l = .client c ∧ (s.clients c).pc = .putReport
  · obtain ⟨c, rfl, hc⟩ := hput
    have hclients : (s.behind t).clients = s.clients := rfl
    simp only [step, hclients, bench_behind h hroom hc]
    split
    · rfl
    · rw [Option.map_map, Option.map_map]
      rfl
  · by_cases hget : l = .driver ∧ s.driver.pc = .throughput
    · obtain ⟨rfl, hd⟩ := hget
      have hdriver : (s.behind t).driver = s.driver := rfl
      have hall : s.driver.Past .reported := (DriverPc.past_iff hd).mpr (by decide)
      simp only [step, hdriver, Driver.main, hd, getThroughput_behind h hn hall ht]
      split
      · rfl
      · cases getThroughput s.store <;> rfl
    · have hput' : ∀ c, l = .client c → (s.clients c).pc ≠ .putReport :=
        fun c hl hc => hput ⟨c, hl, hc⟩
      have hget' : l = .driver → s.driver.pc ≠ .throughput := fun hl hd => hget ⟨hl, hd⟩
      rw [State.behind, step_withResults hput' hget']
      cases hstep : step n s l with
      | none => rfl
      | some s' =>
        rw [Option.map_some, Option.map_some, State.behind, step_results hput' hget' hstep]

theorem exec_behind (h : Inv n s) (hn : 1 ≤ n) (ht : sumBytes t = some 0) (hroom : Room n t)
    (ls : List (Label κ)) :
    (machine κ n).exec (s.behind t) ls = ((machine κ n).exec s ls).map (State.behind t) :=
  Machine.exec_map (State.behind t) inv_step (fun _ l hs => step_behind hs hn ht hroom l) h ls

/-- With more places than a counter can count nobody gets one, and nobody looks. -/
theorem exec_withResults (h : Inv n s) (hn : 2 ^ 63 ≤ n) (ls : List (Label κ)) :
    (machine κ n).exec (s.withResults v) ls = ((machine κ n).exec s ls).map (·.withResults v) := by
  refine Machine.exec_map (·.withResults v) inv_step (fun s l hs => ?_) h ls
  have hnone : ∀ c, ¬ (s.clients c).Past .tryClaimSpot := by
    obtain ⟨_, m, -, hm, hsum, hsmall⟩ := hs.places
    intro c hc
    have hpos := hm.pos hc
    omega
  refine step_withResults (fun c _ hc => ?_) fun _ hd => ?_
  · exact hnone c ((Client.past_iff hc).mpr (by decide))
  · obtain ⟨m, hm, hle⟩ := hs.collected ((DriverPc.past_iff hd).mpr (by decide))
    obtain ⟨c, hc⟩ := hm.exists_of_pos (by omega)
    exact hnone c (Nat.lt_trans (by decide) hc)

-- ---------------------------------------------------------------------------
-- A run in which all report
-- ---------------------------------------------------------------------------

section
variable {x y : Client} {r r' : Store Key} {ls : List (Label κ)}

theorem State.setClient_clients : (s.setClient c x r).clients c = x := Function.update_self ..

theorem State.setClient_setClient : (s.setClient c x r).setClient c y r' = s.setClient c y r' := by
  simp only [State.setClient, Function.update_idem]

theorem State.setClient_eq (h : s.clients c = x) : s.setClient c x s.store = s := by
  rw [State.setClient, ← h, Function.update_eq_self]

theorem exec_client (hstop : x.stopped = false) (hbench : x.bench r = some (y, r')) :
    (machine κ n).exec (s.setClient c x r) (.client c :: ls) =
      (machine κ n).exec (s.setClient c y r') ls := by
  have hstep : (machine κ n).step (s.setClient c x r) (.client c) = some (s.setClient c y r') := by
    simp only [machine, step, State.setClient_clients, hstop]
    show Option.map _ (x.bench r) = _
    simp only [hbench, Option.map_some, State.setClient_setClient]
  rw [Machine.exec, hstep, Option.bind_some]

theorem exec_aggregate {w : UInt64} (hstop : x.stopped = false) (hpc : x.pc = .aggregating) :
    (machine κ n).exec (s.setClient c x r) (.aggregate c w :: ls) =
      (machine κ n).exec (s.setClient c { x.goto .putReport with throughput := w } r) ls := by
  have hstep : (machine κ n).step (s.setClient c x r) (.aggregate c w) =
      some (s.setClient c { x.goto .putReport with throughput := w } r) := by
    simp only [machine, step, State.setClient_clients, hstop, hpc, and_self, if_true,
      State.setClient_setClient]
    rfl
  rw [Machine.exec, hstep, Option.bind_some]

theorem exec_stopped (hstop : x.stopped = true) :
    (machine κ n).exec (s.setClient c x r) (.client c :: ls) = none := by
  have hstep : (machine κ n).step (s.setClient c x r) (.client c) = none := by
    simp only [machine, step, State.setClient_clients, hstop, if_true]
  rw [Machine.exec, hstep, Option.bind_none]

end

variable {params : BenchmarkParams} {k : Nat}

/-- A process that waits for `should_measure`. -/
def waiting (params : BenchmarkParams) : Client :=
  ⟨.shouldMeasure, false,
    some ⟨atoi (chars (utf8 params.numThreads)), utf8 params.serverAddress,
      utf8 (decimal params.serverPort)⟩, 0⟩

/-- The first `k` processes have come as far as to wait, the others have not moved. -/
def claimed (params : BenchmarkParams) (v : Option Value) (k : Nat) : State (Fin params.numClients) where
  store
    | .numclients => some (.text (decimal (params.numClients - k)))
    | .started => some (.text (decimal k))
    | .results => v
    | key => writeBenchmarkParamsToRedis (fun _ => none) params key
  clients c := if c < k then waiting params else .entry
  driver := ⟨.started, false⟩

/-- The driver waits for the reports, of which the first `k` processes have sent theirs. -/
def collecting (params : BenchmarkParams) (f : Nat → UInt64) (v : Option Value) (k : Nat) :
    State (Fin params.numClients) where
  store
    | .numclients => some (.text (decimal 0))
    | .started => some (.text (decimal params.numClients))
    | .shouldMeasure => some (.text ['1'])
    | .shouldReport => some (.text ['1'])
    | .reported => some (.text (decimal k))
    | .results => v
    | key => writeBenchmarkParamsToRedis (fun _ => none) params key
  clients c :=
    if c < k then { waiting params with pc := .exited, throughput := f c } else waiting params
  driver := ⟨.reported, false⟩

theorem initial_eq (r : Store Key) : initial (Fin params.numClients) r params = claimed params (r .results) 0 := by
  have hstore : writeBenchmarkParamsToRedis r params = (claimed params (r .results) 0).store := by
    funext key
    cases key <;> simp [writeBenchmarkParamsToRedis, claimed, Store.set, Function.update, Value.text]
  rw [initial, hstore]
  simp only [claimed, Nat.not_lt_zero, if_false]

/-- One more has moved on, from what the first `k` are not to what they are. -/
theorem update_lt {n : Nat} (hk : k < n) {f g : Fin n → Client} :
    Function.update (fun c : Fin n => if c < k then f c else g c) ⟨k, hk⟩ (f ⟨k, hk⟩) =
      fun c : Fin n => if c < k + 1 then f c else g c := by
  funext c
  by_cases hc : c = ⟨k, hk⟩
  · subst hc
    rw [Function.update_self, if_pos (Nat.lt_succ_self k)]
  · have hne : (c : Nat) ≠ k := fun h => hc (Fin.ext h)
    have hiff : (c : Nat) < k + 1 ↔ (c : Nat) < k := by omega
    rw [Function.update_of_ne hc]
    simp only [hiff]

/-- A process takes a place and comes to wait. -/
theorem exec_claim (hn : params.numClients < 2 ^ 63) (hk : k < params.numClients) :
    (machine (Fin params.numClients) params.numClients).exec (claimed params v k)
      [.client ⟨k, hk⟩, .client ⟨k, hk⟩, .client ⟨k, hk⟩] = some (claimed params v (k + 1)) := by
  have hentry : (claimed params v k).clients ⟨k, hk⟩ = .entry := if_neg (Nat.lt_irrefl k)
  have hdecr := Store.incrBy_counter (r := (claimed params v k).store) (k := .numclients)
    (z := params.numClients - k) (d := -1) rfl (by omega) (by omega)
  have hclaim : Client.bench (claimed params v k).store .entry =
      some (Client.entry.goto .loadBenchParams, (claimed params v k).store.set .numclients
        (utf8 (decimal (params.numClients - k + -1)))) := by
    simp only [Client.bench, Client.entry, tryClaimSpot, Store.decr, hdecr]
    rw [decide_eq_true (by omega), if_pos rfl]
  have hincr := Store.incrBy_counter (r := (claimed params v k).store.set .numclients
    (utf8 (decimal (params.numClients - k + -1)))) (k := .started) (z := k) (d := 1) rfl (by omega) (by omega)
  rw [← State.setClient_eq hentry, exec_client rfl hclaim, exec_client rfl rfl, exec_client rfl rfl,
    Machine.exec_nil]
  have hstore : dcounterIncr ((claimed params v k).store.set .numclients
      (utf8 (decimal (params.numClients - k + -1)))) .started 1 = (claimed params v (k + 1)).store := by
    rw [dcounterIncr, hincr]
    funext key
    cases key with
    | numclients => exact congrArg (some ∘ Value.text ∘ decimal) (by omega)
    | numthreads | address | port | shouldMeasure | shouldReport | reported | started | results => rfl
  rw [hstore]
  exact congrArg (fun clients => some (State.mk _ clients _)) (update_lt hk)

theorem dcounterWait_self {r : Store Key} {key : Key} (hn : n < 2 ^ 63)
    (h : r key = some (.text (decimal n))) : dcounterWait r key n = some true := by
  rw [dcounterWait_eq h, pyInt_decimal, if_pos (printable_of_long (by omega)), Option.map_some,
    decide_eq_true (Int.le_refl _)]

theorem exec_driver {d d' : Driver} {r r' : Store Key} {clients : κ → Client} {ls : List (Label κ)}
    (hstop : d.stopped = false) (hmain : d.main n r = some (d', r')) :
    (machine κ n).exec ⟨r, clients, d⟩ (.driver :: ls) = (machine κ n).exec ⟨r', clients, d'⟩ ls := by
  have hstep : (machine κ n).step ⟨r, clients, d⟩ .driver = some ⟨r', clients, d'⟩ := by
    simp only [machine, step, hstop, hmain]
    rfl
  rw [Machine.exec, hstep, Option.bind_some]

/-- All have started, and the driver has them measure and report. -/
theorem exec_start (hn : params.numClients < 2 ^ 63) (f : Nat → UInt64) :
    (machine (Fin params.numClients) params.numClients).exec (claimed params v params.numClients)
      [.driver, .driver, .driver] = some (collecting params f v 0) := by
  have hwait : dcounterWait (claimed params v params.numClients).store .started params.numClients =
      some true := dcounterWait_self hn rfl
  have hmain : Driver.main params.numClients (claimed params v params.numClients).store ⟨.started, false⟩ =
      some (⟨.measure, false⟩, (claimed params v params.numClients).store) := by
    simp only [Driver.main, hwait]
    rfl
  have hclients : (claimed params v params.numClients).clients = (collecting params f v 0).clients := by
    funext c
    simp only [claimed, collecting, if_pos c.isLt, Nat.not_lt_zero, if_false]
  have hstore : dflagSet (dflagSet (claimed params v params.numClients).store .shouldMeasure)
      .shouldReport = (collecting params f v 0).store := by
    funext key
    cases key with
    | numclients => exact congrArg (some ∘ Value.text ∘ decimal) (by omega)
    | numthreads | address | port | shouldMeasure | shouldReport | reported | started | results => rfl
  refine (exec_driver rfl hmain).trans ((exec_driver rfl rfl).trans ((exec_driver rfl rfl).trans ?_))
  show some (State.mk _ (claimed params v params.numClients).clients _) = _
  rw [hclients, hstore]
  rfl

/-- The driver when it has looked at the value of `results`. -/
def finished (v : Option Value) : Driver :=
  match throughputIn v with
  | some z => if Printable z then ⟨.printed z, false⟩ else ⟨.throughput, true⟩
  | none => ⟨.throughput, true⟩

/-- All have reported, and the driver sums up what it finds. -/
theorem exec_finish (hn : params.numClients < 2 ^ 63) (f : Nat → UInt64) :
    (machine (Fin params.numClients) params.numClients).exec
      (collecting params f v params.numClients) [.driver, .driver] =
    some { collecting params f v params.numClients with driver := finished v } := by
  have hwait : dcounterWait (collecting params f v params.numClients).store .reported
      params.numClients = some true := dcounterWait_self hn rfl
  have hmain : Driver.main params.numClients (collecting params f v params.numClients).store
      ⟨.reported, false⟩ =
      some (⟨.throughput, false⟩, (collecting params f v params.numClients).store) := by
    simp only [Driver.main, hwait]
    rfl
  have hget : Driver.main params.numClients (collecting params f v params.numClients).store
      ⟨.throughput, false⟩ = some (finished v, (collecting params f v params.numClients).store) := by
    have hv : (collecting params f v params.numClients).store .results = v := rfl
    simp only [Driver.main, getThroughput_eq, hv, finished]
    cases throughputIn v with
    | none => rfl
    | some z => rfl
  exact (exec_driver rfl hmain).trans (exec_driver rfl hget)

/-- A process reports, if its report can be appended. -/
theorem exec_report (hn : params.numClients < 2 ^ 63) (hk : k < params.numClients) (f : Nat → UInt64) :
    (machine (Fin params.numClients) params.numClients).exec (collecting params f v k)
      [.client ⟨k, hk⟩, .client ⟨k, hk⟩, .aggregate ⟨k, hk⟩ (f k), .client ⟨k, hk⟩, .client ⟨k, hk⟩] =
    (Store.appended v (report (f k))).map fun w => collecting params f (some (.string w)) (k + 1) := by
  have hwaiting : (collecting params f v k).clients ⟨k, hk⟩ = waiting params :=
    if_neg (Nat.lt_irrefl k)
  let x : Client := { waiting params with pc := .putReport, throughput := f k }
  have hpolls : (machine (Fin params.numClients) params.numClients).exec (collecting params f v k)
      [.client ⟨k, hk⟩, .client ⟨k, hk⟩, .aggregate ⟨k, hk⟩ (f k), .client ⟨k, hk⟩, .client ⟨k, hk⟩] =
      (machine (Fin params.numClients) params.numClients).exec
        ((collecting params f v k).setClient ⟨k, hk⟩ x (collecting params f v k).store)
        [.client ⟨k, hk⟩, .client ⟨k, hk⟩] := by
    have hself := State.setClient_eq hwaiting
    refine Eq.trans (by rw [hself]) ((exec_client rfl rfl).trans
      ((exec_client rfl rfl).trans (exec_aggregate rfl rfl)))
  rw [hpolls, exec_client rfl (Client.bench_putReport rfl _)]
  have hresults : (collecting params f v k).store .results = v := rfl
  have hreport : report x.throughput = report (f k) := rfl
  rw [hresults, hreport]
  cases Store.appended v (report (f k)) with
  | none => exact exec_stopped rfl
  | some w =>
    have hincr := Store.incrBy_counter (r := (collecting params f v k).store.set .results w)
      (k := .reported) (z := k) (d := 1) rfl (by omega) (by omega)
    have hstore : dcounterIncr ((collecting params f v k).store.set .results w) .reported 1 =
        (collecting params f (some (.string w)) (k + 1)).store := by
      rw [dcounterIncr, hincr]
      funext key
      cases key <;> rfl
    refine (exec_client rfl rfl).trans ?_
    rw [Machine.exec_nil, hstore]
    exact congrArg (fun clients => some (State.mk _ clients _)) (update_lt hk)

/-- What the first `k` reports make of `results`, if all can be appended. -/
def reportsOn (f : Nat → UInt64) (v : Option Value) : Nat → Option (Option Value)
  | 0 => some v
  | k + 1 => (reportsOn f v k).bind fun v' =>
      (Store.appended v' (report (f k))).map fun w => some (.string w)

theorem exec_claims (hn : params.numClients < 2 ^ 63) (hk : k ≤ params.numClients) :
    ∃ ls, ∀ v, (machine (Fin params.numClients) params.numClients).exec (claimed params v 0) ls =
      some (claimed params v k) := by
  induction k with
  | zero => exact ⟨[], fun v => rfl⟩
  | succ k ih =>
    obtain ⟨ls, hls⟩ := ih (Nat.le_of_lt hk)
    exact ⟨_, fun v => Machine.exec_append_iff.mpr ⟨_, hls v, exec_claim hn hk⟩⟩

/-- The first `k` processes report, whatever `results` held. -/
theorem exec_reports (hn : params.numClients < 2 ^ 63) (f : Nat → UInt64) (hk : k ≤ params.numClients) :
    ∃ ls, ∀ r, (machine (Fin params.numClients) params.numClients).exec (initial _ r params) ls =
      (reportsOn f (r .results) k).map fun v => collecting params f v k := by
  induction k with
  | zero =>
    obtain ⟨ls, hls⟩ := exec_claims hn (Nat.le_refl params.numClients)
    refine ⟨ls ++ [.driver, .driver, .driver], fun r => ?_⟩
    rw [initial_eq, Machine.exec_append, hls (r .results)]
    exact exec_start hn f
  | succ k ih =>
    obtain ⟨ls, hls⟩ := ih (Nat.le_of_lt hk)
    refine ⟨ls ++ [.client ⟨k, hk⟩, .client ⟨k, hk⟩, .aggregate ⟨k, hk⟩ (f k), .client ⟨k, hk⟩,
      .client ⟨k, hk⟩], fun r => ?_⟩
    rw [Machine.exec_append, hls r, reportsOn]
    cases reportsOn f (r .results) k with
    | none => rfl
    | some v =>
      rw [Option.bind_some, Option.map_map]
      exact exec_report hn hk f

-- ---------------------------------------------------------------------------
-- What the reports come to
-- ---------------------------------------------------------------------------

variable {f : Nat → UInt64}

def reportsText (f : Nat → UInt64) (k : Nat) : Bytes := (List.range k).flatMap fun i => report (f i)

theorem reportsText_succ (f : Nat → UInt64) (k : Nat) :
    reportsText f (k + 1) = reportsText f k ++ report (f k) := by
  rw [reportsText, List.range_succ, List.flatMap_append, List.flatMap_singleton]
  rfl

theorem length_reportsText {l : Nat} (h : ∀ i < k, (report (f i)).length = l) :
    (reportsText f k).length = l * k := by
  induction k with
  | zero => rfl
  | succ k ih =>
    rw [reportsText_succ, List.length_append, ih fun i hi => h i (Nat.lt_succ_of_lt hi),
      h k (Nat.lt_succ_self k), Nat.mul_succ]

/-- On an empty store the reports fit as long as a text can be so long. -/
theorem reportsOn_none (h : (reportsText f (k + 1)).length ≤ Store.maxLength) :
    reportsOn f none (k + 1) = some (some (.string (reportsText f (k + 1)))) := by
  induction k with
  | zero =>
    rw [reportsText_succ]
    rfl
  | succ k ih =>
    rw [reportsText_succ, List.length_append] at h
    rw [reportsOn, ih (by omega), Option.bind_some, Store.appended, if_pos h, reportsText_succ f (k + 1)]
    rfl

theorem reportsOn_string {v : Option Value} (h : reportsOn f (some (.string t)) k = some v) :
    v = some (.string (t ++ reportsText f k)) := by
  induction k generalizing v with
  | zero =>
    obtain rfl := Option.some.inj h
    rw [reportsText, List.range_zero, List.flatMap_nil, List.append_nil]
  | succ k ih =>
    obtain ⟨v', hv', h⟩ := Option.bind_eq_some_iff.mp h
    obtain ⟨w, hw, rfl⟩ := Option.map_eq_some_iff.mp h
    rw [ih hv'] at hw
    obtain ⟨-, hw⟩ := Option.ite_none_right_eq_some.mp hw
    rw [reportsText_succ, ← List.append_assoc, ← Option.some.inj hw]

/-- Reports that have come behind a text have found room there. -/
theorem reportsOn_room {v : Option Value} (h : reportsOn f (some (.string t)) (k + 1) = some v) :
    t.length + (reportsText f (k + 1)).length ≤ Store.maxLength := by
  obtain ⟨v', hv', h⟩ := Option.bind_eq_some_iff.mp h
  obtain ⟨w, hw, rfl⟩ := Option.map_eq_some_iff.mp h
  rw [reportsOn_string hv'] at hw
  obtain ⟨hroom, -⟩ := Option.ite_none_right_eq_some.mp hw
  rw [reportsText_succ, List.length_append]
  rw [List.length_append] at hroom
  omega

theorem reportsOn_other : reportsOn f (some .other) (k + 1) = none := by
  induction k with
  | zero => rfl
  | succ k ih => rw [reportsOn, ih, Option.bind_none]

theorem sumBytes_append_reportsText (t : Bytes) (f : Nat → UInt64) (k : Nat) :
    sumBytes (t ++ reportsText f k) =
      (sumBytes t).map (· + ((List.range k).map fun i => (f i).toBitVec.toInt).sum) := by
  rw [reportsText, flatMap_report, sumBytes_append t (printable_reports _ _)]

-- ---------------------------------------------------------------------------
-- When two runs are independent
-- ---------------------------------------------------------------------------

/-- The driver sees nothing of what was in the store: any order of commands, stops and
throughputs is possible if it is on an empty store, and leaves the driver where it would be. -/
def Independent (params : BenchmarkParams) (r : Store Key) : Prop :=
  ∀ ls : List (Label (Fin params.numClients)),
    ((machine _ params.numClients).exec (initial _ r params) ls).map State.driver =
      ((machine _ params.numClients).exec (initial _ (fun _ => none) params) ls).map State.driver

/-- What `results` may hold. -/
def Harmless (n : Nat) : Option Value → Prop
  | none => True
  | some (.string t) => sumBytes t = some 0 ∧ Room n t
  | some .other => False

theorem Independent.of_harmless {r : Store Key} (hn : 1 ≤ params.numClients)
    (h : Harmless params.numClients (r .results)) : Independent params r := by
  intro ls
  rw [initial_withResults r]
  cases hv : r .results with
  | none =>
    have hsame : (initial (Fin params.numClients) (fun _ => none) params).withResults none =
        initial _ (fun _ => none) params := by
      rw [← initial_withResults (fun _ => none)]
    rw [hsame]
  | some v =>
    rw [hv] at h
    cases v with
    | string t =>
      obtain ⟨ht, hroom⟩ := h
      have hbehind : (initial (Fin params.numClients) (fun _ => none) params).withResults
          (some (.string t)) = (initial _ (fun _ => none) params).behind t := rfl
      rw [hbehind, exec_behind (inv_initial params) hn ht hroom, Option.map_map]
      rfl
    | other => exact h.elim

theorem Independent.of_le (r : Store Key) (hn : 2 ^ 63 ≤ params.numClients) : Independent params r := by
  intro ls
  rw [initial_withResults r, exec_withResults (inv_initial params) hn, Option.map_map]
  rfl

section
variable {r : Store Key} (h : Independent params r) (hn : params.numClients < 2 ^ 63)
include h hn

/-- Whatever can be reported on an empty store can be reported. -/
theorem Independent.reportsOn {v : Option Value} (hk : k ≤ params.numClients)
    (hv : reportsOn f none k = some v) : ∃ v', reportsOn f (r .results) k = some v' := by
  obtain ⟨ls, hls⟩ := exec_reports hn f hk
  have hdrivers := h ls
  rw [hls, hls, hv] at hdrivers
  cases hr : Multiclient.reportsOn f (r .results) k with
  | none =>
    rw [hr] at hdrivers
    cases hdrivers
  | some v' => exact ⟨v', rfl⟩

theorem Independent.room (hpos : 1 ≤ params.numClients) (hr : r .results = some (.string t)) :
    Room params.numClients t := by
  by_cases ht : t = []
  · exact Or.inl ht
  · refine Or.inr (Nat.not_lt.mp fun hlong => ?_)
    have hsize : 1 ≤ t.length := List.length_pos_iff.mpr ht
    have hmax : Store.maxLength = 536870912 := rfl
    -- `j` reports of the longest kind still fit, and a last one fits on an empty store only
    let j := (Store.maxLength - t.length) / 21
    let l := min 21 (Store.maxLength - 21 * j)
    let f : Nat → UInt64 := fun i => if i < j then ofLength 21 else ofLength l
    have hl : 2 ≤ l ∧ l ≤ 21 := by omega
    have htext : (reportsText f (j + 1)).length = 21 * j + l := by
      have hlong : ∀ i < j, (report (f i)).length = 21 := fun i hi => by
        rw [show f i = ofLength 21 from if_pos hi, length_report_ofLength (by decide)]
      rw [reportsText_succ, List.length_append, length_reportsText hlong,
        show f j = ofLength l from if_neg (Nat.lt_irrefl j), length_report_ofLength hl]
    obtain ⟨v, hv⟩ := h.reportsOn hn (k := j + 1) (by omega)
      (reportsOn_none (f := f) (by omega))
    rw [hr] at hv
    have hroom := reportsOn_room hv
    omega

theorem Independent.sumBytes (hpos : 1 ≤ params.numClients) (hr : r .results = some (.string t)) :
    sumBytes t = some 0 := by
  rcases h.room hn hpos hr with rfl | hroom
  · rfl
  · let f : Nat → UInt64 := fun _ => 0
    have hle := length_flatMap_le (List.range params.numClients) f
    rw [List.length_range] at hle
    have hnone : Multiclient.reportsOn f none params.numClients =
        some (some (.string (reportsText f params.numClients))) := by
      obtain ⟨k, hk⟩ := Nat.exists_eq_add_of_le' hpos
      rw [hk] at hle hroom ⊢
      exact reportsOn_none (Nat.le_trans hle (by omega))
    obtain ⟨v, hv⟩ := h.reportsOn hn (Nat.le_refl _) hnone
    obtain ⟨ls, hls⟩ := exec_reports hn f (Nat.le_refl params.numClients)
    have hdrivers := h (ls ++ [.driver, .driver])
    rw [Machine.exec_append, Machine.exec_append, hls, hls, hv, hnone] at hdrivers
    simp only [Option.map_some, Option.bind_some, exec_finish hn, Option.some.injEq] at hdrivers
    rw [hr] at hv
    rw [reportsOn_string hv] at hdrivers
    -- what the processes report on both sides is zero
    have hzero : ((List.range params.numClients).map fun i => (f i).toBitVec.toInt).sum = 0 :=
      List.sum_eq_zero fun z hz => (by obtain ⟨-, -, rfl⟩ := List.mem_map.mp hz; rfl)
    have hbytes : ∀ t, Lib.sumBytes (t ++ reportsText f params.numClients) = Lib.sumBytes t := fun t => by
      rw [sumBytes_append_reportsText, hzero]
      cases Lib.sumBytes t with
      | none => rfl
      | some z => exact congrArg some (Int.add_zero z)
    have hempty : Lib.sumBytes (reportsText f params.numClients) = some 0 := hbytes []
    simp only [finished, throughputIn, hbytes t, hempty, if_pos printable_zero] at hdrivers
    cases hz : Lib.sumBytes t with
    | none =>
      rw [hz] at hdrivers
      cases hdrivers
    | some z =>
      rw [hz] at hdrivers
      by_cases hp : Printable z
      · simp only [if_pos hp] at hdrivers
        cases hdrivers
        rfl
      · simp only [if_neg hp] at hdrivers
        cases hdrivers

end

/-- **One benchmark after another.** For every content of the store and any number of
clients: in every order of steps the driver passes the barriers and prints what it would on
an empty store, if and only if no client ever gets a place, or `results` did not exist, or it
was a text whose words sum up to zero, either empty or with room for the reports of all. -/
theorem independent_iff (params : BenchmarkParams) (r : Store Key) (hpos : 1 ≤ params.numClients) :
    Independent params r ↔
      2 ^ 63 ≤ params.numClients ∨ Harmless params.numClients (r .results) := by
  constructor
  · intro h
    by_cases hn : params.numClients < 2 ^ 63
    · refine Or.inr ?_
      cases hr : r .results with
      | none => exact trivial
      | some v =>
        cases v with
        | string t => exact ⟨h.sumBytes hn hpos hr, h.room hn hpos hr⟩
        | other =>
          -- the first report is refused
          obtain ⟨v', hv'⟩ := h.reportsOn (f := fun _ => 0) hn hpos
            (reportsOn_none (Nat.le_trans (length_flatMap_le (List.range 1) _) (by decide)))
          rw [hr, reportsOn_other] at hv'
          cases hv'
    · exact Or.inl (Nat.not_lt.mp hn)
  · rintro (hn | h)
    · exact Independent.of_le r hn
    · exact Independent.of_harmless hpos h

/-- One place, for a process with two threads. -/
def onePlace : BenchmarkParams := ⟨1, ['2'], ['n', 'o', 'd', 'e', '0'], 12345⟩

/-- An earlier run in which the threads had no throughput leaves a text that adds nothing. -/
theorem independent_iff_earlierRun :
    Independent onePlace fun k => if k = .results then some (.text [' ', '0']) else none :=
  (independent_iff onePlace _ (by decide)).mpr (Or.inr ⟨by decide, Or.inr (by decide)⟩)

/-- The client of a driver with one. -/
def lone : Fin 1 := .last 0

/-- The client, when its threads come to the throughput `v`, and the driver. -/
def oneRun (v : UInt64) : List (Label (Fin 1)) :=
  [.client lone, .client lone, .client lone, .driver, .driver, .driver, .client lone, .client lone,
    .aggregate lone v, .client lone, .client lone, .driver, .driver]

/-- A second run on the store of a first prints the sum of both. -/
theorem earlierRun_counted : ∃ s,
    (machine (Fin 1) 1).exec (initial _ (fun _ => none) onePlace) (oneRun 1000) = some s ∧
      s.driver.pc = .printed 1000 ∧ ¬ Independent onePlace s.store := by
  have hfirst : ((machine (Fin 1) 1).exec (initial _ (fun _ => none) onePlace) (oneRun 1000)).map
      (fun s => (s.driver.pc, s.store .results)) =
      some (.printed 1000, some (.text [' ', '1', '0', '0', '0'])) := by decide
  obtain ⟨s, hrun, hview⟩ := Option.map_eq_some_iff.mp hfirst
  obtain ⟨hpc, hresults⟩ := Prod.mk.inj hview
  refine ⟨s, hrun, hpc, fun h => ?_⟩
  have hdrivers := congrArg (Option.map Driver.pc) (h (oneRun 1234))
  rw [initial_withResults s.store, hresults, Option.map_map, Option.map_map] at hdrivers
  have hsecond : ((machine (Fin 1) 1).exec ((initial _ (fun _ => none) onePlace).withResults
      (some (.text [' ', '1', '0', '0', '0']))) (oneRun 1234)).map (Driver.pc ∘ State.driver) =
      some (.printed 2234) := by decide
  have halone : ((machine (Fin 1) 1).exec (initial _ (fun _ => none) onePlace) (oneRun 1234)).map
      (Driver.pc ∘ State.driver) = some (.printed 1234) := by decide
  exact absurd (hsecond.symm.trans (hdrivers.trans halone)) (by decide)

end EchoServer.Multiclient
