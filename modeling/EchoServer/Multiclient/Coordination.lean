import EchoServer.Lib.Tally
import EchoServer.Multiclient.Model
import Mathlib.Algebra.BigOperators.Group.Finset.Basic

/-!
# driver.py, multiclient.c — what the driver prints

The counter `numclients` hands out the places, `started` and `reported` are barriers, and
`results` collects the reports. What holds in every state is what each counter has counted
and what the driver has waited for.

What is assumed, and stated as a hypothesis or in the machine:

* the benchmark starts on a store that was empty before the driver wrote its parameters;
* every command of Redis is atomic, and its reply is the one to the command;
* a process comes to any throughput, below `2^63` where the printed sum is concerned, since
  a report shows it as a signed number.

Any number of processes come, in any order, and each of them and the driver may be killed
between any two commands.

Main results:

* `Inv.setClient` — a process that moves keeps all of it, if it keeps what its own keys say;
* `coordination` — no more processes than places, both barriers are passed by all of them,
  and the overall throughput is the sum of theirs.
-/

namespace EchoServer.Multiclient

open EchoServer.Lib

-- ---------------------------------------------------------------------------
-- How far a process and the driver are
-- ---------------------------------------------------------------------------

def Pc.rank : Pc → Nat
  | .tryClaimSpot => 0
  | .loadBenchParams => 1
  | .started => 2
  | .shouldMeasure => 3
  | .shouldReport => 4
  | .aggregating => 5
  | .putReport => 6
  | .reported => 7
  | .exited => 8

/-- The process has come back from the call `p`. -/
def Client.Past (p : Pc) (c : Client) : Prop := p.rank < c.pc.rank

def DriverPc.rank : DriverPc → Nat
  | .started => 0
  | .measure => 1
  | .report => 2
  | .reported => 3
  | .throughput => 4
  | .printed _ => 5

/-- The driver is behind `p`. -/
def Driver.Past (p : DriverPc) (d : Driver) : Prop := p.rank < d.pc.rank

instance (p : DriverPc) (d : Driver) : Decidable (d.Past p) :=
  inferInstanceAs (Decidable (p.rank < d.pc.rank))

theorem Pc.rank_injective (p q : Pc) (h : p.rank = q.rank) : p = q := by
  cases p <;> cases q <;> first | rfl | cases h

variable {κ : Type} {n : Nat} {s t : State κ} {c : κ} {x : Client} {r : Store Key} {p : Pc}

theorem Client.past_of_eq {y : Client} (h : x.pc = y.pc) : x.Past p ↔ y.Past p := by
  rw [Past, Past, h]

theorem Client.past_iff {y : Client} {q : Pc} (h : y.pc = q) : y.Past p ↔ p.rank < q.rank := by
  rw [Past, h]

theorem Client.past_goto {y : Client} {q : Pc} (h : p.rank < q.rank) : (y.goto q).Past p := h

/-- A process that goes from a call to the next one has come back from it. -/
theorem Client.past_next {y : Client} (h : x.pc.rank = y.pc.rank + 1) :
    x.Past p ↔ y.Past p ∨ p = y.pc := by
  rw [Past, Past, h, Nat.lt_succ_iff_lt_or_eq]
  exact or_congr_right ⟨Pc.rank_injective p y.pc, congrArg Pc.rank⟩

-- ---------------------------------------------------------------------------
-- The invariant
-- ---------------------------------------------------------------------------

/-- `k` counts the processes that are past `p`. -/
def Counter (k : Key) (p : Pc) (s : State κ) : Prop :=
  ∃ m : Nat, s.store k = some (.text (decimal m)) ∧ Tally (Client.Past p) s.clients m

/-- The places that are left, and those that are taken. -/
def Places (n : Nat) (s : State κ) : Prop :=
  ∃ (z : Int) (m : Nat), s.store .numclients = some (.text (decimal z)) ∧
    Tally (Client.Past .tryClaimSpot) s.clients m ∧ m + z.toNat = n ∧ (m = 0 ∨ n < 2 ^ 63)

/-- The flag is set once the driver is past `p`. -/
def Flag (k : Key) (p : DriverPc) (s : State κ) : Prop :=
  s.store k = some (.text (if s.driver.Past p then ['1'] else ['0']))

/-- The reports, in the order in which they came. -/
def Results (s : State κ) : Prop :=
  ∃ ws : List κ, ws.Nodup ∧ (∀ c, c ∈ ws ↔ (s.clients c).Past .putReport) ∧
    s.store.bytes .results = ws.flatMap fun c => report (s.clients c).throughput

/-- The number that a process's report shows. -/
def Client.shown (c : Client) : Int := c.throughput.toBitVec.toInt

/-- What holds in every state, in terms of how many processes have come how far: the counters
and `results` are what these have made of them, the flags what the driver has set, and the
driver has passed a barrier only when as many as there are places had come to it. -/
structure Inv (n : Nat) (s : State κ) : Prop where
  places : Places n s
  started : Counter .started .started s
  reported : Counter .reported .reported s
  shouldMeasure : Flag .shouldMeasure .measure s
  shouldReport : Flag .shouldReport .report s
  results : Results s
  measuring : s.driver.Past .started →
    ∃ m, Tally (Client.Past .started) s.clients m ∧ n ≤ m
  released : ∀ c, (s.clients c).Past .shouldReport → s.driver.Past .report
  collected : s.driver.Past .reported →
    ∃ m, Tally (Client.Past .reported) s.clients m ∧ n ≤ m
  printed : ∀ z, s.driver.pc = .printed z →
    ∃ A : Finset κ, A.card = n ∧ (∀ c, c ∈ A ↔ (s.clients c).Past .tryClaimSpot) ∧
      z = ∑ c ∈ A, (s.clients c).shown

/-- Once the driver has all reports, whoever has a place has reported. -/
theorem Inv.all_reported (h : Inv n s) (hd : s.driver.Past .reported)
    (hc : (s.clients c).Past .tryClaimSpot) : (s.clients c).Past .reported := by
  obtain ⟨k, hk, hle⟩ := h.collected hd
  obtain ⟨_, m, -, hm, hsum, -⟩ := h.places
  refine hk.all (fun c hpast => ?_) hm (by omega) hc
  exact Nat.lt_trans (by decide) hpast

/-- A process that moves, to the state `x`, while the store comes to be `r`. What its own
call changed is given; the rest follows. -/
theorem Inv.setClient [DecidableEq κ] (h : Inv n s) (hplaces : Places n (s.setClient c x r))
    (hstarted : Counter .started .started (s.setClient c x r))
    (hreported : Counter .reported .reported (s.setClient c x r))
    (hmeasure : r .shouldMeasure = s.store .shouldMeasure)
    (hreport : r .shouldReport = s.store .shouldReport)
    (hresults : Results (s.setClient c x r))
    (hpast : ∀ p, (s.clients c).Past p → x.Past p)
    (hreleased : x.Past .shouldReport → s.driver.Past .report)
    (hsame : (s.clients c).Past .putReport → x.throughput = (s.clients c).throughput) :
    Inv n (s.setClient c x r) := by
  have hmono : ∀ p d, (s.clients d).Past p → ((s.setClient c x r).clients d).Past p := by
    intro p d hd
    show (Function.update s.clients c x d).Past p
    by_cases hdc : d = c
    · subst hdc
      rw [Function.update_self]
      exact hpast p hd
    · rwa [Function.update_of_ne hdc]
  refine ⟨hplaces, hstarted, hreported, hmeasure.trans h.shouldMeasure, hreport.trans h.shouldReport,
    hresults, fun hd => ?_, fun d hd => ?_, fun hd => ?_, fun z hz => ?_⟩
  · obtain ⟨m, hm, hle⟩ := h.measuring hd
    obtain ⟨m', -, hm'⟩ := hstarted
    exact ⟨m', hm', Nat.le_trans hle (hm.le (hmono _) hm')⟩
  · exact forall_update (P := fun y : Client => y.Past .shouldReport → s.driver.Past .report) h.released
      hreleased d hd
  · obtain ⟨m, hm, hle⟩ := h.collected hd
    obtain ⟨m', -, hm'⟩ := hreported
    exact ⟨m', hm', Nat.le_trans hle (hm.le (hmono _) hm')⟩
  · have hd : s.driver.Past .reported := by
      have hz' : s.driver.pc = .printed z := hz
      show 3 < s.driver.pc.rank
      rw [hz']
      exact Nat.lt_add_of_pos_right (by decide : 0 < 2)
    obtain ⟨A, hcard, hA, hsum⟩ := h.printed z hz
    -- nobody can take a place any more, and nobody who has one has anything left to do
    obtain ⟨_, m', -, hm', hn', -⟩ := hplaces
    have hold : Tally (Client.Past .tryClaimSpot) s.clients n := ⟨A, hA, hcard⟩
    refine ⟨A, hcard, fun d => ⟨fun hd => hmono _ d ((hA d).mp hd), fun hd => ?_⟩, ?_⟩
    · exact (hA d).mpr (hold.all (hmono _) hm' (by omega) hd)
    · rw [hsum]
      refine Finset.sum_congr rfl fun d hdA => ?_
      show (s.clients d).shown = (Function.update s.clients c x d).shown
      by_cases hdc : d = c
      · subst hdc
        have hput : (s.clients d).Past .putReport :=
          Nat.lt_trans (by decide) (h.all_reported hd ((hA d).mp hdA))
        rw [Function.update_self, Client.shown, Client.shown, hsame hput]
      · rw [Function.update_of_ne hdc]

-- ---------------------------------------------------------------------------
-- What a process does
-- ---------------------------------------------------------------------------

/-- Everything a process can do to itself and to the store. -/
inductive Did (r : Store Key) (c : Client) : Client → Store Key → Prop
  | idle (x : Client) : x.pc = c.pc → x.throughput = c.throughput → Did r c x r
  | refused : c.pc = .tryClaimSpot →
      (∀ z r', r.decr .numclients = (.integer z, r') → z < 0) →
      Did r c c.stop (r.decr .numclients).2
  | claimed (z : Int) (r' : Store Key) : c.pc = .tryClaimSpot →
      r.decr .numclients = (.integer z, r') → 0 ≤ z → Did r c (c.goto .loadBenchParams) r'
  | loaded (params : BenchParams) : c.pc = .loadBenchParams →
      Did r c ({ c with params := some params }.goto .started) r
  | started : c.pc = .started → Did r c (c.goto .shouldMeasure) (dcounterIncr r .started 1)
  | measuring : c.pc = .shouldMeasure → Did r c (c.goto .shouldReport) r
  | reporting : c.pc = .shouldReport → dflagWait r .shouldReport = some true →
      Did r c (c.goto .aggregating) r
  | aggregated (v : UInt64) : c.pc = .aggregating →
      Did r c { c.goto .putReport with throughput := v } r
  | put : c.pc = .putReport →
      Did r c (c.goto .reported) (r.set .results (r.bytes .results ++ report c.throughput))
  | reported : c.pc = .reported → Did r c (c.goto .exited) (dcounterIncr r .reported 1)

/-- `try_claim_spot` in terms of the reply to its `DECR`: a place was claimed when that is not
negative. -/
theorem tryClaimSpot_cases (r : Store Key) :
    (∃ z r', r.decr .numclients = (.integer z, r') ∧ tryClaimSpot r = (decide (0 ≤ z), r')) ∨
    (∀ z r', r.decr .numclients ≠ (.integer z, r')) ∧
      tryClaimSpot r = (false, (r.decr .numclients).2) := by
  unfold tryClaimSpot
  cases r.decr .numclients with
  | mk reply r' =>
    cases reply with
    | integer z => exact Or.inl ⟨z, r', rfl, rfl⟩
    | status | string | nil | error | array =>
      refine Or.inr ⟨fun z r'' h => ?_, rfl⟩
      cases h

/-- `put_report` appends the report, unless that is refused; then nothing has changed. -/
theorem putReport_cases (r : Store Key) (v : UInt64) :
    (∃ t, Store.appended (r .results) (report v) = some t ∧
      putReport r v = (true, r.set .results t)) ∨
    (Store.appended (r .results) (report v) = none ∧ putReport r v = (false, r)) := by
  unfold putReport
  rw [r.append_eq]
  cases Store.appended (r .results) (report v) with
  | some t => exact Or.inl ⟨t, rfl, rfl⟩
  | none => exact Or.inr ⟨rfl, rfl⟩

/-- Everything a call of `bench` can do to Redis and to its process. The invariant is proved
from these cases. -/
theorem did_of_bench {y : Client} {r' : Store Key} (h : y.bench r = some (x, r')) :
    Did r y x r' := by
  unfold Client.bench at h
  cases hpc : y.pc with
  | tryClaimSpot =>
    simp only [hpc] at h
    cases h
    rcases tryClaimSpot_cases r with ⟨z, r₁, hdecr, htry⟩ | ⟨hno, htry⟩
    · rw [htry]
      by_cases hz : 0 ≤ z
      · simp only [hz, decide_true, if_true]
        exact .claimed z r₁ hpc hdecr hz
      · simp only [hz, decide_false, Bool.false_eq_true, if_false]
        have hrefused := Did.refused (r := r) hpc fun z' r' hdecr' => by
          rw [hdecr] at hdecr'
          cases hdecr'
          omega
        rwa [hdecr] at hrefused
    · rw [htry]
      exact .refused hpc fun z r' hdecr => absurd hdecr (hno z r')
  | loadBenchParams =>
    simp only [hpc] at h
    split at h
    · cases h
      exact .loaded _ hpc
    · cases h
      exact .idle _ rfl rfl
  | started =>
    simp only [hpc] at h
    cases h
    exact .started hpc
  | shouldMeasure =>
    simp only [hpc] at h
    cases h
    unfold Client.poll
    split
    · exact .measuring hpc
    · exact .idle _ rfl rfl
    · exact .idle _ rfl rfl
  | shouldReport =>
    simp only [hpc] at h
    cases h
    unfold Client.poll
    split
    · rename_i hflag
      exact .reporting hpc hflag
    · exact .idle _ rfl rfl
    · exact .idle _ rfl rfl
  | putReport =>
    simp only [hpc] at h
    rcases putReport_cases r y.throughput with ⟨t, happend, hput⟩ | ⟨-, hput⟩
    · simp only [hput, if_true] at h
      cases h
      rw [Store.appended_eq happend]
      exact .put hpc
    · simp only [hput] at h
      cases h
      exact .idle _ rfl rfl
  | reported =>
    simp only [hpc] at h
    cases h
    exact .reported hpc
  | aggregating | exited =>
    simp only [hpc] at h
    cases h

-- ---------------------------------------------------------------------------
-- A process keeps the invariant
-- ---------------------------------------------------------------------------

section
variable [DecidableEq κ]

theorem Counter.frame {k : Key} (h : Counter k p s) (hk : r k = s.store k)
    (hx : x.Past p ↔ (s.clients c).Past p) : Counter k p (s.setClient c x r) := by
  obtain ⟨m, hm, htally⟩ := h
  exact ⟨m, hk.trans hm, htally.update_same hx⟩

/-- One more has come past `p`, and has counted itself. -/
theorem Counter.incr {k : Key} (h : Counter k p s) (hc : ¬ (s.clients c).Past p) (hx : x.Past p)
    (hroom : ∀ m, Tally (Client.Past p) (Function.update s.clients c x) m → m < 2 ^ 63) :
    Counter k p (s.setClient c x (dcounterIncr s.store k 1)) := by
  obtain ⟨m, hm, htally⟩ := h
  have htally' := htally.update_succ hc hx
  have hlt := hroom _ htally'
  refine ⟨m + 1, ?_, htally'⟩
  show dcounterIncr s.store k 1 k = _
  rw [dcounterIncr, Store.incrBy_counter hm (by omega) (by omega)]
  exact Store.set_self (r := s.store) (utf8 (decimal (m + 1)))

theorem Places.frame (h : Places n s) (hk : r .numclients = s.store .numclients)
    (hx : x.Past .tryClaimSpot ↔ (s.clients c).Past .tryClaimSpot) :
    Places n (s.setClient c x r) := by
  obtain ⟨z, m, hz, htally, hsum, hsmall⟩ := h
  exact ⟨z, m, hk.trans hz, htally.update_same hx, hsum, hsmall⟩

omit [DecidableEq κ] in
/-- What `DECR` does to the places. -/
theorem Places.decr (h : Places n s) :
    ∃ (z : Int) (m : Nat), Tally (Client.Past .tryClaimSpot) s.clients m ∧ m + z.toNat = n ∧
      (m = 0 ∨ n < 2 ^ 63) ∧ s.store .numclients = some (.text (decimal z)) ∧
      (s.store.decr .numclients = (.error, s.store) ∨ z < 2 ^ 63 ∧
        s.store.decr .numclients =
          (.integer (z - 1), s.store.set .numclients (utf8 (decimal (z - 1))))) := by
  obtain ⟨z, m, hz, htally, hsum, hsmall⟩ := h
  refine ⟨z, m, htally, hsum, hsmall, hz, ?_⟩
  by_cases hrange : (-2 ^ 63 ≤ z ∧ z < 2 ^ 63) ∧ -2 ^ 63 ≤ z + -1 ∧ z + -1 < 2 ^ 63
  · exact Or.inr ⟨hrange.1.2, Store.incrBy_counter hz hrange.1 hrange.2⟩
  · exact Or.inl (Store.incrBy_error hz (Classical.not_and_iff_not_or_not.mp hrange))

theorem Places.refused (h : Places n s) (hx : x.pc = (s.clients c).pc)
    (hno : ∀ z r', s.store.decr .numclients = (.integer z, r') → z < 0) :
    Places n (s.setClient c x (s.store.decr .numclients).2) := by
  obtain ⟨z, m, htally, hsum, hsmall, hz, hdecr | ⟨-, hdecr⟩⟩ := h.decr
  · rw [hdecr]
    exact Places.frame ⟨z, m, hz, htally, hsum, hsmall⟩ rfl (Client.past_of_eq hx)
  · have hneg := hno _ _ hdecr
    rw [hdecr]
    refine ⟨z - 1, m, Store.set_self (r := s.store) (k := .numclients) _, htally.update_same (Client.past_of_eq hx), ?_, hsmall⟩
    omega

/-- A process that gets a place: the counter is lower by one, and one more process has it. -/
theorem Places.claimed {z : Int} (h : Places n s) (hc : ¬ (s.clients c).Past .tryClaimSpot)
    (hx : x.Past .tryClaimSpot) (hdecr : s.store.decr .numclients = (.integer z, r)) (hz : 0 ≤ z) :
    Places n (s.setClient c x r) ∧ ∀ k, k ≠ .numclients → r k = s.store k := by
  obtain ⟨z', m, htally, hsum, hsmall, -, herror | ⟨hlt, hdecr'⟩⟩ := h.decr
  · rw [herror] at hdecr
    cases hdecr
  · rw [hdecr'] at hdecr
    obtain ⟨hz', rfl⟩ := Prod.mk.inj hdecr
    cases hz'
    refine ⟨⟨z' - 1, m + 1, Store.set_self (r := s.store) (k := .numclients) _, htally.update_succ hc hx, ?_, ?_⟩,
      fun k hk => Store.set_of_ne _ hk⟩
    · omega
    · omega

theorem Results.frame (h : Results s) (hk : r .results = s.store .results)
    (hx : x.Past .putReport ↔ (s.clients c).Past .putReport)
    (hsame : (s.clients c).Past .putReport → x.throughput = (s.clients c).throughput) :
    Results (s.setClient c x r) := by
  obtain ⟨ws, hnodup, hws, htext⟩ := h
  have hclients : ∀ d, (Function.update s.clients c x d).Past .putReport ↔
      (s.clients d).Past .putReport := update_iff hx
  refine ⟨ws, hnodup, fun d => (hws d).trans (hclients d).symm, ?_⟩
  show Store.bytes r .results = _
  rw [Store.bytes, hk, ← Store.bytes, htext]
  refine List.flatMap_congr fun d hd => ?_
  show report (s.clients d).throughput = report (Function.update s.clients c x d).throughput
  by_cases hdc : d = c
  · subst hdc
    rw [Function.update_self, hsame ((hws d).mp hd)]
  · rw [Function.update_of_ne hdc]

/-- A report is appended behind those that are there. -/
theorem Results.put (h : Results s) (hc : ¬ (s.clients c).Past .putReport)
    (hx : x.Past .putReport) (hsame : x.throughput = (s.clients c).throughput) :
    Results (s.setClient c x
      (s.store.set .results (s.store.bytes .results ++ report (s.clients c).throughput))) := by
  obtain ⟨ws, hnodup, hws, htext⟩ := h
  have hnot : c ∉ ws := fun hmem => hc ((hws c).mp hmem)
  refine ⟨ws ++ [c], ?_, fun d => ?_, ?_⟩
  · exact hnodup.append (List.nodup_singleton c) (by simpa using hnot)
  · show d ∈ ws ++ [c] ↔ (Function.update s.clients c x d).Past .putReport
    rw [List.mem_append, List.mem_singleton]
    by_cases hdc : d = c
    · subst hdc
      rw [Function.update_self]
      exact iff_of_true (Or.inr rfl) hx
    · rw [Function.update_of_ne hdc, or_iff_left hdc]
      exact hws d
  · show Store.bytes (s.store.set .results _) .results = (ws ++ [c]).flatMap fun d =>
      report (Function.update s.clients c x d).throughput
    have hrest : (ws.flatMap fun d => report (Function.update s.clients c x d).throughput) =
        ws.flatMap fun d => report (s.clients d).throughput := by
      refine List.flatMap_congr fun d hd => ?_
      rw [Function.update_of_ne (ne_of_mem_of_not_mem hd hnot)]
    rw [List.flatMap_append, hrest, List.flatMap_singleton, Function.update_self, hsame, ← htext]
    simp only [Store.bytes, Store.set_self]

/-- The key that a call changes. -/
def Pc.key : Pc → Option Key
  | .tryClaimSpot => some .numclients
  | .started => some .started
  | .putReport => some .results
  | .reported => some .reported
  | _ => none

omit [DecidableEq κ] in
/-- What a call that has come back owes to the invariant. -/
def Due (n : Nat) (s : State κ) : Pc → Prop
  | .tryClaimSpot => Places n s
  | .started => Counter .started .started s
  | .shouldReport => s.driver.Past .report
  | .putReport => Results s
  | .reported => Counter .reported .reported s
  | _ => True

/-- A process that comes back from a call and goes to the next one. -/
theorem Inv.next (h : Inv n s) (hrank : x.pc.rank = (s.clients c).pc.rank + 1)
    (hkeep : ∀ k, (s.clients c).pc.key ≠ some k → r k = s.store k)
    (hsame : (s.clients c).Past .putReport → x.throughput = (s.clients c).throughput)
    (hdue : Due n (s.setClient c x r) (s.clients c).pc) : Inv n (s.setClient c x r) := by
  have hpast : ∀ p, p ≠ (s.clients c).pc → (x.Past p ↔ (s.clients c).Past p) :=
    fun p hp => (Client.past_next hrank).trans (or_iff_left hp)
  have hother : ∀ p k, p ≠ (s.clients c).pc → p.key = some k → r k = s.store k := by
    intro p k hp hk
    refine hkeep k fun hk' => hp ?_
    revert hk hk'
    cases p <;> cases (s.clients c).pc <;> simp [Pc.key] <;> rintro rfl <;> simp
  have hflag : ∀ k, (∀ p : Pc, p.key ≠ some k) → r k = s.store k := fun k hk => hkeep k (hk _)
  refine h.setClient ?_ ?_ ?_ (hflag _ ?_) (hflag _ ?_) ?_ (fun p hp => ?_) (fun hx => ?_) hsame
  · by_cases hp : Pc.tryClaimSpot = (s.clients c).pc
    · rwa [← hp] at hdue
    · exact h.places.frame (hother _ _ hp rfl) (hpast _ hp)
  · by_cases hp : Pc.started = (s.clients c).pc
    · rwa [← hp] at hdue
    · exact h.started.frame (hother _ _ hp rfl) (hpast _ hp)
  · by_cases hp : Pc.reported = (s.clients c).pc
    · rwa [← hp] at hdue
    · exact h.reported.frame (hother _ _ hp rfl) (hpast _ hp)
  · intro p
    cases p <;> simp [Pc.key]
  · intro p
    cases p <;> simp [Pc.key]
  · by_cases hp : Pc.putReport = (s.clients c).pc
    · rwa [← hp] at hdue
    · exact h.results.frame (hother _ _ hp rfl) (hpast _ hp) hsame
  · exact (Client.past_next hrank).mpr (Or.inl hp)
  · by_cases hp : Pc.shouldReport = (s.clients c).pc
    · rwa [← hp] at hdue
    · exact h.released c ((hpast _ hp).mp hx)

/-- There is room for one more in every counter: no more have come past any call than
have a place. -/
theorem Inv.room (h : Inv n s) (hc : (s.clients c).Past .tryClaimSpot)
    (hx : x.Past .tryClaimSpot) {m : Nat}
    (htally : Tally (Client.Past p) (Function.update s.clients c x) m) : m < 2 ^ 63 := by
  obtain ⟨_, k, -, hk, hsum, hsmall⟩ := h.places
  have hk' : Tally (Client.Past .tryClaimSpot) (Function.update s.clients c x) k :=
    hk.update_same (iff_of_true hx hc)
  have hle : m ≤ k := htally.le (fun d hd => Nat.lt_of_le_of_lt (Nat.zero_le p.rank) hd) hk'
  have hpos := hk.pos hc
  omega

/-- The step lemma for the processes. -/
theorem Inv.did (h : Inv n s) (hdid : Did s.store (s.clients c) x r) :
    Inv n (s.setClient c x r) := by
  cases hdid with
  | idle _ hpc hthr =>
    have hpast : ∀ p, x.Past p ↔ (s.clients c).Past p := fun p => Client.past_of_eq hpc
    exact h.setClient (h.places.frame rfl (hpast _)) (h.started.frame rfl (hpast _))
      (h.reported.frame rfl (hpast _)) rfl rfl (h.results.frame rfl (hpast _) fun _ => hthr)
      (fun p => (hpast p).mpr) (fun hx => h.released c ((hpast _).mp hx)) fun _ => hthr
  | refused hpc hno =>
    have hkeep : ∀ k, k ≠ .numclients → (s.store.decr .numclients).2 k = s.store k :=
      fun k hk => Store.incrBy_of_ne _ hk
    exact h.setClient (h.places.refused rfl hno) (h.started.frame (hkeep _ (by decide)) Iff.rfl)
      (h.reported.frame (hkeep _ (by decide)) Iff.rfl) (hkeep _ (by decide)) (hkeep _ (by decide))
      (h.results.frame (hkeep _ (by decide)) Iff.rfl fun _ => rfl) (fun _ => id)
      (fun hx => h.released c hx) fun _ => rfl
  | claimed z _ hpc hdecr hz =>
    have hnot : ¬ (s.clients c).Past .tryClaimSpot := fun h => absurd ((Client.past_iff hpc).mp h) (by decide)
    obtain ⟨hplaces, hkeep⟩ :=
      h.places.claimed (x := (s.clients c).goto .loadBenchParams) hnot
        (Client.past_goto (by decide)) hdecr hz
    refine h.next (by rw [hpc]; rfl) (fun k hk => hkeep k fun hk' => hk ?_) (fun _ => rfl)
      (by rw [hpc]; exact hplaces)
    rw [hpc, hk']
    rfl
  | started hpc =>
    have hclaimed : (s.clients c).Past .tryClaimSpot := (Client.past_iff hpc).mpr (by decide)
    have hnot : ¬ (s.clients c).Past .started := fun h => absurd ((Client.past_iff hpc).mp h) (by decide)
    have hcounter := h.started.incr (x := (s.clients c).goto .shouldMeasure) hnot
      (Client.past_goto (by decide))
      fun m => h.room hclaimed (Client.past_goto (by decide))
    refine h.next (by rw [hpc]; rfl) (fun k hk => Store.incrBy_of_ne _ fun hk' => hk ?_)
      (fun _ => rfl) (by rw [hpc]; exact hcounter)
    rw [hpc, hk']
    rfl
  | reported hpc =>
    have hclaimed : (s.clients c).Past .tryClaimSpot := (Client.past_iff hpc).mpr (by decide)
    have hnot : ¬ (s.clients c).Past .reported := fun h => absurd ((Client.past_iff hpc).mp h) (by decide)
    have hcounter := h.reported.incr (x := (s.clients c).goto .exited) hnot
      (Client.past_goto (by decide))
      fun m => h.room hclaimed (Client.past_goto (by decide))
    refine h.next (by rw [hpc]; rfl) (fun k hk => Store.incrBy_of_ne _ fun hk' => hk ?_)
      (fun _ => rfl) (by rw [hpc]; exact hcounter)
    rw [hpc, hk']
    rfl
  | put hpc =>
    have hnot : ¬ (s.clients c).Past .putReport := fun h => absurd ((Client.past_iff hpc).mp h) (by decide)
    have hresults := h.results.put (x := (s.clients c).goto .reported) hnot
      (Client.past_goto (by decide)) rfl
    refine h.next (by rw [hpc]; rfl) (fun k hk => Store.set_of_ne _ fun hk' => hk ?_)
      (fun _ => rfl) (by rw [hpc]; exact hresults)
    rw [hpc, hk']
    rfl
  | reporting hpc hflag =>
    refine h.next (by rw [hpc]; rfl) (fun _ _ => rfl) (fun _ => rfl) ?_
    rw [hpc]
    show s.driver.Past .report
    -- the flag is not zero, so the driver has set it
    by_contra hnot
    have hzero := h.shouldReport
    rw [Flag, if_neg hnot] at hzero
    rw [dflagWait, Store.get, hzero] at hflag
    exact absurd hflag (by decide)
  | aggregated v hpc =>
    refine h.next (by rw [hpc]; rfl) (fun _ _ => rfl) (fun hpast => ?_) ?_
    · exact absurd ((Client.past_iff hpc).mp hpast) (by decide)
    · rw [hpc]
      exact trivial
  | loaded _ hpc | measuring hpc =>
    refine h.next (by rw [hpc]; rfl) (fun _ _ => rfl) (fun _ => rfl) ?_
    rw [hpc]
    exact trivial

end

-- ---------------------------------------------------------------------------
-- What the driver does
-- ---------------------------------------------------------------------------

/-- Everything the driver can do to itself and to the store. -/
inductive Drove (n : Nat) (r : Store Key) (d : Driver) : Driver → Store Key → Prop
  | idle (d' : Driver) : d'.pc = d.pc → Drove n r d d' r
  | started : d.pc = .started → dcounterWait r .started n = some true → Drove n r d (d.goto .measure) r
  | measure : d.pc = .measure → Drove n r d (d.goto .report) (dflagSet r .shouldMeasure)
  | report : d.pc = .report → Drove n r d (d.goto .reported) (dflagSet r .shouldReport)
  | collected : d.pc = .reported → dcounterWait r .reported n = some true →
      Drove n r d (d.goto .throughput) r
  | printed (z : Int) : d.pc = .throughput → getThroughput r = some z →
      Drove n r d (d.goto (.printed z)) r

/-- Everything a call of the driver can do. -/
theorem drove_of_main {d d' : Driver} {r' : Store Key} (h : d.main n r = some (d', r')) :
    Drove n r d d' r' := by
  unfold Driver.main at h
  cases hpc : d.pc with
  | started =>
    simp only [hpc] at h
    cases h
    unfold Driver.poll
    split
    · rename_i hwait
      exact .started hpc hwait
    · exact .idle _ rfl
    · exact .idle _ rfl
  | measure =>
    simp only [hpc] at h
    cases h
    exact .measure hpc
  | report =>
    simp only [hpc] at h
    cases h
    exact .report hpc
  | reported =>
    simp only [hpc] at h
    cases h
    unfold Driver.poll
    split
    · rename_i hwait
      exact .collected hpc hwait
    · exact .idle _ rfl
    · exact .idle _ rfl
  | throughput =>
    simp only [hpc] at h
    split at h
    · rename_i z hz
      cases h
      split
      · exact .printed z hpc hz
      · exact .idle _ rfl
    · cases h
      exact .idle _ rfl
  | printed =>
    simp only [hpc] at h
    cases h

/-- A counter is looked at. -/
theorem dcounterWait_eq {r : Store Key} {k : Key} {z : Int} (h : r k = some (.text (decimal z))) :
    dcounterWait r k n = (pyInt (decimal z)).map fun z => decide ((n : Int) ≤ z) := by
  simp only [dcounterWait, Store.get, h, Value.text, decode_utf8 (ascii_decimal z), Option.bind_some]

/-- What the driver has waited for has happened. -/
theorem Counter.wait {k : Key} (h : Counter k p s) (hwait : dcounterWait s.store k n = some true) :
    ∃ m, Tally (Client.Past p) s.clients m ∧ n ≤ m := by
  obtain ⟨m, hm, htally⟩ := h
  refine ⟨m, htally, ?_⟩
  rw [dcounterWait_eq hm, pyInt_decimal] at hwait
  split at hwait
  · exact Int.ofNat_le.mp (of_decide_eq_true (Option.some.inj hwait))
  · cases hwait

theorem flatMap_report {ι : Type} (ws : List ι) (f : ι → UInt64) :
    (ws.flatMap fun c => report (f c)) =
      utf8 ((ws.map fun c => (f c).toBitVec.toInt).flatMap fun z => ' ' :: decimal z) := by
  rw [List.flatMap_map, utf8, List.flatMap_assoc]
  rfl

/-- What is reported has 64 bits. -/
theorem printable_reports {ι : Type} (ws : List ι) (f : ι → UInt64) :
    ∀ z ∈ ws.map fun c => (f c).toBitVec.toInt, Printable z := by
  intro z hz
  obtain ⟨c, -, rfl⟩ := List.mem_map.mp hz
  exact printable_of_long ⟨BitVec.le_toInt _, BitVec.toInt_lt⟩

/-- The words of `results` sum up to what the processes have reported. -/
theorem Results.sum [DecidableEq κ] (h : Results s) {z : Int} (hz : getThroughput s.store = some z) :
    ∃ A : Finset κ, (∀ c, c ∈ A ↔ (s.clients c).Past .putReport) ∧ z = ∑ c ∈ A, (s.clients c).shown := by
  obtain ⟨ws, hnodup, hws, htext⟩ := h
  refine ⟨ws.toFinset, fun c => by rw [List.mem_toFinset, hws], ?_⟩
  have hget : sumBytes (s.store.bytes .results) = some z := by
    unfold getThroughput Store.get at hz
    unfold Store.bytes
    cases hres : s.store .results with
    | none => simp [hres] at hz
    | some v =>
      cases v with
      | string t => simpa [hres] using hz
      | other => simp [hres] at hz
  rw [htext, flatMap_report, sumBytes_flatMap (printable_reports ws _), Option.some.injEq] at hget
  rw [List.sum_toFinset _ hnodup]
  exact hget.symm

theorem Driver.past_goto (p q : DriverPc) (d : Driver) : (d.goto q).Past p ↔ p.rank < q.rank :=
  Iff.rfl

theorem DriverPc.past_iff {q : DriverPc} {d : Driver} {p : DriverPc} (h : d.pc = q) :
    d.Past p ↔ p.rank < q.rank := by
  rw [Driver.Past, h]

/-- The driver moves, to the state `d`, while the store comes to be `r`. -/
theorem Inv.setDriver {d : Driver} (h : Inv n s)
    (hkeep : ∀ k, k ≠ .shouldMeasure → k ≠ .shouldReport → r k = s.store k)
    (hmeasure : Flag .shouldMeasure .measure { s with driver := d, store := r })
    (hreport : Flag .shouldReport .report { s with driver := d, store := r })
    (hmono : s.driver.Past .report → d.Past .report)
    (hmeasuring : d.Past .started → ∃ m, Tally (Client.Past .started) s.clients m ∧ n ≤ m)
    (hcollected : d.Past .reported → ∃ m, Tally (Client.Past .reported) s.clients m ∧ n ≤ m)
    (hprinted : ∀ z, d.pc = .printed z → ∃ A : Finset κ, A.card = n ∧
      (∀ c, c ∈ A ↔ (s.clients c).Past .tryClaimSpot) ∧ z = ∑ c ∈ A, (s.clients c).shown) :
    Inv n { s with driver := d, store := r } where
  places := by
    obtain ⟨z, m, hz, hrest⟩ := h.places
    exact ⟨z, m, (hkeep _ (by decide) (by decide)).trans hz, hrest⟩
  started := by
    obtain ⟨m, hm, htally⟩ := h.started
    exact ⟨m, (hkeep _ (by decide) (by decide)).trans hm, htally⟩
  reported := by
    obtain ⟨m, hm, htally⟩ := h.reported
    exact ⟨m, (hkeep _ (by decide) (by decide)).trans hm, htally⟩
  shouldMeasure := hmeasure
  shouldReport := hreport
  results := by
    obtain ⟨ws, hnodup, hws, htext⟩ := h.results
    refine ⟨ws, hnodup, hws, ?_⟩
    show Store.bytes r .results = _
    rw [Store.bytes, hkeep _ (by decide) (by decide), ← Store.bytes, htext]
  measuring := hmeasuring
  released c hc := hmono (h.released c hc)
  collected := hcollected
  printed := hprinted

theorem Flag.frame {k : Key} {q : DriverPc} {d : Driver} (h : Flag k q s) (hk : r k = s.store k)
    (hd : d.Past q ↔ s.driver.Past q) : Flag k q { s with driver := d, store := r } := by
  show r k = _
  rw [hk, h]
  simp only [hd]

theorem Flag.set {k : Key} {q : DriverPc} {d : Driver} (hd : d.Past q) :
    Flag k q { s with driver := d, store := dflagSet s.store k } := by
  show dflagSet s.store k k = _
  rw [dflagSet, Store.set_self, if_pos hd]
  rfl

/-- At the end every place is taken, and all who have one are past every call. -/
theorem Inv.summed [DecidableEq κ] (h : Inv n s) (hd : s.driver.Past .reported) {z : Int}
    (hz : getThroughput s.store = some z) : ∃ A : Finset κ, A.card = n ∧
      (∀ c, c ∈ A ↔ (s.clients c).Past .tryClaimSpot) ∧ z = ∑ c ∈ A, (s.clients c).shown := by
  obtain ⟨A, hA, hsum⟩ := h.results.sum hz
  have hclaimed : ∀ c, c ∈ A ↔ (s.clients c).Past .tryClaimSpot := fun c => by
    rw [hA]
    exact ⟨fun hc => Nat.lt_trans (by decide) hc,
      fun hc => Nat.lt_trans (by decide) (h.all_reported hd hc)⟩
  obtain ⟨k, hk, hle⟩ := h.collected hd
  obtain ⟨_, m, -, hm, hn, -⟩ := h.places
  have hcard : A.card = m := Tally.unique ⟨A, hclaimed, rfl⟩ hm
  have hkm : k ≤ m := hk.le (fun c hc => Nat.lt_trans (by decide) hc) hm
  exact ⟨A, by omega, hclaimed, hsum⟩

/-- The step lemma for the driver. -/
theorem Inv.drove [DecidableEq κ] {d : Driver} (h : Inv n s) (hdid : Drove n s.store s.driver d r) :
    Inv n { s with driver := d, store := r } := by
  cases hdid with
  | idle _ hpc =>
    have hpast : ∀ q, d.Past q ↔ s.driver.Past q := fun q => by rw [Driver.Past, Driver.Past, hpc]
    exact h.setDriver (fun _ _ _ => rfl) (h.shouldMeasure.frame rfl (hpast _))
      (h.shouldReport.frame rfl (hpast _)) (hpast _).mpr (fun hd => h.measuring ((hpast _).mp hd))
      (fun hd => h.collected ((hpast _).mp hd)) fun z hz => h.printed z (hpc ▸ hz)
  | started hpc hwait =>
    refine h.setDriver (fun _ _ _ => rfl) (h.shouldMeasure.frame rfl ?_)
      (h.shouldReport.frame rfl ?_) (fun hd => ?_) (fun _ => h.started.wait hwait) (fun hd => ?_)
      fun z hz => by cases hz
    · rw [Driver.past_goto, DriverPc.past_iff hpc]
      decide
    · rw [Driver.past_goto, DriverPc.past_iff hpc]
      decide
    · exact absurd ((DriverPc.past_iff hpc).mp hd) (by decide)
    · exact absurd ((Driver.past_goto ..).mp hd) (by decide)
  | measure hpc =>
    have hwaited : s.driver.Past .started := (DriverPc.past_iff hpc).mpr (by decide)
    refine h.setDriver (fun k hk _ => Store.set_of_ne _ hk)
      (Flag.set ((Driver.past_goto ..).mpr (by decide)))
      (h.shouldReport.frame (Store.set_of_ne _ (by decide)) ?_) (fun hd => ?_)
      (fun _ => h.measuring hwaited) (fun hd => ?_) fun z hz => by cases hz
    · rw [Driver.past_goto, DriverPc.past_iff hpc]
      decide
    · exact absurd ((DriverPc.past_iff hpc).mp hd) (by decide)
    · exact absurd ((Driver.past_goto ..).mp hd) (by decide)
  | report hpc =>
    have hwaited : s.driver.Past .started := (DriverPc.past_iff hpc).mpr (by decide)
    refine h.setDriver (fun k _ hk => Store.set_of_ne _ hk)
      (h.shouldMeasure.frame (Store.set_of_ne _ (by decide)) ?_)
      (Flag.set ((Driver.past_goto ..).mpr (by decide))) (fun _ => (Driver.past_goto ..).mpr (by decide))
      (fun _ => h.measuring hwaited) (fun hd => ?_) fun z hz => by cases hz
    · rw [Driver.past_goto, DriverPc.past_iff hpc]
      decide
    · exact absurd ((Driver.past_goto ..).mp hd) (by decide)
  | collected hpc hwait =>
    have hwaited : s.driver.Past .started := (DriverPc.past_iff hpc).mpr (by decide)
    refine h.setDriver (fun _ _ _ => rfl) (h.shouldMeasure.frame rfl ?_)
      (h.shouldReport.frame rfl ?_) (fun _ => (Driver.past_goto ..).mpr (by decide))
      (fun _ => h.measuring hwaited) (fun _ => h.reported.wait hwait) fun z hz => by cases hz
    · rw [Driver.past_goto, DriverPc.past_iff hpc]
      decide
    · rw [Driver.past_goto, DriverPc.past_iff hpc]
      decide
  | printed z hpc hz =>
    have hwaited : s.driver.Past .started := (DriverPc.past_iff hpc).mpr (by decide)
    have hall : s.driver.Past .reported := (DriverPc.past_iff hpc).mpr (by decide)
    refine h.setDriver (fun _ _ _ => rfl) (h.shouldMeasure.frame rfl ?_)
      (h.shouldReport.frame rfl ?_) (fun _ => (Driver.past_goto ..).mpr ?_)
      (fun _ => h.measuring hwaited) (fun _ => h.collected hall) fun z' hz' => ?_
    · rw [Driver.past_goto, DriverPc.past_iff hpc]
      show 1 < 5 ↔ 1 < 4
      decide
    · rw [Driver.past_goto, DriverPc.past_iff hpc]
      show 2 < 5 ↔ 2 < 4
      decide
    · show 2 < 5
      decide
    · cases hz'
      exact h.summed hall hz

-- ---------------------------------------------------------------------------
-- Every run
-- ---------------------------------------------------------------------------

variable [DecidableEq κ]

omit [DecidableEq κ] in
/-- The store that the driver writes its parameters to, before any process comes. -/
theorem inv_initial (params : BenchmarkParams) :
    Inv params.numClients (initial κ (fun _ => none) params) where
  places := ⟨params.numClients, 0, rfl, .zero fun c => Nat.not_lt_zero _, by omega, Or.inl rfl⟩
  started := ⟨0, rfl, .zero fun c => Nat.not_lt_zero _⟩
  reported := ⟨0, rfl, .zero fun c => Nat.not_lt_zero _⟩
  shouldMeasure := rfl
  shouldReport := rfl
  results := ⟨[], List.nodup_nil, fun c => iff_of_false List.not_mem_nil (Nat.not_lt_zero _), rfl⟩
  measuring h := absurd h (Nat.not_lt_zero _)
  released c h := absurd h (Nat.not_lt_zero _)
  collected h := absurd h (Nat.not_lt_zero _)
  printed z h := by cases h

/-- Every command of the driver and of every process, and every stop, keeps the invariant. -/
theorem inv_step : (machine κ n).Preserves (Inv n) := by
  intro s l t h hstep
  cases l with
  | client c =>
    obtain ⟨-, hstep⟩ := Option.ite_none_left_eq_some.mp hstep
    obtain ⟨⟨x, r⟩, hbench, rfl⟩ := Option.map_eq_some_iff.mp hstep
    exact h.did (did_of_bench hbench)
  | aggregate c v =>
    obtain ⟨⟨-, hpc⟩, heq⟩ := Option.ite_none_right_eq_some.mp hstep
    cases heq
    exact h.did (.aggregated v hpc)
  | stop c =>
    cases hstep
    exact h.did (.idle _ rfl rfl)
  | driver =>
    obtain ⟨-, hstep⟩ := Option.ite_none_left_eq_some.mp hstep
    obtain ⟨⟨d, r⟩, hmain, rfl⟩ := Option.map_eq_some_iff.mp hstep
    exact h.drove (drove_of_main hmain)
  | stopDriver =>
    cases hstep
    exact h.drove (.idle _ rfl)

theorem Client.shown_eq {y : Client} (h : y.throughput.toNat < 2 ^ 63) :
    y.shown = y.throughput.toNat := by
  refine BitVec.toInt_eq_toNat_of_lt ?_
  show 2 * y.throughput.toNat < 2 ^ 64
  omega

/-- **What the driver prints.** On an empty store, for any number of places and of processes,
in every state that any order of commands and stops leads to:

* no more processes are past `try_claim_spot` than there are places;
* when the driver is about to set `should_measure`, or has, the counter has counted as many
  processes as there are places, each with a place of its own;
* a process past `dflag_wait(should_report)` has it from the driver;
* what is printed is the sum of the throughputs of all who have a place, and these are as
  many as there are places. -/
theorem coordination (params : BenchmarkParams) (ls : List (Label κ)) (s : State κ)
    (hrun : (machine κ params.numClients).exec (initial κ (fun _ => none) params) ls = some s) :
    {c | (s.clients c).Past .tryClaimSpot}.encard ≤ params.numClients ∧
    (s.driver.Past .started →
      s.store .started = some (.text (decimal params.numClients)) ∧
      ∃ A : Finset κ, A.card = params.numClients ∧
        ∀ c, c ∈ A ↔ (s.clients c).Past .tryClaimSpot ∧ (s.clients c).Past .started) ∧
    (∀ c, (s.clients c).Past .shouldReport → s.driver.Past .report) ∧
    (∀ z, s.driver.pc = .printed z →
      (∀ c, (s.clients c).Past .tryClaimSpot → (s.clients c).throughput.toNat < 2 ^ 63) →
      ∃ A : Finset κ, A.card = params.numClients ∧
        (∀ c, c ∈ A ↔ (s.clients c).Past .tryClaimSpot) ∧
        z = ∑ c ∈ A, ((s.clients c).throughput.toNat : Int)) := by
  have h : Inv params.numClients s := inv_step.exec (inv_initial params) hrun
  obtain ⟨_, m, -, hm, hsum, -⟩ := h.places
  have hclaimed : ∀ {p : Pc}, 0 < p.rank → ∀ c, (s.clients c).Past p → (s.clients c).Past .tryClaimSpot :=
    fun hp c hc => Nat.lt_trans hp hc
  refine ⟨?_, fun hd => ?_, h.released, fun z hz hsmall => ?_⟩
  · rw [hm.encard]
    exact Nat.cast_le.mpr (by omega)
  · obtain ⟨k, hk, hle⟩ := h.measuring hd
    obtain ⟨k', hstore, hk'⟩ := h.started
    have hkm : k ≤ m := hk.le (hclaimed (by decide)) hm
    obtain rfl : k' = k := hk'.unique hk
    obtain rfl : k' = params.numClients := by omega
    obtain ⟨A, hA, hcard⟩ := hk'
    exact ⟨hstore, A, hcard, fun c => (hA c).trans (iff_and_self.mpr (hclaimed (by decide) c))⟩
  · obtain ⟨A, hcard, hA, rfl⟩ := h.printed z hz
    refine ⟨A, hcard, hA, Finset.sum_congr rfl fun c hc => ?_⟩
    exact Client.shown_eq (hsmall c ((hA c).mp hc))

/-- Two places, three processes, of which the third comes too late. -/
def twoPlaces : BenchmarkParams := ⟨2, ['4'], ['n', 'o', 'd', 'e', '0'], 12345⟩

def twoReports : List (Label (Fin 3)) :=
  [.client 0, .client 1, .client 2, .client 1, .client 0, .client 0, .client 1, .driver, .driver,
    .client 0, .client 1, .driver, .client 0, .client 1, .aggregate 0 1234, .client 0, .aggregate 1 1000,
    .client 1, .client 1, .client 0, .driver, .driver]

theorem coordination_twoReports :
    ∃ s, (machine (Fin 3) 2).exec (initial (Fin 3) (fun _ => none) twoPlaces) twoReports = some s ∧
      {c | (s.clients c).Past .tryClaimSpot}.encard ≤ 2 ∧
      ∃ A : Finset (Fin 3), A.card = 2 ∧ 2234 = ∑ c ∈ A, ((s.clients c).throughput.toNat : Int) := by
  have hview : ((machine (Fin 3) 2).exec (initial (Fin 3) (fun _ => none) twoPlaces) twoReports).map
      (fun s => (s.driver.pc, decide (∀ c, (s.clients c).throughput.toNat < 2 ^ 63))) =
      some (.printed 2234, true) := by decide +kernel
  obtain ⟨s, hrun, hs⟩ := Option.map_eq_some_iff.mp hview
  obtain ⟨hpc, hsmall⟩ := Prod.mk.inj hs
  obtain ⟨hplaces, -, -, hprinted⟩ := coordination twoPlaces twoReports s hrun
  obtain ⟨A, hcard, -, hsum⟩ := hprinted 2234 hpc fun c _ => of_decide_eq_true hsmall c
  exact ⟨s, hrun, hplaces, A, hcard, hsum⟩

end EchoServer.Multiclient
