import EchoServer.Lib.Machine

/-!
# driver.py — starting the clients

`start_clients` asks every host to kill the clients that still run there, and then every
host to start one. `kill_client` comes back when the command was requested, `start_client`
waits until its command has ended; the commands are on sessions of their own, so that a
host may come to them in any order.

The condition is about the order of two effects on one host, a kill that was requested and
the start that was requested after it, and on no other host. A killed client does not come
back: nothing but `start_client` starts one.

Main results:

* `separate_step` — what a step does to the distance between running clients and pending
  kills;
* `startClients_iff` — exactly when no client is killed by the call that started it.
-/

namespace EchoServer.Multiclient

open EchoServer.Lib

-- ---------------------------------------------------------------------------
-- The call
-- ---------------------------------------------------------------------------

/-- Where `start_clients` is: about to kill or to start the client of the `i`-th address,
or in `recv_exit_status` for it. -/
inductive StartPc
  | kill (i : Nat)
  | start (i : Nat)
  | wait (i : Nat)
  | returned
  deriving DecidableEq, Repr

/-- The commands that were requested and have not taken effect, by their places in the list
of addresses; the clients of this call that run, and those that were killed. A client runs
on until it is killed, since it waits for the driver. -/
structure Starting where
  pc : StartPc
  kills : List Nat
  starts : List Nat
  running : List Nat
  killed : List Nat
  deriving DecidableEq, Repr

variable {Host : Type} [DecidableEq Host]

/-- `kill_client`: nobody waits for the command to end. -/
def killClient (s : Starting) (i : Nat) : Starting := { s with kills := s.kills ++ [i] }

/-- `start_client`, up to `exec_command`. -/
def startClient (s : Starting) (i : Nat) : Starting := { s with starts := s.starts ++ [i] }

/-- `start_clients`, from each command to the next. -/
def startClients (hosts : List Host) (s : Starting) : Option Starting :=
  match s.pc with
  | .kill i =>
    if i < hosts.length then some { killClient s i with pc := .kill (i + 1) }
    else some { s with pc := .start 0 }
  | .start i =>
    if i < hosts.length then some { startClient s i with pc := .wait i }
    else some { s with pc := .returned }
  | .wait i => if i ∈ s.starts then none else some { s with pc := .start (i + 1) }
  | .returned => none

/-- The two places are for the same host. -/
def SameHost (hosts : List Host) (i j : Nat) : Prop := hosts[i]? = hosts[j]?

instance (hosts : List Host) (i j : Nat) : Decidable (SameHost hosts i j) :=
  inferInstanceAs (Decidable (hosts[i]? = hosts[j]?))

/-- The driver goes on, or a host comes to a command. -/
inductive Effect
  | driver
  | kill (j : Nat)
  | start (i : Nat)
  deriving DecidableEq, Repr

/-- `killall` ends every client that runs on the host. -/
def startStep (hosts : List Host) (s : Starting) : Effect → Option Starting
  | .driver => startClients hosts s
  | .kill j =>
    if j ∈ s.kills then
      some { s with
        kills := s.kills.filter (· ≠ j)
        running := s.running.filter fun i => ¬ SameHost hosts i j
        killed := s.killed ++ s.running.filter fun i => SameHost hosts i j }
    else none
  | .start i =>
    if i ∈ s.starts then
      some { s with starts := s.starts.filter (· ≠ i), running := s.running ++ [i] }
    else none

def startMachine (hosts : List Host) : Machine Starting Effect := ⟨startStep hosts⟩

def Starting.entry : Starting := ⟨.kill 0, [], [], [], []⟩

-- ---------------------------------------------------------------------------
-- How far the call is
-- ---------------------------------------------------------------------------

/-- The addresses whose start was requested. -/
def StartPc.requested (n : Nat) : StartPc → Nat
  | .kill _ => 0
  | .start i => i
  | .wait i => i + 1
  | .returned => n

/-- Every client whose start was requested and took effect runs, or has been killed; only
the one that is waited for may not have taken effect. -/
structure Progress (hosts : List Host) (s : Starting) : Prop where
  bound : s.pc.requested hosts.length ≤ hosts.length
  pending : s.starts = [] ∨ ∃ i, s.pc = .wait i ∧ s.starts = [i]
  started : (s.starts ++ s.running ++ s.killed).Perm (List.range (s.pc.requested hosts.length))

variable {hosts : List Host} {s t : Starting} {e : Effect}

omit [DecidableEq Host] in
theorem progress_entry (hosts : List Host) : Progress hosts .entry where
  bound := Nat.zero_le _
  pending := Or.inl rfl
  started := List.Perm.refl []

omit [DecidableEq Host] in
/-- What a step of the call does. -/
theorem startClients_cases (h : startClients hosts s = some t) :
    (∃ i < hosts.length, s.pc = .kill i ∧ t = { killClient s i with pc := .kill (i + 1) }) ∨
    (∃ i, s.pc = .kill i ∧ t = { s with pc := .start 0 }) ∨
    (∃ i < hosts.length, s.pc = .start i ∧ t = { startClient s i with pc := .wait i }) ∨
    (∃ i ≥ hosts.length, s.pc = .start i ∧ t = { s with pc := .returned }) ∨
    ∃ i, i ∉ s.starts ∧ s.pc = .wait i ∧ t = { s with pc := .start (i + 1) } := by
  unfold startClients at h
  cases hpc : s.pc with
  | kill i =>
    simp only [hpc] at h
    split at h
    · rename_i hlt
      cases h
      exact Or.inl ⟨i, hlt, rfl, rfl⟩
    · cases h
      exact Or.inr (Or.inl ⟨i, rfl, rfl⟩)
  | start i =>
    simp only [hpc] at h
    split at h
    · rename_i hlt
      cases h
      exact Or.inr (Or.inr (Or.inl ⟨i, hlt, rfl, rfl⟩))
    · rename_i hge
      cases h
      exact Or.inr (Or.inr (Or.inr (Or.inl ⟨i, Nat.not_lt.mp hge, rfl, rfl⟩)))
  | wait i =>
    simp only [hpc] at h
    split at h
    · cases h
    · rename_i hnot
      cases h
      exact Or.inr (Or.inr (Or.inr (Or.inr ⟨i, hnot, rfl, rfl⟩)))
  | returned =>
    simp only [hpc] at h
    cases h

omit [DecidableEq Host] in
/-- Unless the call waits for a start, none is pending. -/
theorem Progress.starts_eq_nil (h : Progress hosts s) (hpc : ∀ i, s.pc ≠ .wait i) :
    s.starts = [] := by
  rcases h.pending with hnil | ⟨i, hwait, -⟩
  · exact hnil
  · exact absurd hwait (hpc i)

omit [DecidableEq Host] in
theorem Progress.call (h : Progress hosts s) (hstep : startClients hosts s = some t) :
    Progress hosts t := by
  have hstarted := h.started
  have hbound := h.bound
  rcases startClients_cases hstep with ⟨i, hlt, hpc, rfl⟩ | ⟨i, hpc, rfl⟩ | ⟨i, hlt, hpc, rfl⟩ |
    ⟨i, hge, hpc, rfl⟩ | ⟨i, hnot, hpc, rfl⟩
  · rw [hpc] at hstarted
    have hnil := h.starts_eq_nil fun i => by rw [hpc]; exact nofun
    exact ⟨Nat.zero_le _, Or.inl hnil, hstarted⟩
  · rw [hpc] at hstarted
    have hnil := h.starts_eq_nil fun i => by rw [hpc]; exact nofun
    exact ⟨Nat.zero_le _, Or.inl hnil, hstarted⟩
  · -- one more start is requested
    rw [hpc] at hstarted
    have hnil := h.starts_eq_nil fun i => by rw [hpc]; exact nofun
    refine ⟨hlt, Or.inr ⟨i, rfl, by rw [startClient, hnil]; rfl⟩, ?_⟩
    rw [hnil] at hstarted
    show (s.starts ++ [i] ++ s.running ++ s.killed).Perm (List.range (i + 1))
    rw [hnil, List.range_succ, List.nil_append, List.append_assoc]
    exact List.perm_append_comm.trans (hstarted.append_right [i])
  · rw [hpc] at hstarted hbound
    have hnil := h.starts_eq_nil fun i => by rw [hpc]; exact nofun
    have heq : i = hosts.length := Nat.le_antisymm hbound hge
    rw [heq] at hstarted
    exact ⟨Nat.le_refl _, Or.inl hnil, hstarted⟩
  · rw [hpc] at hstarted hbound
    refine ⟨hbound, Or.inl ?_, hstarted⟩
    rcases h.pending with hnil | ⟨j, hwait, hstarts⟩
    · exact hnil
    · rw [hpc] at hwait
      cases hwait
      rw [hstarts] at hnot
      exact absurd (List.mem_singleton.mpr rfl) hnot

theorem progress_step : (startMachine hosts).Preserves (Progress hosts) := by
  intro s e t h hstep
  cases e with
  | driver => exact h.call hstep
  | kill j =>
    obtain ⟨-, heq⟩ := Option.ite_none_right_eq_some.mp hstep
    cases heq
    refine ⟨h.bound, h.pending, List.Perm.trans ?_ h.started⟩
    have hsplit : ((s.running.filter fun i => SameHost hosts i j) ++
        s.running.filter fun i => ¬ SameHost hosts i j).Perm s.running := by
      simpa using List.filter_append_perm (fun i => decide (SameHost hosts i j)) s.running
    rw [List.append_assoc, List.append_assoc]
    refine List.Perm.append_left _ (List.perm_append_comm.trans ?_)
    rw [List.append_assoc]
    exact (hsplit.append_left s.killed).trans List.perm_append_comm
  | start i =>
    obtain ⟨hmem, heq⟩ := Option.ite_none_right_eq_some.mp hstep
    cases heq
    rcases h.pending with hnil | ⟨j, hwait, hstarts⟩
    · rw [hnil] at hmem
      cases hmem
    · rw [hstarts, List.mem_singleton] at hmem
      subst hmem
      refine ⟨h.bound, Or.inl ?_, List.Perm.trans ?_ h.started⟩
      · show s.starts.filter (· ≠ i) = []
        rw [hstarts]
        simp
      · show (s.starts.filter (· ≠ i) ++ (s.running ++ [i]) ++ s.killed).Perm _
        rw [hstarts]
        simp only [ne_eq, decide_not, List.filter_cons, decide_true, Bool.not_true,
          Bool.false_eq_true, if_false, List.filter_nil, List.nil_append]
        exact List.perm_append_comm.append_right s.killed

-- ---------------------------------------------------------------------------
-- Late kills
-- ---------------------------------------------------------------------------

/-- No client has been killed, and no host at which one runs has a kill pending. -/
structure Separate (hosts : List Host) (s : Starting) : Prop where
  alive : s.killed = []
  apart : ∀ i ∈ s.running, ∀ j ∈ s.kills, ¬ SameHost hosts i j

/-- A client starts only when its host has come to every kill that was requested. -/
def KillsFirst (hosts : List Host) (s : Starting) : Effect → Prop
  | .start i => ∀ j ∈ s.kills, ¬ SameHost hosts i j
  | _ => True

instance (hosts : List Host) (s : Starting) : ∀ e, Decidable (KillsFirst hosts s e)
  | .start i => inferInstanceAs (Decidable (∀ j ∈ s.kills, ¬ SameHost hosts i j))
  | .driver | .kill _ => isTrue trivial

omit [DecidableEq Host] in
/-- All kills are requested before the first start. -/
theorem Progress.of_kill {i : Nat} (h : Progress hosts s) (hpc : s.pc = .kill i) :
    s.running = [] ∧ s.killed = [] := by
  have hnone := h.started
  rw [hpc] at hnone
  have hnil := List.perm_nil.mp hnone
  rw [List.append_eq_nil_iff, List.append_eq_nil_iff] at hnil
  exact ⟨hnil.1.2, hnil.2⟩

omit [DecidableEq Host] in
theorem separate_call (h : Progress hosts s) (hstep : startClients hosts s = some t) :
    Separate hosts t ↔ Separate hosts s := by
  rcases startClients_cases hstep with ⟨i, -, hpc, rfl⟩ | ⟨i, -, rfl⟩ | ⟨i, -, -, rfl⟩ |
    ⟨i, -, -, rfl⟩ | ⟨i, -, -, rfl⟩
  · obtain ⟨hrunning, hkilled⟩ := h.of_kill hpc
    have hempty : ∀ k ∈ s.running, ∀ P : Prop, P := fun k hk => by
      rw [hrunning] at hk
      cases hk
    exact iff_of_true ⟨hkilled, fun k hk _ _ => hempty k hk _⟩
      ⟨hkilled, fun k hk _ _ => hempty k hk _⟩
  all_goals exact ⟨fun h => ⟨h.alive, h.apart⟩, fun h => ⟨h.alive, h.apart⟩⟩

theorem separate_kill {j : Nat} (hstep : startStep hosts s (.kill j) = some t) :
    Separate hosts t ↔ Separate hosts s := by
  obtain ⟨hmem, heq⟩ := Option.ite_none_right_eq_some.mp hstep
  cases heq
  constructor
  · rintro ⟨halive, hapart⟩
    obtain ⟨hkilled, hnone⟩ := List.append_eq_nil_iff.mp halive
    refine ⟨hkilled, fun i hi k hk hsame => ?_⟩
    -- the kill hit nobody, so no client runs on its host
    have hother : ¬ SameHost hosts i j := by
      have hnot := List.filter_eq_nil_iff.mp hnone i hi
      simpa using hnot
    by_cases hkj : k = j
    · exact hother (hkj ▸ hsame)
    · exact hapart i (List.mem_filter.mpr ⟨hi, by simpa using hother⟩) k
        (List.mem_filter.mpr ⟨hk, by simpa using hkj⟩) hsame
  · rintro ⟨halive, hapart⟩
    refine ⟨?_, fun i hi k hk => ?_⟩
    · refine List.append_eq_nil_iff.mpr ⟨halive, List.filter_eq_nil_iff.mpr fun i hi => ?_⟩
      simpa using hapart i hi j hmem
    · exact hapart i (List.mem_filter.mp hi).1 k (List.mem_filter.mp hk).1

theorem separate_start {i : Nat} (hstep : startStep hosts s (.start i) = some t) :
    Separate hosts t ↔ Separate hosts s ∧ ∀ j ∈ s.kills, ¬ SameHost hosts i j := by
  obtain ⟨-, heq⟩ := Option.ite_none_right_eq_some.mp hstep
  cases heq
  constructor
  · rintro ⟨halive, hapart⟩
    exact ⟨⟨halive, fun k hk => hapart k (List.mem_append_left _ hk)⟩,
      hapart i (List.mem_append_right _ (List.mem_singleton.mpr rfl))⟩
  · rintro ⟨⟨halive, hapart⟩, hnew⟩
    refine ⟨halive, fun k hk => ?_⟩
    rcases List.mem_append.mp hk with hold | hone
    · exact hapart k hold
    · rw [List.mem_singleton.mp hone]
      exact hnew

/-- What a step does to the distance: only a start can end it, and it never comes back. -/
theorem separate_step (h : Progress hosts s) (hstep : (startMachine hosts).step s e = some t) :
    Separate hosts t ↔ Separate hosts s ∧ KillsFirst hosts s e := by
  cases e with
  | driver => exact (separate_call h hstep).trans (and_iff_left trivial).symm
  | kill j => exact (separate_kill hstep).trans (and_iff_left trivial).symm
  | start i => exact separate_start hstep

-- ---------------------------------------------------------------------------
-- What the call achieves
-- ---------------------------------------------------------------------------

/-- The call has killed none of the clients that it has started, and when it has returned
it has started one for every address. -/
structure AllStarted (hosts : List Host) (s : Starting) : Prop where
  alive : s.killed = []
  running : s.pc = .returned → s.running.Perm (List.range hosts.length)

omit [DecidableEq Host] in
theorem Progress.allStarted (h : Progress hosts s) (halive : s.killed = []) :
    AllStarted hosts s := by
  refine ⟨halive, fun hpc => ?_⟩
  have hstarted := h.started
  rw [hpc, halive, h.starts_eq_nil fun i => by rw [hpc]; exact nofun] at hstarted
  simpa [StartPc.requested] using hstarted

/-- **Exactly when starting clients kills none.** For every list of addresses and every order
in which the commands take effect: as long as each client starts only when its host has come
to all kills that were requested, the call kills none of its clients and starts one for every
address; and once every kill has taken effect, it has done so only in that case. -/
theorem startClients_iff (hosts : List Host) (es : List Effect) (s : Starting)
    (hrun : (startMachine hosts).exec .entry es = some s) :
    ((startMachine hosts).Along (KillsFirst hosts) .entry es → AllStarted hosts s) ∧
      (s.kills = [] →
        (AllStarted hosts s ↔ (startMachine hosts).Along (KillsFirst hosts) .entry es)) := by
  have hentry : Separate hosts .entry := ⟨rfl, fun _ h => by cases h⟩
  have hlast := Machine.last_iff_along progress_step (fun s e t h hstep => separate_step h hstep)
    (progress_entry hosts) hrun
  rw [and_iff_right hentry] at hlast
  have hprogress := progress_step.exec (progress_entry hosts) hrun
  refine ⟨fun hall => hprogress.allStarted (hlast.mpr hall).alive, fun hkills => ?_⟩
  rw [← hlast]
  refine ⟨fun h => ⟨h.alive, fun i _ j hj => ?_⟩, fun h => hprogress.allStarted h.alive⟩
  rw [hkills] at hj
  cases hj

/-- Two clients on one host, whose kills take effect first. -/
def twoClients : List Effect :=
  [.driver, .driver, .kill 1, .kill 0, .driver, .driver, .start 0, .driver, .driver, .start 1,
    .driver, .driver]

theorem startClients_iff_twoClients :
    ∃ s, (startMachine ["node1", "node1"]).exec .entry twoClients = some s ∧
      s.pc = .returned ∧ AllStarted ["node1", "node1"] s := by
  have hrun : (startMachine ["node1", "node1"]).exec .entry twoClients =
      some ⟨.returned, [], [], [0, 1], []⟩ := by decide
  obtain ⟨hall, -⟩ := startClients_iff ["node1", "node1"] twoClients _ hrun
  exact ⟨_, hrun, rfl, hall (by decide)⟩

/-- The kill takes effect behind the start, and the client is lost. -/
theorem lateKill :
    ∃ s, (startMachine ["node1"]).exec .entry
      [.driver, .driver, .driver, .start 0, .driver, .driver, .kill 0] = some s ∧
      s.pc = .returned ∧ s.running = [] ∧ s.killed = [0] ∧ ¬ AllStarted ["node1"] s :=
  ⟨⟨.returned, [], [], [], [0]⟩, by decide, rfl, rfl, rfl, fun h => absurd h.alive (by decide)⟩

end EchoServer.Multiclient
