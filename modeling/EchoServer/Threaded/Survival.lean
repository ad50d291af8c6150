import EchoServer.Lib.Machine
import EchoServer.Threaded.Simple

/-!
# simple.c — the whole server process

The accept loop of `start_server` and one `handle_conn` per accepted connection,
in one process with one descriptor table. Clients connect, are accepted, send
whatever they like and leave at any point.

What the operating system does:

* `accept` takes the lowest descriptor that is not open, and fails when the process
  has as many open as its limit allows;
* a `recv` fails or delivers any bytes up to its length, a `send` fails or takes any
  part of its bytes;
* a `send` to a peer that is gone raises SIGPIPE, which ends the process. A peer is gone
  when its kernel has said so: the first `send` after it has closed its socket still
  succeeds, is answered by a reset, and it is the next one that raises the signal.

With a full table Linux fails an `accept` as soon as it is called, before a client waits;
here it fails when one does, which is no earlier. A `recv` still delivers what had come
before the peer was gone.

No handler is joined, and no path out of `handle_conn` gives its descriptor back, so the
number that counts is that of all connections ever accepted, not of those that are open.

Main results:

* `fds_of_step` — no step of the process closes a descriptor;
* `survives_iff` — the process is running and its next `accept` succeeds exactly when
  few enough connections were accepted, ever, and no handler sent to a peer that was
  gone.
-/

namespace EchoServer.Survival

open EchoServer.Lib

-- ---------------------------------------------------------------------------
-- The process
-- ---------------------------------------------------------------------------

/-- Why the process ended. -/
inductive Exit
  | acceptFailed
  | sigpipe
  deriving DecidableEq, Repr

/-- A thread in `handle_conn` and whether the peer of its connection is gone. -/
structure Handler where
  thread : Thread Simple.Pc Simple.Buf UInt8
  gone : Bool

/-- The announced size and the limit on open descriptors. -/
structure Config where
  msgSize : MsgSize
  limit : Nat

/-- `backlog` are the connections that wait for `accept`, each with whether its client
is gone; `clients` counts the connections open on the client side. -/
structure Server where
  exit : Option Exit
  fds : List Nat
  backlog : List Bool
  clients : Nat
  handlers : Nat → Option Handler

/-- What happens next. The clients move by `connect` and `leave`, the accept loop by
`accept`, and the handler of a descriptor by the others. -/
inductive Label
  | connect
  | leaveBacklog (i : Nat)
  | leave (fd : Nat)
  | accept (stack : Buffer)
  | send (fd : Nat) (out : Option Nat)
  | recv (fd : Nat) (bytes : Option Bytes)
  | wake (fd : Nat)

/-- The lowest descriptor that is not open. -/
def lowestFree (fds : List Nat) : Nat :=
  ((List.range (fds.length + 1)).find? fun fd => fd ∉ fds).getD fds.length

def Server.setHandler (s : Server) (fd : Nat) (h : Handler) : Server :=
  { s with handlers := Function.update s.handlers fd (some h) }

/-- The accept loop: `accept`, and a thread for what it returned. -/
def accept (cfg : Config) (s : Server) (stack : Buffer) : Option Server :=
  match s.backlog with
  | gone :: rest =>
    if s.fds.length < cfg.limit then
      let fd := lowestFree s.fds
      some ({ s with backlog := rest, fds := s.fds ++ [fd] }.setHandler fd
        ⟨Simple.entry cfg.msgSize stack, gone⟩)
    else some { s with exit := some .acceptFailed }
  | [] => none

/-- The `send` that a handler is in returns. -/
def send (s : Server) (fd : Nat) (h : Handler) (out : Option Nat) : Option Server :=
  match h.thread.flights with
  | [⟨.send _ len, _⟩] =>
    if h.gone then some { s with exit := some .sigpipe }
    else some (s.setHandler fd { h with thread := h.thread.finish 0 (outcome out len) })
  | _ => none

/-- The `recv` that a handler is in returns. -/
def recv (s : Server) (fd : Nat) (h : Handler) (bytes : Option Bytes) : Option Server :=
  match h.thread.flights with
  | [⟨.recv dst len, _⟩] =>
    match bytes with
    | none => some (s.setHandler fd { h with thread := h.thread.finish 0 (-1) })
    | some bs =>
      if bs.length ≤ len then
        some (s.setHandler fd { h with thread := (h.thread.fill 0 dst 0 bs).finish 0 bs.length })
      else none
  | _ => none

/-- A handler goes from one call to the next; when it returns, its thread ends and
nothing else happens. -/
def wake (cfg : Config) (s : Server) (fd : Nat) (h : Handler) : Option Server :=
  let P := Simple.handleConn cfg.msgSize
  if h.thread.ready P then some (s.setHandler fd { h with thread := h.thread.run P }) else none

/-- The steps of the process, as long as it runs. -/
def serve (cfg : Config) (s : Server) : Label → Option Server
  | .accept stack => accept cfg s stack
  | .send fd out => (s.handlers fd).bind fun h => send s fd h out
  | .recv fd bytes => (s.handlers fd).bind fun h => recv s fd h bytes
  | .wake fd => (s.handlers fd).bind fun h => wake cfg s fd h
  | _ => none

def step (cfg : Config) (s : Server) (i : Label) : Option Server :=
  match i with
  | .connect => some { s with backlog := s.backlog ++ [false], clients := s.clients + 1 }
  | .leaveBacklog i =>
    if s.backlog[i]? = some false then
      some { s with backlog := s.backlog.set i true, clients := s.clients - 1 }
    else none
  | .leave fd => (s.handlers fd).bind fun h =>
    if h.gone then none
    else some ({ s with clients := s.clients - 1 }.setHandler fd { h with gone := true })
  | i => if s.exit.isSome then none else serve cfg s i

def machine (cfg : Config) : Machine Server Label := ⟨step cfg⟩

/-- The process waits for its first client; the standard descriptors and the listener
are open. -/
def initial : Server := ⟨none, [0, 1, 2, 3], [], 0, fun _ => none⟩

/-- The process is running and its next `accept` succeeds. -/
def Survives (cfg : Config) (s : Server) : Prop := s.exit = none ∧ s.fds.length < cfg.limit

-- ---------------------------------------------------------------------------
-- The condition
-- ---------------------------------------------------------------------------

/-- The calls of `accept` in a history. -/
def accepts (is : List Label) : Nat :=
  is.countP fun
    | .accept _ => true
    | _ => false

/-- No handler sends to a peer that is gone. -/
def PeerThere (s : Server) (i : Label) : Prop :=
  ∀ fd out h, i = .send fd out → s.handlers fd = some h → h.gone = false

-- ---------------------------------------------------------------------------
-- What a step does to the process
-- ---------------------------------------------------------------------------

variable {cfg : Config} {s t : Server} {i : Label} {is : List Label}

/-- What a step of a running process does to its descriptors. -/
inductive Effect (cfg : Config) (s t : Server) : Label → Prop
  | opened (stack : Buffer) (fd : Nat) : s.fds.length < cfg.limit → t.exit = none →
      t.fds = s.fds ++ [fd] → Effect cfg s t (.accept stack)
  | exhausted (stack : Buffer) : cfg.limit ≤ s.fds.length → t.exit ≠ none →
      Effect cfg s t (.accept stack)
  | broken (fd : Nat) (out : Option Nat) (h : Handler) : s.handlers fd = some h → h.gone = true →
      t.exit ≠ none → Effect cfg s t (.send fd out)
  | none (i : Label) : (∀ stack, i ≠ .accept stack) → PeerThere s i → t.exit = s.exit →
      t.fds = s.fds → Effect cfg s t i

theorem effect_of_step (hexit : s.exit = none) (hstep : step cfg s i = some t) :
    Effect cfg s t i := by
  cases i with
  | connect =>
    cases hstep
    exact .none _ (fun _ h => by cases h) (fun _ _ _ h => by cases h) rfl rfl
  | leaveBacklog i =>
    obtain ⟨-, heq⟩ := Option.ite_none_right_eq_some.mp hstep
    cases heq
    exact .none _ (fun _ h => by cases h) (fun _ _ _ h => by cases h) rfl rfl
  | leave fd =>
    obtain ⟨h, -, hstep⟩ := Option.bind_eq_some_iff.mp hstep
    obtain ⟨-, heq⟩ := Option.ite_none_left_eq_some.mp hstep
    cases heq
    exact .none _ (fun _ h => by cases h) (fun _ _ _ h => by cases h) rfl rfl
  | accept stack =>
    have haccept : accept cfg s stack = some t := by simpa [step, serve, hexit] using hstep
    unfold accept at haccept
    split at haccept
    · split at haccept
      · next hroom =>
        cases haccept
        exact .opened stack _ hroom hexit rfl
      · next hfull =>
        -- no descriptor is left for the connection
        cases haccept
        exact .exhausted stack (Nat.not_lt.mp hfull) (by simp)
    · cases haccept
  | send fd out =>
    have hserve : ((s.handlers fd).bind fun h => send s fd h out) = some t := by
      simpa [step, serve, hexit] using hstep
    obtain ⟨h, hh, hsend⟩ := Option.bind_eq_some_iff.mp hserve
    unfold send at hsend
    split at hsend
    · split at hsend
      · next hgone =>
        -- the other end is gone: the signal ends the process
        cases hsend
        exact .broken fd out h hh hgone (by simp)
      · next hthere =>
        cases hsend
        refine .none _ (fun _ h => by cases h) (fun _ _ h' hi hh' => ?_) rfl rfl
        cases hi
        rw [hh] at hh'
        cases hh'
        simpa using hthere
    · cases hsend
  | recv fd bytes =>
    have hserve : ((s.handlers fd).bind fun h => recv s fd h bytes) = some t := by
      simpa [step, serve, hexit] using hstep
    obtain ⟨h, hh, hrecv⟩ := Option.bind_eq_some_iff.mp hserve
    have hsame : t.exit = s.exit ∧ t.fds = s.fds := by
      unfold recv at hrecv
      split at hrecv
      · split at hrecv
        · cases hrecv
          exact ⟨rfl, rfl⟩
        · obtain ⟨-, heq⟩ := Option.ite_none_right_eq_some.mp hrecv
          cases heq
          exact ⟨rfl, rfl⟩
      · cases hrecv
    exact .none _ (fun _ h => by cases h) (fun _ _ _ h => by cases h) hsame.1 hsame.2
  | wake fd =>
    have hserve : ((s.handlers fd).bind fun h => wake cfg s fd h) = some t := by
      simpa [step, serve, hexit] using hstep
    obtain ⟨h, hh, hwake⟩ := Option.bind_eq_some_iff.mp hserve
    obtain ⟨-, heq⟩ := Option.ite_none_right_eq_some.mp hwake
    cases heq
    exact .none _ (fun _ h => by cases h) (fun _ _ _ h => by cases h) rfl rfl

/-- A process that has ended does not come back. -/
theorem exit_of_step (hexit : s.exit ≠ none) (hstep : step cfg s i = some t) : t.exit = s.exit := by
  cases i with
  | connect =>
    cases hstep
    rfl
  | leaveBacklog i =>
    obtain ⟨-, heq⟩ := Option.ite_none_right_eq_some.mp hstep
    cases heq
    rfl
  | leave fd =>
    obtain ⟨h, -, hstep⟩ := Option.bind_eq_some_iff.mp hstep
    obtain ⟨-, heq⟩ := Option.ite_none_left_eq_some.mp hstep
    cases heq
    rfl
  | accept | send | recv | wake =>
    obtain ⟨hnone, -⟩ := Option.ite_none_left_eq_some.mp hstep
    exact absurd (by simpa using hnone) hexit

/-- No step closes a descriptor: what a handler returns from leaves its connection
open, whichever path it takes. -/
theorem fds_of_step (hexit : s.exit = none) (hstep : step cfg s i = some t) (ht : t.exit = none) :
    t.fds.length = s.fds.length + accepts [i] := by
  cases effect_of_step hexit hstep with
  | opened stack fd _ _ hfds => rw [hfds, List.length_append]; rfl
  | exhausted _ _ hdead | broken _ _ _ _ _ hdead => exact absurd ht hdead
  | none _ hi _ _ hfds =>
    rw [hfds]
    cases i with
    | accept stack => exact absurd rfl (hi stack)
    | connect | leaveBacklog | leave | send | recv | wake => rfl

-- ---------------------------------------------------------------------------
-- Survival
-- ---------------------------------------------------------------------------

theorem accepts_cons (i : Label) (is : List Label) : accepts (i :: is) = accepts [i] + accepts is := by
  unfold accepts
  rw [List.countP_cons, List.countP_cons, List.countP_nil, Nat.zero_add, Nat.add_comm]

theorem dead_run (hexit : s.exit ≠ none) (hrun : (machine cfg).exec s is = some t) :
    ¬ Survives cfg t := by
  have hkeeps : (machine cfg).Preserves fun u => u.exit ≠ none := by
    intro u i v hu hstep
    rw [exit_of_step hu hstep]
    exact hu
  exact fun hsurvives => hkeeps.exec hexit hrun hsurvives.1

/-- From a running process to the end of a history. -/
theorem running_run (hexit : s.exit = none) (hrun : (machine cfg).exec s is = some t) :
    Survives cfg t ↔
      s.fds.length + accepts is < cfg.limit ∧ (machine cfg).Along PeerThere s is := by
  induction is generalizing s with
  | nil =>
    obtain rfl : s = t := by simpa using hrun
    exact ⟨fun h => ⟨h.2, trivial⟩, fun h => ⟨hexit, h.1⟩⟩
  | cons i is ih =>
    obtain ⟨u, hu, hrest⟩ := Machine.exec_cons_iff.mp hrun
    have hfds : u.exit = none → u.fds.length = s.fds.length + accepts [i] := fds_of_step hexit hu
    rw [Machine.along_cons_iff hu, accepts_cons, ← Nat.add_assoc]
    cases effect_of_step hexit hu with
    | opened stack fd hroom hlive =>
      rw [← hfds hlive, ih hlive hrest]
      exact and_congr_right fun _ => ⟨fun h => ⟨fun _ _ _ hi => (by cases hi), h⟩, fun h => h.2⟩
    | exhausted stack hfull hdead =>
      refine iff_of_false (dead_run hdead hrest) fun h => ?_
      have hone : accepts [.accept stack] = 1 := rfl
      omega
    | broken fd out h hh hgone hdead =>
      refine iff_of_false (dead_run hdead hrest) fun hall => ?_
      rw [hall.2.1 fd out h rfl hh] at hgone
      cases hgone
    | none _ _ hthere hlive _ =>
      have hlive := hlive.trans hexit
      rw [← hfds hlive, ih hlive hrest]
      exact and_congr_right fun _ => ⟨fun h => ⟨hthere, h⟩, fun h => h.2⟩

/-- **Exactly when the server survives a history.** Four descriptors are open from the
start and every connection accepted in the whole history takes one more for good. -/
theorem survives_iff (cfg : Config) (is : List Label) (s : Server)
    (hrun : (machine cfg).exec initial is = some s) :
    Survives cfg s ↔
      4 + accepts is < cfg.limit ∧ (machine cfg).Along PeerThere initial is :=
  running_run rfl hrun

-- ---------------------------------------------------------------------------
-- Clients that come and go
-- ---------------------------------------------------------------------------

/-- The life of a client on descriptor `fd` that sends "Hi" and leaves: its handler
runs to the end. -/
def visit (fd : Nat) : List Label :=
  [.connect, .accept zeros, .send fd (some 4), .wake fd, .recv fd (some [72, 105]), .wake fd,
    .leave fd, .recv fd (some []), .wake fd]

/-- A client that sends "Hi" and two messages at once and closes its socket: the first reply is
answered by a reset, and the second one is sent to a peer that is gone. -/
def pipelined (fd : Nat) : List Label :=
  [.connect, .accept zeros, .send fd (some 4), .wake fd, .recv fd (some [72, 105]), .wake fd,
    .recv fd (some [1, 2, 3, 4]), .wake fd, .send fd (some 4), .leave fd, .wake fd,
    .recv fd (some [5, 6, 7, 8]), .wake fd, .send fd (some 4)]

/-- At no time of the history are more than `k` connections open on the client side. -/
def AtMost (k : Nat) (s : Server) (_ : Label) : Prop := s.clients ≤ k

instance (k : Nat) (s : Server) (i : Label) : Decidable (AtMost k s i) :=
  inferInstanceAs (Decidable (s.clients ≤ k))

def six : Config := ⟨four, 6⟩

theorem survives_iff_visit :
    ∃ s, (machine six).exec initial (visit 4) = some s ∧ Survives six s ∧
      (machine six).Along PeerThere initial (visit 4) := by
  have hrun : ((machine six).exec initial (visit 4)).map (fun s => (s.exit, s.fds)) =
      some (none, [0, 1, 2, 3, 4]) := by decide
  obtain ⟨s, hs, heq⟩ := Option.map_eq_some_iff.mp hrun
  obtain ⟨hexit, hfds⟩ := Prod.mk.inj heq
  have hsurvives : Survives six s := ⟨hexit, by rw [hfds]; decide⟩
  exact ⟨s, hs, hsurvives, ((survives_iff six (visit 4) s hs).mp hsurvives).2⟩

/-- One client at a time, with room for two: the third one that comes ends the server,
and so does one that leaves before it has read its replies. -/
theorem not_survives :
    (∃ s, (machine six).exec initial (visit 4 ++ visit 5) = some s ∧
      (machine six).Along (AtMost 1) initial (visit 4 ++ visit 5) ∧ s.clients ≤ 1 ∧
      1 + 4 < six.limit ∧ ¬ Survives six s) ∧
    (∃ s, (machine six).exec initial (visit 4 ++ visit 5 ++ (visit 6).take 2) = some s ∧
      (machine six).Along (AtMost 1) initial (visit 4 ++ visit 5 ++ (visit 6).take 2) ∧
      s.clients ≤ 1 ∧ s.exit = some .acceptFailed) ∧
    (∃ s, (machine six).exec initial (pipelined 4) = some s ∧
      (machine six).Along (AtMost 1) initial (pipelined 4) ∧ s.clients ≤ 1 ∧
      s.exit = some .sigpipe) := by
  refine ⟨?_, ?_, ?_⟩
  · have hrun : ((machine six).exec initial (visit 4 ++ visit 5)).map
        (fun s => (s.fds, s.clients)) = some ([0, 1, 2, 3, 4, 5], 0) := by decide
    obtain ⟨s, hs, heq⟩ := Option.map_eq_some_iff.mp hrun
    obtain ⟨hfds, hclients⟩ := Prod.mk.inj heq
    refine ⟨s, hs, by decide, by rw [hclients]; decide, by decide, fun h => ?_⟩
    have hroom := h.2
    rw [hfds] at hroom
    exact absurd hroom (by decide)
  · have hrun : ((machine six).exec initial (visit 4 ++ visit 5 ++ (visit 6).take 2)).map
        (fun s => (s.exit, s.clients)) = some (some .acceptFailed, 1) := by decide
    obtain ⟨s, hs, heq⟩ := Option.map_eq_some_iff.mp hrun
    obtain ⟨hexit, hclients⟩ := Prod.mk.inj heq
    exact ⟨s, hs, by decide, by rw [hclients], hexit⟩
  · have hrun : ((machine six).exec initial (pipelined 4)).map (fun s => (s.exit, s.clients)) =
        some (some .sigpipe, 0) := by decide
    obtain ⟨s, hs, heq⟩ := Option.map_eq_some_iff.mp hrun
    obtain ⟨hexit, hclients⟩ := Prod.mk.inj heq
    exact ⟨s, hs, by decide, by rw [hclients]; decide, hexit⟩

end EchoServer.Survival
