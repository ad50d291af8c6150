import EchoServer.Epoll.Model

/-!
# epoll — what one step does

* `recv_cases` — a `recv` that comes back short moves some bytes, one that comes
  back full leaves the next message in `buf`, whatever was there before;
* `step_cases` — every step of the machine, with its guards.
-/

namespace EchoServer.Epoll

open EchoServer.Lib

variable {cfg : Config} {s t : State} {fd : Nat}

-- ---------------------------------------------------------------------------
-- The system calls
-- ---------------------------------------------------------------------------

section
variable {peer : Peer UInt8} {c c' : Conn} {buf buf' : Bytes} {len : Nat} {rcv : Option Nat} {n : Int}

/-- What a connection is after a `recv` with outcome `rcv`. -/
def Conn.took (c : Conn) (rcv : Option Nat) : Conn := { c with taken := c.taken + rcv.getD 0 }

@[simp] theorem Conn.took_arrived : (c.took rcv).arrived = c.arrived := rfl
@[simp] theorem Conn.took_announced : (c.took rcv).announced = c.announced := rfl
@[simp] theorem Conn.took_header : (c.took rcv).header = c.header := rfl
@[simp] theorem Conn.took_sent : (c.took rcv).sent = c.sent := rfl
@[simp] theorem Conn.took_taken : (c.took rcv).taken = c.taken + rcv.getD 0 := rfl

theorem Conn.recv_cases (h : c.recv peer buf len rcv = some (n, buf', c')) :
    c' = c.took rcv ∧ rcv.getD 0 ≤ c.available ∧ (n < len → rcv ≠ some len) ∧
      (¬ n < len → rcv = some len ∧ (c.arrived ≤ peer.stream.length →
        buf'.take len = (peer.stream.drop c.taken).take len ∧ (buf'.take len).length = len)) := by
  cases rcv with
  | none =>
    cases h
    exact ⟨rfl, Nat.zero_le _, fun _ => Option.some_ne_none len |>.symm, fun hn => absurd (by omega) hn⟩
  | some k =>
    obtain ⟨⟨hlen, havail⟩, heq⟩ := Option.ite_none_right_eq_some.mp h
    cases heq
    refine ⟨rfl, havail, fun hn heq => by simp only [Option.some.injEq] at heq; omega, fun hn => ?_⟩
    obtain rfl : k = len := by omega
    refine ⟨rfl, fun harrived => ?_⟩
    have hk : ((peer.stream.drop c.taken).take k).length = k := by
      unfold Conn.available at havail
      rw [List.length_take, List.length_drop]
      omega
    have htake := take_overwrite buf ((peer.stream.drop c.taken).take k) (Nat.zero_le _)
    rw [hk, Nat.zero_add, List.take_zero, List.nil_append] at htake
    exact ⟨htake, by rw [htake, hk]⟩

/-- The handshake sends the announcement and takes at most two bytes. -/
theorem handleNewConn_cases {header : Option Nat} (h : handleNewConn peer c header = some c') :
    c'.arrived = c.arrived ∧ c'.sent = c.sent ∧ c'.announced = allowed (peer.sends 0) 4 ∧
      (c'.taken = c.taken ∧ c'.header = c.header ∨
        ∃ k, k ≤ 2 ∧ k ≤ c.available ∧ c'.taken = c.taken + k ∧ c'.header = k) := by
  obtain ⟨-, heq⟩ | ⟨-, h⟩ := ite_eq_iff.mp h
  · cases heq
    exact ⟨rfl, rfl, rfl, Or.inl ⟨rfl, rfl⟩⟩
  · obtain ⟨⟨n, buf', c₁⟩, hrecv, rfl⟩ := Option.map_eq_some_iff.mp h
    cases header with
    | none =>
      cases hrecv
      exact ⟨rfl, rfl, rfl, Or.inr ⟨0, Nat.zero_le _, Nat.zero_le _, rfl, rfl⟩⟩
    | some k =>
      obtain ⟨⟨hlen, havail⟩, heq⟩ := Option.ite_none_right_eq_some.mp hrecv
      cases heq
      exact ⟨rfl, rfl, rfl, Or.inr ⟨k, hlen, havail, rfl, rfl⟩⟩

end

-- ---------------------------------------------------------------------------
-- The steps
-- ---------------------------------------------------------------------------

/-- The message that `echo` hands to `send`. -/
def Config.message (cfg : Config) (fd : Nat) (c : Conn) : Bytes :=
  ((cfg.peers fd).stream.drop c.taken).take cfg.msgSize.val

/-- Everything a step can be. -/
inductive Step (cfg : Config) (s : State) : Label → State → Prop
  | arrive (fd k : Nat) : (s.conns fd).arrived + k ≤ (cfg.peers fd).stream.length →
      Step cfg s (.arrive fd k)
        (s.setConn fd { s.conns fd with arrived := (s.conns fd).arrived + k })
  | wait (events : List Nat) : s.batch = [] → events.Nodup →
      (∀ fd ∈ events, s.interest fd = true) → Step cfg s (.wait events) { s with batch := events }
  | exit (i : Label) : i = .waitFails ∨ i = .acceptFails → Step cfg s i { s with exited := true }
  | accept (fd : Nat) (header : Option Nat) (rest : List Nat) (c : Conn) : s.exited = false →
      s.batch = cfg.listenFd :: rest → fd ∉ s.accepted → fd ≠ cfg.listenFd →
      handleNewConn (cfg.peers fd) (s.conns fd) header = some c →
      Step cfg s (.accept fd header true)
        { s.setConn fd c with
          batch := rest, accepted := s.accepted ++ [fd], ev := ⟨epollIn, fd⟩
          interest := Function.update s.interest fd true }
  | acceptExit (fd : Nat) (header : Option Nat) (rest : List Nat) (c : Conn) :
      s.batch = cfg.listenFd :: rest → fd ∉ s.accepted → fd ≠ cfg.listenFd →
      handleNewConn (cfg.peers fd) (s.conns fd) header = some c →
      Step cfg s (.accept fd header false)
        { s.setConn fd c with batch := rest, accepted := s.accepted ++ [fd], exited := true }
  | noEpollIn (fd : Nat) (rcv : Option Nat) (rest : List Nat) : s.batch = fd :: rest →
      fd ≠ cfg.listenFd → s.ev.events &&& epollIn = 0 →
      Step cfg s (.echo fd rcv) { s with batch := rest, exited := true }
  | dropped (fd : Nat) (rcv : Option Nat) (rest : List Nat) (n : Int) (buf : Bytes) :
      s.batch = fd :: rest → fd ≠ cfg.listenFd →
      (s.conns fd).recv (cfg.peers fd) s.buf cfg.msgSize.val rcv =
        some (n, buf, (s.conns fd).took rcv) → n < cfg.msgSize.val →
      Step cfg s (.echo fd rcv)
        { (s.setConn fd ((s.conns fd).took rcv)).deregister fd with batch := rest, buf := buf }
  | served (fd : Nat) (rcv : Option Nat) (rest : List Nat) (n : Int) (buf : Bytes) :
      s.batch = fd :: rest → fd ≠ cfg.listenFd →
      (s.conns fd).recv (cfg.peers fd) s.buf cfg.msgSize.val rcv =
        some (n, buf, (s.conns fd).took rcv) → ¬ n < cfg.msgSize.val →
      Step cfg s (.echo fd rcv)
        { s.setConn fd (((s.conns fd).took rcv).send (cfg.peers fd) (buf.take cfg.msgSize.val)).2 with
          batch := rest, buf := buf
          interest :=
            if (((s.conns fd).took rcv).send (cfg.peers fd) (buf.take cfg.msgSize.val)).1 <
                cfg.msgSize.val then
              Function.update s.interest fd false
            else s.interest }

theorem echo_cases {rest : List Nat} {rcv : Option Nat} (hbatch : s.batch = fd :: rest)
    (hfd : fd ≠ cfg.listenFd) (h : echo cfg { s with batch := rest } fd rcv = some t) :
    Step cfg s (.echo fd rcv) t := by
  unfold echo at h
  split at h
  · next hev =>
    cases h
    exact .noEpollIn fd rcv rest hbatch hfd hev
  · obtain ⟨⟨n, buf, c⟩, hrecv, rfl⟩ := Option.map_eq_some_iff.mp h
    obtain ⟨rfl, -⟩ := Conn.recv_cases hrecv
    by_cases hn : n < cfg.msgSize.val
    · simp only [if_pos hn]
      exact .dropped fd rcv rest n buf hbatch hfd hrecv hn
    · simp only [if_neg hn]
      have hserved := Step.served fd rcv rest n buf hbatch hfd hrecv hn
      split
      · next hsend => simpa [hsend, State.setConn, State.deregister] using hserved
      · next hsend => simpa [hsend, State.setConn] using hserved

theorem step_cases {i : Label} (h : step cfg s i = some t) : Step cfg s i t := by
  cases i with
  | arrive fd k =>
    obtain ⟨⟨-, hle⟩, heq⟩ := Option.ite_none_right_eq_some.mp h
    cases heq
    exact .arrive fd k hle
  | wait events =>
    obtain ⟨-, h⟩ := Option.ite_none_left_eq_some.mp h
    obtain ⟨⟨hbatch, hnodup, -, hint⟩, heq⟩ := Option.ite_none_right_eq_some.mp h
    cases heq
    exact .wait events hbatch hnodup hint
  | waitFails =>
    obtain ⟨-, h⟩ := Option.ite_none_left_eq_some.mp h
    obtain ⟨-, heq⟩ := Option.ite_none_right_eq_some.mp h
    cases heq
    exact .exit _ (Or.inl rfl)
  | accept fd header nonblocking =>
    obtain ⟨hexit, h⟩ := Option.ite_none_left_eq_some.mp h
    simp only [mainLoop] at h
    split at h
    · next e rest hbatch =>
      obtain ⟨rfl, haccept⟩ := Option.ite_none_right_eq_some.mp h
      obtain ⟨hfresh, haccept⟩ := Option.ite_none_left_eq_some.mp haccept
      obtain ⟨c, hc, rfl⟩ := Option.map_eq_some_iff.mp haccept
      have hnew : fd ∉ s.accepted := fun hmem => hfresh (Or.inl hmem)
      have hfd : fd ≠ cfg.listenFd := fun heq => hfresh (Or.inr heq)
      cases nonblocking with
      | true => exact .accept fd header rest c (by simpa using hexit) hbatch hnew hfd hc
      | false => exact .acceptExit fd header rest c hbatch hnew hfd hc
    · cases h
  | acceptFails =>
    obtain ⟨-, h⟩ := Option.ite_none_left_eq_some.mp h
    simp only [mainLoop] at h
    split at h
    · obtain ⟨-, heq⟩ := Option.ite_none_right_eq_some.mp h
      cases heq
      exact .exit _ (Or.inr rfl)
    · cases h
  | echo fd rcv =>
    obtain ⟨-, h⟩ := Option.ite_none_left_eq_some.mp h
    simp only [mainLoop] at h
    split at h
    · next e rest hbatch =>
      obtain ⟨⟨rfl, hfd⟩, hecho⟩ := Option.ite_none_right_eq_some.mp h
      exact echo_cases hbatch hfd hecho
    · cases h

end EchoServer.Epoll
