import EchoServer.Common
import EchoServer.Lib.Session

/-!
# epoll_single, epoll_sharded — the event loop

`main_loop` is the same code in both programs; `epoll_sharded` runs it in
several threads, each with an epoll instance and a listener of its own. The loop
takes a batch of events from `epoll_wait` and walks it; a connection is served
through one `buf` and registered through one `ev` that all connections share.

What the kernel may do:

* the bytes of a client arrive in any pieces, at any time;
* `epoll_wait` reports any descriptors of the interest list, in any order, but
  none twice in one call; `epoll_ctl` succeeds;
* `accept` returns a descriptor that is not open (`main_loop` closes none);
* a `recv` on a connection fails or takes any number of the bytes that have
  arrived, up to its length; the `k`-th `send` on a connection fails or takes
  some of its bytes, as given with the peer.
-/

namespace EchoServer.Epoll

open EchoServer.Lib

-- ---------------------------------------------------------------------------
-- Data
-- ---------------------------------------------------------------------------

/-- `EPOLLIN`. -/
abbrev epollIn : Nat := 1

/-- `MAX_EVENTS`. -/
abbrev maxEvents : Nat := 4096

/-- `struct epoll_event`. -/
structure Ev where
  events : Nat
  fd : Nat
  deriving DecidableEq, Repr

/-- A connection's socket: how many bytes of the client's stream have arrived and
how many were taken, how many bytes of the announcement went out, how many
header bytes came in, and what each `send` of a message put on the wire. -/
structure Conn where
  arrived : Nat
  taken : Nat
  announced : Nat
  header : Nat
  sent : List Bytes
  deriving DecidableEq, Repr

/-- What does not change during a run: the announced size, the listening
descriptor, and for each descriptor what its client sends and what becomes of
each `send` to it. -/
structure Config where
  msgSize : MsgSize
  listenFd : Nat
  peers : Nat → Peer UInt8

/-- `batch` is the rest of `events`, from the current position on. -/
structure State where
  batch : List Nat
  buf : Bytes
  ev : Ev
  interest : Nat → Bool
  accepted : List Nat
  conns : Nat → Conn
  exited : Bool

-- ---------------------------------------------------------------------------
-- The system calls on a connection
-- ---------------------------------------------------------------------------

/-- The unread bytes that have arrived. -/
def Conn.available (c : Conn) : Nat := c.arrived - c.taken

/-- `recv(fd, buf, len, …)`: what it returns, and what becomes of `buf`. -/
def Conn.recv (peer : Peer UInt8) (c : Conn) (buf : Bytes) (len : Nat) :
    Option Nat → Option (Int × Bytes × Conn)
  | none => some (-1, buf, c)
  | some k =>
    if k ≤ len ∧ k ≤ c.available then
      some (k, overwrite buf 0 ((peer.stream.drop c.taken).take k), { c with taken := c.taken + k })
    else none

/-- `send` of a message. -/
def Conn.send (peer : Peer UInt8) (c : Conn) (msg : Bytes) : Int × Conn :=
  let out := peer.sends (c.sent.length + 1)
  (outcome out msg.length, { c with sent := c.sent ++ [msg.take (allowed out msg.length)] })

/-- `handle_new_conn`; its two bytes go into a buffer of its own, which nothing
reads. -/
def handleNewConn (peer : Peer UInt8) (c : Conn) (header : Option Nat) : Option Conn :=
  let n := outcome (peer.sends 0) 4
  let c := { c with announced := allowed (peer.sends 0) 4 }
  if n ≤ 0 ∨ n < 4 then some c
  else (c.recv peer [] 2 header).map fun x => { x.2.2 with header := x.1.toNat }

-- ---------------------------------------------------------------------------
-- The loop
-- ---------------------------------------------------------------------------

/-- What the network and the kernel do next. -/
inductive Label
  | arrive (fd k : Nat)
  | wait (events : List Nat)
  | waitFails
  | accept (fd : Nat) (header : Option Nat) (nonblocking : Bool)
  | acceptFails
  | echo (fd : Nat) (rcv : Option Nat)
  deriving DecidableEq, Repr

def State.setConn (s : State) (fd : Nat) (c : Conn) : State :=
  { s with conns := Function.update s.conns fd c }

/-- `epoll_ctl(epfd, EPOLL_CTL_DEL, fd, NULL)`. -/
def State.deregister (s : State) (fd : Nat) : State :=
  { s with interest := Function.update s.interest fd false }

/-- The case of the listening descriptor. -/
def accept (cfg : Config) (s : State) (fd : Nat) (header : Option Nat) (nonblocking : Bool) :
    Option State :=
  if fd ∈ s.accepted ∨ fd = cfg.listenFd then none
  else (handleNewConn (cfg.peers fd) (s.conns fd) header).map fun c =>
    let s := { s.setConn fd c with accepted := s.accepted ++ [fd] }
    -- `set_nonblocking` exits when it fails
    if nonblocking then
      { s with ev := ⟨epollIn, fd⟩, interest := Function.update s.interest fd true }
    else { s with exited := true }

/-- The case of a connection socket. -/
def echo (cfg : Config) (s : State) (fd : Nat) (rcv : Option Nat) : Option State :=
  -- `ev` is not `events[i]`, but what the last `accept` left there
  if s.ev.events &&& epollIn = 0 then some { s with exited := true }
  else ((s.conns fd).recv (cfg.peers fd) s.buf cfg.msgSize.val rcv).map fun (n, buf, c) =>
    let s := { s.setConn fd c with buf := buf }
    if n < cfg.msgSize.val then s.deregister fd
    else
      let (n, c) := c.send (cfg.peers fd) (buf.take cfg.msgSize.val)
      let s := s.setConn fd c
      if n < cfg.msgSize.val then s.deregister fd else s

/-- `k` more bytes of a client arrive. -/
def arrive (cfg : Config) (s : State) (fd k : Nat) : Option State :=
  let c := s.conns fd
  if 0 < k ∧ c.arrived + k ≤ (cfg.peers fd).stream.length then
    some (s.setConn fd { c with arrived := c.arrived + k })
  else none

/-- `main_loop`, one call of `epoll_wait` or one event at a time. -/
def mainLoop (cfg : Config) (s : State) : Label → Option State
  | .wait events =>
    if s.batch = [] ∧ events.Nodup ∧ events.length ≤ maxEvents ∧
        ∀ fd ∈ events, s.interest fd = true then
      some { s with batch := events }
    else none
  | .waitFails => if s.batch = [] then some { s with exited := true } else none
  | .accept fd header nonblocking =>
    match s.batch with
    | e :: rest =>
      if e = cfg.listenFd then accept cfg { s with batch := rest } fd header nonblocking else none
    | [] => none
  | .acceptFails =>
    match s.batch with
    | e :: _ => if e = cfg.listenFd then some { s with exited := true } else none
    | [] => none
  | .echo fd rcv =>
    match s.batch with
    | e :: rest =>
      if e = fd ∧ fd ≠ cfg.listenFd then echo cfg { s with batch := rest } fd rcv else none
    | [] => none
  | .arrive _ _ => none

/-- The network moves whatever the loop does, and alone once the process has exited. -/
def step (cfg : Config) (s : State) (i : Label) : Option State :=
  match i with
  | .arrive fd k => arrive cfg s fd k
  | i => if s.exited then none else mainLoop cfg s i

def machine (cfg : Config) : Machine State Label := ⟨step cfg⟩

/-- What lies in `buf` and `ev` before anything is written there. -/
structure Junk where
  buf : Buffer
  ev : Ev

/-- `start_server` has registered the listener. -/
def initial (cfg : Config) (junk : Junk) : State where
  batch := []
  buf := junk.buf.bytes
  ev := junk.ev
  interest := fun fd => fd == cfg.listenFd
  accepted := []
  conns := fun _ => ⟨0, 0, 0, 0, []⟩
  exited := false

end EchoServer.Epoll
