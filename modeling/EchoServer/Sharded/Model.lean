import EchoServer.Common
import EchoServer.Lib.Blocks
import EchoServer.Lib.Machine

/-!
# io_uring_sharded — the event loop and the ring it drives

`main_loop` of `io_uring_sharded.c` multiplexes every connection of one shard
over one ring. The program's part of the state is the threadlet records, the
heap buffers and the position in the loop; the kernel's part is what it has
done so far with each submission entry, and each socket.

Submission and completion entries are kept in tables indexed by free-running
counters, as in the ring itself: entries `sqHead ≤ q < sqTail` are queued and
not yet submitted, completions `cqHead ≤ c < cqTail` are posted and not yet
passed by `io_uring_cq_advance`.

What the kernel may do:

* a submitted request starts at any time, in any order, except that a request
  behind one flagged `IOSQE_IO_LINK` starts only once that one is complete in
  full, and is cancelled when that one failed;
* a running `recv` or `send` moves any number of bytes at a time, reading and
  writing the buffer at that moment;
* it completes in full once every byte is moved, and may fail or come up short
  at any time;
* `io_uring_submit` consumes every queued entry, `malloc` returns a fresh
  block, and `accept` a descriptor that is not open (`main_loop` closes none).
-/

namespace EchoServer.Sharded

open EchoServer.Lib

-- ---------------------------------------------------------------------------
-- Data
-- ---------------------------------------------------------------------------

/-- The `pc` values of a threadlet. -/
inductive Pc
  | accepted
  | receivedHeader
  | receivedMsg
  deriving DecidableEq, Repr

/-- What a pointer can point to; `wild` is an uninitialised pointer. -/
inductive Ptr
  | msgSizeConv
  | headerBuf
  | heap (b : Nat)
  | wild
  deriving DecidableEq, Repr

/-- `threadlet_state_t`. -/
structure Threadlet where
  pc : Pc
  fd : Nat
  buf : Ptr
  deriving DecidableEq, Repr

/-- What a submission entry asks for; every `recv` is flagged `MSG_WAITALL`. -/
inductive Op
  | accept (fd : Nat)
  | send (fd : Nat) (src : Ptr) (len : Nat)
  | recv (fd : Nat) (dst : Ptr) (len : Nat)
  deriving DecidableEq, Repr

/-- The result from which on an operation counts as complete. -/
def Op.len : Op → Nat
  | .accept _ => 0
  | .send _ _ len => len
  | .recv _ _ len => len

/-- A submission entry; `userData = none` is the null pointer. -/
structure Sqe where
  op : Op
  userData : Option Nat
  link : Bool
  deriving DecidableEq, Repr

structure Cqe where
  userData : Option Nat
  res : Int
  deriving DecidableEq, Repr

/-- What the kernel has done with a submission entry: nothing yet, moved some
bytes, or posted a completion (`full` when nothing was missing). -/
inductive Status
  | idle
  | running (moved : Nat)
  | posted (slot : Nat) (full : Bool)
  deriving DecidableEq, Repr

/-- A connection's socket: how many bytes of the client's stream its `recv`s
took, and every byte its `send`s put on the wire with the memory it came from.
`handed` records, for the specification only, the blocks passed to `send`. -/
structure Conn where
  taken : Nat
  wire : List (Ptr × UInt8)
  handed : List Bytes
  deriving DecidableEq, Repr

/-- Where `main_loop` is; `i` is its count of completions seen in this batch. -/
inductive Loop
  | submit
  | wait
  | walk (head i : Nat)
  deriving DecidableEq, Repr

/-- Why the process ended. -/
inductive Exit
  | waitFailed
  | acceptFailed
  | sqFull
  deriving DecidableEq, Repr

/-- What does not change during a run: the announced size, the listening
descriptor, and for each descriptor the stream its client sends. -/
structure Config where
  msgSize : MsgSize
  listenFd : Nat
  streams : Nat → Bytes

structure State where
  loop : Loop
  exit : Option Exit
  recs : Nat → Threadlet
  nRecs : Nat
  mem : Ptr → Bytes
  nBufs : Nat
  sqes : Nat → Sqe
  sqHead : Nat
  sqTail : Nat
  follows : Nat → Bool
  status : Nat → Status
  cqes : Nat → Cqe
  cqHead : Nat
  cqTail : Nat
  conns : Nat → Conn
  opened : List Nat

-- ---------------------------------------------------------------------------
-- The program
-- ---------------------------------------------------------------------------

/-- The size given to `io_uring_queue_init`. -/
def sqEntries : Nat := 4096

/-- `io_uring_get_sqe` and the `prep` calls that fill the entry; a null entry
ends the process. -/
def pushSqe (s : State) (e : Sqe) : Except Exit State :=
  if s.sqTail - s.sqHead < sqEntries then
    .ok { s with sqes := Function.update s.sqes s.sqTail e, sqTail := s.sqTail + 1 }
  else
    .error .sqFull

/-- `add_accept`. -/
def addAccept (s : State) (listenFd : Nat) : Except Exit State := do
  let s ← pushSqe s ⟨.accept listenFd, some s.nRecs, false⟩
  return { s with
    recs := Function.update s.recs s.nRecs ⟨.accepted, listenFd, .wild⟩
    nRecs := s.nRecs + 1 }

/-- The `ACCEPTED` branch of the loop body. -/
def onAccepted (cfg : Config) (s : State) (r : Nat) (res : Int) : Except Exit State := do
  if res < 0 then
    throw .acceptFailed
  let connFd := res.toNat
  let s ← pushSqe s ⟨.send connFd .msgSizeConv 4, none, false⟩
  let s ← addAccept s cfg.listenFd
  let s ← pushSqe s ⟨.recv connFd .headerBuf 2, some r, false⟩
  return { s with
    recs := Function.update s.recs r { s.recs r with pc := .receivedHeader, fd := connFd } }

/-- The `RECEIVED_HEADER` branch. -/
def onReceivedHeader (cfg : Config) (s : State) (r : Nat) (res : Int) : Except Exit State := do
  if res < 2 then
    return s
  let buf := Ptr.heap s.nBufs
  let s ← pushSqe s ⟨.recv (s.recs r).fd buf cfg.msgSize.val, some r, false⟩
  return { s with
    nBufs := s.nBufs + 1
    recs := Function.update s.recs r { s.recs r with pc := .receivedMsg, buf := buf } }

/-- The `RECEIVED_MSG` branch: the reply, linked to the next `recv`. -/
def onReceivedMsg (cfg : Config) (s : State) (r : Nat) (res : Int) : Except Exit State := do
  if res < cfg.msgSize.val then
    return s
  let fd := (s.recs r).fd
  let buf := (s.recs r).buf
  let s ← pushSqe s ⟨.send fd buf cfg.msgSize.val, none, true⟩
  let s ← pushSqe s ⟨.recv fd buf cfg.msgSize.val, some r, false⟩
  let c := s.conns fd
  return { s with
    conns := Function.update s.conns fd
      { c with handed := c.handed ++ [(s.mem buf).take cfg.msgSize.val] } }

/-- The body of `io_uring_for_each_cqe`. -/
def handleCqe (cfg : Config) (s : State) (cqe : Cqe) : Except Exit State :=
  match cqe.userData with
  | none => .ok s
  | some r =>
    match (s.recs r).pc with
    | .accepted => onAccepted cfg s r cqe.res
    | .receivedHeader => onReceivedHeader cfg s r cqe.res
    | .receivedMsg => onReceivedMsg cfg s r cqe.res

-- ---------------------------------------------------------------------------
-- The kernel
-- ---------------------------------------------------------------------------

/-- `io_uring_submit`: every queued entry becomes a request; one queued behind
a linked entry of the same submission follows it. -/
def submitAll (s : State) : State :=
  { s with
    follows := fun q =>
      if s.sqHead ≤ q ∧ q < s.sqTail then decide (s.sqHead < q) && (s.sqes (q - 1)).link
      else s.follows q
    sqHead := s.sqTail
    loop := .wait }

def setStatus (s : State) (q : Nat) (st : Status) : State :=
  { s with status := Function.update s.status q st }

/-- Post the completion of request `q`. -/
def post (s : State) (q : Nat) (res : Int) : State :=
  { s with
    status := Function.update s.status q
      (.posted s.cqTail (decide (((s.sqes q).op.len : Int) ≤ res)))
    cqes := Function.update s.cqes s.cqTail ⟨(s.sqes q).userData, res⟩
    cqTail := s.cqTail + 1 }

/-- Move the next `k` bytes of the client's stream into `dst`. -/
def moveIn (cfg : Config) (s : State) (q fd : Nat) (dst : Ptr) (p k : Nat) : State :=
  let c := s.conns fd
  { s with
    status := Function.update s.status q (.running (p + k))
    mem := Function.update s.mem dst
      (overwrite (s.mem dst) p (((cfg.streams fd).drop c.taken).take k))
    conns := Function.update s.conns fd { c with taken := c.taken + k } }

/-- Put the next `k` bytes of `src` on the wire. -/
def moveOut (s : State) (q fd : Nat) (src : Ptr) (p k : Nat) : State :=
  let c := s.conns fd
  { s with
    status := Function.update s.status q (.running (p + k))
    conns := Function.update s.conns fd
      { c with wire := c.wire ++ (((s.mem src).drop p).take k).map (Prod.mk src) } }

/-- A new connection on descriptor `fd`. -/
def openConn (s : State) (q fd : Nat) : State :=
  let s := post s q fd
  { s with
    conns := Function.update s.conns fd ⟨0, [], []⟩
    opened := fd :: s.opened }

/-- Is request `q` allowed to start, as far as links go? -/
def linkReady (s : State) (q : Nat) : Bool :=
  !s.follows q ||
    match s.status (q - 1) with
    | .posted _ full => full
    | _ => false

/-- Did the request that `q` follows end without completing in full? -/
def linkBroken (s : State) (q : Nat) : Bool :=
  s.follows q &&
    match s.status (q - 1) with
    | .posted _ full => !full
    | _ => false

-- ---------------------------------------------------------------------------
-- The machine
-- ---------------------------------------------------------------------------

/-- One step of `main_loop` or of the kernel. -/
inductive Label
  | submit
  | waitCqe
  | waitError
  | visit
  | advance
  | start (q : Nat)
  | recvSome (q k : Nat)
  | sendSome (q k : Nat)
  | finish (q : Nat)
  | fail (q : Nat) (res : Int)
  | cancel (q : Nat)
  | connect (q fd : Nat)
  deriving DecidableEq, Repr

/-- `ECANCELED`. -/
def ecanceled : Int := -125

/-- The step function; nothing moves once the process has ended. -/
def step (cfg : Config) (s : State) (l : Label) : Option State :=
  if s.exit.isSome then none else
  match l with
  | .submit =>
    match s.loop with
    | .submit => some (submitAll s)
    | _ => none
  | .waitCqe =>
    match s.loop with
    | .wait => if s.cqHead < s.cqTail then some { s with loop := .walk s.cqHead 0 } else none
    | _ => none
  | .waitError =>
    match s.loop with
    | .wait => some { s with exit := some .waitFailed }
    | _ => none
  | .visit =>
    match s.loop with
    | .walk head i =>
      if head < s.cqTail then
        match handleCqe cfg s (s.cqes head) with
        | .ok t => some { t with loop := .walk (head + 1) (i + 1) }
        | .error e => some { s with exit := some e }
      else none
    | _ => none
  | .advance =>
    match s.loop with
    | .walk head i =>
      if head = s.cqTail then some { s with cqHead := s.cqHead + i, loop := .submit } else none
    | _ => none
  | .start q =>
    if q < s.sqHead ∧ s.status q = .idle ∧ linkReady s q = true then
      some (setStatus s q (.running 0))
    else none
  | .recvSome q k =>
    match s.status q, (s.sqes q).op with
    | .running p, .recv fd dst len =>
      if p + k ≤ len ∧ (s.conns fd).taken + k ≤ (cfg.streams fd).length then
        some (moveIn cfg s q fd dst p k)
      else none
    | _, _ => none
  | .sendSome q k =>
    match s.status q, (s.sqes q).op with
    | .running p, .send fd src len => if p + k ≤ len then some (moveOut s q fd src p k) else none
    | _, _ => none
  | .finish q =>
    match s.status q, (s.sqes q).op with
    | .running p, .send _ _ len => if p = len then some (post s q len) else none
    | .running p, .recv _ _ len => if p = len then some (post s q len) else none
    | _, _ => none
  | .fail q res =>
    match s.status q with
    | .running _ => if res < (s.sqes q).op.len then some (post s q res) else none
    | _ => none
  | .cancel q =>
    if q < s.sqHead ∧ s.status q = .idle ∧ linkBroken s q = true then
      some (post s q ecanceled)
    else none
  | .connect q fd =>
    match s.status q, (s.sqes q).op with
    | .running _, .accept _ =>
      if fd ≠ cfg.listenFd ∧ fd ∉ s.opened then some (openConn s q fd) else none
    | _, _ => none

def machine (cfg : Config) : Machine State Label := ⟨step cfg⟩

/-- What memory holds before the program writes it: anything, but every block
`malloc(BUF_SIZE)` will return has its size. -/
structure Junk where
  bytes : Ptr → Bytes
  length_heap : ∀ b, (bytes (.heap b)).length = bufSize

/-- `main_loop` as it enters its loop: one accept queued. -/
def initial (cfg : Config) (junk : Junk) : State where
  loop := .submit
  exit := none
  recs := fun _ => ⟨.accepted, cfg.listenFd, .wild⟩
  nRecs := 1
  mem := fun
    | .msgSizeConv => htonl cfg.msgSize.val
    | p => junk.bytes p
  nBufs := 0
  sqes := fun _ => ⟨.accept cfg.listenFd, some 0, false⟩
  sqHead := 0
  sqTail := 1
  follows := fun _ => false
  status := fun _ => .idle
  cqes := fun _ => ⟨none, 0⟩
  cqHead := 0
  cqTail := 0
  conns := fun _ => ⟨0, [], []⟩
  opened := []

end EchoServer.Sharded
