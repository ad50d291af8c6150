import EchoServer.Threaded.Simple

/-!
# uring.c — one request at a time over a ring

`handle_conn` of `uring.c` queues one entry, submits it and waits for its
completion, where `simple.c` makes a system call; the announcement and the
header are system calls in both. Step by step the two do the same.

* `step_toSimple` — the steps of a session are those of `simple.c`'s;
* `handleConn_wire` — so it leaves the same bytes on the wire.
-/

namespace EchoServer.Uring

open EchoServer.Lib EchoServer.Threaded
open EchoServer.Simple (Buf)

/-- Where `handle_conn` sleeps: in a system call, or in `io_uring_wait_cqe` for
the entry that it has submitted. -/
inductive Pc
  | announcing
  | header
  | waitRecv
  | waitSend
  | returned
  deriving DecidableEq, Repr

/-- `handle_conn`; `n` is what the call returned or the `res` of the completion
that `io_uring_wait_cqe` found, which `io_uring_cqe_seen` passes. -/
def handleConn (m : MsgSize) : Prog Pc Buf UInt8 where
  want
    | .returned => 0
    | _ => 1
  wake pc mem results :=
    let n := results.headD 0
    match pc with
    | .announcing =>
      if n ≤ 0 ∨ n < 4 then ⟨.returned, mem, []⟩ else ⟨.header, mem, [.recv .buf 2]⟩
    | .header => if n < 2 then ⟨.returned, mem, []⟩ else ⟨.waitRecv, mem, [.recv .buf m.val]⟩
    | .waitRecv =>
      if n < m.val then ⟨.returned, mem, []⟩ else ⟨.waitSend, mem, [.send .buf m.val]⟩
    | .waitSend =>
      if n < m.val then ⟨.returned, mem, []⟩ else ⟨.waitRecv, mem, [.recv .buf m.val]⟩
    | .returned => ⟨.returned, mem, []⟩

/-- `handle_conn` in its first call, with `buf` as it lies on the stack. -/
def entry (m : MsgSize) (stack : Buffer) : Thread Pc Buf UInt8 where
  pc := .announcing
  mem
    | .msgSizeConv => htonl m.val
    | .buf => stack.bytes
  flights := [⟨.send .msgSizeConv 4, 0⟩]
  results := []
  seen := 0

-- ---------------------------------------------------------------------------
-- The same steps as the blocking server
-- ---------------------------------------------------------------------------

def Pc.toSimple : Pc → Simple.Pc
  | .announcing => .announcing
  | .header => .header
  | .waitRecv => .recving
  | .waitSend => .sending
  | .returned => .returned

theorem want_toSimple (m : MsgSize) (pc : Pc) :
    (Simple.handleConn m).want pc.toSimple = (handleConn m).want pc := by
  cases pc <;> rfl

/-- Submitting an entry and waiting for it does what the system call does. -/
theorem wake_toSimple (m : MsgSize) (pc : Pc) (mem : Buf → Bytes) (results : List Int) :
    (Simple.handleConn m).wake pc.toSimple mem results =
      ⟨((handleConn m).wake pc mem results).pc.toSimple, ((handleConn m).wake pc mem results).mem,
        ((handleConn m).wake pc mem results).reqs⟩ := by
  cases pc with
  | returned => rfl
  | announcing | header | waitRecv | waitSend =>
    simp only [Simple.handleConn, handleConn, Pc.toSimple]
    split <;> rfl

theorem start_toSimple (m : MsgSize) (stack : Buffer) :
    (Session.start (entry m stack)).mapPc Pc.toSimple =
      Session.start (Simple.entry m stack) := rfl

/-- The handler returns with the same bytes on the wire as the blocking one. -/
theorem handleConn_wire (m : MsgSize) (peer : Peer UInt8) (stack : Buffer) :
    (Session.machine (handleConn m) peer).Inevitably
      (fun x => x.thread.pc = .returned ∧ x.wire = echoWire m peer)
      (Session.start (entry m stack)) := by
  have h := Simple.handleConn_wire m peer stack
  rw [← start_toSimple] at h
  refine (Session.inevitably_mapPc (want_toSimple m) (wake_toSimple m) h).mono fun x hx => ?_
  refine ⟨?_, hx.2⟩
  have hpc : x.thread.pc.toSimple = .returned := hx.1
  cases hp : x.thread.pc <;> rw [hp] at hpc <;> first | rfl | cases hpc

end EchoServer.Uring
