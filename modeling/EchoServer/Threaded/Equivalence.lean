import EchoServer.Threaded.Uring
import EchoServer.Threaded.Uring2

/-!
# Thread-per-connection servers — the three are equivalent

Each handler was shown by itself to put the same bytes on the wire, whatever the order of
steps. The peer is one and the same for all three: its stream, and what its `k`-th `send`
takes or fails with, are fixed in advance; how the stream is cut into pieces, and in which
order requests make progress and complete, is not, and need not be the same for the three.

That each of them comes to its end is part of the result: there is no run in which a
handler goes on for ever with the stream at its end.

Main results:

* `handleConn_equivalent` — `simple.c`, `uring.c` and `uring2.c` put the same
  bytes on the wire of a connection.
-/

namespace EchoServer.Threaded

open EchoServer.Lib

/-- On every connection, for every message size, client stream, segmentation,
order of steps and fate of the `send`s, each of the three handlers returns, and
then the wire holds the announcement and the complete blocks of the stream, cut
where a `send` failed. -/
theorem handleConn_equivalent (m : MsgSize) (peer : Peer UInt8) (buf sendBuf recvBuf : Buffer) :
    (Session.machine (Simple.handleConn m) peer).Inevitably
        (fun x => x.thread.pc = .returned ∧ x.wire = echoWire m peer)
        (Session.start (Simple.entry m buf)) ∧
      (Session.machine (Uring.handleConn m) peer).Inevitably
        (fun x => x.thread.pc = .returned ∧ x.wire = echoWire m peer)
        (Session.start (Uring.entry m buf)) ∧
      (Session.machine (Uring2.handleConn m) peer).Inevitably
        (fun x => x.thread.pc = .returned ∧ x.wire = echoWire m peer)
        (Session.start (Uring2.entry m sendBuf recvBuf)) :=
  ⟨Simple.handleConn_wire m peer buf, Uring.handleConn_wire m peer buf,
    Uring2.handleConn_wire m peer sendBuf recvBuf⟩

end EchoServer.Threaded
