import EchoServer.EndToEnd.Agreement
import EchoServer.Go.Client
import EchoServer.Go.Server

/-!
# The Go server's announcement

`handleConn` of `go/simple/main.go` announces the message size in eight bytes, of
which a client reads four. The other four, all zero, are what the client takes for
the beginning of the first reply, and every reply after it is late by four bytes.

The clients are those of the repository, in C and in Go. Nothing is assumed of the size,
of the messages or of the order of steps: a client that has read its four bytes goes on
with the other four in the direction of its replies, in every run that comes so far.

Main results:

* `announcement_put` — what is written when the announcement is;
* `replies_shifted` — what the clients read as the `k`-th reply;
* `handshake_never_framed` — in no run of either client the bytes written are the
  bytes read.
-/

namespace EchoServer.Go

open EchoServer.Lib EchoServer.Client EchoServer.EndToEnd

-- ---------------------------------------------------------------------------
-- The clients against the server
-- ---------------------------------------------------------------------------

/-- A client against the Go server, on a connection as in `EndToEnd`. -/
def machine {κ β : Type*} [DecidableEq β] (client : Prog κ β UInt8) (msgSize : Nat) (c : Conn) :
    Machine (Duplex κ β GoServer.Pc GoServer.Buf UInt8) Turn :=
  Duplex.machine ⟨client, GoServer.handleConn msgSize, c.upCap, c.downCap⟩

/-- Both sides are in their first call. -/
def start {κ β : Type*} (client : Thread κ β UInt8) (msgSize : Nat) :
    Duplex κ β GoServer.Pc GoServer.Buf UInt8 :=
  Duplex.start client (GoServer.entry msgSize)

/-- The handler's first `Write` has returned. -/
def Written {κ β : Type*} (msgSize : Nat) (x : Duplex κ β GoServer.Pc GoServer.Buf UInt8) : Prop :=
  x.right.pc = .announcing ∧ x.right.ready (GoServer.handleConn msgSize) = true

/-- The client's first `Read`, or `recv`, has returned; `size` is the place of it. -/
def Read {κ β : Type*} (client : Prog κ β UInt8) (size : κ)
    (x : Duplex κ β GoServer.Pc GoServer.Buf UInt8) : Prop :=
  x.left.pc = size ∧ x.left.ready client = true

/-- The bytes the server writes as its announcement are the bytes the client reads
as it, in every run. -/
def Framed {κ β : Type*} [DecidableEq β] (client : Prog κ β UInt8) (entry : Thread κ β UInt8)
    (size : κ) (msgSize : Nat) (c : Conn) : Prop :=
  ∀ x y, (machine client msgSize c).Reachable (start entry msgSize) x →
    (machine client msgSize c).Reachable (start entry msgSize) y →
    Written msgSize x → Read client size y → x.down.put = y.down.got

variable {msgSize : Nat} {m : MsgSize} {c : Conn}

-- ---------------------------------------------------------------------------
-- What holds of a client and the server
-- ---------------------------------------------------------------------------

/-- What the server has put is its announcement, of which the client reads four bytes,
and then what the client has sent after "Hi". -/
theorem got_shifted {κ β : Type*} {n : Nat} {x : Duplex κ β GoServer.Pc GoServer.Buf UInt8}
    (hput : ∃ k, x.up.put <+: hello ++ messages n c.fill k)
    (hserver : GoServer.At msgSize x.right x.down.put x.up.got) :
    ∃ k, x.down.got <+: htonl msgSize ++ (List.replicate 4 0 ++ messages n c.fill k) := by
  obtain ⟨k, hU⟩ := hput
  have hV : x.up.got <+: hello ++ messages n c.fill k := x.up.got_prefix.trans hU
  have hbody : x.up.got.drop 2 <+: messages n c.fill k := hV.drop 2
  refine ⟨k, (x.down.got_prefix.trans hserver.phase.echo).trans ?_⟩
  rw [GoServer.announcement, ← List.append_assoc]
  exact (List.prefix_append_right_inj _).mpr hbody

/-- The Go client decodes the size as far as 32 bits hold it. -/
abbrev GoLinked (msgSize : Nat) (c : Conn) :
    Duplex GoClient.Pc GoClient.Buf GoServer.Pc GoServer.Buf UInt8 → Prop :=
  Duplex.Pair (GoClient.At (msgSize % 2 ^ 32) c.fill) (GoServer.At msgSize)

theorem goLinked_reachable {x : Duplex GoClient.Pc GoClient.Buf GoServer.Pc GoServer.Buf UInt8}
    (hrun : (machine (GoClient.client c.fill) msgSize c).Reachable (start GoClient.entry msgSize) x) :
    GoLinked msgSize c x := by
  have hkeeps : (machine (GoClient.client c.fill) msgSize c).Preserves (GoLinked msgSize c) := by
    refine Duplex.pair_step (GoClient.keeps _ c.fill) (GoServer.keeps msgSize) fun x h => ⟨?_, trivial⟩
    intro hlen
    obtain ⟨k, hk⟩ := got_shifted h.1.phase.put_messages h.2
    rw [eq_of_prefixes hk (List.prefix_append _ _) (hlen.trans (length_htonl _).symm),
      ntohl_htonl_mod]
  exact hkeeps.reachable ⟨GoClient.at_entry _ c.fill, GoServer.at_entry msgSize⟩ hrun

abbrev CLinked (m : MsgSize) (c : Conn) :
    Duplex Client.Pc Client.Buf GoServer.Pc GoServer.Buf UInt8 → Prop :=
  Duplex.Pair (Client.At m c.fill) (GoServer.At m.val)

theorem cLinked_reachable {x : Duplex Client.Pc Client.Buf GoServer.Pc GoServer.Buf UInt8}
    (hrun : (machine (Client.client c.fill) m.val c).Reachable
      (start (Client.entry c.word) m.val) x) : CLinked m c x := by
  have hkeeps : (machine (Client.client c.fill) m.val c).Preserves (CLinked m c) := by
    refine Duplex.pair_step (Client.keeps m c.fill) (GoServer.keeps m.val) fun x h => ⟨?_, trivial⟩
    obtain ⟨k, hk⟩ := got_shifted h.1.phase.put_messages h.2
    exact ⟨_, hk⟩
  exact hkeeps.reachable ⟨Client.at_entry m c.fill c.word, GoServer.at_entry m.val⟩ hrun

-- ---------------------------------------------------------------------------
-- The announcement
-- ---------------------------------------------------------------------------

/-- When the handler's first `Write` has returned, eight bytes are written. -/
theorem announcement_put {κ β : Type*} {x : Duplex κ β GoServer.Pc GoServer.Buf UInt8}
    (h : GoServer.At msgSize x.right x.down.put x.up.got) (hwritten : Written msgSize x) :
    x.down.put = GoServer.announcement msgSize := by
  obtain ⟨hpc, hready⟩ := hwritten
  cases h.phase with
  | announcing _ hmem htalk =>
    obtain ⟨-, hput, -⟩ := htalk.sendOver hready (by rw [hpc]; rfl)
    rw [hput, hmem, List.nil_append]
  | header hpc' | recving _ _ hpc' | sending _ _ hpc' =>
    rw [hpc'] at hpc
    cases hpc
  | ended _ hwant =>
    rw [hpc] at hwant
    cases hwant

/-- When the client's first `Read` has returned, at most four bytes are read. -/
theorem length_got_le {κ β : Type*} {t : Thread κ β UInt8} {w : Bool} {dst : β} {U W : Bytes}
    (h : t.Talk w (.recv dst 4) hello [] U W) : W.length ≤ 4 := by
  cases h with
  | recving hcall =>
    rw [List.nil_append, List.length_take]
    exact Nat.le_trans (Nat.min_le_left _ _) hcall.le

theorem not_framed_of_lengths {D W : Bytes} (hD : D = GoServer.announcement msgSize)
    (hW : W.length ≤ 4) : D ≠ W := by
  rintro rfl
  rw [hD, GoServer.announcement, List.length_append, length_htonl, List.length_replicate] at hW
  omega

/-- Both sides up to the end of the handshake. -/
def handshake : List Turn :=
  [.left (.put 2), .left .complete, .left .wake, .right (.put 4), .left (.get 4), .left .complete,
    .right (.put 4), .right .complete]

/-- Whatever the size and the messages are, both sides can come to the end of the
handshake. -/
theorem exists_handshake {κ β : Type*} [DecidableEq β] {client : Prog κ β UInt8}
    {entry : Thread κ β UInt8} {size : κ}
    (hrun : ((machine client msgSize { c with
        upCap := 4, downCap := 4, four_le_upCap := Nat.le_refl 4
        four_le_downCap := Nat.le_refl 4 }).exec (start entry msgSize) handshake).map
      (fun x => ((x.right.pc, x.right.ready (GoServer.handleConn msgSize)),
        (x.left.pc, x.left.ready client))) = some ((.announcing, true), (size, true))) :
    ∃ x, (machine client msgSize c).Reachable (start entry msgSize) x ∧ Written msgSize x ∧
      Read client size x := by
  obtain ⟨x, hx, heq⟩ := Option.map_eq_some_iff.mp hrun
  simp only [Prod.mk.injEq] at heq
  exact ⟨x, ⟨_, Duplex.exec_of_room c.four_le_upCap c.four_le_downCap hx⟩, heq.1, heq.2⟩

theorem go_handshake (msgSize : Nat) (c : Conn) :
    ∃ x, (machine (GoClient.client c.fill) msgSize c).Reachable (start GoClient.entry msgSize) x ∧
      Written msgSize x ∧ Read (GoClient.client c.fill) .size x :=
  exists_handshake rfl

theorem c_handshake (msgSize : Nat) (c : Conn) :
    ∃ x, (machine (Client.client c.fill) msgSize c).Reachable
        (start (Client.entry c.word) msgSize) x ∧
      Written msgSize x ∧ Read (Client.client c.fill) .size x :=
  exists_handshake rfl

-- ---------------------------------------------------------------------------
-- The replies
-- ---------------------------------------------------------------------------

/-- The `k`-th block of four zero bytes and the messages behind them. -/
def lateReply (n : Nat) (fill : Nat → Buffer) (k : Nat) : Bytes :=
  block n k (List.replicate 4 0 ++ messages n fill (k + 1))

theorem block_eq_lateReply {n k k' : Nat} {fill : Nat → Buffer} (hn : n ≤ bufSize)
    (h : (k + 1) * n ≤ (List.replicate 4 (0 : UInt8) ++ messages n fill k').length) :
    block n k (List.replicate 4 0 ++ messages n fill k') = lateReply n fill k := by
  have hpre : ∀ {j : Nat}, j ≤ max k' (k + 1) →
      List.replicate 4 (0 : UInt8) ++ messages n fill j <+:
        List.replicate 4 0 ++ messages n fill (max k' (k + 1)) :=
    fun hj => (List.prefix_append_right_inj _).mpr (messages_mono hj)
  refine block_congr (hpre (Nat.le_max_left _ _)) (hpre (Nat.le_max_right _ _)) h ?_
  rw [List.length_append, length_messages hn]
  exact Nat.le_add_left _ _

theorem go_reply {x : Duplex GoClient.Pc GoClient.Buf GoServer.Pc GoServer.Buf UInt8}
    (h : GoLinked msgSize c x) {size k : Nat} (hpc : x.left.pc = .recving size k)
    (hready : x.left.ready (GoClient.client c.fill) = true)
    (hfull : x.left.pending = [(size : Int)]) :
    (x.left.mem .buf).take size = lateReply size c.fill k := by
  obtain ⟨k', hread⟩ := got_shifted h.1.phase.put_messages h.2
  obtain ⟨hsize, hle, hlong, hreply⟩ :=
    h.1.phase.reply (length_htonl _) hread hpc hready hfull
  rw [hreply, hsize, block_eq_lateReply hle hlong]

theorem c_reply {x : Duplex Client.Pc Client.Buf GoServer.Pc GoServer.Buf UInt8}
    (h : CLinked m c x) {size k : Nat} (hpc : x.left.pc = .recving size k)
    (hready : x.left.ready (Client.client c.fill) = true) :
    (x.left.mem .buf).take size = lateReply size c.fill k := by
  obtain ⟨k', hread⟩ := got_shifted h.1.phase.put_messages h.2
  obtain ⟨hsize, hlong, hreply⟩ := h.1.phase.reply hread hpc hready
  rw [hreply, hsize, block_eq_lateReply m.le_bufSize hlong]

-- ---------------------------------------------------------------------------
-- The handshake is never framed
-- ---------------------------------------------------------------------------

theorem go_written_ne_read {x y : Duplex GoClient.Pc GoClient.Buf GoServer.Pc GoServer.Buf UInt8}
    (hx : GoLinked msgSize c x) (hy : GoLinked msgSize c y) (hwritten : Written msgSize x)
    (hread : Read (GoClient.client c.fill) .size y) : x.down.put ≠ y.down.got := by
  refine not_framed_of_lengths (announcement_put hx.2 hwritten) ?_
  cases hy.1.phase with
  | size _ htalk => exact length_got_le htalk
  | hi hpc | sending _ _ hpc | recving _ _ hpc | ended _ _ hpc =>
    have hsize := hread.1
    rw [hpc] at hsize
    cases hsize

theorem c_written_ne_read {x y : Duplex Client.Pc Client.Buf GoServer.Pc GoServer.Buf UInt8}
    (hx : CLinked m c x) (hy : CLinked m c y) (hwritten : Written m.val x)
    (hread : Read (Client.client c.fill) .size y) : x.down.put ≠ y.down.got := by
  refine not_framed_of_lengths (announcement_put hx.2 hwritten) ?_
  cases hy.1.phase with
  | size _ htalk => exact length_got_le htalk
  | hi hpc | sending _ _ hpc | recving _ _ hpc =>
    have hsize := hread.1
    rw [hpc] at hsize
    cases hsize

/-- **The announcement is never what is read of it.** For every message size, all
messages and either client there are runs in which both sides get through the
handshake, and in each of them the server has written other bytes than the client
has read; what the client reads then as the `k`-th reply is four bytes late. -/
theorem handshake_never_framed (msgSize : Nat) (m : MsgSize) (c : Conn) :
    (¬ Framed (GoClient.client c.fill) GoClient.entry .size msgSize c ∧
      ¬ Framed (Client.client c.fill) (Client.entry c.word) .size m.val c) ∧
    (∀ x y, (machine (GoClient.client c.fill) msgSize c).Reachable (start GoClient.entry msgSize) x →
      (machine (GoClient.client c.fill) msgSize c).Reachable (start GoClient.entry msgSize) y →
      Written msgSize x → Read (GoClient.client c.fill) .size y → x.down.put ≠ y.down.got) ∧
    (∀ x y, (machine (Client.client c.fill) m.val c).Reachable (start (Client.entry c.word) m.val) x →
      (machine (Client.client c.fill) m.val c).Reachable (start (Client.entry c.word) m.val) y →
      Written m.val x → Read (Client.client c.fill) .size y → x.down.put ≠ y.down.got) ∧
    (∀ x, (machine (GoClient.client c.fill) msgSize c).Reachable (start GoClient.entry msgSize) x →
      ∀ size k, x.left.pc = .recving size k → x.left.ready (GoClient.client c.fill) = true →
      x.left.pending = [(size : Int)] → (x.left.mem .buf).take size = lateReply size c.fill k) ∧
    (∀ x, (machine (Client.client c.fill) m.val c).Reachable (start (Client.entry c.word) m.val) x →
      ∀ size k, x.left.pc = .recving size k → x.left.ready (Client.client c.fill) = true →
      (x.left.mem .buf).take size = lateReply size c.fill k) := by
  refine ⟨⟨?_, ?_⟩, ?_, ?_, ?_, ?_⟩
  · intro hframed
    obtain ⟨x, hx, hwritten, hread⟩ := go_handshake msgSize c
    exact go_written_ne_read (goLinked_reachable hx) (goLinked_reachable hx) hwritten hread
      (hframed x x hx hx hwritten hread)
  · intro hframed
    obtain ⟨x, hx, hwritten, hread⟩ := c_handshake m.val c
    exact c_written_ne_read (cLinked_reachable hx) (cLinked_reachable hx) hwritten hread
      (hframed x x hx hx hwritten hread)
  · intro x y hx hy hwritten hread
    exact go_written_ne_read (goLinked_reachable hx) (goLinked_reachable hy) hwritten hread
  · intro x y hx hy hwritten hread
    exact c_written_ne_read (cLinked_reachable hx) (cLinked_reachable hy) hwritten hread
  · intro x hx size k hpc hready hfull
    exact go_reply (goLinked_reachable hx) hpc hready hfull
  · intro x hx size k hpc hready
    exact c_reply (cLinked_reachable hx) hpc hready

/-- The Go client and the Go server up to the first reply, of four bytes. -/
def firstReply : List Turn :=
  handshake ++ [.right .wake, .right (.get 2), .right .complete, .right .wake, .left .wake,
    .left (.put 4), .left .complete, .left .wake, .left (.get 4), .left .complete]

theorem handshake_misframed_firstReply :
    let c : Conn := ⟨fun _ => ⟨List.replicate bufSize 7, List.length_replicate⟩, 4, 4, 0,
      ⟨List.replicate bufSize 0, List.length_replicate⟩, by decide, by decide⟩
    ∃ x y, (machine (GoClient.client c.fill) 4 c).exec (start GoClient.entry 4) handshake = some x ∧
      (machine (GoClient.client c.fill) 4 c).exec (start GoClient.entry 4) firstReply = some y ∧
      x.down.put = [0, 0, 0, 4, 0, 0, 0, 0] ∧ x.down.got = [0, 0, 0, 4] ∧
      y.left.pc = .recving 4 0 ∧ y.left.pending = [4] ∧
      (y.left.mem .buf).take 4 = [0, 0, 0, 0] ∧ message 4 c.fill 0 = [7, 7, 7, 7] := by
  intro c
  have hx : ((machine (GoClient.client c.fill) 4 c).exec (start GoClient.entry 4) handshake).map
      (fun x => (x.down.put, x.down.got)) = some ([0, 0, 0, 4, 0, 0, 0, 0], [0, 0, 0, 4]) := by
    decide
  have hy : ((machine (GoClient.client c.fill) 4 c).exec (start GoClient.entry 4) firstReply).map
      (fun y => (y.left.pc, y.left.pending, (y.left.mem .buf).take 4)) =
      some (.recving 4 0, [4], [0, 0, 0, 0]) := by decide
  obtain ⟨x, hx, hxeq⟩ := Option.map_eq_some_iff.mp hx
  obtain ⟨y, hy, hyeq⟩ := Option.map_eq_some_iff.mp hy
  simp only [Prod.mk.injEq] at hxeq hyeq
  exact ⟨x, y, hx, hy, hxeq.1, hxeq.2, hyeq.1, hyeq.2.1, hyeq.2.2, by decide⟩

end EchoServer.Go
