import EchoServer.Threaded.Simple

/-!
# uring2.c — one message ahead

`handle_conn` of `uring2.c` sends message `k` from one buffer while it receives
message `k + 1` into another, waits for both completions and copies. It runs one
message ahead of `simple.c`; what is on the wire and what is left to send still
make up what belongs there, the next message being in `send_buf`.

* `handleConn_wire` — whatever the segmentation and the order in which the two
  requests complete, the handler leaves the same bytes on the wire.
-/

namespace EchoServer.Uring2

open EchoServer.Lib EchoServer.Threaded
open EchoServer.Simple (blocks_received blocks_short)

-- ---------------------------------------------------------------------------
-- The handler
-- ---------------------------------------------------------------------------

/-- Where `handle_conn` sleeps: in one of the three system calls, or in
`io_uring_wait_cqes`. -/
inductive Pc
  | announcing
  | header
  | first
  | waitBoth
  | returned
  deriving DecidableEq, Repr

/-- The variables whose bytes the requests move. -/
inductive Buf
  | msgSizeConv
  | sendBuf
  | recvBuf
  deriving DecidableEq, Repr

/-- `handle_conn`. In the loop the results are those that
`io_uring_for_each_cqe` walks; `io_uring_cq_advance` passes two. -/
def handleConn (m : MsgSize) : Prog Pc Buf UInt8 where
  want
    | .returned => 0
    | .waitBoth => 2
    | _ => 1
  wake pc mem results :=
    let n := results.headD 0
    match pc with
    | .announcing =>
      if n ≤ 0 ∨ n < 4 then ⟨.returned, mem, []⟩ else ⟨.header, mem, [.recv .recvBuf 2]⟩
    | .header =>
      if n ≤ 0 ∨ n < 2 then ⟨.returned, mem, []⟩ else ⟨.first, mem, [.recv .sendBuf m.val]⟩
    | .first =>
      if n < m.val then ⟨.returned, mem, []⟩
      else ⟨.waitBoth, mem, [.send .sendBuf m.val, .recv .recvBuf m.val]⟩
    | .waitBoth =>
      if results.any fun n => decide (n < m.val) then ⟨.returned, mem, []⟩
      else
        ⟨.waitBoth,
          Function.update mem .sendBuf (overwrite (mem .sendBuf) 0 ((mem .recvBuf).take m.val)),
          [.send .sendBuf m.val, .recv .recvBuf m.val]⟩
    | .returned => ⟨.returned, mem, []⟩

/-- `handle_conn` in its first call, with the buffers as they lie on the stack. -/
def entry (m : MsgSize) (sendStack recvStack : Buffer) : Thread Pc Buf UInt8 where
  pc := .announcing
  mem
    | .msgSizeConv => htonl m.val
    | .sendBuf => sendStack.bytes
    | .recvBuf => recvStack.bytes
  flights := [⟨.send .msgSizeConv 4, 0⟩]
  results := []
  seen := 0

section

variable {m : MsgSize} {mem : Buf → Bytes} {n : Int}

theorem wake_of_announcing : (handleConn m).wake .announcing mem [n] =
    if n < 4 then ⟨.returned, mem, []⟩ else ⟨.header, mem, [.recv .recvBuf 2]⟩ := by
  have hiff : n ≤ 0 ∨ n < 4 ↔ n < 4 := by omega
  exact if_congr hiff rfl rfl

theorem wake_of_header : (handleConn m).wake .header mem [n] =
    if n < 2 then ⟨.returned, mem, []⟩ else ⟨.first, mem, [.recv .sendBuf m.val]⟩ := by
  have hiff : n ≤ 0 ∨ n < 2 ↔ n < 2 := by omega
  exact if_congr hiff rfl rfl

theorem wake_of_first : (handleConn m).wake .first mem [n] =
    if n < m.val then ⟨.returned, mem, []⟩
    else ⟨.waitBoth, mem, [.send .sendBuf m.val, .recv .recvBuf m.val]⟩ := rfl

/-- `memcpy(send_buf, recv_buf, msg_size)`. -/
def copied (m : MsgSize) (mem : Buf → Bytes) : Buf → Bytes :=
  Function.update mem .sendBuf (overwrite (mem .sendBuf) 0 ((mem .recvBuf).take m.val))

/-- The completions of the two requests may come in either order. -/
theorem wake_of_waitBoth {a b : Int} {results : List Int} (hperm : results.Perm [a, b]) :
    (handleConn m).wake .waitBoth mem results =
      if a < m.val ∨ b < m.val then ⟨.returned, mem, []⟩
      else ⟨.waitBoth, copied m mem, [.send .sendBuf m.val, .recv .recvBuf m.val]⟩ := by
  have hany : results.any (fun n => decide (n < (m.val : Int))) = true ↔
      a < m.val ∨ b < m.val := by
    rw [hperm.any_eq]
    simp
  exact if_congr hany rfl rfl

theorem copied_recvBuf : copied m mem .recvBuf = mem .recvBuf :=
  Function.update_of_ne (by decide) _ _

theorem copied_sendBuf :
    copied m mem .sendBuf = overwrite (mem .sendBuf) 0 ((mem .recvBuf).take m.val) :=
  Function.update_self ..

theorem length_copied_sendBuf (h : m.val ≤ (mem .sendBuf).length) :
    (copied m mem .sendBuf).length = (mem .sendBuf).length := by
  rw [copied_sendBuf]
  refine length_overwrite ?_
  rw [List.length_take]
  omega

/-- The block that came in is the one that goes out. -/
theorem take_copied_sendBuf (h : m.val ≤ (mem .recvBuf).length) :
    (copied m mem .sendBuf).take m.val = (mem .recvBuf).take m.val := by
  have hcopy : ((mem .recvBuf).take m.val).length = m.val := by
    rw [List.length_take]
    omega
  have hover := take_overwrite (mem .sendBuf) ((mem .recvBuf).take m.val) (i := 0) (Nat.zero_le _)
  rw [hcopy, Nat.zero_add, List.take_zero, List.nil_append] at hover
  rw [copied_sendBuf, hover]

end

-- ---------------------------------------------------------------------------
-- The loop invariant
-- ---------------------------------------------------------------------------

variable {m : MsgSize} {peer : Peer UInt8} {x y : Session Pc Buf UInt8}

/-- The phases of the handler; `base` is where in the stream the next `recv`
begins. In the loop the message before that one is in `send_buf`. -/
inductive Phase (m : MsgSize) (peer : Peer UInt8) (x : Session Pc Buf UInt8) : Prop
  | announcing : x.thread.pc = .announcing → x.thread.mem .msgSizeConv = htonl m.val →
      x.thread.seen = 0 → Session.Calls peer x [] 0 0 (some (.msgSizeConv, 4)) none →
      Phase m peer x
  | header (w : Bytes) (j : Nat) : x.thread.pc = .header → x.thread.seen = 1 →
      w ++ cutWire peer.sends j (blocks m.val (peer.stream.drop 2)) = echoWire m peer →
      Session.Calls peer x w j 0 none (some (.recvBuf, 2)) → Phase m peer x
  | first (w : Bytes) (j : Nat) : x.thread.pc = .first → x.thread.seen = 2 →
      w ++ cutWire peer.sends j (blocks m.val (peer.stream.drop 2)) = echoWire m peer →
      Session.Calls peer x w j 2 none (some (.sendBuf, m.val)) → Phase m peer x
  | waitBoth (w block : Bytes) (j base : Nat) : x.thread.pc = .waitBoth →
      x.thread.seen + 1 ≤ 2 * base → (x.thread.mem .sendBuf).take m.val = block →
      block.length = m.val →
      w ++ cutWire peer.sends j (block :: blocks m.val (peer.stream.drop base)) =
        echoWire m peer →
      Session.Calls peer x w j base (some (.sendBuf, m.val)) (some (.recvBuf, m.val)) →
      Phase m peer x
  | returned : x.thread.pc = .returned → x.thread.flights = [] → x.wire = echoWire m peer →
      Phase m peer x

structure Inv (m : MsgSize) (peer : Peer UInt8) (x : Session Pc Buf UInt8) : Prop where
  wire : Session.Wire peer x
  length_send : (x.thread.mem .sendBuf).length = bufSize
  length_recv : (x.thread.mem .recvBuf).length = bufSize
  phase : Phase m peer x

theorem inv_start (m : MsgSize) (peer : Peer UInt8) (sendStack recvStack : Buffer) :
    Inv m peer (Session.start (entry m sendStack recvStack)) := by
  refine ⟨⟨Nat.le_refl _, Nat.zero_le _, fun h => by cases h⟩, sendStack.length_eq,
    recvStack.length_eq,
    .announcing rfl rfl rfl ⟨⟨_, [], [], [], .moving _ 4 0 (Nat.zero_le _) rfl rfl, .none rfl, rfl,
      .refl _⟩, Nat.le_refl _, ?_, ?_⟩⟩
  · intro _ _ _ _ _ h
    cases h
  · intro _ _ h
    cases h

/-- While the handler sleeps, its phase does not change. -/
theorem Inv.asleep {e : Event} (h : Inv m peer x)
    (hstep : Session.Step (handleConn m) peer x e y) (he : e ≠ .wake) : Inv m peer y := by
  have hwire := h.wire.step hstep
  cases h.phase with
  | announcing hpc hmem hseen hcalls =>
    obtain ⟨hc, ha⟩ := hcalls.step h.wire hstep he
    exact ⟨hwire, (ha.length _).trans h.length_send, (ha.length _).trans h.length_recv,
      .announcing (ha.pc.trans hpc) ((ha.mem _ fun _ h => by cases h).trans hmem)
        (ha.seen.trans hseen) hc⟩
  | header w j hpc hseen hrest hcalls =>
    obtain ⟨hc, ha⟩ := hcalls.step h.wire hstep he
    exact ⟨hwire, (ha.length _).trans h.length_send, (ha.length _).trans h.length_recv,
      .header w j (ha.pc.trans hpc) (ha.seen.trans hseen) hrest hc⟩
  | first w j hpc hseen hrest hcalls =>
    obtain ⟨hc, ha⟩ := hcalls.step h.wire hstep he
    exact ⟨hwire, (ha.length _).trans h.length_send, (ha.length _).trans h.length_recv,
      .first w j (ha.pc.trans hpc) (ha.seen.trans hseen) hrest hc⟩
  | waitBoth w block j base hpc hseen hmem hlen hrest hcalls =>
    obtain ⟨hc, ha⟩ := hcalls.step h.wire hstep he
    exact ⟨hwire, (ha.length _).trans h.length_send, (ha.length _).trans h.length_recv,
      .waitBoth w block j base (ha.pc.trans hpc) (by rw [ha.seen]; exact hseen)
        (by rw [ha.mem _ fun _ h => by cases h]; exact hmem) hlen hrest hc⟩
  | returned hpc hflights hw =>
    -- nothing is in flight, so only the network moves
    cases hstep with
    | arrive => exact ⟨hwire, h.length_send, h.length_recv, .returned hpc hflights hw⟩
    | fin => exact ⟨hwire, h.length_send, h.length_recv, .returned hpc hflights hw⟩
    | moveIn _ _ _ _ _ hf | moveOut _ _ _ _ _ hf | received _ _ _ _ hf | wasSent _ _ _ hf =>
      rw [hflights] at hf
      simp at hf
    | wake => exact absurd rfl he

/-- The handler returns. -/
theorem Inv.stop (h : Inv m peer x) (hwire : Session.Wire peer y)
    (hy : y = { x with thread := x.thread.run (handleConn m) })
    (hflights : x.thread.flights = [])
    (hnext : (handleConn m).wake x.thread.pc x.thread.mem x.thread.pending =
      ⟨.returned, x.thread.mem, []⟩)
    (hw : x.wire = echoWire m peer) : Inv m peer y := by
  subst hy
  have hmem : (x.thread.run (handleConn m)).mem = x.thread.mem := congrArg Wake.mem hnext
  refine ⟨hwire, ?_, ?_, .returned (congrArg Wake.pc hnext) ?_ hw⟩
  · simp only [hmem]
    exact h.length_send
  · simp only [hmem]
    exact h.length_recv
  · simp only [Thread.run, hnext, hflights]
    rfl

/-- The handler goes on to its next requests. -/
theorem Inv.go {pc : Pc} {mem : Buf → Bytes} {reqs : List (Req Buf)}
    (hwire : Session.Wire peer { x with thread := x.thread.run (handleConn m) })
    (hnext : (handleConn m).wake x.thread.pc x.thread.mem x.thread.pending = ⟨pc, mem, reqs⟩)
    (hsend : (mem .sendBuf).length = bufSize) (hrecv : (mem .recvBuf).length = bufSize)
    (hphase : Phase m peer { x with thread := x.thread.run (handleConn m) }) :
    Inv m peer { x with thread := x.thread.run (handleConn m) } := by
  have hmem : (x.thread.run (handleConn m)).mem = mem := congrArg Wake.mem hnext
  exact ⟨hwire, by simp only [hmem]; exact hsend, by simp only [hmem]; exact hrecv, hphase⟩

-- What the handler does when it wakes, phase by phase.

section

variable (h : Inv m peer x)
  (hwire : Session.Wire peer { x with thread := x.thread.run (handleConn m) })
  (hready : x.thread.ready (handleConn m) = true)

include h hwire hready

theorem Inv.wake_announcing (hpc : x.thread.pc = .announcing)
    (hmem : x.thread.mem .msgSizeConv = htonl m.val) (hseen : x.thread.seen = 0)
    (hcalls : Session.Calls peer x [] 0 0 (some (.msgSizeConv, 4)) none) :
    Inv m peer { x with thread := x.thread.run (handleConn m) } := by
  have hwant : (handleConn m).want x.thread.pc = 1 := by
    rw [hpc]
    rfl
  have hle := (Thread.ready_iff.mp hready).2
  obtain ⟨hflights, hpend, hw, hsent, htaken⟩ := hcalls.sendOver (by omega)
  have hlen : (4 : Nat) = (htonl m.val).length := rfl
  rw [hmem, hlen, List.nil_append] at hw
  by_cases hn : outcome (peer.sends 0) (htonl m.val).length < (htonl m.val).length
  · refine h.stop hwire rfl hflights ?_ ?_
    · rw [hpc, hpend, wake_of_announcing]
      exact if_pos hn
    · rw [hw, echoWire, cutWire_short hn]
  · obtain ⟨hcut, hall⟩ := cutWire_full (blocks m.val (peer.stream.drop 2)) hn
    have hnext : (handleConn m).wake x.thread.pc x.thread.mem x.thread.pending =
        ⟨.header, x.thread.mem, [.recv .recvBuf 2]⟩ := by
      rw [hpc, hpend, wake_of_announcing]
      exact if_neg hn
    refine Inv.go hwire hnext h.length_send h.length_recv
      (.header (htonl m.val) 1 (congrArg Wake.pc hnext) ?_ ?_
        (hcalls.run none (some (.recvBuf, 2)) hready hwant hnext rfl
          (fun _ _ _ _ h => by cases h) ?_ ?_ hsent htaken))
    · simp only [Thread.run, hseen, hwant]
    · rw [echoWire, hcut]
    · rintro dst len heq
      cases heq
      rw [h.length_recv]
      decide
    · rw [hw, hall, List.take_length]

theorem Inv.wake_header {w : Bytes} {j : Nat} (hpc : x.thread.pc = .header)
    (hseen : x.thread.seen = 1)
    (hrest : w ++ cutWire peer.sends j (blocks m.val (peer.stream.drop 2)) = echoWire m peer)
    (hcalls : Session.Calls peer x w j 0 none (some (.recvBuf, 2))) :
    Inv m peer { x with thread := x.thread.run (handleConn m) } := by
  have hwant : (handleConn m).want x.thread.pc = 1 := by
    rw [hpc]
    rfl
  have hle := (Thread.ready_iff.mp hready).2
  obtain ⟨n, hn, hflights, hpend, hw, hsent, htaken, -⟩ := hcalls.recvOver (by omega)
  by_cases hshort : (n : Int) < 2
  · -- EOF within the header: no message follows
    refine h.stop hwire rfl hflights ?_ ?_
    · rw [hpc, hpend, wake_of_header]
      exact if_pos hshort
    · have hnil : blocks m.val (peer.stream.drop 2) = [] := by
        refine blocks_of_length_lt ?_
        have := m.pos
        rw [List.length_drop]
        omega
      rw [← hrest, hnil, cutWire_nil, List.append_nil, hw]
  · have hnext : (handleConn m).wake x.thread.pc x.thread.mem x.thread.pending =
        ⟨.first, x.thread.mem, [.recv .sendBuf m.val]⟩ := by
      rw [hpc, hpend, wake_of_header]
      exact if_neg hshort
    refine Inv.go hwire hnext h.length_send h.length_recv
      (.first w j (congrArg Wake.pc hnext) ?_ hrest
        (hcalls.run none (some (.sendBuf, m.val)) hready hwant hnext rfl
          (fun _ _ _ _ h => by cases h) ?_ hw hsent (by omega)))
    · simp only [Thread.run, hseen, hwant]
    · rintro dst len heq
      cases heq
      rw [h.length_send]
      exact m.le_bufSize

theorem Inv.wake_first {w : Bytes} {j : Nat} (hpc : x.thread.pc = .first)
    (hseen : x.thread.seen = 2)
    (hrest : w ++ cutWire peer.sends j (blocks m.val (peer.stream.drop 2)) = echoWire m peer)
    (hcalls : Session.Calls peer x w j 2 none (some (.sendBuf, m.val))) :
    Inv m peer { x with thread := x.thread.run (handleConn m) } := by
  have hwant : (handleConn m).want x.thread.pc = 1 := by
    rw [hpc]
    rfl
  have hle := (Thread.ready_iff.mp hready).2
  obtain ⟨n, hn, hflights, hpend, hw, hsent, htaken, hmem⟩ := hcalls.recvOver (by omega)
  by_cases hshort : (n : Int) < m.val
  · refine h.stop hwire rfl hflights ?_ ?_
    · rw [hpc, hpend, wake_of_first]
      exact if_pos hshort
    · rw [← hrest, blocks_short hn hshort, cutWire_nil, List.append_nil, hw]
  · obtain ⟨rfl, hblocks, hlen⟩ := blocks_received hn hshort
    have hnext : (handleConn m).wake x.thread.pc x.thread.mem x.thread.pending =
        ⟨.waitBoth, x.thread.mem, [.send .sendBuf m.val, .recv .recvBuf m.val]⟩ := by
      rw [hpc, hpend, wake_of_first]
      exact if_neg hshort
    rw [hblocks] at hrest
    refine Inv.go hwire hnext h.length_send h.length_recv
      (.waitBoth w _ j (2 + m.val) (congrArg Wake.pc hnext) ?_ ?_ hlen hrest
        (hcalls.run (some (.sendBuf, m.val)) (some (.recvBuf, m.val)) hready hwant hnext rfl
          ?_ ?_ hw hsent htaken))
    · have := m.pos
      simp only [Thread.run, hwant]
      omega
    · exact (congrArg (fun next => (next.mem .sendBuf).take m.val) hnext).trans hmem
    · rintro _ _ _ _ hs hr
      cases hs
      cases hr
      decide
    · rintro dst len heq
      cases heq
      rw [h.length_recv]
      exact m.le_bufSize

/-- A round of the loop: what `send` took of the last message is on the wire, and the
next one, when `recv` has it whole, is copied over it. -/
theorem Inv.wake_waitBoth {w block : Bytes} {j base : Nat} (hpc : x.thread.pc = .waitBoth)
    (hseen : x.thread.seen + 1 ≤ 2 * base) (hmem : (x.thread.mem .sendBuf).take m.val = block)
    (hlen : block.length = m.val)
    (hrest : w ++ cutWire peer.sends j (block :: blocks m.val (peer.stream.drop base)) =
      echoWire m peer)
    (hcalls : Session.Calls peer x w j base (some (.sendBuf, m.val)) (some (.recvBuf, m.val))) :
    Inv m peer { x with thread := x.thread.run (handleConn m) } := by
  have hsize : m.val ≤ bufSize := m.le_bufSize
  have hsendLen := h.length_send
  have hrecvLen := h.length_recv
  have hwant : (handleConn m).want x.thread.pc = 2 := by
    rw [hpc]
    rfl
  have hle := (Thread.ready_iff.mp hready).2
  obtain ⟨n, hn, hflights, hpend, hw, hsent, htaken, hrecv⟩ := hcalls.bothOver (by omega)
  rw [← hlen] at hw
  have htake : ∀ a, a ≤ block.length → (x.thread.mem .sendBuf).take a = block.take a := by
    intro a ha
    rw [← hmem, List.take_take, Nat.min_eq_left (by omega)]
  by_cases hcut : outcome (peer.sends j) m.val < m.val
  · -- the `send` failed: nothing follows what it took
    refine h.stop hwire rfl hflights ?_ ?_
    · rw [hpc, wake_of_waitBoth hpend]
      exact if_pos (Or.inl hcut)
    · rw [← hlen] at hcut
      rw [hw, ← hrest, cutWire_short hcut, htake _ (allowed_le _ _)]
  have hfull : ¬ outcome (peer.sends j) block.length < block.length := by rwa [hlen]
  obtain ⟨hcons, hall⟩ := cutWire_full (blocks m.val (peer.stream.drop base)) hfull
  rw [hcons, ← List.append_assoc] at hrest
  rw [hall, htake _ (Nat.le_refl _), List.take_length] at hw
  by_cases hshort : (n : Int) < m.val
  · -- EOF: the message just sent was the last
    refine h.stop hwire rfl hflights ?_ ?_
    · rw [hpc, wake_of_waitBoth hpend]
      exact if_pos (Or.inr hshort)
    · rw [← hrest, blocks_short hn hshort, cutWire_nil, List.append_nil, hw]
  obtain ⟨rfl, hblocks, hlen'⟩ := blocks_received hn hshort
  have hnext : (handleConn m).wake x.thread.pc x.thread.mem x.thread.pending =
      ⟨.waitBoth, copied m x.thread.mem, [.send .sendBuf m.val, .recv .recvBuf m.val]⟩ := by
    rw [hpc, wake_of_waitBoth hpend]
    refine if_neg fun hbad => ?_
    rcases hbad with hbad | hbad
    · exact hcut hbad
    · exact hshort hbad
  rw [hblocks] at hrest
  refine Inv.go hwire hnext ((length_copied_sendBuf (by omega)).trans hsendLen)
    (by rw [copied_recvBuf]; exact hrecvLen)
    (.waitBoth (w ++ block) _ (j + 1) (base + m.val) (congrArg Wake.pc hnext) ?_ ?_ hlen' hrest
      (hcalls.run (some (.sendBuf, m.val)) (some (.recvBuf, m.val)) hready hwant hnext rfl
        ?_ ?_ hw hsent htaken))
  · have := m.pos
    simp only [Thread.run, hwant]
    omega
  · have hset : (x.thread.run (handleConn m)).mem = copied m x.thread.mem :=
      congrArg Wake.mem hnext
    simp only [hset]
    rw [take_copied_sendBuf (by omega), hrecv]
  · rintro _ _ _ _ hs hr
    cases hs
    cases hr
    decide
  · rintro dst len heq
    cases heq
    simp only [copied_recvBuf, hrecvLen]
    exact hsize

theorem Inv.wake : Inv m peer { x with thread := x.thread.run (handleConn m) } := by
  cases h.phase with
  | announcing hpc hmem hseen hcalls => exact h.wake_announcing hwire hready hpc hmem hseen hcalls
  | header w j hpc hseen hrest hcalls => exact h.wake_header hwire hready hpc hseen hrest hcalls
  | first w j hpc hseen hrest hcalls => exact h.wake_first hwire hready hpc hseen hrest hcalls
  | waitBoth w block j base hpc hseen hmem hlen hrest hcalls =>
    exact h.wake_waitBoth hwire hready hpc hseen hmem hlen hrest hcalls
  | returned hpc hflights hw =>
    have := (Thread.ready_iff.mp hready).1
    rw [hpc] at this
    exact absurd this (Nat.lt_irrefl 0)

end

theorem inv_step {e : Event} (h : Inv m peer x)
    (hstep : Session.Step (handleConn m) peer x e y) : Inv m peer y := by
  by_cases he : e = .wake
  · subst he
    have hwire := h.wire.step hstep
    cases hstep with
    | wake hready => exact Inv.wake h hwire hready
  · exact h.asleep hstep he

-- ---------------------------------------------------------------------------
-- Every run comes to an end
-- ---------------------------------------------------------------------------

theorem Inv.calling (h : Inv m peer x) (hpc : (handleConn m).want x.thread.pc ≠ 0) :
    Session.Calling (handleConn m) peer bufSize (2 * peer.stream.length + 3) x := by
  have hsize : m.val ≤ bufSize := m.le_bufSize
  have htaken := Nat.le_trans h.wire.taken_le h.wire.arrived_le
  cases h.phase with
  | announcing hpc _ hseen hcalls =>
    refine ⟨⟨_, _, _, _, _, hcalls, by rw [hpc]; rfl, by simp [bufSize]⟩, ?_⟩
    rw [hseen, hpc]
    show 0 + 1 ≤ _
    omega
  | header w j hpc hseen _ hcalls =>
    refine ⟨⟨_, _, _, _, _, hcalls, by rw [hpc]; rfl, by simp [bufSize]⟩, ?_⟩
    rw [hseen, hpc]
    show 1 + 1 ≤ _
    omega
  | first w j hpc hseen _ hcalls =>
    refine ⟨⟨_, _, _, _, _, hcalls, by rw [hpc]; rfl, by simpa using hsize⟩, ?_⟩
    rw [hseen, hpc]
    show 2 + 1 ≤ _
    omega
  | waitBoth w block j base hpc hseen _ _ _ hcalls =>
    refine ⟨⟨_, _, _, _, _, hcalls, by rw [hpc]; rfl, by simpa using hsize⟩, ?_⟩
    have hbase := hcalls.base_le
    rw [hpc]
    show x.thread.seen + 2 ≤ _
    omega
  | returned hpc' => exact absurd (by rw [hpc']; rfl) hpc

/-- Whatever the segmentation and the order in which requests make progress and
complete, the handler returns with what belongs there on the wire. -/
theorem handleConn_wire (m : MsgSize) (peer : Peer UInt8) (sendStack recvStack : Buffer) :
    (Session.machine (handleConn m) peer).Inevitably
      (fun x => x.thread.pc = .returned ∧ x.wire = echoWire m peer)
      (Session.start (entry m sendStack recvStack)) := by
  refine Session.inevitably_of_calls bufSize (2 * peer.stream.length + 3)
    (fun x h => h.wire) (fun x e y h => inv_step h) (fun x h => h.calling) ?_
    (inv_start m peer sendStack recvStack)
  intro x h hwant
  cases h.phase with
  | returned hpc hflights hwire => exact ⟨hflights, hpc, hwire⟩
  | announcing hpc | header _ _ hpc | first _ _ hpc | waitBoth _ _ _ _ hpc =>
    rw [hpc] at hwant
    cases hwant

end EchoServer.Uring2
