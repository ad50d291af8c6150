import EchoServer.Threaded.Wire

/-!
# simple.c — the blocking server

`handle_conn` as a thread with one system call outstanding at a time.

* `handleConn_wire` — whatever the segmentation and the order of steps, the
  handler returns with exactly the announcement and the complete blocks of the
  client's stream on the wire, cut where a `send` failed.
-/

namespace EchoServer.Simple

open EchoServer.Lib EchoServer.Threaded

-- ---------------------------------------------------------------------------
-- The handler
-- ---------------------------------------------------------------------------

/-- The system call that `handle_conn` is in. -/
inductive Pc
  | announcing
  | header
  | recving
  | sending
  | returned
  deriving DecidableEq, Repr

/-- The variables whose bytes the calls move. -/
inductive Buf
  | msgSizeConv
  | buf
  deriving DecidableEq, Repr

/-- `handle_conn`, from each system call to the next; `n` is what the call
returned. -/
def handleConn (m : MsgSize) : Prog Pc Buf UInt8 where
  want
    | .returned => 0
    | _ => 1
  wake pc mem results :=
    let n := results.headD 0
    match pc with
    | .announcing =>
      if n ≤ 0 ∨ n < 4 then ⟨.returned, mem, []⟩ else ⟨.header, mem, [.recv .buf 2]⟩
    | .header => if n < 2 then ⟨.returned, mem, []⟩ else ⟨.recving, mem, [.recv .buf m.val]⟩
    | .recving =>
      if n < m.val then ⟨.returned, mem, []⟩ else ⟨.sending, mem, [.send .buf m.val]⟩
    | .sending =>
      if n < m.val then ⟨.returned, mem, []⟩ else ⟨.recving, mem, [.recv .buf m.val]⟩
    | .returned => ⟨.returned, mem, []⟩

/-- `handle_conn` in its first call, with `buf` as it lies on the stack. -/
def entry (m : MsgSize) (stack : Buffer) : Thread Pc Buf UInt8 where
  pc := .announcing
  mem
    | .msgSizeConv => htonl m.val
    | .buf => stack.bytes
  flights := [⟨.send .msgSizeConv 4, 0⟩]
  results := []
  seen := 0

/-- `handle_conn` itself writes no buffer, its calls do. -/
theorem wake_mem (m : MsgSize) (pc : Pc) (mem : Buf → Bytes) (results : List Int) (b : Buf) :
    ((handleConn m).wake pc mem results).mem b = mem b := by
  simp only [handleConn]
  cases pc <;> simp only <;> split <;> rfl

/-- The call that `pc` is in. -/
def Pc.call (m : MsgSize) : Pc → Option (Req Buf)
  | .announcing => some (.send .msgSizeConv 4)
  | .header => some (.recv .buf 2)
  | .recving => some (.recv .buf m.val)
  | .sending => some (.send .buf m.val)
  | .returned => none

/-- Where `handle_conn` goes after a full call. -/
def Pc.next : Pc → Pc
  | .announcing => .header
  | .header => .recving
  | .recving => .sending
  | .sending => .recving
  | .returned => .returned

section
variable {m : MsgSize} {pc : Pc} {n : Int} {mem : Buf → Bytes} {r : Req Buf}

/-- After less than it asked for, `handle_conn` returns. -/
theorem wake_short (hcall : pc.call m = some r) (h : n < r.len) :
    (handleConn m).wake pc mem [n] = ⟨.returned, mem, []⟩ := by
  cases pc with
  | announcing =>
    cases hcall
    exact if_pos (Or.inr h)
  | header | recving | sending =>
    cases hcall
    exact if_pos h
  | returned => cases hcall

theorem wake_full (hcall : pc.call m = some r) (h : ¬ n < r.len) :
    (handleConn m).wake pc mem [n] = ⟨pc.next, mem, (pc.next.call m).toList⟩ := by
  cases pc with
  | announcing =>
    cases hcall
    have hfour : ¬ n < 4 := h
    have hboth : ¬ (n ≤ 0 ∨ n < 4) := by omega
    exact if_neg hboth
  | header | recving | sending =>
    cases hcall
    exact if_neg h
  | returned => cases hcall

end

-- ---------------------------------------------------------------------------
-- The loop invariant
-- ---------------------------------------------------------------------------

variable {m : MsgSize} {peer : Peer UInt8} {x y : Session Pc Buf UInt8}

/-- The phases of the handler. In each, what is on the wire and what is left to
send make up what belongs there; `base` is where in the stream the next `recv`
begins. -/
inductive Phase (m : MsgSize) (peer : Peer UInt8) (x : Session Pc Buf UInt8) : Prop
  | announcing : x.thread.pc = .announcing → x.thread.mem .msgSizeConv = htonl m.val →
      x.thread.seen = 0 → Session.Calls peer x [] 0 0 (some (.msgSizeConv, 4)) none →
      Phase m peer x
  | header (w : Bytes) (j : Nat) : x.thread.pc = .header → x.thread.seen = 1 →
      w ++ cutWire peer.sends j (blocks m.val (peer.stream.drop 2)) = echoWire m peer →
      Session.Calls peer x w j 0 none (some (.buf, 2)) → Phase m peer x
  | recving (w : Bytes) (j base : Nat) : x.thread.pc = .recving → x.thread.seen ≤ 2 * base →
      w ++ cutWire peer.sends j (blocks m.val (peer.stream.drop base)) = echoWire m peer →
      Session.Calls peer x w j base none (some (.buf, m.val)) → Phase m peer x
  | sending (w block : Bytes) (j base : Nat) : x.thread.pc = .sending →
      x.thread.seen + 1 ≤ 2 * base → (x.thread.mem .buf).take m.val = block →
      block.length = m.val →
      w ++ cutWire peer.sends j (block :: blocks m.val (peer.stream.drop base)) =
        echoWire m peer →
      Session.Calls peer x w j base (some (.buf, m.val)) none → Phase m peer x
  | returned : x.thread.pc = .returned → x.thread.flights = [] → x.wire = echoWire m peer →
      Phase m peer x

structure Inv (m : MsgSize) (peer : Peer UInt8) (x : Session Pc Buf UInt8) : Prop where
  wire : Session.Wire peer x
  length_buf : (x.thread.mem .buf).length = bufSize
  phase : Phase m peer x

theorem inv_start (m : MsgSize) (peer : Peer UInt8) (stack : Buffer) :
    Inv m peer (Session.start (entry m stack)) := by
  refine ⟨⟨Nat.le_refl _, Nat.zero_le _, fun h => by cases h⟩, stack.length_eq,
    .announcing rfl rfl rfl ⟨⟨_, [], [], [], .moving _ 4 0 (Nat.zero_le _) rfl rfl, .none rfl, rfl,
      .refl _⟩, Nat.le_refl _, ?_, ?_⟩⟩
  · intro _ _ _ _ _ h
    cases h
  · intro _ _ h
    cases h

/-- While the handler is in a call, its phase does not change. -/
theorem Phase.asleep {e : Event} (h : Inv m peer x)
    (hstep : Session.Step (handleConn m) peer x e y) (he : e ≠ .wake) :
    Phase m peer y ∧ (y.thread.mem .buf).length = bufSize := by
  cases h.phase with
  | announcing hpc hmem hseen hcalls =>
    obtain ⟨hc, ha⟩ := hcalls.step h.wire hstep he
    exact ⟨.announcing (ha.pc.trans hpc) ((ha.mem _ fun _ h => by cases h).trans hmem)
      (ha.seen.trans hseen) hc, (ha.length _).trans h.length_buf⟩
  | header w j hpc hseen hrest hcalls =>
    obtain ⟨hc, ha⟩ := hcalls.step h.wire hstep he
    exact ⟨.header w j (ha.pc.trans hpc) (ha.seen.trans hseen) hrest hc,
      (ha.length _).trans h.length_buf⟩
  | recving w j base hpc hseen hrest hcalls =>
    obtain ⟨hc, ha⟩ := hcalls.step h.wire hstep he
    exact ⟨.recving w j base (ha.pc.trans hpc) (by rw [ha.seen]; exact hseen) hrest hc,
      (ha.length _).trans h.length_buf⟩
  | sending w block j base hpc hseen hmem hlen hrest hcalls =>
    obtain ⟨hc, ha⟩ := hcalls.step h.wire hstep he
    exact ⟨.sending w block j base (ha.pc.trans hpc) (by rw [ha.seen]; exact hseen)
      (by rw [ha.mem _ fun _ h => by cases h]; exact hmem) hlen hrest hc,
      (ha.length _).trans h.length_buf⟩
  | returned hpc hflights hwire =>
    -- nothing is in flight, so only the network moves
    cases hstep with
    | arrive => exact ⟨.returned hpc hflights hwire, h.length_buf⟩
    | fin => exact ⟨.returned hpc hflights hwire, h.length_buf⟩
    | moveIn _ _ _ _ _ hf | moveOut _ _ _ _ _ hf | received _ _ _ _ hf | wasSent _ _ _ hf =>
      rw [hflights] at hf
      simp at hf
    | wake => exact absurd rfl he

/-- The handler takes the block it has received from the stream. -/
theorem blocks_received {base n : Nat} (hn : n = min m.val (peer.stream.length - base))
    (hfull : ¬ (n : Int) < m.val) :
    n = m.val ∧ blocks m.val (peer.stream.drop base) =
      (peer.stream.drop base).take m.val :: blocks m.val (peer.stream.drop (base + m.val)) ∧
      ((peer.stream.drop base).take m.val).length = m.val := by
  have hlen : m.val ≤ (peer.stream.drop base).length := by
    rw [List.length_drop]
    omega
  refine ⟨by omega, ?_, ?_⟩
  · rw [blocks_cons m.pos hlen, List.drop_drop]
  · rw [List.length_take, Nat.min_eq_left hlen]

/-- Fewer bytes than a block are left before EOF. -/
theorem blocks_short {base n : Nat} (hn : n = min m.val (peer.stream.length - base))
    (hshort : (n : Int) < m.val) : blocks m.val (peer.stream.drop base) = [] := by
  refine blocks_of_length_lt ?_
  rw [List.length_drop]
  omega

/-- The handler returns. -/
theorem Phase.stop (hflights : x.thread.flights = []) (mem : Buf → Bytes)
    (hnext : (handleConn m).wake x.thread.pc x.thread.mem x.thread.pending = ⟨.returned, mem, []⟩)
    (hwire : x.wire = echoWire m peer) :
    Phase m peer { x with thread := x.thread.run (handleConn m) } := by
  refine .returned (congrArg Wake.pc hnext) ?_ hwire
  simp only [Thread.run, hnext, hflights]
  rfl

/-- The handler goes from one call to the next. -/
theorem Phase.wake (h : Inv m peer x) (hready : x.thread.ready (handleConn m) = true) :
    Phase m peer { x with thread := x.thread.run (handleConn m) } := by
  have hsize : m.val ≤ 1024 := m.le_bufSize
  have hbuf : (x.thread.mem .buf).length = 1024 := h.length_buf
  have hpos : 1 ≤ x.thread.pending.length := by
    have := Thread.ready_iff.mp hready
    omega
  have hroom : ∀ {l : Nat}, l ≤ 1024 → ∀ dst len, some (Buf.buf, l) = some (dst, len) →
      len ≤ (x.thread.mem dst).length := by
    rintro l hl dst len heq
    cases heq
    rw [hbuf]
    exact hl
  cases h.phase with
  | announcing hpc hmem hseen hcalls =>
    obtain ⟨hflights, hpend, hwire, hsent, htaken⟩ := hcalls.sendOver hpos
    have hlen : (4 : Nat) = (htonl m.val).length := rfl
    rw [hmem, hlen, List.nil_append] at hwire
    by_cases hn : outcome (peer.sends 0) (htonl m.val).length < (htonl m.val).length
    · refine Phase.stop hflights x.thread.mem ?_ ?_
      · rw [hpc, hpend]
        exact wake_short rfl hn
      · rw [hwire, echoWire, cutWire_short hn]
    · obtain ⟨hcut, hall⟩ := cutWire_full (blocks m.val (peer.stream.drop 2)) hn
      have hnext : (handleConn m).wake x.thread.pc x.thread.mem x.thread.pending =
          ⟨.header, x.thread.mem, [.recv .buf 2]⟩ := by
        rw [hpc, hpend]
        exact wake_full rfl hn
      refine .header (htonl m.val) 1 (congrArg Wake.pc hnext) ?_ ?_
        (hcalls.run none (some (.buf, 2)) hready (by rw [hpc]; rfl) hnext rfl
          (fun _ _ _ _ h => by cases h) (hroom (by decide)) ?_ hsent htaken)
      · simp only [Thread.run, hseen, hpc]
        rfl
      · rw [echoWire, hcut]
      · rw [hwire, hall, List.take_length]
  | header w j hpc hseen hrest hcalls =>
    obtain ⟨n, hn, hflights, hpend, hwire, hsent, htaken, -⟩ := hcalls.recvOver hpos
    by_cases hshort : (n : Int) < 2
    · -- EOF within the header: no block follows
      refine Phase.stop hflights x.thread.mem ?_ ?_
      · rw [hpc, hpend]
        exact wake_short rfl hshort
      · have hnil : blocks m.val (peer.stream.drop 2) = [] := by
          refine blocks_of_length_lt ?_
          have := m.pos
          rw [List.length_drop]
          omega
        rw [← hrest, hnil, cutWire_nil, List.append_nil, hwire]
    · have hnext : (handleConn m).wake x.thread.pc x.thread.mem x.thread.pending =
          ⟨.recving, x.thread.mem, [.recv .buf m.val]⟩ := by
        rw [hpc, hpend]
        exact wake_full rfl hshort
      refine .recving w j 2 (congrArg Wake.pc hnext) ?_ hrest
        (hcalls.run none (some (.buf, m.val)) hready (by rw [hpc]; rfl) hnext rfl
          (fun _ _ _ _ h => by cases h) (hroom hsize) hwire hsent (by omega))
      have hwant : (handleConn m).want x.thread.pc = 1 := by
        rw [hpc]
        rfl
      simp only [Thread.run, hseen, hwant]
      decide
  | recving w j base hpc hseen hrest hcalls =>
    obtain ⟨n, hn, hflights, hpend, hwire, hsent, htaken, hmem⟩ := hcalls.recvOver hpos
    by_cases hshort : (n : Int) < m.val
    · refine Phase.stop hflights x.thread.mem ?_ ?_
      · rw [hpc, hpend]
        exact wake_short rfl hshort
      · rw [← hrest, blocks_short hn hshort, cutWire_nil, List.append_nil, hwire]
    · obtain ⟨rfl, hblocks, hlen⟩ := blocks_received hn hshort
      have hnext : (handleConn m).wake x.thread.pc x.thread.mem x.thread.pending =
          ⟨.sending, x.thread.mem, [.send .buf m.val]⟩ := by
        rw [hpc, hpend]
        exact wake_full rfl hshort
      rw [hblocks] at hrest
      have hcalls' := hcalls.run (some (.buf, m.val)) none hready (by rw [hpc]; rfl) hnext rfl
        (fun _ _ _ _ _ h => by cases h) (fun _ _ h => by cases h) hwire hsent htaken
      refine .sending w _ j (base + m.val) (congrArg Wake.pc hnext) ?_ ?_ hlen hrest hcalls'
      · have := m.pos
        have hwant : (handleConn m).want x.thread.pc = 1 := by
          rw [hpc]
          rfl
        simp only [Thread.run, hwant]
        omega
      · exact (congrArg (fun next => (next.mem .buf).take m.val) hnext).trans hmem
  | sending w block j base hpc hseen hmem hlen hrest hcalls =>
    obtain ⟨hflights, hpend, hwire, hsent, htaken⟩ := hcalls.sendOver hpos
    rw [← hlen] at hpend hwire
    by_cases hn : outcome (peer.sends j) block.length < block.length
    · refine Phase.stop hflights x.thread.mem ?_ ?_
      · rw [hpc, hpend]
        exact wake_short rfl (by rwa [hlen] at hn ⊢)
      · have htake : block.take (allowed (peer.sends j) block.length) =
            (x.thread.mem .buf).take (allowed (peer.sends j) block.length) := by
          have hle := allowed_le (peer.sends j) block.length
          generalize allowed (peer.sends j) block.length = a at hle ⊢
          rw [← hmem, List.take_take, Nat.min_eq_left (by omega)]
        rw [hwire, ← hrest, cutWire_short hn, htake]
    · obtain ⟨hcut, hall⟩ := cutWire_full (blocks m.val (peer.stream.drop base)) hn
      have hnext : (handleConn m).wake x.thread.pc x.thread.mem x.thread.pending =
          ⟨.recving, x.thread.mem, [.recv .buf m.val]⟩ := by
        rw [hpc, hpend]
        exact wake_full rfl (by rwa [hlen] at hn ⊢)
      rw [hcut, ← List.append_assoc] at hrest
      refine .recving (w ++ block) (j + 1) base (congrArg Wake.pc hnext) ?_ hrest
        (hcalls.run none (some (.buf, m.val)) hready (by rw [hpc]; rfl) hnext rfl
          (fun _ _ _ _ h => by cases h) (hroom hsize) ?_ hsent htaken)
      · have hwant : (handleConn m).want x.thread.pc = 1 := by
          rw [hpc]
          rfl
        simp only [Thread.run, hwant]
        omega
      · rw [hwire, hall, hlen, hmem]
  | returned hpc hflights hwire =>
    have := (Thread.ready_iff.mp hready).1
    rw [hpc] at this
    exact absurd this (Nat.lt_irrefl 0)

theorem inv_step {e : Event} (h : Inv m peer x)
    (hstep : Session.Step (handleConn m) peer x e y) : Inv m peer y := by
  have hwire := h.wire.step hstep
  by_cases he : e = .wake
  · subst he
    cases hstep with
    | wake hready =>
      refine ⟨hwire, ?_, Phase.wake h hready⟩
      rw [← h.length_buf]
      exact congrArg List.length (wake_mem m _ _ _ _)
  · obtain ⟨hphase, hlen⟩ := Phase.asleep h hstep he
    exact ⟨hwire, hlen, hphase⟩

-- ---------------------------------------------------------------------------
-- Every run comes to an end
-- ---------------------------------------------------------------------------

theorem Inv.calling (h : Inv m peer x) (hpc : (handleConn m).want x.thread.pc ≠ 0) :
    Session.Calling (handleConn m) peer bufSize (2 * peer.stream.length + 2) x := by
  have hsize : m.val ≤ bufSize := m.le_bufSize
  have htaken := Nat.le_trans h.wire.taken_le h.wire.arrived_le
  cases h.phase with
  | announcing hpc _ hseen hcalls =>
    refine ⟨⟨_, _, _, _, _, hcalls, by rw [hpc]; rfl, ?_⟩, ?_⟩
    · simp [bufSize]
    · rw [hseen, hpc]
      show 0 + 1 ≤ _
      omega
  | header w j hpc hseen _ hcalls =>
    refine ⟨⟨_, _, _, _, _, hcalls, by rw [hpc]; rfl, ?_⟩, ?_⟩
    · simp [bufSize]
    · rw [hseen, hpc]
      exact Nat.le_add_left 2 _
  | recving w j base hpc hseen _ hcalls =>
    refine ⟨⟨_, _, _, _, _, hcalls, by rw [hpc]; rfl, by simpa using hsize⟩, ?_⟩
    have hbase := hcalls.base_le
    rw [hpc]
    show x.thread.seen + 1 ≤ _
    omega
  | sending w block j base hpc hseen _ _ _ hcalls =>
    refine ⟨⟨_, _, _, _, _, hcalls, by rw [hpc]; rfl, by simpa using hsize⟩, ?_⟩
    have hbase := hcalls.base_le
    rw [hpc]
    show x.thread.seen + 1 ≤ _
    omega
  | returned hpc' => exact absurd (by rw [hpc']; rfl) hpc

/-- Whatever the segmentation of the client's stream and the order of steps, the
handler returns, and then the wire holds exactly what belongs there. -/
theorem handleConn_wire (m : MsgSize) (peer : Peer UInt8) (stack : Buffer) :
    (Session.machine (handleConn m) peer).Inevitably
      (fun x => x.thread.pc = .returned ∧ x.wire = echoWire m peer)
      (Session.start (entry m stack)) := by
  refine Session.inevitably_of_calls bufSize (2 * peer.stream.length + 2)
    (fun x h => h.wire) (fun x e y h => inv_step h) (fun x h => h.calling) ?_
    (inv_start m peer stack)
  intro x h hwant
  cases h.phase with
  | returned hpc hflights hwire => exact ⟨hflights, hpc, hwire⟩
  | announcing hpc | header _ _ hpc | recving _ _ _ hpc | sending _ _ _ _ hpc =>
    rw [hpc] at hwant
    cases hwant

end EchoServer.Simple
