import EchoServer.Go.Server
import EchoServer.Go.Client
import EchoServer.Lib.Caller
import EchoServer.Threaded.Simple

/-!
# go/simple/main.go, go/client.go — streams cut into pieces

`handleConn` and `client` read a message by a single `Read`, which returns what has
arrived; the C programs pass `MSG_WAITALL`. Both Go programs take a short `Read` for a
failure.

A `Read` returns any number of the bytes that have arrived, at least one, or none at the
end of the stream. The network delivers in pieces of any size at any time; what it
delivers is the peer's stream, and every `send` of the blocking server it is compared with
takes what it is given. Only runs after which nothing is left to happen are compared: the
stream has arrived, and the program has ended or waits for more.

Main results:

* `GoServer.blockReader`, `GoClient.blockReader` — both programs read a prefix and then
  blocks, and end at the first `Read` that comes up short;
* `Go.segmentation_iff` — exactly which runs do what the blocking programs do;
* `Go.segmentation_split` — the shortest runs that do not.
-/

namespace EchoServer

open EchoServer.Lib

/-- A peer that takes everything that is written to it. -/
def Go.reader (stream : Bytes) : Peer UInt8 := ⟨stream, fun _ => some bufSize⟩

-- ---------------------------------------------------------------------------
-- The server
-- ---------------------------------------------------------------------------

namespace GoServer

variable {m : MsgSize} {stream : Bytes} {x y : Caller Pc Buf UInt8} {c : Call}

/-- Where the handler is: it has echoed `e` blocks, and in the end has taken `p` bytes of
the next one. -/
inductive Reading (m : MsgSize) (stream : Bytes) (x : Caller Pc Buf UInt8) : Prop
  | announcing : x.pc = .announcing → x.req = some (.send .buf 8) →
      (x.mem .buf).take 8 = announcement m.val → x.taken = 0 → x.wire = [] → Reading m stream x
  | header : x.pc = .header → x.req = some (.recv .buf 2) → x.taken = 0 →
      x.wire = announcement m.val → Reading m stream x
  | recving (e : Nat) : x.pc = .recving → x.req = some (.recv .buf m.val) →
      x.taken = 2 + e * m.val →
      x.wire = announcement m.val ++ (stream.drop 2).take (e * m.val) → Reading m stream x
  | sending (e : Nat) : x.pc = .sending → x.req = some (.send .buf m.val) →
      x.taken = 2 + (e + 1) * m.val →
      (x.mem .buf).take m.val = (stream.drop (2 + e * m.val)).take m.val →
      x.wire = announcement m.val ++ (stream.drop 2).take (e * m.val) → Reading m stream x
  | ended (e p : Nat) : x.req = none → p < m.val →
      (e = 0 ∧ x.taken < 2 ∨ x.taken = 2 + e * m.val + p) →
      x.wire = announcement m.val ++ (stream.drop 2).take (e * m.val) → Reading m stream x

structure Inv (m : MsgSize) (stream : Bytes) (x : Caller Pc Buf UInt8) : Prop where
  within : x.Within (Go.reader stream)
  length_buf : (x.mem .buf).length = bufSize
  reading : Reading m stream x

theorem Reading.congr (h : Reading m stream x) (hpc : y.pc = x.pc) (hmem : y.mem = x.mem)
    (hreq : y.req = x.req) (htaken : y.taken = x.taken) (hwire : y.wire = x.wire) :
    Reading m stream y := by
  cases h with
  | announcing h₁ h₂ h₃ h₄ h₅ =>
    exact .announcing (hpc.trans h₁) (hreq.trans h₂) (by rw [hmem]; exact h₃) (htaken.trans h₄)
      (hwire.trans h₅)
  | header h₁ h₂ h₃ h₄ =>
    exact .header (hpc.trans h₁) (hreq.trans h₂) (htaken.trans h₃) (hwire.trans h₄)
  | recving e h₁ h₂ h₃ h₄ =>
    exact .recving e (hpc.trans h₁) (hreq.trans h₂) (htaken.trans h₃) (hwire.trans h₄)
  | sending e h₁ h₂ h₃ h₄ h₅ =>
    exact .sending e (hpc.trans h₁) (hreq.trans h₂) (htaken.trans h₃) (by rw [hmem]; exact h₄)
      (hwire.trans h₅)
  | ended e p h₁ h₂ h₃ h₄ =>
    exact .ended e p (hreq.trans h₁) h₂ (by rw [htaken]; exact h₃) (hwire.trans h₄)

/-- A `Read` of the handler that returns `n` bytes, which are in `buf`. -/
theorem Inv.read {n len : Nat} (h : Inv m stream x) (hreq : x.req = some (.recv .buf len))
    (hn : n ≤ len) {z : Caller Pc Buf UInt8} (hpc : z.pc = x.pc) (hwire : z.wire = x.wire)
    (htaken : z.taken = x.taken + n)
    (hbuf : n = len → (z.mem .buf).take n = (stream.drop x.taken).take n) :
    Reading m stream (z.returns (handleConn m.val) n) ∧
      ((z.returns (handleConn m.val) n).req = none ↔ n < len) := by
  cases h.reading with
  | header hpc' hreq' htaken' hwire' =>
    rw [hreq'] at hreq
    cases hreq
    rw [hpc'] at hpc
    by_cases hshort : n < 2
    · have hnext : (handleConn m.val).wake z.pc z.mem [(n : Int)] = ⟨.fatal, z.mem, []⟩ := by
        rw [hpc]
        exact wake_short rfl hshort
      rw [Caller.returns_eq hnext]
      refine ⟨.ended 0 0 rfl m.pos (Or.inl ⟨rfl, ?_⟩) ?_, iff_of_true rfl hshort⟩
      · show z.taken < 2
        omega
      · rw [Nat.zero_mul, List.take_zero, List.append_nil]
        exact hwire.trans hwire'
    · have hnext : (handleConn m.val).wake z.pc z.mem [(n : Int)] =
          ⟨.recving, z.mem, [.recv .buf m.val]⟩ := by
        rw [hpc]
        exact wake_full m.le_bufSize rfl (Nat.not_lt.mp hshort)
      rw [Caller.returns_eq hnext]
      refine ⟨.recving 0 rfl rfl ?_ ?_, iff_of_false (by simp) hshort⟩
      · show z.taken = 2 + 0 * m.val
        omega
      · rw [Nat.zero_mul, List.take_zero, List.append_nil]
        exact hwire.trans hwire'
  | recving e hpc' hreq' htaken' hwire' =>
    rw [hreq'] at hreq
    cases hreq
    rw [hpc'] at hpc
    by_cases hshort : n < m.val
    · have hnext : (handleConn m.val).wake z.pc z.mem [(n : Int)] = ⟨.returned, z.mem, []⟩ := by
        rw [hpc]
        exact wake_short rfl hshort
      rw [Caller.returns_eq hnext]
      refine ⟨.ended e n rfl hshort (Or.inr ?_) (hwire.trans hwire'), iff_of_true rfl hshort⟩
      show z.taken = _
      rw [htaken, htaken']
    · obtain rfl : n = m.val := by omega
      have hnext : (handleConn m.val).wake z.pc z.mem [(m.val : Int)] =
          ⟨.sending, z.mem, [.send .buf m.val]⟩ := by
        rw [hpc]
        exact wake_full m.le_bufSize rfl (Nat.le_refl _)
      rw [Caller.returns_eq hnext]
      refine ⟨.sending e rfl rfl ?_ ?_ (hwire.trans hwire'), iff_of_false (by simp) hshort⟩
      · show z.taken = _
        rw [htaken, htaken', Nat.succ_mul, Nat.add_assoc]
      · rw [← htaken']
        exact hbuf rfl
  | announcing _ hreq' | sending _ _ hreq' | ended _ _ hreq' =>
    rw [hreq'] at hreq
    cases hreq

/-- A `Write` of the handler, which takes all. -/
theorem Inv.write {len : Nat} {src : Buf} (h : Inv m stream x) (hreq : x.req = some (.send src len)) :
    Reading m stream ((x.put ((x.mem src).take len)).returns (handleConn m.val) len) ∧
      ((x.put ((x.mem src).take len)).returns (handleConn m.val) len).req ≠ none := by
  cases h.reading with
  | announcing hpc hreq' hmem htaken hwire =>
    rw [hreq'] at hreq
    cases hreq
    have hnext : (handleConn m.val).wake x.pc x.mem [((8 : Nat) : Int)] =
        ⟨.header, x.mem, [.recv .buf 2]⟩ := by
      rw [hpc]
      exact wake_full m.le_bufSize rfl (Nat.le_refl _)
    rw [Caller.returns_eq (x := x.put ((x.mem .buf).take 8)) hnext]
    refine ⟨.header rfl rfl htaken ?_, by simp⟩
    show x.wire ++ (x.mem .buf).take 8 = announcement m.val
    rw [hwire, hmem, List.nil_append]
  | sending e hpc hreq' htaken hmem hwire =>
    rw [hreq'] at hreq
    cases hreq
    have hnext : (handleConn m.val).wake x.pc x.mem [(m.val : Int)] =
        ⟨.recving, x.mem, [.recv .buf m.val]⟩ := by
      rw [hpc]
      exact wake_full m.le_bufSize rfl (Nat.le_refl _)
    rw [Caller.returns_eq (x := x.put ((x.mem .buf).take m.val)) hnext]
    refine ⟨.recving (e + 1) rfl rfl htaken ?_, by simp⟩
    show x.wire ++ (x.mem .buf).take m.val = _
    rw [hwire, hmem, Nat.succ_mul, List.take_add, List.drop_drop, List.append_assoc]
  | header _ hreq' | recving _ _ hreq' | ended _ _ hreq' =>
    rw [hreq'] at hreq
    cases hreq

theorem Reading.recv_len (h : Reading m stream x) {dst : Buf} {len : Nat}
    (hreq : x.req = some (.recv dst len)) : dst = .buf ∧ 0 < len ∧ len ≤ bufSize := by
  cases h with
  | header _ hreq' =>
    rw [hreq'] at hreq
    cases hreq
    decide
  | recving _ _ hreq' =>
    rw [hreq'] at hreq
    cases hreq
    exact ⟨rfl, m.pos, m.le_bufSize⟩
  | announcing _ hreq' | sending _ _ hreq' | ended _ _ hreq' =>
    rw [hreq'] at hreq
    cases hreq

theorem Reading.send_len (h : Reading m stream x) {src : Buf} {len : Nat}
    (hreq : x.req = some (.send src len)) : allowed (some bufSize) len = len := by
  refine Nat.min_eq_right ?_
  cases h with
  | announcing _ hreq' =>
    rw [hreq'] at hreq
    cases hreq
    decide
  | sending _ _ hreq' =>
    rw [hreq'] at hreq
    cases hreq
    exact m.le_bufSize
  | header _ hreq' | recving _ _ hreq' | ended _ _ hreq' =>
    rw [hreq'] at hreq
    cases hreq

theorem Inv.reads {k len : Nat} {dst : Buf} (h : Inv m stream x) (hreq : x.req = some (.recv dst len))
    (hk : k ≤ len) (harrived : x.taken + k ≤ x.arrived) :
    Inv m stream ((x.take dst ((stream.drop x.taken).take k)).returns (handleConn m.val) k) ∧
      (((x.take dst ((stream.drop x.taken).take k)).returns (handleConn m.val) k).req = none ↔
        k < len) := by
  obtain ⟨rfl, -, hlen⟩ := h.reading.recv_len hreq
  have hroom : k ≤ (x.mem .buf).length := by
    rw [h.length_buf]
    exact Nat.le_trans hk hlen
  have htaken := h.within.taken_read harrived .buf
  obtain ⟨hmem, hlength⟩ := h.within.mem_read harrived hroom
  obtain ⟨hreading, hnone⟩ := h.read (z := x.take .buf ((stream.drop x.taken).take k)) hreq hk rfl rfl
    htaken fun _ => hmem
  refine ⟨⟨⟨Nat.le_trans (Nat.le_of_eq htaken) harrived, h.within.arrived_le⟩, ?_, hreading⟩, hnone⟩
  exact (congrArg List.length (wake_mem m.val _ _ _ .buf)).trans (hlength.trans h.length_buf)

theorem Inv.eof {len : Nat} {dst : Buf} (h : Inv m stream x) (hreq : x.req = some (.recv dst len)) :
    Inv m stream (x.returns (handleConn m.val) 0) ∧ (x.returns (handleConn m.val) 0).req = none := by
  obtain ⟨rfl, hpos, -⟩ := h.reading.recv_len hreq
  obtain ⟨hreading, hnone⟩ := h.read (z := x) hreq (Nat.zero_le _) rfl rfl rfl
    fun heq => absurd heq (Nat.ne_of_lt hpos)
  refine ⟨⟨⟨h.within.taken_le, h.within.arrived_le⟩, ?_, hreading⟩, hnone.mpr hpos⟩
  exact (congrArg List.length (wake_mem m.val _ _ _ .buf)).trans h.length_buf

theorem inv_start (m : MsgSize) (stream : Bytes) : Inv m stream (Caller.start (entry m.val)) where
  within := ⟨Nat.le_refl 0, Nat.zero_le _⟩
  length_buf := length_entry m.val
  reading := .announcing rfl rfl rfl rfl rfl

theorem inv_step (h : Inv m stream x)
    (hstep : Caller.Step (handleConn m.val) (Go.reader stream) x c y) : Inv m stream y := by
  have hwithin := h.within.step hstep
  cases hstep with
  | arrive | fin => exact ⟨hwithin, h.length_buf, h.reading.congr rfl rfl rfl rfl rfl⟩
  | read k len dst hreq _ hk harrived => exact (h.reads hreq hk harrived).1
  | eof len dst hreq => exact (h.eof hreq).1
  | write len src hreq =>
    have hall := h.reading.send_len hreq
    refine ⟨hwithin, ?_, ?_⟩
    · exact (congrArg List.length (wake_mem m.val _ _ _ .buf)).trans h.length_buf
    · simp only [Go.reader, hall]
      exact (h.write hreq).1

theorem blockReader (m : MsgSize) (stream : Bytes) :
    BlockReader (handleConn m.val) (Go.reader stream) 2 m.val (Inv m stream) where
  pos := ⟨by decide, m.pos⟩
  inv_step _ _ _ h hstep := inv_step h hstep
  within _ h := h.within
  reading x dst len h hreq := by
    cases h.reading with
    | header _ hreq' htaken =>
      rw [hreq'] at hreq
      cases hreq
      exact Or.inl ⟨htaken, rfl⟩
    | recving e _ hreq' htaken =>
      rw [hreq'] at hreq
      cases hreq
      exact Or.inr ⟨e, htaken, rfl⟩
    | announcing _ hreq' | sending _ _ hreq' | ended _ _ hreq' =>
      rw [hreq'] at hreq
      cases hreq
  full x y dst len h hreq hstep hnone := by
    cases hstep with
    | read _ len' dst' hreq' _ hk harrived =>
      rw [hreq] at hreq'
      cases hreq'
      exact Nat.lt_irrefl _ ((h.reads hreq hk harrived).2.mp hnone)
  short x c y dst len h hreq hc hstep := by
    rcases hc with rfl | ⟨k, rfl, hlt⟩
    · cases hstep with
      | eof _ _ hreq' => exact (h.eof hreq').2
    · cases hstep with
      | read _ len' dst' hreq' _ hk harrived =>
        rw [hreq] at hreq'
        cases hreq'
        exact (h.reads hreq hk harrived).2.mpr hlt
  write x y h hstep := by
    cases hstep with
    | write len src hreq =>
      have hall := h.reading.send_len hreq
      simp only [Go.reader, hall]
      exact (h.write hreq).2

/-- What the handler has echoed when nothing is left to happen. -/
theorem Inv.wire (h : Inv m stream x) (hend : x.Settled (Go.reader stream)) :
    2 + complete 2 m.val x.taken * m.val ≤ 2 + (stream.drop 2).length ∧
      x.wire = announcement m.val ++ (stream.drop 2).take (complete 2 m.val x.taken * m.val) := by
  have hle : x.taken ≤ stream.length := Nat.le_trans h.within.taken_le h.within.arrived_le
  have hlen : (stream.drop 2).length = stream.length - 2 := List.length_drop
  have hdiv : complete 2 m.val x.taken * m.val ≤ x.taken - 2 := Nat.div_mul_le_self _ _
  refine ⟨by omega, ?_⟩
  have hzero : x.taken < 2 → complete 2 m.val x.taken = 0 :=
    fun hlt => complete_of_lt (Nat.lt_add_right _ hlt)
  cases h.reading with
  | header _ _ htaken hwire =>
    rw [hzero (by omega), Nat.zero_mul, List.take_zero, List.append_nil]
    exact hwire
  | recving e _ _ htaken hwire =>
    have he : complete 2 m.val x.taken = e := by
      rw [htaken]
      exact complete_add_lt m.pos m.pos
    rwa [he]
  | ended e p _ hp htaken hwire =>
    have he : complete 2 m.val x.taken = e := by
      rcases htaken with ⟨rfl, hlt⟩ | htaken
      · exact hzero hlt
      · rw [htaken]
        exact complete_add_lt m.pos hp
    rwa [he]
  | announcing _ hreq | sending _ _ hreq =>
    -- a write is still to return
    rcases hend.2 with hnone | ⟨-, dst, len, hrecv⟩
    · rw [hreq] at hnone
      cases hnone
    · rw [hreq] at hrecv
      cases hrecv

/-- All complete blocks have been echoed if and only if all have been taken. -/
theorem Inv.echoed_iff (h : Inv m stream x) (hend : x.Settled (Go.reader stream)) :
    x.wire = announcement m.val ++ (blocks m.val (stream.drop 2)).flatten ↔
      complete 2 m.val stream.length = complete 2 m.val x.taken := by
  obtain ⟨hle, hwire⟩ := h.wire hend
  have hall : (stream.drop 2).length / m.val = complete 2 m.val stream.length := by
    rw [List.length_drop]
    rfl
  rw [hwire, List.append_cancel_left_eq, flatten_blocks _ m.pos, hall]
  have hdiv : complete 2 m.val stream.length * m.val ≤ (stream.drop 2).length := by
    rw [← hall]
    exact Nat.div_mul_le_self _ _
  constructor
  · intro heq
    have hlen := congrArg List.length heq
    rw [List.length_take, List.length_take, Nat.min_eq_left (by omega), Nat.min_eq_left hdiv] at hlen
    exact Nat.eq_of_mul_eq_mul_right m.pos hlen.symm
  · intro heq
    rw [heq]

end GoServer

-- ---------------------------------------------------------------------------
-- The client
-- ---------------------------------------------------------------------------

namespace GoClient

open Client (Announced)

variable {m : MsgSize} {fill : Nat → Buffer} {stream : Bytes} {x y : Caller Pc Buf UInt8} {c : Call}

/-- Where the client is: it has read `k` replies, and in the end has taken `p` bytes of the
next one. -/
inductive Reading (m : MsgSize) (x : Caller Pc Buf UInt8) : Prop
  | hi : x.pc = .hi → x.req = some (.send .hi 2) → x.taken = 0 → Reading m x
  | size : x.pc = .size → x.req = some (.recv .buf 4) → x.taken = 0 → Reading m x
  | sending (k : Nat) : x.pc = .sending m.val k → x.req = some (.send .buf m.val) →
      x.taken = 4 + k * m.val → Reading m x
  | recving (k : Nat) : x.pc = .recving m.val k → x.req = some (.recv .buf m.val) →
      x.taken = 4 + k * m.val → Reading m x
  | ended (k p : Nat) : x.req = none → p < m.val →
      (k = 0 ∧ x.taken < 4 ∨ x.taken = 4 + k * m.val + p) → Reading m x

structure Inv (m : MsgSize) (stream : Bytes) (x : Caller Pc Buf UInt8) : Prop where
  within : x.Within (Go.reader stream)
  length_buf : (x.mem .buf).length = bufSize
  reading : Reading m x

theorem Reading.congr (h : Reading m x) (hpc : y.pc = x.pc) (hreq : y.req = x.req)
    (htaken : y.taken = x.taken) : Reading m y := by
  cases h with
  | hi h₁ h₂ h₃ => exact .hi (hpc.trans h₁) (hreq.trans h₂) (htaken.trans h₃)
  | size h₁ h₂ h₃ => exact .size (hpc.trans h₁) (hreq.trans h₂) (htaken.trans h₃)
  | sending k h₁ h₂ h₃ => exact .sending k (hpc.trans h₁) (hreq.trans h₂) (htaken.trans h₃)
  | recving k h₁ h₂ h₃ => exact .recving k (hpc.trans h₁) (hreq.trans h₂) (htaken.trans h₃)
  | ended k p h₁ h₂ h₃ => exact .ended k p (hreq.trans h₁) h₂ (by rw [htaken]; exact h₃)

theorem length_wake (fill : Nat → Buffer) (pc : Pc) (mem : Buf → Bytes) (results : List Int)
    (h : (mem .buf).length = bufSize) :
    (((client fill).wake pc mem results).mem .buf).length = bufSize := by
  have hop : ∀ size k, ((oneOperation fill size k mem).mem .buf).length = bufSize := by
    intro size k
    unfold oneOperation
    split
    · simp only [Function.update_self]
      exact (fill k).length_eq
    · simp only [Function.update_self]
      exact (fill k).length_eq
  simp only [client]
  cases pc with
  | hi =>
    simp only
    split
    · exact h
    · exact h
  | size =>
    simp only
    split
    · exact h
    · exact hop _ 0
  | sending size k =>
    simp only
    split
    · exact h
    · exact h
  | recving size k =>
    simp only
    split
    · exact h
    · exact hop size (k + 1)
  | panicked => exact h

/-- `oneOperation` comes to its `Write`. -/
theorem oneOperation_eq (k : Nat) (mem : Buf → Bytes) : oneOperation fill m.val k mem =
    ⟨.sending m.val k, Function.update mem .buf (fill k).bytes, [.send .buf m.val]⟩ :=
  if_neg (Nat.not_lt.mpr m.le_bufSize)

/-- A `Read` of the client that returns `n` bytes; the first four it reads are the
announcement. -/
theorem Inv.read (fill : Nat → Buffer) {n len : Nat} {dst : Buf} (h : Inv m stream x)
    (hreq : x.req = some (.recv dst len)) (hn : n ≤ len) {z : Caller Pc Buf UInt8} (hpc : z.pc = x.pc) (htaken : z.taken = x.taken + n)
    (hsize : n = 4 → x.taken = 0 → (z.mem .buf).take 4 = htonl m.val) :
    Reading m (z.returns (client fill) n) ∧ ((z.returns (client fill) n).req = none ↔ n < len) := by
  cases h.reading with
  | size hpc' hreq' htaken' =>
    rw [hreq'] at hreq
    cases hreq
    rw [hpc'] at hpc
    by_cases hshort : n < 4
    · have hnext : (client fill).wake z.pc z.mem [(n : Int)] = ⟨.panicked, z.mem, []⟩ := by
        rw [hpc]
        exact wake_short rfl hshort
      rw [Caller.returns_eq hnext]
      refine ⟨.ended 0 0 rfl m.pos (Or.inl ⟨rfl, ?_⟩), iff_of_true rfl hshort⟩
      show z.taken < 4
      omega
    · obtain rfl : n = 4 := by omega
      have hnext : (client fill).wake z.pc z.mem [((4 : Nat) : Int)] =
          oneOperation fill m.val 0 z.mem := by
        rw [hpc, wake_size, hsize rfl htaken', m.ntohl_htonl]
      rw [oneOperation_eq] at hnext
      rw [Caller.returns_eq hnext]
      refine ⟨.sending 0 rfl rfl ?_, iff_of_false (by simp) hshort⟩
      show z.taken = 4 + 0 * m.val
      omega
  | recving k hpc' hreq' htaken' =>
    rw [hreq'] at hreq
    cases hreq
    rw [hpc'] at hpc
    by_cases hshort : n < m.val
    · have hnext : (client fill).wake z.pc z.mem [(n : Int)] = ⟨.panicked, z.mem, []⟩ := by
        rw [hpc]
        exact wake_short rfl hshort
      rw [Caller.returns_eq hnext]
      refine ⟨.ended k n rfl hshort (Or.inr ?_), iff_of_true rfl hshort⟩
      show z.taken = _
      rw [htaken, htaken']
    · obtain rfl : n = m.val := by omega
      have hnext : (client fill).wake z.pc z.mem [(m.val : Int)] =
          oneOperation fill m.val (k + 1) z.mem := by
        rw [hpc]
        exact wake_recving
      rw [oneOperation_eq] at hnext
      rw [Caller.returns_eq hnext]
      refine ⟨.sending (k + 1) rfl rfl ?_, iff_of_false (by simp) hshort⟩
      show z.taken = _
      rw [htaken, htaken', Nat.succ_mul, Nat.add_assoc]
  | hi _ hreq' | sending _ _ hreq' | ended _ _ hreq' =>
    rw [hreq'] at hreq
    cases hreq

/-- A `Write` of the client, which takes all. -/
theorem Inv.write {len : Nat} {src : Buf} (h : Inv m stream x) (hreq : x.req = some (.send src len))
    (bs : Bytes) : Reading m ((x.put bs).returns (client fill) len) ∧
      ((x.put bs).returns (client fill) len).req ≠ none := by
  cases h.reading with
  | hi hpc hreq' htaken =>
    rw [hreq'] at hreq
    cases hreq
    have hnext : (client fill).wake x.pc x.mem [((2 : Nat) : Int)] =
        ⟨.size, x.mem, [.recv .buf 4]⟩ := by
      rw [hpc]
      exact wake_hi
    rw [Caller.returns_eq (x := x.put bs) hnext]
    exact ⟨.size rfl rfl htaken, by simp⟩
  | sending k hpc hreq' htaken =>
    rw [hreq'] at hreq
    cases hreq
    have hnext : (client fill).wake x.pc x.mem [(m.val : Int)] =
        ⟨.recving m.val k, x.mem, [.recv .buf m.val]⟩ := by
      rw [hpc]
      exact wake_sending
    rw [Caller.returns_eq (x := x.put bs) hnext]
    exact ⟨.recving k rfl rfl htaken, by simp⟩
  | size _ hreq' | recving _ _ hreq' | ended _ _ hreq' =>
    rw [hreq'] at hreq
    cases hreq

theorem Reading.recv_len (h : Reading m x) {dst : Buf} {len : Nat}
    (hreq : x.req = some (.recv dst len)) : dst = .buf ∧ 0 < len ∧ len ≤ bufSize := by
  cases h with
  | size _ hreq' =>
    rw [hreq'] at hreq
    cases hreq
    decide
  | recving _ _ hreq' =>
    rw [hreq'] at hreq
    cases hreq
    exact ⟨rfl, m.pos, m.le_bufSize⟩
  | hi _ hreq' | sending _ _ hreq' | ended _ _ hreq' =>
    rw [hreq'] at hreq
    cases hreq

theorem Reading.send_len (h : Reading m x) {src : Buf} {len : Nat}
    (hreq : x.req = some (.send src len)) : allowed (some bufSize) len = len := by
  refine Nat.min_eq_right ?_
  cases h with
  | hi _ hreq' =>
    rw [hreq'] at hreq
    cases hreq
    decide
  | sending _ _ hreq' =>
    rw [hreq'] at hreq
    cases hreq
    exact m.le_bufSize
  | size _ hreq' | recving _ _ hreq' | ended _ _ hreq' =>
    rw [hreq'] at hreq
    cases hreq

theorem Inv.reads {k len : Nat} {dst : Buf} (h : Inv m stream x) (hann : Announced m stream)
    (hreq : x.req = some (.recv dst len)) (hk : k ≤ len) (harrived : x.taken + k ≤ x.arrived) :
    Inv m stream ((x.take dst ((stream.drop x.taken).take k)).returns (client fill) k) ∧
      (((x.take dst ((stream.drop x.taken).take k)).returns (client fill) k).req = none ↔
        k < len) := by
  obtain ⟨rfl, -, hlen⟩ := h.reading.recv_len hreq
  have hroom : k ≤ (x.mem .buf).length := by
    rw [h.length_buf]
    exact Nat.le_trans hk hlen
  have htaken := h.within.taken_read harrived .buf
  obtain ⟨hmem, hlength⟩ := h.within.mem_read harrived hroom
  obtain ⟨hreading, hnone⟩ := h.read fill (z := x.take .buf ((stream.drop x.taken).take k)) hreq hk rfl htaken fun hfour hzero => by
      subst hfour
      refine hmem.trans ?_
      have hle : x.arrived ≤ stream.length := h.within.arrived_le
      obtain ⟨S, hS⟩ := hann
      rw [hzero] at harrived ⊢
      show stream.take 4 = htonl m.val
      exact Announced.eq ⟨S, (List.take_prefix 4 stream).trans hS⟩ (by
        rw [List.length_take]
        omega)
  refine ⟨⟨⟨Nat.le_trans (Nat.le_of_eq htaken) harrived, h.within.arrived_le⟩, ?_, hreading⟩, hnone⟩
  exact length_wake fill _ _ _ (hlength.trans h.length_buf)

theorem Inv.eof {len : Nat} {dst : Buf} (h : Inv m stream x) (hreq : x.req = some (.recv dst len)) :
    Inv m stream (x.returns (client fill) 0) ∧ (x.returns (client fill) 0).req = none := by
  obtain ⟨-, hpos, -⟩ := h.reading.recv_len hreq
  obtain ⟨hreading, hnone⟩ := h.read fill (z := x) hreq (Nat.zero_le _) rfl rfl
    fun heq => absurd heq (by decide)
  refine ⟨⟨⟨h.within.taken_le, h.within.arrived_le⟩, ?_, hreading⟩, hnone.mpr hpos⟩
  exact length_wake fill _ _ _ h.length_buf

theorem inv_start (m : MsgSize) (stream : Bytes) : Inv m stream (Caller.start entry) where
  within := ⟨Nat.le_refl 0, Nat.zero_le _⟩
  length_buf := List.length_replicate
  reading := .hi rfl rfl rfl

theorem inv_step (hann : Announced m stream) (h : Inv m stream x)
    (hstep : Caller.Step (client fill) (Go.reader stream) x c y) : Inv m stream y := by
  have hwithin := h.within.step hstep
  cases hstep with
  | arrive | fin => exact ⟨hwithin, h.length_buf, h.reading.congr rfl rfl rfl⟩
  | read k len dst hreq _ hk harrived => exact (h.reads hann hreq hk harrived).1
  | eof len dst hreq => exact (h.eof hreq).1
  | write len src hreq =>
    have hall := h.reading.send_len hreq
    refine ⟨hwithin, length_wake fill _ _ _ h.length_buf, ?_⟩
    simp only [Go.reader, hall]
    exact (h.write hreq _).1

theorem blockReader (fill : Nat → Buffer) (hann : Announced m stream) :
    BlockReader (client fill) (Go.reader stream) 4 m.val (Inv m stream) where
  pos := ⟨by decide, m.pos⟩
  inv_step _ _ _ h hstep := inv_step hann h hstep
  within _ h := h.within
  reading x dst len h hreq := by
    cases h.reading with
    | size _ hreq' htaken =>
      rw [hreq'] at hreq
      cases hreq
      exact Or.inl ⟨htaken, rfl⟩
    | recving k _ hreq' htaken =>
      rw [hreq'] at hreq
      cases hreq
      exact Or.inr ⟨k, htaken, rfl⟩
    | hi _ hreq' | sending _ _ hreq' | ended _ _ hreq' =>
      rw [hreq'] at hreq
      cases hreq
  full x y dst len h hreq hstep hnone := by
    cases hstep with
    | read _ len' dst' hreq' _ hk harrived =>
      rw [hreq] at hreq'
      cases hreq'
      exact Nat.lt_irrefl _ ((h.reads hann hreq hk harrived).2.mp hnone)
  short x c y dst len h hreq hc hstep := by
    rcases hc with rfl | ⟨k, rfl, hlt⟩
    · cases hstep with
      | eof _ _ hreq' => exact (h.eof hreq').2
    · cases hstep with
      | read _ len' dst' hreq' _ hk harrived =>
        rw [hreq] at hreq'
        cases hreq'
        exact (h.reads hann hreq hk harrived).2.mpr hlt
  write x y h hstep := by
    cases hstep with
    | write len src hreq =>
      have hall := h.reading.send_len hreq
      simp only [Go.reader, hall]
      exact (h.write hreq _).2

/-- The replies that the client has read in full; each completes an operation. -/
def replies (m : MsgSize) (x : Caller Pc Buf UInt8) : Nat := complete 4 m.val x.taken

end GoClient

-- ---------------------------------------------------------------------------
-- The pair
-- ---------------------------------------------------------------------------

namespace Go

/-- **Exactly when the Go programs do what the blocking ones do.** For every message size and
every stream `simple.c` echoes all complete blocks; `handleConn` does, in a run after which
nothing is left to happen, if and only if no `Read` came up short while a complete block
was left; and `client` completes every operation whose reply arrives in full if and only if
no `Read` came up short while a complete reply was left. -/
theorem segmentation_iff (m : MsgSize) (stream : Bytes) :
    (∀ stack, (Session.machine (Simple.handleConn m) (reader stream)).Inevitably
      (fun x => x.thread.pc = .returned ∧
        x.wire = htonl m.val ++ (blocks m.val (stream.drop 2)).flatten)
      (Session.start (Simple.entry m stack))) ∧
    (∀ cs x, (Caller.machine (GoServer.handleConn m.val) (reader stream)).exec
        (Caller.start (GoServer.entry m.val)) cs = some x → x.Settled (reader stream) →
      (x.wire = GoServer.announcement m.val ++ (blocks m.val (stream.drop 2)).flatten ↔
        (Caller.machine (GoServer.handleConn m.val) (reader stream)).Along
          (Unbroken 2 m.val (reader stream)) (Caller.start (GoServer.entry m.val)) cs)) ∧
    (∀ fill, Client.Announced m stream → ∀ cs x,
      (Caller.machine (GoClient.client fill) (reader stream)).exec
        (Caller.start GoClient.entry) cs = some x → x.Settled (reader stream) →
      (GoClient.replies m x = complete 4 m.val stream.length ↔
        (Caller.machine (GoClient.client fill) (reader stream)).Along
          (Unbroken 4 m.val (reader stream)) (Caller.start GoClient.entry) cs)) := by
  refine ⟨fun stack => ?_, fun cs x hrun hend => ?_, fun fill hann cs x hrun hend => ?_⟩
  · have hwire : Threaded.echoWire m (reader stream) =
        htonl m.val ++ (blocks m.val (stream.drop 2)).flatten := Threaded.echoWire_blocking m stream
    rw [← hwire]
    exact Simple.handleConn_wire m (reader stream) stack
  · have hinv : GoServer.Inv m stream x := by
      have hpres : (Caller.machine (GoServer.handleConn m.val) (reader stream)).Preserves
          (GoServer.Inv m stream) :=
        fun _ _ _ h hstep => GoServer.inv_step h (Caller.step_cases hstep)
      exact hpres.exec (GoServer.inv_start m stream) hrun
    rw [hinv.echoed_iff hend]
    exact (GoServer.blockReader m stream).complete_iff (GoServer.inv_start m stream)
      (fun h => by cases h) hrun hend
  · rw [eq_comm]
    exact (GoClient.blockReader fill hann).complete_iff (GoClient.inv_start m stream)
      (fun h => by cases h) hrun hend

/-- What a client sends: its header and one message. -/
def oneMessage : Bytes := [72, 105, 1, 2, 3, 4]

/-- What a server sends: the announcement and one reply. -/
def oneReply : Bytes := [0, 0, 0, 4, 1, 2, 3, 4]

def zeros (_ : Nat) : Buffer := EchoServer.zeros

/-- All of the message has arrived when the handler reads it. -/
def wholeMessage : List Call := [.arrive 6, .write, .read 2, .read 4, .write]

theorem segmentation_iff_wholeMessage :
    ∃ x, (Caller.machine (GoServer.handleConn four.val) (reader oneMessage)).exec
        (Caller.start (GoServer.entry four.val)) wholeMessage = some x ∧
      x.wire = GoServer.announcement 4 ++ [1, 2, 3, 4] := by
  have hview : ((Caller.machine (GoServer.handleConn four.val) (reader oneMessage)).exec
      (Caller.start (GoServer.entry four.val)) wholeMessage).map
        (fun x => (x.arrived, x.taken, x.req)) = some (6, 6, some (.recv .buf 4)) := by decide
  obtain ⟨x, hrun, hview⟩ := Option.map_eq_some_iff.mp hview
  simp only [Prod.mk.injEq] at hview
  obtain ⟨harrived, htaken, hreq⟩ := hview
  obtain ⟨-, hserver, -⟩ := segmentation_iff four oneMessage
  exact ⟨x, hrun, (hserver wholeMessage x hrun ⟨harrived, Or.inr ⟨htaken, _, _, hreq⟩⟩).mpr
    (by decide)⟩

/-- Half of a message, and half of a reply, has arrived when it is read: the handler
returns and echoes nothing, and the client panics with its operation not completed. -/
theorem segmentation_split :
    (∃ x, (Caller.machine (GoServer.handleConn four.val) (reader oneMessage)).exec
        (Caller.start (GoServer.entry four.val))
        [.arrive 4, .write, .read 2, .read 2, .arrive 2] = some x ∧
      x.Settled (reader oneMessage) ∧ x.pc = .returned ∧ x.wire = GoServer.announcement 4 ∧
      (blocks 4 (oneMessage.drop 2)).flatten = [1, 2, 3, 4]) ∧
    ∃ x, (Caller.machine (GoClient.client zeros) (reader oneReply)).exec
        (Caller.start GoClient.entry) [.write, .arrive 6, .read 4, .write, .read 2, .arrive 2] =
          some x ∧
      x.Settled (reader oneReply) ∧ x.pc = .panicked ∧ GoClient.replies four x = 0 ∧
      complete 4 four.val oneReply.length = 1 := by
  constructor
  · have hview : ((Caller.machine (GoServer.handleConn four.val) (reader oneMessage)).exec
        (Caller.start (GoServer.entry four.val))
        [.arrive 4, .write, .read 2, .read 2, .arrive 2]).map
          (fun x => (x.arrived, x.req, x.pc, x.wire)) =
        some (6, none, .returned, GoServer.announcement 4) := by decide
    obtain ⟨x, hrun, hview⟩ := Option.map_eq_some_iff.mp hview
    simp only [Prod.mk.injEq] at hview
    obtain ⟨harrived, hreq, hpc, hwire⟩ := hview
    exact ⟨x, hrun, ⟨harrived, Or.inl hreq⟩, hpc, hwire, by decide⟩
  · have hview : ((Caller.machine (GoClient.client zeros) (reader oneReply)).exec
        (Caller.start GoClient.entry) [.write, .arrive 6, .read 4, .write, .read 2, .arrive 2]).map
          (fun x => (x.arrived, x.req, x.pc, x.taken)) = some (8, none, .panicked, 6) := by decide
    obtain ⟨x, hrun, hview⟩ := Option.map_eq_some_iff.mp hview
    simp only [Prod.mk.injEq] at hview
    obtain ⟨harrived, hreq, hpc, htaken⟩ := hview
    exact ⟨x, hrun, ⟨harrived, Or.inl hreq⟩, hpc, by rw [GoClient.replies, htaken]; decide,
      by decide⟩

end Go

end EchoServer
