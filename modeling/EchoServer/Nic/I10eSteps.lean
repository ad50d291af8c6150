import EchoServer.Nic.I10e

/-!
# i10e.c — what one step does

The allocator gives the program the region block by block, so that each structure has a place
of its own: 2048 bytes for the receive ring, for each of its buffers and for the transmit
ring. The invariant says where each place is and what lies in it.

* `State.alloc_eq` — the places, one after another;
* `RqDesc.ofBytes_bytes`, `TqDesc.ofBytes_bytes` — each side reads the descriptor that the other
  one has written;
* `step_cases` — everything a step can be, with the addresses it uses.
-/

namespace EchoServer.Nic.I10e

open EchoServer.Lib

variable {r : Region} {off : Nat} {s t : State} {l : Label}

-- ---------------------------------------------------------------------------
-- Descriptors
-- ---------------------------------------------------------------------------

theorem RqDesc.length_result (d : RqDesc) : d.result.length = 8 := rfl

theorem RqDesc.length_bytes (d : RqDesc) : d.bytes.length = 16 := rfl

theorem TqDesc.length_bytes (d : TqDesc) : d.bytes.length = 16 := rfl

/-- The device reads the descriptor that the program has written, and the other way round. -/
theorem RqDesc.ofBytes_bytes (d : RqDesc) : RqDesc.ofBytes d.bytes = d := by
  have haddress : d.bytes.take 8 = leBytes 8 d.bufferAddress.toNat := rfl
  have hlength : (d.bytes.drop 8).take 2 = leBytes 2 d.length.toNat := rfl
  have hchecksum : (d.bytes.drop 10).take 2 = leBytes 2 d.checksum.toNat := rfl
  have hstatus : (d.bytes.drop 12).take 1 = leBytes 1 d.status.toNat := rfl
  have herrors : (d.bytes.drop 13).take 1 = leBytes 1 d.errors.toNat := rfl
  have hvlan : (d.bytes.drop 14).take 2 = leBytes 2 d.vlanTag.toNat := rfl
  simp only [RqDesc.ofBytes, haddress, hlength, hchecksum, hstatus, herrors, hvlan, leNat_toNat64,
    leNat_toNat16, leNat_toNat8, UInt64.ofNat_toNat, UInt16.ofNat_toNat, UInt8.ofNat_toNat]

theorem TqDesc.ofBytes_bytes (d : TqDesc) : TqDesc.ofBytes d.bytes = d := by
  have haddress : d.bytes.take 8 = leBytes 8 d.bufferAddress.toNat := rfl
  have hlength : (d.bytes.drop 8).take 2 = leBytes 2 d.length.toNat := rfl
  have hcso : (d.bytes.drop 10).take 1 = leBytes 1 d.cso.toNat := rfl
  have hcmd : (d.bytes.drop 11).take 1 = leBytes 1 d.cmd.toNat := rfl
  have hsta : (d.bytes.drop 12).take 1 = leBytes 1 d.sta.toNat := rfl
  have hcss : (d.bytes.drop 13).take 1 = leBytes 1 d.css.toNat := rfl
  have hvlan : (d.bytes.drop 14).take 2 = leBytes 2 d.vlan.toNat := rfl
  simp only [TqDesc.ofBytes, haddress, hlength, hcso, hcmd, hsta, hcss, hvlan, leNat_toNat64,
    leNat_toNat16, leNat_toNat8, UInt64.ofNat_toNat, UInt16.ofNat_toNat, UInt8.ofNat_toNat]

-- ---------------------------------------------------------------------------
-- The places
-- ---------------------------------------------------------------------------

/-- The `k`-th place: the receive ring, its buffers, the transmit ring and its buffer. -/
def slot (r : Region) (k : Nat) : Nat := r.base.toNat + 2048 * k

/-- The `i`-th descriptor of the receive ring. -/
def ring (r : Region) (i : Nat) : Nat := r.base.toNat + 16 * i

/-- A block of whole lines begins where the last one ends. -/
theorem State.alloc_eq (size : UInt64) {k : UInt64 → State → State} {m n : Nat}
    (hsize : size.toNat = n) (hnext : s.nextFreeAddr.toNat = r.base.toNat + m) (hm : 128 ∣ m)
    (hroom : m + n ≤ 67108864) :
    ∃ a next, a.toNat = r.base.toNat + m ∧ next.toNat = r.base.toNat + m + n ∧
      s.alloc r size 7 k = k a { s with nextFreeAddr := next } := by
  have hdma : dmaSize = 67108864 := rfl
  obtain ⟨a, next, ha, hend, heq⟩ := dmaAllocAligned_eq r (n := s.nextFreeAddr) (by omega)
    ⟨size, 7, by omega, by decide⟩
  have hline : 128 ∣ s.nextFreeAddr.toNat := by
    rw [hnext]
    exact Nat.dvd_add ((by decide : 128 ∣ 4096).trans r.page) hm
  have hpow : 2 ^ (7 : UInt64).toNat = 128 := rfl
  have haligned : a.toNat = r.base.toNat + m := by
    rw [← hnext, ha, hpow]
    refine Nat.le_antisymm ?_ (le_alignUp (by decide))
    exact (alignUp_le_iff (by decide) hline).mpr le_rfl
  have hend' : next.toNat = r.base.toNat + m + n := by
    rw [← haligned, ← hsize]
    exact hend
  have hfits : next.toNat ≤ r.base.toNat + dmaSize := by omega
  rw [if_pos hfits] at heq
  have hcall : dmaAllocAligned r.base s.nextFreeAddr size 7 = some (a, next) := heq
  refine ⟨a, next, haligned, hend', ?_⟩
  rw [State.alloc, hcall]
  rfl

/-- How far `main` is. -/
def Pc.rank : Pc → Nat
  | .allocRq => 0
  | .prepare _ => 1
  | .rxRegisters => 2
  | .rxEnable => 3
  | .allocTq => 4
  | .sendOne => 5
  | .post => 6
  | .waiting => 7
  | .poll => 8
  | .walk _ _ => 9
  | .done => 10
  | .exited => 11

/-- How much of the region is given out. -/
def Pc.allocated : Pc → Nat
  | .allocRq => 0
  | .prepare i => 2048 * (i + 1)
  | .rxRegisters | .rxEnable | .allocTq => 2048 * 129
  | .sendOne => 2048 * 130
  | .post | .waiting | .poll | .walk _ _ | .done | .exited => 2048 * 130 + 128

/-- How many descriptors of the receive ring name a buffer. -/
def Pc.prepared : Pc → Nat
  | .allocRq => 0
  | .prepare i => i
  | _ => 128

/-- The descriptor of the packet. -/
def packetDesc (bufferAddress : UInt64) : TqDesc := ⟨bufferAddress, 64, 0, 9, 0, 0, 0⟩

/-- What `fill_with_bytes` leaves. -/
def counting (n : Nat) : Bytes := (List.range n).map UInt8.ofNat

/-- Frames that are in their buffers, and of these the ones whose descriptors say so. -/
def State.stored (s : State) : List Bytes :=
  s.received.map Frame.bytes ++ match s.rx with
    | .stored bytes => [bytes]
    | .written frame => [frame.bytes]
    | .idle | .fetched _ => []

def State.described (s : State) : List Frame :=
  s.received ++ match s.rx with
    | .written frame => [frame]
    | .idle | .fetched _ | .stored _ => []

-- ---------------------------------------------------------------------------
-- The invariant
-- ---------------------------------------------------------------------------

/-- The program's variables. -/
structure Locals (r : Region) (s : State) : Prop where
  next : s.nextFreeAddr.toNat = r.base.toNat + s.pc.allocated
  rq : 1 ≤ s.pc.rank → s.rqAddr.toNat = r.base.toNat
  tq : 5 ≤ s.pc.rank → s.tqAddr.toNat = slot r 129
  round : ∀ i, s.pc = .prepare i → i ≤ 128
  exited : s.pc ≠ .exited
  blocked : s.blocked = false

/-- The descriptor `i` of the receive ring: its buffer, and the frame that it tells of. -/
def Describes (r : Region) (mem : Mem) (i : Nat) (frame : Option Frame) : Prop :=
  ∃ d : RqDesc, Holds mem (ring r i) d.bytes ∧ d.bufferAddress.toNat = 2048 * (i + 1) ∧
    ∀ f, frame = some f → d.length.toNat = f.bytes.length ∧ d.status = f.status ∧ d.status &&& 1 = 1

/-- The receive ring. -/
structure Receives (r : Region) (s : State) : Prop where
  off : s.pc.rank < 4 → s.rxq.rxctrl = false ∧ s.rx = .idle ∧ s.received = []
  base : 3 ≤ s.pc.rank → joined s.rxq.rdbah s.rxq.rdbal = 0 ∧ s.rxq.rdlen = 2048 ∧
    s.rxq.srrctl = 2 ∧ s.rxq.rdh = s.received.length
  tail : 4 ≤ s.pc.rank → s.rxq.rdt = 127
  count : s.received.length ≤ 127
  busy : s.rx ≠ .idle → s.received.length < 127
  fetched : ∀ d, s.rx = .fetched d → d.bufferAddress.toNat = 2048 * (s.received.length + 1)
  descs : ∀ i < s.pc.prepared, Describes r s.mem i s.described[i]?
  frames : ∀ i bytes, s.stored[i]? = some bytes →
    Holds s.mem (slot r (i + 1)) bytes ∧ bytes.length ≤ 2048

/-- The packet, once it is posted. -/
inductive Posted (r : Region) (s : State) : Prop
  | pending (x : UInt64) : s.tx = .idle → s.txq.tdh = 0 → s.sent = [] →
      x.toNat = 2048 * 130 → Holds s.mem (slot r 129) (packetDesc x).bytes →
      Holds s.mem (slot r 130) (counting 128) → Posted r s
  | fetched (x : UInt64) : s.tx = .fetched (packetDesc x) → s.txq.tdh = 0 → s.sent = [] →
      x.toNat = 2048 * 130 → Holds s.mem (slot r 129) (packetDesc x).bytes →
      Holds s.mem (slot r 130) (counting 128) → Posted r s
  | read (x : UInt64) : s.tx = .read (packetDesc x) → s.txq.tdh = 0 → s.sent = [counting 64] →
      Holds s.mem (slot r 129) (packetDesc x).bytes → Posted r s
  | written : s.tx = .written → s.txq.tdh = 0 → s.sent = [counting 64] → Posted r s
  | advanced : s.tx = .idle → s.txq.tdh = 1 → s.sent = [counting 64] → Posted r s

/-- The transmit ring. -/
structure Transmits (r : Region) (s : State) : Prop where
  base : 5 ≤ s.pc.rank → joined s.txq.tdbah s.txq.tdbal = 2048 * 129 ∧ s.txq.tdlen = 2048
  packet : s.packet = []
  before : s.pc.rank ≤ 6 → s.tx = .idle ∧ s.sent = [] ∧ s.txq.tdh = 0 ∧ s.txq.tdt = 0
  built : s.pc = .post → ∃ x : UInt64, x.toNat = 2048 * 130 ∧
    Holds s.mem (slot r 129) (packetDesc x).bytes ∧ Holds s.mem (slot r 130) (counting 128)
  posted : 7 ≤ s.pc.rank → s.txq.tdt = 1 ∧ Posted r s
  waited : 8 ≤ s.pc.rank → s.sent = [counting 64]

structure Inv (r : Region) (s : State) : Prop where
  locals : Locals r s
  receives : Receives r s
  transmits : Transmits r s

theorem inv_initial (r : Region) (mem : Mem) : Inv r (initial r mem) := by
  have hbefore : ∀ {n : Nat} {P : Prop}, n + 1 ≤ (initial r mem).pc.rank → P :=
    fun h => absurd h (Nat.not_succ_le_zero _)
  refine ⟨⟨rfl, hbefore, hbefore, nofun, nofun, rfl⟩, ?_, ?_⟩
  · exact ⟨fun _ => ⟨rfl, rfl, rfl⟩, hbefore, hbefore, Nat.zero_le _, fun h => absurd rfl h, nofun,
      nofun, nofun⟩
  · exact ⟨hbefore, rfl, fun _ => ⟨rfl, rfl, rfl, rfl⟩, nofun, hbefore, hbefore⟩

-- ---------------------------------------------------------------------------
-- The steps
-- ---------------------------------------------------------------------------

/-- Everything a step can be. -/
inductive Step (r : Region) (off : Nat) (s : State) : Label → State → Prop
  | allocRq (a next : UInt64) : s.pc = .allocRq → a.toNat = slot r 0 → next.toNat = slot r 1 →
      Step r off s .program { s with nextFreeAddr := next, rqAddr := a, pc := .prepare 0 }
  | prepare (i : Nat) (x next : UInt64) : s.pc = .prepare i → i < 128 →
      x.toNat = 2048 * (i + 1) → next.toNat = slot r (i + 2) →
      Step r off s .program
        { s with
          mem := s.mem.write (ring r i) (RqDesc.bytes ⟨x, 0, 0, 0, 0, 0⟩)
          nextFreeAddr := next, pc := .prepare (i + 1) }
  | prepared : s.pc = .prepare 128 → Step r off s .program { s with pc := .rxRegisters }
  | rxRegisters (low high : UInt32) : s.pc = .rxRegisters → joined high low = 0 →
      Step r off s .program
        { s with
          rxq := { s.rxq with
            rdbal := low, rdbah := high, rdh := 0, rdt := 0, rdlen := 2048, srrctl := 2 }
          pc := .rxEnable }
  | rxEnable : s.pc = .rxEnable →
      Step r off s .program
        { s with rxq := { s.rxq with rxdctl := true, rdt := 127, rxctrl := true }, pc := .allocTq }
  | allocTq (a next : UInt64) (low high : UInt32) : s.pc = .allocTq → a.toNat = slot r 129 →
      next.toNat = slot r 130 → joined high low = 2048 * 129 →
      Step r off s .program
        { s with
          nextFreeAddr := next, tqAddr := a
          txq := { s.txq with
            tdbal := low, tdbah := high, tdh := 0, tdt := 0, tdlen := 2048, dmatxctl := true,
            txdctl := true }
          pc := .sendOne }
  | sendOne (x next : UInt64) : s.pc = .sendOne → x.toNat = 2048 * 130 →
      next.toNat = slot r 130 + 128 →
      Step r off s .program
        { s with
          mem := (s.mem.write (slot r 129) (packetDesc x).bytes).write (slot r 130) (counting 128)
          nextFreeAddr := next, pc := .post }
  | post : s.pc = .post →
      Step r off s .program { s with txq := { s.txq with tdt := 1 }, pc := .waiting }
  | waiting : s.pc = .waiting → s.mem (slot r 129 + 12) &&& 1 ≠ 0 →
      Step r off s .program { s with pc := .poll }
  | poll : s.pc = .poll →
      Step r off s .program { s with pc := .walk 0 s.received.length }
  | visit (i firstUnreceived : Nat) : s.pc = .walk i firstUnreceived → i < firstUnreceived →
      Step r off s .program
        { s with
          printed := s.printed ++ [line r off s i], pc := .walk ((i + 1) % rqLen) firstUnreceived }
  | visited (i firstUnreceived : Nat) : s.pc = .walk i firstUnreceived → ¬ i < firstUnreceived →
      Step r off s .program { s with pc := .done }
  | rxFetch (d : RqDesc) : s.rx = .idle → 4 ≤ s.pc.rank → s.received.length < 127 →
      d.bufferAddress.toNat = 2048 * (s.received.length + 1) →
      Step r off s .rxFetch { s with rx := .fetched d }
  | rxStore (d : RqDesc) (frame : Bytes) : s.rx = .fetched d → frame.length ≤ 2048 →
      Step r off s (.rxStore frame)
        { s with mem := s.mem.write (slot r (s.received.length + 1)) frame, rx := .stored frame }
  | rxWriteBack (d : RqDesc) (bytes : Bytes) : s.rx = .stored bytes → d.status &&& 1 = 1 →
      d.length.toNat = bytes.length →
      Step r off s (.rxWriteBack d.checksum d.vlanTag d.status d.errors)
        { s with
          mem := s.mem.write (ring r s.received.length + 8) d.result, rx := .written ⟨bytes, d.status⟩ }
  | rxAdvance (frame : Frame) : s.rx = .written frame →
      Step r off s .rxAdvance
        { s with
          rx := .idle, received := s.received ++ [frame]
          rxq := { s.rxq with rdh := s.received.length + 1 } }
  | txFetch (x : UInt64) : s.tx = .idle → s.txq.tdh = 0 → 7 ≤ s.pc.rank →
      x.toNat = 2048 * 130 → Holds s.mem (slot r 129) (packetDesc x).bytes →
      Holds s.mem (slot r 130) (counting 128) →
      Step r off s .txFetch { s with tx := .fetched (packetDesc x) }
  | txRead (x : UInt64) : s.tx = .fetched (packetDesc x) →
      Step r off s .txRead
        { s with tx := .read (packetDesc x), packet := [], sent := s.sent ++ [counting 64] }
  | txWriteBack (x : UInt64) : s.tx = .read (packetDesc x) →
      Step r off s .txWriteBack { s with mem := s.mem.write (slot r 129 + 12) [1], tx := .written }
  | txAdvance : s.tx = .written →
      Step r off s .txAdvance { s with tx := .idle, txq := { s.txq with tdh := 1 } }

/-- A line of whole places is where the device sees it. -/
theorem toNat_iova {a : UInt64} {k : Nat} (ha : a.toNat = slot r k) (hk : k ≤ 130) :
    (vaddrToIovaddr .i10e r.base a).toNat = 2048 * k := by
  have hdma : dmaSize = 67108864 := rfl
  unfold slot at ha
  rw [toNat_vaddrToIovaddr .i10e r (by omega) (by omega)]
  show a.toNat - r.base.toNat + 0 = 2048 * k
  omega

theorem joined_masked (a : UInt64) :
    joined (a >>> 32).toUInt32 (a &&& ((1 : UInt64) <<< 32 - 1)).toUInt32 = a.toNat := by
  have hlow : (a &&& ((1 : UInt64) <<< 32 - 1)).toUInt32 = u64Low a := by
    rw [← UInt32.toNat_inj, u64Low, UInt64.toNat_toUInt32, UInt64.toNat_toUInt32, UInt64.toNat_and]
    show (a.toNat &&& (2 ^ 32 - 1)) % 2 ^ 32 = _
    rw [Nat.and_two_pow_sub_one_eq_mod, Nat.mod_mod]
  rw [hlow]
  exact joined_halves a

theorem fillWithBytes_eq (mem : Mem) (addr size : Nat) :
    fillWithBytes mem addr size = mem.write addr (counting size) := by
  induction size with
  | zero =>
    funext x
    exact (if_neg fun h => Nat.not_lt.mpr h.1 h.2).symm
  | succ size ih =>
    have hlen : (counting size).length = size := by rw [counting, List.length_map, List.length_range]
    have hsucc : counting (size + 1) = counting size ++ [UInt8.ofNat size] := by
      rw [counting, List.range_succ, List.map_append]
      rfl
    have hstep : fillWithBytes mem addr (size + 1) =
        (fillWithBytes mem addr size).write (addr + size) [UInt8.ofNat size] := by
      rw [fillWithBytes, List.range_succ, List.foldl_append]
      rfl
    rw [hstep, ih, hsucc, ← Mem.write_append, hlen]

theorem RqDesc.bytes_empty (x : UInt64) :
    RqDesc.bytes ⟨x, 0, 0, 0, 0, 0⟩ = leBytes 8 x.toNat ++ List.replicate 8 0 := by
  simp only [RqDesc.bytes, RqDesc.result]
  exact congrArg _ (by decide)

theorem packetDesc_bytes (x : UInt64) :
    (packetDesc x).bytes = leBytes 8 x.toNat ++ overwrite (overwrite (List.replicate 8 0) 0
      (leBytes 2 64)) 3 [(1 : UInt8) ||| (1 : UInt8) <<< 3] := by
  simp only [TqDesc.bytes, packetDesc]
  exact congrArg _ (by decide)

/-- `memset` and the store of the address. -/
theorem write_rqDesc (mem : Mem) (a : Nat) (x : UInt64) :
    (mem.write a (List.replicate 16 0)).write a (leBytes 8 x.toNat) =
      mem.write a (RqDesc.bytes ⟨x, 0, 0, 0, 0, 0⟩) := by
  have hinside : 0 + (leBytes 8 x.toNat).length ≤ (List.replicate 16 (0 : UInt8)).length := by
    rw [length_leBytes]
    decide
  rw [RqDesc.bytes_empty]
  exact Mem.write_write hinside

/-- `memset` and the stores of `send_one`. -/
theorem write_packetDesc (mem : Mem) (a : Nat) (x : UInt64) :
    (((mem.write a (List.replicate 16 0)).write a (leBytes 8 x.toNat)).write (a + 8)
      (leBytes 2 64)).write (a + 11) [(1 : UInt8) ||| (1 : UInt8) <<< 3] =
      mem.write a (packetDesc x).bytes := by
  have hlength := overwrite_append (length_leBytes 8 x.toNat) (List.replicate 8 0) (leBytes 2 64) 0
  have hcmd := overwrite_append (length_leBytes 8 x.toNat)
    (overwrite (List.replicate 8 0) 0 (leBytes 2 64)) [(1 : UInt8) ||| (1 : UInt8) <<< 3] 3
  rw [write_rqDesc, RqDesc.bytes_empty, packetDesc_bytes, Mem.write_write (k := 8), hlength,
    Mem.write_write (k := 11), hcmd]
  · simp only [List.length_append, length_leBytes]
    decide
  · simp only [List.length_append, length_leBytes]
    decide

theorem storePacket_eq (tqe : Nat) (addr next : UInt64) :
    State.storePacket r tqe addr
      { s.write tqe (List.replicate 16 0) with nextFreeAddr := next } =
      { s with
        mem := (s.mem.write tqe (packetDesc (vaddrToIovaddr .i10e r.base addr)).bytes).write addr.toNat
          (counting 128)
        nextFreeAddr := next, pc := .post } := by
  rw [← write_packetDesc, ← fillWithBytes_eq]
  rfl

/-- A step of the program. -/
theorem program_cases (h : Inv r s) (hstep : program r off s = some t) : Step r off s .program t := by
  have hnext := h.locals.next
  have hrq := h.locals.rq
  have htq := h.locals.tq
  cases hpc : s.pc with
  | allocRq =>
    rw [hpc] at hnext
    obtain ⟨a, next, ha, hend, heq⟩ := State.alloc_eq (r := r) (16 * 128) (n := 2048)
      (k := fun a s => { s with rqAddr := a, pc := .prepare 0 }) (by decide) hnext (by decide)
      (by decide)
    simp only [program, hpc, heq] at hstep
    cases hstep
    exact .allocRq a next hpc ha (by unfold Pc.allocated at hend; unfold slot; omega)
  | prepare i =>
    rw [hpc] at hnext hrq
    simp only [program, hpc] at hstep
    by_cases hi : i < 128
    · rw [if_pos hi, hrq le_rfl] at hstep
      have hnext' := (congrArg UInt64.toNat
        (s.write_nextFreeAddr (r.base.toNat + 16 * i) (List.replicate 16 0))).trans hnext
      obtain ⟨a, next, ha, hend, heq⟩ := State.alloc_eq (r := r)
        (s := s.write (r.base.toNat + 16 * i) (List.replicate 16 0)) 2048 (n := 2048)
        (k := fun a s' => { s' with
          mem := s'.mem.write (r.base.toNat + 16 * i) (leBytes 8 (vaddrToIovaddr .i10e r.base a).toNat)
          pc := .prepare (i + 1) })
        (by decide) hnext' (Nat.dvd_mul_right_of_dvd (by decide) _) (by rw [Pc.allocated]; omega)
      simp only [heq, Option.some.injEq] at hstep
      subst hstep
      have hiova := toNat_iova ha (by omega)
      have hprepare : Step r off s .program _ :=
        .prepare i (vaddrToIovaddr .i10e r.base a) next hpc hi hiova (by rw [hend, Pc.allocated, slot]; omega)
      rw [← write_rqDesc] at hprepare
      exact hprepare
    · rw [if_neg hi] at hstep
      cases hstep
      have hround := h.locals.round i hpc
      obtain rfl : i = 128 := by omega
      exact .prepared hpc
  | rxRegisters =>
    rw [hpc] at hrq
    simp only [program, hpc] at hstep
    cases hstep
    have hiova := toNat_iova (r := r) (k := 0) (hrq (by decide)) (Nat.zero_le _)
    exact .rxRegisters _ _ hpc ((joined_halves _).trans hiova)
  | rxEnable =>
    simp only [program, hpc] at hstep
    cases hstep
    exact .rxEnable hpc
  | allocTq =>
    rw [hpc] at hnext
    simp only [program, hpc] at hstep
    obtain ⟨a, next, ha, hend, heq⟩ := State.alloc_eq (r := r) (16 * 128) (n := 2048)
      (k := fun a s => { s with
        tqAddr := a
        txq := { s.txq with
          tdbal := (vaddrToIovaddr .i10e r.base a &&& ((1 : UInt64) <<< 32 - 1)).toUInt32
          tdbah := (vaddrToIovaddr .i10e r.base a >>> 32).toUInt32
          tdh := 0, tdt := 0, tdlen := tqLen * 16, dmatxctl := true, txdctl := true }
        pc := .sendOne }) (by decide) hnext (by decide) (by decide)
    rw [heq] at hstep
    cases hstep
    have hiova := toNat_iova (k := 129) ha (by decide)
    exact .allocTq a next _ _ hpc ha (by unfold Pc.allocated at hend; unfold slot; omega)
      ((joined_masked _).trans hiova)
  | sendOne =>
    rw [hpc] at hnext htq
    simp only [program, hpc, htq (by decide)] at hstep
    have hnext' := (congrArg UInt64.toNat
      (s.write_nextFreeAddr (slot r 129) (List.replicate 16 0))).trans hnext
    obtain ⟨a, next, ha, hend, heq⟩ := State.alloc_eq (r := r)
      (s := s.write (slot r 129) (List.replicate 16 0)) 128 (n := 128)
      (k := State.storePacket r (slot r 129)) (by decide) hnext' (by decide) (by decide)
    rw [heq, storePacket_eq] at hstep
    cases hstep
    have hiova := toNat_iova (k := 130) ha (by decide)
    have haddr : a.toNat = slot r 130 := ha
    rw [haddr]
    exact .sendOne _ next hpc hiova (by unfold Pc.allocated at hend; unfold slot; omega)
  | post =>
    simp only [program, hpc] at hstep
    cases hstep
    exact .post hpc
  | waiting =>
    rw [hpc] at htq
    simp only [program, hpc, htq (by decide)] at hstep
    obtain ⟨hsta, heq⟩ := Option.ite_none_left_eq_some.mp hstep
    cases heq
    exact .waiting hpc hsta
  | poll =>
    simp only [program, hpc] at hstep
    cases hstep
    have hhead := (h.receives.base (by rw [hpc]; decide)).2.2.2
    have htail := h.receives.tail (by rw [hpc]; decide)
    rw [hhead, htail]
    exact .poll hpc
  | walk i firstUnreceived =>
    simp only [program, hpc] at hstep
    by_cases hi : i < firstUnreceived
    · rw [if_pos hi] at hstep
      cases hstep
      exact .visit i firstUnreceived hpc hi
    · rw [if_neg hi] at hstep
      cases hstep
      exact .visited i firstUnreceived hpc hi
  | done | exited =>
    simp only [program, hpc] at hstep
    cases hstep

theorem dma_eq {a n v : Nat} {k : Nat → State} (hv : v = r.base.toNat + a) (hend : a + n ≤ 67108864) :
    s.dma r a n k = k v := by
  have hdma : dmaSize = 67108864 := rfl
  have hwindow : Driver.i10e.window r a n = some v := by
    rw [Driver.window, hdma]
    exact (if_pos ⟨Nat.zero_le _, by show a + n ≤ 0 + _; omega⟩).trans (congrArg some hv.symm)
  rw [State.dma, hwindow]

/-- Once the queue is on, the registers and the descriptors are set. -/
theorem Receives.listening (h : Receives r s) (hon : s.rxq.rxctrl = true ∨ s.rx ≠ .idle) :
    4 ≤ s.pc.rank ∧ s.rxq.rxHead = 16 * s.received.length ∧ s.rxq.rdlen = 2048 ∧
      s.rxq.srrctl = 2 ∧ s.rxq.rdh = s.received.length ∧ s.rxq.rdt = 127 := by
  have hrank : 4 ≤ s.pc.rank := by
    by_contra hlt
    obtain ⟨hoff, hidle, -⟩ := h.off (Nat.not_le.mp hlt)
    rcases hon with hon | hbusy
    · rw [hoff] at hon
      cases hon
    · exact hbusy hidle
  obtain ⟨hbase, hlen, hsize, hhead⟩ := h.base (Nat.le_of_succ_le hrank)
  refine ⟨hrank, ?_, hlen, hsize, hhead, h.tail hrank⟩
  rw [RxQueue.rxHead, hbase, hhead, Nat.zero_add]

/-- A step of the device at the receive ring. -/
theorem rxFetch_cases (h : Receives r s) (hstep : step r off s .rxFetch = some t) :
    Step r off s .rxFetch t := by
  cases hrx : s.rx with
  | idle =>
    simp only [step, hrx] at hstep
    obtain ⟨⟨-, hon, hne⟩, heq⟩ := Option.ite_none_right_eq_some.mp hstep
    obtain ⟨hrank, hhead, -, -, hrdh, hrdt⟩ := h.listening (Or.inl hon)
    have hcount := h.count
    have hlt : s.received.length < 127 := by omega
    have hprepared : s.received.length < s.pc.prepared := by
      cases hpc : s.pc with
      | allocRq | prepare =>
        rw [hpc] at hrank
        exact absurd hrank (by simp [Pc.rank])
      | rxRegisters | rxEnable | allocTq | sendOne | post | waiting | poll | walk | done | exited =>
        exact Nat.lt_succ_of_lt hlt
    obtain ⟨d, hholds, haddr, -⟩ := h.descs _ hprepared
    rw [hhead, dma_eq (v := ring r s.received.length) rfl (by omega)] at heq
    cases heq
    have hread : s.mem.read (ring r s.received.length) 16 = d.bytes := hholds
    rw [hread, RqDesc.ofBytes_bytes]
    exact .rxFetch d hrx hrank hlt haddr
  | fetched | stored | written =>
    simp only [step, hrx] at hstep
    cases hstep

theorem rxStore_cases {frame : Bytes} (h : Receives r s)
    (hstep : step r off s (.rxStore frame) = some t) : Step r off s (.rxStore frame) t := by
  cases hrx : s.rx with
  | fetched d =>
    simp only [step, hrx] at hstep
    obtain ⟨hsize, heq⟩ := Option.ite_none_right_eq_some.mp hstep
    have hbusy : s.rx ≠ .idle := by
      rw [hrx]
      nofun
    obtain ⟨-, -, -, hsrrctl, -, -⟩ := h.listening (Or.inr hbusy)
    have hlt := h.busy hbusy
    have haddr := h.fetched d hrx
    rw [hsrrctl] at hsize
    rw [dma_eq (v := slot r (s.received.length + 1)) (by rw [haddr, slot]) (by omega)] at heq
    cases heq
    exact .rxStore d frame hrx hsize
  | idle | stored | written =>
    simp only [step, hrx] at hstep
    cases hstep

theorem rxWriteBack_cases {checksum vlanTag : UInt16} {status errors : UInt8} (h : Receives r s)
    (hstep : step r off s (.rxWriteBack checksum vlanTag status errors) = some t) :
    Step r off s (.rxWriteBack checksum vlanTag status errors) t := by
  cases hrx : s.rx with
  | stored bytes =>
    simp only [step, hrx] at hstep
    obtain ⟨hdd, heq⟩ := Option.ite_none_right_eq_some.mp hstep
    have hbusy : s.rx ≠ .idle := by
      rw [hrx]
      nofun
    obtain ⟨-, hhead, -⟩ := h.listening (Or.inr hbusy)
    have hlt := h.busy hbusy
    have hsize : bytes.length ≤ 2048 := by
      refine (h.frames s.received.length bytes ?_).2
      have hlen : (s.received.map Frame.bytes).length = s.received.length := List.length_map _
      simp only [State.stored, hrx]
      rw [← hlen]
      exact List.getElem?_concat_length
    rw [hhead, dma_eq (v := ring r s.received.length + 8) (by rw [ring, Nat.add_assoc]) (by omega)] at heq
    cases heq
    refine .rxWriteBack ⟨0, .ofNat bytes.length, checksum, status, errors, vlanTag⟩ bytes hrx hdd ?_
    exact UInt16.toNat_ofNat_of_lt' (by show bytes.length < 65536; omega)
  | idle | fetched | written =>
    simp only [step, hrx] at hstep
    cases hstep

theorem rxAdvance_cases (h : Receives r s) (hstep : step r off s .rxAdvance = some t) :
    Step r off s .rxAdvance t := by
  cases hrx : s.rx with
  | written frame =>
    simp only [step, hrx] at hstep
    cases hstep
    have hbusy : s.rx ≠ .idle := by
      rw [hrx]
      nofun
    obtain ⟨-, -, hlen, -, hhead, -⟩ := h.listening (Or.inr hbusy)
    have hlt := h.busy hbusy
    have hnext : (s.rxq.rdh + 1) % (s.rxq.rdlen / 16) = s.received.length + 1 := by
      rw [hhead, hlen]
      exact Nat.mod_eq_of_lt (by omega)
    rw [hnext]
    exact .rxAdvance frame hrx
  | idle | fetched | stored =>
    simp only [step, hrx] at hstep
    cases hstep

/-- The device works at the transmit ring on nothing but the packet. -/
theorem Transmits.sending (h : Transmits r s) (hon : s.tx ≠ .idle ∨ s.txq.tdh ≠ s.txq.tdt) :
    7 ≤ s.pc.rank ∧ joined s.txq.tdbah s.txq.tdbal = 2048 * 129 ∧ s.txq.tdlen = 2048 ∧
      s.txq.tdt = 1 ∧ Posted r s := by
  have hrank : 7 ≤ s.pc.rank := by
    by_contra hlt
    obtain ⟨hidle, -, hhead, htail⟩ := h.before (Nat.le_of_lt_succ (Nat.not_le.mp hlt))
    rcases hon with hbusy | hne
    · exact hbusy hidle
    · exact hne (hhead.trans htail.symm)
  obtain ⟨hbase, hlen⟩ := h.base (hrank.trans' (by decide))
  exact ⟨hrank, hbase, hlen, h.posted hrank⟩

/-- A step of the device at the transmit ring. -/
theorem txFetch_cases (h : Transmits r s) (hstep : step r off s .txFetch = some t) :
    Step r off s .txFetch t := by
  cases htx : s.tx with
  | idle =>
    simp only [step, htx] at hstep
    obtain ⟨⟨-, -, hne⟩, heq⟩ := Option.ite_none_right_eq_some.mp hstep
    obtain ⟨hrank, hbase, -, htail, hposted⟩ := h.sending (Or.inr hne)
    cases hposted with
    | pending x _ hhead hsent hx hdesc hbuf =>
      have htxHead : s.txq.txHead = 2048 * 129 := by rw [TxQueue.txHead, hbase, hhead]
      rw [htxHead, dma_eq (v := slot r 129) rfl (by decide)] at heq
      cases heq
      have hread : s.mem.read (slot r 129) 16 = (packetDesc x).bytes := hdesc
      rw [hread, TqDesc.ofBytes_bytes]
      exact .txFetch x htx hhead hrank hx hdesc hbuf
    | advanced _ hhead => exact absurd (hhead.trans htail.symm) hne
    | fetched _ htx' | read _ htx' | written htx' =>
      rw [htx] at htx'
      cases htx'
  | fetched | read | written =>
    simp only [step, htx] at hstep
    cases hstep

theorem txRead_cases (h : Transmits r s) (hstep : step r off s .txRead = some t) :
    Step r off s .txRead t := by
  cases htx : s.tx with
  | fetched d =>
    simp only [step, htx] at hstep
    have hbusy : s.tx ≠ .idle := by
      rw [htx]
      nofun
    obtain ⟨-, -, -, -, hposted⟩ := h.sending (Or.inl hbusy)
    cases hposted with
    | fetched x htx' hhead hsent hx hdesc hbuf =>
      rw [htx] at htx'
      cases htx'
      have hlen : (packetDesc x).length.toNat = 64 := by
        show (64 : UInt16).toNat = 64
        decide
      have hcmd : ¬ (packetDesc x).cmd &&& 1 = 0 := by
        show ¬ (9 : UInt8) &&& 1 = 0
        decide
      have haddr : (packetDesc x).bufferAddress.toNat = 2048 * 130 := hx
      have hcounting : counting 128 = counting 64 ++ (List.range' 64 64).map UInt8.ofNat := by decide
      have hread : s.mem.read (slot r 130) 64 = counting 64 := by
        rw [hcounting] at hbuf
        exact (holds_append.mp hbuf).1
      rw [haddr, hlen, dma_eq (v := slot r 130) rfl (by decide), if_neg hcmd, h.packet, List.nil_append,
        hread] at hstep
      cases hstep
      exact .txRead x htx
    | pending _ htx' | read _ htx' | written htx' | advanced htx' =>
      rw [htx] at htx'
      cases htx'
  | idle | read | written =>
    simp only [step, htx] at hstep
    cases hstep

theorem txWriteBack_cases (h : Transmits r s) (hstep : step r off s .txWriteBack = some t) :
    Step r off s .txWriteBack t := by
  cases htx : s.tx with
  | read d =>
    simp only [step, htx] at hstep
    have hbusy : s.tx ≠ .idle := by
      rw [htx]
      nofun
    obtain ⟨-, hbase, -, -, hposted⟩ := h.sending (Or.inl hbusy)
    cases hposted with
    | read x htx' hhead =>
      rw [htx] at htx'
      cases htx'
      have hcmd : ¬ (packetDesc x).cmd &&& 8 = 0 := by
        show ¬ (9 : UInt8) &&& 8 = 0
        decide
      have hsta : (packetDesc x).sta ||| 1 = 1 := by
        show (0 : UInt8) ||| 1 = 1
        decide
      have htxHead : s.txq.txHead = 2048 * 129 := by rw [TxQueue.txHead, hbase, hhead]
      have hplace : slot r 129 + 12 = r.base.toNat + (2048 * 129 + 12) := Nat.add_assoc ..
      rw [if_neg hcmd, htxHead, dma_eq hplace (by decide), hsta] at hstep
      cases hstep
      exact .txWriteBack x htx
    | pending _ htx' | fetched _ htx' | written htx' | advanced htx' =>
      rw [htx] at htx'
      cases htx'
  | idle | fetched | written =>
    simp only [step, htx] at hstep
    cases hstep

theorem txAdvance_cases (h : Transmits r s) (hstep : step r off s .txAdvance = some t) :
    Step r off s .txAdvance t := by
  cases htx : s.tx with
  | written =>
    simp only [step, htx] at hstep
    cases hstep
    have hbusy : s.tx ≠ .idle := by
      rw [htx]
      nofun
    obtain ⟨-, -, hlen, -, hposted⟩ := h.sending (Or.inl hbusy)
    cases hposted with
    | written _ hhead =>
      have hnext : (s.txq.tdh + 1) % (s.txq.tdlen / 16) = 1 := by rw [hhead, hlen]
      rw [hnext]
      exact .txAdvance htx
    | pending _ htx' | fetched _ htx' | read _ htx' | advanced htx' =>
      rw [htx] at htx'
      cases htx'
  | idle | fetched | read =>
    simp only [step, htx] at hstep
    cases hstep

/-- **Everything a step can be.** -/
theorem step_cases (h : Inv r s) (hstep : step r off s l = some t) : Step r off s l t := by
  cases l with
  | program => exact program_cases h hstep
  | rxFetch => exact rxFetch_cases h.receives hstep
  | rxStore frame => exact rxStore_cases h.receives hstep
  | rxWriteBack checksum vlanTag status errors => exact rxWriteBack_cases h.receives hstep
  | rxAdvance => exact rxAdvance_cases h.receives hstep
  | txFetch => exact txFetch_cases h.transmits hstep
  | txRead => exact txRead_cases h.transmits hstep
  | txWriteBack => exact txWriteBack_cases h.transmits hstep
  | txAdvance => exact txAdvance_cases h.transmits hstep

end EchoServer.Nic.I10e
