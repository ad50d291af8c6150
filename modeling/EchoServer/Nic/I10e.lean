import EchoServer.Nic.Memory

/-!
# i10e.c — the driver and its device

`main` gives the device a ring of empty buffers, sends one packet and then looks once at what
has been received. The device works on its own all the while: it takes the descriptor at the
head of the ring, stores a frame in the buffer that the descriptor names, writes the
descriptor back and moves the head; it sends what lies between the head and the tail of the
other ring. Both find each other's bytes through the addresses in the registers and in the
descriptors, and the device only through the window of the IOMMU.

The reset, the link and the filters are not in the model: it begins when the device has been
reset, and a loop that waits for a status bit is left when the device sets it.

* `program` — `init_i10e` from its rings on, `send_one` and `rq_poll_once`;
* `step` — the program, or the device at either ring.
-/

namespace EchoServer.Nic.I10e

open EchoServer.Lib

/-- `RQ_LEN`. -/
abbrev rqLen : Nat := 128

/-- `TQ_LEN`. -/
abbrev tqLen : Nat := 128

-- ---------------------------------------------------------------------------
-- Descriptors
-- ---------------------------------------------------------------------------

/-- `rq_desc_t`. -/
structure RqDesc where
  bufferAddress : UInt64
  length : UInt16
  checksum : UInt16
  status : UInt8
  errors : UInt8
  vlanTag : UInt16
  deriving DecidableEq, Repr

/-- What the device writes back: all but the address. -/
def RqDesc.result (d : RqDesc) : Bytes :=
  leBytes 2 d.length.toNat ++ (leBytes 2 d.checksum.toNat ++ (leBytes 1 d.status.toNat ++
    (leBytes 1 d.errors.toNat ++ leBytes 2 d.vlanTag.toNat)))

def RqDesc.bytes (d : RqDesc) : Bytes := leBytes 8 d.bufferAddress.toNat ++ d.result

/-- The descriptor that 16 bytes are. -/
def RqDesc.ofBytes (bs : Bytes) : RqDesc where
  bufferAddress := .ofNat (leNat (bs.take 8))
  length := .ofNat (leNat ((bs.drop 8).take 2))
  checksum := .ofNat (leNat ((bs.drop 10).take 2))
  status := .ofNat (leNat ((bs.drop 12).take 1))
  errors := .ofNat (leNat ((bs.drop 13).take 1))
  vlanTag := .ofNat (leNat ((bs.drop 14).take 2))

/-- `tq_desc_t`. -/
structure TqDesc where
  bufferAddress : UInt64
  length : UInt16
  cso : UInt8
  cmd : UInt8
  sta : UInt8
  css : UInt8
  vlan : UInt16
  deriving DecidableEq, Repr

def TqDesc.bytes (d : TqDesc) : Bytes :=
  leBytes 8 d.bufferAddress.toNat ++ (leBytes 2 d.length.toNat ++ (leBytes 1 d.cso.toNat ++
    (leBytes 1 d.cmd.toNat ++ (leBytes 1 d.sta.toNat ++ (leBytes 1 d.css.toNat ++
      leBytes 2 d.vlan.toNat)))))

def TqDesc.ofBytes (bs : Bytes) : TqDesc where
  bufferAddress := .ofNat (leNat (bs.take 8))
  length := .ofNat (leNat ((bs.drop 8).take 2))
  cso := .ofNat (leNat ((bs.drop 10).take 1))
  cmd := .ofNat (leNat ((bs.drop 11).take 1))
  sta := .ofNat (leNat ((bs.drop 12).take 1))
  css := .ofNat (leNat ((bs.drop 13).take 1))
  vlan := .ofNat (leNat ((bs.drop 14).take 2))

-- ---------------------------------------------------------------------------
-- The state
-- ---------------------------------------------------------------------------

/-- The registers of the receive queue. Of `RXDCTL` and `RXCTRL` only the bit that enables it
counts; `SRRCTL` is the size of a buffer in units of 1024 bytes. -/
structure RxQueue where
  rdbal : UInt32
  rdbah : UInt32
  rdlen : Nat
  rdh : Nat
  rdt : Nat
  srrctl : Nat
  rxdctl : Bool
  rxctrl : Bool

/-- The registers of the transmit queue. -/
structure TxQueue where
  tdbal : UInt32
  tdbah : UInt32
  tdlen : Nat
  tdh : Nat
  tdt : Nat
  dmatxctl : Bool
  txdctl : Bool

def RxQueue.reset : RxQueue := ⟨0, 0, 0, 0, 0, 0, false, false⟩

def TxQueue.reset : TxQueue := ⟨0, 0, 0, 0, 0, false, false⟩

/-- Where the program is: in `init_i10e`, with the round of its loop; in `send_one`; or in
`rq_poll_once`, with `i` and `first_unreceived`. -/
inductive Pc
  | allocRq
  | prepare (i : Nat)
  | rxRegisters
  | rxEnable
  | allocTq
  | sendOne
  | post
  | waiting
  | poll
  | walk (i firstUnreceived : Nat)
  | done
  | exited
  deriving DecidableEq, Repr

/-- A frame from the wire, with the status that the device has written back for it. -/
structure Frame where
  bytes : Bytes
  status : UInt8
  deriving DecidableEq, Repr

/-- What the device does at the head of the receive ring. -/
inductive Rx
  | idle
  | fetched (d : RqDesc)
  | stored (bytes : Bytes)
  | written (frame : Frame)
  deriving DecidableEq, Repr

/-- What the device does at the head of the transmit ring. -/
inductive Tx
  | idle
  | fetched (d : TqDesc)
  | read (d : TqDesc)
  | written
  deriving DecidableEq, Repr

/-- The two lines that `rq_poll_once` prints of a descriptor. -/
structure Line where
  length : UInt16
  addr : UInt64
  status : UInt8
  ethernetLength : UInt16
  deriving DecidableEq, Repr

/-- The memory, the program with its variables, and the device. `blocked`: the device has used
an address outside the window. `packet` is what it has read of a packet so far; `received`
and `sent` are the frames that went from and to the wire, `printed` what the program printed. -/
structure State where
  mem : Mem
  nextFreeAddr : UInt64
  rqAddr : UInt64
  tqAddr : UInt64
  pc : Pc
  rxq : RxQueue
  txq : TxQueue
  rx : Rx
  tx : Tx
  blocked : Bool
  packet : Bytes
  received : List Frame
  sent : List Bytes
  printed : List Line

/-- The device has been reset, and `init_vfio` has set up the region. -/
def initial (r : Region) (mem : Mem) : State :=
  ⟨mem, r.base, 0, 0, .allocRq, .reset, .reset, .idle, .idle, false, [], [], [], []⟩

-- ---------------------------------------------------------------------------
-- The program
-- ---------------------------------------------------------------------------

def State.write (s : State) (a : Nat) (bs : Bytes) : State := { s with mem := s.mem.write a bs }

@[simp] theorem State.write_nextFreeAddr (s : State) (a : Nat) (bs : Bytes) :
    (s.write a bs).nextFreeAddr = s.nextFreeAddr := rfl

/-- What the caller of `dma_alloc_aligned` does with the block. -/
def State.took (s : State) (k : UInt64 → State → State) : Option (UInt64 × UInt64) → State
  | some (ret, next) => k ret { s with nextFreeAddr := next }
  | none => { s with pc := .exited }

/-- `dma_alloc_aligned`, and what follows. -/
def State.alloc (r : Region) (s : State) (size alignExp : UInt64) (k : UInt64 → State → State) :
    State :=
  s.took k (dmaAllocAligned r.base s.nextFreeAddr size alignExp)

/-- `fill_with_bytes`. -/
def fillWithBytes (mem : Mem) (addr size : Nat) : Mem :=
  (List.range size).foldl (fun mem i => mem.write (addr + i) [UInt8.ofNat i]) mem

/-- The stores of `send_one` at `tqe`, with the buffer at `addr`. -/
def State.storePacket (r : Region) (tqe : Nat) (addr : UInt64) (s : State) : State :=
  let s := s.write tqe (leBytes 8 (vaddrToIovaddr .i10e r.base addr).toNat)
  let s := s.write (tqe + 8) (leBytes 2 64)
  let s := s.write (tqe + 11) [(1 : UInt8) ||| (1 : UInt8) <<< 3]
  { s with mem := fillWithBytes s.mem addr.toNat 128, pc := .post }

/-- `ntohs`, where a word is little-endian. -/
def ntohs (x : UInt16) : UInt16 := .ofNat (x.toNat % 256 * 256 + x.toNat / 256)

/-- One round of the loop of `rq_poll_once`. `lengthOffset` is where `ethernet_header_t` has its
`length`. -/
def line (r : Region) (lengthOffset : Nat) (s : State) (i : Nat) : Line :=
  let rqe := RqDesc.ofBytes (s.mem.read (s.rqAddr.toNat + 16 * i) 16)
  let addr := iovaddrToVaddr .i10e r.base rqe.bufferAddress
  ⟨rqe.length, addr, rqe.status,
    ntohs (.ofNat (leNat (s.mem.read (addr.toNat + lengthOffset) 2)))⟩

/-- `init_i10e`, `send_one`, `rq_poll_once`, up to what the device sees next. -/
def program (r : Region) (lengthOffset : Nat) (s : State) : Option State :=
  match s.pc with
  | .allocRq => some (s.alloc r (16 * 128) 7 fun a s => { s with rqAddr := a, pc := .prepare 0 })
  | .prepare i =>
    if i < rqLen then
      let rqe := s.rqAddr.toNat + 16 * i
      some ((s.write rqe (List.replicate 16 0)).alloc r 2048 7 fun a s =>
        { s with
          mem := s.mem.write rqe (leBytes 8 (vaddrToIovaddr .i10e r.base a).toNat), pc := .prepare (i + 1) })
    else some { s with pc := .rxRegisters }
  | .rxRegisters =>
    let rqIova := vaddrToIovaddr .i10e r.base s.rqAddr
    if rqLen * 16 % 128 ≠ 0 then some { s with pc := .exited }
    else some { s with
      rxq := { s.rxq with
        rdbal := u64Low rqIova, rdbah := u64High rqIova, rdh := 0, rdt := 0, rdlen := rqLen * 16,
        srrctl := 2 }
      pc := .rxEnable }
  | .rxEnable =>
    some { s with rxq := { s.rxq with rxdctl := true, rdt := rqLen - 1, rxctrl := true }, pc := .allocTq }
  | .allocTq =>
    some (s.alloc r (16 * 128) 7 fun a s =>
      let tqIova := vaddrToIovaddr .i10e r.base a
      { s with
        tqAddr := a
        txq := { s.txq with
          tdbal := (tqIova &&& ((1 : UInt64) <<< 32 - 1)).toUInt32, tdbah := (tqIova >>> 32).toUInt32,
          tdh := 0, tdt := 0, tdlen := tqLen * 16, dmatxctl := true, txdctl := true }
        pc := .sendOne })
  | .sendOne =>
    let tqe := s.tqAddr.toNat
    some ((s.write tqe (List.replicate 16 0)).alloc r 128 7 (State.storePacket r tqe))
  | .post => some { s with txq := { s.txq with tdt := 1 }, pc := .waiting }
  | .waiting => if s.mem (s.tqAddr.toNat + 12) &&& 1 = 0 then none else some { s with pc := .poll }
  | .poll => some { s with pc := .walk ((s.rxq.rdt + 1) % rqLen) s.rxq.rdh }
  | .walk i firstUnreceived =>
    if i < firstUnreceived then
      some { s with
        printed := s.printed ++ [line r lengthOffset s i], pc := .walk ((i + 1) % rqLen) firstUnreceived }
    else some { s with pc := .done }
  | .done | .exited => none

-- ---------------------------------------------------------------------------
-- The device
-- ---------------------------------------------------------------------------

/-- The device uses the `n` bytes at the address `a`. -/
def State.dma (r : Region) (s : State) (a n : Nat) (k : Nat → State) : State :=
  match Driver.i10e.window r a n with
  | some v => k v
  | none => { s with blocked := true }

/-- The descriptor at the head of the receive ring. -/
def RxQueue.rxHead (q : RxQueue) : Nat := joined q.rdbah q.rdbal + 16 * q.rdh

/-- The descriptor at the head of the transmit ring. -/
def TxQueue.txHead (q : TxQueue) : Nat := joined q.tdbah q.tdbal + 16 * q.tdh

inductive Label
  | program
  | rxFetch
  | rxStore (frame : Bytes)
  | rxWriteBack (checksum vlanTag : UInt16) (status errors : UInt8)
  | rxAdvance
  | txFetch
  | txRead
  | txWriteBack
  | txAdvance
  deriving DecidableEq, Repr

def step (r : Region) (lengthOffset : Nat) (s : State) : Label → Option State
  | .program => program r lengthOffset s
  | .rxFetch =>
    match s.rx with
    | .idle =>
      if s.rxq.rxdctl ∧ s.rxq.rxctrl ∧ s.rxq.rdh ≠ s.rxq.rdt then
        some (s.dma r s.rxq.rxHead 16 fun a => { s with rx := .fetched (.ofBytes (s.mem.read a 16)) })
      else none
    | _ => none
  | .rxStore frame =>
    match s.rx with
    | .fetched d =>
      if frame.length ≤ 1024 * s.rxq.srrctl then
        some (s.dma r d.bufferAddress.toNat frame.length fun a =>
          { s with mem := s.mem.write a frame, rx := .stored frame })
      else none
    | _ => none
  | .rxWriteBack checksum vlanTag status errors =>
    match s.rx with
    | .stored bytes =>
      -- `DD` is set
      if status &&& 1 = 1 then
        let d : RqDesc := ⟨0, .ofNat bytes.length, checksum, status, errors, vlanTag⟩
        some (s.dma r (s.rxq.rxHead + 8) 8 fun a =>
          { s with mem := s.mem.write a d.result, rx := .written ⟨bytes, status⟩ })
      else none
    | _ => none
  | .rxAdvance =>
    match s.rx with
    | .written frame =>
      some { s with
        rx := .idle, received := s.received ++ [frame]
        rxq := { s.rxq with rdh := (s.rxq.rdh + 1) % (s.rxq.rdlen / 16) } }
    | _ => none
  | .txFetch =>
    match s.tx with
    | .idle =>
      if s.txq.dmatxctl ∧ s.txq.txdctl ∧ s.txq.tdh ≠ s.txq.tdt then
        some (s.dma r s.txq.txHead 16 fun a => { s with tx := .fetched (.ofBytes (s.mem.read a 16)) })
      else none
    | _ => none
  | .txRead =>
    match s.tx with
    | .fetched d =>
      some (s.dma r d.bufferAddress.toNat d.length.toNat fun a =>
        let packet := s.packet ++ s.mem.read a d.length.toNat
        -- `EOP`
        if d.cmd &&& 1 = 0 then { s with tx := .read d, packet := packet }
        else { s with tx := .read d, packet := [], sent := s.sent ++ [packet] })
    | _ => none
  | .txWriteBack =>
    match s.tx with
    | .read d =>
      -- `RS`
      if d.cmd &&& 8 = 0 then some { s with tx := .written }
      else some (s.dma r (s.txq.txHead + 12) 1 fun a =>
        { s with mem := s.mem.write a [d.sta ||| 1], tx := .written })
    | _ => none
  | .txAdvance =>
    match s.tx with
    | .written =>
      some { s with
        tx := .idle, txq := { s.txq with tdh := (s.txq.tdh + 1) % (s.txq.tdlen / 16) } }
    | _ => none

def machine (r : Region) (lengthOffset : Nat) : Machine State Label := ⟨step r lengthOffset⟩

end EchoServer.Nic.I10e
