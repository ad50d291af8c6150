import EchoServer.Nic.Memory

/-!
# x710.c — the admin transmit queue

`adminq_get_ver` builds a command in a circular queue of descriptors that the device
reads: it waits for room, finds the slot at the tail, writes the descriptor, moves the
tail and waits until the device sets `dd` in the descriptor. The device takes commands
from the head up to the tail.

The slot is found by adding the tail register, which counts descriptors, to the
address of the queue, which counts bytes. A call finds its slot when the register is 0; the
second call starts one byte into the first slot.

What is assumed of the device: it goes on from the head as long as that is not the tail,
reads all 32 bytes of a descriptor at once, and before it moves the head writes as many back,
any bytes in which `dd` is set. It may do so at any time, between any two stores of the
program; and the program may give up when the device reports an error. The memory holds
anything to begin with, and both registers are 0.

Main results:

* `inv_step` — the first command, from its first store to the device's completion;
* `handed_iff` — exactly when the device gets the commands that are written.
-/

namespace EchoServer.Nic.AdminQueue

open EchoServer.Lib

-- ---------------------------------------------------------------------------
-- Descriptors
-- ---------------------------------------------------------------------------

/-- `ADMINQ_SIZE`. -/
abbrev adminqSize : Nat := 128

/-- `adminq_desc_t`. -/
structure Desc where
  flags : UInt16
  opcode : UInt16
  datalen : UInt16
  returnValue : UInt16
  cookieHigh : UInt32
  cookieLow : UInt32
  param0 : UInt32
  param1 : UInt32
  dataAddressHigh : UInt32
  dataAddressLow : UInt32
  deriving DecidableEq, Repr

/-- The 32 bytes of a descriptor. -/
def Desc.bytes (d : Desc) : Bytes :=
  leBytes 2 d.flags.toNat ++ leBytes 2 d.opcode.toNat ++ leBytes 2 d.datalen.toNat ++
    leBytes 2 d.returnValue.toNat ++ leBytes 4 d.cookieHigh.toNat ++ leBytes 4 d.cookieLow.toNat ++
    leBytes 4 d.param0.toNat ++ leBytes 4 d.param1.toNat ++ leBytes 4 d.dataAddressHigh.toNat ++
    leBytes 4 d.dataAddressLow.toNat

/-- The command that `adminq_get_ver` builds: opcode 1 and `si`, the flag at bit 13. -/
def getVer : Desc := ⟨0x2000, 1, 0, 0, 0, 0, 0, 0, 0, 0⟩

-- ---------------------------------------------------------------------------
-- The driver and the device
-- ---------------------------------------------------------------------------

/-- Where the program is: outside `adminq_get_ver`, or inside it, with `tqe` once it has
that. -/
inductive Pc
  | idle
  | locate
  | clear (tqe : Nat)
  | opcode (tqe : Nat)
  | si (tqe : Nat)
  | post (tqe : Nat)
  | waiting (tqe : Nat)
  | exited
  deriving DecidableEq, Repr

/-- The address that a call builds its command at and then watches. -/
def Pc.tqe : Pc → Option Nat
  | .clear a | .opcode a | .si a | .post a | .waiting a => some a
  | _ => none

/-- What the device does with the descriptor at its head. -/
inductive Device
  | idle
  | fetched
  | written
  deriving DecidableEq, Repr

/-- A store of the `call`-th call. -/
structure Store where
  call : Nat
  addr : Nat
  len : Nat
  deriving DecidableEq, Repr

/-- The memory, the registers `PF_ATQH` and `PF_ATQT`, the program and the device.
`calls` counts the calls that have returned; `fetched` are the descriptors that the
device has read, and `stores` the stores of all calls. -/
structure State where
  mem : Mem
  atqh : Nat
  atqt : Nat
  pc : Pc
  device : Device
  calls : Nat
  fetched : List Bytes
  stores : List Store

inductive Label
  | call
  | locate
  | clear
  | opcode
  | si
  | post
  | ret
  | exit
  | fetch
  | writeBack (reply : Bytes)
  | advance
  deriving DecidableEq, Repr

/-- The address of the slot that belongs to the `k`-th command. -/
def slot (tq k : Nat) : Nat := tq + 32 * (k % adminqSize)

/-- The byte of `dd`, bit 0 of the flags. -/
def dd (b : UInt8) : Bool := b &&& 1 == 1

/-- A store of the current call. -/
def State.store (s : State) (a : Nat) (bs : Bytes) : State :=
  { s with mem := s.mem.write a bs, stores := s.stores ++ [⟨s.calls, a, bs.length⟩] }

/-- `adminq_get_ver`, and the device. -/
def step (tq : Nat) (s : State) : Label → Option State
  | .call =>
    -- wait for queue to have space at the tail
    if s.pc = .idle ∧ (s.atqt + 1) % adminqSize ≠ s.atqh then some { s with pc := .locate } else none
  | .locate => if s.pc = .locate then some { s with pc := .clear (tq + s.atqt) } else none
  | .clear =>
    match s.pc with
    | .clear tqe => some { s.store tqe (List.replicate 32 0) with pc := .opcode tqe }
    | _ => none
  | .opcode =>
    match s.pc with
    | .opcode tqe => some { s.store (tqe + 2) (leBytes 2 0x0001) with pc := .si tqe }
    | _ => none
  | .si =>
    match s.pc with
    -- a bit field is read and written with its byte
    | .si tqe => some { s.store (tqe + 1) [s.mem (tqe + 1) ||| 0x20] with pc := .post tqe }
    | _ => none
  | .post =>
    match s.pc with
    | .post tqe => some { s with atqt := (s.atqt + 1) % adminqSize, pc := .waiting tqe }
    | _ => none
  | .ret =>
    match s.pc with
    | .waiting tqe =>
      if dd (s.mem tqe) then some { s with pc := .idle, calls := s.calls + 1 } else none
    | _ => none
  | .exit =>
    match s.pc with
    -- `PF_ARQLEN` reports an error
    | .waiting _ => some { s with pc := .exited }
    | _ => none
  | .fetch =>
    if s.device = .idle ∧ s.atqh ≠ s.atqt then
      some { s with device := .fetched, fetched := s.fetched ++ [s.mem.read (slot tq s.atqh) 32] }
    else none
  | .writeBack reply =>
    if s.device = .fetched ∧ reply.length = 32 ∧ dd (reply.getD 0 0) then
      some { s with device := .written, mem := s.mem.write (slot tq s.atqh) reply }
    else none
  | .advance =>
    if s.device = .written then
      some { s with device := .idle, atqh := (s.atqh + 1) % adminqSize }
    else none

def machine (tq : Nat) : Machine State Label := ⟨step tq⟩

/-- After `adminq_init`; nothing is said of what the queue holds. -/
def initial (mem : Mem) : State := ⟨mem, 0, 0, .idle, .idle, 0, [], []⟩

-- ---------------------------------------------------------------------------
-- What the queue is for
-- ---------------------------------------------------------------------------

/-- The device gets every command as it was built; a call builds its command in the slot
that is its own, stores nowhere else, and watches that slot. -/
structure Handed (tq : Nat) (s : State) : Prop where
  fetched : ∀ d ∈ s.fetched, d = getVer.bytes
  tqe : ∀ a, s.pc.tqe = some a → a = slot tq s.calls
  stores : ∀ w ∈ s.stores, slot tq w.call ≤ w.addr ∧ w.addr + w.len ≤ slot tq w.call + 32

/-- The tail register is 0 when a call finds its slot. -/
def AtSlotZero (s : State) (i : Label) : Prop := i = .locate → s.atqt = 0

instance (s : State) (i : Label) : Decidable (AtSlotZero s i) :=
  inferInstanceAs (Decidable (i = .locate → s.atqt = 0))

variable {tq : Nat} {s t : State} {i : Label} {mem : Mem}

-- ---------------------------------------------------------------------------
-- The steps
-- ---------------------------------------------------------------------------

/-- Everything a step can be. -/
inductive Step (tq : Nat) (s : State) : Label → State → Prop
  | call : s.pc = .idle → Step tq s .call { s with pc := .locate }
  | locate : s.pc = .locate → Step tq s .locate { s with pc := .clear (tq + s.atqt) }
  | clear (a : Nat) : s.pc = .clear a →
      Step tq s .clear { s.store a (List.replicate 32 0) with pc := .opcode a }
  | opcode (a : Nat) : s.pc = .opcode a →
      Step tq s .opcode { s.store (a + 2) (leBytes 2 0x0001) with pc := .si a }
  | si (a : Nat) : s.pc = .si a →
      Step tq s .si { s.store (a + 1) [s.mem (a + 1) ||| 0x20] with pc := .post a }
  | post (a : Nat) : s.pc = .post a →
      Step tq s .post { s with atqt := (s.atqt + 1) % adminqSize, pc := .waiting a }
  | ret (a : Nat) : s.pc = .waiting a → dd (s.mem a) = true →
      Step tq s .ret { s with pc := .idle, calls := s.calls + 1 }
  | exit (a : Nat) : s.pc = .waiting a → Step tq s .exit { s with pc := .exited }
  | fetch : s.device = .idle → s.atqh ≠ s.atqt →
      Step tq s .fetch
        { s with device := .fetched, fetched := s.fetched ++ [s.mem.read (slot tq s.atqh) 32] }
  | writeBack (reply : Bytes) : s.device = .fetched →
      Step tq s (.writeBack reply)
        { s with device := .written, mem := s.mem.write (slot tq s.atqh) reply }
  | advance : s.device = .written →
      Step tq s .advance { s with device := .idle, atqh := (s.atqh + 1) % adminqSize }

theorem step_cases (h : step tq s i = some t) : Step tq s i t := by
  cases i with
  | call =>
    obtain ⟨⟨hpc, -⟩, heq⟩ := Option.ite_none_right_eq_some.mp h
    cases heq
    exact .call hpc
  | locate =>
    obtain ⟨hpc, heq⟩ := Option.ite_none_right_eq_some.mp h
    cases heq
    exact .locate hpc
  | clear =>
    simp only [step] at h
    split at h
    · next a hpc =>
      cases h
      exact .clear a hpc
    · cases h
  | opcode =>
    simp only [step] at h
    split at h
    · next a hpc =>
      cases h
      exact .opcode a hpc
    · cases h
  | si =>
    simp only [step] at h
    split at h
    · next a hpc =>
      cases h
      exact .si a hpc
    · cases h
  | post =>
    simp only [step] at h
    split at h
    · next a hpc =>
      cases h
      exact .post a hpc
    · cases h
  | ret =>
    simp only [step] at h
    split at h
    · next a hpc =>
      obtain ⟨hdd, heq⟩ := Option.ite_none_right_eq_some.mp h
      cases heq
      exact .ret a hpc hdd
    · cases h
  | exit =>
    simp only [step] at h
    split at h
    · next a hpc =>
      cases h
      exact .exit a hpc
    · cases h
  | fetch =>
    obtain ⟨⟨hdev, hne⟩, heq⟩ := Option.ite_none_right_eq_some.mp h
    cases heq
    exact .fetch hdev hne
  | writeBack reply =>
    obtain ⟨⟨hdev, -, -⟩, heq⟩ := Option.ite_none_right_eq_some.mp h
    cases heq
    exact .writeBack reply hdev
  | advance =>
    obtain ⟨hdev, heq⟩ := Option.ite_none_right_eq_some.mp h
    cases heq
    exact .advance hdev

-- ---------------------------------------------------------------------------
-- What a command looks like while it is built
-- ---------------------------------------------------------------------------

/-- The descriptor after `memset`, and after `opcode` is set. -/
def cleared : Bytes := List.replicate 32 0
def opcodeSet : Bytes := [0, 0, 1, 0] ++ List.replicate 28 0

/-- The program has not posted its command; what it has built of it is in slot 0. -/
def Built (tq : Nat) (mem : Mem) : Pc → Prop
  | .idle | .locate => True
  | .clear a => a = tq
  | .opcode a => a = tq ∧ Holds mem tq cleared
  | .si a => a = tq ∧ Holds mem tq opcodeSet
  | .post a => a = tq ∧ Holds mem tq getVer.bytes
  | .waiting _ | .exited => False

/-- The device has been handed the command in slot 0. -/
inductive Posted (tq : Nat) (s : State) : Prop
  | pending : s.device = .idle → s.atqh = 0 → s.fetched = [] → Holds s.mem tq getVer.bytes →
      Posted tq s
  | fetched : s.device = .fetched → s.atqh = 0 → s.fetched = [getVer.bytes] →
      Holds s.mem tq getVer.bytes → Posted tq s
  | written : s.device = .written → s.atqh = 0 → s.fetched = [getVer.bytes] → Posted tq s
  | advanced : s.device = .idle → s.atqh = 1 → s.fetched = [getVer.bytes] → Posted tq s

/-- The first command, as long as no other one is begun. -/
inductive Phase (tq : Nat) (s : State) : Prop
  | building : s.calls = 0 → s.atqt = 0 → s.atqh = 0 → s.device = .idle → s.fetched = [] →
      Built tq s.mem s.pc → Phase tq s
  | posted : s.calls = 0 → s.atqt = 1 → (s.pc = .waiting tq ∨ s.pc = .exited) → Posted tq s →
      Phase tq s
  | returned : s.calls = 1 → s.atqt = 1 → (s.pc = .idle ∨ s.pc = .locate) →
      s.fetched = [getVer.bytes] → (s.device = .written ∧ s.atqh = 0 ∨ s.device = .idle ∧ s.atqh = 1) →
      Phase tq s

structure Inv (tq : Nat) (s : State) : Prop where
  phase : Phase tq s
  stores : ∀ w ∈ s.stores, w.call = 0 ∧ tq ≤ w.addr ∧ w.addr + w.len ≤ tq + 32

theorem inv_initial (tq : Nat) (mem : Mem) : Inv tq (initial mem) where
  phase := .building rfl rfl rfl rfl rfl trivial
  stores := by simp [initial]

/-- A store of the first call. -/
theorem Inv.stores_store (h : Inv tq s) (hcalls : s.calls = 0) {k : Nat} {bs : Bytes}
    (hk : k + bs.length ≤ 32) :
    ∀ w ∈ (s.store (tq + k) bs).stores, w.call = 0 ∧ tq ≤ w.addr ∧ w.addr + w.len ≤ tq + 32 := by
  simp only [State.store, List.mem_append, List.mem_singleton]
  rintro w (hw | rfl)
  · exact h.stores w hw
  · exact ⟨hcalls, Nat.le_add_right _ _, by simp only; omega⟩

/-- The bytes of each stage of a command. -/
theorem overwrite_cleared : overwrite cleared 2 (leBytes 2 0x0001) = opcodeSet := by decide

theorem overwrite_opcodeSet : overwrite opcodeSet 1 [opcodeSet[1] ||| 0x20] = getVer.bytes := by
  decide

theorem not_dd_of_holds (h : Holds mem tq getVer.bytes) : dd (mem tq) = false := by
  have hzero := h.apply (k := 0) (by decide)
  rw [Nat.add_zero] at hzero
  rw [hzero]
  decide

/-- A step of the program while it builds its command. -/
theorem Inv.building (h : Inv tq s) (hcalls : s.calls = 0) (htail : s.atqt = 0) (hhead : s.atqh = 0)
    (hdev : s.device = .idle) (hfetched : s.fetched = []) (hbuilt : Built tq s.mem s.pc)
    (hstep : Step tq s i t) : Inv tq t := by
  cases hstep with
  | call hpc => exact ⟨.building hcalls htail hhead hdev hfetched trivial, h.stores⟩
  | locate hpc =>
    refine ⟨.building hcalls htail hhead hdev hfetched ?_, h.stores⟩
    show tq + s.atqt = tq
    rw [htail, Nat.add_zero]
  | clear a hpc =>
    rw [hpc] at hbuilt
    obtain rfl : a = tq := hbuilt
    exact ⟨.building hcalls htail hhead hdev hfetched ⟨rfl, holds_write s.mem a cleared⟩,
      h.stores_store hcalls (k := 0) (by decide)⟩
  | opcode a hpc =>
    rw [hpc] at hbuilt
    obtain ⟨rfl, hmem⟩ : a = tq ∧ Holds s.mem tq cleared := hbuilt
    have hmem' := hmem.write (k := 2) (leBytes 2 0x0001) (by decide)
    rw [overwrite_cleared] at hmem'
    exact ⟨.building hcalls htail hhead hdev hfetched ⟨rfl, hmem'⟩, h.stores_store hcalls (by decide)⟩
  | si a hpc =>
    rw [hpc] at hbuilt
    obtain ⟨rfl, hmem⟩ : a = tq ∧ Holds s.mem tq opcodeSet := hbuilt
    have hmem' := hmem.write (k := 1) [s.mem (a + 1) ||| 0x20]
      (by show 2 ≤ opcodeSet.length; decide)
    rw [hmem.apply (k := 1) (by decide), overwrite_opcodeSet] at hmem'
    refine ⟨.building hcalls htail hhead hdev hfetched ⟨rfl, ?_⟩,
      h.stores_store hcalls (by show 2 ≤ 32; decide)⟩
    show Holds (s.mem.write (a + 1) [s.mem (a + 1) ||| 0x20]) a getVer.bytes
    rw [hmem.apply (k := 1) (by decide)]
    exact hmem'
  | post a hpc =>
    rw [hpc] at hbuilt
    obtain ⟨rfl, hmem⟩ : a = tq ∧ Holds s.mem tq getVer.bytes := hbuilt
    refine ⟨.posted hcalls ?_ (Or.inl rfl) (.pending hdev hhead hfetched hmem), h.stores⟩
    show (s.atqt + 1) % adminqSize = 1
    rw [htail]
    rfl
  | ret a hpc | exit a hpc =>
    rw [hpc] at hbuilt
    exact hbuilt.elim
  | fetch _ hne => exact absurd (hhead.trans htail.symm) hne
  | writeBack _ hdev' | advance hdev' =>
    rw [hdev] at hdev'
    cases hdev'

/-- A step of either once the command is posted. -/
theorem Inv.posted (h : Inv tq s) (hcalls : s.calls = 0) (htail : s.atqt = 1)
    (hpc : s.pc = .waiting tq ∨ s.pc = .exited) (hposted : Posted tq s) (hstep : Step tq s i t) :
    Inv tq t := by
  cases hstep with
  | call hpc' | locate hpc' | clear _ hpc' | opcode _ hpc' | si _ hpc' | post _ hpc' =>
    rw [hpc'] at hpc
    rcases hpc with hpc | hpc <;> cases hpc
  | ret a hpc' hdd =>
    obtain rfl : a = tq := by
      rw [hpc'] at hpc
      rcases hpc with hpc | hpc
      · exact Pc.waiting.inj hpc
      · cases hpc
    -- `dd` is not set before the device writes back
    cases hposted with
    | pending _ _ _ hmem | fetched _ _ _ hmem =>
      rw [not_dd_of_holds hmem] at hdd
      cases hdd
    | written hdev hhead hfetched =>
      exact ⟨.returned (congrArg (· + 1) hcalls) htail (Or.inl rfl) hfetched (Or.inl ⟨hdev, hhead⟩),
        h.stores⟩
    | advanced hdev hhead hfetched =>
      exact ⟨.returned (congrArg (· + 1) hcalls) htail (Or.inl rfl) hfetched (Or.inr ⟨hdev, hhead⟩),
        h.stores⟩
  | exit a hpc' =>
    refine ⟨.posted hcalls htail (Or.inr rfl) ?_, h.stores⟩
    cases hposted with
    | pending hdev hhead hfetched hmem => exact .pending hdev hhead hfetched hmem
    | fetched hdev hhead hfetched hmem => exact .fetched hdev hhead hfetched hmem
    | written hdev hhead hfetched => exact .written hdev hhead hfetched
    | advanced hdev hhead hfetched => exact .advanced hdev hhead hfetched
  | fetch hdev hne =>
    cases hposted with
    | pending _ hhead hfetched hmem =>
      refine ⟨.posted hcalls htail hpc (.fetched rfl hhead ?_ hmem), h.stores⟩
      show s.fetched ++ [s.mem.read (slot tq s.atqh) 32] = [getVer.bytes]
      rw [hfetched, hhead]
      exact congrArg (fun bs => [bs]) hmem
    | fetched hdev' | written hdev' =>
      rw [hdev] at hdev'
      cases hdev'
    | advanced _ hhead => exact absurd (hhead.trans htail.symm) hne
  | writeBack reply hdev =>
    cases hposted with
    | fetched _ hhead hfetched _ =>
      exact ⟨.posted hcalls htail hpc (.written rfl hhead hfetched), h.stores⟩
    | pending hdev' | written hdev' | advanced hdev' =>
      rw [hdev] at hdev'
      cases hdev'
  | advance hdev =>
    cases hposted with
    | written _ hhead hfetched =>
      refine ⟨.posted hcalls htail hpc (.advanced rfl ?_ hfetched), h.stores⟩
      show (s.atqh + 1) % adminqSize = 1
      rw [hhead]
      rfl
    | pending hdev' | fetched hdev' | advanced hdev' =>
      rw [hdev] at hdev'
      cases hdev'

/-- A step of either once the call has returned, as long as no slot is looked for. -/
theorem Inv.returned (h : Inv tq s) (hcalls : s.calls = 1) (htail : s.atqt = 1)
    (hpc : s.pc = .idle ∨ s.pc = .locate) (hfetched : s.fetched = [getVer.bytes])
    (hdev : s.device = .written ∧ s.atqh = 0 ∨ s.device = .idle ∧ s.atqh = 1)
    (hzero : AtSlotZero s i) (hstep : Step tq s i t) : Inv tq t := by
  cases hstep with
  | call => exact ⟨.returned hcalls htail (Or.inr rfl) hfetched hdev, h.stores⟩
  | locate =>
    rw [hzero rfl] at htail
    cases htail
  | clear _ hpc' | opcode _ hpc' | si _ hpc' | post _ hpc' | ret _ hpc' | exit _ hpc' =>
    rw [hpc'] at hpc
    rcases hpc with hpc | hpc <;> cases hpc
  | fetch hdev' hne =>
    rcases hdev with ⟨hdev, -⟩ | ⟨-, hhead⟩
    · rw [hdev] at hdev'
      cases hdev'
    · exact absurd (hhead.trans htail.symm) hne
  | writeBack _ hdev' =>
    rcases hdev with ⟨hdev, -⟩ | ⟨hdev, -⟩
    all_goals
      rw [hdev] at hdev'
      cases hdev'
  | advance hdev' =>
    rcases hdev with ⟨-, hhead⟩ | ⟨hdev, -⟩
    · refine ⟨.returned hcalls htail hpc hfetched (Or.inr ⟨rfl, ?_⟩), h.stores⟩
      show (s.atqh + 1) % adminqSize = 1
      rw [hhead]
      rfl
    · rw [hdev] at hdev'
      cases hdev'

theorem inv_step (h : Inv tq s) (hzero : AtSlotZero s i) (hstep : step tq s i = some t) :
    Inv tq t := by
  cases h.phase with
  | building hcalls htail hhead hdev hfetched hbuilt =>
    exact h.building hcalls htail hhead hdev hfetched hbuilt (step_cases hstep)
  | posted hcalls htail hpc hposted => exact h.posted hcalls htail hpc hposted (step_cases hstep)
  | returned hcalls htail hpc hfetched hdev =>
    exact h.returned hcalls htail hpc hfetched hdev hzero (step_cases hstep)

-- ---------------------------------------------------------------------------
-- When the device gets the commands
-- ---------------------------------------------------------------------------

theorem slot_zero (tq : Nat) : slot tq 0 = tq := rfl

theorem Built.tqe {pc : Pc} {a : Nat} (h : Built tq mem pc) (ha : pc.tqe = some a) : a = tq := by
  cases pc with
  | idle | locate | exited => cases ha
  | clear b =>
    cases ha
    exact h
  | opcode b | si b | post b =>
    cases ha
    exact h.1
  | waiting b => exact h.elim

theorem Inv.handed (h : Inv tq s) : Handed tq s := by
  have hstores : ∀ w ∈ s.stores, slot tq w.call ≤ w.addr ∧ w.addr + w.len ≤ slot tq w.call + 32 :=
    fun w hw => by
      obtain ⟨hcall, hslot⟩ := h.stores w hw
      rwa [hcall, slot_zero]
  cases h.phase with
  | building hcalls _ _ _ hfetched hbuilt =>
    refine ⟨by simp [hfetched], fun a ha => ?_, hstores⟩
    rw [hcalls, slot_zero]
    exact hbuilt.tqe ha
  | posted hcalls _ hpc hposted =>
    refine ⟨?_, fun a ha => ?_, hstores⟩
    · cases hposted with
      | pending _ _ hfetched => simp [hfetched]
      | fetched _ _ hfetched | written _ _ hfetched | advanced _ _ hfetched => simp [hfetched]
    · rw [hcalls, slot_zero]
      rcases hpc with hpc | hpc
      · rw [hpc] at ha
        exact (Option.some.inj ha).symm
      · rw [hpc] at ha
        cases ha
  | returned _ _ hpc hfetched =>
    refine ⟨by simp [hfetched], fun a ha => ?_, hstores⟩
    rcases hpc with hpc | hpc
    all_goals
      rw [hpc] at ha
      cases ha

/-- A call that finds the tail elsewhere builds its command outside its slot. -/
theorem Inv.not_handed (h : Inv tq s) (hzero : ¬ AtSlotZero s i) (hstep : step tq s i = some t) :
    ¬ Handed tq t := by
  obtain ⟨rfl, htail⟩ : i = .locate ∧ s.atqt ≠ 0 := by simpa [AtSlotZero] using hzero
  obtain ⟨hpc, heq⟩ := Option.ite_none_right_eq_some.mp hstep
  cases heq
  intro hhanded
  have hslot : tq + s.atqt = slot tq s.calls := hhanded.tqe _ rfl
  cases h.phase with
  | building _ htail' => exact htail htail'
  | posted _ _ hpc' =>
    rw [hpc] at hpc'
    rcases hpc' with hpc' | hpc' <;> cases hpc'
  | returned hcalls htail' =>
    rw [hcalls, htail'] at hslot
    change tq + 1 = tq + 32 at hslot
    omega

/-- **Exactly when the device gets the commands that are written**: in a history where
every call finds the tail register at 0. -/
theorem handed_iff (tq : Nat) (mem : Mem) (is : List Label) (s : State)
    (hrun : (machine tq).exec (initial mem) is = some s) :
    (machine tq).Throughout (Handed tq) (initial mem) is ↔
      (machine tq).Along AtSlotZero (initial mem) is :=
  Machine.throughout_iff_along (Inv tq) (fun _ h => h.handed) (fun _ _ _ h => inv_step h)
    (fun _ _ _ h => h.not_handed) (inv_initial tq mem) hrun

/-- A completion with nothing in it but `dd`. -/
def completion : Bytes := 1 :: List.replicate 31 0

/-- A call and the device's part of it. -/
def command : List Label :=
  [.call, .locate, .clear, .opcode, .si, .post, .fetch, .writeBack completion, .ret, .advance]

theorem handed_iff_command :
    ∃ s, (machine 4096).exec (initial fun _ => 0) command = some s ∧
      (machine 4096).Throughout (Handed 4096) (initial fun _ => 0) command := by
  have hrun : ((machine 4096).exec (initial fun _ => 0) command).isSome := by decide
  obtain ⟨s, hs⟩ := Option.isSome_iff_exists.mp hrun
  exact ⟨s, hs, (handed_iff 4096 (fun _ => 0) command s hs).mpr (by decide)⟩

/-- The second command: the device fetches an empty descriptor, and the call watches a
byte of the first slot. -/
theorem not_handed :
    ∃ s, (machine 4096).exec (initial fun _ => 0) (command ++ command.take 8) = some s ∧
      s.fetched = [getVer.bytes, List.replicate 32 0] ∧ s.pc = .waiting 4097 ∧ ¬ Handed 4096 s := by
  have hrun : ((machine 4096).exec (initial fun _ => 0) (command ++ command.take 8)).map
      (fun s => (s.fetched, s.pc)) =
        some ([getVer.bytes, List.replicate 32 0], .waiting 4097) := by decide
  obtain ⟨s, hs, heq⟩ := Option.map_eq_some_iff.mp hrun
  obtain ⟨hfetched, hpc⟩ := Prod.mk.inj heq
  refine ⟨s, hs, hfetched, hpc, fun h => ?_⟩
  have hsecond := h.fetched (List.replicate 32 0) (by rw [hfetched]; simp)
  revert hsecond
  decide

end EchoServer.Nic.AdminQueue
