import EchoServer.Lib.Bump
import EchoServer.Lib.Machine

/-!
# i10e.c, x710.c — the DMA region

Both drivers share their allocator and the translation between the addresses of the
program and those of the device; they map the region at different places. Words are
`__u64`, with the wrap of their arithmetic, except that the C expression `1 <<
align_exp` is an `int`.

* `dmaAllocAligned_eq` — without a wrap the word arithmetic is `alignUp`;
* `refines_exec` — a run of the allocator is a `Bump` allocator;
* `dmaAllocAligned_layout` — the layout of the blocks, on both sides.
-/

namespace EchoServer.Nic

open EchoServer.Lib

-- ---------------------------------------------------------------------------
-- The code
-- ---------------------------------------------------------------------------

/-- `DMA_SIZE`. -/
abbrev dmaSize : Nat := 64 * 1024 * 1024

inductive Driver
  | i10e
  | x710
  deriving DecidableEq, Repr

/-- `DMA_IOVA_OFFSET`. -/
def Driver.iovaOffset : Driver → UInt64
  | .i10e => 0x000000
  | .x710 => 0x100000

/-- `(1 << align_exp) - 1`, as an `int` that becomes a `__u64`. -/
def lowMask (alignExp : UInt64) : UInt64 :=
  ((1 : Int32) <<< alignExp.toUInt32.toInt32 - 1).toInt64.toUInt64

/-- `dma_alloc_aligned`: the block and the new `dma_next_free_addr`, or `exit`. -/
def dmaAllocAligned (dmaRegion nextFreeAddr size alignExp : UInt64) : Option (UInt64 × UInt64) :=
  let ret := ((nextFreeAddr + lowMask alignExp) >>> alignExp) <<< alignExp
  let nextFreeAddr := ret + size
  if nextFreeAddr > dmaRegion + 64 * 1024 * 1024 then none else some (ret, nextFreeAddr)

/-- `vaddr_to_iovaddr`. -/
def vaddrToIovaddr (d : Driver) (dmaRegion a : UInt64) : UInt64 := (a - dmaRegion) + d.iovaOffset

/-- `iovaddr_to_vaddr`. -/
def iovaddrToVaddr (d : Driver) (dmaRegion a : UInt64) : UInt64 := (a - d.iovaOffset) + dmaRegion

-- ---------------------------------------------------------------------------
-- Runs of the allocator
-- ---------------------------------------------------------------------------

/-- What `mmap` returns: a page, with room behind it. -/
structure Region where
  base : UInt64
  page : 4096 ∣ base.toNat
  room : base.toNat + 2 ^ 33 < 2 ^ 64

/-- The arguments of a call. -/
structure Request where
  size : UInt64
  alignExp : UInt64
  size_le : size.toNat ≤ dmaSize
  alignExp_le : alignExp.toNat ≤ 30

/-- A call that returned. -/
structure Allocation where
  addr : UInt64
  req : Request

/-- `dma_next_free_addr`, and the calls so far. -/
structure Dma where
  nextFreeAddr : UInt64
  calls : List Allocation

/-- The calls of `dma_alloc_aligned`; the process exits when one does not return. -/
def dmaMachine (r : Region) : Machine Dma Request where
  step s q := (dmaAllocAligned r.base s.nextFreeAddr q.size q.alignExp).map fun (ret, next) =>
    ⟨next, s.calls ++ [⟨ret, q⟩]⟩

/-- `dma_next_free_addr` as `init_vfio` and `init` set it. -/
def dmaInitial (r : Region) : Dma := ⟨r.base, []⟩

/-- The block of a call, as the program sees it. -/
def Allocation.block (c : Allocation) : Block := ⟨c.addr.toNat, c.req.size.toNat, 2 ^ c.req.alignExp.toNat⟩

/-- The block of a call, as the device sees it. -/
def Allocation.iovaBlock (d : Driver) (r : Region) (c : Allocation) : Block :=
  ⟨(vaddrToIovaddr d r.base c.addr).toNat, c.req.size.toNat, 2 ^ min c.req.alignExp.toNat 12⟩

-- ---------------------------------------------------------------------------
-- Without a wrap
-- ---------------------------------------------------------------------------

variable {d : Driver} {r : Region} {s t : Dma} {q : Request}

theorem dmaSize_eq : dmaSize = 2 ^ 26 := rfl

theorem toNat_lowMask {e : UInt64} (h : e.toNat ≤ 30) : (lowMask e).toNat = 2 ^ e.toNat - 1 := by
  have hall : ∀ k : Fin 31, (lowMask (UInt64.ofNat k)).toNat = 2 ^ k.val - 1 := by decide
  have hk := hall ⟨e.toNat, by omega⟩
  rwa [UInt64.ofNat_toNat] at hk

theorem Request.pow_le (q : Request) : 0 < 2 ^ q.alignExp.toNat ∧ 2 ^ q.alignExp.toNat ≤ 2 ^ 30 :=
  ⟨Nat.two_pow_pos _, Nat.pow_le_pow_right (by decide) q.alignExp_le⟩

/-- The shifts of `dma_alloc_aligned` round up. -/
theorem toNat_roundUp {n : UInt64} (hn : n.toNat + 2 ^ 30 < 2 ^ 64) (q : Request) :
    (((n + lowMask q.alignExp) >>> q.alignExp) <<< q.alignExp).toNat =
      alignUp n.toNat (2 ^ q.alignExp.toNat) := by
  have hpow := q.pow_le
  have hexp := q.alignExp_le
  have hsum : (n + lowMask q.alignExp).toNat = n.toNat + (2 ^ q.alignExp.toNat - 1) := by
    rw [UInt64.toNat_add, toNat_lowMask hexp, Nat.mod_eq_of_lt (by omega)]
  have hle := alignUp_le (n := n.toNat) (a := 2 ^ q.alignExp.toNat)
  rw [UInt64.toNat_shiftLeft, UInt64.toNat_shiftRight, hsum,
    Nat.mod_eq_of_lt (a := q.alignExp.toNat) (by omega), Nat.shiftRight_eq_div_pow,
    Nat.shiftLeft_eq, ← alignUp, Nat.mod_eq_of_lt (by omega)]

/-- The first address behind the region. -/
theorem Region.toNat_end (r : Region) :
    (r.base + 64 * 1024 * 1024).toNat = r.base.toNat + dmaSize := by
  have hroom := r.room
  have hdma := dmaSize_eq
  have hsize : (64 * 1024 * 1024 : UInt64).toNat = dmaSize := rfl
  rw [UInt64.toNat_add, hsize, Nat.mod_eq_of_lt (by omega)]

/-- **A call**, in numbers: the rounded-up block, if it ends inside the region. -/
theorem dmaAllocAligned_eq (r : Region) {n : UInt64} (hn : n.toNat ≤ r.base.toNat + dmaSize)
    (q : Request) :
    ∃ ret next, ret.toNat = alignUp n.toNat (2 ^ q.alignExp.toNat) ∧
      next.toNat = ret.toNat + q.size.toNat ∧
      dmaAllocAligned r.base n q.size q.alignExp =
        if next.toNat ≤ r.base.toNat + dmaSize then some (ret, next) else none := by
  have hroom := r.room
  have hdma := dmaSize_eq
  have hsize := q.size_le
  have hpow := q.pow_le
  have hret := toNat_roundUp (n := n) (by omega) q
  have hle := alignUp_le (n := n.toNat) (a := 2 ^ q.alignExp.toNat)
  rw [dmaAllocAligned]
  -- what is left does not depend on how the block is found
  generalize ((n + lowMask q.alignExp) >>> q.alignExp) <<< q.alignExp = ret at hret ⊢
  refine ⟨ret, ret + q.size, hret, ?_, ?_⟩
  · rw [UInt64.toNat_add, Nat.mod_eq_of_lt (by omega)]
  · simp only [gt_iff_lt, UInt64.lt_iff_toNat_lt, r.toNat_end]
    by_cases hend : (ret + q.size).toNat ≤ r.base.toNat + dmaSize
    · rw [if_neg (Nat.not_lt.mpr hend), if_pos hend]
    · rw [if_pos (Nat.not_le.mp hend), if_neg hend]

-- ---------------------------------------------------------------------------
-- The run is a bump allocator
-- ---------------------------------------------------------------------------

/-- The allocator `b` is what the run has come to. -/
structure Refines (r : Region) (s : Dma)
    (b : Bump r.base.toNat (r.base.toNat + dmaSize)) : Prop where
  next : s.nextFreeAddr.toNat = b.next
  blocks : s.calls.map Allocation.block = b.blocks

theorem Refines.step (b : Bump r.base.toNat (r.base.toNat + dmaSize)) (h : Refines r s b)
    (hstep : (dmaMachine r).step s q = some t) : ∃ b', Refines r t b' := by
  have hpow := q.pow_le
  obtain ⟨ret, next, hret, hnext, hcall⟩ := dmaAllocAligned_eq r (h.next ▸ b.next_le) q
  obtain ⟨⟨ret', next'⟩, hsome, rfl⟩ := Option.map_eq_some_iff.mp hstep
  rw [hcall] at hsome
  obtain ⟨hend, heq⟩ := Option.ite_none_right_eq_some.mp hsome
  cases heq
  rw [h.next] at hret
  have hfits : alignUp b.next (2 ^ q.alignExp.toNat) + q.size.toNat ≤ r.base.toNat + dmaSize := by
    omega
  refine ⟨b.alloc q.size.toNat _ hpow.1 hfits, ?_, ?_⟩
  · rw [hnext, hret]
    rfl
  · rw [List.map_append, h.blocks, List.map_singleton, Allocation.block, hret]
    rfl

theorem Refines.exec {reqs : List Request} (b : Bump r.base.toNat (r.base.toNat + dmaSize))
    (h : Refines r s b) (hrun : (dmaMachine r).exec s reqs = some t) : ∃ b', Refines r t b' := by
  have hkeeps : (dmaMachine r).Preserves fun u => ∃ b, Refines r u b := by
    rintro u q v ⟨b, hb⟩ hstep
    exact hb.step b hstep
  exact hkeeps.exec ⟨b, h⟩ hrun

/-- A call exits exactly when the rest of the region holds no such block. -/
theorem Refines.exits_iff (b : Bump r.base.toNat (r.base.toNat + dmaSize)) (h : Refines r s b)
    (q : Request) :
    (dmaMachine r).step s q = none ↔ ¬ b.Fits q.size.toNat (2 ^ q.alignExp.toNat) := by
  obtain ⟨ret, next, hret, hnext, hcall⟩ := dmaAllocAligned_eq r (h.next ▸ b.next_le) q
  rw [b.fits_iff q.pow_le.1, ← h.next, ← hret, ← hnext]
  simp [dmaMachine, hcall]

/-- The calls of a run, in order. -/
theorem calls_exec {reqs : List Request} (hrun : (dmaMachine r).exec s reqs = some t) :
    t.calls.map Allocation.req = s.calls.map Allocation.req ++ reqs := by
  induction reqs generalizing s with
  | nil =>
    obtain rfl : s = t := by simpa using hrun
    rw [List.append_nil]
  | cons q reqs ih =>
    obtain ⟨u, hu, hrest⟩ := Machine.exec_cons_iff.mp hrun
    obtain ⟨⟨ret, next⟩, -, rfl⟩ := Option.map_eq_some_iff.mp hu
    rw [ih hrest, List.map_append, List.append_assoc]
    rfl

-- ---------------------------------------------------------------------------
-- The device's addresses
-- ---------------------------------------------------------------------------

theorem toNat_vaddrToIovaddr {a : UInt64} (d : Driver) (r : Region)
    (ha : r.base.toNat ≤ a.toNat) (ha' : a.toNat ≤ r.base.toNat + dmaSize) :
    (vaddrToIovaddr d r.base a).toNat = a.toNat - r.base.toNat + d.iovaOffset.toNat := by
  have hroom := r.room
  have hdma := dmaSize_eq
  have hoffset : d.iovaOffset.toNat ≤ 0x100000 := by
    cases d <;> decide
  rw [vaddrToIovaddr, UInt64.toNat_add, UInt64.toNat_sub_of_le _ _ (UInt64.le_iff_toNat_le.mpr ha),
    Nat.mod_eq_of_lt (by omega)]

theorem iovaddrToVaddr_vaddrToIovaddr (d : Driver) (base a : UInt64) :
    iovaddrToVaddr d base (vaddrToIovaddr d base a) = a := by
  rw [iovaddrToVaddr, vaddrToIovaddr, UInt64.add_sub_cancel, UInt64.sub_add_cancel]

/-- The device sees a block of the region where the window has it. -/
theorem iovaBlock_eq (d : Driver) {c : Allocation}
    (h : c.block.Inside r.base.toNat (r.base.toNat + dmaSize)) :
    c.iovaBlock d r =
      { c.block.move r.base.toNat d.iovaOffset.toNat with align := 2 ^ min c.req.alignExp.toNat 12 } := by
  have hend : c.addr.toNat ≤ r.base.toNat + dmaSize := (Nat.le_add_right _ _).trans h.end_le
  have hstart := toNat_vaddrToIovaddr d r h.le_start hend
  rw [Allocation.iovaBlock, hstart]
  rfl

/-- What `dma_alloc_aligned` owes its callers, on both sides of the IOMMU. -/
structure Layout (d : Driver) (r : Region) (calls : List Allocation) : Prop where
  aligned : ∀ c ∈ calls, c.block.align ∣ c.block.start
  inside : ∀ c ∈ calls, c.block.Inside r.base.toNat (r.base.toNat + dmaSize)
  disjoint : calls.Pairwise fun b c => Disjoint b.block.bytes c.block.bytes
  iovaAligned : ∀ c ∈ calls, (c.iovaBlock d r).align ∣ (c.iovaBlock d r).start
  iovaInside : ∀ c ∈ calls,
    (c.iovaBlock d r).Inside d.iovaOffset.toNat (d.iovaOffset.toNat + dmaSize)
  iovaDisjoint : calls.Pairwise fun b c => Disjoint (b.iovaBlock d r).bytes (c.iovaBlock d r).bytes
  /-- The bytes of a block stay in their order. -/
  iovaBytes : ∀ c ∈ calls, ∀ a : UInt64, a.toNat ∈ c.block.bytes →
    (vaddrToIovaddr d r.base a).toNat + c.block.start = (c.iovaBlock d r).start + a.toNat
  iovaUndone : ∀ a, iovaddrToVaddr d r.base (vaddrToIovaddr d r.base a) = a

theorem Refines.layout (d : Driver) (b : Bump r.base.toNat (r.base.toNat + dmaSize))
    (h : Refines r s b) : Layout d r s.calls := by
  have hblocks : ∀ c ∈ s.calls, c.block ∈ b.blocks := fun c hc => by
    rw [← h.blocks]
    exact List.mem_map_of_mem hc
  have hinside : ∀ c ∈ s.calls, c.block.Inside r.base.toNat (r.base.toNat + dmaSize) :=
    fun c hc => ⟨(b.inside _ (hblocks c hc)).le_start,
      (b.inside _ (hblocks c hc)).end_le.trans b.next_le⟩
  have hdisjoint : s.calls.Pairwise fun b c => Disjoint b.block.bytes c.block.bytes := by
    have hpair := b.disjoint
    rwa [← h.blocks, List.pairwise_map] at hpair
  refine ⟨fun c hc => b.aligned _ (hblocks c hc), hinside, hdisjoint, ?_, ?_, ?_, ?_,
    iovaddrToVaddr_vaddrToIovaddr d r.base⟩
  · intro c hc
    rw [iovaBlock_eq d (hinside c hc)]
    -- both ends of the translation are multiples of a page
    have hpage : 2 ^ min c.req.alignExp.toNat 12 ∣ 4096 := pow_dvd_pow 2 (Nat.min_le_right _ _)
    have hoffset : 4096 ∣ d.iovaOffset.toNat := by
      cases d <;> decide
    have hstart : 2 ^ min c.req.alignExp.toNat 12 ∣ c.block.start :=
      (pow_dvd_pow 2 (Nat.min_le_left _ _)).trans (b.aligned _ (hblocks c hc))
    exact Block.dvd_move (hpage.trans r.page) (hpage.trans hoffset) hstart
  · intro c hc
    rw [iovaBlock_eq d (hinside c hc)]
    have hmoved := (hinside c hc).move d.iovaOffset.toNat
    exact ⟨hmoved.le_start, hmoved.end_le⟩
  · refine hdisjoint.imp_of_mem fun hb hc hbytes => ?_
    rw [iovaBlock_eq d (hinside _ hb), iovaBlock_eq d (hinside _ hc)]
    exact Block.disjoint_move (hinside _ hb).le_start (hinside _ hc).le_start hbytes
  · intro c hc a ha
    have hend := (hinside c hc).end_le
    have hlo := (hinside c hc).le_start
    obtain ⟨hstart, hlt⟩ := ha
    rw [iovaBlock_eq d (hinside c hc), toNat_vaddrToIovaddr d r (by omega) (by omega)]
    simp only [Block.move]
    omega

/-- **The layout of the DMA region**, for every sequence of calls that return, and when
the next call does not. -/
theorem dmaAllocAligned_layout (d : Driver) (r : Region) (reqs : List Request) (s : Dma)
    (hrun : (dmaMachine r).exec (dmaInitial r) reqs = some s) :
    s.calls.map Allocation.req = reqs ∧ Layout d r s.calls ∧
      ∀ q, (dmaMachine r).step s q = none ↔
        ¬ ∃ start, s.nextFreeAddr.toNat ≤ start ∧ 2 ^ q.alignExp.toNat ∣ start ∧
          start + q.size.toNat ≤ r.base.toNat + dmaSize := by
  have hinitial : Refines r (dmaInitial r) (Bump.empty (Nat.le_add_right _ _)) := ⟨rfl, rfl⟩
  obtain ⟨b, hb⟩ := hinitial.exec _ hrun
  refine ⟨calls_exec hrun, hb.layout d, fun q => ?_⟩
  rw [hb.next]
  exact hb.exits_iff b q

/-- The ring of `init_i10e` and its first buffer. -/
def rxRing : List Request :=
  [⟨2048, 7, by decide, by decide⟩, ⟨2048, 7, by decide, by decide⟩]

def somePage : Region := ⟨0x7f0000001000, by decide, by decide⟩

theorem dmaAllocAligned_layout_rxRing :
    ∃ s, (dmaMachine somePage).exec (dmaInitial somePage) rxRing = some s ∧
      Layout .i10e somePage s.calls := by
  have hrun : ((dmaMachine somePage).exec (dmaInitial somePage) rxRing).isSome := by decide
  obtain ⟨s, hs⟩ := Option.isSome_iff_exists.mp hrun
  exact ⟨s, hs, (dmaAllocAligned_layout .i10e somePage rxRing s hs).2.1⟩

end EchoServer.Nic
