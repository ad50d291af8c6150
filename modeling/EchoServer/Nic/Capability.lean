import EchoServer.Common
import EchoServer.Lib.Loop

/-!
# i10e.c, x710.c — the IOMMU's capabilities

`init_vfio` and `init` ask the kernel for a buffer that holds a chain of capabilities,
and walk it with the same loop. A capability begins with a header of 8 bytes: a 16-bit
id, a 16-bit version and the 32-bit `next`, the byte offset of the next capability from
the start of the buffer, 0 in the last one. An IOVA-range capability goes on with the
32-bit number of its ranges, 4 reserved bytes and the ranges, two 64-bit words each.

The loop adds offsets to pointers to structures, so that C multiplies them by the size
of these.

* `forall_kind_of_rounds` — whatever the buffer holds, no capability is taken for one
  of DMA availability;
* `capLoop_parses_iff` — exactly when the walk visits the capabilities of the chain.
-/

namespace EchoServer.Nic

open EchoServer.Lib

-- ---------------------------------------------------------------------------
-- The buffer
-- ---------------------------------------------------------------------------

/-- The little-endian word of `n` bytes at `off`, if it lies inside the buffer. -/
def word (buf : Bytes) (off n : Nat) : Option Nat :=
  if off + n ≤ buf.length then
    some (((buf.drop off).take n).foldr (fun b acc => b.toNat + 256 * acc) 0)
  else none

/-- The `n` ranges at `off`, each with its start and its end. -/
def ranges (buf : Bytes) (off n : Nat) : Option (List (Nat × Nat)) :=
  (List.range n).mapM fun i => do
    let first ← word buf (off + 16 * i) 8
    let last ← word buf (off + 16 * i + 8) 8
    some (first, last)

/-- `VFIO_IOMMU_TYPE1_INFO_CAP_IOVA_RANGE`. -/
abbrev iovaRangeId : Nat := 1

/-- `VFIO_IOMMU_TYPE1_INFO_CAP_MIGRATION`. -/
abbrev migrationId : Nat := 2

/-- `VFIO_IOMMU_TYPE1_INFO_DMA_AVAIL`. -/
abbrev dmaAvailId : Nat := 3

/-- What a capability is; the walk prints this, and every range. -/
inductive Kind
  | iovaRange (ranges : List (Nat × Nat))
  | migration
  | dmaAvail
  | other (id : Nat)
  deriving DecidableEq, Repr

/-- A capability and the byte at which its header begins. -/
structure Capability where
  start : Nat
  kind : Kind
  deriving DecidableEq, Repr

-- ---------------------------------------------------------------------------
-- What a chain is
-- ---------------------------------------------------------------------------

/-- The capability with its header at byte `off`, as the interface defines it. -/
def kindAt (buf : Bytes) (off id : Nat) : Option Kind :=
  if id = iovaRangeId then do
    let n ← word buf (off + 8) 4
    let rs ← ranges buf (off + 16) n
    some (.iovaRange rs)
  else if id = migrationId then some .migration
  else if id = dmaAvailId then some .dmaAvail
  else some (.other id)

/-- A chain of capabilities that begins at byte `off`, every header and payload inside
the buffer. -/
inductive Chain (buf : Bytes) : Nat → List Capability → Prop
  | nil : Chain buf 0 []
  | cons {off id next : Nat} {kind : Kind} {caps : List Capability} : off ≠ 0 →
      word buf off 2 = some id → word buf (off + 4) 4 = some next →
      kindAt buf off id = some kind → Chain buf next caps → Chain buf off (⟨off, kind⟩ :: caps)

/-- What `VFIO_IOMMU_GET_INFO` returns: a buffer whose `cap_offset`, at byte 16, begins
a chain. -/
structure Info where
  buf : Bytes
  capOffset : Nat
  caps : List Capability
  capOffset_eq : word buf 16 4 = some capOffset
  chain : Chain buf capOffset caps

-- ---------------------------------------------------------------------------
-- The walk
-- ---------------------------------------------------------------------------

/-- What the loop takes a capability for: the `if` and its `else if`s. -/
def classify (buf : Bytes) (offset id : Nat) : Option Kind :=
  if id = iovaRangeId then do
    -- `(struct vfio_iommu_type1_info_cap_iova_range*)vfio_info_ptr + offset`
    let iovaRangeCap := 16 * offset
    let n ← word buf (iovaRangeCap + 8) 4
    let rs ← ranges buf (iovaRangeCap + 16) n
    some (.iovaRange rs)
  -- the conditions of the other branches are the constants themselves
  else if migrationId ≠ 0 then some .migration
  else if dmaAvailId ≠ 0 then some .dmaAvail
  else some (.other id)

/-- One round of the loop: the capability that is printed, and the next `offset`. -/
def visit (buf : Bytes) (offset : Nat) : Option (Capability × Nat) := do
  -- `(struct vfio_info_cap_header*)vfio_info_ptr + offset`
  let header := 8 * offset
  let id ← word buf header 2
  let kind ← classify buf offset id
  let next ← word buf (header + 4) 4
  some (⟨header, kind⟩, next)

/-- The `while (offset)` loop; a read outside the buffer is a fault. -/
def capLoop (buf : Bytes) : Loop Nat Capability where
  round offset :=
    if offset = 0 then .done
    else
      match visit buf offset with
      | some (cap, next) => .next cap next
      | none => .fault

variable {buf : Bytes} {offset next : Nat} {cap : Capability}

theorem classify_cases {id : Nat} {kind : Kind} (h : classify buf offset id = some kind) :
    kind = .migration ∨ ∃ rs, kind = .iovaRange rs := by
  unfold classify at h
  split at h
  · simp only [Option.bind_eq_bind, Option.bind_eq_some_iff, Option.some.injEq] at h
    obtain ⟨-, -, rs, -, rfl⟩ := h
    exact Or.inr ⟨rs, rfl⟩
  · rw [if_pos (by decide)] at h
    cases h
    exact Or.inl rfl

/-- A round looks for the header eight times as far in as it is. -/
theorem visit_cases (h : visit buf offset = some (cap, next)) :
    cap.start = 8 * offset ∧ (cap.kind = .migration ∨ ∃ rs, cap.kind = .iovaRange rs) := by
  simp only [visit, Option.bind_eq_bind, Option.bind_eq_some_iff, Option.some.injEq,
    Prod.mk.injEq] at h
  obtain ⟨id, -, kind, hkind, n, -, rfl, -⟩ := h
  exact ⟨rfl, classify_cases hkind⟩

theorem visit_of_round (h : (capLoop buf).round offset = .next cap next) :
    visit buf offset = some (cap, next) := by
  simp only [capLoop] at h
  split at h
  · cases h
  · split at h
    · next hvisit =>
      cases h
      exact hvisit
    · cases h

/-- **What the walk prints** is an IOVA range or "iommu migration cap", whatever the
capability is. -/
theorem forall_kind_of_rounds {n : Nat} {caps : List Capability}
    (h : (capLoop buf).rounds n offset = some (caps, next)) :
    ∀ cap ∈ caps, cap.kind = .migration ∨ ∃ rs, cap.kind = .iovaRange rs :=
  Loop.forall_of_rounds (fun _ _ _ hround => (visit_cases (visit_of_round hround)).2) h

theorem Chain.eq_nil {caps : List Capability} (h : Chain buf 0 caps) : caps = [] := by
  cases h with
  | nil => rfl
  | cons hne => exact absurd rfl hne

/-- The first capability of a chain is visited at another place than where it is. -/
theorem Chain.not_ends {caps : List Capability} (h : Chain buf offset caps) (hne : offset ≠ 0) :
    ¬ (capLoop buf).Ends offset caps next := by
  rintro ⟨⟨n, hn⟩, -⟩
  cases h with
  | nil => exact hne rfl
  | cons =>
    cases n with
    | zero => cases hn
    | succ n =>
      rw [Loop.rounds] at hn
      split at hn
      · next cap' off' hround =>
        obtain ⟨r, -, heq⟩ := Option.map_eq_some_iff.mp hn
        obtain ⟨hcap, -⟩ := List.cons.inj (congrArg Prod.fst heq)
        have hstart := (visit_cases (visit_of_round hround)).1
        rw [hcap] at hstart
        change offset = 8 * offset at hstart
        omega
      · cases hn

/-- **Exactly when the walk visits the chain**: when there is none. -/
theorem capLoop_parses_iff (I : Info) :
    (∃ offset, (capLoop I.buf).Ends I.capOffset I.caps offset) ↔ I.capOffset = 0 := by
  constructor
  · rintro ⟨offset, hends⟩
    by_contra hne
    exact I.chain.not_ends hne hends
  · intro h
    have hnil : I.caps = [] := (h ▸ I.chain).eq_nil
    rw [h, hnil]
    exact ⟨0, ⟨0, rfl⟩, rfl⟩

/-- A buffer of 36 bytes with one capability, of DMA availability, at byte 24. -/
def oneCapability : Info where
  buf := List.replicate 16 0 ++ [24, 0, 0, 0, 0, 0, 0, 0] ++ [3, 0, 1, 0, 0, 0, 0, 0, 255, 255, 0, 0]
  capOffset := 24
  caps := [⟨24, .dmaAvail⟩]
  capOffset_eq := by decide
  chain := @Chain.cons _ 24 3 0 .dmaAvail [] (by decide) (by decide) (by decide) (by decide) .nil

/-- The walk reads the header at byte 192 of 36. -/
theorem capLoop_faults :
    (capLoop oneCapability.buf).Faults oneCapability.capOffset [] ∧
      ¬ ∃ offset, (capLoop oneCapability.buf).Ends oneCapability.capOffset oneCapability.caps
        offset := by
  have hfault : (capLoop oneCapability.buf).Faults oneCapability.capOffset [] :=
    ⟨0, 24, rfl, by decide⟩
  exact ⟨hfault, fun ⟨offset, hends⟩ => hends.not_faults hfault⟩

end EchoServer.Nic
