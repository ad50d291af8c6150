import EchoServer.Common
import EchoServer.Lib.Blocks
import EchoServer.Nic.Dma

/-!
# i10e.c, x710.c — memory that a driver shares with its device

Both write and read the same bytes, the driver at its own addresses and the device through
the window of the IOMMU. A word is little-endian on both sides.

A write is whole: what the other side reads is what was there before it or after it. The
drivers' stores are of words, each of which the model writes by itself wherever the device
may read in between.

Main results:

* `leNat_leBytes` — a word that is written is read back;
* `Holds.write` — bytes that are written inside a range change these of the range;
* `Holds.apart` — bytes that lie elsewhere stay;
* `Mem.write_append` — one write after another is one write.
-/

namespace EchoServer.Nic

open EchoServer.Lib

-- ---------------------------------------------------------------------------
-- Words
-- ---------------------------------------------------------------------------

/-- A little-endian word of `n` bytes. -/
def leBytes : Nat → Nat → Bytes
  | 0, _ => []
  | n + 1, x => UInt8.ofNat x :: leBytes n (x / 256)

/-- The number that little-endian bytes are. -/
def leNat : Bytes → Nat
  | [] => 0
  | b :: bs => b.toNat + 256 * leNat bs

@[simp] theorem length_leBytes (n x : Nat) : (leBytes n x).length = n := by
  induction n generalizing x with
  | zero => rfl
  | succ n ih => rw [leBytes, List.length_cons, ih]

theorem leNat_leBytes (n x : Nat) : leNat (leBytes n x) = x % 256 ^ n := by
  induction n generalizing x with
  | zero => rw [Nat.pow_zero, Nat.mod_one]; rfl
  | succ n ih =>
    rw [leBytes, leNat, ih, Nat.pow_succ', Nat.mod_mul]
    rfl

theorem leNat_of_lt {n x : Nat} (h : x < 256 ^ n) : leNat (leBytes n x) = x := by
  rw [leNat_leBytes, Nat.mod_eq_of_lt h]

theorem leNat_toNat8 (x : UInt8) : leNat (leBytes 1 x.toNat) = x.toNat := leNat_of_lt x.toNat_lt

theorem leNat_toNat16 (x : UInt16) : leNat (leBytes 2 x.toNat) = x.toNat := leNat_of_lt x.toNat_lt

theorem leNat_toNat64 (x : UInt64) : leNat (leBytes 8 x.toNat) = x.toNat := leNat_of_lt x.toNat_lt

-- ---------------------------------------------------------------------------
-- Halves
-- ---------------------------------------------------------------------------

/-- `u64_high`. -/
def u64High (a : UInt64) : UInt32 := (a >>> 32).toUInt32

/-- `u64_low`. -/
def u64Low (a : UInt64) : UInt32 := a.toUInt32

/-- The address that a device puts together of two registers. -/
def joined (high low : UInt32) : Nat := high.toNat * 2 ^ 32 + low.toNat

theorem joined_halves (a : UInt64) : joined (u64High a) (u64Low a) = a.toNat := by
  have hlt := a.toNat_lt
  rw [joined, u64High, u64Low, UInt64.toNat_toUInt32, UInt64.toNat_toUInt32, UInt64.toNat_shiftRight]
  show a.toNat >>> 32 % 2 ^ 32 * 2 ^ 32 + a.toNat % 2 ^ 32 = a.toNat
  rw [Nat.shiftRight_eq_div_pow]
  omega

-- ---------------------------------------------------------------------------
-- Memory
-- ---------------------------------------------------------------------------

abbrev Mem := Nat → UInt8

/-- The `n` bytes at `a`. -/
def Mem.read (mem : Mem) (a n : Nat) : Bytes := (List.range n).map fun k => mem (a + k)

/-- The bytes `bs` at `a`. -/
def Mem.write (mem : Mem) (a : Nat) (bs : Bytes) : Mem := fun x =>
  if a ≤ x ∧ x < a + bs.length then bs.getD (x - a) 0 else mem x

/-- The bytes `bs` lie at `a`. -/
def Holds (mem : Mem) (a : Nat) (bs : Bytes) : Prop := mem.read a bs.length = bs

theorem Holds.apply {a k : Nat} {bs : Bytes} (h : Holds mem a bs) (hk : k < bs.length) :
    mem (a + k) = bs[k] := by
  have hget : bs[k]? = some (mem (a + k)) := by
    rw [← h, Mem.read, List.getElem?_map, List.getElem?_range hk]
    rfl
  rw [List.getElem?_eq_getElem hk] at hget
  exact (Option.some.inj hget).symm

/-- Bytes that are written inside a range change these of the range. -/
theorem Holds.write {a k : Nat} {bs : Bytes} (xs : Bytes) (h : Holds mem a bs)
    (hk : k + xs.length ≤ bs.length) : Holds (mem.write (a + k) xs) a (overwrite bs k xs) := by
  unfold Holds
  rw [length_overwrite hk]
  refine List.ext_getElem? fun j => ?_
  rw [getElem?_overwrite (by omega)]
  by_cases hj : j < bs.length
  · rw [Mem.read, List.getElem?_map, List.getElem?_range hj, Option.map_some, Mem.write]
    by_cases hin : k ≤ j ∧ j < k + xs.length
    · have hlt : j - k < xs.length := by omega
      rw [if_pos hin, if_pos (by omega), show a + j - (a + k) = j - k by omega,
        List.getD_eq_getElem?_getD, List.getElem?_eq_getElem hlt, Option.getD_some]
    · rw [if_neg hin, if_neg (by omega), h.apply hj, List.getElem?_eq_getElem hj]
  · rw [if_neg (by omega), List.getElem?_eq_none (by simp [Mem.read]; omega),
      List.getElem?_eq_none (by omega)]

theorem holds_write (mem : Mem) (a : Nat) (bs : Bytes) : Holds (mem.write a bs) a bs := by
  have hread : Holds mem a (mem.read a bs.length) := by simp [Holds, Mem.read]
  have hlen : (mem.read a bs.length).length = bs.length := by simp [Mem.read]
  have hwrite := hread.write (k := 0) bs (by omega)
  rwa [overwrite, List.take_zero, List.nil_append, List.drop_of_length_le (by omega),
    List.append_nil] at hwrite

-- ---------------------------------------------------------------------------
-- Ranges
-- ---------------------------------------------------------------------------

variable {mem mem' : Mem} {a c : Nat} {bs xs : Bytes}

theorem Mem.write_of_lt {x : Nat} (h : x < a) : mem.write a bs x = mem x :=
  if_neg fun hin => Nat.not_lt.mpr hin.1 h

theorem Mem.write_of_le {x : Nat} (h : a + bs.length ≤ x) : mem.write a bs x = mem x :=
  if_neg fun hin => Nat.not_lt.mpr h hin.2

/-- What lies at `a` depends on the bytes there. -/
theorem Holds.congr (h : Holds mem a bs)
    (hsame : ∀ x, a ≤ x → x < a + bs.length → mem' x = mem x) : Holds mem' a bs := by
  unfold Holds
  rw [← h, Mem.read, Mem.read, List.length_map, List.length_range]
  refine List.map_congr_left fun k hk => ?_
  have hlt := List.mem_range.mp hk
  exact hsame _ (Nat.le_add_right a k) (Nat.add_lt_add_left hlt a)

/-- Bytes that are written elsewhere do not change it. -/
theorem Holds.apart (h : Holds mem a bs) (hapart : a + bs.length ≤ c ∨ c + xs.length ≤ a) :
    Holds (mem.write c xs) a bs := by
  refine h.congr fun x hle hlt => ?_
  rcases hapart with hafter | hbefore
  · exact Mem.write_of_lt (hlt.trans_le hafter)
  · exact Mem.write_of_le (hbefore.trans hle)

theorem holds_append {ys : Bytes} :
    Holds mem a (bs ++ ys) ↔ Holds mem a bs ∧ Holds mem (a + bs.length) ys := by
  have hread : mem.read a (bs ++ ys).length =
      mem.read a bs.length ++ mem.read (a + bs.length) ys.length := by
    rw [Mem.read, List.length_append, List.range_add, List.map_append, List.map_map]
    refine congrArg _ (List.map_congr_left fun k _ => ?_)
    rw [Function.comp_apply, ← Nat.add_assoc]
  have hlen : (mem.read a bs.length).length = bs.length := by
    rw [Mem.read, List.length_map, List.length_range]
  unfold Holds
  rw [hread]
  refine ⟨fun h => List.append_inj h hlen, ?_⟩
  rintro ⟨hleft, hright⟩
  rw [hleft, hright]

/-- A write inside what has just been written. -/
theorem Mem.write_write {k : Nat} (h : k + xs.length ≤ bs.length) :
    (mem.write a bs).write (a + k) xs = mem.write a (overwrite bs k xs) := by
  funext x
  unfold Mem.write
  rw [length_overwrite h]
  by_cases hx : a ≤ x ∧ x < a + bs.length
  · rw [if_pos hx, if_pos hx, List.getD_eq_getElem?_getD (l := overwrite bs k xs),
      getElem?_overwrite (by omega)]
    by_cases hin : a + k ≤ x ∧ x < a + k + xs.length
    · rw [if_pos hin, if_pos (by omega), List.getD_eq_getElem?_getD, Nat.sub_add_eq]
    · rw [if_neg hin, if_neg (by omega), List.getD_eq_getElem?_getD]
  · rw [if_neg hx, if_neg hx, if_neg (by omega)]

/-- One write after another is one write. -/
theorem Mem.write_append {ys : Bytes} :
    (mem.write a bs).write (a + bs.length) ys = mem.write a (bs ++ ys) := by
  funext x
  unfold Mem.write
  rw [List.length_append]
  by_cases hx : a + bs.length ≤ x
  · by_cases hend : x < a + bs.length + ys.length
    · rw [if_pos ⟨hx, hend⟩, if_pos (by omega), List.getD_eq_getElem?_getD, List.getD_eq_getElem?_getD,
        List.getElem?_append_right (by omega), Nat.sub_add_eq]
    · rw [if_neg (by omega), if_neg (by omega), if_neg (by omega)]
  · rw [if_neg (by omega)]
    by_cases hin : a ≤ x
    · rw [if_pos (by omega), if_pos (by omega), List.getD_eq_getElem?_getD, List.getD_eq_getElem?_getD,
        List.getElem?_append_left (by omega)]
    · rw [if_neg (by omega), if_neg (by omega)]

-- ---------------------------------------------------------------------------
-- The window of the IOMMU
-- ---------------------------------------------------------------------------

/-- Where the `n` bytes are that the device has at `a`, if they are in the window that
`VFIO_IOMMU_MAP_DMA` set up. -/
def Driver.window (d : Driver) (r : Region) (a n : Nat) : Option Nat :=
  if d.iovaOffset.toNat ≤ a ∧ a + n ≤ d.iovaOffset.toNat + dmaSize then
    some (r.base.toNat + (a - d.iovaOffset.toNat))
  else none

end EchoServer.Nic
