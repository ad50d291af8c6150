import Mathlib.Order.Interval.Set.Disjoint
import Mathlib.Order.Interval.Set.Nat
import Mathlib.Data.List.Pairwise
import Mathlib.Order.CompletePartialOrder

/-!
# Bump allocators

An allocator that hands out the rest of a region from its start to its end, one aligned
block after another, and takes nothing back. Its state carries what it owes its
clients, so that an allocator that hands out a byte twice cannot be built.

Main results:

* `alignUp_le_iff` — rounding up to a multiple gives the least one;
* `Bump.alloc` — the next block, when there is room;
* `fits_iff` — there is room for a block exactly when the rounded-up one fits;
* `Block.disjoint_move` — disjoint blocks stay so when the region is moved.
-/

namespace EchoServer.Lib

/-! ## Rounding up -/

/-- The least multiple of `a` from `n` on. -/
def alignUp (n a : Nat) : Nat := (n + (a - 1)) / a * a

theorem dvd_alignUp (n a : Nat) : a ∣ alignUp n a := Nat.dvd_mul_left _ _

section
variable {n a : Nat}

theorem le_alignUp (ha : 0 < a) : n ≤ alignUp n a := by
  have hlt := Nat.lt_mul_div_succ (n + (a - 1)) ha
  rw [Nat.mul_add, Nat.mul_one, Nat.mul_comm] at hlt
  unfold alignUp
  omega

theorem alignUp_le : alignUp n a ≤ n + (a - 1) := Nat.div_mul_le_self _ _

/-- A multiple of `a` is at or above `n` exactly when it is at or above `alignUp n a`. -/
theorem alignUp_le_iff (ha : 0 < a) {m : Nat} (hm : a ∣ m) : alignUp n a ≤ m ↔ n ≤ m := by
  constructor
  · exact fun h => (le_alignUp ha).trans h
  · intro h
    obtain ⟨k, rfl⟩ := hm
    have hdiv : (n + (a - 1)) / a ≤ k := by
      refine Nat.lt_succ_iff.mp ((Nat.div_lt_iff_lt_mul ha).mpr ?_)
      rw [Nat.succ_mul, Nat.mul_comm]
      omega
    rw [alignUp, Nat.mul_comm a]
    exact Nat.mul_le_mul_right a hdiv

end

/-! ## Blocks -/

/-- A block of memory, and the number its start has to be a multiple of. -/
structure Block where
  start : Nat
  size : Nat
  align : Nat
  deriving DecidableEq, Repr

namespace Block

/-- The addresses of the block. -/
def bytes (b : Block) : Set Nat := Set.Ico b.start (b.start + b.size)

/-- The block inside `[lo, hi)`. -/
structure Inside (lo hi : Nat) (b : Block) : Prop where
  le_start : lo ≤ b.start
  end_le : b.start + b.size ≤ hi

/-- The block in a region that begins at `lo'` in place of `lo`. -/
def move (lo lo' : Nat) (b : Block) : Block := { b with start := b.start - lo + lo' }

variable {b c : Block} {lo hi lo' : Nat}

theorem disjoint_iff : Disjoint b.bytes c.bytes ↔
    min (b.start + b.size) (c.start + c.size) ≤ max b.start c.start :=
  Set.Ico_disjoint_Ico

/-- A block that begins behind another one has no byte of it. -/
theorem disjoint_of_le (h : b.start + b.size ≤ c.start) : Disjoint b.bytes c.bytes :=
  disjoint_iff.mpr ((Nat.min_le_left _ _).trans (h.trans (Nat.le_max_right _ _)))

theorem Inside.move {n : Nat} (lo' : Nat) (h : b.Inside lo (lo + n)) :
    (b.move lo lo').Inside lo' (lo' + n) := by
  have hlo := h.le_start
  have hhi := h.end_le
  exact ⟨Nat.le_add_left _ _, by simp only [Block.move]; omega⟩

theorem disjoint_move (hb : lo ≤ b.start) (hc : lo ≤ c.start) (h : Disjoint b.bytes c.bytes) :
    Disjoint (b.move lo lo').bytes (c.move lo lo').bytes := by
  rw [disjoint_iff] at h ⊢
  simp only [move]
  omega

/-- A start stays a multiple of what both regions begin at a multiple of. -/
theorem dvd_move {a : Nat} (hlo : a ∣ lo) (hlo' : a ∣ lo')
    (h : a ∣ b.start) : a ∣ (b.move lo lo').start :=
  Nat.dvd_add (Nat.dvd_sub h hlo) hlo'

end Block

/-! ## The allocator -/

/-- An allocator of `[lo, hi)`: the rest is from `next` on, and all blocks handed out so
far lie before that, aligned and without overlap. -/
structure Bump (lo hi : Nat) where
  next : Nat
  blocks : List Block
  le_next : lo ≤ next
  next_le : next ≤ hi
  inside : ∀ b ∈ blocks, b.Inside lo next
  aligned : ∀ b ∈ blocks, b.align ∣ b.start
  disjoint : blocks.Pairwise fun b c => Disjoint b.bytes c.bytes

namespace Bump

variable {lo hi : Nat}

/-- Nothing is handed out yet. -/
def empty (h : lo ≤ hi) : Bump lo hi where
  next := lo
  blocks := []
  le_next := Nat.le_refl lo
  next_le := h
  inside := by simp
  aligned := by simp
  disjoint := List.Pairwise.nil

/-- The rest of the region holds an aligned block of that size. -/
def Fits (s : Bump lo hi) (size align : Nat) : Prop :=
  ∃ start, s.next ≤ start ∧ align ∣ start ∧ start + size ≤ hi

theorem fits_iff (s : Bump lo hi) {size align : Nat} (h : 0 < align) :
    s.Fits size align ↔ alignUp s.next align + size ≤ hi := by
  constructor
  · rintro ⟨start, hnext, hdvd, hend⟩
    have hle := (alignUp_le_iff h hdvd).mpr hnext
    omega
  · exact fun hend => ⟨_, le_alignUp h, dvd_alignUp _ _, hend⟩

/-- The next block. -/
def alloc (s : Bump lo hi) (size align : Nat) (halign : 0 < align)
    (hfits : alignUp s.next align + size ≤ hi) : Bump lo hi where
  next := alignUp s.next align + size
  blocks := s.blocks ++ [⟨alignUp s.next align, size, align⟩]
  le_next := s.le_next.trans ((le_alignUp halign).trans (Nat.le_add_right _ _))
  next_le := hfits
  inside := by
    have hle := le_alignUp (n := s.next) halign
    have hlo := s.le_next
    simp only [List.mem_append, List.mem_singleton]
    rintro b (hb | rfl)
    · exact ⟨(s.inside b hb).le_start, by have := (s.inside b hb).end_le; omega⟩
    · exact ⟨by simp only; omega, Nat.le_refl _⟩
  aligned := by
    simp only [List.mem_append, List.mem_singleton]
    rintro b (hb | rfl)
    · exact s.aligned b hb
    · exact dvd_alignUp _ _
  disjoint := by
    have hle := le_alignUp (n := s.next) halign
    refine List.pairwise_append.mpr ⟨s.disjoint, List.pairwise_singleton _ _, fun b hb c hc => ?_⟩
    -- the new block begins behind all earlier ones
    obtain rfl := List.mem_singleton.mp hc
    exact Block.disjoint_of_le ((s.inside b hb).end_le.trans hle)

end Bump

end EchoServer.Lib
