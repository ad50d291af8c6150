import Mathlib.Data.List.Basic
import Mathlib.Data.List.TakeDrop
import Mathlib.Tactic.Ring

/-!
# Fixed-size blocks of a stream

`blocks n l` is the list of the complete `n`-element blocks of `l`, in order;
what is left over at the end is not a block.

Main results:

* `flatten_take_blocks` — the first `k` blocks are the first `k * n` elements;
* `take_succ_blocks` — one more block is the next `n` elements;
* `blocks_cons` — a stream of at least `n` elements is its first block followed
  by the blocks of the rest;
* `Cut.flatten_prefix` — blocks that are sent one after another, the last possibly
  cut, are one contiguous run;
* `getElem?_overwrite`, `take_overwrite` — what a buffer holds up to the end of what was written.
-/

namespace EchoServer.Lib

variable {α : Type*}

/-- The `k`-th block of `n` elements. -/
def block (n k : Nat) (l : List α) : List α := (l.drop (k * n)).take n

/-- The complete blocks of `n` elements. -/
def blocks (n : Nat) (l : List α) : List (List α) :=
  (List.range (l.length / n)).map fun k => block n k l

@[simp] theorem length_blocks (n : Nat) (l : List α) :
    (blocks n l).length = l.length / n := by
  simp [blocks]

theorem getElem?_blocks {n k : Nat} {l : List α} (h : k < l.length / n) :
    (blocks n l)[k]? = some (block n k l) := by
  simp [blocks, h]

/-- One more complete block. -/
theorem take_succ_blocks {n k : Nat} {l : List α} (hn : 0 < n)
    (h : (k + 1) * n ≤ l.length) :
    (blocks n l).take (k + 1) = (blocks n l).take k ++ [block n k l] := by
  have hk : k < l.length / n := (Nat.le_div_iff_mul_le hn).mpr h
  rw [List.take_add_one, getElem?_blocks hk]
  rfl

theorem take_append_block {n k : Nat} (l : List α) :
    l.take (k * n) ++ block n k l = l.take ((k + 1) * n) := by
  have hk : (k + 1) * n = k * n + n := by ring
  rw [hk, List.take_add, block]

/-- The first `k` blocks are the first `k * n` elements. -/
theorem flatten_take_blocks {n k : Nat} {l : List α} (hn : 0 < n) (h : k * n ≤ l.length) :
    ((blocks n l).take k).flatten = l.take (k * n) := by
  induction k with
  | zero => simp
  | succ k ih =>
    have hk : k * n ≤ (k + 1) * n := Nat.mul_le_mul_right n (Nat.le_succ k)
    rw [take_succ_blocks hn h, List.flatten_append, ih (hk.trans h), List.flatten_singleton,
      take_append_block]

theorem flatten_blocks {n : Nat} (l : List α) (hn : 0 < n) :
    (blocks n l).flatten = l.take (l.length / n * n) := by
  have h := flatten_take_blocks (k := l.length / n) hn (Nat.div_mul_le_self l.length n)
  rwa [List.take_of_length_le (by simp)] at h

theorem blocks_of_length_lt {n : Nat} {l : List α} (h : l.length < n) : blocks n l = [] := by
  simp [blocks, Nat.div_eq_of_lt h]

theorem length_le_of_mem_blocks {n : Nat} {l b : List α} (h : b ∈ blocks n l) : b.length ≤ n := by
  obtain ⟨k, -, rfl⟩ := List.mem_map.mp h
  exact List.length_take_le ..

theorem blocks_cons {n : Nat} {l : List α} (hn : 0 < n) (h : n ≤ l.length) :
    blocks n l = l.take n :: blocks n (l.drop n) := by
  have hlen : l.length / n = (l.drop n).length / n + 1 := by
    rw [List.length_drop, ← Nat.add_div_right _ hn, Nat.sub_add_cancel h]
  rw [blocks, hlen, List.range_succ_eq_map, List.map_cons, List.map_map, blocks]
  congr 1
  · simp [block]
  · refine List.map_congr_left fun k _ => ?_
    have hk : (k + 1) * n = n + k * n := by ring
    simp only [Function.comp_apply, block, List.drop_drop, Nat.succ_eq_add_one, hk]

/-- Only what is shorter than a block has none. -/
theorem flatten_blocks_eq_nil {n : Nat} {l : List α} (hn : 0 < n) :
    (blocks n l).flatten = [] ↔ l.length < n := by
  rcases Nat.lt_or_ge l.length n with hlt | hge
  · exact iff_of_true (by rw [blocks_of_length_lt hlt, List.flatten_nil]) hlt
  · refine iff_of_false (fun hnil => ?_) (Nat.not_lt.mpr hge)
    have hlen := congrArg List.length hnil
    rw [blocks_cons hn hge, List.flatten_cons, List.length_append, List.length_take,
      Nat.min_eq_left hge, List.length_nil] at hlen
    omega

/-- What is next in a stream, behind some first elements `a` and `k` blocks. -/
theorem block_of_prefix {n k : Nat} {a x b l : List α} (h : x ++ b <+: a ++ l)
    (hx : x.length = a.length + k * n) (hb : b.length = n) :
    (k + 1) * n ≤ l.length ∧ b = block n k l := by
  obtain ⟨r, hr⟩ := h
  refine ⟨?_, ?_⟩
  · have hlen := congrArg List.length hr
    simp only [List.length_append, hx, hb] at hlen
    rw [Nat.succ_mul]
    omega
  · have hdrop := congrArg (List.drop (a.length + k * n)) hr
    rw [List.append_assoc, List.drop_left' hx, ← List.drop_drop, List.drop_left] at hdrop
    rw [block, ← hdrop, List.take_left' hb]

/-- A complete block does not depend on what comes after it. -/
theorem block_congr {n k : Nat} {l l' r : List α} (hl : l <+: r) (hl' : l' <+: r)
    (h : (k + 1) * n ≤ l.length) (h' : (k + 1) * n ≤ l'.length) : block n k l = block n k l' := by
  have hk : (k + 1) * n = k * n + n := by ring
  have hs : ∀ x : List α, x <+: r → (k + 1) * n ≤ x.length → block n k x = block n k r := by
    rintro x ⟨y, rfl⟩ hx
    rw [block, block, List.drop_append_of_le_length (by omega), List.take_append_of_le_length]
    rw [List.length_drop]
    omega
  rw [hs l hl h, hs l' hl' h']

/-! ## Runs of blocks -/

/-- The first blocks of `l`, in order and each once, the last possibly cut. -/
inductive Cut (n : Nat) (l : List α) : List (List α) → Prop
  | whole (k : Nat) : k * n ≤ l.length → Cut n l ((blocks n l).take k)
  | cut (k p : Nat) : (k + 1) * n ≤ l.length → p ≤ n →
      Cut n l ((blocks n l).take k ++ [(block n k l).take p])

/-- Such a run starts where `l` does and skips and repeats nothing. -/
theorem Cut.flatten_prefix {n : Nat} {l : List α} {ms : List (List α)} (hn : 0 < n)
    (h : Cut n l ms) : ms.flatten <+: l := by
  cases h with
  | whole k hk =>
    rw [flatten_take_blocks hn hk]
    exact List.take_prefix _ _
  | cut k p hk hp =>
    have hk' : k * n ≤ l.length := Nat.le_trans (Nat.mul_le_mul_right n (Nat.le_succ k)) hk
    rw [List.flatten_append, flatten_take_blocks hn hk', List.flatten_singleton, block,
      List.take_take, Nat.min_eq_left hp, ← List.take_add]
    exact List.take_prefix _ _

/-- Of an empty list nothing is sent. -/
theorem Cut.eq_nil {n : Nat} {ms : List (List α)} (hn : 0 < n) (h : Cut n [] ms) : ms = [] := by
  cases h with
  | whole k hk => simp [blocks]
  | cut k p hk =>
    rw [List.length_nil, Nat.succ_mul] at hk
    omega

/-! ## Slices -/

/-- Two lists with the same first `n` elements have the same slices of them. -/
theorem take_drop_congr {l m : List α} {n p k : Nat} (h : l.take n = m.take n) (hk : p + k ≤ n) :
    (l.drop p).take k = (m.drop p).take k := by
  have hs : ∀ x : List α, (x.drop p).take k = ((x.take n).drop p).take k := by
    intro x
    rw [List.drop_take, List.take_take, Nat.min_eq_left (by omega)]
  rw [hs l, hs m, h]

/-! ## Writing into a buffer -/

/-- Overwrite `xs.length` elements of a buffer from offset `i` on. -/
def overwrite (buf : List α) (i : Nat) (xs : List α) : List α :=
  buf.take i ++ xs ++ buf.drop (i + xs.length)

theorem length_overwrite {buf xs : List α} {i : Nat} (h : i + xs.length ≤ buf.length) :
    (overwrite buf i xs).length = buf.length := by
  simp only [overwrite, List.length_append, List.length_take, List.length_drop]
  omega

theorem getElem?_overwrite {buf xs : List α} {i : Nat} (h : i ≤ buf.length) (j : Nat) :
    (overwrite buf i xs)[j]? =
      if i ≤ j ∧ j < i + xs.length then xs[j - i]? else buf[j]? := by
  have hlen : (buf.take i).length = i := by rw [List.length_take, Nat.min_eq_left h]
  rw [overwrite, List.append_assoc, List.getElem?_append, hlen]
  by_cases hj : j < i
  · rw [if_pos hj, if_neg (by omega), List.getElem?_take, if_pos hj]
  · rw [if_neg hj, List.getElem?_append]
    by_cases hxs : j - i < xs.length
    · rw [if_pos hxs, if_pos (by omega)]
    · rw [if_neg hxs, if_neg (by omega), List.getElem?_drop]
      congr 1
      omega

/-- What lies before the place stays. -/
theorem overwrite_append {pre : List α} {n : Nat} (hpre : pre.length = n) (buf xs : List α) (i : Nat) :
    overwrite (pre ++ buf) (n + i) xs = pre ++ overwrite buf i xs := by
  subst hpre
  rw [overwrite, overwrite, List.take_length_add_append, Nat.add_assoc, List.drop_length_add_append]
  simp only [List.append_assoc]

theorem take_overwrite (buf xs : List α) {i : Nat} (h : i ≤ buf.length) :
    (overwrite buf i xs).take (i + xs.length) = buf.take i ++ xs := by
  have hlen : (buf.take i ++ xs).length = i + xs.length := by
    rw [List.length_append, List.length_take, Nat.min_eq_left h]
  rw [overwrite, ← hlen, List.take_left]

end EchoServer.Lib
