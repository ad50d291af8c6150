import EchoServer.Lib.Decimal
import Mathlib.Logic.Function.Basic

/-!
# A key-value store

The commands of Redis on keys that hold strings. A string is any bytes, UTF-8 or not. A
counter is the decimal form of a number of 64 bits; a key that does not exist counts as
zero. Every command is atomic, and answers with an error and changes nothing when the key
holds something else. Replies are bytes as well; a client in Python decodes them.

* `incrBy_counter` — a counter goes up by the increment, as long as it fits;
* `append_eq` — bytes are appended, or there is an error;
* `incrBy_update` — what a command does with one key has nothing to do with another.
-/

namespace EchoServer.Lib

universe u

/-- What a key holds: a string, or else a list, a set, a hash or a stream. -/
inductive Value
  | string (bs : List UInt8)
  | other
  deriving DecidableEq, Repr

/-- The string of a text. -/
def Value.text (t : Text) : Value := .string (utf8 t)

inductive Reply
  | status
  | integer (z : Int)
  | string (bs : List UInt8)
  | nil
  | error
  | array (xs : List (Option (List UInt8)))
  deriving DecidableEq, Repr

/-- What each key holds, if it exists. -/
abbrev Store (κ : Type u) := κ → Option Value

namespace Store

variable {κ : Type u} [DecidableEq κ]

def set (r : Store κ) (k : κ) (bs : List UInt8) : Store κ := Function.update r k (some (.string bs))

omit [DecidableEq κ] in
/-- GET; a value that is no string is refused. -/
def get (r : Store κ) (k : κ) : Reply :=
  match r k with
  | none => .nil
  | some (.string bs) => .string bs
  | some .other => .error

omit [DecidableEq κ] in
/-- MGET; it refuses nothing, and has nil for what is no string. -/
def mget (r : Store κ) (ks : List κ) : Reply :=
  .array (ks.map fun k =>
    match r k with
    | some (.string bs) => some bs
    | _ => none)

/-- The number a counter holds. -/
def counter (r : Store κ) (k : κ) : Option Int :=
  match r k with
  | none => some 0
  | some (.string bs) => string2ll (chars bs)
  | some .other => none

/-- INCRBY: a key that is not there counts as zero, and what is no number of 64 bits, or would
not be one afterwards, is refused. -/
def incrBy (r : Store κ) (k : κ) (d : Int) : Reply × Store κ :=
  match r.counter k with
  | some z =>
    if -2 ^ 63 ≤ z + d ∧ z + d < 2 ^ 63 then (.integer (z + d), r.set k (utf8 (decimal (z + d))))
    else (.error, r)
  | none => (.error, r)

def decr (r : Store κ) (k : κ) : Reply × Store κ := r.incrBy k (-1)

/-- The longest string that a key may come to hold, 512 MiB. -/
def maxLength : Nat := 512 * 2 ^ 20

/-- APPEND: it makes the key when it is not there, and replies with the length. -/
def append (r : Store κ) (k : κ) (bs : List UInt8) : Reply × Store κ :=
  match r k with
  | none => (.integer bs.length, r.set k bs)
  | some (.string bs') =>
    if bs'.length + bs.length ≤ maxLength then
      (.integer (bs'.length + bs.length), r.set k (bs' ++ bs))
    else (.error, r)
  | some .other => (.error, r)

omit [DecidableEq κ] in
theorem length_decimal_le {z : Int} (h : -2 ^ 63 ≤ z ∧ z < 2 ^ 63) : (utf8 (decimal z)).length ≤ 20 := by
  have hdigits : (Nat.toDigits 10 z.natAbs).length ≤ 19 :=
    (Nat.length_toDigits_le_iff (by decide) (by decide)).mpr (by omega)
  rw [length_utf8 (ascii_decimal z), decimal]
  split
  · rw [List.length_cons]
    omega
  · omega

/-! ## What the commands do -/

variable {r : Store κ} {k k' : κ}

@[simp] theorem set_self (bs : List UInt8) : r.set k bs k = some (.string bs) :=
  Function.update_self ..

theorem set_of_ne (bs : List UInt8) (h : k' ≠ k) : r.set k bs k' = r k' := Function.update_of_ne h ..

theorem incrBy_of_ne (d : Int) (h : k' ≠ k) : (r.incrBy k d).2 k' = r k' := by
  unfold incrBy
  split
  · split
    · exact set_of_ne _ h
    · rfl
  · rfl

/-- An increment that fits. -/
theorem incrBy_counter {z d : Int} (h : r k = some (.text (decimal z)))
    (hz : -2 ^ 63 ≤ z ∧ z < 2 ^ 63) (hd : -2 ^ 63 ≤ z + d ∧ z + d < 2 ^ 63) :
    r.incrBy k d = (.integer (z + d), r.set k (utf8 (decimal (z + d)))) := by
  simp only [incrBy, counter, h, Value.text, chars_utf8 (ascii_decimal z), string2ll_decimal hz]
  exact if_pos hd

/-- A counter out of range, or one that the increment would bring out of it, stays. -/
theorem incrBy_error {z d : Int} (h : r k = some (.text (decimal z)))
    (hd : ¬ (-2 ^ 63 ≤ z ∧ z < 2 ^ 63) ∨ ¬ (-2 ^ 63 ≤ z + d ∧ z + d < 2 ^ 63)) :
    r.incrBy k d = (.error, r) := by
  simp only [incrBy, counter, h, Value.text, chars_utf8 (ascii_decimal z)]
  by_cases hz : -2 ^ 63 ≤ z ∧ z < 2 ^ 63
  · rw [string2ll_decimal hz]
    exact if_neg (hd.resolve_left (not_not_intro hz))
  · rw [string2ll_decimal_of_not hz]

omit [DecidableEq κ] in
/-- What a key holds, nothing when it does not exist. -/
def bytes (r : Store κ) (k : κ) : List UInt8 :=
  match r k with
  | some (.string bs) => bs
  | _ => []

/-- What `APPEND` makes of what a key holds, `none` when it answers with an error. -/
def appended (v : Option Value) (bs : List UInt8) : Option (List UInt8) :=
  match v with
  | none => some bs
  | some (.string bs') => if bs'.length + bs.length ≤ maxLength then some (bs' ++ bs) else none
  | some .other => none

/-- APPEND in terms of what the value becomes, if it is not refused. -/
theorem append_eq (r : Store κ) (k : κ) (bs : List UInt8) :
    r.append k bs = match appended (r k) bs with
      | some bs' => (.integer bs'.length, r.set k bs')
      | none => (.error, r) := by
  unfold append appended
  cases r k with
  | none => rfl
  | some v =>
    cases v with
    | string bs' =>
      simp only
      split
      · simp only [List.length_append, Int.natCast_add]
      · rfl
    | other => rfl

omit [DecidableEq κ] in
theorem appended_eq {bs bs' : List UInt8} (h : appended (r k) bs = some bs') :
    bs' = r.bytes k ++ bs := by
  unfold appended at h
  unfold bytes
  cases hv : r k with
  | none =>
    simp only [hv, Option.some.injEq] at h
    exact h.symm
  | some v =>
    cases v with
    | string bs'' =>
      simp only [hv, Option.ite_none_right_eq_some, Option.some.injEq] at h
      exact h.2.symm
    | other => simp only [hv, reduceCtorEq] at h

/-! ## A key that a command does not look at -/

variable {v : Option Value}

theorem get_update (h : k ≠ k') : get (Function.update r k' v) k = r.get k := by
  rw [get, get, Function.update_of_ne h]

theorem mget_update {ks : List κ} (h : k' ∉ ks) : mget (Function.update r k' v) ks = r.mget ks := by
  unfold mget
  congr 1
  refine List.map_congr_left fun k hk => ?_
  rw [Function.update_of_ne (ne_of_mem_of_not_mem hk h)]

theorem set_update (bs : List UInt8) (h : k ≠ k') :
    set (Function.update r k' v) k bs = Function.update (r.set k bs) k' v :=
  Function.update_comm (Ne.symm h) ..

theorem incrBy_update (d : Int) (h : k ≠ k') :
    incrBy (Function.update r k' v) k d =
      ((r.incrBy k d).1, Function.update (r.incrBy k d).2 k' v) := by
  have hcounter : counter (Function.update r k' v) k = r.counter k := by
    rw [counter, counter, Function.update_of_ne h]
  unfold incrBy
  rw [hcounter]
  split
  · split
    · rw [set_update _ h]
    · rfl
  · rfl

end Store

end EchoServer.Lib
