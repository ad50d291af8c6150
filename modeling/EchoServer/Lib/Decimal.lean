import EchoServer.Lib.Utf8
import Mathlib.Data.Int.Basic
import Mathlib.Data.List.DropRight
import Mathlib.Algebra.BigOperators.Group.List.Basic
import Mathlib.Algebra.Ring.Nat
import Mathlib.Algebra.Ring.Int.Defs

/-!
# Decimal texts

Numbers printed in decimal, and the ways in which programs read them back: strictly, as
a store does that keeps counters as texts; up to the first character that is not a digit,
as `strtol` does; and as the words of a text, as `int` and `split` do in Python.

Python converts no more than 4300 digits (`sys.get_int_max_str_digits`), leading zeros
included, and raises an exception at a longer number; a number of 64 bits has 19.

Main results:

* `readInt_decimal`, `pyInt_decimal` — a printed number is read back;
* `sumWords_flatMap` — the words of a text of numbers, each behind a space, sum up to what
  the numbers do;
* `sumBytes_append` — so do those of its bytes, behind any others.
-/

namespace EchoServer.Lib

/-- `%ld` in C, `str` in Python. -/
def decimal (z : Int) : Text :=
  if z < 0 then '-' :: Nat.toDigits 10 z.natAbs else Nat.toDigits 10 z.natAbs

/-- The value of a text of digits. -/
def digits? (t : Text) : Option Nat :=
  if t ≠ [] ∧ t.all Char.isDigit then some (Nat.ofDigitChars 10 t 0) else none

/-- Digits, with a minus sign or not. -/
def readInt : Text → Option Int
  | '-' :: t => (digits? t).map fun n : Nat => -(n : Int)
  | t => (digits? t).map Int.ofNat

section
variable {n : Nat} {c : Char}

theorem isDigit_of_mem_toDigits (h : c ∈ Nat.toDigits 10 n) : c.isDigit = true :=
  Nat.isDigit_of_mem_toDigits (by decide) (by decide) h

theorem digits?_toDigits (n : Nat) : digits? (Nat.toDigits 10 n) = some n := by
  have hall : (Nat.toDigits 10 n).all Char.isDigit = true :=
    List.all_eq_true.mpr fun _ hc => isDigit_of_mem_toDigits hc
  rw [digits?, if_pos ⟨Nat.toDigits_ne_nil, hall⟩, Nat.ofDigitChars_ten_toDigits]

theorem toDigits_cons (n : Nat) :
    ∃ c cs, Nat.toDigits 10 n = c :: cs ∧ c.isDigit = true := by
  obtain ⟨c, cs, heq⟩ := List.exists_cons_of_ne_nil (Nat.toDigits_ne_nil (n := n) (b := 10))
  refine ⟨c, cs, heq, isDigit_of_mem_toDigits (n := n) ?_⟩
  rw [heq]
  exact List.mem_cons_self

end

theorem readInt_decimal (z : Int) : readInt (decimal z) = some z := by
  unfold decimal
  split
  · rename_i hneg
    rw [readInt, digits?_toDigits, Option.map_some]
    congr 1
    omega
  · rename_i hpos
    obtain ⟨c, cs, heq, hdigit⟩ := toDigits_cons z.natAbs
    have hminus : c ≠ '-' := fun h => by
      rw [h] at hdigit
      exact absurd hdigit (by decide)
    have hread : readInt (c :: cs) = (digits? (c :: cs)).map Int.ofNat := by
      unfold readInt
      split
      · rename_i heq'
        exact absurd (List.cons.inj heq').1 hminus
      · rfl
    rw [heq, hread, ← heq, digits?_toDigits, Option.map_some, Int.ofNat_eq_natCast]
    congr 1
    omega

/-- A number that fits 64 bits, as a text in the one form it is printed in. -/
def string2ll (t : Text) : Option Int :=
  (readInt t).bind fun z => if decimal z = t ∧ -2 ^ 63 ≤ z ∧ z < 2 ^ 63 then some z else none

theorem string2ll_decimal {z : Int} (h : -2 ^ 63 ≤ z ∧ z < 2 ^ 63) :
    string2ll (decimal z) = some z := by
  rw [string2ll, readInt_decimal, Option.bind_some, if_pos ⟨rfl, h⟩]

theorem string2ll_decimal_of_not {z : Int} (h : ¬ (-2 ^ 63 ≤ z ∧ z < 2 ^ 63)) :
    string2ll (decimal z) = none := by
  rw [string2ll, readInt_decimal, Option.bind_some, if_neg fun hall => h hall.2]

/-! ## The readers of C -/

/-- `isspace` in the C locale. -/
def isspace (c : Char) : Bool := c = ' ' || (9 ≤ c.toNat && c.toNat ≤ 13)

/-- `strtol(s, NULL, 10)`: blanks, a sign, and digits up to the first character that is
none; a number outside of `long` is cut to its bounds. -/
def strtol (s : Text) : Int :=
  let magnitude (t : Text) : Int := Nat.ofDigitChars 10 (t.takeWhile Char.isDigit) 0
  let z := match s.dropWhile isspace with
    | '-' :: t => -magnitude t
    | '+' :: t => magnitude t
    | t => magnitude t
  max (-2 ^ 63) (min z (2 ^ 63 - 1))

/-- `atoi` is `(int) strtol`. -/
def atoi (s : Text) : Int := Int.bmod (strtol s) (2 ^ 32)

/-! ## The readers of Python -/

/-- `str.isspace`. -/
def isSpace (c : Char) : Bool :=
  c.toNat ∈ [9, 10, 11, 12, 13, 28, 29, 30, 31, 32, 0x85, 0xA0, 0x1680, 0x2028, 0x2029, 0x202F,
    0x205F, 0x3000] || (0x2000 ≤ c.toNat && c.toNat ≤ 0x200A)

/-- `str.split()`: the words between blanks. -/
def words (t : Text) : List Text := (t.splitOnP isSpace).filter (· ≠ [])

/-- The zeros of Unicode 15; behind each stand the digits up to nine. -/
def zeros : List Nat :=
  [0x30, 0x660, 0x6F0, 0x7C0, 0x966, 0x9E6, 0xA66, 0xAE6, 0xB66, 0xBE6, 0xC66, 0xCE6, 0xD66, 0xDE6,
    0xE50, 0xED0, 0xF20, 0x1040, 0x1090, 0x17E0, 0x1810, 0x1946, 0x19D0, 0x1A80, 0x1A90, 0x1B50,
    0x1BB0, 0x1C40, 0x1C50, 0xA620, 0xA8D0, 0xA900, 0xA9D0, 0xA9F0, 0xAA50, 0xABF0, 0xFF10, 0x104A0,
    0x10D30, 0x11066, 0x110F0, 0x11136, 0x111D0, 0x112F0, 0x11450, 0x114D0, 0x11650, 0x116C0,
    0x11730, 0x118E0, 0x11950, 0x11C50, 0x11D50, 0x11DA0, 0x11F50, 0x16A60, 0x16AC0, 0x16B50,
    0x1D7CE, 0x1D7D8, 0x1D7E2, 0x1D7EC, 0x1D7F6, 0x1E140, 0x1E2F0, 0x1E4F0, 0x1E950, 0x1FBF0]

/-- `unicodedata.decimal`. -/
def unicodeDigit (c : Char) : Option Nat :=
  (zeros.find? fun z => z ≤ c.toNat && c.toNat ≤ z + 9).map (c.toNat - ·)

/-- Digits in which `_` may stand between two of them. -/
def pyDigits : Option Nat → Text → Option Nat
  | acc, [] => acc
  | some n, '_' :: c :: t => (unicodeDigit c).bind fun d => pyDigits (some (10 * n + d)) t
  | acc, c :: t => (unicodeDigit c).bind fun d => pyDigits (some (10 * acc.getD 0 + d)) t

/-- The digits that Python converts at most. -/
def maxStrDigits : Nat := 4300

/-- The digits of a number, without its sign. -/
def pyNat (t : Text) : Option Nat :=
  if t.countP (· ≠ '_') ≤ maxStrDigits then pyDigits none t else none

/-- `int`. -/
def pyInt (t : Text) : Option Int :=
  match (t.dropWhile isSpace).rdropWhile isSpace with
  | '-' :: t => (pyNat t).map fun n : Nat => -(n : Int)
  | '+' :: t => (pyNat t).map Int.ofNat
  | t => (pyNat t).map Int.ofNat

/-- `str` of the number raises no exception. -/
def Printable (z : Int) : Prop := (Nat.toDigits 10 z.natAbs).length ≤ maxStrDigits

instance (z : Int) : Decidable (Printable z) := Nat.decLe _ _

/-- `sum([int(x) for x in t.split()])`. -/
def sumWords (t : Text) : Option Int := ((words t).mapM pyInt).map List.sum

/-- The same of the bytes of a text; `none` if they are no text. -/
def sumBytes (bs : List UInt8) : Option Int := (decode bs).bind sumWords

theorem not_isSpace_of_isDigit {c : Char} (h : c.isDigit = true) : isSpace c = false := by
  simp only [Char.isDigit, Bool.and_eq_true, decide_eq_true_eq] at h
  have hlo : 48 ≤ c.toNat := h.1
  have hhi : c.toNat ≤ 57 := h.2
  simp only [isSpace, List.mem_cons, List.not_mem_nil, or_false, Bool.or_eq_false_iff,
    decide_eq_false_iff_not, Bool.and_eq_false_iff]
  omega

theorem not_isSpace_of_mem_decimal {z : Int} {c : Char} (h : c ∈ decimal z) :
    isSpace c = false := by
  unfold decimal at h
  split at h
  · rcases List.mem_cons.mp h with rfl | h
    · decide
    · exact not_isSpace_of_isDigit (isDigit_of_mem_toDigits h)
  · exact not_isSpace_of_isDigit (isDigit_of_mem_toDigits h)

theorem decimal_ne_nil (z : Int) : decimal z ≠ [] := by
  unfold decimal
  split
  · exact List.cons_ne_nil _ _
  · exact Nat.toDigits_ne_nil

theorem unicodeDigit_of_isDigit {c : Char} (h : c.isDigit = true) :
    unicodeDigit c = some (c.toNat - 48) := by
  simp only [Char.isDigit, Bool.and_eq_true, decide_eq_true_eq] at h
  have hlo : 48 ≤ c.toNat := h.1
  have hhi : c.toNat ≤ 57 := h.2
  have hascii : (fun z => decide (z ≤ c.toNat) && decide (c.toNat ≤ z + 9)) 0x30 = true := by
    simp only [Bool.and_eq_true, decide_eq_true_eq]
    omega
  rw [unicodeDigit, zeros, List.find?_cons_of_pos (p := fun z => z ≤ c.toNat && c.toNat ≤ z + 9) hascii,
    Option.map_some]

theorem pyDigits_some {t : Text} (h : t.all Char.isDigit = true) (n : Nat) :
    pyDigits (some n) t = some (Nat.ofDigitChars 10 t n) := by
  induction t generalizing n with
  | nil => rw [pyDigits, Nat.ofDigitChars_nil]
  | cons c t ih =>
    rw [List.all_cons, Bool.and_eq_true] at h
    have hunder : c ≠ '_' := fun heq => by
      rw [heq] at h
      exact absurd h.1 (by decide)
    rw [pyDigits, unicodeDigit_of_isDigit h.1, Option.bind_some, ih h.2, Nat.ofDigitChars_cons]
    · rfl
    · rintro _ _ _ - rfl
      exact absurd rfl hunder

theorem pyDigits_toDigits (n : Nat) : pyDigits none (Nat.toDigits 10 n) = some n := by
  have hall : (Nat.toDigits 10 n).all Char.isDigit = true :=
    List.all_eq_true.mpr fun _ hc => isDigit_of_mem_toDigits hc
  obtain ⟨c, cs, heq, hdigit⟩ := toDigits_cons n
  have hvalue := Nat.ofDigitChars_ten_toDigits (n := n)
  rw [heq] at hall hvalue ⊢
  rw [List.all_cons, Bool.and_eq_true] at hall
  rw [Nat.ofDigitChars_cons] at hvalue
  rw [pyDigits, unicodeDigit_of_isDigit hdigit, Option.bind_some, pyDigits_some hall.2]
  · exact congrArg some hvalue
  · rintro _ _ _ h
    cases h

theorem pyNat_toDigits (n : Nat) : pyNat (Nat.toDigits 10 n) =
    if (Nat.toDigits 10 n).length ≤ maxStrDigits then some n else none := by
  have hcount : (Nat.toDigits 10 n).countP (· ≠ '_') = (Nat.toDigits 10 n).length := by
    refine List.countP_eq_length.mpr fun c hc => decide_eq_true fun hunder => ?_
    have hdigit := isDigit_of_mem_toDigits hc
    rw [hunder] at hdigit
    exact absurd hdigit (by decide)
  rw [pyNat, hcount, pyDigits_toDigits]

theorem printable_of_lt {z : Int} {k : Nat} (hk : k ≤ maxStrDigits) (hpos : 0 < k)
    (h : z.natAbs < 10 ^ k) : Printable z :=
  ((Nat.length_toDigits_le_iff (by decide) hpos).mpr h).trans hk

/-- A number of 64 bits. -/
theorem printable_of_long {z : Int} (h : -2 ^ 63 ≤ z ∧ z < 2 ^ 63) : Printable z :=
  printable_of_lt (k := 19) (by decide) (by decide) (by omega)

theorem printable_zero : Printable 0 := printable_of_long (by decide)

theorem pyInt_decimal (z : Int) :
    pyInt (decimal z) = if Printable z then some z else none := by
  have hfirst : (decimal z).dropWhile isSpace = decimal z :=
    List.dropWhile_eq_self_iff.mpr fun hl => by
      rw [not_isSpace_of_mem_decimal (List.getElem_mem hl)]
      exact Bool.false_ne_true
  have hlast : (decimal z).rdropWhile isSpace = decimal z :=
    List.rdropWhile_eq_self_iff.mpr fun hl => by
      rw [not_isSpace_of_mem_decimal (List.getLast_mem hl)]
      exact Bool.false_ne_true
  rw [pyInt, hfirst, hlast]
  have hvalue : pyNat (Nat.toDigits 10 z.natAbs) = if Printable z then some z.natAbs else none :=
    pyNat_toDigits z.natAbs
  by_cases hneg : z < 0
  · rw [decimal, if_pos hneg]
    show (pyNat (Nat.toDigits 10 z.natAbs)).map (fun n : Nat => -(n : Int)) = _
    rw [hvalue]
    by_cases hp : Printable z
    · rw [if_pos hp, if_pos hp, Option.map_some]
      congr 1
      omega
    · rw [if_neg hp, if_neg hp, Option.map_none]
  · rw [decimal, if_neg hneg]
    obtain ⟨c, cs, heq, hdigit⟩ := toDigits_cons z.natAbs
    have hsign : c ≠ '-' ∧ c ≠ '+' := by
      refine ⟨fun h => ?_, fun h => ?_⟩
      · rw [h] at hdigit
        exact absurd hdigit (by decide)
      · rw [h] at hdigit
        exact absurd hdigit (by decide)
    rw [heq] at hvalue ⊢
    split
    · rename_i heq'
      exact absurd (List.cons.inj heq').1 hsign.1
    · rename_i heq'
      exact absurd (List.cons.inj heq').1 hsign.2
    · rw [hvalue]
      by_cases hp : Printable z
      · rw [if_pos hp, if_pos hp, Option.map_some, Int.ofNat_eq_natCast]
        congr 1
        omega
      · rw [if_neg hp, if_neg hp, Option.map_none]

/-- A word behind a blank. -/
theorem words_append {t w : Text} (hw : w ≠ []) (hsp : ∀ c ∈ w, isSpace c = false) :
    words (t ++ ' ' :: w) = words t ++ [w] := by
  rw [words, List.splitOnP_append_cons t w (by decide), List.splitOnP_eq_singleton hsp,
    List.filter_append]
  simp [words, hw]

/-- **A number that was appended behind a space is one summand more.** -/
theorem sumWords_append (t : Text) {z : Int} (h : Printable z) :
    sumWords (t ++ ' ' :: decimal z) = (sumWords t).map (· + z) := by
  have hwords : words (t ++ ' ' :: decimal z) = words t ++ [decimal z] :=
    words_append (decimal_ne_nil z) fun _ hc => not_isSpace_of_mem_decimal hc
  have hlast : [decimal z].mapM pyInt = some [z] := by simp [pyInt_decimal, h]
  rw [sumWords, hwords, List.mapM_append, hlast, sumWords]
  cases (words t).mapM pyInt with
  | none => rfl
  | some zs => simp

variable {zs : List Int}

theorem sumWords_append_flatMap (t : Text) (h : ∀ z ∈ zs, Printable z) :
    sumWords (t ++ zs.flatMap fun z => ' ' :: decimal z) = (sumWords t).map (· + zs.sum) := by
  induction zs using List.reverseRecOn with
  | nil => simp
  | append_singleton zs z ih =>
    obtain ⟨hzs, hz⟩ := List.forall_mem_append.mp h
    rw [List.flatMap_append, List.flatMap_singleton, ← List.append_assoc,
      sumWords_append _ (hz z List.mem_cons_self), ih hzs, List.sum_append, List.sum_singleton,
      Option.map_map]
    congr 1
    funext x
    exact Int.add_assoc x zs.sum z

theorem sumWords_flatMap (h : ∀ z ∈ zs, Printable z) :
    sumWords (zs.flatMap fun z => ' ' :: decimal z) = some zs.sum := by
  have hnil : sumWords [] = some 0 := rfl
  have hall := sumWords_append_flatMap [] h
  rwa [List.nil_append, hnil, Option.map_some, Int.zero_add] at hall

/-! ## Bytes -/

theorem ascii_decimal (z : Int) : Ascii (decimal z) := by
  intro c hc
  have hdigit : c.isDigit = true → c.toNat < 128 := by
    intro h
    simp only [Char.isDigit, Bool.and_eq_true, decide_eq_true_eq] at h
    have hhi : c.toNat ≤ 57 := h.2
    omega
  unfold decimal at hc
  split at hc
  · rcases List.mem_cons.mp hc with rfl | hc
    · decide
    · exact hdigit (isDigit_of_mem_toDigits hc)
  · exact hdigit (isDigit_of_mem_toDigits hc)

theorem ascii_flatMap (zs : List Int) : Ascii (zs.flatMap fun z => ' ' :: decimal z) := by
  intro c hc
  obtain ⟨z, -, hc⟩ := List.mem_flatMap.mp hc
  rcases List.mem_cons.mp hc with rfl | hc
  · decide
  · exact ascii_decimal z c hc

/-- **Numbers behind any bytes.** -/
theorem sumBytes_append (bs : List UInt8) (h : ∀ z ∈ zs, Printable z) :
    sumBytes (bs ++ utf8 (zs.flatMap fun z => ' ' :: decimal z)) =
      (sumBytes bs).map (· + zs.sum) := by
  rw [sumBytes, decode_append_utf8 bs (ascii_flatMap zs), sumBytes]
  cases decode bs with
  | none => rfl
  | some t => exact sumWords_append_flatMap t h

theorem sumBytes_flatMap (h : ∀ z ∈ zs, Printable z) :
    sumBytes (utf8 (zs.flatMap fun z => ' ' :: decimal z)) = some zs.sum := by
  rw [sumBytes, decode_utf8 (ascii_flatMap zs)]
  exact sumWords_flatMap h

end EchoServer.Lib
