import Mathlib.Data.List.Basic
import Mathlib.Data.Option.Basic

/-!
# Bytes and texts

A store, a socket and a C program have bytes; Python has texts, and encodes and decodes
them in UTF-8. Decoding fails on bytes that are not UTF-8: on a first byte that begins no
character, on a character that is cut off, on an overlong one, on a surrogate and beyond
U+10FFFF.

The decoder goes byte by byte. Between two characters it has nothing in hand; inside of one
it has the bits so far, how many bytes are to come and in which range the next one is.

Main results, on texts of ASCII characters:

* `decode_append_utf8` — such a text behind any bytes is decoded on its own, and bytes that
  are not UTF-8 do not become so;
* `chars_utf8` — for a C program it is the same text.
-/

namespace EchoServer.Lib

abbrev Text := List Char

def utf8 (t : Text) : List UInt8 := t.flatMap String.utf8EncodeChar

/-- What a C program has: a character for each byte. -/
def chars (bs : List UInt8) : Text := bs.map fun b => Char.ofNat b.toNat

/-- Inside of a character: its bits so far, how many bytes come after the next one, and the
range of the next one, which is none of ASCII. -/
structure Pending where
  bits : Nat
  more : Nat
  lo : Nat
  hi : Nat
  not_ascii : 128 ≤ lo

/-- The first byte of a character that has several. -/
def lead (b : UInt8) : Option Pending :=
  let n := b.toNat
  if 0xC2 ≤ n ∧ n ≤ 0xDF then some ⟨n % 32, 0, 0x80, 0xBF, by decide⟩
  -- not overlong, and no surrogate
  else if n = 0xE0 then some ⟨n % 16, 1, 0xA0, 0xBF, by decide⟩
  else if n = 0xED then some ⟨n % 16, 1, 0x80, 0x9F, by decide⟩
  else if 0xE1 ≤ n ∧ n ≤ 0xEF then some ⟨n % 16, 1, 0x80, 0xBF, by decide⟩
  -- not overlong, and not beyond U+10FFFF
  else if n = 0xF0 then some ⟨n % 8, 2, 0x90, 0xBF, by decide⟩
  else if 0xF1 ≤ n ∧ n ≤ 0xF3 then some ⟨n % 8, 2, 0x80, 0xBF, by decide⟩
  else if n = 0xF4 then some ⟨n % 8, 2, 0x80, 0x8F, by decide⟩
  else none

def decodeFrom : Option Pending → List UInt8 → Option Text
  | none, [] => some []
  | some _, [] => none
  | none, b :: bs =>
    if b.toNat < 128 then (decodeFrom none bs).map (Char.ofNat b.toNat :: ·)
    else (lead b).bind fun p => decodeFrom (some p) bs
  | some p, b :: bs =>
    if p.lo ≤ b.toNat ∧ b.toNat ≤ p.hi then
      let bits := p.bits * 64 + b.toNat % 64
      if p.more = 0 then (decodeFrom none bs).map (Char.ofNat bits :: ·)
      else decodeFrom (some ⟨bits, p.more - 1, 0x80, 0xBF, by decide⟩) bs
    else none

theorem decodeFrom_none (b : UInt8) (bs : List UInt8) :
    decodeFrom none (b :: bs) =
      if b.toNat < 128 then (decodeFrom none bs).map (Char.ofNat b.toNat :: ·)
      else (lead b).bind fun p => decodeFrom (some p) bs := by
  rw [decodeFrom]

theorem decodeFrom_some (p : Pending) (b : UInt8) (bs : List UInt8) :
    decodeFrom (some p) (b :: bs) =
      if p.lo ≤ b.toNat ∧ b.toNat ≤ p.hi then
        if p.more = 0 then (decodeFrom none bs).map (Char.ofNat (p.bits * 64 + b.toNat % 64) :: ·)
        else decodeFrom (some ⟨p.bits * 64 + b.toNat % 64, p.more - 1, 0x80, 0xBF, by decide⟩) bs
      else none := by
  rw [decodeFrom]

/-- `bytes.decode('utf-8')`. -/
def decode (bs : List UInt8) : Option Text := decodeFrom none bs

/-! ## ASCII -/

/-- All characters are of one byte. -/
def Ascii (t : Text) : Prop := ∀ c ∈ t, c.toNat < 128

variable {t : Text} {c : Char}

theorem utf8EncodeChar_ascii (h : c.toNat < 128) :
    ∃ b : UInt8, String.utf8EncodeChar c = [b] ∧ b.toNat = c.toNat := by
  have hsize : c.utf8Size = 1 :=
    Char.utf8Size_eq_one_iff.mpr (UInt32.le_iff_toNat_le.mpr (Nat.le_of_lt_succ h))
  refine ⟨_, String.utf8EncodeChar_eq_singleton hsize, ?_⟩
  rw [UInt32.toNat_toUInt8]
  exact Nat.mod_eq_of_lt (Nat.lt_trans h (by decide))

theorem utf8_cons (h : c.toNat < 128) :
    ∃ b : UInt8, (∀ t, utf8 (c :: t) = b :: utf8 t) ∧ b.toNat = c.toNat := by
  obtain ⟨b, hb, hval⟩ := utf8EncodeChar_ascii h
  refine ⟨b, fun t => ?_, hval⟩
  rw [utf8, List.flatMap_cons, hb]
  rfl

theorem chars_utf8 (h : Ascii t) : chars (utf8 t) = t := by
  induction t with
  | nil => rfl
  | cons c t ih =>
    obtain ⟨hc, ht⟩ := List.forall_mem_cons.mp h
    obtain ⟨b, hb, hval⟩ := utf8_cons hc
    rw [hb, chars, List.map_cons, hval, Char.ofNat_toNat]
    exact congrArg _ (ih ht)

theorem length_utf8 (h : Ascii t) : (utf8 t).length = t.length := by
  induction t with
  | nil => rfl
  | cons c t ih =>
    obtain ⟨hc, ht⟩ := List.forall_mem_cons.mp h
    obtain ⟨b, hb, -⟩ := utf8_cons hc
    rw [hb, List.length_cons, List.length_cons, ih ht]

theorem decode_utf8 (h : Ascii t) : decode (utf8 t) = some t := by
  induction t with
  | nil => rfl
  | cons c t ih =>
    obtain ⟨hc, ht⟩ := List.forall_mem_cons.mp h
    obtain ⟨b, hb, hval⟩ := utf8_cons hc
    rw [hb, decode, decodeFrom_none, if_pos (hval ▸ hc), hval, Char.ofNat_toNat]
    exact congrArg (Option.map (c :: ·)) (ih ht)

/-- At a byte of ASCII the decoder begins a new character, or there was one cut off. -/
theorem decodeFrom_append {b : UInt8} (hb : b.toNat < 128) (p : Option Pending)
    (bs cs : List UInt8) : decodeFrom p (bs ++ b :: cs) =
      (decodeFrom p bs).bind fun t => (decodeFrom none (b :: cs)).map (t ++ ·) := by
  induction bs generalizing p with
  | nil =>
    cases p with
    | none => exact (Option.map_id' (x := decodeFrom none (b :: cs))).symm
    | some p =>
      have hlo := p.not_ascii
      rw [List.nil_append, decodeFrom_some p b, if_neg (by omega)]
      rfl
  | cons x bs ih =>
    have hcons : ∀ (d : Char) (o : Option Text), (o.bind fun t =>
        (decodeFrom none (b :: cs)).map (t ++ ·)).map (d :: ·) =
        (o.map (d :: ·)).bind fun t => (decodeFrom none (b :: cs)).map (t ++ ·) := by
      intro d o
      cases o with
      | none => rfl
      | some t => exact Option.map_map ..
    rw [List.cons_append]
    cases p with
    | none =>
      rw [decodeFrom_none x (bs ++ b :: cs), decodeFrom_none x bs]
      split
      · rw [ih, hcons]
      · cases lead x with
        | none => rfl
        | some q => exact ih (some q)
    | some p =>
      rw [decodeFrom_some p x (bs ++ b :: cs), decodeFrom_some p x bs]
      split
      · split
        · rw [ih, hcons]
        · exact ih _
      · rfl

/-- **A text behind other bytes.** -/
theorem decode_append_utf8 (bs : List UInt8) (h : Ascii t) :
    decode (bs ++ utf8 t) = (decode bs).map (· ++ t) := by
  cases t with
  | nil =>
    have hnil : utf8 [] = [] := rfl
    simp [hnil]
  | cons c t =>
    obtain ⟨hc, ht⟩ := List.forall_mem_cons.mp h
    obtain ⟨b, hb, hval⟩ := utf8_cons hc
    have hself := decode_utf8 h
    rw [hb] at hself ⊢
    rw [decode, decodeFrom_append (hval ▸ hc), show decodeFrom none (b :: utf8 t) = _ from hself, decode]
    cases decodeFrom none bs with
    | none => rfl
    | some t' => rfl

end EchoServer.Lib
