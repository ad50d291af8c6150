import Mathlib.Data.List.Basic
import Mathlib.Algebra.Group.Nat.Defs

/-!
# Echo servers — shared vocabulary

Bytes, the size of the buffers every server declares, the message sizes
`start_server` lets a server announce, and the byte order of the announcement.

* `ntohl_htonl` — the size a client decodes is the size the server announced.
-/

namespace EchoServer

abbrev Bytes := List UInt8

/-- `BUF_SIZE`. -/
abbrev bufSize : Nat := 1024

/-- A message size a server can announce: `start_server` exits on sizes above
`BUF_SIZE`, and a size below 1 makes no message. -/
structure MsgSize where
  val : Nat
  pos : 0 < val
  le_bufSize : val ≤ bufSize

/-- Messages of four bytes. -/
def four : MsgSize := ⟨4, by decide, by decide⟩

/-- A `char buf[BUF_SIZE]`, uninitialised: any bytes. -/
structure Buffer where
  bytes : Bytes
  length_eq : bytes.length = bufSize

/-- A buffer that happens to hold zeros. -/
def zeros : Buffer := ⟨List.replicate bufSize 0, List.length_replicate⟩

/-- The four bytes of `htonl(x)` as they lie in memory. -/
def htonl (x : Nat) : Bytes :=
  [UInt8.ofNat (x / 2 ^ 24), UInt8.ofNat (x / 2 ^ 16), UInt8.ofNat (x / 2 ^ 8), UInt8.ofNat x]

/-- `ntohl` of the 32-bit word whose bytes in memory are `bs`. -/
def ntohl (bs : Bytes) : Nat :=
  bs.foldl (fun acc b => acc * 2 ^ 8 + b.toNat) 0

@[simp] theorem length_htonl (x : Nat) : (htonl x).length = 4 := rfl

/-- Four bytes hold a 32-bit word. -/
theorem ntohl_htonl_mod (x : Nat) : ntohl (htonl x) = x % 2 ^ 32 := by
  simp only [ntohl, htonl, List.foldl_cons, List.foldl_nil, UInt8.toNat_ofNat']
  omega

theorem ntohl_htonl {x : Nat} (h : x < 2 ^ 32) : ntohl (htonl x) = x := by
  rw [ntohl_htonl_mod, Nat.mod_eq_of_lt h]

theorem MsgSize.ntohl_htonl (m : MsgSize) : ntohl (htonl m.val) = m.val := by
  have h : m.val ≤ 1024 := m.le_bufSize
  exact EchoServer.ntohl_htonl (by omega)

end EchoServer
