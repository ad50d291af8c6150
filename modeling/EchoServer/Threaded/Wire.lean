import EchoServer.Common
import EchoServer.Lib.Session

/-!
# Thread-per-connection servers — what belongs on the wire

The purpose of all of them, stated without a program: the announcement and then
the complete blocks of the client's stream, each as one `send`, up to the first
`send` that fails or comes up short.

* `cutWire_full`, `cutWire_short` — a message that is sent in full is followed by
  the rest, one that is not is the last;
* `echoWire_blocking` — with a `send` that waits until it has taken all, every
  complete block is on the wire.
-/

namespace EchoServer.Threaded

open EchoServer.Lib

/-- What the messages put on the wire when the first of them is the `j`-th `send`. -/
def cutWire (sends : Nat → Option Nat) : Nat → List Bytes → Bytes
  | _, [] => []
  | j, m :: ms =>
    match sends j with
    | none => []
    | some n => if m.length ≤ n then m ++ cutWire sends (j + 1) ms else m.take n

/-- The bytes that belong on the wire of a connection. -/
def echoWire (m : MsgSize) (peer : Peer UInt8) : Bytes :=
  cutWire peer.sends 0 (htonl m.val :: blocks m.val (peer.stream.drop 2))

/-- The announcement and every complete block of the stream, whatever becomes of
the `send`s. -/
def fullWire (m : MsgSize) (stream : Bytes) : Bytes :=
  htonl m.val ++ (blocks m.val (stream.drop 2)).flatten

/-- A client of a server that blocks: its `send`s wait until they have taken all,
and none fails while the client is there. -/
def blocking (stream : Bytes) : Peer UInt8 := ⟨stream, fun _ => some bufSize⟩

variable {sends : Nat → Option Nat} {j : Nat} {m : Bytes} {ms : List Bytes}

@[simp] theorem cutWire_nil (sends : Nat → Option Nat) (j : Nat) : cutWire sends j [] = [] := by
  simp [cutWire]

/-- The `send` of `m` took all of it. -/
theorem cutWire_full (ms : List Bytes) (h : ¬ outcome (sends j) m.length < m.length) :
    cutWire sends j (m :: ms) = m ++ cutWire sends (j + 1) ms ∧
      allowed (sends j) m.length = m.length := by
  rw [cutWire]
  cases hn : sends j with
  | none =>
    rw [hn] at h
    exact absurd h (by simp only [outcome]; omega)
  | some n =>
    rw [hn] at h
    have hle : m.length ≤ n := by
      simp only [outcome] at h
      omega
    exact ⟨if_pos hle, Nat.min_eq_right hle⟩

/-- The `send` of `m` failed or came up short. -/
theorem cutWire_short (h : outcome (sends j) m.length < m.length) :
    cutWire sends j (m :: ms) = m.take (allowed (sends j) m.length) := by
  rw [cutWire]
  cases hn : sends j with
  | none => rfl
  | some n =>
    rw [hn] at h
    have hlt : n < m.length := by
      simp only [outcome] at h
      omega
    rw [allowed, Nat.min_eq_left hlt.le]
    exact if_neg (Nat.not_le.mpr hlt)

/-- When every `send` takes all, all messages are on the wire. -/
theorem cutWire_all {n : Nat} (j : Nat) (h : ∀ m ∈ ms, m.length ≤ n) :
    cutWire (fun _ => some n) j ms = ms.flatten := by
  induction ms generalizing j with
  | nil => rfl
  | cons m ms ih =>
    have hfull : ¬ outcome (some n) m.length < m.length := by
      have := h m List.mem_cons_self
      simp only [outcome]
      omega
    obtain ⟨hhead, -⟩ := @cutWire_full (fun _ => some n) j m ms hfull
    rw [hhead, List.flatten_cons,
      ih (j + 1) fun m hm => h m (List.mem_cons_of_mem _ hm)]

theorem echoWire_blocking (m : MsgSize) (stream : Bytes) :
    echoWire m (blocking stream) = fullWire m stream := by
  have hle : ∀ b ∈ htonl m.val :: blocks m.val (stream.drop 2), b.length ≤ bufSize := by
    intro b hb
    rcases List.mem_cons.mp hb with rfl | hb
    · rw [length_htonl]
      decide
    · exact (length_le_of_mem_blocks hb).trans m.le_bufSize
  exact (cutWire_all 0 hle).trans List.flatten_cons

end EchoServer.Threaded
