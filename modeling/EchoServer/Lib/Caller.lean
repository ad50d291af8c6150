import EchoServer.Lib.Session

/-!
# A thread that makes one call at a time

A call that reads returns with what is there, at least a byte and at most what was
asked for, or with nothing at the end of the stream; a call that writes returns with
what the peer takes. A thread that reads a prefix of `h` bytes and then blocks of `n`
bytes, each by a single call, and gives up when a call comes up short, takes all blocks
of the stream exactly when no call comes up short that has a complete block before it.

Main results:

* `Caller.Within.step`, `Caller.Within.mem_read` — what is taken has arrived, and is in the
  buffer it was read into;
* `BlockReader.served_iff` — exactly which runs of such a thread take all blocks.
-/

namespace EchoServer.Lib

universe u v w

variable {κ : Type v} {β : Type u} {α : Type w}

/-- A thread, the call it is in (none once it has ended), and its connection: what of
the peer's stream has arrived and was taken, whether the end has, what is on the wire and
how many calls that write have returned. -/
structure Caller (κ : Type v) (β : Type u) (α : Type w) where
  pc : κ
  mem : β → List α
  req : Option (Req β)
  arrived : Nat
  fin : Bool
  taken : Nat
  wire : List α
  sent : Nat

inductive Call
  | arrive (k : Nat)
  | fin
  | read (k : Nat)
  | eof
  | write
  deriving DecidableEq, Repr

namespace Caller

/-- The thread runs from a call that has returned `n` into the next one. -/
def returns (P : Prog κ β α) (x : Caller κ β α) (n : Nat) : Caller κ β α :=
  let next := P.wake x.pc x.mem [(n : Int)]
  { x with pc := next.pc, mem := next.mem, req := next.reqs.head? }

/-- The same, when it is known what it does. -/
theorem returns_eq {P : Prog κ β α} {x : Caller κ β α} {n : Nat} {pc : κ} {mem : β → List α}
    {reqs : List (Req β)} (h : P.wake x.pc x.mem [(n : Int)] = ⟨pc, mem, reqs⟩) :
    x.returns P n = { x with pc := pc, mem := mem, req := reqs.head? } := by
  simp only [returns, h]

variable [DecidableEq β]

/-- `bs` come into the buffer `dst`. -/
def take (x : Caller κ β α) (dst : β) (bs : List α) : Caller κ β α :=
  { x with
    mem := Function.update x.mem dst (overwrite (x.mem dst) 0 bs)
    taken := x.taken + bs.length }

/-- `bs` go out. -/
def put (x : Caller κ β α) (bs : List α) : Caller κ β α :=
  { x with wire := x.wire ++ bs, sent := x.sent + 1 }

def step (P : Prog κ β α) (peer : Peer α) (x : Caller κ β α) : Call → Option (Caller κ β α)
  | .arrive k =>
    if 0 < k ∧ x.arrived + k ≤ peer.stream.length then some { x with arrived := x.arrived + k }
    else none
  | .fin =>
    if x.fin = false ∧ x.arrived = peer.stream.length then some { x with fin := true } else none
  | .read k =>
    match x.req with
    | some (.recv dst len) =>
      if 0 < k ∧ k ≤ len ∧ x.taken + k ≤ x.arrived then
        some ((x.take dst ((peer.stream.drop x.taken).take k)).returns P k)
      else none
    | _ => none
  | .eof =>
    match x.req with
    | some (.recv _ _) =>
      if x.fin = true ∧ x.taken = peer.stream.length then some (x.returns P 0) else none
    | _ => none
  | .write =>
    match x.req with
    | some (.send src len) =>
      let k := allowed (peer.sends x.sent) len
      some ((x.put ((x.mem src).take k)).returns P k)
    | _ => none

def machine (P : Prog κ β α) (peer : Peer α) : Machine (Caller κ β α) Call := ⟨step P peer⟩

/-- A thread in its first call, its connection just set up. -/
def start (t : Thread κ β α) : Caller κ β α :=
  ⟨t.pc, t.mem, t.flights.head?.map Flight.req, 0, false, 0, [], 0⟩

/-- Everything a step can be. -/
inductive Step (P : Prog κ β α) (peer : Peer α) (x : Caller κ β α) :
    Call → Caller κ β α → Prop
  | arrive (k : Nat) : x.arrived + k ≤ peer.stream.length →
      Step P peer x (.arrive k) { x with arrived := x.arrived + k }
  | fin : x.arrived = peer.stream.length → Step P peer x .fin { x with fin := true }
  | read (k len : Nat) (dst : β) : x.req = some (.recv dst len) → 0 < k → k ≤ len →
      x.taken + k ≤ x.arrived →
      Step P peer x (.read k) ((x.take dst ((peer.stream.drop x.taken).take k)).returns P k)
  | eof (len : Nat) (dst : β) : x.req = some (.recv dst len) → x.fin = true →
      x.taken = peer.stream.length → Step P peer x .eof (x.returns P 0)
  | write (len : Nat) (src : β) : x.req = some (.send src len) →
      Step P peer x .write ((x.put ((x.mem src).take (allowed (peer.sends x.sent) len))).returns P
        (allowed (peer.sends x.sent) len))

variable {P : Prog κ β α} {peer : Peer α} {x y : Caller κ β α} {c : Call}

theorem step_cases (h : step P peer x c = some y) : Step P peer x c y := by
  cases c with
  | arrive k =>
    obtain ⟨⟨-, hle⟩, heq⟩ := Option.ite_none_right_eq_some.mp h
    cases heq
    exact .arrive k hle
  | fin =>
    obtain ⟨⟨-, harrived⟩, heq⟩ := Option.ite_none_right_eq_some.mp h
    cases heq
    exact .fin harrived
  | read k =>
    cases hreq : x.req with
    | none => simp [step, hreq] at h
    | some r =>
      cases r with
      | send src len => simp [step, hreq] at h
      | recv dst len =>
        simp only [step, hreq] at h
        obtain ⟨⟨hpos, hlen, harrived⟩, heq⟩ := Option.ite_none_right_eq_some.mp h
        cases heq
        exact .read k len dst hreq hpos hlen harrived
  | eof =>
    cases hreq : x.req with
    | none => simp [step, hreq] at h
    | some r =>
      cases r with
      | send src len => simp [step, hreq] at h
      | recv dst len =>
        simp only [step, hreq] at h
        obtain ⟨⟨hfin, htaken⟩, heq⟩ := Option.ite_none_right_eq_some.mp h
        cases heq
        exact .eof len dst hreq hfin htaken
  | write =>
    cases hreq : x.req with
    | none => simp [step, hreq] at h
    | some r =>
      cases r with
      | recv dst len => simp [step, hreq] at h
      | send src len =>
        simp only [step, hreq, Option.some.injEq] at h
        subst h
        exact .write len src hreq

/-! ## The stream -/

/-- What has been taken has arrived, and what has arrived is of the stream. -/
structure Within (peer : Peer α) (x : Caller κ β α) : Prop where
  taken_le : x.taken ≤ x.arrived
  arrived_le : x.arrived ≤ peer.stream.length

omit [DecidableEq β] in
@[simp] theorem returns_taken (n : Nat) : (x.returns P n).taken = x.taken := rfl
omit [DecidableEq β] in
@[simp] theorem returns_arrived (n : Nat) : (x.returns P n).arrived = x.arrived := rfl
omit [DecidableEq β] in
@[simp] theorem returns_sent (n : Nat) : (x.returns P n).sent = x.sent := rfl
omit [DecidableEq β] in
@[simp] theorem returns_wire (n : Nat) : (x.returns P n).wire = x.wire := rfl

/-- A call that reads `k` bytes takes them from the stream. -/
theorem Within.taken_read (h : Within peer x) {k : Nat} (hk : x.taken + k ≤ x.arrived) (dst : β) :
    (x.take dst ((peer.stream.drop x.taken).take k)).taken = x.taken + k := by
  have := h.arrived_le
  have hlen : ((peer.stream.drop x.taken).take k).length = k := by
    rw [List.length_take, List.length_drop]
    omega
  rw [take, hlen]

/-- They are then at the beginning of the buffer. -/
theorem Within.mem_read (h : Within peer x) {k : Nat} (hk : x.taken + k ≤ x.arrived) {dst : β}
    (hroom : k ≤ (x.mem dst).length) :
    ((x.take dst ((peer.stream.drop x.taken).take k)).mem dst).take k =
        (peer.stream.drop x.taken).take k ∧
      ((x.take dst ((peer.stream.drop x.taken).take k)).mem dst).length = (x.mem dst).length := by
  have := h.arrived_le
  have hlen : ((peer.stream.drop x.taken).take k).length = k := by
    rw [List.length_take, List.length_drop]
    omega
  have hover := take_overwrite (x.mem dst) ((peer.stream.drop x.taken).take k) (i := 0)
    (Nat.zero_le _)
  rw [hlen, Nat.zero_add, List.take_zero, List.nil_append] at hover
  simp only [take, Function.update_self]
  exact ⟨hover, length_overwrite (by rw [hlen]; omega)⟩

theorem Within.step (h : Within peer x) (hstep : Step P peer x c y) : Within peer y := by
  cases hstep with
  | arrive k hle => exact ⟨Nat.le_trans h.taken_le (Nat.le_add_right _ _), hle⟩
  | read k len dst _ _ _ hk =>
    refine ⟨?_, h.arrived_le⟩
    rw [returns_taken, h.taken_read hk]
    exact hk
  | fin | eof | write => exact ⟨h.taken_le, h.arrived_le⟩

end Caller

/-! ## Reading block by block -/

/-- The complete blocks of `n` behind a prefix of `h`, among the first `l` elements. -/
def complete (h n l : Nat) : Nat := (l - h) / n

section
variable {h n l j p : Nat}

/-- A piece of the prefix or of a block makes none complete. -/
theorem complete_add_lt (hn : 0 < n) (hp : p < n) : complete h n (h + j * n + p) = j := by
  have hsub : h + j * n + p - h = p + j * n := by omega
  rw [complete, hsub, Nat.add_mul_div_right _ _ hn, Nat.div_eq_of_lt hp, Nat.zero_add]

theorem complete_of_lt (hl : l < h + n) : complete h n l = 0 := by
  rw [complete, Nat.div_eq_zero_iff]
  omega

end

variable [DecidableEq β]

/-- A thread that reads a prefix of `h` and then blocks of `n`, and whose calls that write
do not fail: a call that comes back full is followed by the next one, one that comes up
short is the last. -/
structure BlockReader (P : Prog κ β α) (peer : Peer α) (h n : Nat) (Inv : Caller κ β α → Prop) :
    Prop where
  pos : 0 < h ∧ 0 < n
  inv_step : ∀ x c y, Inv x → Caller.Step P peer x c y → Inv y
  within : ∀ x, Inv x → Caller.Within peer x
  reading : ∀ x dst len, Inv x → x.req = some (.recv dst len) →
    x.taken = 0 ∧ len = h ∨ ∃ j, x.taken = h + j * n ∧ len = n
  full : ∀ x y dst len, Inv x → x.req = some (.recv dst len) →
    Caller.Step P peer x (.read len) y → y.req ≠ none
  short : ∀ x c y dst len, Inv x → x.req = some (.recv dst len) → c = .eof ∨ (∃ k, c = .read k ∧ k < len) →
    Caller.Step P peer x c y → y.req = none
  write : ∀ x y, Inv x → Caller.Step P peer x .write y → y.req ≠ none

/-- No complete block is left when the thread has ended. -/
def Served (h n : Nat) (peer : Peer α) (x : Caller κ β α) : Prop :=
  x.req = none → complete h n peer.stream.length = complete h n x.taken

/-- All of the stream has arrived, and the thread has ended or is reading with nothing
there. -/
def Caller.Settled (peer : Peer α) (x : Caller κ β α) : Prop :=
  x.arrived = peer.stream.length ∧
    (x.req = none ∨ x.taken = peer.stream.length ∧ ∃ dst len, x.req = some (.recv dst len))

/-- A call does not come up short while a complete block is left. -/
def Unbroken (h n : Nat) (peer : Peer α) (x : Caller κ β α) : Call → Prop
  | .read k => ∀ dst len, x.req = some (.recv dst len) → k < len →
      complete h n peer.stream.length = complete h n x.taken
  | _ => True

instance (h n : Nat) (peer : Peer α) (x : Caller κ β α) : (c : Call) → Decidable (Unbroken h n peer x c)
  | .read k =>
    match hreq : x.req with
    | some (.recv dst len) =>
      decidable_of_iff (k < len → complete h n peer.stream.length = complete h n x.taken)
        ⟨fun hk dst' len' heq => by
          rw [hreq] at heq
          cases heq
          exact hk,
        fun hall => hall dst len hreq⟩
    | some (.send _ _) | none => isTrue fun _ _ heq => by
      rw [hreq] at heq
      cases heq
  | .arrive _ | .fin | .eof | .write => isTrue trivial

namespace BlockReader

variable {P : Prog κ β α} {peer : Peer α} {h n : Nat} {Inv : Caller κ β α → Prop}
  {x y : Caller κ β α} {c : Call}

/-- A call that comes up short completes no block. -/
theorem complete_short (hP : BlockReader P peer h n Inv) (hx : Inv x) {dst : β} {len k : Nat}
    (hreq : x.req = some (.recv dst len)) (hk : k < len) :
    complete h n (x.taken + k) = complete h n x.taken := by
  obtain ⟨hh, hn⟩ := hP.pos
  rcases hP.reading x dst len hx hreq with ⟨htaken, rfl⟩ | ⟨j, htaken, rfl⟩
  · rw [htaken, complete_of_lt (by omega), complete_of_lt (by omega)]
  · rw [htaken, complete_add_lt hn hk]
    exact (complete_add_lt hn hn).symm

/-- The step lemma: the thread goes on to take all blocks if and only if the call does not
come up short before a complete one. -/
theorem served_step (hP : BlockReader P peer h n Inv) (hx : Inv x)
    (hstep : Caller.Step P peer x c y) : Served h n peer y ↔ Served h n peer x ∧ Unbroken h n peer x c := by
  have hin : ∀ {r}, x.req = some r → Served h n peer x := fun hreq hnone => by
    rw [hreq] at hnone
    cases hnone
  cases hstep with
  | arrive | fin => exact (and_iff_left trivial).symm
  | read k len dst hreq hpos hle harrived =>
    have hread := @Caller.Step.read _ _ _ _ P peer x k len dst hreq hpos hle harrived
    rw [and_iff_right (hin hreq)]
    rcases Nat.lt_or_ge k len with hlt | hge
    · have hnone := hP.short x _ _ dst len hx hreq (Or.inr ⟨k, rfl, hlt⟩) hread
      have htaken := (hP.within x hx).taken_read harrived dst
      unfold Served Unbroken
      rw [Caller.returns_taken, htaken, hP.complete_short hx hreq hlt]
      refine ⟨fun hserved dst' len' hreq' _ => hserved hnone, fun hunbroken _ => ?_⟩
      exact hunbroken dst len hreq hlt
    · obtain rfl : k = len := Nat.le_antisymm hle hge
      have hsome := hP.full x _ dst k hx hreq hread
      refine iff_of_true (fun hnone => absurd hnone hsome) fun dst' len' hreq' hlt => ?_
      rw [hreq] at hreq'
      cases hreq'
      exact absurd hlt (Nat.lt_irrefl k)
  | eof len dst hreq hfin htaken =>
    refine iff_of_true (fun _ => ?_) ⟨hin hreq, trivial⟩
    rw [Caller.returns_taken, htaken]
  | write len src hreq =>
    have hsome := hP.write x _ hx (.write len src hreq)
    exact iff_of_true (fun hnone => absurd hnone hsome) ⟨hin hreq, trivial⟩

/-- **Exactly which runs take all blocks.** -/
theorem served_iff (hP : BlockReader P peer h n Inv) {cs : List Call} (hx : Inv x)
    (hin : x.req ≠ none) (hrun : (Caller.machine P peer).exec x cs = some y) :
    Served h n peer y ↔ (Caller.machine P peer).Along (Unbroken h n peer) x cs := by
  have hpres : (Caller.machine P peer).Preserves Inv :=
    fun x c y hx hstep => hP.inv_step x c y hx (Caller.step_cases hstep)
  have hlast := Machine.last_iff_along (P := Served h n peer) (C := Unbroken h n peer) hpres
    (fun x c y hx hstep => hP.served_step hx (Caller.step_cases hstep)) hx hrun
  have hserved : Served h n peer x := fun hnone => absurd hnone hin
  rwa [and_iff_right hserved] at hlast

/-- The same, for a run after which nothing is left to happen. -/
theorem complete_iff (hP : BlockReader P peer h n Inv) {cs : List Call} (hx : Inv x)
    (hin : x.req ≠ none) (hrun : (Caller.machine P peer).exec x cs = some y) (hend : y.Settled peer) :
    complete h n peer.stream.length = complete h n y.taken ↔
      (Caller.machine P peer).Along (Unbroken h n peer) x cs := by
  rw [← hP.served_iff hx hin hrun]
  refine ⟨fun heq _ => heq, fun hserved => ?_⟩
  rcases hend.2 with hnone | ⟨htaken, -⟩
  · exact hserved hnone
  · rw [htaken]

end BlockReader

end EchoServer.Lib
