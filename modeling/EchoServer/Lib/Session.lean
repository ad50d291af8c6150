import EchoServer.Lib.Machine
import EchoServer.Lib.Thread

/-!
# A thread serving one peer

The peer's byte stream is fixed in advance and ends with EOF; how it is cut into
pieces that arrive one after another is not, nor is the order in which the
requests of the thread make progress and complete. A `recv` is over when it has
its full length, or at EOF; the `k`-th `send` takes what `sends k` allows of its
bytes and fails when that is `none`.

Main results:

* `Calls.step` — the contract of an outstanding `send` and an outstanding `recv`
  holds whatever step is taken, until the thread wakes up;
* `Calls.ended` — when the thread wakes up, the results say what was moved;
* `inevitably_of_calls` — a thread whose calls are bounded in number comes to an
  end, whatever the order of steps;
* `inevitably_mapPc` — two programs that do the same come to the same.
-/

namespace EchoServer.Lib

universe u v w

variable {κ : Type v} {β : Type u} {α : Type w}

/-- What is given of the far end: all it sends before EOF, and what becomes of
each `send`. -/
structure Peer (α : Type w) where
  stream : List α
  sends : Nat → Option Nat

/-- The bytes a `send` of `len` takes. -/
def allowed (out : Option Nat) (len : Nat) : Nat :=
  match out with
  | none => 0
  | some n => min n len

/-- The result of a `send` of `len`. -/
def outcome (out : Option Nat) (len : Nat) : Int :=
  match out with
  | none => -1
  | some n => (min n len : Nat)

theorem allowed_le (out : Option Nat) (len : Nat) : allowed out len ≤ len := by
  unfold allowed
  split
  · exact Nat.zero_le len
  · exact Nat.min_le_right _ _

theorem outcome_le (out : Option Nat) (len : Nat) : outcome out len ≤ len := by
  unfold outcome
  split
  · omega
  · exact Int.ofNat_le.mpr (Nat.min_le_right _ _)

/-- A `send` that does not come up short takes all. -/
theorem allowed_of_outcome {out : Option Nat} {len : Nat} (h : ¬ outcome out len < len) :
    allowed out len = len := by
  unfold outcome at h
  unfold allowed
  split at h
  · exact absurd h (by omega)
  · exact Nat.min_eq_right (by omega)

/-- One that comes up short does not. -/
theorem allowed_lt_of_outcome {out : Option Nat} {len : Nat} (hlen : 0 < len)
    (h : outcome out len < len) : allowed out len < len := by
  unfold outcome at h
  unfold allowed
  split at h
  · exact hlen
  · exact Int.ofNat_lt.mp h

/-- A thread, what of the stream has arrived and has been taken, whether the
peer's FIN has, and what is on the wire. -/
structure Session (κ : Type v) (β : Type u) (α : Type w) where
  thread : Thread κ β α
  arrived : Nat
  fin : Bool
  taken : Nat
  wire : List α
  sent : Nat

inductive Event
  | arrive (k : Nat)
  | fin
  | move (i k : Nat)
  | done (i : Nat)
  | wake
  deriving DecidableEq, Repr

namespace Session

variable [DecidableEq β]

def step (P : Prog κ β α) (peer : Peer α) (x : Session κ β α) :
    Event → Option (Session κ β α)
  | .arrive k =>
    if 0 < k ∧ x.arrived + k ≤ peer.stream.length then some { x with arrived := x.arrived + k }
    else none
  | .fin =>
    if x.fin = false ∧ x.arrived = peer.stream.length then some { x with fin := true } else none
  | .move i k =>
    match x.thread.flights[i]? with
    | some ⟨.recv dst len, p⟩ =>
      if 0 < k ∧ p + k ≤ len ∧ x.taken + k ≤ x.arrived then
        some { x with
          thread := x.thread.fill i dst p ((peer.stream.drop x.taken).take k)
          taken := x.taken + k }
      else none
    | some ⟨.send src len, p⟩ =>
      if 0 < k ∧ p + k ≤ allowed (peer.sends x.sent) len then
        some { x with
          thread := x.thread.advance i k
          wire := x.wire ++ ((x.thread.mem src).drop p).take k }
      else none
    | none => none
  | .done i =>
    match x.thread.flights[i]? with
    | some ⟨.recv _ len, p⟩ =>
      if p = len ∨ (x.fin = true ∧ x.taken = peer.stream.length) then
        some { x with thread := x.thread.finish i p }
      else none
    | some ⟨.send _ len, p⟩ =>
      if p = allowed (peer.sends x.sent) len then
        some { x with
          thread := x.thread.finish i (outcome (peer.sends x.sent) len)
          sent := x.sent + 1 }
      else none
    | none => none
  | .wake => if x.thread.ready P then some { x with thread := x.thread.run P } else none

def machine (P : Prog κ β α) (peer : Peer α) : Machine (Session κ β α) Event := ⟨step P peer⟩

/-- A session as the connection is set up. -/
def start (thread : Thread κ β α) : Session κ β α := ⟨thread, 0, false, 0, [], 0⟩

/-- Everything an enabled step can be. -/
inductive Step (P : Prog κ β α) (peer : Peer α) (x : Session κ β α) :
    Event → Session κ β α → Prop
  | arrive (k : Nat) : 0 < k → x.arrived + k ≤ peer.stream.length →
      Step P peer x (.arrive k) { x with arrived := x.arrived + k }
  | fin : x.fin = false → x.arrived = peer.stream.length →
      Step P peer x .fin { x with fin := true }
  | moveIn (i k p len : Nat) (dst : β) : x.thread.flights[i]? = some ⟨.recv dst len, p⟩ → 0 < k →
      p + k ≤ len → x.taken + k ≤ x.arrived →
      Step P peer x (.move i k) { x with
        thread := x.thread.fill i dst p ((peer.stream.drop x.taken).take k)
        taken := x.taken + k }
  | moveOut (i k p len : Nat) (src : β) : x.thread.flights[i]? = some ⟨.send src len, p⟩ →
      0 < k → p + k ≤ allowed (peer.sends x.sent) len →
      Step P peer x (.move i k) { x with
        thread := x.thread.advance i k
        wire := x.wire ++ ((x.thread.mem src).drop p).take k }
  | received (i p len : Nat) (dst : β) : x.thread.flights[i]? = some ⟨.recv dst len, p⟩ →
      (p = len ∨ (x.fin = true ∧ x.taken = peer.stream.length)) →
      Step P peer x (.done i) { x with thread := x.thread.finish i p }
  | wasSent (i len : Nat) (src : β) :
      x.thread.flights[i]? = some ⟨.send src len, allowed (peer.sends x.sent) len⟩ →
      Step P peer x (.done i) { x with
        thread := x.thread.finish i (outcome (peer.sends x.sent) len)
        sent := x.sent + 1 }
  | wake : x.thread.ready P = true → Step P peer x .wake { x with thread := x.thread.run P }

theorem step_cases {P : Prog κ β α} {peer : Peer α} {x y : Session κ β α} {e : Event}
    (h : step P peer x e = some y) : Step P peer x e y := by
  cases e with
  | arrive k =>
    simp only [step] at h
    split at h
    · rename_i hg
      cases h
      exact .arrive k hg.1 hg.2
    · cases h
  | fin =>
    simp only [step] at h
    split at h
    · rename_i hg
      cases h
      exact .fin hg.1 hg.2
    · cases h
  | move i k =>
    simp only [step] at h
    split at h
    · rename_i dst len p hf
      split at h
      · rename_i hg
        cases h
        exact .moveIn i k p len dst hf hg.1 hg.2.1 hg.2.2
      · cases h
    · rename_i src len p hf
      split at h
      · rename_i hg
        cases h
        exact .moveOut i k p len src hf hg.1 hg.2
      · cases h
    · cases h
  | done i =>
    simp only [step] at h
    split at h
    · rename_i dst len p hf
      split at h
      · rename_i hg
        cases h
        exact .received i p len dst hf hg
      · cases h
    · rename_i src len p hf
      split at h
      · rename_i hg
        cases h
        subst hg
        exact .wasSent i len src hf
      · cases h
    · cases h
  | wake =>
    simp only [step] at h
    split at h
    · rename_i hg
      cases h
      exact .wake hg
    · cases h

/-! ## The network's part -/

/-- What has been taken has arrived, and what has arrived is of the stream. -/
structure Wire (peer : Peer α) (x : Session κ β α) : Prop where
  taken_le : x.taken ≤ x.arrived
  arrived_le : x.arrived ≤ peer.stream.length
  fin_arrived : x.fin = true → x.arrived = peer.stream.length

theorem Wire.step {P : Prog κ β α} {peer : Peer α} {x y : Session κ β α} {e : Event}
    (h : Wire peer x) (hstep : Step P peer x e y) : Wire peer y := by
  cases hstep with
  | arrive k hk hle =>
    refine ⟨Nat.le_trans h.taken_le (Nat.le_add_right _ _), hle, fun hfin => ?_⟩
    have := h.fin_arrived hfin
    simp only
    omega
  | fin _ harr => exact ⟨h.taken_le, h.arrived_le, fun _ => harr⟩
  | moveIn i k p len dst _ _ _ hle => exact ⟨hle, h.arrived_le, h.fin_arrived⟩
  | moveOut | received | wasSent | wake => exact ⟨h.taken_le, h.arrived_le, h.fin_arrived⟩

/-! ## Outstanding calls -/

/-- The `send` outstanding, if any, as a request in flight or as a result: `w`
was on the wire and `k` sends were over when it was issued. -/
inductive SendSide (peer : Peer α) (x : Session κ β α) (w : List α) (k : Nat) :
    Option (β × Nat) → List (Flight β) → List Int → Prop
  | none : x.wire = w → x.sent = k → SendSide peer x w k none [] []
  | moving (src : β) (len p : Nat) : p ≤ allowed (peer.sends k) len →
      x.wire = w ++ (x.thread.mem src).take p → x.sent = k →
      SendSide peer x w k (some (src, len)) [⟨.send src len, p⟩] []
  | ended (src : β) (len : Nat) :
      x.wire = w ++ (x.thread.mem src).take (allowed (peer.sends k) len) → x.sent = k + 1 →
      SendSide peer x w k (some (src, len)) [] [outcome (peer.sends k) len]

/-- The `recv` outstanding, if any: `base` bytes of the stream were taken when it
was issued. -/
inductive RecvSide (peer : Peer α) (x : Session κ β α) (base : Nat) :
    Option (β × Nat) → List (Flight β) → List Int → Prop
  | none : x.taken = base → RecvSide peer x base none [] []
  | moving (dst : β) (len p : Nat) : p ≤ len → x.taken = base + p →
      (x.thread.mem dst).take p = (peer.stream.drop base).take p →
      RecvSide peer x base (some (dst, len)) [⟨.recv dst len, p⟩] []
  | ended (dst : β) (len n : Nat) : n = min len (peer.stream.length - base) → x.taken = base + n →
      (x.thread.mem dst).take n = (peer.stream.drop base).take n →
      RecvSide peer x base (some (dst, len)) [] [(n : Int)]

/-- The calls a thread has outstanding, by buffer and length. -/
structure Calls (peer : Peer α) (x : Session κ β α) (w : List α) (k base : Nat)
    (send recv : Option (β × Nat)) : Prop where
  sides : ∃ sf sr rf rr, SendSide peer x w k send sf sr ∧ RecvSide peer x base recv rf rr ∧
    x.thread.flights = sf ++ rf ∧ x.thread.pending.Perm (sr ++ rr)
  seen_le : x.thread.seen ≤ x.thread.results.length
  separate : ∀ src len dst len', send = some (src, len) → recv = some (dst, len') → src ≠ dst
  room : ∀ dst len, recv = some (dst, len) → len ≤ (x.thread.mem dst).length

/-- What a step that does not wake the thread leaves of it. -/
structure Asleep (x y : Session κ β α) (recv : Option (β × Nat)) : Prop where
  pc : y.thread.pc = x.thread.pc
  seen : y.thread.seen = x.thread.seen
  mem : ∀ b, (∀ len, recv ≠ some (b, len)) → y.thread.mem b = x.thread.mem b
  length : ∀ b, (y.thread.mem b).length = (x.thread.mem b).length

section Calls

variable {peer : Peer α} {x y : Session κ β α} {w : List α} {k base : Nat}
  {send recv : Option (β × Nat)} {sf rf : List (Flight β)} {sr rr : List Int}

omit [DecidableEq β] in
theorem SendSide.length_add (h : SendSide peer x w k send sf sr) :
    sf.length + sr.length = send.toList.length := by
  cases h <;> rfl

omit [DecidableEq β] in
theorem RecvSide.length_add (h : RecvSide peer x base recv rf rr) :
    rf.length + rr.length = recv.toList.length := by
  cases h <;> rfl

omit [DecidableEq β] in
/-- A `send` in flight is the first of the requests. -/
theorem SendSide.index {i p len : Nat} {src : β} (hs : SendSide peer x w k send sf sr)
    (hr : RecvSide peer x base recv rf rr) (hf : (sf ++ rf)[i]? = some ⟨.send src len, p⟩) :
    i = 0 ∧ sf = [⟨.send src len, p⟩] := by
  cases hs with
  | none | ended =>
    cases hr with
    | none | ended => simp at hf
    | moving => cases i <;> simp at hf
  | moving =>
    cases i with
    | zero => exact ⟨rfl, by simpa using hf⟩
    | succ i =>
      cases hr with
      | none | ended => simp at hf
      | moving => cases i <;> simp at hf

omit [DecidableEq β] in
/-- A `recv` in flight is the last of them. -/
theorem RecvSide.index {i p len : Nat} {dst : β} (hs : SendSide peer x w k send sf sr)
    (hr : RecvSide peer x base recv rf rr) (hf : (sf ++ rf)[i]? = some ⟨.recv dst len, p⟩) :
    i = sf.length ∧ rf = [⟨.recv dst len, p⟩] := by
  cases hs with
  | none | ended =>
    cases hr with
    | none | ended => simp at hf
    | moving =>
      cases i with
      | zero => exact ⟨rfl, by simpa using hf⟩
      | succ i => simp at hf
  | moving =>
    cases i with
    | zero => simp at hf
    | succ i =>
      cases hr with
      | none | ended => simp at hf
      | moving =>
        cases i with
        | zero => exact ⟨rfl, by simpa using hf⟩
        | succ i => simp at hf

omit [DecidableEq β] in
theorem SendSide.congr (h : SendSide peer x w k send sf sr) (hwire : y.wire = x.wire)
    (hsent : y.sent = x.sent)
    (hmem : ∀ src len, send = some (src, len) → y.thread.mem src = x.thread.mem src) :
    SendSide peer y w k send sf sr := by
  cases h with
  | none hw hk => exact .none (hwire.trans hw) (hsent.trans hk)
  | moving src len p hp hw hk =>
    exact .moving src len p hp (by rw [hwire, hw, hmem src len rfl]) (hsent.trans hk)
  | ended src len hw hk =>
    exact .ended src len (by rw [hwire, hw, hmem src len rfl]) (hsent.trans hk)

omit [DecidableEq β] in
theorem RecvSide.congr (h : RecvSide peer x base recv rf rr) (htaken : y.taken = x.taken)
    (hmem : y.thread.mem = x.thread.mem) : RecvSide peer y base recv rf rr := by
  cases h with
  | none ht => exact .none (htaken.trans ht)
  | moving dst len p hp ht hm => exact .moving dst len p hp (htaken.trans ht) (by rw [hmem, hm])
  | ended dst len n hn ht hm => exact .ended dst len n hn (htaken.trans ht) (by rw [hmem, hm])

/-- The `recv` in flight takes bytes that have arrived. -/
theorem Calls.fill {i n p len : Nat} {dst : β} (h : Calls peer x w k base send recv)
    (hw : Wire peer x) (hf : x.thread.flights[i]? = some ⟨.recv dst len, p⟩) (hlen : p + n ≤ len)
    (harr : x.taken + n ≤ x.arrived)
    (hy : y = { x with
      thread := x.thread.fill i dst p ((peer.stream.drop x.taken).take n)
      taken := x.taken + n }) :
    Calls peer y w k base send recv ∧ Asleep x y recv := by
  obtain ⟨⟨sf, sr, rf, rr, hs, hr, hflights, hpend⟩, hseen, hsep, hroom⟩ := h
  rw [hflights] at hf
  obtain ⟨rfl, rfl⟩ := hr.index hs hf
  subst hy
  cases hr with
  | moving _ _ _ hp ht hm =>
    have hlength : ((peer.stream.drop x.taken).take n).length = n := by
      have := hw.arrived_le
      rw [List.length_take, List.length_drop]
      omega
    have hdst := hroom dst len rfl
    refine ⟨⟨⟨sf, sr, [⟨.recv dst len, p + n⟩], [], ?_, ?_, ?_, hpend⟩, hseen, hsep, ?_⟩,
      rfl, rfl, ?_, ?_⟩
    · refine hs.congr rfl rfl fun src len' hsrc => ?_
      exact Thread.fill_mem_of_ne (hsep src len' dst len hsrc rfl)
    · -- the bytes that came in are the next ones of the stream
      refine .moving dst len (p + n) hlen (by simp only; omega) ?_
      simp only [Thread.fill_mem_self]
      have htake := take_overwrite (x.thread.mem dst) ((peer.stream.drop x.taken).take n) (i := p)
        (by omega)
      rw [hlength, hm, ht, ← List.drop_drop, ← List.take_add] at htake
      rw [ht, ← List.drop_drop]
      exact htake
    · simp only [Thread.fill, Thread.advance, hflights, hlength]
      cases hs <;> rfl
    · intro dst' len' heq
      obtain ⟨rfl, rfl⟩ := Prod.mk.inj (Option.some.inj heq)
      simp only [Thread.fill_mem_self]
      rw [length_overwrite (by omega)]
      exact hdst
    · intro b hb
      exact Thread.fill_mem_of_ne fun heq => hb len (by rw [heq])
    · intro b
      by_cases hbd : b = dst
      · subst hbd
        simp only [Thread.fill_mem_self]
        rw [length_overwrite (by omega)]
      · simp only [Thread.fill_mem_of_ne hbd]

/-- The contract of the outstanding calls holds whatever step is taken. -/
theorem Calls.step {P : Prog κ β α} {e : Event} (h : Calls peer x w k base send recv)
    (hw : Wire peer x) (hstep : Step P peer x e y) (he : e ≠ .wake) :
    Calls peer y w k base send recv ∧ Asleep x y recv := by
  obtain ⟨⟨sf, sr, rf, rr, hs, hr, hflights, hpend⟩, hseen, hsep, hroom⟩ := id h
  cases hstep with
  | arrive n _ _ =>
    exact ⟨⟨⟨sf, sr, rf, rr, hs.congr rfl rfl fun _ _ _ => rfl, hr.congr rfl rfl, hflights, hpend⟩,
      hseen, hsep, hroom⟩, rfl, rfl, fun _ _ => rfl, fun _ => rfl⟩
  | fin =>
    exact ⟨⟨⟨sf, sr, rf, rr, hs.congr rfl rfl fun _ _ _ => rfl, hr.congr rfl rfl, hflights, hpend⟩,
      hseen, hsep, hroom⟩, rfl, rfl, fun _ _ => rfl, fun _ => rfl⟩
  | moveIn i n p len dst hf _ hlen harr => exact h.fill hw hf hlen harr rfl
  | moveOut i n p len src hf hn hlen =>
    rw [hflights] at hf
    obtain ⟨rfl, rfl⟩ := hs.index hr hf
    cases hs with
    | moving _ _ _ hp hwire hsent =>
      refine ⟨⟨⟨[⟨.send src len, p + n⟩], [], rf, rr, ?_, hr.congr rfl rfl, ?_, hpend⟩, hseen, hsep,
        hroom⟩, rfl, rfl, fun _ _ => rfl, fun _ => rfl⟩
      · rw [hsent] at hlen
        refine .moving src len (p + n) hlen ?_ hsent
        simp only [Thread.advance]
        rw [hwire, List.append_assoc, ← List.take_add]
      · simp only [Thread.advance, hflights]
        rfl
  | received i p len dst hf hp =>
    rw [hflights] at hf
    obtain ⟨rfl, rfl⟩ := hr.index hs hf
    cases hr with
    | moving _ _ _ hple ht hm =>
      refine ⟨⟨⟨sf, sr, [], [(p : Int)], hs.congr rfl rfl fun _ _ _ => rfl,
        .ended dst len p ?_ ht hm, ?_, ?_⟩, ?_, hsep, hroom⟩, rfl, rfl, fun _ _ => rfl, fun _ => rfl⟩
      · have := hw.taken_le
        have := hw.arrived_le
        omega
      · simp only [Thread.finish, hflights]
        cases hs <;> rfl
      · simp only [Thread.pending_finish hseen]
        exact (hpend.append_right [(p : Int)]).trans (by simp)
      · simp only [Thread.finish, List.length_append]
        omega
  | wasSent i len src hf =>
    rw [hflights] at hf
    obtain ⟨rfl, rfl⟩ := hs.index hr hf
    cases hs with
    | moving _ _ _ hp hwire hsent =>
      rw [hsent] at hwire ⊢
      refine ⟨⟨⟨[], [outcome (peer.sends k) len], rf, rr, .ended src len hwire rfl,
        hr.congr rfl rfl, ?_, ?_⟩, ?_, hsep, hroom⟩, rfl, rfl, fun _ _ => rfl, fun _ => rfl⟩
      · simp only [Thread.finish, hflights]
        rfl
      · simp only [Thread.pending_finish hseen]
        exact (hpend.append_right _).trans (List.perm_append_singleton _ _)
      · simp only [Thread.finish, List.length_append]
        omega
  | wake => exact absurd rfl he

omit [DecidableEq β] in
/-- The stream was taken up to `base` before. -/
theorem Calls.base_le (h : Calls peer x w k base send recv) : base ≤ x.taken := by
  obtain ⟨sf, sr, rf, rr, -, hr, -⟩ := h.sides
  cases hr with
  | none ht => exact Nat.le_of_eq ht.symm
  | moving _ _ _ _ ht | ended _ _ _ _ ht => rw [ht]; exact Nat.le_add_right _ _

/-- The requests that a thread issues for its calls. -/
def reqsOf (send recv : Option (β × Nat)) : List (Req β) :=
  (send.toList.map fun c => .send c.1 c.2) ++ recv.toList.map fun c => .recv c.1 c.2

omit [DecidableEq β] in
/-- Once as many results are in as calls are outstanding, all of them are over. -/
theorem Calls.ended (h : Calls peer x w k base send recv)
    (hle : send.toList.length + recv.toList.length ≤ x.thread.pending.length) :
    ∃ sr rr, SendSide peer x w k send [] sr ∧ RecvSide peer x base recv [] rr ∧
      x.thread.flights = [] ∧ x.thread.pending.Perm (sr ++ rr) := by
  obtain ⟨sf, sr, rf, rr, hs, hr, hflights, hpend⟩ := h.sides
  have hlen := hpend.length_eq
  have hsl := hs.length_add
  have hrl := hr.length_add
  rw [List.length_append] at hlen
  obtain rfl : sf = [] := List.length_eq_zero_iff.mp (by omega)
  obtain rfl : rf = [] := List.length_eq_zero_iff.mp (by omega)
  exact ⟨sr, rr, hs, hr, hflights, hpend⟩

omit [DecidableEq β] in
theorem Calls.length_add (h : Calls peer x w k base send recv) :
    x.thread.flights.length + x.thread.pending.length = send.toList.length + recv.toList.length := by
  obtain ⟨sf, sr, rf, rr, hs, hr, hflights, hpend⟩ := h.sides
  have hsl := hs.length_add
  have hrl := hr.length_add
  rw [hflights, hpend.length_eq, List.length_append, List.length_append]
  omega

omit [DecidableEq β] in
/-- The thread wakes up with all its calls over, and issues the next ones. -/
theorem Calls.run {P : Prog κ β α} {next : Wake κ β α} {w' : List α} {k' base' : Nat}
    (send' recv' : Option (β × Nat)) (h : Calls peer x w k base send recv)
    (hready : x.thread.ready P = true)
    (hwant : P.want x.thread.pc = send.toList.length + recv.toList.length)
    (hnext : P.wake x.thread.pc x.thread.mem x.thread.pending = next)
    (hreqs : next.reqs = reqsOf send' recv')
    (hsep : ∀ src len dst len', send' = some (src, len) → recv' = some (dst, len') → src ≠ dst)
    (hroom : ∀ dst len, recv' = some (dst, len) → len ≤ (next.mem dst).length)
    (hw : x.wire = w') (hk : x.sent = k') (hb : x.taken = base') :
    Calls peer { x with thread := x.thread.run P } w' k' base' send' recv' := by
  have hle := (Thread.ready_iff.mp hready).2
  obtain ⟨-, -, -, -, hflights, -⟩ := h.ended (by omega)
  have hlen : x.thread.results.length - x.thread.seen = P.want x.thread.pc := by
    have := h.length_add
    rw [hflights, Thread.pending, List.length_drop, List.length_nil] at this
    omega
  have hseen := h.seen_le
  have hnil : (x.thread.run P).pending = [] := by
    simp only [Thread.pending, Thread.run]
    exact List.drop_eq_nil_of_le (by omega)
  have hnew : (x.thread.run P).flights = (reqsOf send' recv').map fun r => ⟨r, 0⟩ := by
    simp only [Thread.run, hflights, hnext, hreqs, List.nil_append]
  have hmem : (x.thread.run P).mem = next.mem := congrArg Wake.mem hnext
  refine ⟨?_, ?_, hsep, fun dst len h => ?_⟩
  · simp only [hnil, hnew]
    cases send' with
    | none =>
      cases recv' with
      | none => exact ⟨[], [], [], [], .none hw hk, .none hb, rfl, .refl _⟩
      | some d =>
        exact ⟨[], [], _, [], .none hw hk, .moving d.1 d.2 0 (Nat.zero_le _) hb rfl, rfl, .refl _⟩
    | some c =>
      have hmoving : SendSide peer { x with thread := x.thread.run P } w' k' (some c)
          [⟨.send c.1 c.2, 0⟩] [] := .moving c.1 c.2 0 (Nat.zero_le _) (by simp [hw]) hk
      cases recv' with
      | none => exact ⟨_, [], [], [], hmoving, .none hb, rfl, .refl _⟩
      | some d =>
        exact ⟨_, [], _, [], hmoving, .moving d.1 d.2 0 (Nat.zero_le _) hb rfl, rfl, .refl _⟩
  · simp only [Thread.run]
    omega
  · simp only [hmem]
    exact hroom dst len h

omit [DecidableEq β] in
/-- A thread that waited for its `send` alone. -/
theorem Calls.sendOver {src : β} {len : Nat} (h : Calls peer x w k base (some (src, len)) none)
    (hle : 1 ≤ x.thread.pending.length) :
    x.thread.flights = [] ∧ x.thread.pending = [outcome (peer.sends k) len] ∧
      x.wire = w ++ (x.thread.mem src).take (allowed (peer.sends k) len) ∧ x.sent = k + 1 ∧
      x.taken = base := by
  obtain ⟨sr, rr, hs, hr, hflights, hpend⟩ := h.ended hle
  cases hs with
  | ended _ _ hwire hsent =>
    cases hr with
    | none htaken => exact ⟨hflights, List.perm_singleton.mp hpend, hwire, hsent, htaken⟩

omit [DecidableEq β] in
/-- A thread that waited for its `recv` alone. -/
theorem Calls.recvOver {dst : β} {len : Nat} (h : Calls peer x w k base none (some (dst, len)))
    (hle : 1 ≤ x.thread.pending.length) :
    ∃ n, n = min len (peer.stream.length - base) ∧ x.thread.flights = [] ∧
      x.thread.pending = [(n : Int)] ∧ x.wire = w ∧ x.sent = k ∧ x.taken = base + n ∧
      (x.thread.mem dst).take n = (peer.stream.drop base).take n := by
  obtain ⟨sr, rr, hs, hr, hflights, hpend⟩ := h.ended hle
  cases hs with
  | none hwire hsent =>
    cases hr with
    | ended _ _ n hn htaken hmem =>
      exact ⟨n, hn, hflights, List.perm_singleton.mp hpend, hwire, hsent, htaken, hmem⟩

omit [DecidableEq β] in
/-- A thread that waited for a `send` and a `recv`: the results are theirs, in
the order in which they completed. -/
theorem Calls.bothOver {src dst : β} {len len' : Nat}
    (h : Calls peer x w k base (some (src, len)) (some (dst, len')))
    (hle : 2 ≤ x.thread.pending.length) :
    ∃ n, n = min len' (peer.stream.length - base) ∧ x.thread.flights = [] ∧
      x.thread.pending.Perm [outcome (peer.sends k) len, (n : Int)] ∧
      x.wire = w ++ (x.thread.mem src).take (allowed (peer.sends k) len) ∧ x.sent = k + 1 ∧
      x.taken = base + n ∧ (x.thread.mem dst).take n = (peer.stream.drop base).take n := by
  obtain ⟨sr, rr, hs, hr, hflights, hpend⟩ := h.ended hle
  cases hs with
  | ended _ _ hwire hsent =>
    cases hr with
    | ended _ _ n hn htaken hmem => exact ⟨n, hn, hflights, hpend, hwire, hsent, htaken, hmem⟩

/-! ## Coming to an end -/

/-- A thread is making calls: what it waits for are their results. -/
structure Calling (P : Prog κ β α) (peer : Peer α) (L B : Nat) (x : Session κ β α) : Prop where
  calls : ∃ w k base send recv, Calls peer x w k base send recv ∧
    P.want x.thread.pc = send.toList.length + recv.toList.length ∧
    ∀ c ∈ send.toList ++ recv.toList, c.2 ≤ L
  bounded : x.thread.seen + P.want x.thread.pc ≤ B

omit [DecidableEq β] in
theorem Calling.unmoved_le {P : Prog κ β α} {L B : Nat} (h : Calling P peer L B x) :
    unmoved x.thread.flights ≤ 2 * L := by
  obtain ⟨w, k, base, send, recv, hc, -, hlen⟩ := h.calls
  obtain ⟨sf, sr, rf, rr, hs, hr, hflights, -⟩ := hc.sides
  rw [hflights]
  have hsend : unmoved sf ≤ L := by
    cases hs with
    | none | ended => exact Nat.zero_le L
    | moving src len p =>
      have := hlen (src, len) (by simp)
      simp only [unmoved_cons, unmoved_nil, Req.len]
      omega
  have hrecv : unmoved rf ≤ L := by
    cases hr with
    | none | ended => exact Nat.zero_le L
    | moving dst len p =>
      have := hlen (dst, len) (by simp)
      simp only [unmoved_cons, unmoved_nil, Req.len]
      omega
  have happend : unmoved (sf ++ rf) = unmoved sf + unmoved rf := by
    simp [unmoved, List.map_append, List.sum_append]
  omega

/-- The steps left: what is to arrive, to be moved, to be consumed, to be posted. -/
def measure (peer : Peer α) (L B : Nat) (x : Session κ β α) : Nat :=
  (peer.stream.length - x.arrived) + (if x.fin then 0 else 1) + unmoved x.thread.flights +
    (2 * L + 1) * x.thread.pending.length + (2 * L + 2) * (B - x.thread.results.length)

omit [DecidableEq β] in
/-- A step posts one more result, which was still allowed for. -/
theorem measure_finish {P : Prog κ β α} {L B i sent : Nat} {n : Int} {f : Flight β}
    (h : Calling P peer L B x) (hf : x.thread.flights[i]? = some f) :
    measure peer L B { x with thread := x.thread.finish i n, sent := sent } <
      measure peer L B x := by
  obtain ⟨w, k, base, send, recv, hc, hwant, -⟩ := h.calls
  have hlen := hc.length_add
  have hseen := hc.seen_le
  have hbound := h.bounded
  have hpos : 0 < x.thread.flights.length := by
    have := (List.getElem?_eq_some_iff.mp hf).1
    omega
  have hpend : x.thread.pending.length = x.thread.results.length - x.thread.seen :=
    List.length_drop
  have herase := unmoved_eraseIdx x.thread.flights i
  simp only [measure, Thread.pending_finish hseen]
  simp only [Thread.finish, List.length_append, List.length_singleton]
  obtain ⟨b, hb⟩ : ∃ b, B - x.thread.results.length = b + 1 :=
    ⟨B - x.thread.results.length - 1, by omega⟩
  have hb' : B - (x.thread.results.length + 1) = b := by omega
  rw [hb, hb', Nat.mul_succ, Nat.mul_succ]
  omega

/-- While a `recv` is not full, a byte can be taken, or one can arrive, or the stream
ends. -/
theorem enabled_of_recv {P : Prog κ β α} {dst : β} {len p : Nat} {fs : List (Flight β)}
    (h : Wire peer x) (hflights : x.thread.flights = ⟨.recv dst len, p⟩ :: fs) (hlt : p < len) :
    ∃ e y, (machine P peer).step x e = some y := by
  rcases Nat.lt_or_eq_of_le h.taken_le with harr | harr
  · refine ⟨.move 0 1, Option.isSome_iff_exists.mp ?_⟩
    simp [machine, step, hflights, Nat.succ_le_of_lt hlt, Nat.succ_le_of_lt harr]
  · rcases Nat.lt_or_eq_of_le h.arrived_le with hmore | hall
    · refine ⟨.arrive 1, Option.isSome_iff_exists.mp ?_⟩
      simp [machine, step, Nat.succ_le_of_lt hmore]
    · cases hfin : x.fin with
      | false =>
        refine ⟨.fin, Option.isSome_iff_exists.mp ?_⟩
        simp [machine, step, hfin, hall]
      | true =>
        refine ⟨.done 0, Option.isSome_iff_exists.mp ?_⟩
        simp [machine, step, hflights, hfin, harr, hall]

/-- A thread that is making calls can be woken, or one of its calls or the network can
go on. -/
theorem Calling.enabled {P : Prog κ β α} {L B : Nat} (h : Calling P peer L B x) (hw : Wire peer x)
    (hpos : 0 < P.want x.thread.pc) : ∃ e y, (machine P peer).step x e = some y := by
  obtain ⟨w, k, base, send, recv, hc, hwant, -⟩ := h.calls
  have hlen := hc.length_add
  by_cases hready : P.want x.thread.pc ≤ x.thread.pending.length
  · refine ⟨.wake, Option.isSome_iff_exists.mp ?_⟩
    simp [machine, step, Thread.ready, hpos, hready]
  · -- the first request in flight can go on
    obtain ⟨sf, sr, rf, rr, hsd, hrd, hflights, -⟩ := hc.sides
    cases hsd with
    | moving src len p hp hwire hk =>
      rw [← hk] at hp
      rcases Nat.lt_or_eq_of_le hp with hlt | heq
      · refine ⟨.move 0 1, Option.isSome_iff_exists.mp ?_⟩
        simp [machine, step, hflights, Nat.succ_le_of_lt hlt]
      · refine ⟨.done 0, Option.isSome_iff_exists.mp ?_⟩
        simp [machine, step, hflights, heq]
    | none | ended =>
      cases hrd with
      | none | ended =>
        rw [hflights] at hlen
        simp only [List.append_nil, List.length_nil] at hlen
        omega
      | moving dst len p hp =>
        rcases Nat.lt_or_eq_of_le hp with hlt | heq
        · exact enabled_of_recv hw hflights hlt
        · refine ⟨.done 0, Option.isSome_iff_exists.mp ?_⟩
          simp [machine, step, hflights, heq]

/-- The rule for sessions: a thread whose calls are bounded in length and in
number comes to where it has returned, in a state where `Q` holds. -/
theorem inevitably_of_calls {P : Prog κ β α} {Inv Q : Session κ β α → Prop} (L B : Nat)
    (hwire : ∀ x, Inv x → Wire peer x)
    (hstep : ∀ x e y, Inv x → Step P peer x e y → Inv y)
    (hcalls : ∀ x, Inv x → P.want x.thread.pc ≠ 0 → Calling P peer L B x)
    (hdone : ∀ x, Inv x → P.want x.thread.pc = 0 → x.thread.flights = [] ∧ Q x)
    (hx : Inv x) : (machine P peer).Inevitably Q x := by
  refine Machine.inevitably_of_measure (measure peer L B) ?_ ?_ hx
  · intro s e t hs hQ h
    have hst := step_cases h
    have ht := hstep s e t hs hst
    have hcall := hcalls s hs fun h0 => hQ (hdone s hs h0).2
    refine ⟨ht, ?_⟩
    cases hst with
    | arrive n hn hle =>
      simp only [measure]
      omega
    | fin hfin =>
      simp only [measure, hfin]
      simp
    | moveIn i n p len dst hf hn hlen harr =>
      have hlength : ((peer.stream.drop s.taken).take n).length = n := by
        have := (hwire s hs).arrived_le
        rw [List.length_take, List.length_drop]
        omega
      have hmod := unmoved_modify hf hlen
      simp only [measure, Thread.fill, Thread.advance, Thread.pending, hlength] at hmod ⊢
      omega
    | moveOut i n p len src hf hn hlen =>
      have hmod := unmoved_modify hf (Nat.le_trans hlen (allowed_le _ _))
      simp only [measure, Thread.advance, Thread.pending] at hmod ⊢
      omega
    | received i p len dst hf => exact measure_finish hcall hf
    | wasSent i len src hf => exact measure_finish hcall hf
    | wake hready =>
      have hle := Thread.ready_iff.mp hready
      have hunmoved : unmoved (s.thread.run P).flights ≤ 2 * L := by
        by_cases h0 : P.want (s.thread.run P).pc = 0
        · rw [(hdone _ ht h0).1]
          exact Nat.zero_le _
        · exact (hcalls _ ht h0).unmoved_le
      have hpend : (s.thread.run P).pending.length + 1 ≤ s.thread.pending.length := by
        simp only [Thread.pending, Thread.run, List.length_drop] at hle ⊢
        omega
      have hmul := Nat.mul_le_mul_left (2 * L + 1) hpend
      rw [Nat.mul_succ] at hmul
      have hres : (s.thread.run P).results = s.thread.results := rfl
      simp only [measure, hres]
      omega
  · intro s hs hQ
    have hpos : P.want s.thread.pc ≠ 0 := fun h0 => hQ (hdone s hs h0).2
    exact (hcalls s hs hpos).enabled (hwire s hs) (Nat.pos_of_ne_zero hpos)

end Calls

/-! ## Programs that differ in their names only -/

section Map

variable {κ' : Type*}

/-- A session with its places renamed. -/
def mapPc (f : κ → κ') (x : Session κ β α) : Session κ' β α :=
  { x with thread := { x.thread with pc := f x.thread.pc } }

/-- Two programs that do the same at places that correspond take the same steps. -/
theorem step_mapPc {P : Prog κ β α} {P' : Prog κ' β α} {f : κ → κ'} (peer : Peer α)
    (hwant : ∀ pc, P'.want (f pc) = P.want pc)
    (hwake : ∀ pc mem results, P'.wake (f pc) mem results =
      ⟨f (P.wake pc mem results).pc, (P.wake pc mem results).mem, (P.wake pc mem results).reqs⟩)
    (x : Session κ β α) (e : Event) :
    step P' peer (x.mapPc f) e = (step P peer x e).map (mapPc f) := by
  cases e with
  | arrive k =>
    simp only [step, mapPc]
    rw [apply_ite (Option.map _)]
    rfl
  | fin =>
    simp only [step, mapPc]
    rw [apply_ite (Option.map _)]
    rfl
  | move i k =>
    simp only [step, mapPc]
    split
    · rw [apply_ite (Option.map _)]
      rfl
    · rw [apply_ite (Option.map _)]
      rfl
    · rfl
  | done i =>
    simp only [step, mapPc]
    split
    · rw [apply_ite (Option.map _)]
      rfl
    · rw [apply_ite (Option.map _)]
      rfl
    · rfl
  | wake =>
    have hready : Thread.ready P' (x.mapPc f).thread = Thread.ready P x.thread := by
      simp only [Thread.ready, mapPc, hwant]
      rfl
    simp only [step, hready]
    split
    · simp only [Thread.run, mapPc, Option.map_some, hwant, Thread.pending, hwake]
    · rfl

/-- What every run of a program comes to, every run of its renaming does too. -/
theorem inevitably_mapPc {P : Prog κ β α} {P' : Prog κ' β α} {f : κ → κ'} {peer : Peer α}
    (hwant : ∀ pc, P'.want (f pc) = P.want pc)
    (hwake : ∀ pc mem results, P'.wake (f pc) mem results =
      ⟨f (P.wake pc mem results).pc, (P.wake pc mem results).mem, (P.wake pc mem results).reqs⟩)
    {Q : Session κ' β α → Prop} {x : Session κ β α}
    (h : (machine P' peer).Inevitably Q (x.mapPc f)) :
    (machine P peer).Inevitably (fun x => Q (x.mapPc f)) x :=
  Machine.Inevitably.of_map (mapPc f) (step_mapPc peer hwant hwake) h

end Map

end Session

end EchoServer.Lib
