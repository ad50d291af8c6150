import EchoServer.Lib.Machine
import EchoServer.Lib.Thread

/-!
# Two threads over bounded channels

Two threads, each with one call outstanding at a time, joined by a FIFO byte
channel of bounded capacity in each direction. A `send` returns when all its
bytes are in the channel, a `recv` when it has its full length, or something at
all when it does not wait for all; both move any number of bytes at a time, as
room and content allow.

Main results:

* `InCall.put`, `InCall.get`, `InCall.complete` — what one step does to a thread
  in a call;
* `Talk.act`, `Talk.next` — what a call has put and taken, until the thread wakes
  up from it and begins the next one;
* `progress` — unless both threads are blocked, some step is enabled;
* `pair_step` — an invariant of each side, in terms of what that side has put and
  taken, makes one of the pair.
-/

namespace EchoServer.Lib

universe u v w

variable {κ : Type v} {β : Type u} {α : Type w}

/-! ## Channels -/

/-- Every byte ever put into a channel, and how many of them were taken out. -/
structure Chan (α : Type w) where
  put : List α
  taken : Nat
  taken_le : taken ≤ put.length

namespace Chan

variable (c : Chan α)

/-- What is in the channel. -/
def flight : List α := c.put.drop c.taken

/-- What was taken out of the channel. -/
def got : List α := c.put.take c.taken

def push (xs : List α) : Chan α where
  put := c.put ++ xs
  taken := c.taken
  taken_le := by
    rw [List.length_append]
    exact Nat.le_trans c.taken_le (Nat.le_add_right _ _)

def pull (k : Nat) : Chan α := ⟨c.put, min (c.taken + k) c.put.length, Nat.min_le_right _ _⟩

def empty : Chan α := ⟨[], 0, Nat.le_refl 0⟩

@[simp] theorem put_push (xs : List α) : (c.push xs).put = c.put ++ xs := rfl

@[simp] theorem put_pull (k : Nat) : (c.pull k).put = c.put := rfl

/-- What is put in comes behind all that was taken out. -/
@[simp] theorem got_push (xs : List α) : (c.push xs).got = c.got :=
  List.take_append_of_le_length c.taken_le

theorem got_pull {k : Nat} (h : k ≤ c.flight.length) : (c.pull k).got = c.got ++ c.flight.take k := by
  rw [flight, List.length_drop] at h
  have hle := c.taken_le
  show c.put.take (min (c.taken + k) c.put.length) = _
  rw [Nat.min_eq_left (by omega), List.take_add]
  rfl

theorem got_append_flight : c.got ++ c.flight = c.put := List.take_append_drop _ _

theorem got_prefix : c.got <+: c.put := List.take_prefix _ _

theorem length_put : c.put.length = c.got.length + c.flight.length := by
  rw [← List.length_append, got_append_flight]

end Chan

/-! ## One thread and its two channels -/

/-- What a thread can do. -/
inductive Move
  | put (k : Nat)
  | get (k : Nat)
  | complete
  | wake
  deriving DecidableEq, Repr

namespace Thread

/-- Put `k` more bytes of the `send` outstanding into the channel. -/
def put (t : Thread κ β α) (out : Chan α) (cap k : Nat) : Option (Thread κ β α × Chan α) :=
  match t.flights with
  | [⟨.send src len, p⟩] =>
    if 0 < k ∧ p + k ≤ len ∧ out.flight.length + k ≤ cap then
      some (t.advance 0 k, out.push (((t.mem src).drop p).take k))
    else none
  | _ => none

/-- Take `k` more bytes out of the channel for the `recv` outstanding. -/
def get [DecidableEq β] (t : Thread κ β α) (inp : Chan α) (k : Nat) :
    Option (Thread κ β α × Chan α) :=
  match t.flights with
  | [⟨.recv dst len, p⟩] =>
    if 0 < k ∧ p + k ≤ len ∧ k ≤ inp.flight.length then
      some (t.fill 0 dst p (inp.flight.take k), inp.pull k)
    else none
  | _ => none

/-- May a call return that has moved `p` bytes? -/
def ended (waitall : Bool) (r : Req β) (p : Nat) : Bool :=
  decide (p = r.len) ||
    match r with
    | .send _ _ => false
    | .recv _ _ => !waitall && decide (0 < p)

/-- The call outstanding returns. -/
def complete (waitall : Bool) (t : Thread κ β α) : Option (Thread κ β α) :=
  match t.flights with
  | [⟨r, p⟩] => if ended waitall r p then some (t.finish 0 p) else none
  | _ => none

/-- What a thread makes of itself, of the channel it reads and of the one it writes. -/
def act [DecidableEq β] (P : Prog κ β α) (cap : Nat) (t : Thread κ β α) (inp out : Chan α) :
    Move → Option (Thread κ β α × Chan α × Chan α)
  | .put k => (t.put out cap k).map fun x => (x.1, inp, x.2)
  | .get k => (t.get inp k).map fun x => (x.1, x.2, out)
  | .complete => (t.complete P.waitall).map fun x => (x, inp, out)
  | .wake => if t.ready P then some (t.run P, inp, out) else none

/-- The thread is in call `r`, of which `p` bytes are moved, or the call has just
returned; `w` tells whether its `recv`s wait for all. -/
inductive InCall (t : Thread κ β α) (w : Bool) (r : Req β) (p : Nat) : Prop
  | moving : t.flights = [⟨r, p⟩] → t.pending = [] → p ≤ r.len →
      t.seen ≤ t.results.length → InCall t w r p
  | returned : t.flights = [] → t.pending = [(p : Int)] → ended w r p = true → p ≤ r.len →
      InCall t w r p

/-- The thread cannot go on by itself: it sends into a full channel, or receives
from an empty one. -/
def Blocked (t : Thread κ β α) (inp out : Chan α) (cap : Nat) : Prop :=
  (∃ src len p, t.flights = [⟨.send src len, p⟩] ∧ p < len ∧ cap ≤ out.flight.length) ∨
    ∃ dst len p, t.flights = [⟨.recv dst len, p⟩] ∧ p < len ∧ inp.flight = []

variable {t t' : Thread κ β α} {w : Bool} {r : Req β} {p : Nat}

theorem over_len (w : Bool) (r : Req β) : ended w r r.len = true := by
  simp [ended]

/-- A call that waits for all has moved all when it returns. -/
theorem eq_len_of_over (h : ended true r p = true) : p = r.len := by
  cases r <;> simpa [ended] using h

theorem eq_len_of_over_send {src : β} {len : Nat} (h : ended w (.send src len) p = true) :
    p = len := by
  rw [ended, Bool.or_false] at h
  exact of_decide_eq_true h

theorem InCall.le (h : InCall t w r p) : p ≤ r.len := by
  cases h with
  | moving _ _ hle | returned _ _ _ hle => exact hle

/-- A step that puts bytes into the channel is one of a thread in a `send`. -/
theorem InCall.put {out out' : Chan α} {cap k : Nat} (h : InCall t w r p)
    (hput : t.put out cap k = some (t', out')) :
    ∃ src len, r = .send src len ∧ InCall t' w r (p + k) ∧
      out' = out.push (((t.mem src).drop p).take k) ∧ t'.pc = t.pc ∧ t'.mem = t.mem := by
  cases h with
  | moving hflights hpend hle hseen =>
    unfold Thread.put at hput
    rw [hflights] at hput
    cases r with
    | recv dst len => cases hput
    | send src len =>
      simp only [Option.ite_none_right_eq_some] at hput
      obtain ⟨⟨-, hk, -⟩, hput⟩ := hput
      cases hput
      refine ⟨src, len, rfl, .moving ?_ hpend hk hseen, rfl, rfl, rfl⟩
      simp only [advance, hflights]
      rfl
  | returned hflights =>
    unfold Thread.put at hput
    rw [hflights] at hput
    cases hput

/-- A step that takes bytes out of the channel is one of a thread in a `recv`. -/
theorem InCall.get [DecidableEq β] {inp inp' : Chan α} {k : Nat} (h : InCall t w r p)
    (hget : t.get inp k = some (t', inp')) :
    ∃ dst len, r = .recv dst len ∧ InCall t' w r (p + k) ∧ k ≤ inp.flight.length ∧
      inp' = inp.pull k ∧ t'.pc = t.pc ∧
      t'.mem = Function.update t.mem dst (overwrite (t.mem dst) p (inp.flight.take k)) := by
  cases h with
  | moving hflights hpend hle hseen =>
    unfold Thread.get at hget
    rw [hflights] at hget
    cases r with
    | send src len => cases hget
    | recv dst len =>
      simp only [Option.ite_none_right_eq_some] at hget
      obtain ⟨⟨-, hk, hinp⟩, hget⟩ := hget
      cases hget
      have hlen : (inp.flight.take k).length = k := by
        rw [List.length_take, Nat.min_eq_left hinp]
      refine ⟨dst, len, rfl, .moving ?_ hpend hk hseen, hinp, rfl, rfl, rfl⟩
      simp only [fill, advance, hflights, hlen]
      rfl
  | returned hflights =>
    unfold Thread.get at hget
    rw [hflights] at hget
    cases hget

theorem InCall.complete (h : InCall t w r p) (hdone : t.complete w = some t') :
    InCall t' w r p ∧ t'.pc = t.pc ∧ t'.mem = t.mem := by
  cases h with
  | moving hflights hpend hle hseen =>
    unfold Thread.complete at hdone
    rw [hflights] at hdone
    simp only [Option.ite_none_right_eq_some] at hdone
    obtain ⟨hover, hdone⟩ := hdone
    cases hdone
    refine ⟨.returned ?_ ?_ hover hle, rfl, rfl⟩
    · simp only [finish, hflights]
      rfl
    · rw [pending_finish hseen, hpend]
      rfl
  | returned hflights =>
    unfold Thread.complete at hdone
    rw [hflights] at hdone
    cases hdone

/-- A thread that wakes up from its call is told how many bytes the call moved. -/
theorem InCall.ready {P : Prog κ β α} (h : InCall t w r p) (hready : t.ready P = true)
    (hwant : P.want t.pc = 1) :
    ended w r p = true ∧ t.flights = [] ∧ t.pending = [(p : Int)] ∧
      (t.run P).pending = [] ∧ (t.run P).seen ≤ (t.run P).results.length := by
  have hle := (ready_iff.mp hready).2
  cases h with
  | moving _ hpend =>
    rw [hpend, hwant] at hle
    exact absurd hle (by decide)
  | returned hflights hpend hover =>
    have hlen : t.results.length - t.seen = 1 := by
      have := congrArg List.length hpend
      rwa [pending, List.length_drop] at this
    refine ⟨hover, hflights, hpend, ?_, ?_⟩
    · simp only [pending, Thread.run, hwant]
      exact List.drop_eq_nil_of_le (by omega)
    · simp only [Thread.run, hwant]
      omega

/-- The next call of a thread that woke up. -/
theorem InCall.next {P : Prog κ β α} {next : Wake κ β α} {r' : Req β} (h : InCall t w r p)
    (hready : t.ready P = true) (hwant : P.want t.pc = 1)
    (hnext : P.wake t.pc t.mem t.pending = next) (hreqs : next.reqs = [r']) :
    InCall (t.run P) w r' 0 := by
  obtain ⟨-, hflights, -, hpend, hseen⟩ := h.ready hready hwant
  refine .moving ?_ hpend (Nat.zero_le _) hseen
  simp only [Thread.run, hflights, hnext, hreqs]
  rfl

/-- A thread in a call that is not blocked has a step to take. -/
theorem InCall.exists_act [DecidableEq β] {P : Prog κ β α} {cap : Nat} {inp out : Chan α}
    (h : InCall t w r p) (hwant : P.want t.pc = 1)
    (hfree : ¬ t.Blocked inp out cap) : ∃ move y, t.act P cap inp out move = some y := by
  cases h with
  | returned hflights hpend =>
    refine ⟨.wake, (t.run P, inp, out), if_pos ?_⟩
    rw [ready_iff, hwant, hpend]
    exact ⟨Nat.one_pos, Nat.le_refl 1⟩
  | moving hflights hpend hle hseen =>
    rcases Nat.lt_or_eq_of_le hle with hlt | heq
    · cases r with
      | send src len =>
        have hroom : out.flight.length < cap := by
          by_contra hfull
          exact hfree (Or.inl ⟨src, len, p, hflights, hlt, Nat.not_lt.mp hfull⟩)
        refine ⟨.put 1, Option.isSome_iff_exists.mp ?_⟩
        have hk : p + 1 ≤ len := hlt
        simp [act, Thread.put, hflights, hk, Nat.succ_le_of_lt hroom]
      | recv dst len =>
        have hsome : 0 < inp.flight.length := by
          rw [List.length_pos_iff]
          intro hempty
          exact hfree (Or.inr ⟨dst, len, p, hflights, hlt, hempty⟩)
        refine ⟨.get 1, Option.isSome_iff_exists.mp ?_⟩
        have hk : p + 1 ≤ len := hlt
        simp [act, Thread.get, hflights, hk, Nat.succ_le_of_lt hsome]
    · refine ⟨.complete, Option.isSome_iff_exists.mp ?_⟩
      simp [act, Thread.complete, hflights, heq, over_len]

/-! ## What a call has put and taken -/

/-- The thread is in call `r`, begun when it had put `U₀` into its channel and
taken `W₀` out of the other one; by now it has put `U` and taken `W`. -/
inductive Talk (t : Thread κ β α) (w : Bool) :
    Req β → List α → List α → List α → List α → Prop
  | sending {src : β} {len p : Nat} {U₀ W₀ : List α} : InCall t w (.send src len) p →
      len ≤ (t.mem src).length → Talk t w (.send src len) U₀ W₀ (U₀ ++ (t.mem src).take p) W₀
  | recving {dst : β} {len p : Nat} {U₀ W₀ : List α} : InCall t w (.recv dst len) p →
      len ≤ (t.mem dst).length → Talk t w (.recv dst len) U₀ W₀ U₀ (W₀ ++ (t.mem dst).take p)

/-- What a call leaves alone. -/
structure Kept (t t' : Thread κ β α) (r : Req β) : Prop where
  pc : t'.pc = t.pc
  mem : ∀ b, (∀ len, r ≠ .recv b len) → t'.mem b = t.mem b
  length : ∀ b, (t'.mem b).length = (t.mem b).length

variable {U₀ W₀ U W : List α}

theorem Talk.inCall (h : Talk t w r U₀ W₀ U W) : ∃ p, InCall t w r p := by
  cases h with
  | sending hcall | recving hcall => exact ⟨_, hcall⟩

/-- As long as a thread does not wake up, it stays in its call; it puts into its
channel and takes out of the other one, and nothing else happens to them. -/
theorem Talk.act [DecidableEq β] {P : Prog κ β α} {cap : Nat} {inp out inp' out' : Chan α}
    {move : Move} (h : Talk t P.waitall r U₀ W₀ out.put inp.got) (hmove : move ≠ .wake)
    (hact : t.act P cap inp out move = some (t', inp', out')) :
    Talk t' P.waitall r U₀ W₀ out'.put inp'.got ∧ Kept t t' r ∧ inp'.put = inp.put ∧
      out'.got = out.got := by
  -- `act` is one of the three steps of a call
  generalize hU : out.put = U at h
  generalize hW : inp.got = W at h
  cases move with
  | wake => exact absurd rfl hmove
  | put k =>
    obtain ⟨⟨t₁, out₁⟩, hput, heq⟩ := Option.map_eq_some_iff.mp hact
    cases heq
    cases h with
    | recving hcall =>
      obtain ⟨_, _, hr, -⟩ := hcall.put hput
      cases hr
    | @sending src len p _ _ hcall hlen =>
      obtain ⟨src, len, hr, hcall', rfl, hpc, hmem⟩ := hcall.put hput
      cases hr
      have htalk : Talk t₁ P.waitall (.send src len) U₀ W₀ (U₀ ++ (t₁.mem src).take (p + k)) W₀ :=
        .sending hcall' (by rwa [hmem])
      rw [Chan.put_push, hU, hW, List.append_assoc, ← List.take_add, ← hmem]
      exact ⟨htalk, ⟨hpc, fun b _ => by rw [hmem], fun b => by rw [hmem]⟩, rfl, Chan.got_push _ _⟩
  | get k =>
    obtain ⟨⟨t₁, inp₁⟩, hget, heq⟩ := Option.map_eq_some_iff.mp hact
    cases heq
    cases h with
    | sending hcall =>
      obtain ⟨_, _, hr, -⟩ := hcall.get hget
      cases hr
    | @recving dst len p _ _ hcall hlen =>
      obtain ⟨dst, len, hr, hcall', hk, rfl, hpc, hmem⟩ := hcall.get hget
      cases hr
      have hbs : (inp.flight.take k).length = k := by
        rw [List.length_take, Nat.min_eq_left hk]
      have hlength : ∀ b, (t₁.mem b).length = (t.mem b).length := by
        intro b
        rw [hmem]
        by_cases hb : b = dst
        · subst hb
          rw [Function.update_self, length_overwrite (by rw [hbs]; exact hcall'.le.trans hlen)]
        · rw [Function.update_of_ne hb]
      have htake : (t₁.mem dst).take (p + k) = (t.mem dst).take p ++ inp.flight.take k := by
        have hover := take_overwrite (t.mem dst) (inp.flight.take k) (Nat.le_trans hcall.le hlen)
        rw [hbs] at hover
        rw [hmem, Function.update_self]
        exact hover
      have htalk : Talk t₁ P.waitall (.recv dst len) U₀ W₀ U₀ (W₀ ++ (t₁.mem dst).take (p + k)) :=
        .recving hcall' (by rwa [hlength])
      rw [Chan.got_pull _ hk, hW, hU, List.append_assoc, ← htake]
      refine ⟨htalk, ⟨hpc, ?_, hlength⟩, rfl, rfl⟩
      intro b hb
      have hne : b ≠ dst := fun heq => hb len (by rw [heq])
      rw [hmem, Function.update_of_ne hne]
  | complete =>
    obtain ⟨t₁, hdone, heq⟩ := Option.map_eq_some_iff.mp hact
    cases heq
    rw [hU, hW]
    cases h with
    | @sending src len p _ _ hcall hlen =>
      obtain ⟨hcall', hpc, hmem⟩ := hcall.complete hdone
      rw [← hmem] at hlen ⊢
      exact ⟨.sending hcall' hlen, ⟨hpc, fun b _ => by rw [hmem], fun b => by rw [hmem]⟩, rfl, rfl⟩
    | @recving dst len p _ _ hcall hlen =>
      obtain ⟨hcall', hpc, hmem⟩ := hcall.complete hdone
      rw [← hmem] at hlen ⊢
      exact ⟨.recving hcall' hlen, ⟨hpc, fun b _ => by rw [hmem], fun b => by rw [hmem]⟩, rfl, rfl⟩

/-- The thread wakes up from a `send`. -/
theorem Talk.sendOver {P : Prog κ β α} {src : β} {len : Nat}
    (h : Talk t w (.send src len) U₀ W₀ U W) (hready : t.ready P = true)
    (hwant : P.want t.pc = 1) :
    t.pending = [(len : Int)] ∧ U = U₀ ++ (t.mem src).take len ∧ W = W₀ := by
  cases h with
  | sending hcall =>
    obtain ⟨hover, -, hpend, -⟩ := hcall.ready hready hwant
    obtain rfl := eq_len_of_over_send hover
    exact ⟨hpend, rfl, rfl⟩

/-- The thread wakes up from a `recv`. -/
theorem Talk.recvOver {P : Prog κ β α} {dst : β} {len : Nat}
    (h : Talk t w (.recv dst len) U₀ W₀ U W) (hready : t.ready P = true)
    (hwant : P.want t.pc = 1) :
    ∃ p, p ≤ len ∧ (w = true → p = len) ∧ t.pending = [(p : Int)] ∧ U = U₀ ∧
      W = W₀ ++ (t.mem dst).take p := by
  cases h with
  | @recving _ _ p _ _ hcall =>
    obtain ⟨hover, -, hpend, -⟩ := hcall.ready hready hwant
    refine ⟨p, hcall.le, fun hw => ?_, hpend, rfl, rfl⟩
    subst hw
    exact eq_len_of_over hover

/-- The thread wakes up from a `recv` that waits for all. -/
theorem Talk.recvAllOver {P : Prog κ β α} {dst : β} {len : Nat}
    (h : Talk t true (.recv dst len) U₀ W₀ U W) (hready : t.ready P = true)
    (hwant : P.want t.pc = 1) :
    t.pending = [(len : Int)] ∧ U = U₀ ∧ W = W₀ ++ (t.mem dst).take len := by
  obtain ⟨p, -, hp, hpend, hU, hW⟩ := h.recvOver hready hwant
  obtain rfl := hp rfl
  exact ⟨hpend, hU, hW⟩

/-- The next call begins with what is put and taken by then. -/
theorem Talk.next {P : Prog κ β α} {pc : κ} {mem : β → List α} {r' : Req β}
    (h : Talk t w r U₀ W₀ U W) (hready : t.ready P = true) (hwant : P.want t.pc = 1)
    (hnext : P.wake t.pc t.mem t.pending = ⟨pc, mem, [r']⟩)
    (hroom : r'.len ≤ (mem r'.buf).length) :
    Talk (t.run P) w r' U W U W ∧ (t.run P).pc = pc ∧ (t.run P).mem = mem := by
  obtain ⟨p, hcall⟩ := h.inCall
  have hcall' := hcall.next hready hwant hnext rfl
  have hmem : (t.run P).mem = mem := congrArg Wake.mem hnext
  refine ⟨?_, congrArg Wake.pc hnext, hmem⟩
  cases r' with
  | send src len =>
    have htalk : Talk (t.run P) w (.send src len) U W (U ++ ((t.run P).mem src).take 0) W :=
      .sending hcall' (by rwa [hmem])
    rwa [List.take_zero, List.append_nil] at htalk
  | recv dst len =>
    have htalk : Talk (t.run P) w (.recv dst len) U W U (W ++ ((t.run P).mem dst).take 0) :=
      .recving hcall' (by rwa [hmem])
    rwa [List.take_zero, List.append_nil] at htalk

/-- A thread that ends makes no call any more. -/
theorem Talk.stop {P : Prog κ β α} {pc : κ} {mem : β → List α} (h : Talk t w r U₀ W₀ U W)
    (hready : t.ready P = true) (hwant : P.want t.pc = 1)
    (hnext : P.wake t.pc t.mem t.pending = ⟨pc, mem, []⟩) :
    (t.run P).flights = [] ∧ (t.run P).pc = pc ∧ (t.run P).mem = mem := by
  obtain ⟨p, hcall⟩ := h.inCall
  obtain ⟨-, hflights, -⟩ := hcall.ready hready hwant
  refine ⟨?_, congrArg Wake.pc hnext, congrArg Wake.mem hnext⟩
  simp only [Thread.run, hflights, hnext]
  rfl

/-- A thread without a call only wakes up. -/
theorem act_eq_none [DecidableEq β] {P : Prog κ β α} {cap : Nat} {inp out : Chan α} {move : Move}
    (hflights : t.flights = []) (hmove : move ≠ .wake) : t.act P cap inp out move = none := by
  cases move with
  | put k => simp [act, Thread.put, hflights]
  | get k => simp [act, Thread.get, hflights]
  | complete => simp [act, Thread.complete, hflights]
  | wake => exact absurd rfl hmove

/-- A thread that is blocked in its call has at least one byte more to put, or to
take. -/
theorem Talk.blocked {inp out : Chan α} {cap : Nat} (h : Talk t w r U₀ W₀ U W)
    (hblocked : t.Blocked inp out cap) :
    (∃ src len, r = .send src len ∧ U.length < U₀.length + len ∧ U₀.length ≤ U.length ∧
        W = W₀ ∧ cap ≤ out.flight.length) ∨
      ∃ dst len, r = .recv dst len ∧ U = U₀ ∧ W.length < W₀.length + len ∧
        W₀.length ≤ W.length ∧ inp.flight = [] := by
  rcases hblocked with ⟨src, len, p, hflights, hp, hfull⟩ | ⟨dst, len, p, hflights, hp, hempty⟩
  · cases h with
    | sending hcall hlen =>
      cases hcall with
      | returned hnone => rw [hnone] at hflights; cases hflights
      | moving hsome =>
        rw [hsome] at hflights
        cases hflights
        refine Or.inl ⟨_, _, rfl, ?_, ?_, rfl, hfull⟩
        · rw [List.length_append, List.length_take]
          omega
        · rw [List.length_append]
          exact Nat.le_add_right _ _
    | recving hcall =>
      cases hcall with
      | returned hnone => rw [hnone] at hflights; cases hflights
      | moving hsome => rw [hsome] at hflights; cases hflights
  · cases h with
    | recving hcall hlen =>
      cases hcall with
      | returned hnone => rw [hnone] at hflights; cases hflights
      | moving hsome =>
        rw [hsome] at hflights
        cases hflights
        refine Or.inr ⟨_, _, rfl, rfl, ?_, ?_, hempty⟩
        · rw [List.length_append, List.length_take]
          omega
        · rw [List.length_append]
          exact Nat.le_add_right _ _
    | sending hcall =>
      cases hcall with
      | returned hnone => rw [hnone] at hflights; cases hflights
      | moving hsome => rw [hsome] at hflights; cases hflights

end Thread

/-! ## The machine -/

/-- Two threads and the channel in each direction. -/
structure Duplex (κ₁ : Type*) (β₁ : Type*) (κ₂ : Type*) (β₂ : Type*) (α : Type*) where
  left : Thread κ₁ β₁ α
  right : Thread κ₂ β₂ α
  up : Chan α
  down : Chan α

/-- A thread and what it does. -/
inductive Turn
  | left (move : Move)
  | right (move : Move)
  deriving DecidableEq, Repr

namespace Duplex

variable {κ₁ β₁ κ₂ β₂ : Type*} [DecidableEq β₁] [DecidableEq β₂]

/-- The programs of the two threads and the capacities of the two channels. -/
structure Setup (κ₁ β₁ κ₂ β₂ α : Type*) where
  left : Prog κ₁ β₁ α
  right : Prog κ₂ β₂ α
  upCap : Nat
  downCap : Nat

def step (C : Setup κ₁ β₁ κ₂ β₂ α) (x : Duplex κ₁ β₁ κ₂ β₂ α) :
    Turn → Option (Duplex κ₁ β₁ κ₂ β₂ α)
  | .left move => (x.left.act C.left C.upCap x.down x.up move).map fun y =>
      { x with left := y.1, down := y.2.1, up := y.2.2 }
  | .right move => (x.right.act C.right C.downCap x.up x.down move).map fun y =>
      { x with right := y.1, up := y.2.1, down := y.2.2 }

def machine (C : Setup κ₁ β₁ κ₂ β₂ α) : Machine (Duplex κ₁ β₁ κ₂ β₂ α) Turn := ⟨step C⟩

/-- Both threads in their first call, and nothing in the channels. -/
def start (left : Thread κ₁ β₁ α) (right : Thread κ₂ β₂ α) : Duplex κ₁ β₁ κ₂ β₂ α :=
  ⟨left, right, .empty, .empty⟩

/-- Unless both threads are blocked, the machine has a step to take. -/
theorem progress {C : Setup κ₁ β₁ κ₂ β₂ α} {x : Duplex κ₁ β₁ κ₂ β₂ α} {w₁ w₂ : Bool} {r₁ : Req β₁}
    {r₂ : Req β₂} {p₁ p₂ : Nat} (hleft : x.left.InCall w₁ r₁ p₁) (hright : x.right.InCall w₂ r₂ p₂)
    (hwant₁ : C.left.want x.left.pc = 1) (hwant₂ : C.right.want x.right.pc = 1)
    (hfree : ¬ (x.left.Blocked x.down x.up C.upCap ∧ x.right.Blocked x.up x.down C.downCap)) :
    ∃ i y, (machine C).step x i = some y := by
  by_cases hl : x.left.Blocked x.down x.up C.upCap
  · have hr : ¬ x.right.Blocked x.up x.down C.downCap := fun hr => hfree ⟨hl, hr⟩
    obtain ⟨move, y, hy⟩ := hright.exists_act hwant₂ hr
    refine ⟨.right move, { x with right := y.1, up := y.2.1, down := y.2.2 }, ?_⟩
    show (x.right.act C.right C.downCap x.up x.down move).map _ = _
    rw [hy]
    rfl
  · obtain ⟨move, y, hy⟩ := hleft.exists_act hwant₁ hl
    refine ⟨.left move, { x with left := y.1, down := y.2.1, up := y.2.2 }, ?_⟩
    show (x.left.act C.left C.upCap x.down x.up move).map _ = _
    rw [hy]
    rfl

end Duplex

/-! ## More room -/

theorem Thread.act_of_room [DecidableEq β] {P : Prog κ β α} {cap cap' : Nat} {t t' : Thread κ β α}
    {inp out inp' out' : Chan α} {move : Move} (hcap : cap ≤ cap')
    (h : t.act P cap inp out move = some (t', inp', out')) :
    t.act P cap' inp out move = some (t', inp', out') := by
  cases move with
  | put k =>
    obtain ⟨x, hput, heq⟩ := Option.map_eq_some_iff.mp h
    refine Option.map_eq_some_iff.mpr ⟨x, ?_, heq⟩
    unfold Thread.put at hput ⊢
    split at hput
    · obtain ⟨⟨hk, hp, hroom⟩, hx⟩ := Option.ite_none_right_eq_some.mp hput
      exact (if_pos ⟨hk, hp, Nat.le_trans hroom hcap⟩).trans hx
    · cases hput
  | get | complete | wake => exact h

/-- Whatever two threads do, they can do with more room in the channels. -/
theorem Duplex.exec_of_room {κ₁ β₁ κ₂ β₂ : Type*} [DecidableEq β₁] [DecidableEq β₂]
    {C : Duplex.Setup κ₁ β₁ κ₂ β₂ α} {u d : Nat} (hu : C.upCap ≤ u) (hd : C.downCap ≤ d)
    {x y : Duplex κ₁ β₁ κ₂ β₂ α} {is : List Turn} (h : (machine C).exec x is = some y) :
    (machine { C with upCap := u, downCap := d }).exec x is = some y := by
  induction is generalizing x with
  | nil => exact h
  | cons i is ih =>
    obtain ⟨z, hz, hrest⟩ := Machine.exec_cons_iff.mp h
    refine Machine.exec_cons_iff.mpr ⟨z, ?_, ih hrest⟩
    cases i with
    | left move =>
      obtain ⟨a, hact, rfl⟩ := Option.map_eq_some_iff.mp hz
      exact Option.map_eq_some_iff.mpr ⟨a, Thread.act_of_room hu hact, rfl⟩
    | right move =>
      obtain ⟨a, hact, rfl⟩ := Option.map_eq_some_iff.mp hz
      exact Option.map_eq_some_iff.mpr ⟨a, Thread.act_of_room hd hact, rfl⟩

/-! ## Invariants of a pair -/

/-- `At t U W`, what holds of a thread that has put `U` and taken `W`, is kept by every
step of the thread, as long as what it takes is as in `Reads`. -/
structure Thread.Keeps [DecidableEq β] (P : Prog κ β α)
    (At : Thread κ β α → List α → List α → Prop) (Reads : List α → Prop) : Prop where
  act : ∀ {cap : Nat} {t t' : Thread κ β α} {inp out inp' out' : Chan α} {move : Move},
    At t out.put inp.got → move ≠ .wake → t.act P cap inp out move = some (t', inp', out') →
    At t' out'.put inp'.got ∧ inp'.put = inp.put ∧ out'.got = out.got
  wake : ∀ {t : Thread κ β α} {U W : List α}, At t U W → Reads W → t.ready P = true →
    At (t.run P) U W

namespace Duplex

variable {κ₁ β₁ κ₂ β₂ : Type*} [DecidableEq β₁] [DecidableEq β₂] {C : Setup κ₁ β₁ κ₂ β₂ α}

/-- What holds of a pair: what each side puts is what the other one takes. -/
def Pair (L : Thread κ₁ β₁ α → List α → List α → Prop)
    (R : Thread κ₂ β₂ α → List α → List α → Prop) (x : Duplex κ₁ β₁ κ₂ β₂ α) : Prop :=
  L x.left x.up.put x.down.got ∧ R x.right x.down.put x.up.got

theorem pair_step {L : Thread κ₁ β₁ α → List α → List α → Prop}
    {R : Thread κ₂ β₂ α → List α → List α → Prop} {ReadsL ReadsR : List α → Prop}
    (hleft : Thread.Keeps C.left L ReadsL) (hright : Thread.Keeps C.right R ReadsR)
    (hreads : ∀ x, Pair L R x → ReadsL x.down.got ∧ ReadsR x.up.got) :
    (machine C).Preserves (Pair L R) := by
  intro x i y h hstep
  obtain ⟨hreadsL, hreadsR⟩ := hreads x h
  obtain ⟨hL, hR⟩ := h
  cases i with
  | left move =>
    obtain ⟨⟨t, inp, out⟩, hact, rfl⟩ := Option.map_eq_some_iff.mp hstep
    by_cases hmove : move = .wake
    · subst hmove
      obtain ⟨hready, heq⟩ := Option.ite_none_right_eq_some.mp hact
      cases heq
      exact ⟨hleft.wake hL hreadsL hready, hR⟩
    · obtain ⟨hL', hput, hgot⟩ := hleft.act hL hmove hact
      rw [← hput, ← hgot] at hR
      exact ⟨hL', hR⟩
  | right move =>
    obtain ⟨⟨t, inp, out⟩, hact, rfl⟩ := Option.map_eq_some_iff.mp hstep
    by_cases hmove : move = .wake
    · subst hmove
      obtain ⟨hready, heq⟩ := Option.ite_none_right_eq_some.mp hact
      cases heq
      exact ⟨hL, hright.wake hR hreadsR hready⟩
    · obtain ⟨hR', hput, hgot⟩ := hright.act hR hmove hact
      rw [← hput, ← hgot] at hL
      exact ⟨hL, hR'⟩

end Duplex

end EchoServer.Lib
