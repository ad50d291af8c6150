import EchoServer.Lib.Blocks
import Mathlib.Logic.Function.Basic

/-!
# Threads that wait for I/O

A thread runs until it has issued some `send`s and `recv`s and then sleeps until
results are in. A blocking system call is the case of one request and one
result; a ring of asynchronous requests is the general one. The thread's code is
given by what it does each time it wakes up (`Prog`); what moves the bytes of
its requests is left to the machine the thread is put into.

* `unmoved_modify`, `unmoved_eraseIdx` — what a request in flight still has to
  move, when bytes move and when a request is over;
* `Thread.fill_mem_of_ne` — receiving into one buffer leaves the others alone.
-/

namespace EchoServer.Lib

universe u v w

/-- A request to move the bytes of a buffer. -/
inductive Req (β : Type u)
  | send (src : β) (len : Nat)
  | recv (dst : β) (len : Nat)
  deriving DecidableEq, Repr

def Req.len {β : Type u} : Req β → Nat
  | .send _ len => len
  | .recv _ len => len

def Req.buf {β : Type u} : Req β → β
  | .send src _ => src
  | .recv dst _ => dst

/-- A request in flight and the number of bytes it has moved. -/
structure Flight (β : Type u) where
  req : Req β
  moved : Nat
  deriving DecidableEq, Repr

/-- A thread: where it is, its buffers, its requests in flight, and every result
posted so far, of which the first `seen` are consumed. -/
structure Thread (κ : Type v) (β : Type u) (α : Type w) where
  pc : κ
  mem : β → List α
  flights : List (Flight β)
  results : List Int
  seen : Nat

/-- What a thread does when it wakes up. -/
structure Wake (κ : Type v) (β : Type u) (α : Type w) where
  pc : κ
  mem : β → List α
  reqs : List (Req β)

/-- The code of a thread: how many results it waits for, none once it has
returned, what it does with them, and whether its `recv`s wait for their full
length. -/
structure Prog (κ : Type v) (β : Type u) (α : Type w) where
  want : κ → Nat
  wake : κ → (β → List α) → List Int → Wake κ β α
  waitall : Bool := true

variable {κ : Type v} {β : Type u} {α : Type w}

namespace Thread

/-- The results not consumed yet. -/
def pending (t : Thread κ β α) : List Int := t.results.drop t.seen

/-- Has everything the thread waits for come in? -/
def ready (P : Prog κ β α) (t : Thread κ β α) : Bool :=
  decide (0 < P.want t.pc) && decide (P.want t.pc ≤ t.pending.length)

theorem ready_iff {P : Prog κ β α} {t : Thread κ β α} :
    t.ready P = true ↔ 0 < P.want t.pc ∧ P.want t.pc ≤ t.pending.length := by
  simp [ready]

/-- The thread runs from where it woke up to where it sleeps again. -/
def run (P : Prog κ β α) (t : Thread κ β α) : Thread κ β α :=
  let next := P.wake t.pc t.mem t.pending
  { t with
    pc := next.pc
    mem := next.mem
    flights := t.flights ++ next.reqs.map fun r => ⟨r, 0⟩
    seen := t.seen + P.want t.pc }

/-- The request at position `i` has moved `k` more bytes. -/
def advance (t : Thread κ β α) (i k : Nat) : Thread κ β α :=
  { t with flights := t.flights.modify i fun f => { f with moved := f.moved + k } }

/-- The bytes `bs` come in for the request at position `i`, which has moved `p`. -/
def fill [DecidableEq β] (t : Thread κ β α) (i : Nat) (dst : β) (p : Nat) (bs : List α) :
    Thread κ β α :=
  { t.advance i bs.length with mem := Function.update t.mem dst (overwrite (t.mem dst) p bs) }

/-- The request at position `i` is over with result `n`. -/
def finish (t : Thread κ β α) (i : Nat) (n : Int) : Thread κ β α :=
  { t with flights := t.flights.eraseIdx i, results := t.results ++ [n] }

theorem fill_mem_of_ne [DecidableEq β] {t : Thread κ β α} {i p : Nat} {dst b : β} {bs : List α}
    (h : b ≠ dst) : (t.fill i dst p bs).mem b = t.mem b :=
  Function.update_of_ne h ..

theorem fill_mem_self [DecidableEq β] {t : Thread κ β α} {i p : Nat} {dst : β} {bs : List α} :
    (t.fill i dst p bs).mem dst = overwrite (t.mem dst) p bs :=
  Function.update_self ..

theorem pending_finish {t : Thread κ β α} {i : Nat} {n : Int} (h : t.seen ≤ t.results.length) :
    (t.finish i n).pending = t.pending ++ [n] := by
  unfold pending finish
  exact List.drop_append_of_le_length h

end Thread

/-! ## What is still to be moved -/

/-- The bytes the requests in flight have not moved. -/
def unmoved (fs : List (Flight β)) : Nat := (fs.map fun f => f.req.len - f.moved).sum

@[simp] theorem unmoved_nil : unmoved ([] : List (Flight β)) = 0 := rfl

@[simp] theorem unmoved_cons (f : Flight β) (fs : List (Flight β)) :
    unmoved (f :: fs) = (f.req.len - f.moved) + unmoved fs := by
  simp [unmoved]

theorem unmoved_modify {fs : List (Flight β)} {i k : Nat} {f : Flight β} (hf : fs[i]? = some f)
    (hk : f.moved + k ≤ f.req.len) :
    unmoved (fs.modify i fun f => { f with moved := f.moved + k }) + k = unmoved fs := by
  induction fs generalizing i with
  | nil => simp at hf
  | cons g fs ih =>
    cases i with
    | zero =>
      obtain rfl : g = f := by simpa using hf
      simp only [List.modify_zero_cons, unmoved_cons]
      omega
    | succ i =>
      have hrest := ih (i := i) (by simpa using hf)
      simp only [List.modify_succ_cons, unmoved_cons]
      omega

theorem unmoved_eraseIdx (fs : List (Flight β)) (i : Nat) :
    unmoved (fs.eraseIdx i) ≤ unmoved fs := by
  induction fs generalizing i with
  | nil => simp
  | cons g fs ih =>
    cases i with
    | zero => simp
    | succ i =>
      have hrest := ih i
      simp only [List.eraseIdx_cons_succ, unmoved_cons]
      omega

end EchoServer.Lib
