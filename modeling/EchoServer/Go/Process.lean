import EchoServer.Go.Server
import EchoServer.Lib.Caller
import EchoServer.Lib.Process

/-!
# go/simple/main.go — the whole server process

The accept loop of `startServer` and one `handleConn` for each connection it accepts.
`log.Fatalf` and a `panic` in any goroutine end the process, and with it the accept loop
and every other handler.

A client may send any bytes and leave at any time, and a `Write` may fail or take a part
of what it is given, as it does when the peer is gone. The condition is about the calls
that come up short, one by one: only a `Read` of the echo loop may, since only there the
handler returns.

Main results:

* `Calling.returns` — a call that comes up short ends the process unless it is a `Read` of
  the echo loop;
* `faults_isolated_iff` — exactly which runs keep the failures of a client to its connection;
* `faults_not_isolated` — a client that leaves before it has sent its header ends the
  process, and so does one whose announcement or whose echo cannot be written.
-/

namespace EchoServer.GoProcess

open EchoServer.Lib EchoServer.GoServer

-- ---------------------------------------------------------------------------
-- The process
-- ---------------------------------------------------------------------------

/-- A handler, if the connection has been accepted. -/
abbrev Handler := Option (Caller Pc Buf UInt8)

/-- What happens to a connection; a call of its handler that fails returns no bytes. -/
inductive Event
  | accept
  | call (c : Call)
  | readError
  deriving DecidableEq, Repr

/-- `handleConn` has called `log.Fatalf` or `panic`. -/
def fatal : Handler → Bool
  | some x => x.pc = .fatal || x.pc = .panicked
  | none => false

/-- `go handleConn(conn)`, and the steps of the handler it starts. -/
def connStep (m : MsgSize) (peer : Peer UInt8) : Handler → Event → Option Handler
  | none, .accept => some (some (Caller.start (entry m.val)))
  | some x, .call c => (Caller.step (handleConn m.val) peer x c).map some
  | some x, .readError =>
    match x.req with
    | some (.recv _ _) => some (some (x.returns (handleConn m.val) 0))
    | _ => none
  | _, _ => none

variable {κ : Type} [DecidableEq κ]

/-- The connections that `startServer` may accept, each with its client. -/
def conns (m : MsgSize) (peers : κ → Peer UInt8) (c : κ) : Machine Handler Event :=
  ⟨connStep m (peers c)⟩

def server (m : MsgSize) (peers : κ → Peer UInt8) : Machine (Process κ Handler) (κ × Event) :=
  Process.machine (conns m peers) fatal

omit [DecidableEq κ] in
/-- `startServer` waits for its first connection. -/
def start : Process κ Handler := ⟨false, fun _ => none⟩

-- ---------------------------------------------------------------------------
-- The calls of a handler
-- ---------------------------------------------------------------------------

variable {m : MsgSize} {peer : Peer UInt8} {x z : Caller Pc Buf UInt8} {e : Event}

/-- A handler that has not ended the process is in the call of its `pc`, or has returned. -/
structure Calling (m : MsgSize) (x : Caller Pc Buf UInt8) : Prop where
  req : x.req = x.pc.call m.val
  not_fatal : fatal (some x) = false

/-- The call of `x` moves `n` bytes, which are all it asked for, or is a `Read` of the echo
loop. -/
def spared (x : Caller Pc Buf UInt8) (n : Nat) : Bool :=
  x.pc = .recving || x.req.all fun r => r.len ≤ n

/-- What becomes of a handler whose call has moved `n` bytes. -/
inductive Next (m : MsgSize) (x y : Caller Pc Buf UInt8) (n : Nat) : Prop
  | kept : Calling m y → spared x n = true → Next m x y n
  | lost : fatal (some y) = true → spared x n = false → Next m x y n

theorem spared_of_le {r : Req Buf} {n : Nat} (hreq : x.req = some r) (h : r.len ≤ n) :
    spared x n = true := by
  simp [spared, hreq, h]

theorem spared_of_recving {n : Nat} (h : x.pc = .recving) : spared x n = true := by
  simp [spared, h]

theorem not_spared_of_lt {r : Req Buf} {n : Nat} (hreq : x.req = some r) (hpc : x.pc ≠ .recving)
    (h : n < r.len) : spared x n = false := by
  simp [spared, hreq, hpc, h]

/-- A call that comes up short ends the process, unless it is a `Read` of the echo loop. -/
theorem Calling.returns {r : Req Buf} (h : Calling m x) (hreq : x.req = some r) (hpc : z.pc = x.pc)
    (n : Nat) : Next m x (z.returns (handleConn m.val) n) n := by
  have hcall : z.pc.call m.val = some r := by rw [hpc, ← h.req, hreq]
  by_cases hshort : n < r.len
  · rw [Caller.returns_eq (wake_short hcall hshort)]
    rw [hpc] at hcall ⊢
    cases hx : x.pc with
    | recving => exact .kept ⟨rfl, rfl⟩ (spared_of_recving hx)
    | announcing | header | sending =>
      exact .lost rfl (not_spared_of_lt hreq (by rw [hx]; exact Pc.noConfusion) hshort)
    | returned | fatal | panicked =>
      rw [hx] at hcall
      cases hcall
  · have hfull : r.len ≤ n := Nat.not_lt.mp hshort
    rw [Caller.returns_eq (wake_full m.le_bufSize hcall hfull)]
    refine .kept ⟨?_, ?_⟩ (spared_of_le hreq hfull)
    · cases (z.pc.next.call m.val) with
      | none => rfl
      | some r' => rfl
    · rw [hpc] at hcall ⊢
      cases hx : x.pc with
      | announcing | header | recving | sending => rfl
      | returned | fatal | panicked =>
        rw [hx] at hcall
        cases hcall

theorem Calling.congr (h : Calling m x) (hpc : z.pc = x.pc) (hreq : z.req = x.req) :
    Calling m z := by
  refine ⟨by rw [hreq, h.req, hpc], ?_⟩
  show (decide (z.pc = .fatal) || decide (z.pc = .panicked)) = false
  rw [hpc]
  exact h.not_fatal

/-- A handler that is in no call has returned. -/
theorem Calling.returned (h : Calling m x) (hreq : x.req = none) : x.pc = .returned := by
  have hcall := h.req
  have hnot : (decide (x.pc = .fatal) || decide (x.pc = .panicked)) = false := h.not_fatal
  rw [hreq] at hcall
  cases hx : x.pc with
  | returned => rfl
  | announcing | header | recving | sending =>
    rw [hx] at hcall
    cases hcall
  | fatal | panicked =>
    rw [hx] at hnot
    cases hnot

-- ---------------------------------------------------------------------------
-- The steps of the process
-- ---------------------------------------------------------------------------

/-- The event is not the failure of a call whose failure ends the process. -/
def harmless (peer : Peer UInt8) : Handler → Event → Bool
  | some x, .call (.read k) => spared x k
  | some x, .call .eof | some x, .readError => spared x 0
  | some x, .call .write => x.req.all fun r => spared x (allowed (peer.sends x.sent) r.len)
  | _, _ => true

/-- A handler of a process that runs. -/
def Own (m : MsgSize) (h : Handler) : Prop := ∀ x, h = some x → Calling m x

theorem Own.of_calling (h : Calling m x) : Own m (some x) := by
  intro y hy
  cases hy
  exact h

/-- What a step does to a handler and to the process. -/
inductive Effect (m : MsgSize) (peer : Peer UInt8) (h : Handler) (e : Event) (h' : Handler) : Prop
  | runs : Own m h' → fatal h' = false → harmless peer h e = true → Effect m peer h e h'
  | exits : fatal h' = true → harmless peer h e = false → Effect m peer h e h'

theorem Next.effect {h : Handler} {y : Caller Pc Buf UInt8} {n : Nat} (hnext : Next m x y n)
    (hharm : harmless peer h e = spared x n) : Effect m peer h e (some y) := by
  cases hnext with
  | kept hy hspared => exact .runs (.of_calling hy) hy.not_fatal (hharm.trans hspared)
  | lost hy hspared => exact .exits hy (hharm.trans hspared)

theorem effect_of_step {h h' : Handler} (hown : Own m h) (hstep : connStep m peer h e = some h') :
    Effect m peer h e h' := by
  cases h with
  | none =>
    cases e with
    | accept =>
      cases hstep
      exact .runs (.of_calling ⟨rfl, rfl⟩) rfl rfl
    | call | readError => cases hstep
  | some x =>
    have hx := hown x rfl
    cases e with
    | accept => cases hstep
    | readError =>
      simp only [connStep] at hstep
      cases hreq : x.req with
      | none => simp [hreq] at hstep
      | some r =>
        cases r with
        | send src len => simp [hreq] at hstep
        | recv dst len =>
          simp only [hreq, Option.some.injEq] at hstep
          subst hstep
          exact (hx.returns hreq rfl 0).effect rfl
    | call c =>
      obtain ⟨y, hy, rfl⟩ := Option.map_eq_some_iff.mp hstep
      cases Caller.step_cases hy with
      | arrive | fin => exact .runs (.of_calling (hx.congr rfl rfl)) hx.not_fatal rfl
      | read k len dst hreq =>
        exact Next.effect (hx.returns (z := x.take dst _) hreq rfl k) rfl
      | eof len dst hreq => exact (hx.returns hreq rfl 0).effect rfl
      | write len src hreq =>
        refine Next.effect (hx.returns (z := x.put _) hreq rfl _) ?_
        simp [harmless, hreq, Req.len]

variable {peers : κ → Peer UInt8} {s t : Process κ Handler} {i : κ × Event} {is : List (κ × Event)}

/-- As long as the process runs, so does every handler that has not returned. -/
def Inv (m : MsgSize) (s : Process κ Handler) : Prop :=
  s.exited = false → ∀ c, Own m (s.each c)

omit [DecidableEq κ] in
theorem inv_start (m : MsgSize) : Inv m (start : Process κ Handler) := by
  intro _ c x hx
  cases hx

theorem inv_step (h : Inv m s) (hstep : (server m peers).step s i = some t) :
    Inv m t ∧ (t.exited = false ↔ harmless (peers i.1) (s.each i.1) i.2 = true) := by
  obtain ⟨hexited, x, hx, rfl⟩ := Process.step_eq_some_iff.mp hstep
  cases effect_of_step (h hexited i.1) hx with
  | runs hown hlost hharm =>
    refine ⟨fun _ c => ?_, iff_of_true hlost hharm⟩
    show Own m (Function.update s.each i.1 x c)
    by_cases hc : c = i.1
    · subst hc
      rwa [Function.update_self]
    · rw [Function.update_of_ne hc]
      exact h hexited c
  | exits hlost hharm =>
    refine ⟨fun hrun => ?_, iff_of_false ?_ ?_⟩
    · rw [hlost] at hrun
      cases hrun
    · rw [hlost]
      exact Bool.noConfusion
    · rw [hharm]
      exact Bool.noConfusion

/-- The failures of a client end only its connection: the process runs, `startServer`
accepts whoever comes next, a handler that is in no call has returned, and the other
handlers have done, and can still do, what they would have without that client. -/
structure FaultsIsolated (m : MsgSize) (peers : κ → Peer UInt8) (is : List (κ × Event))
    (s : Process κ Handler) : Prop where
  running : s.exited = false
  accepting : ∀ c, s.each c = none → ∃ t, (server m peers).step s (c, .accept) = some t
  returned : ∀ c x, s.each c = some x → x.req = none → x.pc = .returned
  others : ∀ c, Process.Isolated (conns m peers) fatal start is s c

/-- **Exactly which runs keep the failures of a client to its connection**: those in which
no announcement and no echo is written in part or not at all, and no header is read in part
or not at all; a `Read` of the echo loop may fail. -/
theorem faults_isolated_iff (m : MsgSize) (peers : κ → Peer UInt8) (is : List (κ × Event))
    (s : Process κ Handler) (hrun : (server m peers).exec start is = some s) :
    FaultsIsolated m peers is s ↔
      (server m peers).Along (fun s i => harmless (peers i.1) (s.each i.1) i.2 = true) start is := by
  have hpres : (server m peers).Preserves (Inv m) := fun s i t h hstep => (inv_step h hstep).1
  have halong := Machine.last_iff_along (P := fun s : Process κ Handler => s.exited = false)
    (C := fun s i => harmless (peers i.1) (s.each i.1) i.2 = true) hpres
    (fun s i t h hstep => by
      rw [(inv_step h hstep).2, and_iff_right (Process.step_eq_some_iff.mp hstep).1])
    (inv_start m) hrun
  have hinv : Inv m s := hpres.exec (inv_start m) hrun
  rw [← (halong.trans (and_iff_right rfl))]
  refine ⟨fun h => h.running, fun hexited => ⟨hexited, fun c hc => ?_, fun c x hx hreq => ?_,
    Process.isolated hrun hexited⟩⟩
  · exact ⟨_, Process.step_eq_some_iff.mpr ⟨hexited, _, by rw [hc]; rfl, rfl⟩⟩
  · exact (hinv hexited c x hx).returned hreq

/-- What a client sends: its header and one message. -/
def oneMessage : Bytes := [72, 105, 1, 2, 3, 4]

/-- A client that sends one message and takes its echo, beside another client. -/
def beside (other : Peer UInt8) : Bool → Peer UInt8
  | true => ⟨oneMessage, fun _ => some bufSize⟩
  | false => other

/-- Both are connected, and the one has sent its message. -/
def connected : List (Bool × Event) :=
  [(true, .accept), (true, .call .write), (true, .call (.arrive 6)), (true, .call (.read 2)),
    (false, .accept)]

/-- The message of the one is echoed. -/
def echoed : List (Bool × Event) := [(true, .call (.read 4)), (true, .call .write)]

/-- A client that leaves in the middle of its message. -/
def leaver : Peer UInt8 := ⟨[72, 105, 1, 2], fun _ => some bufSize⟩

theorem faults_isolated_iff_leaver :
    ∃ s, (server four (beside leaver)).exec start (connected ++
        [(false, .call .write), (false, .call (.arrive 4)), (false, .call .fin),
          (false, .call (.read 2)), (false, .call (.read 2))] ++ echoed) = some s ∧
      FaultsIsolated four (beside leaver) (connected ++
        [(false, .call .write), (false, .call (.arrive 4)), (false, .call .fin),
          (false, .call (.read 2)), (false, .call (.read 2))] ++ echoed) s := by
  have hsome : ((server four (beside leaver)).exec start (connected ++
      [(false, .call .write), (false, .call (.arrive 4)), (false, .call .fin),
        (false, .call (.read 2)), (false, .call (.read 2))] ++ echoed)).isSome = true := by decide
  obtain ⟨s, hrun⟩ := Option.isSome_iff_exists.mp hsome
  exact ⟨s, hrun, (faults_isolated_iff four (beside leaver) _ s hrun).mpr (by decide)⟩

/-- The ways to fail that a handler takes for its own end, each with a client and the
steps of its connection: EOF or a single byte in place of the header, an announcement that
fails or is written in part, an echo that fails or is written in part. -/
def failures : List (Peer UInt8 × List Event) :=
  [(⟨[], fun _ => some bufSize⟩, [.call .write, .call .fin, .call .eof]),
    (⟨[72], fun _ => some bufSize⟩, [.call .write, .call (.arrive 1), .call (.read 1)]),
    (⟨oneMessage, fun _ => none⟩, [.call .write]),
    (⟨oneMessage, fun _ => some 3⟩, [.call .write]),
    (⟨oneMessage, fun n => if n = 0 then some 8 else none⟩, [.call .write, .call (.arrive 6),
      .call (.read 2), .call (.read 4), .call .write]),
    (⟨oneMessage, fun n => if n = 0 then some 8 else some 3⟩, [.call .write, .call (.arrive 6),
      .call (.read 2), .call (.read 4), .call .write])]

/-- A failure that ends the process: the message of the other client, which is echoed in the
run without the failing one, never is. -/
def EndsProcess (f : Peer UInt8 × List Event) : Prop :=
  (((server four (beside f.1)).exec start (Process.without false connected ++ echoed)).bind
      (·.each true)).map (·.wire) = some (announcement 4 ++ [1, 2, 3, 4]) ∧
    ∃ s, (server four (beside f.1)).exec start (connected ++ f.2.map (Prod.mk false)) = some s ∧
      s.exited = true ∧ (server four (beside f.1)).exec s echoed = none ∧
      ¬ FaultsIsolated four (beside f.1) (connected ++ f.2.map (Prod.mk false)) s

theorem faults_not_isolated : failures.Forall EndsProcess := by
  have hview : ∀ f ∈ failures,
      (((server four (beside f.1)).exec start (Process.without false connected ++ echoed)).bind
        (·.each true)).map (·.wire) = some (announcement 4 ++ [1, 2, 3, 4]) ∧
      ((server four (beside f.1)).exec start (connected ++ f.2.map (Prod.mk false))).map
        (·.exited) = some true := by decide
  refine List.forall_iff_forall_mem.mpr fun f hf => ?_
  obtain ⟨hwire, hexit⟩ := hview f hf
  obtain ⟨s, hrun, hexited⟩ := Option.map_eq_some_iff.mp hexit
  refine ⟨hwire, s, hrun, hexited, ?_, fun h => ?_⟩
  · simp [Machine.exec, echoed, server, Process.machine, Process.step, hexited]
  · have hrunning := h.running
    rw [hexited] at hrunning
    cases hrunning

end EchoServer.GoProcess
