import EchoServer.Epoll.Segmentation

/-!
# epoll — connections whose handshake failed

`handle_new_conn` returns nothing, so `main_loop` registers the new connection whether
or not its announcement was sent and its header received. What comes next on such a
connection is taken for messages: the header itself, when it comes late, and everything
behind it.

The condition is about what happens inside `handle_new_conn`, before the connection is
registered: a `send` of the announcement that fails or is cut, or a `recv` that does not
find the header in one piece. No later step can make good what went wrong there, and none
can spoil what went right.

Main results:

* `exists_payload` — a registered connection is served as soon as a byte arrives;
* `handshake_guards_iff` — exactly when what happens in the handshake keeps the loop
  from serving the connection wrongly ever after.
-/

namespace EchoServer.Epoll

open EchoServer.Lib

variable {cfg : Config} {s t : State} {fd : Nat} {peer : Peer UInt8} {c c' : Conn}
  {header : Option Nat}

-- ---------------------------------------------------------------------------
-- The handshake
-- ---------------------------------------------------------------------------

/-- The announcement is sent in full, and the `recv` of the header returns both bytes. -/
def FullHandshake (peer : Peer UInt8) (header : Option Nat) : Prop :=
  allowed (peer.sends 0) 4 = 4 ∧ header = some 2

/-- The bytes that the handshake takes: none if the announcement was not sent in full. -/
def greeted (peer : Peer UInt8) (header : Option Nat) : Nat :=
  if allowed (peer.sends 0) 4 = 4 then header.getD 0 else 0

/-- No payload is received or sent after a handshake that failed, and what is echoed
begins right after the header. -/
structure HandshakeFirst (peer : Peer UInt8) (c : Conn) : Prop where
  payload : c.header < c.taken ∨ c.sent ≠ [] → c.Handshake
  start : c.sent.flatten <+: peer.stream.drop 2

/-- `handle_new_conn` goes on to the header when `send` took all four bytes. -/
theorem outcome_four (out : Option Nat) :
    outcome out 4 ≤ 0 ∨ outcome out 4 < 4 ↔ ¬ allowed out 4 = 4 := by
  cases out with
  | none => simp [outcome, allowed]
  | some n =>
    simp only [outcome, allowed]
    omega

/-- What a connection is after its handshake. -/
theorem handleNewConn_greeted (hfresh : c.Fresh) (h : handleNewConn peer c header = some c') :
    c'.taken = greeted peer header ∧ c'.header = c'.taken ∧ c'.sent = [] ∧
      (c'.Handshake ↔ FullHandshake peer header) := by
  simp only [handleNewConn, outcome_four] at h
  unfold greeted FullHandshake
  by_cases hall : allowed (peer.sends 0) 4 = 4
  · rw [if_neg (not_not.mpr hall)] at h
    obtain ⟨⟨n, buf, d⟩, hrecv, rfl⟩ := Option.map_eq_some_iff.mp h
    cases header with
    | none =>
      cases hrecv
      rw [if_pos hall]
      refine ⟨hfresh.taken, hfresh.taken.symm, hfresh.sent, ?_⟩
      exact iff_of_false (fun hc => by cases hc.header) fun hfull => by cases hfull.2
    | some k =>
      obtain ⟨-, heq⟩ := Option.ite_none_right_eq_some.mp hrecv
      cases heq
      rw [if_pos hall]
      refine ⟨?_, ?_, hfresh.sent, ?_⟩
      · show c.taken + k = k
        rw [hfresh.taken, Nat.zero_add]
      · show (k : Int).toNat = c.taken + k
        rw [hfresh.taken, Nat.zero_add, Int.toNat_natCast]
      · constructor
        · intro hc
          have hk : (k : Int).toNat = 2 := hc.header
          exact ⟨hall, congrArg some (by rwa [Int.toNat_natCast] at hk)⟩
        · rintro ⟨-, hk⟩
          cases hk
          exact ⟨hall, rfl⟩
  · rw [if_pos hall] at h
    cases h
    rw [if_neg hall]
    refine ⟨hfresh.taken, hfresh.header.trans hfresh.taken.symm, hfresh.sent, ?_⟩
    exact iff_of_false (fun hc => hall hc.announced) fun hfull => hall hfull.1

-- ---------------------------------------------------------------------------
-- A registered connection is served
-- ---------------------------------------------------------------------------

theorem step_echo {e : Nat} {rest : List Nat} (rcv : Option Nat) (h : Inv cfg s)
    (hexit : s.exited = false) (hbatch : s.batch = e :: rest) (he : e ≠ cfg.listenFd) :
    step cfg s (.echo e rcv) =
      ((s.conns e).recv (cfg.peers e) s.buf cfg.msgSize.val rcv).map fun (n, buf, c) =>
        let s := { { s with batch := rest }.setConn e c with buf := buf }
        if n < cfg.msgSize.val then s.deregister e
        else
          let (n, c) := c.send (cfg.peers e) (buf.take cfg.msgSize.val)
          let s := s.setConn e c
          if n < cfg.msgSize.val then s.deregister e else s := by
  have hmain : mainLoop cfg s (.echo e rcv) = echo cfg { s with batch := rest } e rcv := by
    simp only [mainLoop, hbatch]
    exact if_pos ⟨trivial, he⟩
  simp only [step, hexit, Bool.false_eq_true, if_false, hmain]
  exact if_neg (h.epollIn hbatch he)

/-- An event whose `recv` fails drops its connection and changes no other. -/
theorem exists_drop {e : Nat} {rest : List Nat} (h : Inv cfg s) (hexit : s.exited = false)
    (hbatch : s.batch = e :: rest) (he : e ≠ cfg.listenFd) :
    ∃ u, (machine cfg).step s (.echo e none) = some u ∧ u.batch = rest ∧ u.exited = false ∧
      u.accepted = s.accepted ∧
      ∀ fd, fd ≠ e → u.interest fd = s.interest fd ∧ u.conns fd = s.conns fd := by
  have hneg : (-1 : Int) < cfg.msgSize.val := by omega
  refine ⟨_, step_echo none h hexit hbatch he, ?_⟩
  simp only [if_pos hneg]
  exact ⟨rfl, hexit, rfl, fun fd hne => ⟨Function.update_of_ne hne .., Function.update_of_ne hne ..⟩⟩

/-- The rest of a batch can be walked without touching the connection `fd`. -/
theorem exists_drain (h : Inv cfg s) (hexit : s.exited = false) (hacc : fd ∈ s.accepted)
    (hfd : fd ∉ s.batch) (hlisten : cfg.listenFd ∉ s.batch) :
    ∃ js u, (machine cfg).exec s js = some u ∧ u.batch = [] ∧ u.exited = false ∧
      fd ∈ u.accepted ∧ u.interest fd = s.interest fd ∧ u.conns fd = s.conns fd := by
  -- induction on what is left of the batch
  generalize hrest : s.batch = batch at hfd hlisten
  induction batch generalizing s with
  | nil => exact ⟨[], s, rfl, hrest, hexit, hacc, rfl, rfl⟩
  | cons e rest ih =>
    obtain ⟨hne, hfd⟩ := List.ne_and_not_mem_of_not_mem_cons hfd
    obtain ⟨he, hlisten⟩ := List.ne_and_not_mem_of_not_mem_cons hlisten
    obtain ⟨u, hu, hubatch, huexit, huacc, hsame⟩ := exists_drop h hexit hrest (Ne.symm he)
    obtain ⟨hint, hconn⟩ := hsame fd hne
    obtain ⟨js, v, hv, hvbatch, hvexit, hvacc, hvint, hvconn⟩ :=
      ih (inv_step h hu) huexit (huacc ▸ hacc) hubatch hfd hlisten
    exact ⟨_ :: js, v, Machine.exec_cons_iff.mpr ⟨u, hu, hv⟩, hvbatch, hvexit, hvacc,
      hvint.trans hint, hvconn.trans hconn⟩

theorem taken_alone (c : Conn) (e : Nat) (rcv : Option Nat) :
    (c.alone cfg fd (.echo e rcv)).taken = c.taken + rcv.getD 0 := by
  simp only [Conn.alone]
  split
  · rfl
  · rfl

/-- An event of the connection at the head of a batch, with a byte to read. -/
theorem exists_echo {rest : List Nat} (h : Inv cfg s) (hexit : s.exited = false)
    (hbatch : s.batch = fd :: rest) (hfd : fd ≠ cfg.listenFd) (hbyte : 0 < (s.conns fd).available) :
    ∃ u, (machine cfg).step s (.echo fd (some 1)) = some u ∧
      (u.conns fd).taken = (s.conns fd).taken + 1 := by
  have hrecv : (s.conns fd).recv (cfg.peers fd) s.buf cfg.msgSize.val (some 1) =
      some (1, overwrite s.buf 0 (((cfg.peers fd).stream.drop (s.conns fd).taken).take 1),
        { s.conns fd with taken := (s.conns fd).taken + 1 }) :=
    if_pos ⟨cfg.msgSize.pos, hbyte⟩
  have hstep := step_echo (some 1) h hexit hbatch hfd
  rw [hrecv, Option.map_some] at hstep
  refine ⟨_, hstep, ?_⟩
  rw [step_conns fd h hstep, if_pos (show Label.about fd (.echo fd (some 1)) = true from
    beq_self_eq_true fd), taken_alone]
  rfl

/-- A registered connection is served as soon as another byte arrives. -/
theorem exists_payload (h : Inv cfg s) (hexit : s.exited = false) (hacc : fd ∈ s.accepted)
    (hreg : s.interest fd = true) (hfd : fd ∉ s.batch) (hlisten : cfg.listenFd ∉ s.batch)
    (hne : fd ≠ cfg.listenFd) (hmore : (s.conns fd).taken < (cfg.peers fd).stream.length) :
    ∃ js u, (machine cfg).exec s js = some u ∧ (s.conns fd).taken < (u.conns fd).taken := by
  obtain ⟨js, u, hu, hbatch, huexit, -, hint, hconn⟩ := exists_drain h hexit hacc hfd hlisten
  have hinv := inv_step.exec h hu
  -- a byte of the client arrives, unless one has
  obtain ⟨ks, v, hv, hvinv, hvbatch, hvexit, hvint, hvbyte, hvtaken⟩ :
      ∃ ks v, (machine cfg).exec u ks = some v ∧ Inv cfg v ∧ v.batch = [] ∧ v.exited = false ∧
        v.interest fd = true ∧ 0 < (v.conns fd).available ∧
        (v.conns fd).taken = (s.conns fd).taken := by
    have htaken := (hinv.own fd).taken_le
    by_cases hbyte : 0 < (u.conns fd).available
    · exact ⟨[], u, rfl, hinv, hbatch, huexit, hint.trans hreg, hbyte, by rw [hconn]⟩
    · have hroom : 0 < 1 ∧ (u.conns fd).arrived + 1 ≤ (cfg.peers fd).stream.length := by
        rw [← hconn] at hmore
        unfold Conn.available at hbyte
        omega
      have harrive : (machine cfg).step u (.arrive fd 1) =
          some (u.setConn fd { u.conns fd with arrived := (u.conns fd).arrived + 1 }) :=
        if_pos hroom
      refine ⟨[.arrive fd 1], _, Machine.exec_cons_iff.mpr ⟨_, harrive, rfl⟩, inv_step hinv harrive,
        hbatch, huexit, hint.trans hreg, ?_, ?_⟩
      · simp only [State.setConn, Function.update_self, Conn.available]
        omega
      · simp only [State.setConn, Function.update_self]
        rw [hconn]
  have hwait : (machine cfg).step v (.wait [fd]) = some { v with batch := [fd] } := by
    simp [machine, step, hvexit, mainLoop, hvbatch, hvint]
  obtain ⟨w, hw, htaken⟩ := exists_echo (inv_step hvinv hwait) hvexit rfl hne hvbyte
  refine ⟨js ++ (ks ++ [.wait [fd], .echo fd (some 1)]), w, ?_, ?_⟩
  · refine Machine.exec_append_iff.mpr ⟨u, hu, Machine.exec_append_iff.mpr ⟨v, hv, ?_⟩⟩
    exact Machine.exec_cons_iff.mpr ⟨_, hwait, Machine.exec_cons_iff.mpr ⟨w, hw, rfl⟩⟩
  · rw [htaken]
    exact Nat.lt_succ_of_le (Nat.le_of_eq hvtaken.symm)

-- ---------------------------------------------------------------------------
-- What the handshake guards
-- ---------------------------------------------------------------------------

/-- As long as the stream has nothing behind the header, nothing is echoed. -/
theorem Conn.Own.idle {m : MsgSize} {r : Bool} (h : c.Own m.val peer.stream r)
    (hend : peer.stream.length ≤ c.header) : c.taken ≤ c.header ∧ c.sent = [] := by
  have htaken := h.taken_le
  have harrived := h.arrived_le
  have hnil : peer.stream.drop c.header = [] := List.drop_of_length_le hend
  refine ⟨by omega, ?_⟩
  have hcut := h.cut
  rw [hnil] at hcut
  exact hcut.eq_nil m.pos

/-- After a full handshake the echo starts behind the header. -/
theorem Conn.Own.handshakeFirst {m : MsgSize} {r : Bool} (h : c.Own m.val peer.stream r)
    (hhand : c.Handshake) : HandshakeFirst peer c := by
  refine ⟨fun _ => hhand, ?_⟩
  have hcut := h.cut.flatten_prefix m.pos
  rwa [hhand.header] at hcut

/-- A connection from which only its header was taken. -/
theorem HandshakeFirst.of_greeted (htaken : c.taken ≤ c.header) (hsent : c.sent = []) :
    HandshakeFirst peer c := by
  refine ⟨fun h => ?_, ?_⟩
  · rcases h with h | h
    · omega
    · exact absurd hsent h
  · rw [hsent]
    exact List.nil_prefix

/-- A connection that was accepted and registered. -/
theorem registered_guards_iff (fd : Nat) (hinv : Inv cfg s) (hexit : s.exited = false)
    (hacc : fd ∈ s.accepted) (hreg : s.interest fd = true) (hfd : fd ∉ s.batch)
    (hlisten : cfg.listenFd ∉ s.batch) (hne : fd ≠ cfg.listenFd)
    (htaken : (s.conns fd).header = (s.conns fd).taken) :
    (∀ u, (machine cfg).Reachable s u → HandshakeFirst (cfg.peers fd) (u.conns fd)) ↔
      (s.conns fd).Handshake ∨ (cfg.peers fd).stream.length ≤ (s.conns fd).taken := by
  -- the handshake is over: what it came to holds ever after
  have hsame : ∀ {u}, (machine cfg).Reachable s u →
      Inv cfg u ∧ (u.conns fd).announced = (s.conns fd).announced ∧
        (u.conns fd).header = (s.conns fd).header := by
    rintro u ⟨js, hjs⟩
    exact ⟨inv_step.exec hinv hjs, handshake_exec hinv hacc hjs⟩
  constructor
  · intro hall
    by_contra hnot
    obtain ⟨hhand, hmore⟩ := not_or.mp hnot
    obtain ⟨js, u, hu, hlt⟩ :=
      exists_payload hinv hexit hacc hreg hfd hlisten hne (Nat.not_le.mp hmore)
    obtain ⟨-, hann, hhead⟩ := hsame ⟨js, hu⟩
    have hfull := (hall u ⟨js, hu⟩).payload (Or.inl (by omega))
    exact hhand ⟨hann.symm.trans hfull.announced, hhead.symm.trans hfull.header⟩
  · rintro (hhand | hend) u hu
    · obtain ⟨huinv, hann, hhead⟩ := hsame hu
      exact (huinv.own fd).handshakeFirst ⟨hann.trans hhand.announced, hhead.trans hhand.header⟩
    · obtain ⟨huinv, -, hhead⟩ := hsame hu
      obtain ⟨hidle, hsent⟩ := (huinv.own fd).idle (by omega)
      exact .of_greeted hidle hsent

/-- A connection that was not registered because `set_nonblocking` ended the process. -/
theorem unregistered_guards (hinv : Inv cfg s) (hacc : fd ∈ s.accepted)
    (hreg : s.interest fd = false) (htaken : (s.conns fd).header = (s.conns fd).taken)
    (hsent : (s.conns fd).sent = []) (hrun : (machine cfg).Reachable s t) :
    HandshakeFirst (cfg.peers fd) (t.conns fd) := by
  obtain ⟨-, hio⟩ := dropped_reachable hinv hacc hreg hrun
  have hhead' : (t.conns fd).header = (s.conns fd).header := congrArg (fun c => c.header) hio
  have htaken' : (t.conns fd).taken = (s.conns fd).taken := congrArg (fun c => c.taken) hio
  have hsent' : (t.conns fd).sent = (s.conns fd).sent := congrArg (fun c => c.sent) hio
  exact .of_greeted (by omega) (hsent'.trans hsent)

/-- One loop, from the `accept` of a connection on. -/
theorem accept_guards_iff {nonblocking : Bool} (hinv : Inv cfg s)
    (hstep : step cfg s (.accept fd header nonblocking) = some t) :
    (∀ u, (machine cfg).Reachable t u → HandshakeFirst (cfg.peers fd) (u.conns fd)) ↔
      FullHandshake (cfg.peers fd) header ∨ nonblocking = false ∨
        (cfg.peers fd).stream.length ≤ greeted (cfg.peers fd) header := by
  have hinv' : Inv cfg t := inv_step (i := .accept fd header nonblocking) hinv hstep
  have hunreg : ∀ {fd}, fd ∉ s.accepted → fd ≠ cfg.listenFd → ¬ s.interest fd = true :=
    fun hnew hfd hreg => hnew (hinv.accepted _ hreg hfd).1
  cases step_cases hstep with
  | accept _ _ rest c hexit hbatch hnew hfd hc =>
    obtain ⟨htaken, hhead, hsent, hhand⟩ := handleNewConn_greeted (hinv.fresh fd hnew) hc
    have hnodup := hinv.nodup
    rw [hbatch, List.nodup_cons] at hnodup
    -- the new descriptor was not registered, so no event of the batch is its
    have hrest : fd ∉ rest := fun hmem => hunreg hnew hfd
      (hinv.registered fd (by rw [hbatch]; exact List.mem_cons_of_mem _ hmem))
    have hguards := registered_guards_iff fd hinv' hexit
      (List.mem_append_right _ List.mem_cons_self) (Function.update_self ..) hrest hnodup.1 hfd
      (by simpa only [State.setConn, Function.update_self] using hhead)
    simp only [State.setConn, Function.update_self] at hguards ⊢
    rw [hguards, hhand, htaken]
    simp only [Bool.true_eq_false, false_or]
  | acceptExit _ _ rest c hbatch hnew hfd hc =>
    obtain ⟨-, hhead, hsent, -⟩ := handleNewConn_greeted (hinv.fresh fd hnew) hc
    refine iff_of_true (fun u hu => ?_) (Or.inr (Or.inl rfl))
    refine unregistered_guards hinv' (List.mem_append_right _ List.mem_cons_self)
      (Bool.eq_false_iff.mpr (hunreg hnew hfd)) ?_ ?_ hu
    · simpa only [State.setConn, Function.update_self] using hhead
    · simpa only [State.setConn, Function.update_self] using hsent
  | exit _ hi => rcases hi with hi | hi <;> cases hi

-- ---------------------------------------------------------------------------
-- Any number of loops
-- ---------------------------------------------------------------------------

section
variable {κ : Type*} [DecidableEq κ]

/-- **What keeps a failed handshake from being followed by echoing.** From the `accept` of
a connection on, whatever comes later, no payload is received or sent without a full
handshake and the echo starts behind the header, if and only if the handshake was full, or
the process ends before the connection is registered, or the client sends nothing more
than the handshake took. -/
theorem handshake_guards_iff (cfg : κ → Config) (junk : κ → Junk) (is : List (κ × Label))
    (s : κ → State) (k : κ) (fd : Nat) (header : Option Nat) (nonblocking : Bool)
    (hrun : (shards cfg).exec (fun k => initial (cfg k) (junk k))
      (is ++ [(k, .accept fd header nonblocking)]) = some s) :
    (∀ t, (shards cfg).Reachable s t → HandshakeFirst ((cfg k).peers fd) ((t k).conns fd)) ↔
      FullHandshake ((cfg k).peers fd) header ∨ nonblocking = false ∨
        ((cfg k).peers fd).stream.length ≤ greeted ((cfg k).peers fd) header := by
  obtain ⟨m, hm, hlast⟩ := Machine.exec_append_iff.mp hrun
  obtain ⟨s', hs', hnil⟩ := Machine.exec_cons_iff.mp hlast
  obtain rfl : s' = s := by simpa using hnil
  obtain ⟨x, hx, rfl⟩ := Option.map_eq_some_iff.mp hs'
  have hinv : Inv (cfg k) (m k) :=
    inv_step.exec (inv_initial _ _) (Machine.family_exec hm k)
  refine (Machine.forall_family_reachable k
    (P := fun u : State => HandshakeFirst ((cfg k).peers fd) (u.conns fd))).trans ?_
  simp only [Function.update_self]
  exact accept_guards_iff hinv hx

end

/-- A connection that is accepted by the only loop, its header there. -/
def greeting (header : Option Nat) : List (Unit × Label) :=
  [((), .arrive 5 2), ((), .wait [3]), ((), .accept 5 header true)]

theorem handshake_guards_iff_greeting :
    ∃ s, (shards fun _ : Unit => oneMessage).exec (fun _ => initial oneMessage zeros)
        (greeting (some 2)) = some s ∧
      ∀ t, (shards fun _ : Unit => oneMessage).Reachable s t →
        HandshakeFirst (oneMessage.peers 5) ((t ()).conns 5) := by
  obtain ⟨s, hs⟩ : ∃ s, (shards fun _ : Unit => oneMessage).exec
      (fun _ => initial oneMessage zeros) (greeting (some 2)) = some s :=
    Option.isSome_iff_exists.mp (by decide)
  refine ⟨s, hs, ?_⟩
  refine (handshake_guards_iff (fun _ : Unit => oneMessage) (fun _ => zeros)
    [((), .arrive 5 2), ((), .wait [3])] s () 5 (some 2) true hs).mpr (Or.inl ⟨?_, rfl⟩)
  decide

/-- The `recv` of the header fails; the header is echoed as if it were payload. -/
theorem handshake_not_guarded :
    ∃ s t, (shards fun _ : Unit => oneMessage).exec (fun _ => initial oneMessage zeros)
        (greeting none) = some s ∧
      (shards fun _ : Unit => oneMessage).exec s
        [((), .arrive 5 4), ((), .wait [5]), ((), .echo 5 (some 4))] = some t ∧
      ((t ()).conns 5).sent = [[72, 105, 1, 2]] ∧
      ¬ HandshakeFirst (oneMessage.peers 5) ((t ()).conns 5) := by
  have hconn : ((shards fun _ : Unit => oneMessage).exec (fun _ => initial oneMessage zeros)
      (greeting none ++ [((), .arrive 5 4), ((), .wait [5]), ((), .echo 5 (some 4))])).map
        (fun t => (t ()).conns 5) = some ⟨6, 4, 4, 0, [[72, 105, 1, 2]]⟩ := by decide
  obtain ⟨t, hrun, hconn⟩ := Option.map_eq_some_iff.mp hconn
  obtain ⟨s, hs, ht⟩ := Machine.exec_append_iff.mp hrun
  refine ⟨s, t, hs, ht, by rw [hconn], fun hfirst => ?_⟩
  have hhand := hfirst.payload (Or.inl (by rw [hconn]; decide))
  rw [hconn] at hhand
  exact absurd hhand.header (by decide)

end EchoServer.Epoll
