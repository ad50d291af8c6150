import EchoServer.Epoll.Steps

/-!
# epoll — connections do not see one another

Every connection is served through the one `buf`, which keeps bytes of one
connection in it when the next one is served; and still what a connection is sent
is what it would be sent if it were served alone.

Nothing is assumed of the clients or of the order in which `epoll_wait` reports them. A
`recv` or a `send` may fail or come up short on any connection, which then is
deregistered for good and, as nothing closes a descriptor, never served again.

Main results:

* `inv_step` — a batch holds registered descriptors only, none twice, and each
  connection is sent its own blocks;
* `step_conns` — a step changes a connection only if it is about that connection,
  and then as if it were alone;
* `mainLoop_isolated` — the isolation of connections, over all runs.
-/

namespace EchoServer.Epoll

open EchoServer.Lib

-- ---------------------------------------------------------------------------
-- One connection
-- ---------------------------------------------------------------------------

/-- What a connection has been sent are blocks of its own stream, and bytes that it
has been taken from before. -/
structure Conn.Own (m : Nat) (stream : Bytes) (c : Conn) (registered : Bool) : Prop where
  arrived_le : c.arrived ≤ stream.length
  taken_le : c.taken ≤ c.arrived
  header_le : c.header ≤ 2
  cut : Cut m (stream.drop c.header) c.sent
  sent_le : c.header + c.sent.flatten.length ≤ c.taken
  whole : registered = true → c.sent = (blocks m (stream.drop c.header)).take c.sent.length
  taken_eq : registered = true → c.taken = c.header + c.sent.length * m

section
variable {m : MsgSize} {peer : Peer UInt8} {c c' : Conn} {r : Bool} {rcv : Option Nat}

/-- Nothing has been done with a connection that is not accepted. -/
structure Conn.Fresh (c : Conn) : Prop where
  taken : c.taken = 0
  announced : c.announced = 0
  header : c.header = 0
  sent : c.sent = []

theorem Conn.Own.arrive {k : Nat} (h : c.Own m.val peer.stream r)
    (hk : c.arrived + k ≤ peer.stream.length) :
    Conn.Own m.val peer.stream { c with arrived := c.arrived + k } r :=
  ⟨hk, Nat.le_trans h.taken_le (Nat.le_add_right _ _), h.header_le, h.cut, h.sent_le, h.whole,
    h.taken_eq⟩

theorem Conn.Own.handshake {header : Option Nat} (h : c.Own m.val peer.stream r) (hfresh : c.Fresh)
    (hc : handleNewConn peer c header = some c') (r' : Bool) : c'.Own m.val peer.stream r' := by
  obtain ⟨harrived, hsent, -, hhead⟩ := handleNewConn_cases hc
  rw [hfresh.sent] at hsent
  have hle : c'.arrived ≤ peer.stream.length := harrived ▸ h.arrived_le
  have hnone : Cut m.val (peer.stream.drop c'.header) [] := .whole 0 (by rw [Nat.zero_mul]; simp)
  have htaken : c'.taken = c'.header ∧ c'.header ≤ 2 ∧ c'.taken ≤ c'.arrived := by
    rw [harrived]
    rcases hhead with ⟨ht, hh⟩ | ⟨k, hk, havail, ht, hh⟩
    · rw [ht, hh, hfresh.taken, hfresh.header]
      exact ⟨rfl, Nat.zero_le _, Nat.zero_le _⟩
    · rw [Conn.available, hfresh.taken] at havail
      rw [ht, hh, hfresh.taken]
      exact ⟨Nat.zero_add k, hk, by omega⟩
  refine ⟨hle, htaken.2.2, htaken.2.1, hsent ▸ hnone, ?_, ?_, ?_⟩
  · rw [hsent, htaken.1]
    exact Nat.le_refl _
  · rw [hsent]
    exact fun _ => rfl
  · rw [hsent, htaken.1, List.length_nil, Nat.zero_mul]
    exact fun _ => rfl

/-- Bytes are taken, and the connection is dropped. -/
theorem Conn.Own.dropped (h : c.Own m.val peer.stream r) (hk : rcv.getD 0 ≤ c.available) :
    (c.took rcv).Own m.val peer.stream false := by
  have htaken : c.taken + rcv.getD 0 ≤ c.arrived := by
    have := h.taken_le
    unfold Conn.available at hk
    omega
  exact ⟨h.arrived_le, htaken, h.header_le, h.cut, Nat.le_trans h.sent_le (Nat.le_add_right _ _),
    fun hr => absurd hr Bool.false_ne_true, fun hr => absurd hr Bool.false_ne_true⟩

/-- The next message of a connection is the next block of its stream. -/
theorem Conn.Own.message_eq (h : c.Own m.val peer.stream true) :
    (peer.stream.drop c.taken).take m.val =
      block m.val c.sent.length (peer.stream.drop c.header) := by
  rw [block, List.drop_drop, h.taken_eq rfl]

/-- A whole message is taken and handed to `send`. -/
theorem Conn.Own.served (h : c.Own m.val peer.stream true) (hk : m.val ≤ c.available) {msg : Bytes}
    (hmsg : msg = (peer.stream.drop c.taken).take m.val) (hlen : msg.length = m.val) :
    ((c.took (some m.val)).send peer msg).2.Own m.val peer.stream
      (if ((c.took (some m.val)).send peer msg).1 < m.val then false else true) := by
  have hbody : (c.sent.length + 1) * m.val ≤ (peer.stream.drop c.header).length := by
    have htaken := h.taken_eq rfl
    have harrived := h.arrived_le
    have hpos := m.pos
    unfold Conn.available at hk
    rw [List.length_drop, Nat.succ_mul]
    omega
  have hblock : msg = block m.val c.sent.length (peer.stream.drop c.header) :=
    hmsg.trans h.message_eq
  have htake : ∀ a, a ≤ m.val → (msg.take a).length = a := by
    intro a ha
    rw [List.length_take, hlen, Nat.min_eq_left ha]
  set out := peer.sends ((c.took (some m.val)).sent.length + 1) with hout
  have hle : allowed out msg.length ≤ m.val := hlen ▸ allowed_le out msg.length
  have htaken : c.taken + m.val ≤ c.arrived := by
    have := h.taken_le
    have := m.pos
    unfold Conn.available at hk
    omega
  have hsent_le : c.header + (c.sent ++ [msg.take (allowed out msg.length)]).flatten.length ≤
      c.taken + m.val := by
    have := h.sent_le
    rw [List.flatten_append, List.length_append, List.flatten_singleton, htake _ hle]
    omega
  by_cases hn : outcome out msg.length < m.val
  · -- the last block is cut, and the connection is dropped
    rw [if_pos (show ((c.took (some m.val)).send peer msg).1 < m.val from hn)]
    refine ⟨h.arrived_le, htaken, h.header_le, ?_, hsent_le, fun hr => absurd hr Bool.false_ne_true,
      fun hr => absurd hr Bool.false_ne_true⟩
    have hcut := Cut.cut c.sent.length (allowed out msg.length) hbody hle
    rw [← h.whole rfl, ← hblock] at hcut
    exact hcut
  · rw [if_neg (show ¬ ((c.took (some m.val)).send peer msg).1 < m.val from hn)]
    have hfull : allowed out msg.length = msg.length :=
      allowed_of_outcome (by rwa [hlen] at hn ⊢)
    have hsent : ((c.took (some m.val)).send peer msg).2.sent =
        (blocks m.val (peer.stream.drop c.header)).take (c.sent.length + 1) := by
      show c.sent ++ [msg.take (allowed out msg.length)] = _
      rw [take_succ_blocks m.pos hbody, ← h.whole rfl, hfull, List.take_length, hblock]
    have hlength : ((c.took (some m.val)).send peer msg).2.sent.length = c.sent.length + 1 := by
      show (c.sent ++ [_]).length = _
      rw [List.length_append, List.length_singleton]
    refine ⟨h.arrived_le, htaken, h.header_le, ?_, hsent_le, fun _ => ?_, fun _ => ?_⟩
    · rw [hsent]
      exact .whole _ hbody
    · rw [hlength]
      exact hsent
    · rw [hlength, Nat.succ_mul, ← Nat.add_assoc]
      show c.taken + m.val = c.header + c.sent.length * m.val + m.val
      rw [h.taken_eq rfl]

end

-- ---------------------------------------------------------------------------
-- The loop
-- ---------------------------------------------------------------------------

variable {cfg : Config} {s t : State} {fd : Nat} {i : Label}

structure Inv (cfg : Config) (s : State) : Prop where
  nodup : s.batch.Nodup
  registered : ∀ fd ∈ s.batch, s.interest fd = true
  /-- only an accepted connection is registered, and `ev` is set since -/
  accepted : ∀ fd, s.interest fd = true → fd ≠ cfg.listenFd →
    fd ∈ s.accepted ∧ s.ev.events = epollIn
  fresh : ∀ fd, fd ∉ s.accepted → (s.conns fd).Fresh
  own : ∀ fd, (s.conns fd).Own cfg.msgSize.val (cfg.peers fd).stream (s.interest fd)

theorem inv_initial (cfg : Config) (junk : Junk) : Inv cfg (initial cfg junk) where
  nodup := List.nodup_nil
  registered := fun _ h => absurd h List.not_mem_nil
  accepted := fun fd h hfd => absurd (by simpa [initial] using h) hfd
  fresh := fun _ _ => ⟨rfl, rfl, rfl, rfl⟩
  own := fun fd => ⟨Nat.zero_le _, Nat.le_refl _, Nat.zero_le _,
    .whole 0 (by rw [Nat.zero_mul]; exact Nat.zero_le _), Nat.le_refl _, fun _ => rfl,
    fun _ => by
      show 0 = 0 + 0 * cfg.msgSize.val
      rw [Nat.zero_mul]⟩

theorem Inv.epollIn (h : Inv cfg s) {rest : List Nat} (hbatch : s.batch = fd :: rest)
    (hfd : fd ≠ cfg.listenFd) : ¬ s.ev.events &&& epollIn = 0 := by
  have hint := h.registered fd (by rw [hbatch]; exact List.mem_cons_self)
  rw [(h.accepted fd hint hfd).2]
  decide

/-- The connection at the head of the batch is served or dropped; the rest of the
batch is not about it. -/
theorem Inv.echo (h : Inv cfg s) {rest : List Nat} (hbatch : s.batch = fd :: rest) {c : Conn}
    {r : Bool} (hown : c.Own cfg.msgSize.val (cfg.peers fd).stream r)
    (hfd : fd ≠ cfg.listenFd) (buf : Bytes) :
    Inv cfg { s.setConn fd c with
      batch := rest, buf := buf, interest := Function.update s.interest fd r } := by
  have hint := h.registered fd (by rw [hbatch]; exact List.mem_cons_self)
  have hacc := h.accepted fd hint hfd
  have hnodup := h.nodup
  rw [hbatch, List.nodup_cons] at hnodup
  refine ⟨hnodup.2, ?_, ?_, ?_, ?_⟩
  · intro fd' hmem
    have hne : fd' ≠ fd := fun heq => hnodup.1 (heq ▸ hmem)
    show Function.update s.interest fd r fd' = true
    rw [Function.update_of_ne hne]
    exact h.registered fd' (by rw [hbatch]; exact List.mem_cons_of_mem _ hmem)
  · intro fd' hreg hfd'
    by_cases heq : fd' = fd
    · subst heq
      exact hacc
    · change Function.update s.interest fd r fd' = true at hreg
      rw [Function.update_of_ne heq] at hreg
      exact h.accepted fd' hreg hfd'
  · intro fd' hnew
    have heq : fd' ≠ fd := by
      rintro rfl
      exact hnew hacc.1
    show (Function.update s.conns fd c fd').Fresh
    rw [Function.update_of_ne heq]
    exact h.fresh fd' hnew
  · intro fd'
    show (Function.update s.conns fd c fd').Own _ _ (Function.update s.interest fd r fd')
    by_cases heq : fd' = fd
    · subst heq
      rwa [Function.update_self, Function.update_self]
    · rw [Function.update_of_ne heq, Function.update_of_ne heq]
      exact h.own fd'

/-- A connection is accepted. -/
theorem Inv.accept (h : Inv cfg s) {rest : List Nat} (hbatch : s.batch = cfg.listenFd :: rest)
    {c : Conn} {header : Option Nat} (hnew : fd ∉ s.accepted) (hfd : fd ≠ cfg.listenFd)
    (hc : handleNewConn (cfg.peers fd) (s.conns fd) header = some c) {ev : Ev} {r x : Bool}
    (hev : r = true → ev.events = Epoll.epollIn) (hold : ev.events = Epoll.epollIn ∨ ev = s.ev) :
    Inv cfg { s.setConn fd c with
      batch := rest, accepted := s.accepted ++ [fd], ev := ev
      interest := Function.update s.interest fd r, exited := x } := by
  have hnodup := h.nodup
  rw [hbatch, List.nodup_cons] at hnodup
  -- the new descriptor is in no batch: it was not registered
  have hunreg : s.interest fd ≠ true := fun hreg => hnew (h.accepted fd hreg hfd).1
  refine ⟨hnodup.2, ?_, ?_, ?_, ?_⟩
  · intro fd' hmem
    have hreg := h.registered fd' (by rw [hbatch]; exact List.mem_cons_of_mem _ hmem)
    have hne : fd' ≠ fd := fun heq => hunreg (heq ▸ hreg)
    show Function.update s.interest fd r fd' = true
    rwa [Function.update_of_ne hne]
  · intro fd' hreg hfd'
    by_cases heq : fd' = fd
    · subst heq
      change Function.update s.interest fd' r fd' = true at hreg
      rw [Function.update_self] at hreg
      exact ⟨List.mem_append_right _ List.mem_cons_self, hev hreg⟩
    · change Function.update s.interest fd r fd' = true at hreg
      rw [Function.update_of_ne heq] at hreg
      obtain ⟨hacc, hevents⟩ := h.accepted fd' hreg hfd'
      refine ⟨List.mem_append_left _ hacc, ?_⟩
      rcases hold with hold | rfl
      · exact hold
      · exact hevents
  · intro fd' hmem
    have hmem' : fd' ∉ s.accepted := fun hin => hmem (List.mem_append_left _ hin)
    have heq : fd' ≠ fd := by
      rintro rfl
      exact hmem (List.mem_append_right _ List.mem_cons_self)
    show (Function.update s.conns fd c fd').Fresh
    rw [Function.update_of_ne heq]
    exact h.fresh fd' hmem'
  · intro fd'
    show (Function.update s.conns fd c fd').Own _ _ (Function.update s.interest fd r fd')
    by_cases heq : fd' = fd
    · subst heq
      rw [Function.update_self, Function.update_self]
      exact (h.own fd').handshake (h.fresh fd' hnew) hc r
    · rw [Function.update_of_ne heq, Function.update_of_ne heq]
      exact h.own fd'

theorem inv_step : (machine cfg).Preserves (Inv cfg) := by
  intro s i t h hstep
  cases step_cases hstep with
  | arrive fd k hk =>
    refine ⟨h.nodup, h.registered, h.accepted, ?_, ?_⟩
    · intro fd' hnew
      show (Function.update s.conns fd _ fd').Fresh
      by_cases heq : fd' = fd
      · subst heq
        rw [Function.update_self]
        have hfresh := h.fresh fd' hnew
        exact ⟨hfresh.taken, hfresh.announced, hfresh.header, hfresh.sent⟩
      · rw [Function.update_of_ne heq]
        exact h.fresh fd' hnew
    · intro fd'
      show (Function.update s.conns fd _ fd').Own _ _ _
      by_cases heq : fd' = fd
      · subst heq
        rw [Function.update_self]
        exact (h.own fd').arrive hk
      · rw [Function.update_of_ne heq]
        exact h.own fd'
  | wait events _ hnodup hint => exact ⟨hnodup, hint, h.accepted, h.fresh, h.own⟩
  | exit => exact ⟨h.nodup, h.registered, h.accepted, h.fresh, h.own⟩
  | accept fd header rest c _ hbatch hnew hfd hc =>
    exact h.accept hbatch hnew hfd hc (fun _ => rfl) (Or.inl rfl)
  | acceptExit fd header rest c hbatch hnew hfd hc =>
    have hunreg : s.interest fd = false := by
      by_contra hreg
      exact hnew (h.accepted fd (by simpa using hreg) hfd).1
    have hsame : Function.update s.interest fd false = s.interest := by
      rw [← hunreg, Function.update_eq_self]
    have hacc := h.accept hbatch hnew hfd hc (r := false) (x := true)
      (fun hr => absurd hr Bool.false_ne_true) (Or.inr (rfl : s.ev = s.ev))
    rwa [hsame] at hacc
  | noEpollIn fd rcv rest hbatch hfd hev => exact absurd hev (h.epollIn hbatch hfd)
  | dropped fd rcv rest n buf hbatch hfd hrecv hn =>
    obtain ⟨-, havail, -⟩ := Conn.recv_cases hrecv
    exact h.echo hbatch ((h.own fd).dropped havail) hfd buf
  | served fd rcv rest n buf hbatch hfd hrecv hn =>
    obtain ⟨-, havail, -, hfull⟩ := Conn.recv_cases hrecv
    obtain ⟨rfl, hbuf⟩ := hfull hn
    obtain ⟨hmsg, hlen⟩ := hbuf (h.own fd).arrived_le
    have hint := h.registered fd (by rw [hbatch]; exact List.mem_cons_self)
    have hown := h.own fd
    rw [hint] at hown
    have hserved := h.echo hbatch (hown.served havail hmsg hlen) hfd buf
    split
    · next hsend => rwa [if_pos hsend] at hserved
    · next hsend =>
      have hsame : Function.update s.interest fd true = s.interest := by
        rw [← hint, Function.update_eq_self]
      rwa [if_neg hsend, hsame] at hserved

-- ---------------------------------------------------------------------------
-- Each connection as if it were alone
-- ---------------------------------------------------------------------------

/-- Is the choice about the connection `fd`? -/
def Label.about (fd : Nat) : Label → Bool
  | .arrive fd' _ => fd' == fd
  | .accept fd' _ _ => fd' == fd
  | .echo fd' _ => fd' == fd
  | _ => false

/-- What becomes of a connection that is served alone: there is no `buf`, a message
is what is next in the client's stream. -/
def Conn.alone (cfg : Config) (fd : Nat) (c : Conn) : Label → Conn
  | .arrive _ k => { c with arrived := c.arrived + k }
  | .accept _ header _ => (handleNewConn (cfg.peers fd) c header).getD c
  | .echo _ rcv =>
    if rcv = some cfg.msgSize.val then ((c.took rcv).send (cfg.peers fd) (cfg.message fd c)).2
    else c.took rcv
  | _ => c

/-- A step changes a connection only if it is about it, and then as if it were
alone: what another connection left in `buf` does not matter. -/
theorem step_conns (fd : Nat) (h : Inv cfg s) (hstep : step cfg s i = some t) :
    t.conns fd = if i.about fd then (s.conns fd).alone cfg fd i else s.conns fd := by
  -- every step that is about a connection updates that connection and no other one
  have hset : ∀ (fd' : Nat) (c : Conn) (i : Label), i.about fd = (fd' == fd) →
      (fd' = fd → c = (s.conns fd).alone cfg fd i) → Function.update s.conns fd' c fd =
        if i.about fd then (s.conns fd).alone cfg fd i else s.conns fd := by
    intro fd' c i hi hc
    by_cases heq : fd' = fd
    · subst heq
      rw [Function.update_self, hi, if_pos (by simp), hc rfl]
    · rw [Function.update_of_ne (Ne.symm heq), hi, if_neg (by simpa using heq)]
  cases step_cases hstep with
  | arrive fd' k =>
    refine hset fd' _ (.arrive fd' k) rfl ?_
    rintro rfl
    rfl
  | wait => rfl
  | exit _ hi => rcases hi with rfl | rfl <;> rfl
  | accept fd' header rest c _ _ _ _ hc =>
    refine hset fd' c (.accept fd' header true) rfl ?_
    rintro rfl
    rw [Conn.alone, hc, Option.getD_some]
  | acceptExit fd' header rest c _ _ _ hc =>
    refine hset fd' c (.accept fd' header false) rfl ?_
    rintro rfl
    rw [Conn.alone, hc, Option.getD_some]
  | noEpollIn fd' rcv rest hbatch hfd hev => exact absurd hev (h.epollIn hbatch hfd)
  | dropped fd' rcv rest n buf _ _ hrecv hn =>
    obtain ⟨-, -, hshort, -⟩ := Conn.recv_cases hrecv
    refine hset fd' _ (.echo fd' rcv) rfl ?_
    rintro rfl
    rw [Conn.alone, if_neg (hshort hn)]
  | served fd' rcv rest n buf _ _ hrecv hn =>
    obtain ⟨-, -, -, hfull⟩ := Conn.recv_cases hrecv
    obtain ⟨hrcv, hbuf⟩ := hfull hn
    refine hset fd' _ (.echo fd' rcv) rfl ?_
    rintro rfl
    rw [Conn.alone, if_pos hrcv, Config.message, (hbuf (h.own fd').arrived_le).1]

/-- What the network and the kernel do about a connection. -/
def own (fd : Nat) (is : List Label) : List Label := is.filter (Label.about fd)

/-- **A connection after a run is what the choices about it make of it alone.** -/
theorem conns_exec (fd : Nat) {is : List Label} (h : Inv cfg s)
    (hrun : (machine cfg).exec s is = some t) :
    t.conns fd = (own fd is).foldl (Conn.alone cfg fd) (s.conns fd) :=
  Machine.view_exec inv_step (fun s => s.conns fd) (Label.about fd) (Conn.alone cfg fd)
    (fun _ _ _ hs hstep => step_conns fd hs hstep) h hrun

-- ---------------------------------------------------------------------------
-- A connection that was dropped
-- ---------------------------------------------------------------------------

/-- What was read from and written to a connection. -/
def Conn.io (c : Conn) : Conn := { c with arrived := 0 }

/-- The loop does nothing more to a connection that is not registered. -/
theorem step_dropped (h : Inv cfg s) (hacc : fd ∈ s.accepted) (hdrop : s.interest fd = false)
    (hstep : step cfg s i = some t) :
    fd ∈ t.accepted ∧ t.interest fd = false ∧ (t.conns fd).io = (s.conns fd).io := by
  have hother : ∀ {fd' : Nat} {rest : List Nat}, s.batch = fd' :: rest → fd ≠ fd' := by
    rintro fd' rest hbatch rfl
    rw [h.registered fd (by rw [hbatch]; exact List.mem_cons_self)] at hdrop
    cases hdrop
  cases step_cases hstep with
  | arrive fd' k =>
    refine ⟨hacc, hdrop, ?_⟩
    show (Function.update s.conns fd' _ fd).io = _
    by_cases heq : fd = fd'
    · subst heq
      rw [Function.update_self]
      rfl
    · rw [Function.update_of_ne heq]
  | wait | exit => exact ⟨hacc, hdrop, rfl⟩
  | accept fd' header rest c _ _ hnew =>
    have hne : fd ≠ fd' := fun heq => hnew (heq ▸ hacc)
    refine ⟨List.mem_append_left _ hacc, ?_, ?_⟩
    · exact (Function.update_of_ne hne _ _).trans hdrop
    · exact congrArg Conn.io (Function.update_of_ne hne _ _)
  | acceptExit fd' header rest c _ hnew =>
    have hne : fd ≠ fd' := fun heq => hnew (heq ▸ hacc)
    exact ⟨List.mem_append_left _ hacc, hdrop, congrArg Conn.io (Function.update_of_ne hne _ _)⟩
  | noEpollIn => exact ⟨hacc, hdrop, rfl⟩
  | dropped fd' rcv rest n buf hbatch =>
    have hne := hother hbatch
    exact ⟨hacc, (Function.update_of_ne hne _ _).trans hdrop,
      congrArg Conn.io (Function.update_of_ne hne _ _)⟩
  | served fd' rcv rest n buf hbatch =>
    have hne := hother hbatch
    refine ⟨hacc, ?_, congrArg Conn.io (Function.update_of_ne hne _ _)⟩
    show (if _ then _ else s.interest) fd = false
    split
    · exact (Function.update_of_ne hne _ _).trans hdrop
    · exact hdrop

theorem dropped_reachable (h : Inv cfg s) (hacc : fd ∈ s.accepted)
    (hdrop : s.interest fd = false) (hrun : (machine cfg).Reachable s t) :
    t.interest fd = false ∧ (t.conns fd).io = (s.conns fd).io := by
  have hkeeps : (machine cfg).Preserves fun u => Inv cfg u ∧
      (fd ∈ u.accepted ∧ u.interest fd = false ∧ (u.conns fd).io = (s.conns fd).io) := by
    refine inv_step.and fun u i v hu _ hd hstep => ?_
    obtain ⟨hacc, hdrop, hio⟩ := hd
    obtain ⟨hacc', hdrop', hio'⟩ := step_dropped hu hacc hdrop hstep
    exact ⟨hacc', hdrop', hio'.trans hio⟩
  exact (hkeeps.reachable ⟨h, hacc, hdrop, rfl⟩ hrun).2.2

-- ---------------------------------------------------------------------------
-- Isolation
-- ---------------------------------------------------------------------------

variable {κ : Type*} [DecidableEq κ]

/-- Any number of event loops side by side: one in `epoll_single`, eight in
`epoll_sharded`. -/
abbrev shards (cfg : κ → Config) : Machine (κ → State) (κ × Label) :=
  Machine.family fun k => machine (cfg k)

/-- What a connection is sent is a contiguous run of its own blocks, of bytes it was
taken from before. -/
structure Sent (cfg : Config) (fd : Nat) (c : Conn) : Prop where
  header_le : c.header ≤ 2
  blocks : Cut cfg.msgSize.val ((cfg.peers fd).stream.drop c.header) c.sent
  run : c.sent.flatten <+: ((cfg.peers fd).stream.take c.taken).drop c.header
  received : c.taken ≤ c.arrived ∧ c.arrived ≤ (cfg.peers fd).stream.length

theorem Conn.Own.sent {c : Conn} {r : Bool}
    (h : c.Own cfg.msgSize.val (cfg.peers fd).stream r) : Sent cfg fd c where
  header_le := h.header_le
  blocks := h.cut
  run := by
    have hle := h.sent_le
    have hpre := h.cut.flatten_prefix cfg.msgSize.pos
    rw [List.prefix_iff_eq_take] at hpre ⊢
    rw [List.drop_take, List.take_take, Nat.min_eq_left (by omega)]
    exact hpre
  received := ⟨h.taken_le, h.arrived_le⟩

/-- **Isolation.** At any time each accepted connection is sent its own blocks; one
that is not registered any more is left alone; and two runs in which the same is
sent by the client of a connection, and the same happens to that connection, do
the same to it, whatever else is different. -/
theorem mainLoop_isolated (cfg : κ → Config) (junk : κ → Junk) :
    (∀ s, (shards cfg).Reachable (fun k => initial (cfg k) (junk k)) s →
      ∀ k, ∀ fd ∈ (s k).accepted, Sent (cfg k) fd ((s k).conns fd)) ∧
    (∀ s t, (shards cfg).Reachable (fun k => initial (cfg k) (junk k)) s →
      (shards cfg).Reachable s t → ∀ k, ∀ fd ∈ (s k).accepted, (s k).interest fd = false →
        (t k).interest fd = false ∧ ((t k).conns fd).io = ((s k).conns fd).io) ∧
    (∀ (cfg' : κ → Config) (junk' : κ → Junk) (is is' : List (κ × Label)) (s s' : κ → State),
      (shards cfg).exec (fun k => initial (cfg k) (junk k)) is = some s →
      (shards cfg').exec (fun k => initial (cfg' k) (junk' k)) is' = some s' →
      ∀ k fd, (cfg k).msgSize = (cfg' k).msgSize → (cfg k).peers fd = (cfg' k).peers fd →
        own fd (Machine.component k is) = own fd (Machine.component k is') →
        (s k).conns fd = (s' k).conns fd) := by
  have hinv : ∀ (k : κ) (s : κ → State),
      (shards cfg).Reachable (fun k => initial (cfg k) (junk k)) s → Inv (cfg k) (s k) :=
    fun k s hs => inv_step.reachable (inv_initial _ _) (Machine.family_reachable hs k)
  refine ⟨?_, ?_, ?_⟩
  · intro s hs k fd _
    exact ((hinv k s hs).own fd).sent
  · intro s t hs ht k fd hacc hdrop
    exact dropped_reachable (hinv k s hs) hacc hdrop (Machine.family_reachable ht k)
  · intro cfg' junk' is is' s s' hs hs' k fd hsize hpeer hown
    rw [conns_exec fd (inv_initial _ _) (Machine.family_exec hs k),
      conns_exec fd (inv_initial _ _) (Machine.family_exec hs' k), hown]
    have hsame : Conn.alone (cfg k) fd = Conn.alone (cfg' k) fd := by
      funext c i
      cases i <;> simp only [Conn.alone, Config.message, hsize, hpeer]
    rw [hsame]
    rfl

end EchoServer.Epoll
