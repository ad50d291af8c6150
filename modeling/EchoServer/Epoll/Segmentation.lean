import EchoServer.Epoll.Isolation
import EchoServer.Threaded.Simple

/-!
# epoll against simple.c — streams cut into pieces

On a non-blocking socket `recv` returns what is there, `MSG_WAITALL` or not, and
`main_loop` takes a short `recv` for the end of the connection. So a block that
arrives in pieces is lost, with all that follows it, when the loop looks at the
connection between two of the pieces; `handle_conn` of `simple.c` waits.

A `send` on such a socket returns at once as well: when the client is slow to
read, it takes a part of the block or fails with `EAGAIN`, and the loop drops the
connection for that, too. On the blocking socket of `simple.c` it waits until it
has taken all.

The comparison is between

* a run of the loop, with any segmentation, any order of events and any outcome
  of its `send`s, in which nothing is left to happen to the connection
  (`Settled`), whose handshake went through (`Conn.Handshake`);
* `handle_conn` of `simple.c` on the same stream, with any segmentation, where
  every `send` takes all (`blocking`), so that every complete block is echoed.

## Results

* `live_run` — from a connection in service to the end of a run;
* `mainLoop_segmentation` — the loop sends what `handle_conn` sends exactly when
  every block of the connection has arrived whole when its event is handled, and
  its `send` takes it whole;
* `mainLoop_splitBlock` — the shortest run in which a block has not.
-/

namespace EchoServer.Epoll

open EchoServer.Lib EchoServer.Threaded

variable {cfg : Config} {s t : State} {fd : Nat} {i : Label} {is : List Label}

-- ---------------------------------------------------------------------------
-- Runs and connections
-- ---------------------------------------------------------------------------

/-- What the loop puts on the wire of a connection. -/
def Conn.wire (m : MsgSize) (c : Conn) : Bytes := (htonl m.val).take c.announced ++ c.sent.flatten

/-- `handle_new_conn` has gone through. -/
structure Conn.Handshake (c : Conn) : Prop where
  announced : c.announced = 4
  header : c.header = 2

/-- A `recv` on a non-blocking socket takes what has arrived, up to its length. -/
def AvailableNow (cfg : Config) (s : State) (i : Label) : Prop :=
  ∀ fd rcv, i = .echo fd rcv → rcv.getD 0 = min cfg.msgSize.val (s.conns fd).available

/-- Nothing is left to happen to the connection `fd`: it is accepted, all of its
stream has arrived, and as long as it is registered there is nothing unread. -/
structure Settled (cfg : Config) (fd : Nat) (s : State) : Prop where
  running : s.exited = false
  accepted : fd ∈ s.accepted
  arrived : (s.conns fd).arrived = (cfg.peers fd).stream.length
  idle : s.interest fd = true → (s.conns fd).taken = (s.conns fd).arrived

/-- A block of the connection `fd` that is still unread when an event of it is handled
has arrived whole, and its `send` takes it whole. -/
def Whole (cfg : Config) (fd : Nat) (s : State) (i : Label) : Prop :=
  ∀ rcv, i = .echo fd rcv →
    cfg.msgSize.val ≤ (cfg.peers fd).stream.length - (s.conns fd).taken →
    cfg.msgSize.val ≤ (s.conns fd).available ∧
      allowed ((cfg.peers fd).sends ((s.conns fd).sent.length + 1)) cfg.msgSize.val =
        cfg.msgSize.val

instance (cfg : Config) (s : State) : (i : Label) → Decidable (AvailableNow cfg s i)
  | .echo fd rcv =>
    decidable_of_iff (rcv.getD 0 = min cfg.msgSize.val (s.conns fd).available)
      ⟨fun h _ _ hi => by cases hi; exact h, fun h => h fd rcv rfl⟩
  | .arrive .. | .wait _ | .waitFails | .accept .. | .acceptFails =>
    isTrue fun _ _ hi => by cases hi

/-- The connection is in service: what is on the wire and what is still to be sent
make up what belongs there. -/
structure Live (cfg : Config) (fd : Nat) (s : State) : Prop where
  accepted : fd ∈ s.accepted
  registered : s.interest fd = true
  rest : (s.conns fd).wire cfg.msgSize ++
      (blocks cfg.msgSize.val ((cfg.peers fd).stream.drop (s.conns fd).taken)).flatten =
    fullWire cfg.msgSize (cfg.peers fd).stream

theorem wire_of_io {m : MsgSize} {c c' : Conn} (h : c'.io = c.io) : c'.wire m = c.wire m := by
  have hannounced : c'.announced = c.announced := congrArg (fun c => c.announced) h
  have hsent : c'.sent = c.sent := congrArg (fun c => c.sent) h
  rw [Conn.wire, Conn.wire, hannounced, hsent]

-- ---------------------------------------------------------------------------
-- After the connection is dropped
-- ---------------------------------------------------------------------------

theorem not_echo_of_unregistered (h : Inv cfg s) (hdrop : s.interest fd = false)
    {rcv : Option Nat} : step cfg s (.echo fd rcv) ≠ some t := by
  intro hstep
  have hbatch : ∃ rest, s.batch = fd :: rest := by
    cases step_cases hstep with
    | noEpollIn _ _ rest hbatch | dropped _ _ rest _ _ hbatch | served _ _ rest _ _ hbatch =>
      exact ⟨rest, hbatch⟩
    | exit _ hi => rcases hi with hi | hi <;> cases hi
  obtain ⟨rest, hbatch⟩ := hbatch
  rw [h.registered fd (by rw [hbatch]; exact List.mem_cons_self)] at hdrop
  cases hdrop

/-- A step that is not about an event of the connection. -/
theorem whole_of_ne (h : ∀ rcv, i ≠ .echo fd rcv) : Whole cfg fd s i :=
  fun rcv hi => absurd hi (h rcv)

theorem dropped_run (h : Inv cfg s) (hacc : fd ∈ s.accepted) (hdrop : s.interest fd = false)
    (hrun : (machine cfg).exec s is = some t) :
    (t.conns fd).wire cfg.msgSize = (s.conns fd).wire cfg.msgSize ∧
      (machine cfg).Along (Whole cfg fd) s is := by
  induction is generalizing s with
  | nil =>
    obtain rfl : s = t := by simpa using hrun
    exact ⟨rfl, trivial⟩
  | cons i is ih =>
    obtain ⟨u, hu, hrest⟩ := Machine.exec_cons_iff.mp hrun
    obtain ⟨hacc', hdrop', hio⟩ := step_dropped h hacc hdrop hu
    obtain ⟨hwire, halong⟩ := ih (inv_step h hu) hacc' hdrop' hrest
    refine ⟨hwire.trans (wire_of_io hio), (Machine.along_cons_iff hu).mpr ⟨?_, halong⟩⟩
    refine whole_of_ne fun rcv hi => ?_
    subst hi
    exact not_echo_of_unregistered h hdrop hu

-- ---------------------------------------------------------------------------
-- While the connection is in service
-- ---------------------------------------------------------------------------

theorem Live.of_same (h : Live cfg fd s) (hacc : fd ∈ t.accepted) (hreg : t.interest fd = true)
    (hio : (t.conns fd).io = (s.conns fd).io) : Live cfg fd t := by
  have htaken : (t.conns fd).taken = (s.conns fd).taken := congrArg (fun c => c.taken) hio
  refine ⟨hacc, hreg, ?_⟩
  rw [wire_of_io hio, htaken]
  exact h.rest

/-- What is sent last before the connection is dropped: nothing that belongs on the
wire is missing exactly when no whole block was left. -/
theorem Live.dropped (h : Live cfg fd s) {rcv : Option Nat}
    (hrcv : rcv.getD 0 = min cfg.msgSize.val (s.conns fd).available)
    (hshort : rcv ≠ some cfg.msgSize.val) :
    (s.conns fd).wire cfg.msgSize = fullWire cfg.msgSize (cfg.peers fd).stream ↔
      Whole cfg fd s (.echo fd rcv) := by
  have havail : (s.conns fd).available < cfg.msgSize.val := by
    by_contra hge
    rw [Nat.min_eq_left (Nat.not_lt.mp hge)] at hrcv
    have hpos := cfg.msgSize.pos
    cases rcv with
    | none =>
      rw [Option.getD_none] at hrcv
      omega
    | some k => exact hshort (congrArg some hrcv)
  have hrest := h.rest
  have hwire : (s.conns fd).wire cfg.msgSize = fullWire cfg.msgSize (cfg.peers fd).stream ↔
      (blocks cfg.msgSize.val ((cfg.peers fd).stream.drop (s.conns fd).taken)).flatten = [] := by
    rw [← hrest]
    exact ⟨fun heq => List.append_right_eq_self.mp heq.symm, fun heq => (by rw [heq, List.append_nil])⟩
  rw [hwire, flatten_blocks_eq_nil cfg.msgSize.pos, List.length_drop]
  constructor
  · intro hnone rcv' _ hunread
    exact absurd hnone (Nat.not_lt.mpr hunread)
  · intro hwhole
    by_contra hunread
    have harrived := (hwhole rcv rfl (Nat.not_lt.mp hunread)).1
    omega

/-- A message is handed to `send`: the connection stays in service if all of it was
taken, and something is missing on the wire if not. -/
theorem Live.served (h : Live cfg fd s) (hown : Inv cfg s)
    (havail : cfg.msgSize.val ≤ (s.conns fd).available) {msg : Bytes}
    (hmsg : msg = ((cfg.peers fd).stream.drop (s.conns fd).taken).take cfg.msgSize.val)
    (hlen : msg.length = cfg.msgSize.val) {x : Int × Conn}
    (hx : x = ((s.conns fd).took (some cfg.msgSize.val)).send (cfg.peers fd) msg) :
    (x.1 < cfg.msgSize.val → x.2.wire cfg.msgSize ≠ fullWire cfg.msgSize (cfg.peers fd).stream ∧
        allowed ((cfg.peers fd).sends ((s.conns fd).sent.length + 1)) cfg.msgSize.val ≠
          cfg.msgSize.val) ∧
      (¬ x.1 < cfg.msgSize.val → x.2.wire cfg.msgSize ++
          (blocks cfg.msgSize.val ((cfg.peers fd).stream.drop x.2.taken)).flatten =
        fullWire cfg.msgSize (cfg.peers fd).stream ∧
        allowed ((cfg.peers fd).sends ((s.conns fd).sent.length + 1)) cfg.msgSize.val =
          cfg.msgSize.val) := by
  have hmore : cfg.msgSize.val ≤ ((cfg.peers fd).stream.drop (s.conns fd).taken).length := by
    have := (hown.own fd).arrived_le
    unfold Conn.available at havail
    rw [List.length_drop]
    omega
  have hrest := h.rest
  rw [blocks_cons cfg.msgSize.pos hmore, ← hmsg, List.drop_drop, List.flatten_cons,
    ← List.append_assoc] at hrest
  set c := s.conns fd with hc
  have hwire : x.2.wire cfg.msgSize = c.wire cfg.msgSize ++
      msg.take (allowed ((cfg.peers fd).sends (c.sent.length + 1)) msg.length) := by
    rw [hx]
    show (htonl cfg.msgSize.val).take c.announced ++
      (c.sent ++ [msg.take (allowed _ msg.length)]).flatten = (_ ++ c.sent.flatten) ++ _
    rw [List.flatten_append, List.flatten_singleton, List.append_assoc]
    rfl
  have hn : x.1 = outcome ((cfg.peers fd).sends (c.sent.length + 1)) msg.length := by
    rw [hx]
    rfl
  refine ⟨fun hshort => ?_, fun hfull => ?_⟩
  · rw [hn, ← hlen] at hshort
    have hlt := allowed_lt_of_outcome (hlen ▸ cfg.msgSize.pos) hshort
    refine ⟨fun heq => ?_, hlen ▸ Nat.ne_of_lt hlt⟩
    -- the wire is too short to be the full one
    have hlens := congrArg List.length (hwire.symm.trans (heq.trans hrest.symm))
    simp only [List.length_append, List.length_take] at hlens
    omega
  · rw [hn, ← hlen] at hfull
    have hall := allowed_of_outcome hfull
    have hnext : x.2.taken = c.taken + cfg.msgSize.val := by
      rw [hx]
      rfl
    refine ⟨?_, hlen ▸ hall⟩
    rw [hwire, hnext, hall, List.take_length]
    exact hrest

/-- What a step does to a connection in service. -/
inductive Effect (cfg : Config) (fd : Nat) (s u : State) : Label → Prop
  | none (i : Label) : (∀ rcv, i ≠ .echo fd rcv) → u.interest fd = true →
      (u.conns fd).io = (s.conns fd).io → Effect cfg fd s u i
  | dropped (rcv : Option Nat) : rcv ≠ some cfg.msgSize.val → u.interest fd = false →
      u.conns fd = (s.conns fd).took rcv → Effect cfg fd s u (.echo fd rcv)
  | served (msg : Bytes) (x : Int × Conn) : cfg.msgSize.val ≤ (s.conns fd).available →
      msg = ((cfg.peers fd).stream.drop (s.conns fd).taken).take cfg.msgSize.val →
      msg.length = cfg.msgSize.val →
      x = ((s.conns fd).took (some cfg.msgSize.val)).send (cfg.peers fd) msg →
      u.interest fd = (if x.1 < cfg.msgSize.val then false else true) → u.conns fd = x.2 →
      Effect cfg fd s u (.echo fd (some cfg.msgSize.val))

theorem accepted_step (hstep : step cfg s i = some t) (hacc : fd ∈ s.accepted) :
    fd ∈ t.accepted := by
  cases step_cases hstep with
  | accept | acceptExit => exact List.mem_append_left _ hacc
  | arrive | wait | exit | noEpollIn | dropped | served => exact hacc

theorem effect_of_step (hinv : Inv cfg s) (hacc : fd ∈ s.accepted) (hreg : s.interest fd = true)
    (hstep : step cfg s i = some t) : Effect cfg fd s t i := by
  have hconn : ∀ {fd' : Nat} (c : Conn), fd' ≠ fd →
      (Function.update s.conns fd' c fd).io = (s.conns fd).io :=
    fun c hne => congrArg Conn.io (Function.update_of_ne (Ne.symm hne) ..)
  have hint : ∀ {fd' : Nat} (r : Bool), fd' ≠ fd → Function.update s.interest fd' r fd = true :=
    fun r hne => (Function.update_of_ne (Ne.symm hne) ..).trans hreg
  cases step_cases hstep with
  | arrive fd' k =>
    refine .none _ (fun _ hi => by cases hi) hreg ?_
    show (Function.update s.conns fd' _ fd).io = _
    by_cases heq : fd' = fd
    · subst heq
      rw [Function.update_self]
      rfl
    · exact hconn _ heq
  | wait => exact .none _ (fun _ hi => by cases hi) hreg rfl
  | exit _ hi =>
    refine .none _ (fun _ hi' => ?_) hreg rfl
    subst hi'
    rcases hi with hi | hi <;> cases hi
  | accept fd' header rest c _ _ hnew =>
    have hne : fd' ≠ fd := fun heq => hnew (heq ▸ hacc)
    exact .none _ (fun _ hi => by cases hi) (hint true hne) (hconn c hne)
  | acceptExit fd' header rest c _ hnew =>
    have hne : fd' ≠ fd := fun heq => hnew (heq ▸ hacc)
    exact .none _ (fun _ hi => by cases hi) hreg (hconn c hne)
  | noEpollIn fd' rcv rest hbatch hfd hev => exact absurd hev (hinv.epollIn hbatch hfd)
  | dropped fd' rcv rest n buf hbatch hfd hrecv hn =>
    by_cases heq : fd' = fd
    · subst heq
      obtain ⟨-, -, hshort, -⟩ := Conn.recv_cases hrecv
      exact .dropped rcv (hshort hn) (Function.update_self ..) (Function.update_self ..)
    · exact .none _ (fun _ hi => by cases hi; exact heq rfl) (hint false heq) (hconn _ heq)
  | served fd' rcv rest n buf hbatch hfd hrecv hn =>
    by_cases heq : fd' = fd
    · subst heq
      obtain ⟨-, hle, -, hfull⟩ := Conn.recv_cases hrecv
      obtain ⟨rfl, hbuf⟩ := hfull hn
      obtain ⟨hmsg, hlen⟩ := hbuf (hinv.own fd').arrived_le
      refine .served _ _ hle hmsg hlen rfl ?_ (Function.update_self ..)
      show (if _ then Function.update s.interest fd' false else s.interest) fd' = _
      split
      · exact Function.update_self ..
      · exact hreg
    · refine .none _ (fun _ hi => by cases hi; exact heq rfl) ?_ (hconn _ heq)
      show (if _ then Function.update s.interest fd' false else s.interest) fd = true
      split
      · exact hint false heq
      · exact hreg

/-- From a connection in service to the end of a run. -/
theorem live_run (hinv : Inv cfg s) (h : Live cfg fd s) (hrun : (machine cfg).exec s is = some t)
    (havail : (machine cfg).Along (AvailableNow cfg) s is) (hend : Settled cfg fd t) :
    (t.conns fd).wire cfg.msgSize = fullWire cfg.msgSize (cfg.peers fd).stream ↔
      (machine cfg).Along (Whole cfg fd) s is := by
  induction is generalizing s with
  | nil =>
    obtain rfl : s = t := by simpa using hrun
    refine iff_of_true ?_ trivial
    -- nothing is unread
    have hrest := h.rest
    rw [hend.idle h.registered, hend.arrived, List.drop_length,
      blocks_of_length_lt (by simpa using cfg.msgSize.pos), List.flatten_nil, List.append_nil] at hrest
    exact hrest
  | cons i is ih =>
    obtain ⟨u, hu, hrest⟩ := Machine.exec_cons_iff.mp hrun
    obtain ⟨hnow, hlater⟩ := (Machine.along_cons_iff hu).mp havail
    have hinv' := inv_step hinv hu
    have hacc := accepted_step hu h.accepted
    rw [Machine.along_cons_iff hu]
    cases effect_of_step hinv h.accepted h.registered hu with
    | none _ hi hreg hio =>
      rw [ih hinv' (h.of_same hacc hreg hio) hrest hlater]
      exact ⟨fun halong => ⟨whole_of_ne hi, halong⟩, fun hboth => hboth.2⟩
    | dropped rcv hshort hreg hconn =>
      obtain ⟨hwire, halong⟩ := dropped_run hinv' hacc hreg hrest
      have hsame : (u.conns fd).wire cfg.msgSize = (s.conns fd).wire cfg.msgSize := by
        rw [hconn]
        rfl
      rw [hwire, hsame, h.dropped (hnow fd rcv rfl) hshort]
      exact ⟨fun hwhole => ⟨hwhole, halong⟩, fun hboth => hboth.1⟩
    | served msg x hle hmsg hlen hx hreg hconn =>
      obtain ⟨hcut, hfull⟩ := h.served hinv hle hmsg hlen hx
      by_cases hn : x.1 < cfg.msgSize.val
      · -- the `send` came up short: a part of the block is lost, with all that follows
        rw [if_pos hn] at hreg
        obtain ⟨hwire, -⟩ := dropped_run hinv' hacc hreg hrest
        obtain ⟨hmissing, hnot⟩ := hcut hn
        have hunread : cfg.msgSize.val ≤ (cfg.peers fd).stream.length - (s.conns fd).taken := by
          have := (hinv.own fd).arrived_le
          unfold Conn.available at hle
          omega
        exact iff_of_false (by rw [hwire, hconn]; exact hmissing)
          fun hboth => hnot (hboth.1 _ rfl hunread).2
      · rw [if_neg hn] at hreg
        obtain ⟨hrest', hall⟩ := hfull hn
        have hwhole : Whole cfg fd s (.echo fd (some cfg.msgSize.val)) := fun _ _ _ => ⟨hle, hall⟩
        have hlive : Live cfg fd u := ⟨hacc, hreg, by rw [hconn]; exact hrest'⟩
        rw [ih hinv' hlive hrest hlater]
        exact ⟨fun halong => ⟨hwhole, halong⟩, fun hboth => hboth.2⟩

-- ---------------------------------------------------------------------------
-- From the start
-- ---------------------------------------------------------------------------

/-- The handshake of a connection is over when it is accepted. -/
theorem handshake_exec (hinv : Inv cfg s) (hacc : fd ∈ s.accepted)
    (hrun : (machine cfg).exec s is = some t) :
    (t.conns fd).announced = (s.conns fd).announced ∧ (t.conns fd).header = (s.conns fd).header := by
  have hstep : (machine cfg).Preserves fun u => (Inv cfg u ∧ fd ∈ u.accepted) ∧
      ((u.conns fd).announced = (s.conns fd).announced ∧
        (u.conns fd).header = (s.conns fd).header) := by
    rintro u i v ⟨⟨hu, hacc⟩, hann, hhead⟩ hstep
    refine ⟨⟨inv_step hu hstep, accepted_step hstep hacc⟩, ?_⟩
    have hsame : (v.conns fd).announced = (u.conns fd).announced ∧
        (v.conns fd).header = (u.conns fd).header := by
      by_cases hreg : u.interest fd = true
      · cases effect_of_step hu hacc hreg hstep with
        | none _ _ _ hio =>
          exact ⟨congrArg (fun c => c.announced) hio, congrArg (fun c => c.header) hio⟩
        | dropped _ _ _ hconn =>
          rw [hconn]
          exact ⟨rfl, rfl⟩
        | served msg x _ _ _ hx _ hconn =>
          rw [hconn, hx]
          exact ⟨rfl, rfl⟩
      · obtain ⟨-, -, hio⟩ := step_dropped hu hacc (by simpa using hreg) hstep
        exact ⟨congrArg (fun c => c.announced) hio, congrArg (fun c => c.header) hio⟩
    exact ⟨hsame.1.trans hann, hsame.2.trans hhead⟩
  exact (hstep.exec ⟨⟨hinv, hacc⟩, rfl, rfl⟩ hrun).2

theorem exited_exec (hexit : s.exited = true) (hrun : (machine cfg).exec s is = some t) :
    t.exited = true := by
  have hkeeps : (machine cfg).Preserves fun u => u.exited = true := by
    intro u i v hu hstep
    cases step_cases hstep with
    | accept fd header rest c hrunning =>
      rw [hu] at hrunning
      cases hrunning
    | arrive | wait | dropped | served => exact hu
    | exit | acceptExit | noEpollIn => rfl
  exact hkeeps.exec hexit hrun

/-- A connection whose handshake has gone through is in service. -/
theorem live_of_accept {rest : List Nat} {header : Option Nat} {c : Conn} (hinv : Inv cfg s)
    (hnew : fd ∉ s.accepted) (hc : handleNewConn (cfg.peers fd) (s.conns fd) header = some c)
    (hhand : c.Handshake) :
    Live cfg fd { s.setConn fd c with
      batch := rest, accepted := s.accepted ++ [fd], ev := ⟨epollIn, fd⟩
      interest := Function.update s.interest fd true } := by
  refine ⟨List.mem_append_right _ List.mem_cons_self, Function.update_self .., ?_⟩
  show (Function.update s.conns fd c fd).wire _ ++
    (blocks _ (List.drop (Function.update s.conns fd c fd).taken _)).flatten = _
  rw [Function.update_self]
  have hfresh := hinv.fresh fd hnew
  obtain ⟨-, hsent, hann, hhead⟩ := handleNewConn_cases hc
  have htaken : c.taken = 2 := by
    have := hhand.header
    rw [hfresh.taken, hfresh.header] at hhead
    rcases hhead with ⟨-, hh⟩ | ⟨k, -, -, ht, hh⟩
    · omega
    · omega
  rw [Conn.wire, hsent, hfresh.sent, htaken, hhand.announced, fullWire, List.flatten_nil,
    List.append_nil, List.take_of_length_le (Nat.le_of_eq (length_htonl _))]

/-- From before the connection is accepted to the end of a run. -/
theorem waiting_run (hinv : Inv cfg s) (hnew : fd ∉ s.accepted)
    (hrun : (machine cfg).exec s is = some t)
    (havail : (machine cfg).Along (AvailableNow cfg) s is) (hend : Settled cfg fd t)
    (hhand : (t.conns fd).Handshake) :
    (t.conns fd).wire cfg.msgSize = fullWire cfg.msgSize (cfg.peers fd).stream ↔
      (machine cfg).Along (Whole cfg fd) s is := by
  induction is generalizing s with
  | nil =>
    obtain rfl : s = t := by simpa using hrun
    exact absurd hend.accepted hnew
  | cons i is ih =>
    obtain ⟨u, hu, hrest⟩ := Machine.exec_cons_iff.mp hrun
    obtain ⟨-, hlater⟩ := (Machine.along_cons_iff hu).mp havail
    have hinv' := inv_step hinv hu
    have hwhole : Whole cfg fd s i := by
      refine whole_of_ne fun rcv hi => ?_
      subst hi
      -- a descriptor that is not accepted is in no batch
      have hecho : ∀ rest, s.batch = fd :: rest → fd ≠ cfg.listenFd → False := by
        intro rest hbatch hfd
        have hreg := hinv.registered fd (by rw [hbatch]; exact List.mem_cons_self)
        exact hnew (hinv.accepted fd hreg hfd).1
      have hstep : step cfg s (.echo fd rcv) = some u := hu
      cases step_cases hstep with
      | noEpollIn _ _ rest hbatch hfd | dropped _ _ rest _ _ hbatch hfd
      | served _ _ rest _ _ hbatch hfd => exact hecho rest hbatch hfd
      | exit _ hi => rcases hi with hi | hi <;> cases hi
    rw [Machine.along_cons_iff hu]
    by_cases hacc : fd ∈ u.accepted
    · refine Iff.trans ?_ ⟨fun halong => ⟨hwhole, halong⟩, fun hboth => hboth.2⟩
      have hnow : (u.conns fd).Handshake := by
        obtain ⟨hann, hhead⟩ := handshake_exec hinv' hacc hrest
        exact ⟨hann.symm.trans hhand.announced, hhead.symm.trans hhand.header⟩
      cases step_cases hu with
      | accept fd' header rest c _ _ _ _ hc =>
        have heq : fd = fd' := by
          rcases List.mem_append.mp hacc with hold | hone
          · exact absurd hold hnew
          · exact List.mem_singleton.mp hone
        subst heq
        have hc' : c.Handshake := by
          have hself : (Function.update s.conns fd c fd).Handshake := hnow
          rwa [Function.update_self] at hself
        exact live_run hinv' (live_of_accept hinv hnew hc hc') hrest hlater hend
      | acceptExit =>
        have hexit := exited_exec rfl hrest
        rw [hend.running] at hexit
        cases hexit
      | arrive | wait | exit | noEpollIn | dropped | served => exact absurd hacc hnew
    · rw [ih hinv' hacc hrest hlater]
      exact ⟨fun halong => ⟨hwhole, halong⟩, fun hboth => hboth.2⟩

/-- **Exactly when the loop sends what `handle_conn` sends.** `handle_conn` of
`simple.c`, whose `send`s block, inevitably puts the announcement and every complete
block of the stream on the wire. In a run of the loop in which nothing more can happen
to a connection whose handshake went through, the loop has put the same there if and
only if every block had arrived whole when an event of the connection was handled, and
was taken whole by its `send`. -/
theorem mainLoop_segmentation (cfg : Config) (junk : Junk) (fd : Nat) (is : List Label) (s : State)
    (hrun : (machine cfg).exec (initial cfg junk) is = some s)
    (havail : (machine cfg).Along (AvailableNow cfg) (initial cfg junk) is)
    (hend : Settled cfg fd s) (hhand : (s.conns fd).Handshake) :
    (∀ stack, (Session.machine (Simple.handleConn cfg.msgSize)
        (blocking (cfg.peers fd).stream)).Inevitably
      (fun x => x.thread.pc = .returned ∧ x.wire = fullWire cfg.msgSize (cfg.peers fd).stream)
      (Session.start (Simple.entry cfg.msgSize stack))) ∧
    ((s.conns fd).wire cfg.msgSize = fullWire cfg.msgSize (cfg.peers fd).stream ↔
      (machine cfg).Along (Whole cfg fd) (initial cfg junk) is) := by
  refine ⟨fun stack => ?_, ?_⟩
  · rw [← echoWire_blocking]
    exact Simple.handleConn_wire cfg.msgSize (blocking (cfg.peers fd).stream) stack
  · exact waiting_run (inv_initial cfg junk) (fun hmem => absurd hmem List.not_mem_nil) hrun havail
      hend hhand

-- ---------------------------------------------------------------------------
-- A block that arrives in two pieces
-- ---------------------------------------------------------------------------

/-- A client that sends its header and one message of four bytes. -/
def oneMessage : Config :=
  ⟨four, 3, fun _ => ⟨[72, 105, 1, 2, 3, 4], fun _ => some bufSize⟩⟩

def zeros : Junk := ⟨EchoServer.zeros, ⟨0, 0⟩⟩

/-- What a run of `oneMessage` comes to for the connection 5. -/
def outcomeOf (is : List Label) : Option (Bool × List Nat × Bool × Conn) :=
  ((machine oneMessage).exec (initial oneMessage zeros) is).map fun s =>
    (s.exited, s.accepted, s.interest 5, s.conns 5)

theorem settled_of_outcome (is : List Label) {r : Bool} {c : Conn} (h : outcomeOf is = some (false, [5], r, c))
    (harrived : c.arrived = 6) (hidle : r = true → c.taken = 6) :
    ∃ s, (machine oneMessage).exec (initial oneMessage zeros) is = some s ∧
      Settled oneMessage 5 s ∧ s.conns 5 = c := by
  obtain ⟨s, hs, heq⟩ := Option.map_eq_some_iff.mp h
  simp only [Prod.mk.injEq] at heq
  obtain ⟨hexit, hacc, hint, hconn⟩ := heq
  refine ⟨s, hs, ⟨hexit, by rw [hacc]; exact List.mem_cons_self, by rw [hconn]; exact harrived, ?_⟩,
    hconn⟩
  intro hreg
  rw [hconn, harrived]
  exact hidle (hint.symm.trans hreg)

/-- The message arrives before the loop looks at the connection. -/
def wholeBlock : List Label :=
  [.arrive 5 2, .wait [3], .accept 5 (some 2) true, .arrive 5 4, .wait [5], .echo 5 (some 4)]

theorem mainLoop_segmentation_wholeBlock :
    ∃ s, (machine oneMessage).exec (initial oneMessage zeros) wholeBlock = some s ∧
      (s.conns 5).sent = [[1, 2, 3, 4]] ∧
      (machine oneMessage).Along (Whole oneMessage 5) (initial oneMessage zeros) wholeBlock := by
  obtain ⟨s, hs, hend, hconn⟩ := settled_of_outcome wholeBlock (r := true)
    (c := ⟨6, 6, 4, 2, [[1, 2, 3, 4]]⟩) (by decide) rfl (fun _ => rfl)
  have hhand : (s.conns 5).Handshake := by
    rw [hconn]
    exact ⟨rfl, rfl⟩
  obtain ⟨-, hiff⟩ := mainLoop_segmentation oneMessage zeros 5 wholeBlock s hs (by decide) hend hhand
  refine ⟨s, hs, by rw [hconn], hiff.mp ?_⟩
  rw [hconn]
  decide

/-- The loop looks at the connection between the two halves of the message. -/
def splitBlock : List Label :=
  [.arrive 5 2, .wait [3], .accept 5 (some 2) true, .arrive 5 2, .wait [5], .echo 5 (some 2),
    .arrive 5 2]

theorem mainLoop_splitBlock :
    ∃ s, (machine oneMessage).exec (initial oneMessage zeros) splitBlock = some s ∧
      (machine oneMessage).Along (AvailableNow oneMessage) (initial oneMessage zeros) splitBlock ∧
      Settled oneMessage 5 s ∧ (s.conns 5).Handshake ∧
      (s.conns 5).wire oneMessage.msgSize = htonl 4 ∧
      fullWire oneMessage.msgSize (oneMessage.peers 5).stream = htonl 4 ++ [1, 2, 3, 4] := by
  obtain ⟨s, hs, hend, hconn⟩ := settled_of_outcome splitBlock (r := false)
    (c := ⟨6, 4, 4, 2, []⟩) (by decide) rfl (fun h => by cases h)
  refine ⟨s, hs, by decide, hend, ?_, ?_, by decide⟩
  · rw [hconn]
    exact ⟨rfl, rfl⟩
  · rw [hconn]
    decide

/-- A whole block whose `send` fails with `EAGAIN` is dropped as well. -/
example :
    ((machine { oneMessage with
        peers := fun _ => ⟨[72, 105, 1, 2, 3, 4], fun j => if j = 0 then some 4 else none⟩ }).exec
      (initial oneMessage zeros) wholeBlock).map (fun s => (s.interest 5, (s.conns 5).sent)) =
      some (false, [[]]) := by decide

end EchoServer.Epoll
