import EchoServer.EndToEnd.Client
import EchoServer.Threaded.Simple
import Mathlib.Data.List.Infix

/-!
# client.c against simple.c

Any number of client threads, each on its own connection to its own handler.
The two sides of a connection are joined by what is in flight in either
direction, of bounded capacity; a `send` returns when all its bytes are in
flight. Neither side ever ends, so no connection is closed.

What is assumed:

* each direction of a connection holds at least four bytes, so that the announcement fits;
* no call fails: a `send` waits for room, and a `recv` for all its bytes (`MSG_WAITALL`);
* what a client puts into `buf` before each `send` is anything.

The parties move in any order, a byte or more at a time.

Main results:

* `Server.Phase.act`, `Server.At.wake` — what the handler does to its end;
* `not_both_blocked` — client and handler do not wait for each other;
* `client_agrees` — replies are messages, the decoded size is the announced one
  and no connection gets stuck.
-/

namespace EchoServer.EndToEnd

open EchoServer.Lib

-- ---------------------------------------------------------------------------
-- The handler on its connection
-- ---------------------------------------------------------------------------

namespace Server

/-- Where a handler is that has put `D` into its connection and taken `V` out.
`H` are the two header bytes and `E` what it has echoed. -/
inductive Phase (m : MsgSize) (t : Thread Simple.Pc Simple.Buf UInt8) (D V : Bytes) : Prop
  | announcing : t.pc = .announcing → t.mem .msgSizeConv = htonl m.val →
      t.Talk true (.send .msgSizeConv 4) [] [] D V → Phase m t D V
  | header : t.pc = .header → t.Talk true (.recv .buf 2) (htonl m.val) [] D V → Phase m t D V
  | recving (j : Nat) (H E : Bytes) : t.pc = .recving → H.length = 2 → E.length = j * m.val →
      t.Talk true (.recv .buf m.val) (htonl m.val ++ E) (H ++ E) D V → Phase m t D V
  | sending (j : Nat) (H E : Bytes) : t.pc = .sending → H.length = 2 → E.length = j * m.val →
      t.Talk true (.send .buf m.val) (htonl m.val ++ E) (H ++ (E ++ (t.mem .buf).take m.val)) D V →
      Phase m t D V

/-- A handler in one of its phases, with its buffer. -/
structure At (m : MsgSize) (t : Thread Simple.Pc Simple.Buf UInt8) (D V : Bytes) : Prop where
  phase : Phase m t D V
  length_buf : (t.mem .buf).length = bufSize

variable {m : MsgSize} {t t' : Thread Simple.Pc Simple.Buf UInt8} {D V : Bytes}

theorem at_entry (m : MsgSize) (stack : Buffer) : At m (Simple.entry m stack) [] [] where
  phase := .announcing rfl rfl (.sending (p := 0) (.moving rfl rfl (Nat.zero_le _) (Nat.le_refl _))
    (Nat.le_refl 4))
  length_buf := stack.length_eq

theorem Phase.talk (h : Phase m t D V) : ∃ r D₀ V₀, t.Talk true r D₀ V₀ D V := by
  cases h with
  | announcing _ _ htalk | header _ htalk | recving _ _ _ _ _ _ htalk
  | sending _ _ _ _ _ _ htalk => exact ⟨_, _, _, htalk⟩

theorem Phase.want (h : Phase m t D V) : (Simple.handleConn m).want t.pc = 1 := by
  cases h with
  | announcing hpc | header hpc | recving _ _ _ hpc | sending _ _ _ hpc =>
    rw [hpc]
    rfl

/-- A handler in a call stays in its phase. -/
theorem Phase.act {cap : Nat} {inp out inp' out' : Chan UInt8} {move : Move}
    (h : Phase m t out.put inp.got) (hmove : move ≠ .wake)
    (hact : t.act (Simple.handleConn m) cap inp out move = some (t', inp', out')) :
    Phase m t' out'.put inp'.got ∧ (∀ b, (t'.mem b).length = (t.mem b).length) ∧
      inp'.put = inp.put ∧ out'.got = out.got := by
  cases h with
  | announcing hpc hmem htalk =>
    obtain ⟨htalk', hkept, hrest⟩ := Thread.Talk.act (P := Simple.handleConn m) htalk hmove hact
    exact ⟨.announcing (hkept.pc.trans hpc) ((hkept.mem _ fun _ h => by cases h).trans hmem) htalk',
      hkept.length, hrest⟩
  | header hpc htalk =>
    obtain ⟨htalk', hkept, hrest⟩ := Thread.Talk.act (P := Simple.handleConn m) htalk hmove hact
    exact ⟨.header (hkept.pc.trans hpc) htalk', hkept.length, hrest⟩
  | recving j H E hpc hH hE htalk =>
    obtain ⟨htalk', hkept, hrest⟩ := Thread.Talk.act (P := Simple.handleConn m) htalk hmove hact
    exact ⟨.recving j H E (hkept.pc.trans hpc) hH hE htalk', hkept.length, hrest⟩
  | sending j H E hpc hH hE htalk =>
    obtain ⟨htalk', hkept, hrest⟩ := Thread.Talk.act (P := Simple.handleConn m) htalk hmove hact
    have hmem : t'.mem .buf = t.mem .buf := hkept.mem _ fun _ h => by cases h
    exact ⟨.sending j H E (hkept.pc.trans hpc) hH hE (by rwa [hmem]), hkept.length, hrest⟩

/-- A handler goes from one call to the next: in this system no call fails. -/
theorem At.wake (h : At m t D V) (hready : t.ready (Simple.handleConn m) = true) :
    At m (t.run (Simple.handleConn m)) D V := by
  have hwant := h.phase.want
  obtain ⟨hphase, hbuf⟩ := h
  have hm : m.val ≤ (t.mem .buf).length := by
    rw [hbuf]
    exact m.le_bufSize
  have hlen : ((t.run (Simple.handleConn m)).mem .buf).length = bufSize :=
    (congrArg List.length (Simple.wake_mem m t.pc t.mem t.pending .buf)).trans hbuf
  refine ⟨?_, hlen⟩
  cases hphase with
  | announcing hpc hmem htalk =>
    obtain ⟨hpend, rfl, rfl⟩ := htalk.sendOver hready hwant
    have hnext : (Simple.handleConn m).wake t.pc t.mem t.pending =
        ⟨.header, t.mem, [.recv .buf 2]⟩ := by
      rw [hpc, hpend]
      exact Simple.wake_full rfl (Int.lt_irrefl _)
    obtain ⟨htalk', hpc', hmem'⟩ := htalk.next hready hwant hnext (by
      show 2 ≤ (t.mem .buf).length
      rw [hbuf]
      decide)
    rw [hmem] at htalk' ⊢
    exact .header hpc' htalk'
  | header hpc htalk =>
    have hlen2 : ((t.mem .buf).take 2).length = 2 := by
      rw [List.length_take, hbuf]
      rfl
    obtain ⟨hpend, rfl, rfl⟩ := htalk.recvAllOver hready hwant
    have hnext : (Simple.handleConn m).wake t.pc t.mem t.pending =
        ⟨.recving, t.mem, [.recv .buf m.val]⟩ := by
      rw [hpc, hpend]
      exact Simple.wake_full rfl (Int.lt_irrefl _)
    obtain ⟨htalk', hpc', hmem'⟩ := htalk.next hready hwant hnext hm
    refine .recving 0 ((t.mem .buf).take 2) [] hpc' hlen2 (by rw [Nat.zero_mul]; rfl) ?_
    rwa [List.append_nil, List.append_nil]
  | recving j H E hpc hH hE htalk =>
    obtain ⟨hpend, rfl, rfl⟩ := htalk.recvAllOver hready hwant
    have hnext : (Simple.handleConn m).wake t.pc t.mem t.pending =
        ⟨.sending, t.mem, [.send .buf m.val]⟩ := by
      rw [hpc, hpend]
      exact Simple.wake_full rfl (Int.lt_irrefl _)
    obtain ⟨htalk', hpc', hmem'⟩ := htalk.next hready hwant hnext hm
    refine .sending j H E hpc' hH hE ?_
    rw [hmem', ← List.append_assoc]
    exact htalk'
  | sending j H E hpc hH hE htalk =>
    have hblock : ((t.mem .buf).take m.val).length = m.val := by
      rw [List.length_take, Nat.min_eq_left hm]
    obtain ⟨hpend, rfl, rfl⟩ := htalk.sendOver hready hwant
    have hnext : (Simple.handleConn m).wake t.pc t.mem t.pending =
        ⟨.recving, t.mem, [.recv .buf m.val]⟩ := by
      rw [hpc, hpend]
      exact Simple.wake_full rfl (Int.lt_irrefl _)
    obtain ⟨htalk', hpc', hmem'⟩ := htalk.next hready hwant hnext hm
    refine .recving (j + 1) H (E ++ (t.mem .buf).take m.val) hpc' hH ?_ ?_
    · rw [List.length_append, hE, hblock, Nat.succ_mul]
    · rwa [← List.append_assoc]

/-- What a handler has put is a prefix of the announcement and of what it has
taken after the header. -/
theorem Phase.echo (h : Phase m t D V) : D <+: htonl m.val ++ V.drop 2 := by
  cases h with
  | announcing _ hmem htalk =>
    cases htalk with
    | sending =>
      rw [hmem, List.nil_append]
      exact (List.take_prefix _ _).trans (List.prefix_append _ _)
  | header _ htalk =>
    cases htalk with
    | recving => exact List.prefix_append _ _
  | recving j H E _ hH _ htalk =>
    cases htalk with
    | recving =>
      rw [List.append_assoc, ← hH, List.drop_left]
      exact (List.prefix_append_right_inj _).mpr (List.prefix_append _ _)
  | sending j H E _ hH _ htalk =>
    cases htalk with
    | @sending _ _ p _ _ hcall =>
      have hp : p ≤ m.val := hcall.le
      rw [← hH, List.drop_left, List.append_assoc]
      refine (List.prefix_append_right_inj _).mpr ((List.prefix_append_right_inj _).mpr ?_)
      exact List.take_prefix_take_left hp

theorem keeps (m : MsgSize) : Thread.Keeps (Simple.handleConn m) (At m) fun _ => True where
  act h hmove hact := by
    obtain ⟨hphase, hlen, hrest⟩ := h.phase.act hmove hact
    exact ⟨⟨hphase, (hlen _).trans h.length_buf⟩, hrest⟩
  wake h _ hready := h.wake hready

end Server

-- ---------------------------------------------------------------------------
-- A connection
-- ---------------------------------------------------------------------------

/-- What differs from one connection to another: the messages, the capacities of
the two directions, and what lies on the stacks of client and handler. -/
structure Conn where
  fill : Nat → Buffer
  upCap : Nat
  downCap : Nat
  word : Nat
  stack : Buffer
  four_le_upCap : 4 ≤ upCap
  four_le_downCap : 4 ≤ downCap

abbrev State := Duplex Client.Pc Client.Buf Simple.Pc Simple.Buf UInt8

def Conn.machine (m : MsgSize) (c : Conn) : Machine State Turn :=
  Duplex.machine ⟨Client.client c.fill, Simple.handleConn m, c.upCap, c.downCap⟩

/-- Both sides are in their first call. -/
def Conn.start (m : MsgSize) (c : Conn) : State :=
  Duplex.start (Client.entry c.word) (Simple.entry m c.stack)

/-- The two ends of a connection: the client puts into `up` what the handler takes,
the handler into `down` what the client takes. -/
abbrev Linked (m : MsgSize) (c : Conn) : State → Prop :=
  Duplex.Pair (Client.At m c.fill) (Server.At m)

variable {m : MsgSize} {c : Conn} {x : State}

/-- What the client has read is the announcement and then its own messages. -/
theorem Linked.echoed (h : Linked m c x) :
    ∃ k, x.down.got <+: htonl m.val ++ Client.messages m.val c.fill k := by
  obtain ⟨k, hU⟩ := h.1.phase.put_messages
  have hV : x.up.got <+: Client.hello ++ Client.messages m.val c.fill k := x.up.got_prefix.trans hU
  have hbody : x.up.got.drop 2 <+: Client.messages m.val c.fill k := hV.drop 2
  exact ⟨k, (x.down.got_prefix.trans h.2.phase.echo).trans
    ((List.prefix_append_right_inj _).mpr hbody)⟩

theorem linked_step (m : MsgSize) (c : Conn) : (c.machine m).Preserves (Linked m c) := by
  refine Duplex.pair_step (Client.keeps m c.fill) (Server.keeps m) fun x h => ⟨?_, trivial⟩
  obtain ⟨k, hk⟩ := Linked.echoed h
  exact ⟨_, hk⟩

theorem linked_reachable (hrun : (c.machine m).Reachable (c.start m) x) : Linked m c x :=
  (linked_step m c).reachable ⟨Client.at_entry m c.fill c.word, Server.at_entry m c.stack⟩ hrun

-- ---------------------------------------------------------------------------
-- No connection gets stuck
-- ---------------------------------------------------------------------------

/-- Messages echoed at different positions are at least one message apart. -/
theorem mul_add_le {j k n : Nat} (h : j < k) : j * n + n ≤ k * n := by
  rw [← Nat.succ_mul]
  exact Nat.mul_le_mul_right n h

/-- Client and handler do not wait for each other. -/
theorem Linked.not_both_blocked (h : Linked m c x) :
    ¬ (x.left.Blocked x.down x.up c.upCap ∧ x.right.Blocked x.up x.down c.downCap) := by
  rintro ⟨hleft, hright⟩
  have hup4 := c.four_le_upCap
  have hdown4 := c.four_le_downCap
  have hU := x.up.length_put
  have hD := x.down.length_put
  have hfull : ∀ {l : Bytes}, 4 ≤ l.length → l ≠ [] := by
    rintro _ hl rfl
    exact absurd hl (by decide)
  cases h.1.phase with
  | hi _ _ htalk =>
    -- "Hi" always fits
    obtain ⟨_, _, hr, hlt, _, _, hcap⟩ | ⟨_, _, hr, _⟩ := htalk.blocked hleft
    · cases hr
      simp only [List.length_nil] at hlt
      omega
    · cases hr
  | size _ htalk =>
    obtain ⟨_, _, hr, _⟩ | ⟨_, _, hr, hUeq, hlt, _, hempty⟩ := htalk.blocked hleft
    · cases hr
    · -- nothing of the announcement is in flight, so the handler has not put all of it
      cases hr
      simp only [List.length_nil] at hlt
      rw [hempty, List.length_nil] at hD
      cases h.2.phase with
      | announcing _ _ hserver =>
        obtain ⟨_, _, hr, _, _, _, hcap⟩ | ⟨_, _, hr, _⟩ := hserver.blocked hright
        · exact hfull (hdown4.trans hcap) hempty
        · cases hr
      | header _ hserver =>
        obtain ⟨_, _, hr, _⟩ | ⟨_, _, hr, hDeq, _⟩ := hserver.blocked hright
        · cases hr
        · rw [hDeq, length_htonl] at hD
          omega
      | recving j H E _ _ _ hserver =>
        obtain ⟨_, _, hr, _⟩ | ⟨_, _, hr, hDeq, _⟩ := hserver.blocked hright
        · cases hr
        · rw [hDeq, List.length_append, length_htonl] at hD
          omega
      | sending j H E _ _ _ hserver =>
        obtain ⟨_, _, hr, _, hle, _⟩ | ⟨_, _, hr, _⟩ := hserver.blocked hright
        · rw [List.length_append, length_htonl] at hle
          omega
        · cases hr
  | sending k W₀ _ _ hlen htalk =>
    obtain ⟨_, _, hr, hlt, _, rfl, hcap⟩ | ⟨_, _, hr, _⟩ := htalk.blocked hleft
    · -- the channel to the handler is full, so the handler sends, and it is behind the client
      cases hr
      have hempty : x.up.flight ≠ [] := hfull (hup4.trans hcap)
      rw [List.length_append, Client.length_messages m.le_bufSize] at hlt
      have hhello : Client.hello.length = 2 := rfl
      cases h.2.phase with
      | announcing _ _ hserver =>
        obtain ⟨_, _, hr, hlt', _, _, hcap'⟩ | ⟨_, _, hr, _⟩ := hserver.blocked hright
        · cases hr
          simp only [List.length_nil] at hlt'
          omega
        · cases hr
      | header _ hserver =>
        obtain ⟨_, _, hr, _⟩ | ⟨_, _, _, _, _, _, hnil⟩ := hserver.blocked hright
        · cases hr
        · exact hempty hnil
      | recving _ _ _ _ _ _ hserver =>
        obtain ⟨_, _, hr, _⟩ | ⟨_, _, _, _, _, _, hnil⟩ := hserver.blocked hright
        · cases hr
        · exact hempty hnil
      | sending j H E _ hH hE hserver =>
        obtain ⟨_, _, hr, hlt', _, hVeq, hcap'⟩ | ⟨_, _, hr, _⟩ := hserver.blocked hright
        · cases hr
          have hblock : ((x.right.mem .buf).take m.val).length = m.val := by
            rw [List.length_take, h.2.length_buf, Nat.min_eq_left m.le_bufSize]
          rw [List.length_append, length_htonl, hE] at hlt'
          rw [hVeq, List.length_append, List.length_append, hH, hE, hblock] at hU
          -- the handler has taken message j and the client has taken fewer than k replies
          rcases Nat.lt_or_ge j k with hjk | hjk
          · have := mul_add_le (n := m.val) hjk
            omega
          · have := Nat.mul_le_mul_right m.val hjk
            omega
        · cases hr
    · cases hr
  | recving k W₀ _ hlen htalk =>
    obtain ⟨_, _, hr, _⟩ | ⟨_, _, hr, hUeq, hlt, hle, hempty⟩ := htalk.blocked hleft
    · cases hr
    · -- no reply is in flight, so the handler receives, and has put less than it has taken
      cases hr
      rw [hempty, List.length_nil] at hD
      rw [hUeq, List.length_append, Client.length_messages m.le_bufSize] at hU
      have hhello : Client.hello.length = 2 := rfl
      cases h.2.phase with
      | announcing _ _ hserver =>
        obtain ⟨_, _, hr, _, _, _, hcap⟩ | ⟨_, _, hr, _⟩ := hserver.blocked hright
        · exact hfull (hdown4.trans hcap) hempty
        · cases hr
      | header _ hserver =>
        obtain ⟨_, _, hr, _⟩ | ⟨_, _, hr, _, hlt', _, hnil⟩ := hserver.blocked hright
        · cases hr
        · cases hr
          simp only [List.length_nil] at hlt'
          rw [hnil, List.length_nil] at hU
          omega
      | recving j H E _ hH hE hserver =>
        obtain ⟨_, _, hr, _⟩ | ⟨_, _, hr, hDeq, hlt', hle', hnil⟩ := hserver.blocked hright
        · cases hr
        · cases hr
          rw [hDeq, List.length_append, length_htonl, hE] at hD
          rw [List.length_append, hH, hE] at hlt' hle'
          rw [hnil, List.length_nil, Nat.succ_mul] at hU
          -- the handler has taken all k + 1 messages, so it has put all k + 1 replies
          rcases Nat.lt_or_ge k j with hkj | hkj
          · have := mul_add_le (n := m.val) hkj
            omega
          · have := Nat.mul_le_mul_right m.val hkj
            omega
      | sending _ _ _ _ _ _ hserver =>
        obtain ⟨_, _, hr, _, _, _, hcap⟩ | ⟨_, _, hr, _⟩ := hserver.blocked hright
        · exact hfull (hdown4.trans hcap) hempty
        · cases hr

-- ---------------------------------------------------------------------------
-- Client and server agree
-- ---------------------------------------------------------------------------

/-- What holds of a connection at any time. -/
structure Agreed (m : MsgSize) (c : Conn) (x : State) : Prop where
  /-- the client decoded the size that was announced -/
  decoded : ∀ size k, x.left.pc = .sending size k ∨ x.left.pc = .recving size k → size = m.val
  /-- what `one_operation` sends for the `k`-th time is the `k`-th message -/
  message : ∀ size k, x.left.pc = .sending size k →
    (x.left.mem .buf).take size = Client.message m.val c.fill k
  /-- and what its `recv` has returned with is the same bytes -/
  reply : ∀ size k, x.left.pc = .recving size k → x.left.ready (Client.client c.fill) = true →
    (x.left.mem .buf).take size = Client.message m.val c.fill k
  running : x.left.pc ≠ .exited ∧ x.right.pc ≠ .returned
  unblocked : ¬ (x.left.Blocked x.down x.up c.upCap ∧ x.right.Blocked x.up x.down c.downCap)
  progress : ∃ i y, (c.machine m).step x i = some y

theorem Linked.agreed (h : Linked m c x) : Agreed m c x where
  decoded := by
    intro size k hpc
    cases h.1.phase with
    | hi hpc' | size hpc' =>
      rw [hpc'] at hpc
      rcases hpc with hpc | hpc <;> cases hpc
    | sending _ _ hpc' | recving _ _ hpc' =>
      rw [hpc'] at hpc
      rcases hpc with hpc | hpc <;> cases hpc
      rfl
  message := by
    intro size k hpc
    cases h.1.phase with
    | hi hpc' | size hpc' | recving _ _ hpc' => rw [hpc'] at hpc; cases hpc
    | sending k' _ hpc' hmem =>
      rw [hpc'] at hpc
      cases hpc
      rw [hmem, Client.message]
  reply := by
    intro size k hpc hready
    obtain ⟨k', hread⟩ := Linked.echoed h
    obtain ⟨-, hlen, hreply⟩ := h.1.phase.reply hread hpc hready
    rw [Client.length_messages m.le_bufSize] at hlen
    rw [hreply, Client.block_messages m.le_bufSize (Nat.lt_of_succ_le (Nat.le_of_mul_le_mul_right hlen m.pos))]
  running := by
    constructor
    · intro hpc
      have := h.1.phase.want
      rw [hpc] at this
      cases this
    · intro hpc
      have := h.2.phase.want
      rw [hpc] at this
      cases this
  unblocked := Linked.not_both_blocked h
  progress := by
    obtain ⟨_, _, _, hclient⟩ := h.1.phase.talk
    obtain ⟨_, _, _, hserver⟩ := h.2.phase.talk
    obtain ⟨_, hclient⟩ := hclient.inCall
    obtain ⟨_, hserver⟩ := hserver.inCall
    exact Duplex.progress hclient hserver h.1.phase.want h.2.phase.want (Linked.not_both_blocked h)

/-- **Client and server agree, on any number of connections side by side.** -/
theorem client_agrees {ι : Type*} [DecidableEq ι] (m : MsgSize) (conns : ι → Conn) {s : ι → State}
    (hrun : (Machine.family fun i => (conns i).machine m).Reachable (fun i => (conns i).start m) s)
    (i : ι) : Agreed m (conns i) (s i) := by
  exact Linked.agreed (linked_reachable (Machine.family_reachable hrun i))

/-- A connection up to the first reply, of one byte; the two sides move in turn. -/
def firstReply : List Turn :=
  [.left (.put 2), .right (.put 3), .left .complete, .left .wake, .right (.put 1),
    .right .complete, .right .wake, .right (.get 2), .right .complete, .right .wake,
    .left (.get 4), .left .complete, .left .wake, .left (.put 1), .left .complete, .left .wake,
    .right (.get 1), .right .complete, .right .wake, .right (.put 1), .left (.get 1),
    .left .complete]

theorem client_agrees_firstReply :
    let m : MsgSize := ⟨1, by decide, by decide⟩
    let c : Conn := ⟨fun _ => ⟨List.replicate bufSize 7, List.length_replicate⟩, 4, 4, 0,
      ⟨List.replicate bufSize 0, List.length_replicate⟩, by decide, by decide⟩
    ∃ s, (Machine.family fun _ : Unit => c.machine m).exec (fun _ => c.start m)
        (firstReply.map fun i => ((), i)) = some s ∧
      (s ()).left.pc = .recving 1 0 ∧ ((s ()).left.mem .buf).take 1 = [7] ∧
      Agreed m c (s ()) := by
  intro m c
  have hrun : ((Machine.family fun _ : Unit => c.machine m).exec (fun _ => c.start m)
      (firstReply.map fun i => ((), i))).map
        (fun s => ((s ()).left.pc, ((s ()).left.mem .buf).take 1)) =
      some (.recving 1 0, [7]) := by decide
  obtain ⟨s, hs, heq⟩ := Option.map_eq_some_iff.mp hrun
  obtain ⟨hpc, hreply⟩ := Prod.mk.inj heq
  exact ⟨s, hs, hpc, hreply, client_agrees m (fun _ : Unit => c) ⟨_, hs⟩ ()⟩

end EchoServer.EndToEnd
