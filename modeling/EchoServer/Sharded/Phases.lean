import EchoServer.Sharded.Ownership

/-!
# io_uring_sharded — the phases of a connection

The data half of the invariant. A connection is described by how much its
`recv`s took, the payload its `send`s put on the wire and the blocks handed to
`send` (`Flow`); the buffer of a threadlet is described by the phase of the one
request the threadlet waits for (`MsgPhase`): its block is being received, has
been received, or is being sent by the linked request in front.

* `Echo.kind` — a request without a completion is an accept, a header or message
  `recv`, a reply linked in front of the next `recv`, or an announcement;
* `Echo.congr`, `Echo.frame` — a step that concerns one threadlet's request
  leaves the phases of all others as they are.
-/

namespace EchoServer.Sharded

open EchoServer.Lib

variable {cfg : Config} {s t : State}

-- ---------------------------------------------------------------------------
-- A connection's flow
-- ---------------------------------------------------------------------------

/-- The bytes of the wire that came from a message buffer. -/
def payload (wire : List (Ptr × UInt8)) : Bytes :=
  wire.filterMap fun
    | (.heap _, b) => some b
    | _ => none

/-- The client's stream after its two header bytes. -/
def body (cfg : Config) (fd : Nat) : Bytes := (cfg.streams fd).drop 2

/-- What matters of a connection. -/
structure Flow where
  taken : Nat
  echoed : Bytes
  handed : List Bytes

def flow (s : State) (fd : Nat) : Flow :=
  ⟨(s.conns fd).taken, payload (s.conns fd).wire, (s.conns fd).handed⟩

/-- A connection nothing has happened on. -/
def Flow.fresh : Flow := ⟨0, [], []⟩

@[simp] theorem payload_append (w w' : List (Ptr × UInt8)) :
    payload (w ++ w') = payload w ++ payload w' := by
  simp [payload]

theorem payload_heap (b : Nat) (bs : Bytes) : payload (bs.map (Prod.mk (.heap b))) = bs := by
  simp [payload, List.filterMap_map]

theorem payload_msgSizeConv (bs : Bytes) : payload (bs.map (Prod.mk .msgSizeConv)) = [] := by
  simp [payload, List.filterMap_map]

/-- What holds of a connection whatever its threadlet is doing: the blocks
handed to `send` are the first ones of the stream; what was sent is a prefix of
them that lacks at most part of the last; the `recv`s are at most one block
ahead of the `send`s. -/
structure FlowOk (n : Nat) (S : Bytes) (c : Flow) : Prop where
  handed_le : c.handed.length * n ≤ S.length
  handed_eq : c.handed = (blocks n S).take c.handed.length
  echoed_eq : c.echoed = S.take c.echoed.length
  echoed_le : c.echoed.length ≤ c.handed.length * n
  le_echoed : c.handed.length * n ≤ c.echoed.length + n
  taken_le : c.taken ≤ 2 + S.length
  ahead : c.taken ≤ 2 + c.handed.length * n ∨
    (c.echoed.length = c.handed.length * n ∧ c.taken ≤ 2 + (c.handed.length + 1) * n)

theorem FlowOk.fresh (n : Nat) (S : Bytes) : FlowOk n S Flow.fresh := by
  constructor <;> simp [Flow.fresh]

-- ---------------------------------------------------------------------------
-- The phases of a request
-- ---------------------------------------------------------------------------

/-- The bytes a request that has no completion yet has moved. -/
def moved : Status → Option Nat
  | .idle => some 0
  | .running p => some p
  | .posted _ _ => none

/-- Request `q` has no linked entry in front of it. -/
def Unlinked (s : State) (q : Nat) : Prop :=
  ∀ p, p + 1 = q → (s.sqes p).link = false

/-- The `recv` of the two header bytes. -/
structure HeaderPhase (s : State) (q fd : Nat) : Prop where
  unlinked : Unlinked s q
  handed : (flow s fd).handed = []
  echoed : (flow s fd).echoed = []
  moving : ∀ p, moved (s.status q) = some p → (flow s fd).taken = p ∧ p ≤ 2
  full : ∀ slot, s.status q = .posted slot true → (flow s fd).taken = 2
  taken_le : (flow s fd).taken ≤ 2

/-- `k` blocks have been sent back, and `p` bytes of the next have come in. -/
structure Receiving (cfg : Config) (s : State) (q fd : Nat) (buf : Ptr) (k p : Nat) : Prop where
  moved_eq : moved (s.status q) = some p
  front : ∀ q', q' + 1 = q → (s.sqes q').link = true → IsPosted s q'
  le : p ≤ cfg.msgSize.val
  handed : (flow s fd).handed.length = k
  echoed : (flow s fd).echoed.length = k * cfg.msgSize.val
  taken : (flow s fd).taken = 2 + k * cfg.msgSize.val + p
  mem : (s.mem buf).take p = ((body cfg fd).drop (k * cfg.msgSize.val)).take p

/-- `k` blocks have been sent back, and the next lies in the buffer. -/
structure Received (cfg : Config) (s : State) (q fd : Nat) (buf : Ptr) (k : Nat) : Prop where
  posted : ∃ slot, s.status q = .posted slot true
  handed : (flow s fd).handed.length = k
  echoed : (flow s fd).echoed.length = k * cfg.msgSize.val
  taken : (flow s fd).taken = 2 + (k + 1) * cfg.msgSize.val
  le : (k + 1) * cfg.msgSize.val ≤ (body cfg fd).length
  mem : (s.mem buf).take cfg.msgSize.val = block cfg.msgSize.val k (body cfg fd)

/-- `k` blocks have been sent back, and `p` bytes of the one in the buffer, by
the request `q` in front of the next `recv`. -/
structure Sending (cfg : Config) (s : State) (q fd : Nat) (buf : Ptr) (k p : Nat) : Prop where
  link : (s.sqes q).link = true
  idle : s.status (q + 1) = .idle
  moved_eq : moved (s.status q) = some p
  le : p ≤ cfg.msgSize.val
  handed : (flow s fd).handed.length = k + 1
  echoed : (flow s fd).echoed.length = k * cfg.msgSize.val + p
  taken : (flow s fd).taken = 2 + (k + 1) * cfg.msgSize.val
  mem : (s.mem buf).take cfg.msgSize.val = block cfg.msgSize.val k (body cfg fd)

/-- The `recv` of a message, linked or not behind the `send` of the one before. -/
inductive MsgPhase (cfg : Config) (s : State) (q fd : Nat) (buf : Ptr) : Prop
  | receiving (k p : Nat) : Receiving cfg s q fd buf k p → MsgPhase cfg s q fd buf
  | received (k : Nat) : Received cfg s q fd buf k → MsgPhase cfg s q fd buf
  | sending (k p q' : Nat) : q = q' + 1 → Sending cfg s q' fd buf k p → MsgPhase cfg s q fd buf
  | failed (slot : Nat) : s.status q = .posted slot false → MsgPhase cfg s q fd buf
  | cut (q' slot : Nat) : q = q' + 1 → (s.sqes q').link = true → s.status q = .idle →
      s.status q' = .posted slot false → MsgPhase cfg s q fd buf

/-- What is at stake for the echo, record by record: a connection's counts are in order, no
bytes have moved for an accept, a threadlet that waits for its header has taken only that,
and one that waits for a message is in one of the phases of a message. -/
structure Echo (cfg : Config) (s : State) : Prop where
  conns : ∀ fd ∈ s.opened, FlowOk cfg.msgSize.val (body cfg fd) (flow s fd)
  fresh : ∀ q l slot (fd : Nat), Live s q → (s.sqes q).op = .accept l →
    s.status q = .posted slot true → (s.cqes slot).res = fd → flow s fd = Flow.fresh
  header : ∀ q r, Live s q → Carries s q r → (s.recs r).pc = .receivedHeader →
    HeaderPhase s q (s.recs r).fd
  msg : ∀ q r, Live s q → Carries s q r → (s.recs r).pc = .receivedMsg →
    MsgPhase cfg s q (s.recs r).fd (s.recs r).buf
  heap_length : ∀ b, (s.mem (.heap b)).length = bufSize

-- ---------------------------------------------------------------------------
-- What the phase of a request depends on
-- ---------------------------------------------------------------------------

theorem HeaderPhase.congr {q fd : Nat} (h : HeaderPhase s q fd)
    (hflow : flow t fd = flow s fd) (hst : t.status q = s.status q)
    (hsqes : ∀ q', q' + 1 = q → t.sqes q' = s.sqes q') : HeaderPhase t q fd where
  unlinked p hp := by rw [hsqes p hp]; exact h.unlinked p hp
  handed := by rw [hflow]; exact h.handed
  echoed := by rw [hflow]; exact h.echoed
  moving := by rw [hflow, hst]; exact h.moving
  full := by rw [hflow, hst]; exact h.full
  taken_le := by rw [hflow]; exact h.taken_le

theorem MsgPhase.congr {q fd : Nat} {buf : Ptr} (h : MsgPhase cfg s q fd buf)
    (hflow : flow t fd = flow s fd) (hmem : t.mem buf = s.mem buf)
    (hst : t.status q = s.status q)
    (hpred : ∀ q', q' + 1 = q → (s.sqes q').link = true → t.status q' = s.status q')
    (hsqes : ∀ q', q' + 1 = q → t.sqes q' = s.sqes q') : MsgPhase cfg t q fd buf := by
  cases h with
  | receiving k p hr =>
    refine .receiving k p ⟨by rw [hst, hr.moved_eq], ?_, hr.le, by rw [hflow, hr.handed],
      by rw [hflow, hr.echoed], by rw [hflow, hr.taken], by rw [hmem, hr.mem]⟩
    intro q' hq' hlink
    rw [hsqes q' hq'] at hlink
    obtain ⟨slot, full, hpost⟩ := hr.front q' hq' hlink
    exact ⟨slot, full, by rw [hpred q' hq' hlink, hpost]⟩
  | received k hr =>
    exact .received k ⟨by rw [hst]; exact hr.posted, by rw [hflow, hr.handed],
      by rw [hflow, hr.echoed], by rw [hflow, hr.taken], hr.le, by rw [hmem, hr.mem]⟩
  | sending k p q' hq' hs =>
    subst hq'
    exact .sending k p q' rfl ⟨by rw [hsqes q' rfl, hs.link], by rw [hst, hs.idle],
      by rw [hpred q' rfl hs.link, hs.moved_eq], hs.le, by rw [hflow, hs.handed],
      by rw [hflow, hs.echoed], by rw [hflow, hs.taken], by rw [hmem, hs.mem]⟩
  | failed slot hpost => exact .failed slot (by rw [hst, hpost])
  | cut q' slot hq' hlink hidle hpost =>
    exact .cut q' slot hq' (by rw [hsqes q' hq'.symm, hlink]) (by rw [hst, hidle])
      (by rw [hpred q' hq'.symm hlink, hpost])

/-- A `recv` on which the kernel works, or may begin to, has its buffer. -/
theorem MsgPhase.receiving_of_ready {q fd : Nat} {buf : Ptr} (h : MsgPhase cfg s q fd buf)
    (hq : ¬ IsPosted s q)
    (hready : ∀ q', q' + 1 = q → (s.sqes q').link = true → ∃ slot, s.status q' = .posted slot true) :
    ∃ k p, Receiving cfg s q fd buf k p := by
  cases h with
  | receiving k p hr => exact ⟨k, p, hr⟩
  | received k hr =>
    obtain ⟨slot, hst⟩ := hr.posted
    exact absurd ⟨slot, true, hst⟩ hq
  | sending k p q' hq' hs =>
    obtain ⟨slot, hst⟩ := hready q' hq'.symm hs.link
    have hm := hs.moved_eq
    rw [hst] at hm
    cases hm
  | failed slot hst => exact absurd ⟨slot, false, hst⟩ hq
  | cut q' slot hq' hlink _ hst =>
    obtain ⟨slot', hst'⟩ := hready q' hq'.symm hlink
    rw [hst] at hst'
    cases hst'

/-- A `recv` of a message that has begun is in the phase of receiving: the reply before it is
over. -/
theorem MsgPhase.receiving_of_running {q fd p : Nat} {buf : Ptr} (h : MsgPhase cfg s q fd buf)
    (hq : s.status q = .running p) : ∃ k, Receiving cfg s q fd buf k p := by
  cases h with
  | receiving k p' hr =>
    have hm := hr.moved_eq
    rw [hq] at hm
    cases hm
    exact ⟨k, hr⟩
  | received k hr =>
    obtain ⟨slot, hst⟩ := hr.posted
    rw [hq] at hst
    cases hst
  | sending k p' q' hq' hs =>
    subst hq'
    have hidle := hs.idle
    rw [hq] at hidle
    cases hidle
  | failed slot hst =>
    rw [hq] at hst
    cases hst
  | cut q' slot hq' hlink hidle _ =>
    rw [hq] at hidle
    cases hidle

/-- A `recv` of a message that is posted in full has a whole block in the buffer. -/
theorem MsgPhase.received_of_full {q fd slot : Nat} {buf : Ptr} (h : MsgPhase cfg s q fd buf)
    (hq : s.status q = .posted slot true) : ∃ k, Received cfg s q fd buf k := by
  cases h with
  | receiving k p hr =>
    have hm := hr.moved_eq
    rw [hq] at hm
    cases hm
  | received k hr => exact ⟨k, hr⟩
  | sending k p q' hq' hs =>
    subst hq'
    have hidle := hs.idle
    rw [hq] at hidle
    cases hidle
  | failed slot' hst =>
    rw [hq] at hst
    cases hst
  | cut q' slot' hq' hlink hidle _ =>
    rw [hq] at hidle
    cases hidle

/-- While a linked `send` has no completion, it is sending the buffer. -/
theorem MsgPhase.sending_of_front {q fd : Nat} {buf : Ptr} (h : MsgPhase cfg s (q + 1) fd buf)
    (hlink : (s.sqes q).link = true) (hidle : s.status (q + 1) = .idle) (hq : ¬ IsPosted s q) :
    ∃ k p, Sending cfg s q fd buf k p := by
  cases h with
  | receiving k p hr => exact absurd (hr.front q rfl hlink) hq
  | received k hr =>
    obtain ⟨slot, hst⟩ := hr.posted
    rw [hidle] at hst
    cases hst
  | sending k p q' hq' hs =>
    cases hq'
    exact ⟨k, p, hs⟩
  | failed slot hst =>
    rw [hidle] at hst
    cases hst
  | cut q' slot hq' _ _ hst =>
    cases hq'
    exact absurd ⟨slot, false, hst⟩ hq

-- ---------------------------------------------------------------------------
-- The kinds of request
-- ---------------------------------------------------------------------------

/-- What a request without a completion can be. -/
inductive Kind (cfg : Config) (s : State) (q : Nat) : Prop
  | accept (l : Nat) : (s.sqes q).op = .accept l → (s.sqes q).link = false → Kind cfg s q
  | header (r : Nat) : r < s.nRecs → Live s q → Carries s q r →
      (s.recs r).pc = .receivedHeader → (s.sqes q).op = .recv (s.recs r).fd .headerBuf 2 →
      Kind cfg s q
  | msg (r b : Nat) : r < s.nRecs → Live s q → Carries s q r →
      (s.recs r).pc = .receivedMsg → (s.recs r).buf = .heap b →
      (s.sqes q).op = .recv (s.recs r).fd (.heap b) cfg.msgSize.val → Kind cfg s q
  | reply (r b : Nat) : r < s.nRecs → Live s (q + 1) → Carries s (q + 1) r →
      (s.recs r).pc = .receivedMsg → (s.recs r).buf = .heap b → (s.sqes q).link = true →
      (s.sqes q).op = .send (s.recs r).fd (.heap b) cfg.msgSize.val →
      s.status (q + 1) = .idle → Kind cfg s q
  | announce (fd len : Nat) : (s.sqes q).op = .send fd .msgSizeConv len →
      (s.sqes q).link = false → Kind cfg s q

/-- A request that carries a record is not linked to the next one. -/
theorem Queues.carries_link {q r : Nat} (h : Queues s) (hq : q < s.sqTail) (hc : Carries s q r) :
    (s.sqes q).link = false := by
  rw [Bool.eq_false_iff]
  intro hlink
  obtain ⟨⟨fd, src, len, r', hs, -⟩, -⟩ := h.chain q hq hlink
  rw [Carries, hs] at hc
  cases hc

theorem Owned.op_header {q r : Nat} (h : Owned cfg s) (hl : Live s q) (hc : Carries s q r)
    (hpc : (s.recs r).pc = .receivedHeader) :
    (s.sqes q).op = .recv (s.recs r).fd .headerBuf 2 := by
  rw [(h.awaits q r hl hc).2, awaited, hpc]

theorem Owned.op_msg {q r : Nat} (h : Owned cfg s) (hl : Live s q) (hc : Carries s q r)
    (hpc : (s.recs r).pc = .receivedMsg) :
    (s.sqes q).op = .recv (s.recs r).fd (s.recs r).buf cfg.msgSize.val := by
  rw [(h.awaits q r hl hc).2, awaited, hpc]

/-- What a live request can be, and what the invariant says of it. -/
theorem Echo.kind {q : Nat} (hQ : Queues s) (hO : Owned cfg s) (hE : Echo cfg s)
    (hq : q < s.sqTail) (hno : ¬ IsPosted s q) : Kind cfg s q := by
  have hl := live_of_not_posted hq hno
  rcases hO.carried q hq with ⟨r, hc⟩ | ⟨fd, src, len, hop⟩
  · obtain ⟨hr, haw⟩ := hO.awaits q r hl hc
    cases hpc : (s.recs r).pc with
    | accepted =>
      rw [awaited, hpc] at haw
      exact .accept _ haw (hQ.carries_link hq hc)
    | receivedHeader => exact .header r hr hl hc hpc (hO.op_header hl hc hpc)
    | receivedMsg =>
      obtain ⟨b, -, hb⟩ := hO.buf_set r hr hpc
      exact .msg r b hr hl hc hpc hb (by rw [hO.op_msg hl hc hpc, hb])
  · by_cases hlink : (s.sqes q).link = true
    · -- the `recv` behind a reply is that of a threadlet past its header
      obtain ⟨⟨fd', src', len', r, hs₁, hs₂⟩, hlt, -⟩ := hQ.chain q hq hlink
      have hidle := hQ.behind q hq hlink hno
      have hl' := live_of_not_posted hlt (not_isPosted_idle hidle)
      have hc : Carries s (q + 1) r := by rw [Carries, hs₂]
      obtain ⟨hr, haw⟩ := hO.awaits (q + 1) r hl' hc
      cases hpc : (s.recs r).pc with
      | accepted =>
        rw [hs₂, awaited, hpc] at haw
        cases haw
      | receivedHeader =>
        have hun := (hE.header (q + 1) r hl' hc hpc).unlinked q rfl
        rw [hlink] at hun
        cases hun
      | receivedMsg =>
        obtain ⟨b, -, hb⟩ := hO.buf_set r hr hpc
        have hop₂ := hO.op_msg hl' hc hpc
        rw [hs₂, hb, Op.recv.injEq] at hop₂
        obtain ⟨rfl, rfl, rfl⟩ := hop₂
        exact .reply r b hr hl' hc hpc hb hlink (by rw [hs₁]) hidle
    · rcases hO.sends q hq fd src len hop with rfl | hlink'
      · exact .announce fd len hop (by simpa using hlink)
      · exact absurd hlink' hlink

-- ---------------------------------------------------------------------------
-- Frames
-- ---------------------------------------------------------------------------

/-- A step that concerns no message and no header: it changes the status only of
unlinked `send`s, or of an accept without completing it in full. -/
theorem Echo.congr (hE : Echo cfg s) (hQ : Queues s) (hO : Owned cfg s)
    (hsqes : t.sqes = s.sqes) (hrecs : t.recs = s.recs) (hopened : t.opened = s.opened)
    (hlive : ∀ q, Live t q ↔ Live s q) (hcqes : ∀ slot < s.cqTail, t.cqes slot = s.cqes slot)
    (hflow : ∀ fd, flow t fd = flow s fd) (hmem : t.mem = s.mem)
    (hstatus : ∀ q, t.status q = s.status q ∨ ((s.sqes q).link = false ∧
      ((∃ fd src len, (s.sqes q).op = .send fd src len) ∨
        ∀ slot, t.status q ≠ .posted slot true) ∧ ∀ fd dst len, (s.sqes q).op ≠ .recv fd dst len)) :
    Echo cfg t := by
  -- the `recv`s, and the linked `send`s in front of them, are as before
  have hrecv : ∀ {q fd dst len}, (s.sqes q).op = .recv fd dst len → t.status q = s.status q := by
    intro q fd dst len hop
    rcases hstatus q with heq | ⟨-, -, hne⟩
    · exact heq
    · exact absurd hop (hne fd dst len)
  have hlinked : ∀ {q}, (s.sqes q).link = true → t.status q = s.status q := by
    intro q hlink
    rcases hstatus q with heq | ⟨hun, -⟩
    · exact heq
    · rw [hlink] at hun
      cases hun
  constructor
  · intro fd hfd
    rw [hflow]
    exact hE.conns fd (by rwa [hopened] at hfd)
  · intro q l slot fd hq hop hst hres
    rw [hsqes] at hop
    have hst' : s.status q = .posted slot true := by
      rcases hstatus q with heq | ⟨-, ⟨fd', src, len, hsend⟩ | hno, -⟩
      · rwa [heq] at hst
      · rw [hop] at hsend
        cases hsend
      · exact absurd hst (hno slot)
    rw [hcqes slot (hQ.posted q slot true hst').1] at hres
    rw [hflow]
    exact hE.fresh q l slot fd ((hlive q).mp hq) hop hst' hres
  · intro q r hq hc hpc
    rw [Carries, hsqes] at hc
    rw [hrecs] at hpc ⊢
    have hl := (hlive q).mp hq
    exact (hE.header q r hl hc hpc).congr (hflow _) (hrecv (hO.op_header hl hc hpc))
      fun q' _ => by rw [hsqes]
  · intro q r hq hc hpc
    rw [Carries, hsqes] at hc
    rw [hrecs] at hpc ⊢
    have hl := (hlive q).mp hq
    exact (hE.msg q r hl hc hpc).congr (hflow _) (by rw [hmem]) (hrecv (hO.op_msg hl hc hpc))
      (fun q' _ hlink => hlinked hlink) fun q' _ => by rw [hsqes]
  · rw [hmem]
    exact hE.heap_length

/-- A step of the kernel on a request of record `r₀`: the request it carries, or
the reply linked in front of that. Every other threadlet is left as it is. -/
theorem Echo.frame {q₁ r₀ : Nat} (hE : Echo cfg s) (hQ : Queues s) (hO : Owned cfg s)
    (hr₀ : r₀ < s.nRecs) (hpc₀ : (s.recs r₀).pc ≠ .accepted)
    (hq₁ : (Live s q₁ ∧ Carries s q₁ r₀) ∨
      (q₁ < s.sqTail ∧ (s.sqes q₁).link = true ∧ Carries s (q₁ + 1) r₀))
    (hsqes : t.sqes = s.sqes) (hrecs : t.recs = s.recs) (hopened : t.opened = s.opened)
    (hlive : ∀ q, Live t q ↔ Live s q) (hcqes : ∀ slot < s.cqTail, t.cqes slot = s.cqes slot)
    (hflow : ∀ fd ≠ (s.recs r₀).fd, flow t fd = flow s fd)
    (hmem : ∀ b, ¬ ((s.recs r₀).pc = .receivedMsg ∧ (s.recs r₀).buf = .heap b) →
      t.mem (.heap b) = s.mem (.heap b))
    (hlength : ∀ b, (t.mem (.heap b)).length = bufSize)
    (hstatus : ∀ q ≠ q₁, t.status q = s.status q)
    (hconn : FlowOk cfg.msgSize.val (body cfg (s.recs r₀).fd) (flow t (s.recs r₀).fd))
    (hheader : ∀ q, Live s q → Carries s q r₀ → (s.recs r₀).pc = .receivedHeader →
      HeaderPhase t q (s.recs r₀).fd)
    (hmsg : ∀ q, Live s q → Carries s q r₀ → (s.recs r₀).pc = .receivedMsg →
      MsgPhase cfg t q (s.recs r₀).fd (s.recs r₀).buf) : Echo cfg t := by
  -- a request of another record, and what is linked in front of it, is not `q₁`
  have hself : ∀ {q r}, Live s q → Carries s q r → r ≠ r₀ → q ≠ q₁ := by
    rintro q r hl hc hne rfl
    rcases hq₁ with ⟨-, hc₁⟩ | ⟨hlt, hlink, -⟩
    · rw [Carries, hc₁] at hc
      cases hc
      exact hne rfl
    · rw [hQ.carries_link hlt hc] at hlink
      cases hlink
  have hpred : ∀ {q q' r}, Carries s q r → r ≠ r₀ → q' + 1 = q → (s.sqes q').link = true →
      q' ≠ q₁ := by
    rintro q q' r hc hne rfl hlink rfl
    rcases hq₁ with ⟨hl₁, hc₁⟩ | ⟨-, -, hc₁⟩
    · rw [hQ.carries_link hl₁.1 hc₁] at hlink
      cases hlink
    · rw [Carries, hc₁] at hc
      cases hc
      exact hne rfl
  have hfd : ∀ {r}, r < s.nRecs → (s.recs r).pc ≠ .accepted → r ≠ r₀ →
      (s.recs r).fd ≠ (s.recs r₀).fd :=
    fun hr hpc hne heq => hne (hO.fd_inj _ hr _ hr₀ hpc hpc₀ heq)
  constructor
  · intro fd hfd'
    by_cases heq : fd = (s.recs r₀).fd
    · rw [heq]
      exact hconn
    · rw [hflow fd heq]
      exact hE.conns fd (by rwa [hopened] at hfd')
  · intro q l slot fd hq hop hst hres
    have hl := (hlive q).mp hq
    rw [hsqes] at hop
    have hne : q ≠ q₁ := by
      rintro rfl
      rcases hq₁ with ⟨hl₁, hc₁⟩ | ⟨hlt, hlink, -⟩
      · have haw := (hO.awaits _ r₀ hl₁ hc₁).2
        rw [hop, awaited] at haw
        cases hx : (s.recs r₀).pc <;> simp [hx] at haw hpc₀
      · obtain ⟨⟨fd', src, len, r', hs, -⟩, -⟩ := hQ.chain _ hlt hlink
        rw [hs] at hop
        cases hop
    rw [hstatus q hne] at hst
    rw [hcqes slot (hQ.posted q slot true hst).1] at hres
    obtain ⟨fd', hfd', -, hfree⟩ := hO.accepted_fd q l slot hl hop hst
    obtain rfl : fd' = fd := by
      rw [hfd'] at hres
      exact_mod_cast hres
    rw [hflow fd' (hfree r₀ hr₀ hpc₀).symm]
    exact hE.fresh q l slot fd' hl hop hst hfd'
  · intro q r hq hc hpc
    have hl := (hlive q).mp hq
    rw [Carries, hsqes] at hc
    rw [hrecs] at hpc ⊢
    by_cases hne : r = r₀
    · subst hne
      exact hheader q hl hc hpc
    · have hr := (hO.awaits q r hl hc).1
      exact (hE.header q r hl hc hpc).congr (hflow _ (hfd hr (by rw [hpc]; simp) hne))
        (hstatus q (hself hl hc hne)) fun q' _ => by rw [hsqes]
  · intro q r hq hc hpc
    have hl := (hlive q).mp hq
    rw [Carries, hsqes] at hc
    rw [hrecs] at hpc ⊢
    by_cases hne : r = r₀
    · subst hne
      exact hmsg q hl hc hpc
    · have hr := (hO.awaits q r hl hc).1
      obtain ⟨b, -, hb⟩ := hO.buf_set r hr hpc
      refine (hE.msg q r hl hc hpc).congr (hflow _ (hfd hr (by rw [hpc]; simp) hne)) ?_
        (hstatus q (hself hl hc hne))
        (fun q' hq' hlink => hstatus q' (hpred hc hne hq' hlink)) fun q' _ => by rw [hsqes]
      rw [hb]
      refine hmem b ?_
      rintro ⟨hpc', hb'⟩
      exact hne (hO.buf_inj r hr r₀ hr₀ hpc hpc' (by rw [hb, hb']))
  · exact hlength

end EchoServer.Sharded
