import EchoServer.Sharded.Capacity

/-!
# io_uring_sharded — a run that fills the submission ring

The bound of `Capacity` is reached. `n` clients connect one after another, and
each sends its header; then every one of them sends a message and one more
client connects before the loop looks at the ring again. Walking that batch
queues two entries for each message and three for the accept.

* `reach_rest` — any number of connections can be at rest, a message `recv`
  outstanding on each;
* `reach_batch` — all of them can have a message in the same batch;
* `mainLoop_sq_capacity` — no run aborts before the 2048th accept completion,
  and some run does at the 2048th.
-/

namespace EchoServer.Sharded

open EchoServer.Lib

variable {cfg : Config} {s t : State}

-- ---------------------------------------------------------------------------
-- Enabled steps
-- ---------------------------------------------------------------------------

/-- Request `q` is submitted, has not started and waits for nothing. -/
structure Untouched (s : State) (q : Nat) : Prop where
  submitted : q < s.sqHead
  idle : s.status q = .idle
  free : s.follows q = false

theorem reach_step {l : Label} (h : step cfg s l = some t) : (machine cfg).Reachable s t :=
  .of_step h

theorem step_start {q : Nat} (hExit : s.exit = none) (hq : Untouched s q) :
    step cfg s (.start q) = some (setStatus s q (.running 0)) := by
  simp [step, hExit, hq.submitted, hq.idle, linkReady, hq.free]

theorem step_connect {q p fd l : Nat} (hExit : s.exit = none) (hst : s.status q = .running p)
    (hop : (s.sqes q).op = .accept l) (hne : fd ≠ cfg.listenFd) (hfresh : fd ∉ s.opened) :
    step cfg s (.connect q fd) = some (openConn s q fd) := by
  simp [step, hExit, hst, hop, hne, hfresh]

theorem step_waitCqe (hExit : s.exit = none) (hloop : s.loop = .wait)
    (hlt : s.cqHead < s.cqTail) :
    step cfg s .waitCqe = some { s with loop := .walk s.cqHead 0 } := by
  simp [step, hExit, hloop, hlt]

theorem step_visit {head i : Nat} (hExit : s.exit = none) (hloop : s.loop = .walk head i)
    (hlt : head < s.cqTail) (hok : handleCqe cfg s (s.cqes head) = .ok t) :
    step cfg s .visit = some { t with loop := .walk (head + 1) (i + 1) } := by
  simp [step, hExit, hloop, hlt, hok]

theorem step_visit_error {head i : Nat} {e : Exit} (hExit : s.exit = none)
    (hloop : s.loop = .walk head i) (hlt : head < s.cqTail)
    (herr : handleCqe cfg s (s.cqes head) = .error e) :
    step cfg s .visit = some { s with exit := some e } := by
  simp [step, hExit, hloop, hlt, herr]

theorem step_advance {head i : Nat} (hExit : s.exit = none) (hloop : s.loop = .walk head i)
    (heq : head = s.cqTail) :
    step cfg s .advance = some { s with cqHead := s.cqHead + i, loop := .submit } := by
  simp [step, hExit, hloop, heq]

theorem step_submit (hExit : s.exit = none) (hloop : s.loop = .submit) :
    step cfg s .submit = some (submitAll s) := by
  simp [step, hExit, hloop]

theorem handleCqe_accepted {c : Cqe} {r fd : Nat} (hr : c.userData = some r)
    (hpc : (s.recs r).pc = .accepted) (hres : c.res = fd)
    (hroom : s.sqTail + 2 - s.sqHead < sqEntries) :
    handleCqe cfg s c = .ok (afterAccepted cfg s r fd) := by
  have h₁ : s.sqTail - s.sqHead < sqEntries := by omega
  have h₂ : s.sqTail + 1 - s.sqHead < sqEntries := by omega
  simp [handleCqe, hr, hpc, hres, onAccepted, addAccept, pushSqe, h₁, h₂, hroom, afterAccepted,
    bind, Except.bind, pure, Except.pure]

theorem handleCqe_header {c : Cqe} {r : Nat} (hr : c.userData = some r)
    (hpc : (s.recs r).pc = .receivedHeader) (hres : 2 ≤ c.res)
    (hroom : s.sqTail - s.sqHead < sqEntries) :
    handleCqe cfg s c = .ok (afterHeader cfg s r) := by
  have h₁ : ¬ c.res < 2 := by omega
  simp [handleCqe, hr, hpc, onReceivedHeader, pushSqe, h₁, hroom, afterHeader,
    bind, Except.bind, pure, Except.pure]

theorem handleCqe_msg {c : Cqe} {r : Nat} (hr : c.userData = some r)
    (hpc : (s.recs r).pc = .receivedMsg) (hres : (cfg.msgSize.val : Int) ≤ c.res)
    (hroom : s.sqTail + 1 - s.sqHead < sqEntries) :
    handleCqe cfg s c = .ok (afterMsg cfg s r) := by
  have h₁ : ¬ c.res < cfg.msgSize.val := by omega
  have h₂ : s.sqTail - s.sqHead < sqEntries := by omega
  simp [handleCqe, hr, hpc, onReceivedMsg, pushSqe, h₁, h₂, hroom, afterMsg,
    bind, Except.bind, pure, Except.pure]

/-- Two entries are left, and an accept needs three. -/
theorem handleCqe_accept_sqFull {c : Cqe} {r fd : Nat} (hr : c.userData = some r)
    (hpc : (s.recs r).pc = .accepted) (hres : c.res = fd)
    (hfull : s.sqTail + 2 - s.sqHead = sqEntries) (hle : s.sqHead ≤ s.sqTail) :
    handleCqe cfg s c = .error .sqFull := by
  have h₁ : s.sqTail - s.sqHead < sqEntries := by omega
  have h₂ : s.sqTail + 1 - s.sqHead < sqEntries := by omega
  have h₃ : ¬ s.sqTail + 2 - s.sqHead < sqEntries := by omega
  simp [handleCqe, hr, hpc, hres, onAccepted, addAccept, pushSqe, h₁, h₂, h₃,
    bind, Except.bind, pure, Except.pure]

/-- The kernel serves a `recv` in full, in three steps. -/
def serveRecv (cfg : Config) (s : State) (q fd : Nat) (dst : Ptr) (len : Nat) : State :=
  post (moveIn cfg (setStatus s q (.running 0)) q fd dst 0 len) q len

/-- The kernel serves a `recv` in one go: it starts it, moves all its bytes and posts it. -/
theorem reach_serveRecv {q fd len : Nat} {dst : Ptr} (hExit : s.exit = none) (hq : Untouched s q)
    (hop : (s.sqes q).op = .recv fd dst len)
    (hlen : (s.conns fd).taken + len ≤ (cfg.streams fd).length) :
    (machine cfg).Reachable s (serveRecv cfg s q fd dst len) := by
  refine (reach_step (step_start hExit hq)).trans
    ((reach_step (l := .recvSome q len)
      (t := moveIn cfg (setStatus s q (.running 0)) q fd dst 0 len) ?_).trans
      (reach_step (l := .finish q) ?_))
  · simp [step, setStatus, hExit, hop, hlen]
  · simp [step, setStatus, moveIn, serveRecv, hExit, hop]

-- ---------------------------------------------------------------------------
-- Connections at rest
-- ---------------------------------------------------------------------------

/-- Threadlet `k` waits for a message on descriptor `k + 1`. -/
def Parked (cfg : Config) (s : State) (k : Nat) : Prop :=
  s.recs k = ⟨.receivedMsg, k + 1, .heap k⟩ ∧ (s.conns (k + 1)).taken = 2 ∧
    ∃ q, Untouched s q ∧ s.sqes q = ⟨.recv (k + 1) (.heap k) cfg.msgSize.val, some k, false⟩

/-- Record `r` waits for an accept. -/
def Listening (cfg : Config) (s : State) (r : Nat) : Prop :=
  (s.recs r).pc = .accepted ∧
    ∃ q, Untouched s q ∧ s.sqes q = ⟨.accept cfg.listenFd, some r, false⟩

/-- Between two batches, nothing queued and nothing posted. -/
structure Calm (s : State) : Prop where
  running : s.exit = none
  loop : s.loop = .wait
  sq_empty : s.sqHead = s.sqTail
  cq_empty : s.cqHead = s.cqTail
  idle : ∀ q, s.sqTail ≤ q → s.status q = .idle

/-- The descriptors of the first `n` connections. -/
def Numbered (s : State) (n : Nat) : Prop := s.opened.length = n ∧ ∀ fd ∈ s.opened, fd ≤ n

/-- `n` connections at rest. -/
structure Rest (cfg : Config) (n : Nat) (s : State) : Prop where
  calm : Calm s
  nRecs : s.nRecs = n + 1
  nBufs : s.nBufs = n
  listening : Listening cfg s n
  parked : ∀ k < n, Parked cfg s k
  opened : Numbered s n

/-- `n` connections at rest, and one more whose header is awaited. -/
structure Greeted (cfg : Config) (n : Nat) (s : State) : Prop where
  calm : Calm s
  nRecs : s.nRecs = n + 2
  nBufs : s.nBufs = n
  listening : Listening cfg s (n + 1)
  parked : ∀ k < n, Parked cfg s k
  opened : Numbered s (n + 1)
  pc : (s.recs n).pc = .receivedHeader
  fd : (s.recs n).fd = n + 1
  taken : (s.conns (n + 1)).taken = 0
  header : ∃ q, Untouched s q ∧ s.sqes q = ⟨.recv (n + 1) .headerBuf 2, some n, false⟩

theorem Untouched.frame {q : Nat} (h : Untouched s q) (hhead : s.sqHead ≤ t.sqHead)
    (hst : t.status q = s.status q) (hfol : t.follows q = s.follows q) : Untouched t q :=
  ⟨Nat.lt_of_lt_of_le h.submitted hhead, by rw [hst, h.idle], by rw [hfol, h.free]⟩

theorem Parked.frame {k : Nat} (h : Parked cfg s k) (hhead : s.sqHead ≤ t.sqHead)
    (hsqes : ∀ q < s.sqHead, t.sqes q = s.sqes q)
    (hst : ∀ q < s.sqHead, Carries s q k → t.status q = s.status q)
    (hfol : ∀ q < s.sqHead, t.follows q = s.follows q) (hrec : t.recs k = s.recs k)
    (htaken : (t.conns (k + 1)).taken = (s.conns (k + 1)).taken) : Parked cfg t k := by
  obtain ⟨hr, htk, q, hq, hs⟩ := h
  refine ⟨by rw [hrec, hr], by rw [htaken, htk], q, ?_, by rw [hsqes q hq.submitted, hs]⟩
  exact hq.frame hhead (hst q hq.submitted (by rw [Carries, hs])) (hfol q hq.submitted)

/-- What a run of the loop's program part leaves of the submitted requests. -/
theorem follows_submitAll {q : Nat} (hq : q < s.sqHead) :
    (submitAll s).follows q = s.follows q := by
  simp only [submitAll]
  rw [if_neg (by omega)]

-- ---------------------------------------------------------------------------
-- One more connection
-- ---------------------------------------------------------------------------

/-- The end of a batch of one completion. -/
def closeBatch (s : State) : State :=
  submitAll { s with cqHead := s.cqHead + 1, loop := .submit }

/-- The loop handles the only completion posted. -/
theorem reach_closeBatch {u : State} (hExit : s.exit = none) (hloop : s.loop = .wait)
    (hcq : s.cqTail = s.cqHead + 1)
    (hok : handleCqe cfg { s with loop := .walk s.cqHead 0 } (s.cqes s.cqHead) = .ok u) :
    (machine cfg).Reachable s (closeBatch u) := by
  have hh := handleCqe_ok_cases hok
  have he := hh.extends
  have huExit : u.exit = none := hh.exit_eq.trans hExit
  have hcqu : s.cqHead + 1 = u.cqTail := (hcq.symm.trans he.cqTail_eq.symm :)
  have hcqu' : u.cqHead = s.cqHead := he.cqHead_eq
  have h₁ : step cfg s .waitCqe = some _ := step_waitCqe hExit hloop (by omega)
  have h₂ : step cfg { s with loop := .walk s.cqHead 0 } .visit = some _ :=
    step_visit hExit rfl (by simp only; omega) hok
  have h₃ : step cfg { u with loop := .walk (s.cqHead + 1) (0 + 1) } .advance = some _ :=
    step_advance huExit rfl hcqu
  have h₄ : step cfg { u with cqHead := u.cqHead + 1, loop := .submit } .submit = some _ :=
    step_submit huExit rfl
  exact (reach_step h₁).trans ((reach_step h₂).trans ((reach_step h₃).trans (reach_step h₄)))

/-- The kernel accepts a connection. -/
def accepting (s : State) (q fd : Nat) : State := openConn (setStatus s q (.running 0)) q fd

theorem reach_accepting {q fd l : Nat} (hExit : s.exit = none) (hq : Untouched s q)
    (hop : (s.sqes q).op = .accept l) (hne : fd ≠ cfg.listenFd) (hfresh : fd ∉ s.opened) :
    (machine cfg).Reachable s (accepting s q fd) := by
  have h₁ : step cfg s (.start q) = some _ := step_start hExit hq
  have h₂ : step cfg (setStatus s q (.running 0)) (.connect q fd) = some _ :=
    step_connect hExit (setStatus_self s q (.running 0)) hop hne hfresh
  exact (reach_step h₁).trans (reach_step h₂)

/-- The entries a batch queues are submitted untouched. -/
theorem untouched_submitAll {q : Nat} (hge : s.sqHead ≤ q) (hlt : q < s.sqTail)
    (hidle : s.status q = .idle) (hlink : s.sqHead < q → (s.sqes (q - 1)).link = false) :
    Untouched (submitAll s) q := by
  refine ⟨hlt, hidle, ?_⟩
  simp only [submitAll]
  rw [if_pos ⟨hge, hlt⟩, Bool.and_eq_false_iff]
  by_cases h : s.sqHead < q
  · exact Or.inr (hlink h)
  · exact Or.inl (decide_eq_false h)

theorem accepting_status {q q' fd : Nat} (hne : q' ≠ q) :
    (accepting s q fd).status q' = s.status q' := by
  show Function.update (Function.update s.status q _) q _ q' = _
  rw [Function.update_of_ne hne, Function.update_of_ne hne]

/-- A client connects, and the loop accepts it, in a state in which all else is at rest. -/
theorem reach_greeted {n : Nat} (hlisten : cfg.listenFd = 0) (h : Rest cfg n s) :
    ∃ t, (machine cfg).Reachable s t ∧ Greeted cfg n t := by
  obtain ⟨hpc, qa, hqa, hsqe⟩ := h.listening
  obtain ⟨hExit, hloop, hsq, hcq, hidle⟩ := h.calm
  have hsub := hqa.submitted
  have hfresh : n + 1 ∉ s.opened := by
    intro hmem
    have := h.opened.2 _ hmem
    omega
  -- the kernel accepts, the loop handles it and submits what it queued
  set s₁ := accepting s qa (n + 1) with hs₁
  set s₂ : State := { s₁ with loop := .walk s₁.cqHead 0 } with hs₂
  set u := afterAccepted cfg s₂ n (n + 1) with hu
  have hcqes : s₁.cqes s.cqHead = ⟨some n, (n + 1 : Nat)⟩ := by
    simp [hs₁, accepting, openConn, post, setStatus, hcq, hsqe]
  have hok : handleCqe cfg s₂ (s₁.cqes s.cqHead) = .ok u := by
    rw [hcqes]
    refine handleCqe_accepted rfl hpc rfl ?_
    show s.sqTail + 2 - s.sqHead < 4096
    omega
  have hrun : (machine cfg).Reachable s (closeBatch u) :=
    (reach_accepting hExit hqa (by rw [hsqe]) (by omega) hfresh).trans
      (reach_closeBatch hExit hloop (congrArg (· + 1) hcq.symm) hok)
  have hqes : u.sqes = Function.update (Function.update (Function.update s.sqes
      s.sqTail ⟨.send (n + 1) .msgSizeConv 4, none, false⟩)
      (s.sqTail + 1) ⟨.accept cfg.listenFd, some s.nRecs, false⟩)
      (s.sqTail + 2) ⟨.recv (n + 1) .headerBuf 2, some n, false⟩ := rfl
  rw [h.nRecs] at hqes
  have hst : ∀ q, q ≠ qa → u.status q = s.status q := fun q hq => accepting_status hq
  have hnew : ∀ q, s.sqTail ≤ q → q < s.sqTail + 3 → Untouched (closeBatch u) q := by
    intro q hge hlt
    refine untouched_submitAll ?_ hlt ?_ fun hne => ?_
    · show s.sqHead ≤ q
      omega
    · exact (hst q (by omega)).trans (hidle q hge)
    · -- the three entries are not linked
      change s.sqHead < q at hne
      show (u.sqes (q - 1)).link = false
      have hcases : q = s.sqTail + 1 ∨ q = s.sqTail + 2 := by omega
      rw [hqes]
      rcases hcases with rfl | rfl <;> simp
  have hrecn : u.recs n = ⟨.receivedHeader, n + 1, (s.recs n).buf⟩ := by
    show Function.update (Function.update s.recs s.nRecs _) n
      { (Function.update s.recs s.nRecs _ n) with pc := .receivedHeader, fd := n + 1 } n = _
    rw [Function.update_self, Function.update_of_ne (by rw [h.nRecs]; omega)]
  have hrecN : u.recs (n + 1) = ⟨.accepted, cfg.listenFd, .wild⟩ := by
    show Function.update (Function.update s.recs s.nRecs _) n _ (n + 1) = _
    rw [Function.update_of_ne (by omega), h.nRecs, Function.update_self]
  refine ⟨_, hrun, ⟨hExit, rfl, rfl, ?_, ?_⟩, ?_, h.nBufs, ?_, ?_, ?_, ?_, ?_, ?_, ?_⟩
  · show s.cqHead + 1 = s.cqTail + 1
    omega
  · intro q hq
    change s.sqTail + 3 ≤ q at hq
    exact (hst q (by omega)).trans (hidle q (by omega))
  · exact congrArg (· + 1) h.nRecs
  · refine ⟨congrArg Threadlet.pc hrecN, s.sqTail + 1, hnew _ (by omega) (by omega), ?_⟩
    show u.sqes (s.sqTail + 1) = _
    rw [hqes]
    simp
  · intro k hk
    refine (h.parked k hk).frame ?_ ?_ ?_ ?_ ?_ ?_
    · show s.sqHead ≤ s.sqTail + 3
      omega
    · intro q hq
      show u.sqes q = _
      rw [hqes, Function.update_of_ne (by omega), Function.update_of_ne (by omega),
        Function.update_of_ne (by omega)]
    · intro q _ hc
      refine hst q ?_
      rintro rfl
      rw [Carries, hsqe] at hc
      obtain rfl : n = k := Option.some.inj hc
      exact absurd hk (Nat.lt_irrefl n)
    · intro q hq
      exact follows_submitAll (s := { u with cqHead := u.cqHead + 1, loop := .submit }) hq
    · show Function.update (Function.update s.recs s.nRecs _) n _ k = _
      rw [Function.update_of_ne (by omega), Function.update_of_ne (by rw [h.nRecs]; omega)]
    · show (Function.update s.conns (n + 1) _ (k + 1)).taken = _
      rw [Function.update_of_ne (by omega)]
  · refine ⟨congrArg (· + 1) h.opened.1, fun fd hfd => ?_⟩
    rcases List.mem_cons.mp hfd with rfl | hmem
    · exact Nat.le_refl _
    · exact Nat.le_succ_of_le (h.opened.2 fd hmem)
  · exact congrArg Threadlet.pc hrecn
  · exact congrArg Threadlet.fd hrecn
  · show (Function.update s.conns (n + 1) ⟨0, [], []⟩ (n + 1)).taken = 0
    rw [Function.update_self]
  · refine ⟨s.sqTail + 2, hnew _ (by omega) (by omega), ?_⟩
    show u.sqes (s.sqTail + 2) = _
    rw [hqes, Function.update_self]

theorem serveRecv_status {q q' fd len : Nat} {dst : Ptr} (hne : q' ≠ q) :
    (serveRecv cfg s q fd dst len).status q' = s.status q' := by
  show Function.update (Function.update (Function.update s.status q _) q _) q _ q' = _
  rw [Function.update_of_ne hne, Function.update_of_ne hne, Function.update_of_ne hne]

theorem serveRecv_conns {q fd fd' len : Nat} {dst : Ptr} (hne : fd' ≠ fd) :
    (serveRecv cfg s q fd dst len).conns fd' = s.conns fd' := by
  show Function.update s.conns fd _ fd' = _
  rw [Function.update_of_ne hne]

theorem serveRecv_taken_self {q fd len : Nat} {dst : Ptr} :
    ((serveRecv cfg s q fd dst len).conns fd).taken = (s.conns fd).taken + len := by
  show (Function.update s.conns fd _ fd).taken = _
  rw [Function.update_self]
  rfl

theorem serveRecv_cqes {q fd len : Nat} {dst : Ptr} :
    (serveRecv cfg s q fd dst len).cqes =
      Function.update s.cqes s.cqTail ⟨(s.sqes q).userData, len⟩ := rfl

/-- The loop comes to rest again with one connection more, which waits for its first block. -/
theorem reach_rest_succ {n : Nat}
    (hlen : ∀ fd, 2 + cfg.msgSize.val ≤ (cfg.streams fd).length) (h : Greeted cfg n s) :
    ∃ t, (machine cfg).Reachable s t ∧ Rest cfg (n + 1) t := by
  obtain ⟨qh, hqh, hsqe⟩ := h.header
  obtain ⟨hExit, hloop, hsq, hcq, hidle⟩ := h.calm
  have hsub := hqh.submitted
  -- the header comes in, and the loop asks for the first message
  set s₁ := serveRecv cfg s qh (n + 1) .headerBuf 2 with hs₁
  set s₂ : State := { s₁ with loop := .walk s₁.cqHead 0 } with hs₂
  set u := afterHeader cfg s₂ n with hu
  have hcqes : s₁.cqes s.cqHead = ⟨some n, 2⟩ := by
    rw [hs₁, serveRecv_cqes, hcq, Function.update_self, hsqe]
    rfl
  have hok : handleCqe cfg s₂ (s₁.cqes s.cqHead) = .ok u := by
    rw [hcqes]
    refine handleCqe_header rfl h.pc (Int.le_refl 2) ?_
    show s.sqTail - s.sqHead < 4096
    omega
  have hrun : (machine cfg).Reachable s (closeBatch u) :=
    (reach_serveRecv hExit hqh (by rw [hsqe])
      (by have := hlen (n + 1); rw [h.taken]; omega)).trans
      (reach_closeBatch hExit hloop (congrArg (· + 1) hcq.symm) hok)
  have hqes : u.sqes = Function.update s.sqes s.sqTail
      ⟨.recv (s.recs n).fd (.heap s.nBufs) cfg.msgSize.val, some n, false⟩ := rfl
  rw [h.fd, h.nBufs] at hqes
  have hst : ∀ q, q ≠ qh → u.status q = s.status q := fun q hq => serveRecv_status hq
  have hrecn : u.recs n = ⟨.receivedMsg, n + 1, .heap n⟩ := by
    show Function.update s.recs n ⟨.receivedMsg, (s.recs n).fd, .heap s.nBufs⟩ n = _
    rw [Function.update_self, h.fd, h.nBufs]
  have hrecs : ∀ k, k ≠ n → u.recs k = s.recs k := fun k hk => Function.update_of_ne hk _ _
  have hfol : ∀ q < s.sqHead, (closeBatch u).follows q = s.follows q := fun q hq =>
    follows_submitAll (s := { u with cqHead := u.cqHead + 1, loop := .submit }) hq
  have hsqes : ∀ q < s.sqHead, (closeBatch u).sqes q = s.sqes q := by
    intro q hq
    show u.sqes q = _
    rw [hqes, Function.update_of_ne (by omega)]
  have hhead : s.sqHead ≤ (closeBatch u).sqHead := by
    show s.sqHead ≤ s.sqTail + 1
    omega
  refine ⟨_, hrun, ⟨hExit, rfl, rfl, ?_, ?_⟩, h.nRecs, ?_, ?_, ?_, h.opened⟩
  · show s.cqHead + 1 = s.cqTail + 1
    omega
  · intro q hq
    change s.sqTail + 1 ≤ q at hq
    exact (hst q (by omega)).trans (hidle q (by omega))
  · exact congrArg (· + 1) h.nBufs
  · obtain ⟨hpc, qa, hqa, hqaSqe⟩ := h.listening
    refine ⟨(congrArg Threadlet.pc (hrecs (n + 1) (by omega))).trans hpc, qa, ?_, ?_⟩
    · refine hqa.frame hhead (hst qa ?_) (hfol qa hqa.submitted)
      rintro rfl
      rw [hsqe] at hqaSqe
      cases hqaSqe
    · rw [hsqes qa hqa.submitted, hqaSqe]
  · intro k hk
    rcases Nat.lt_succ_iff_lt_or_eq.mp hk with hlt | rfl
    · refine (h.parked k hlt).frame hhead hsqes ?_ hfol (hrecs k (by omega)) ?_
      · intro q _ hc
        refine hst q ?_
        rintro rfl
        rw [Carries, hsqe] at hc
        obtain rfl : n = k := Option.some.inj hc
        exact absurd hlt (Nat.lt_irrefl n)
      · have hconn : (serveRecv cfg s qh (n + 1) .headerBuf 2).conns (k + 1) = s.conns (k + 1) :=
          serveRecv_conns (by omega)
        exact congrArg Conn.taken hconn
    · refine ⟨hrecn, ?_, s.sqTail, ?_, ?_⟩
      · have htk : ((serveRecv cfg s qh (k + 1) .headerBuf 2).conns (k + 1)).taken = _ :=
          serveRecv_taken_self
        exact htk.trans (by rw [h.taken])
      · refine untouched_submitAll ?_ (Nat.lt_succ_self _) ?_ fun hne => ?_
        · show s.sqHead ≤ s.sqTail
          omega
        · exact (hst s.sqTail (by omega)).trans (hidle _ (Nat.le_refl _))
        · change s.sqHead < s.sqTail at hne
          omega
      · show u.sqes s.sqTail = _
        rw [hqes, Function.update_self]

theorem rest_initial (cfg : Config) (junk : Junk) :
    Rest cfg 0 (submitAll (initial cfg junk)) := by
  refine ⟨⟨rfl, rfl, rfl, rfl, fun _ _ => rfl⟩, rfl, rfl, ⟨rfl, 0, ⟨Nat.one_pos, rfl, rfl⟩, rfl⟩,
    ?_, rfl, ?_⟩
  · intro k hk
    exact absurd hk (Nat.not_lt_zero k)
  · intro fd hfd
    cases hfd

/-- Any number of connections can be at rest. -/
theorem reach_rest (hlisten : cfg.listenFd = 0)
    (hlen : ∀ fd, 2 + cfg.msgSize.val ≤ (cfg.streams fd).length) (junk : Junk) (n : Nat) :
    ∃ t, (machine cfg).Reachable (initial cfg junk) t ∧ Rest cfg n t := by
  induction n with
  | zero => exact ⟨_, reach_step (step_submit rfl rfl), rest_initial cfg junk⟩
  | succ n ih =>
    obtain ⟨s, hs, hrest⟩ := ih
    obtain ⟨t, ht, hgreeted⟩ := reach_greeted hlisten hrest
    obtain ⟨u, hu, hrest'⟩ := reach_rest_succ hlen hgreeted
    exact ⟨u, hs.trans (ht.trans hu), hrest'⟩

-- ---------------------------------------------------------------------------
-- One batch for all of them
-- ---------------------------------------------------------------------------

/-- `n` connections at rest, but for the first `j`, whose messages have come in;
their completions are the slots from `c` on. -/
structure Loaded (cfg : Config) (n j c : Nat) (s : State) : Prop where
  running : s.exit = none
  loop : s.loop = .wait
  sq_empty : s.sqHead = s.sqTail
  cqHead : s.cqHead = c
  cqTail : s.cqTail = c + j
  listening : Listening cfg s n
  recs : ∀ k < n, s.recs k = ⟨.receivedMsg, k + 1, .heap k⟩
  cqes : ∀ k < j, s.cqes (c + k) = ⟨some k, cfg.msgSize.val⟩
  parked : ∀ k, j ≤ k → k < n → Parked cfg s k
  opened : Numbered s n

theorem Rest.loaded {n : Nat} (h : Rest cfg n s) : Loaded cfg n 0 s.cqHead s where
  running := h.calm.running
  loop := h.calm.loop
  sq_empty := h.calm.sq_empty
  cqHead := rfl
  cqTail := h.calm.cq_empty.symm
  listening := h.listening
  recs k hk := (h.parked k hk).1
  cqes k hk := absurd hk (Nat.not_lt_zero k)
  parked k _ hk := h.parked k hk
  opened := h.opened

/-- The kernel has one block more to hand over, and the loop has not begun its walk. -/
theorem reach_loaded_succ {n j c : Nat} (hj : j < n)
    (hlen : ∀ fd, 2 + cfg.msgSize.val ≤ (cfg.streams fd).length) (h : Loaded cfg n j c s) :
    ∃ t, (machine cfg).Reachable s t ∧ Loaded cfg n (j + 1) c t := by
  obtain ⟨-, htaken, q, hq, hsqe⟩ := h.parked j (Nat.le_refl j) hj
  have hreach : (machine cfg).Reachable s
      (serveRecv cfg s q (j + 1) (.heap j) cfg.msgSize.val) :=
    reach_serveRecv h.running hq (by rw [hsqe]) (by rw [htaken]; exact hlen (j + 1))
  refine ⟨_, hreach, h.running, h.loop, h.sq_empty, h.cqHead, ?_, ?_, h.recs, ?_, ?_, h.opened⟩
  · exact congrArg (· + 1) h.cqTail
  · obtain ⟨hpc, qa, hqa, hqaSqe⟩ := h.listening
    refine ⟨hpc, qa, hqa.frame (Nat.le_refl _) (serveRecv_status ?_) rfl, hqaSqe⟩
    rintro rfl
    rw [hsqe] at hqaSqe
    cases hqaSqe
  · intro k hk
    rw [serveRecv_cqes, h.cqTail, hsqe]
    rcases Nat.lt_succ_iff_lt_or_eq.mp hk with hlt | rfl
    · rw [Function.update_of_ne (by omega)]
      exact h.cqes k hlt
    · rw [Function.update_self]
  · intro k hjk hk
    have hpark := h.parked k (by omega) hk
    refine hpark.frame (Nat.le_refl _) (fun _ _ => rfl) ?_ (fun _ _ => rfl) rfl ?_
    · intro q' _ hc
      refine serveRecv_status ?_
      rintro rfl
      rw [Carries, hsqe] at hc
      obtain rfl : j = k := Option.some.inj hc
      exact absurd hjk (Nat.not_succ_le_self j)
    · exact congrArg Conn.taken (serveRecv_conns (by omega))

/-- All of them can have a message in the same batch. -/
theorem reach_batch {n c : Nat}
    (hlen : ∀ fd, 2 + cfg.msgSize.val ≤ (cfg.streams fd).length) (h : Loaded cfg n 0 c s) (j : Nat)
    (hj : j ≤ n) : ∃ t, (machine cfg).Reachable s t ∧ Loaded cfg n j c t := by
  induction j with
  | zero => exact ⟨s, .refl s, h⟩
  | succ j ih =>
    obtain ⟨t, ht, hload⟩ := ih (Nat.le_of_succ_le hj)
    obtain ⟨u, hu, hload'⟩ := reach_loaded_succ hj hlen hload
    exact ⟨u, ht.trans hu, hload'⟩

/-- The loop has handled the first `i` of the batch's messages; the completion
behind them is the accept's. -/
structure Walking (cfg : Config) (n c i : Nat) (s : State) : Prop where
  running : s.exit = none
  loop : s.loop = .walk (c + i) i
  queued : s.sqTail = s.sqHead + 2 * i
  cqTail : s.cqTail = c + n + 1
  listener : (s.recs n).pc = .accepted
  recs : ∀ k < n, s.recs k = ⟨.receivedMsg, k + 1, .heap k⟩
  cqes : ∀ k < n, s.cqes (c + k) = ⟨some k, cfg.msgSize.val⟩
  accepted : s.cqes (c + n) = ⟨some n, (n + 1 : Nat)⟩
  opened : s.opened.length = n + 1

/-- One more client connects, and the loop looks at the ring. -/
theorem reach_walking {n c : Nat} (hlisten : cfg.listenFd = 0) (h : Loaded cfg n n c s) :
    ∃ t, (machine cfg).Reachable s t ∧ Walking cfg n c 0 t := by
  obtain ⟨hpc, qa, hqa, hsqe⟩ := h.listening
  have hfresh : n + 1 ∉ s.opened := by
    intro hmem
    have := h.opened.2 _ hmem
    omega
  have hreach : (machine cfg).Reachable s (accepting s qa (n + 1)) :=
    reach_accepting h.running hqa (by rw [hsqe]) (by omega) hfresh
  have hwait : step cfg (accepting s qa (n + 1)) .waitCqe = some _ :=
    step_waitCqe h.running h.loop (by
      show s.cqHead < s.cqTail + 1
      rw [h.cqHead, h.cqTail]
      omega)
  have hcqes : (accepting s qa (n + 1)).cqes =
      Function.update s.cqes s.cqTail ⟨(s.sqes qa).userData, (n + 1 : Nat)⟩ := rfl
  rw [h.cqTail, hsqe] at hcqes
  refine ⟨_, hreach.trans (reach_step hwait), h.running, ?_, h.sq_empty.symm, ?_, hpc, h.recs,
    ?_, ?_, congrArg (· + 1) h.opened.1⟩
  · exact congrArg (fun x => Loop.walk x 0) h.cqHead
  · exact congrArg (· + 1) h.cqTail
  · intro k hk
    simp only [hcqes]
    rw [Function.update_of_ne (by omega)]
    exact h.cqes k hk
  · simp only [hcqes]
    rw [Function.update_self]

/-- The walk goes on by a completion, which costs two entries of the ring: no more than 2047
of them have room together. -/
theorem reach_walking_succ {n c i : Nat} (hi : i < n) (hn : n ≤ 2047)
    (h : Walking cfg n c i s) : ∃ t, (machine cfg).Reachable s t ∧ Walking cfg n c (i + 1) t := by
  have hrec := h.recs i hi
  have hcqe := h.cqes i hi
  have hok : handleCqe cfg s (s.cqes (c + i)) = .ok (afterMsg cfg s i) := by
    rw [hcqe]
    refine handleCqe_msg rfl (by rw [hrec]) (Int.le_refl _) ?_
    rw [h.queued]
    unfold sqEntries
    omega
  have hvisit : step cfg s .visit = some _ :=
    step_visit h.running h.loop (by rw [h.cqTail]; omega) hok
  refine ⟨_, reach_step hvisit, h.running, rfl, ?_, h.cqTail, h.listener, h.recs, h.cqes,
    h.accepted, h.opened⟩
  show s.sqTail + 2 = s.sqHead + 2 * (i + 1)
  rw [h.queued]
  omega

theorem reach_walked {n c : Nat} (hn : n ≤ 2047) (h : Walking cfg n c 0 s) (i : Nat) (hi : i ≤ n) :
    ∃ t, (machine cfg).Reachable s t ∧ Walking cfg n c i t := by
  induction i with
  | zero => exact ⟨s, .refl s, h⟩
  | succ i ih =>
    obtain ⟨t, ht, hwalk⟩ := ih (Nat.le_of_succ_le hi)
    obtain ⟨u, hu, hwalk'⟩ := reach_walking_succ hi hn hwalk
    exact ⟨u, ht.trans hu, hwalk'⟩

/-- The accept behind 2047 messages finds two entries left. -/
theorem reach_abort {c : Nat} (h : Walking cfg 2047 c 2047 s) :
    ∃ t, (machine cfg).Reachable s t ∧ t.exit = some .sqFull ∧ t.opened.length = 2048 := by
  have herr : handleCqe cfg s (s.cqes (c + 2047)) = .error .sqFull := by
    rw [h.accepted]
    refine handleCqe_accept_sqFull rfl h.listener rfl ?_ ?_
    · rw [h.queued]
      unfold sqEntries
      omega
    · rw [h.queued]
      exact Nat.le_add_right _ _
  have hvisit : step cfg s .visit = some _ :=
    step_visit_error h.running h.loop (by rw [h.cqTail]; omega) herr
  exact ⟨_, reach_step hvisit, rfl, h.opened⟩

-- ---------------------------------------------------------------------------
-- Exact capacity
-- ---------------------------------------------------------------------------

/-- 2047 connections have a block each, and another one comes: the walk finds the ring full when
it accepts the last. -/
theorem exists_abort (cfg : Config) (junk : Junk) (hlisten : cfg.listenFd = 0)
    (hlen : ∀ fd, 2 + cfg.msgSize.val ≤ (cfg.streams fd).length) :
    ∃ s, (machine cfg).Reachable (initial cfg junk) s ∧ s.exit = some .sqFull ∧
      s.opened.length = 2048 := by
  obtain ⟨s₁, h₁, hrest⟩ := reach_rest hlisten hlen junk 2047
  obtain ⟨s₂, h₂, hload⟩ := reach_batch hlen hrest.loaded 2047 (Nat.le_refl _)
  obtain ⟨s₃, h₃, hwalk⟩ := reach_walking hlisten hload
  obtain ⟨s₄, h₄, hwalked⟩ := reach_walked (Nat.le_refl _) hwalk 2047 (Nat.le_refl _)
  obtain ⟨s₅, h₅, hexit, hopened⟩ := reach_abort hwalked
  exact ⟨s₅, h₁.trans (h₂.trans (h₃.trans (h₄.trans h₅))), hexit, hopened⟩

theorem roomy_reachable {junk : Junk} (h : (machine cfg).Reachable (initial cfg junk) s) :
    Roomy s := by
  have hpres : (machine cfg).Preserves fun s => (Queues s ∧ Owned cfg s) ∧ Roomy s :=
    (owned_preserved cfg).and fun s l t hs _ h hstep =>
      roomy_step hs.1 hs.2 h (step_cases hstep).1 (step_cases hstep).2
  have hinit : Roomy (initial cfg junk) := by
    refine ⟨?_, fun h => by cases h⟩
    simp [Half, initial, queuedRecs]
  exact (hpres.reachable ⟨⟨queues_initial cfg junk, owned_initial cfg junk⟩, hinit⟩ h).2

/-- The submission ring is never found full as long as at most 2047 accepts have
completed; with the 2048th it can be, for every message size. -/
theorem mainLoop_sq_capacity :
    (∀ (cfg : Config) (junk : Junk) (s : State), (machine cfg).Reachable (initial cfg junk) s →
      s.opened.length ≤ 2047 → s.exit ≠ some .sqFull) ∧
    ∀ (m : MsgSize) (junk : Junk), ∃ cfg : Config, cfg.msgSize = m ∧
      ∃ s, (machine cfg).Reachable (initial cfg junk) s ∧ s.opened.length = 2048 ∧
        s.exit = some .sqFull := by
  constructor
  · intro cfg junk s hreach hle hexit
    have := (roomy_reachable hreach).abort hexit
    omega
  · intro m junk
    let cfg : Config := ⟨m, 0, fun _ => List.replicate (2 + m.val) 0⟩
    obtain ⟨s, hreach, hexit, hopened⟩ := exists_abort cfg junk rfl
      (fun _ => Nat.le_of_eq List.length_replicate.symm)
    exact ⟨cfg, rfl, s, hreach, hopened, hexit⟩

end EchoServer.Sharded
