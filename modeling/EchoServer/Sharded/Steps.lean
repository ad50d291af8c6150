import EchoServer.Sharded.Model

/-!
# io_uring_sharded — what a step can do

Every invariant of the event loop is proved by cases on `Step`, which lists the
outcomes of `step` with the guard that leads to each; no later module unfolds
the step function. The handler's branches are given by the state they leave
(`afterAccepted`, `afterHeader`, `afterMsg`).

* `step_cases` — every enabled step is one of the listed ones;
* `handleCqe_ok_cases` — a handled completion is skipped or continues its
  threadlet;
* `handleCqe_sqFull` — the abort happens only with the submission ring full.
-/

namespace EchoServer.Sharded

open EchoServer.Lib

variable {cfg : Config} {s t : State}

-- ---------------------------------------------------------------------------
-- The handler's branches
-- ---------------------------------------------------------------------------

/-- The state after the `ACCEPTED` branch: announcement, next accept, header. -/
def afterAccepted (cfg : Config) (s : State) (r fd : Nat) : State :=
  { s with
    sqes := Function.update (Function.update (Function.update s.sqes
      s.sqTail ⟨.send fd .msgSizeConv 4, none, false⟩)
      (s.sqTail + 1) ⟨.accept cfg.listenFd, some s.nRecs, false⟩)
      (s.sqTail + 2) ⟨.recv fd .headerBuf 2, some r, false⟩
    sqTail := s.sqTail + 3
    recs := Function.update (Function.update s.recs s.nRecs ⟨.accepted, cfg.listenFd, .wild⟩) r
      { (Function.update s.recs s.nRecs ⟨.accepted, cfg.listenFd, .wild⟩) r with
        pc := .receivedHeader, fd := fd }
    nRecs := s.nRecs + 1 }

/-- The state after the `RECEIVED_HEADER` branch. -/
def afterHeader (cfg : Config) (s : State) (r : Nat) : State :=
  { s with
    sqes := Function.update s.sqes s.sqTail
      ⟨.recv (s.recs r).fd (.heap s.nBufs) cfg.msgSize.val, some r, false⟩
    sqTail := s.sqTail + 1
    nBufs := s.nBufs + 1
    recs := Function.update s.recs r { s.recs r with pc := .receivedMsg, buf := .heap s.nBufs } }

/-- The state after the `RECEIVED_MSG` branch. -/
def afterMsg (cfg : Config) (s : State) (r : Nat) : State :=
  { s with
    sqes := Function.update (Function.update s.sqes
      s.sqTail ⟨.send (s.recs r).fd (s.recs r).buf cfg.msgSize.val, none, true⟩)
      (s.sqTail + 1) ⟨.recv (s.recs r).fd (s.recs r).buf cfg.msgSize.val, some r, false⟩
    sqTail := s.sqTail + 2
    conns := Function.update s.conns (s.recs r).fd
      { s.conns (s.recs r).fd with
        handed := (s.conns (s.recs r).fd).handed ++
          [(s.mem (s.recs r).buf).take cfg.msgSize.val] } }

section Branches

variable {q r r' fd : Nat}

/-- What accepting a connection queues: three entries. -/
theorem afterAccepted_queued (hge : s.sqTail ≤ q) (hlt : q < (afterAccepted cfg s r fd).sqTail) :
    q = s.sqTail ∨ q = s.sqTail + 1 ∨ q = s.sqTail + 2 := by
  simp only [afterAccepted] at hlt
  omega

@[simp] theorem afterAccepted_sqes_send : (afterAccepted cfg s r fd).sqes s.sqTail =
    ⟨.send fd .msgSizeConv 4, none, false⟩ := by
  simp [afterAccepted]

@[simp] theorem afterAccepted_sqes_accept : (afterAccepted cfg s r fd).sqes (s.sqTail + 1) =
    ⟨.accept cfg.listenFd, some s.nRecs, false⟩ := by
  simp [afterAccepted]

@[simp] theorem afterAccepted_sqes_recv : (afterAccepted cfg s r fd).sqes (s.sqTail + 2) =
    ⟨.recv fd .headerBuf 2, some r, false⟩ := by
  simp [afterAccepted]

theorem afterAccepted_recs_self (hr : r < s.nRecs) : (afterAccepted cfg s r fd).recs r =
    ⟨.receivedHeader, fd, (s.recs r).buf⟩ := by
  simp only [afterAccepted, Function.update_self]
  rw [Function.update_of_ne (Nat.ne_of_lt hr)]

/-- The new record is the one that waits for the next connection. -/
theorem afterAccepted_recs_new (hr : r < s.nRecs) : (afterAccepted cfg s r fd).recs s.nRecs =
    ⟨.accepted, cfg.listenFd, .wild⟩ := by
  simp only [afterAccepted]
  rw [Function.update_of_ne (Nat.ne_of_gt hr), Function.update_self]

theorem afterAccepted_recs_of_ne (hr' : r' < s.nRecs) (hne : r' ≠ r) :
    (afterAccepted cfg s r fd).recs r' = s.recs r' := by
  simp only [afterAccepted]
  rw [Function.update_of_ne hne, Function.update_of_ne (Nat.ne_of_lt hr')]

theorem afterHeader_queued (hge : s.sqTail ≤ q) (hlt : q < (afterHeader cfg s r).sqTail) :
    q = s.sqTail := by
  simp only [afterHeader] at hlt
  omega

@[simp] theorem afterHeader_sqes_recv : (afterHeader cfg s r).sqes s.sqTail =
    ⟨.recv (s.recs r).fd (.heap s.nBufs) cfg.msgSize.val, some r, false⟩ := by
  simp [afterHeader]

@[simp] theorem afterHeader_recs_self : (afterHeader cfg s r).recs r =
    ⟨.receivedMsg, (s.recs r).fd, .heap s.nBufs⟩ := by
  simp [afterHeader]

theorem afterHeader_recs_of_ne (hne : r' ≠ r) : (afterHeader cfg s r).recs r' = s.recs r' := by
  simp only [afterHeader]
  rw [Function.update_of_ne hne]

/-- What echoing a message queues: two entries, the first linked to the second. -/
theorem afterMsg_queued (hge : s.sqTail ≤ q) (hlt : q < (afterMsg cfg s r).sqTail) :
    q = s.sqTail ∨ q = s.sqTail + 1 := by
  simp only [afterMsg] at hlt
  omega

@[simp] theorem afterMsg_sqes_send : (afterMsg cfg s r).sqes s.sqTail =
    ⟨.send (s.recs r).fd (s.recs r).buf cfg.msgSize.val, none, true⟩ := by
  simp [afterMsg]

@[simp] theorem afterMsg_sqes_recv : (afterMsg cfg s r).sqes (s.sqTail + 1) =
    ⟨.recv (s.recs r).fd (s.recs r).buf cfg.msgSize.val, some r, false⟩ := by
  simp [afterMsg]

end Branches

/-- An entry that was queued had room in the ring; it is the last one then, and nothing else
has changed. -/
theorem pushSqe_ok {s t : State} {e : Sqe} (h : pushSqe s e = .ok t) :
    s.sqTail - s.sqHead < sqEntries ∧
      t = { s with sqes := Function.update s.sqes s.sqTail e, sqTail := s.sqTail + 1 } := by
  unfold pushSqe at h
  split at h
  · rename_i hroom
    cases h
    exact ⟨hroom, rfl⟩
  · cases h

/-- Nothing but a full ring keeps an entry from being queued. -/
theorem pushSqe_error {s : State} {e : Sqe} {x : Exit} (h : pushSqe s e = .error x) :
    x = .sqFull ∧ sqEntries ≤ s.sqTail - s.sqHead := by
  unfold pushSqe at h
  split at h
  · cases h
  · rename_i hfull
    cases h
    exact ⟨rfl, Nat.not_lt.mp hfull⟩

theorem bind_ok {ε α β : Type} {x : Except ε α} {f : α → Except ε β} {b : β}
    (h : x >>= f = .ok b) : ∃ a, x = .ok a ∧ f a = .ok b := by
  cases x with
  | error e => cases h
  | ok a => exact ⟨a, rfl, h⟩

theorem bind_error {ε α β : Type} {x : Except ε α} {f : α → Except ε β} {e : ε}
    (h : x >>= f = .error e) : x = .error e ∨ ∃ a, x = .ok a ∧ f a = .error e := by
  cases x with
  | error e' => cases h; exact Or.inl rfl
  | ok a => exact Or.inr ⟨a, rfl, h⟩

/-- The `accepted` branch, when it went through: the three entries had room, and what it leaves
is `afterAccepted`. -/
theorem onAccepted_ok {r : Nat} {res : Int} (h : onAccepted cfg s r res = .ok t) :
    0 ≤ res ∧ s.sqTail + 2 - s.sqHead < sqEntries ∧ t = afterAccepted cfg s r res.toNat := by
  unfold onAccepted addAccept at h
  split at h
  · cases h
  · rename_i hres
    obtain ⟨s₁, h₁, h⟩ := bind_ok h
    obtain ⟨-, rfl⟩ := pushSqe_ok h₁
    obtain ⟨s₂, h₂, h⟩ := bind_ok h
    obtain ⟨s₂', h₂', h₂⟩ := bind_ok h₂
    obtain ⟨-, rfl⟩ := pushSqe_ok h₂'
    cases h₂
    obtain ⟨s₃, h₃, h⟩ := bind_ok h
    obtain ⟨hroom, rfl⟩ := pushSqe_ok h₃
    cases h
    exact ⟨by omega, hroom, rfl⟩

/-- The `received_header` branch: a failed or short `recv` ends the threadlet, with nothing
done. -/
theorem onReceivedHeader_ok {r : Nat} {res : Int} (h : onReceivedHeader cfg s r res = .ok t) :
    (res < 2 ∧ t = s) ∨
      (2 ≤ res ∧ s.sqTail - s.sqHead < sqEntries ∧ t = afterHeader cfg s r) := by
  unfold onReceivedHeader at h
  split at h
  · rename_i hres
    cases h
    exact Or.inl ⟨hres, rfl⟩
  · rename_i hres
    obtain ⟨s₁, h₁, h⟩ := bind_ok h
    obtain ⟨hroom, rfl⟩ := pushSqe_ok h₁
    cases h
    exact Or.inr ⟨by omega, hroom, rfl⟩

/-- The `received_msg` branch: a failed or short `recv` ends the threadlet, as in the branch of
the header. -/
theorem onReceivedMsg_ok {r : Nat} {res : Int} (h : onReceivedMsg cfg s r res = .ok t) :
    (res < cfg.msgSize.val ∧ t = s) ∨
      ((cfg.msgSize.val : Int) ≤ res ∧ s.sqTail + 1 - s.sqHead < sqEntries ∧
        t = afterMsg cfg s r) := by
  unfold onReceivedMsg at h
  split at h
  · rename_i hres
    cases h
    exact Or.inl ⟨hres, rfl⟩
  · rename_i hres
    obtain ⟨s₁, h₁, h⟩ := bind_ok h
    obtain ⟨-, rfl⟩ := pushSqe_ok h₁
    obtain ⟨s₂, h₂, h⟩ := bind_ok h
    obtain ⟨hroom, rfl⟩ := pushSqe_ok h₂
    cases h
    exact Or.inr ⟨by omega, hroom, rfl⟩

/-- The completions the loop body passes over: a `send`'s, and the failed or
short `recv` with which a threadlet ends. -/
def Skips (cfg : Config) (s : State) (c : Cqe) : Prop :=
  c.userData = none ∨
    ∃ r, c.userData = some r ∧
      (((s.recs r).pc = .receivedHeader ∧ c.res < 2) ∨
        ((s.recs r).pc = .receivedMsg ∧ c.res < cfg.msgSize.val))

/-- What handling a completion did. -/
inductive Handled (cfg : Config) (s : State) (c : Cqe) : State → Prop
  | skip : Skips cfg s c → Handled cfg s c s
  | accepted (r : Nat) : c.userData = some r → (s.recs r).pc = .accepted → 0 ≤ c.res →
      s.sqTail + 2 - s.sqHead < sqEntries →
      Handled cfg s c (afterAccepted cfg s r c.res.toNat)
  | header (r : Nat) : c.userData = some r → (s.recs r).pc = .receivedHeader → 2 ≤ c.res →
      s.sqTail - s.sqHead < sqEntries → Handled cfg s c (afterHeader cfg s r)
  | msg (r : Nat) : c.userData = some r → (s.recs r).pc = .receivedMsg →
      (cfg.msgSize.val : Int) ≤ c.res → s.sqTail + 1 - s.sqHead < sqEntries →
      Handled cfg s c (afterMsg cfg s r)

/-- Everything the loop body does with a completion, when no entry is missing. All invariants
are proved from these cases, and none looks at the code again. -/
theorem handleCqe_ok_cases {c : Cqe} (h : handleCqe cfg s c = .ok t) : Handled cfg s c t := by
  unfold handleCqe at h
  split at h
  · rename_i hnone
    cases h
    exact .skip (Or.inl hnone)
  · rename_i r hr
    split at h
    · rename_i hpc
      obtain ⟨hres, hroom, rfl⟩ := onAccepted_ok h
      exact .accepted r hr hpc hres hroom
    · rename_i hpc
      obtain ⟨hres, rfl⟩ | ⟨hres, hroom, rfl⟩ := onReceivedHeader_ok h
      · exact .skip (Or.inr ⟨r, hr, Or.inl ⟨hpc, hres⟩⟩)
      · exact .header r hr hpc hres hroom
    · rename_i hpc
      obtain ⟨hres, rfl⟩ | ⟨hres, hroom, rfl⟩ := onReceivedMsg_ok h
      · exact .skip (Or.inr ⟨r, hr, Or.inr ⟨hpc, hres⟩⟩)
      · exact .msg r hr hpc hres hroom

-- ---------------------------------------------------------------------------
-- The abort
-- ---------------------------------------------------------------------------

theorem onAccepted_sqFull {r : Nat} {res : Int} (h : onAccepted cfg s r res = .error .sqFull) :
    0 ≤ res ∧ sqEntries ≤ s.sqTail + 2 - s.sqHead := by
  unfold onAccepted addAccept at h
  split at h
  · cases h
  · rename_i hres
    refine ⟨by omega, ?_⟩
    rcases bind_error h with h₁ | ⟨s₁, h₁, h⟩
    · have := (pushSqe_error h₁).2
      omega
    · obtain ⟨-, rfl⟩ := pushSqe_ok h₁
      rcases bind_error h with h₂ | ⟨s₂, h₂, h⟩
      · rcases bind_error h₂ with h₂' | ⟨s₂', -, h₂'⟩
        · have := (pushSqe_error h₂').2
          simp only at this
          omega
        · cases h₂'
      · obtain ⟨s₂', h₂', h₂⟩ := bind_ok h₂
        obtain ⟨-, rfl⟩ := pushSqe_ok h₂'
        cases h₂
        rcases bind_error h with h₃ | ⟨s₃, -, h⟩
        · exact (pushSqe_error h₃).2
        · cases h

theorem onReceivedHeader_sqFull {r : Nat} {res : Int}
    (h : onReceivedHeader cfg s r res = .error .sqFull) :
    2 ≤ res ∧ sqEntries ≤ s.sqTail - s.sqHead := by
  unfold onReceivedHeader at h
  split at h
  · cases h
  · rename_i hres
    rcases bind_error h with h₁ | ⟨s₁, -, h⟩
    · exact ⟨by omega, (pushSqe_error h₁).2⟩
    · cases h

theorem onReceivedMsg_sqFull {r : Nat} {res : Int}
    (h : onReceivedMsg cfg s r res = .error .sqFull) :
    (cfg.msgSize.val : Int) ≤ res ∧ sqEntries ≤ s.sqTail + 1 - s.sqHead := by
  unfold onReceivedMsg at h
  split at h
  · cases h
  · rename_i hres
    refine ⟨by omega, ?_⟩
    rcases bind_error h with h₁ | ⟨s₁, h₁, h⟩
    · have := (pushSqe_error h₁).2
      omega
    · obtain ⟨-, rfl⟩ := pushSqe_ok h₁
      rcases bind_error h with h₂ | ⟨s₂, -, h⟩
      · exact (pushSqe_error h₂).2
      · cases h

/-- A completion whose handling finds the submission ring full, by the branch
that needs the entries. -/
inductive Overflows (cfg : Config) (s : State) (c : Cqe) : Prop
  | accepted (r : Nat) : c.userData = some r → (s.recs r).pc = .accepted → 0 ≤ c.res →
      sqEntries ≤ s.sqTail + 2 - s.sqHead → Overflows cfg s c
  | header (r : Nat) : c.userData = some r → (s.recs r).pc = .receivedHeader → 2 ≤ c.res →
      sqEntries ≤ s.sqTail - s.sqHead → Overflows cfg s c
  | msg (r : Nat) : c.userData = some r → (s.recs r).pc = .receivedMsg →
      (cfg.msgSize.val : Int) ≤ c.res → sqEntries ≤ s.sqTail + 1 - s.sqHead → Overflows cfg s c

/-- What the loop body was about to queue when the ring had no entry left. -/
theorem handleCqe_sqFull {c : Cqe} (h : handleCqe cfg s c = .error .sqFull) :
    Overflows cfg s c := by
  unfold handleCqe at h
  split at h
  · cases h
  · rename_i r hr
    split at h
    · rename_i hpc
      exact .accepted r hr hpc (onAccepted_sqFull h).1 (onAccepted_sqFull h).2
    · rename_i hpc
      exact .header r hr hpc (onReceivedHeader_sqFull h).1 (onReceivedHeader_sqFull h).2
    · rename_i hpc
      exact .msg r hr hpc (onReceivedMsg_sqFull h).1 (onReceivedMsg_sqFull h).2

-- ---------------------------------------------------------------------------
-- The steps
-- ---------------------------------------------------------------------------

/-- Everything an enabled step can be. -/
inductive Step (cfg : Config) (s : State) : Label → State → Prop
  | submit : s.loop = .submit → Step cfg s .submit (submitAll s)
  | waitCqe : s.loop = .wait → s.cqHead < s.cqTail →
      Step cfg s .waitCqe { s with loop := .walk s.cqHead 0 }
  | waitError : s.loop = .wait → Step cfg s .waitError { s with exit := some .waitFailed }
  | visit {t : State} (head i : Nat) : s.loop = .walk head i → head < s.cqTail →
      Handled cfg s (s.cqes head) t →
      Step cfg s .visit { t with loop := .walk (head + 1) (i + 1) }
  | visitExit (head i : Nat) (e : Exit) : s.loop = .walk head i → head < s.cqTail →
      handleCqe cfg s (s.cqes head) = .error e →
      Step cfg s .visit { s with exit := some e }
  | advance (head i : Nat) : s.loop = .walk head i → head = s.cqTail →
      Step cfg s .advance { s with cqHead := s.cqHead + i, loop := .submit }
  | start (q : Nat) : q < s.sqHead → s.status q = .idle → linkReady s q = true →
      Step cfg s (.start q) (setStatus s q (.running 0))
  | recvSome (q k p fd : Nat) (dst : Ptr) (len : Nat) : s.status q = .running p →
      (s.sqes q).op = .recv fd dst len → p + k ≤ len →
      (s.conns fd).taken + k ≤ (cfg.streams fd).length →
      Step cfg s (.recvSome q k) (moveIn cfg s q fd dst p k)
  | sendSome (q k p fd : Nat) (src : Ptr) (len : Nat) : s.status q = .running p →
      (s.sqes q).op = .send fd src len → p + k ≤ len →
      Step cfg s (.sendSome q k) (moveOut s q fd src p k)
  | finish (q p : Nat) : s.status q = .running p → p = (s.sqes q).op.len →
      (∀ fd, (s.sqes q).op ≠ .accept fd) → Step cfg s (.finish q) (post s q p)
  | fail (q p : Nat) (res : Int) : s.status q = .running p → res < (s.sqes q).op.len →
      Step cfg s (.fail q res) (post s q res)
  | cancel (q : Nat) : q < s.sqHead → s.status q = .idle → linkBroken s q = true →
      Step cfg s (.cancel q) (post s q ecanceled)
  | connect (q p fd lfd : Nat) : s.status q = .running p → (s.sqes q).op = .accept lfd →
      fd ≠ cfg.listenFd → fd ∉ s.opened → Step cfg s (.connect q fd) (openConn s q fd)

/-- An enabled step is one of those listed, taken by a process that runs. -/
theorem step_cases {l : Label} (h : step cfg s l = some t) :
    s.exit = none ∧ Step cfg s l t := by
  unfold step at h
  split at h
  · cases h
  rename_i hexit
  refine ⟨by simpa using hexit, ?_⟩
  -- a label whose guard fails is not enabled
  cases l with
  | submit =>
    simp only at h
    split at h
    · rename_i hloop
      cases h
      exact .submit hloop
    · cases h
  | waitCqe =>
    simp only at h
    split at h
    · rename_i hloop
      split at h
      · rename_i hlt
        cases h
        exact .waitCqe hloop hlt
      · cases h
    · cases h
  | waitError =>
    simp only at h
    split at h
    · rename_i hloop
      cases h
      exact .waitError hloop
    · cases h
  | visit =>
    simp only at h
    split at h
    · rename_i head i hloop
      split at h
      · rename_i hlt
        split at h
        · rename_i t' hok
          cases h
          exact .visit head i hloop hlt (handleCqe_ok_cases hok)
        · rename_i e herr
          cases h
          exact .visitExit head i e hloop hlt herr
      · cases h
    · cases h
  | advance =>
    simp only at h
    split at h
    · rename_i head i hloop
      split at h
      · rename_i heq
        cases h
        exact .advance head i hloop heq
      · cases h
    · cases h
  | start q =>
    simp only at h
    split at h
    · rename_i hg
      cases h
      exact .start q hg.1 hg.2.1 hg.2.2
    · cases h
  | recvSome q k =>
    simp only at h
    split at h
    · rename_i p fd dst len hst hop
      split at h
      · rename_i hg
        cases h
        exact .recvSome q k p fd dst len hst hop hg.1 hg.2
      · cases h
    · cases h
  | sendSome q k =>
    simp only at h
    split at h
    · rename_i p fd src len hst hop
      split at h
      · rename_i hg
        cases h
        exact .sendSome q k p fd src len hst hop hg
      · cases h
    · cases h
  | finish q =>
    simp only at h
    split at h
    · rename_i p fd src len hst hop
      split at h
      · rename_i hp
        cases h
        subst hp
        exact .finish q p hst (by rw [hop]; rfl) (by simp [hop])
      · cases h
    · rename_i p fd dst len hst hop
      split at h
      · rename_i hp
        cases h
        subst hp
        exact .finish q p hst (by rw [hop]; rfl) (by simp [hop])
      · cases h
    · cases h
  | fail q res =>
    simp only at h
    split at h
    · rename_i p hst
      split at h
      · rename_i hlt
        cases h
        exact .fail q p res hst hlt
      · cases h
    · cases h
  | cancel q =>
    simp only at h
    split at h
    · rename_i hg
      cases h
      exact .cancel q hg.1 hg.2.1 hg.2.2
    · cases h
  | connect q fd =>
    simp only at h
    split at h
    · rename_i p lfd hst hop
      split at h
      · rename_i hg
        cases h
        exact .connect q p fd lfd hst hop hg.1 hg.2
      · cases h
    · cases h

end EchoServer.Sharded
