import EchoServer.Sharded.Queues

/-!
# io_uring_sharded — who a request belongs to

A threadlet's program counter is kept in its record, not in its requests, so
dispatch is right only because a record never has two requests outstanding and
its `pc` is changed exactly when the next request is queued. `Owned` is that
invariant:

* a live request that carries record `r` is the one `r` waits for (`awaited`),
  and no other live request carries `r`;
* exactly one record waits for an accept, and it has its request;
* records other than the accepting one have pairwise different descriptors, and
  pairwise different buffers.

`owned_step` is the step lemma, relative to `Queues`.
-/

namespace EchoServer.Sharded

open EchoServer.Lib

variable {cfg : Config} {s t : State}

/-- The request a threadlet waits for, going by its record. -/
def awaited (cfg : Config) (r : Threadlet) : Op :=
  match r.pc with
  | .accepted => .accept r.fd
  | .receivedHeader => .recv r.fd .headerBuf 2
  | .receivedMsg => .recv r.fd r.buf cfg.msgSize.val

/-- Request `q` carries record `r`. -/
def Carries (s : State) (q r : Nat) : Prop := (s.sqes q).userData = some r

structure Owned (cfg : Config) (s : State) : Prop where
  awaits : ∀ q r, Live s q → Carries s q r →
    r < s.nRecs ∧ (s.sqes q).op = awaited cfg (s.recs r)
  unique : ∀ q q' r, Live s q → Live s q' → Carries s q r → Carries s q' r → q = q'
  sends : ∀ q < s.sqTail, ∀ fd src len, (s.sqes q).op = .send fd src len →
    src = .msgSizeConv ∨ (s.sqes q).link = true
  carried : ∀ q < s.sqTail, (∃ r, Carries s q r) ∨ ∃ fd src len, (s.sqes q).op = .send fd src len
  listener : ∃ r < s.nRecs, (s.recs r).pc = .accepted ∧ (∃ q, Live s q ∧ Carries s q r) ∧
    ∀ r' < s.nRecs, (s.recs r').pc = .accepted → r' = r
  listens : ∀ r < s.nRecs, (s.recs r).pc = .accepted → (s.recs r).fd = cfg.listenFd
  fd_opened : ∀ r < s.nRecs, (s.recs r).pc ≠ .accepted → (s.recs r).fd ∈ s.opened
  fd_inj : ∀ r < s.nRecs, ∀ r' < s.nRecs, (s.recs r).pc ≠ .accepted →
    (s.recs r').pc ≠ .accepted → (s.recs r).fd = (s.recs r').fd → r = r'
  buf_set : ∀ r < s.nRecs, (s.recs r).pc = .receivedMsg →
    ∃ b < s.nBufs, (s.recs r).buf = .heap b
  buf_inj : ∀ r < s.nRecs, ∀ r' < s.nRecs, (s.recs r).pc = .receivedMsg →
    (s.recs r').pc = .receivedMsg → (s.recs r).buf = (s.recs r').buf → r = r'
  accepted_fd : ∀ q l slot, Live s q → (s.sqes q).op = .accept l →
    s.status q = .posted slot true → ∃ fd : Nat, (s.cqes slot).res = fd ∧ fd ∈ s.opened ∧
      ∀ r < s.nRecs, (s.recs r).pc ≠ .accepted → (s.recs r).fd ≠ fd
  listen_closed : cfg.listenFd ∉ s.opened

-- ---------------------------------------------------------------------------
-- How steps change which requests are live
-- ---------------------------------------------------------------------------

/-- A kernel step that posts nothing. -/
theorem live_setStatus {q q' : Nat} {st : Status} (hold : ¬ IsPosted s q)
    (hnew : ∀ slot full, st ≠ .posted slot full) (hst : t.sqTail = s.sqTail)
    (hseen : seen t = seen s) (hstatus : t.status = Function.update s.status q st) :
    Live t q' ↔ Live s q' := by
  unfold Live
  rw [hst, hseen, hstatus]
  refine and_congr_right fun _ => forall_congr' fun slot => forall_congr' fun full => ?_
  by_cases hqq : q' = q
  · subst hqq
    rw [Function.update_self]
    exact ⟨fun _ h => absurd ⟨slot, full, h⟩ hold, fun _ h => absurd h (hnew slot full)⟩
  · rw [Function.update_of_ne hqq]

theorem posted_of_setStatus {q q' slot : Nat} {full : Bool} {st : Status}
    (hnew : ∀ slot full, st ≠ .posted slot full)
    (h : Function.update s.status q st q' = .posted slot full) : s.status q' = .posted slot full := by
  by_cases hqq : q' = q
  · subst hqq
    rw [Function.update_self] at h
    exact absurd h (hnew slot full)
  · rwa [Function.update_of_ne hqq] at h

/-- A completion just posted is one the loop has not come to. -/
theorem live_post {q q' : Nat} {res : Int} (h : Queues s) (hold : ¬ IsPosted s q) :
    Live (post s q res) q' ↔ Live s q' := by
  have hcq := h.cq_le.2
  unfold Live
  refine and_congr_right fun _ => forall_congr' fun slot => forall_congr' fun full => ?_
  by_cases hqq : q' = q
  · subst hqq
    simp only [post, Function.update_self]
    refine ⟨fun _ h => absurd ⟨slot, full, h⟩ hold, fun _ h => ?_⟩
    cases h
    exact hcq
  · simp only [post, Function.update_of_ne hqq]
    exact Iff.rfl

/-- Handling a completion ends its request and brings in the queued entries. -/
theorem live_visit {u : State} {head i : Nat} (h : Queues s) (hloop : s.loop = .walk head i)
    (hlt : head < s.cqTail) (he : Extends s u) :
    ∃ q₀ f, s.status q₀ = .posted head f ∧ Live s q₀ ∧
      (s.cqes head).userData = (s.sqes q₀).userData ∧
      f = decide (((s.sqes q₀).op.len : Int) ≤ (s.cqes head).res) ∧
      ∀ q, Live { u with loop := .walk (head + 1) (i + 1) } q ↔
        (Live s q ∧ q ≠ q₀) ∨ (s.sqTail ≤ q ∧ q < u.sqTail) := by
  obtain ⟨q₀, f, hq₀⟩ := h.slot_surj head hlt
  have hsub := h.submitted (q := q₀) (by rw [hq₀]; simp)
  have hsq := h.sq_le
  have hseen := seen_walk hloop
  obtain ⟨-, hud, hf⟩ := h.posted q₀ head f hq₀
  have hlive₀ : Live s q₀ := by
    refine ⟨by omega, fun slot full h' => ?_⟩
    rw [hq₀] at h'
    cases h'
    omega
  refine ⟨q₀, f, hq₀, hlive₀, hud, hf, fun q => ?_⟩
  simp only [Live, he.status_eq, hseen]
  constructor
  · rintro ⟨hq, hall⟩
    by_cases hold : q < s.sqTail
    · refine Or.inl ⟨⟨hold, ?_⟩, ?_⟩
      · intro slot full h'
        exact Nat.le_of_succ_le (hall slot full h')
      · rintro rfl
        exact absurd (hall head f hq₀) (Nat.not_succ_le_self head)
    · exact Or.inr ⟨Nat.not_lt.mp hold, hq⟩
  · rintro (⟨⟨hq, hall⟩, hne⟩ | ⟨hge, hq⟩)
    · refine ⟨Nat.lt_of_lt_of_le hq he.sqTail_le, fun slot full h' => ?_⟩
      have hle := hall slot full h'
      rcases Nat.lt_or_eq_of_le hle with hlt' | rfl
      · exact hlt'
      · exact absurd (h.slot_inj q q₀ _ _ _ h' hq₀) hne
    · refine ⟨hq, fun slot full h' => ?_⟩
      rw [h.queued_idle q (by omega)] at h'
      cases h'

-- ---------------------------------------------------------------------------
-- Preservation
-- ---------------------------------------------------------------------------

/-- A step that leaves the submission table, the records, the set of open
descriptors and the live requests as they are, and posts no accept. -/
theorem Owned.congr (h : Owned cfg s) (hsqes : t.sqes = s.sqes) (hst : t.sqTail = s.sqTail)
    (hrecs : t.recs = s.recs) (hnRecs : t.nRecs = s.nRecs) (hnBufs : t.nBufs = s.nBufs)
    (hopened : t.opened = s.opened) (hlive : ∀ q, Live t q ↔ Live s q)
    (hacc : ∀ q l slot, (s.sqes q).op = .accept l → t.status q = .posted slot true →
      s.status q = .posted slot true ∧ t.cqes slot = s.cqes slot) : Owned cfg t where
  awaits q r hq hc := by
    rw [hsqes, hrecs, hnRecs]
    exact h.awaits q r ((hlive q).mp hq) (by rwa [Carries, hsqes] at hc)
  unique q q' r hq hq' hc hc' :=
    h.unique q q' r ((hlive q).mp hq) ((hlive q').mp hq') (by rwa [Carries, hsqes] at hc)
      (by rwa [Carries, hsqes] at hc')
  sends := by rw [hsqes, hst]; exact h.sends
  carried := by simp only [Carries, hsqes, hst]; exact h.carried
  listener := by
    obtain ⟨r, hr, hpc, ⟨q, hq, hc⟩, huniq⟩ := h.listener
    rw [hrecs, hnRecs]
    exact ⟨r, hr, hpc, ⟨q, (hlive q).mpr hq, by rwa [Carries, hsqes]⟩, huniq⟩
  listens := by rw [hrecs, hnRecs]; exact h.listens
  fd_opened := by rw [hrecs, hnRecs, hopened]; exact h.fd_opened
  fd_inj := by rw [hrecs, hnRecs]; exact h.fd_inj
  buf_set := by rw [hrecs, hnRecs, hnBufs]; exact h.buf_set
  buf_inj := by rw [hrecs, hnRecs]; exact h.buf_inj
  accepted_fd q l slot hq hop hst := by
    rw [hsqes] at hop
    obtain ⟨hst', hcqe⟩ := hacc q l slot hop hst
    rw [hcqe, hrecs, hnRecs, hopened]
    exact h.accepted_fd q l slot ((hlive q).mp hq) hop hst'
  listen_closed := by rw [hopened]; exact h.listen_closed

/-- A posted completion that is not an accept in full. -/
theorem Owned.post {q : Nat} {res : Int} (h : Owned cfg s) (hQ : Queues s)
    (hold : ¬ IsPosted s q)
    (hres : ∀ l, (s.sqes q).op = .accept l → res < 0) : Owned cfg (post s q res) := by
  refine h.congr rfl rfl rfl rfl rfl rfl (fun q' => live_post hQ hold) ?_
  intro q' l slot hop hst
  by_cases hqq : q' = q
  · subst hqq
    simp only [EchoServer.Sharded.post, Function.update_self, hop, Op.len] at hst
    have hneg := hres l hop
    have hdec : decide (((0 : Nat) : Int) ≤ res) = false := decide_eq_false (by omega)
    rw [hdec] at hst
    cases hst
  · simp only [EchoServer.Sharded.post, Function.update_of_ne hqq] at hst ⊢
    have hslot := (hQ.posted q' slot true hst).1
    exact ⟨hst, Function.update_of_ne (Nat.ne_of_lt hslot) _ _⟩

/-- A connection is accepted: its descriptor is one no record holds. -/
theorem Owned.openConn {q fd p l : Nat} (h : Owned cfg s) (hQ : Queues s)
    (hst : s.status q = .running p) (hop : (s.sqes q).op = .accept l)
    (hne : fd ≠ cfg.listenFd) (hfresh : fd ∉ s.opened) : Owned cfg (openConn s q fd) := by
  have hold := not_isPosted_running hst
  have hlive : ∀ q', Live (EchoServer.Sharded.openConn s q fd) q' ↔ Live s q' :=
    fun q' => (live_post hQ hold : Live (EchoServer.Sharded.post s q (fd : Int)) q' ↔ Live s q')
  have hnew : ∀ r < s.nRecs, (s.recs r).pc ≠ .accepted → (s.recs r).fd ≠ fd := by
    rintro r hr hpc rfl
    exact hfresh (h.fd_opened r hr hpc)
  constructor
  · exact fun q' r hq' hc => h.awaits q' r ((hlive q').mp hq') hc
  · exact fun q₁ q₂ r h₁ h₂ => h.unique q₁ q₂ r ((hlive q₁).mp h₁) ((hlive q₂).mp h₂)
  · exact h.sends
  · exact h.carried
  · obtain ⟨r, hr, hpc, ⟨q', hq', hc⟩, huniq⟩ := h.listener
    exact ⟨r, hr, hpc, ⟨q', (hlive q').mpr hq', hc⟩, huniq⟩
  · exact h.listens
  · exact fun r hr hpc => List.mem_cons_of_mem _ (h.fd_opened r hr hpc)
  · exact h.fd_inj
  · exact h.buf_set
  · exact h.buf_inj
  · intro q' l' slot hq' hop' hst'
    by_cases hqq : q' = q
    · subst hqq
      simp only [EchoServer.Sharded.openConn, EchoServer.Sharded.post,
        Function.update_self, Status.posted.injEq] at hst'
      obtain ⟨rfl, -⟩ := hst'
      exact ⟨fd, by simp [EchoServer.Sharded.openConn, EchoServer.Sharded.post],
        List.mem_cons_self, hnew⟩
    · simp only [EchoServer.Sharded.openConn, EchoServer.Sharded.post,
        Function.update_of_ne hqq] at hst'
      have hslot := (hQ.posted q' slot true hst').1
      obtain ⟨fd', hfd', hmem, hall⟩ := h.accepted_fd q' l' slot ((hlive q').mp hq') hop' hst'
      refine ⟨fd', ?_, List.mem_cons_of_mem _ hmem, hall⟩
      simp only [EchoServer.Sharded.openConn, EchoServer.Sharded.post]
      rw [Function.update_of_ne (Nat.ne_of_lt hslot), hfd']
  · simp only [EchoServer.Sharded.openConn, List.mem_cons, not_or]
    exact ⟨fun heq => hne heq.symm, h.listen_closed⟩

-- ---------------------------------------------------------------------------
-- Handling a completion
-- ---------------------------------------------------------------------------

/-- The completion at the head of the walk, and what it says of the live
requests after it is handled. -/
structure Visited (s u t : State) (c : Cqe) (q₀ : Nat) : Prop where
  live₀ : Live s q₀
  posted₀ : ∃ head, s.status q₀ = .posted head (decide (((s.sqes q₀).op.len : Int) ≤ c.res)) ∧
    s.cqes head = c
  userData₀ : c.userData = (s.sqes q₀).userData
  live_iff : ∀ q, Live t q ↔ (Live s q ∧ q ≠ q₀) ∨ (s.sqTail ≤ q ∧ q < u.sqTail)

theorem exists_visited {u : State} {head i : Nat} (h : Queues s) (hloop : s.loop = .walk head i)
    (hlt : head < s.cqTail) (he : Extends s u) :
    ∃ q₀, Visited s u { u with loop := .walk (head + 1) (i + 1) } (s.cqes head) q₀ := by
  obtain ⟨q₀, f, hst, hlive, hud, hf, hiff⟩ := live_visit h hloop hlt he
  exact ⟨q₀, hlive, ⟨head, by rw [hst, hf], rfl⟩, hud, hiff⟩

/-- The record a completion carries waits for no other request. -/
theorem Visited.not_carries {u : State} {c : Cqe} {q₀ q r : Nat} (hv : Visited s u t c q₀)
    (h : Owned cfg s) (hr : c.userData = some r) (hq : Live s q) (hne : q ≠ q₀) :
    ¬ Carries s q r :=
  fun hc => hne (h.unique q q₀ r hq hv.live₀ hc (by rw [Carries, ← hv.userData₀, hr]))

theorem Visited.awaits {u : State} {c : Cqe} {q₀ r : Nat} (hv : Visited s u t c q₀)
    (h : Owned cfg s) (hr : c.userData = some r) :
    r < s.nRecs ∧ (s.sqes q₀).op = awaited cfg (s.recs r) :=
  h.awaits q₀ r hv.live₀ (by rw [Carries, ← hv.userData₀, hr])

/-- A request that was live before carries neither the record handled nor a new one. -/
theorem Visited.carries_old {u : State} {c : Cqe} {q₀ q r r' : Nat} (hv : Visited s u t c q₀)
    (h : Owned cfg s) (he : Extends s u) (hr : c.userData = some r) (hq : Live s q)
    (hne : q ≠ q₀) (hc : Carries u q r') : Carries s q r' ∧ r' < s.nRecs ∧ r' ≠ r := by
  rw [Carries, he.sqes_eq q hq.1] at hc
  refine ⟨hc, (h.awaits q r' hq hc).1, ?_⟩
  rintro rfl
  exact hv.not_carries h hr hq hne hc

/-- What continuing threadlet `r` queues: each request is the one its record waits for, the
records are `r` and new ones, and no two requests are for one record. -/
structure Continues (cfg : Config) (s u : State) (r : Nat) : Prop where
  ext : Extends s u
  nRecs_le : s.nRecs ≤ u.nRecs
  recs_eq : ∀ r' < s.nRecs, r' ≠ r → u.recs r' = s.recs r'
  awaits : ∀ q r', s.sqTail ≤ q → q < u.sqTail → Carries u q r' →
    (r' = r ∨ s.nRecs ≤ r') ∧ r' < u.nRecs ∧ (u.sqes q).op = awaited cfg (u.recs r')
  unique : ∀ q q' r', s.sqTail ≤ q → q < u.sqTail → s.sqTail ≤ q' → q' < u.sqTail →
    Carries u q r' → Carries u q' r' → q = q'
  sends : ∀ q, s.sqTail ≤ q → q < u.sqTail → ∀ fd src len, (u.sqes q).op = .send fd src len →
    src = .msgSizeConv ∨ (u.sqes q).link = true
  carried : ∀ q, s.sqTail ≤ q → q < u.sqTail →
    (∃ r', Carries u q r') ∨ ∃ fd src len, (u.sqes q).op = .send fd src len

section Continues

variable {u : State} {c : Cqe} {q₀ q q' r r' : Nat} {l : Loop}

theorem Continues.sends_all (k : Continues cfg s u r) (h : Owned cfg s) :
    ∀ q < u.sqTail, ∀ fd src len, (u.sqes q).op = .send fd src len →
      src = .msgSizeConv ∨ (u.sqes q).link = true := by
  intro q hq fd src len hop
  rcases Nat.lt_or_ge q s.sqTail with hlt | hge
  · rw [k.ext.sqes_eq q hlt] at hop ⊢
    exact h.sends q hlt fd src len hop
  · exact k.sends q hge hq fd src len hop

theorem Continues.carried_all (k : Continues cfg s u r) (h : Owned cfg s) :
    ∀ q < u.sqTail, (∃ r', Carries u q r') ∨ ∃ fd src len, (u.sqes q).op = .send fd src len := by
  intro q hq
  rcases Nat.lt_or_ge q s.sqTail with hlt | hge
  · simp only [Carries, k.ext.sqes_eq q hlt]
    exact h.carried q hlt
  · exact k.carried q hge hq

variable (k : Continues cfg s u r) (h : Owned cfg s) (hv : Visited s u { u with loop := l } c q₀)
  (hr : c.userData = some r)
include k h hv hr

theorem Continues.awaits_live (hq : Live { u with loop := l } q) (hc : Carries u q r') :
    r' < u.nRecs ∧ (u.sqes q).op = awaited cfg (u.recs r') := by
  rcases (hv.live_iff q).mp hq with ⟨hl, hne⟩ | ⟨hge, hlt⟩
  · obtain ⟨hc', hlt, hne'⟩ := hv.carries_old h k.ext hr hl hne hc
    obtain ⟨-, hop⟩ := h.awaits q r' hl hc'
    rw [k.ext.sqes_eq q hl.1, k.recs_eq r' hlt hne']
    exact ⟨Nat.lt_of_lt_of_le hlt k.nRecs_le, hop⟩
  · exact (k.awaits q r' hge hlt hc).2

/-- The records of the new requests are not those of the old ones. -/
theorem Continues.not_both (hl : Live s q) (hne : q ≠ q₀) (hc : Carries u q r')
    (hge : s.sqTail ≤ q') (hlt : q' < u.sqTail) : ¬ Carries u q' r' := by
  intro hc'
  obtain ⟨-, hold, hne'⟩ := hv.carries_old h k.ext hr hl hne hc
  rcases (k.awaits q' r' hge hlt hc').1 with heq | hnew
  · exact hne' heq
  · exact absurd hold (Nat.not_lt.mpr hnew)

theorem Continues.unique_live (hq : Live { u with loop := l } q)
    (hq' : Live { u with loop := l } q') (hc : Carries u q r') (hc' : Carries u q' r') :
    q = q' := by
  rcases (hv.live_iff q).mp hq with ⟨hl, hne⟩ | ⟨hge, hlt⟩ <;>
    rcases (hv.live_iff q').mp hq' with ⟨hl', hne'⟩ | ⟨hge', hlt'⟩
  · exact h.unique q q' r' hl hl' (hv.carries_old h k.ext hr hl hne hc).1
      (hv.carries_old h k.ext hr hl' hne' hc').1
  · exact absurd hc' (k.not_both h hv hr hl hne hc hge' hlt')
  · exact absurd hc (k.not_both h hv hr hl' hne' hc' hge hlt)
  · exact k.unique q q' r' hge hlt hge' hlt' hc hc'

omit h in
/-- The request of a record that waits for a connection stays, unless that record is `r`. -/
theorem Continues.carrier_live (hne : r' ≠ r) (hcarrier : ∃ q, Live s q ∧ Carries s q r') :
    ∃ q, Live { u with loop := l } q ∧ Carries u q r' := by
  obtain ⟨q, hq, hc⟩ := hcarrier
  refine ⟨q, (hv.live_iff q).mpr (Or.inl ⟨hq, ?_⟩), by rwa [Carries, k.ext.sqes_eq q hq.1]⟩
  rintro rfl
  rw [Carries, ← hv.userData₀, hr] at hc
  cases hc
  exact hne rfl

end Continues

theorem afterHeader_carries {q r r' : Nat} (hge : s.sqTail ≤ q)
    (hlt : q < (afterHeader cfg s r).sqTail) (hc : Carries (afterHeader cfg s r) q r') :
    q = s.sqTail ∧ r' = r := by
  obtain rfl := afterHeader_queued hge hlt
  rw [Carries, afterHeader_sqes_recv] at hc
  cases hc
  exact ⟨rfl, rfl⟩

theorem continues_afterHeader {r : Nat} (hr : r < s.nRecs) :
    Continues cfg s (afterHeader cfg s r) r where
  ext := extends_afterHeader cfg s r
  nRecs_le := Nat.le_refl _
  recs_eq r' _ hne := afterHeader_recs_of_ne hne
  awaits q r' hge hlt hc := by
    obtain ⟨rfl, rfl⟩ := afterHeader_carries hge hlt hc
    rw [afterHeader_sqes_recv, afterHeader_recs_self]
    exact ⟨Or.inl rfl, hr, rfl⟩
  unique q q' r' hge hlt hge' hlt' _ _ :=
    (afterHeader_queued hge hlt).trans (afterHeader_queued hge' hlt').symm
  sends q hge hlt fd src len hop := by
    obtain rfl := afterHeader_queued hge hlt
    rw [afterHeader_sqes_recv] at hop
    cases hop
  carried q hge hlt := by
    obtain rfl := afterHeader_queued hge hlt
    exact Or.inl ⟨r, by rw [Carries, afterHeader_sqes_recv]⟩

/-- Of the linked pair only the `recv` carries a record. -/
theorem afterMsg_carries {q r r' : Nat} (hge : s.sqTail ≤ q) (hlt : q < (afterMsg cfg s r).sqTail)
    (hc : Carries (afterMsg cfg s r) q r') : q = s.sqTail + 1 ∧ r' = r := by
  rcases afterMsg_queued hge hlt with rfl | rfl
  · rw [Carries, afterMsg_sqes_send] at hc
    cases hc
  · rw [Carries, afterMsg_sqes_recv] at hc
    cases hc
    exact ⟨rfl, rfl⟩

theorem continues_afterMsg {r : Nat} (hr : r < s.nRecs) (hpc : (s.recs r).pc = .receivedMsg) :
    Continues cfg s (afterMsg cfg s r) r where
  ext := extends_afterMsg cfg s r
  nRecs_le := Nat.le_refl _
  recs_eq _ _ _ := rfl
  awaits q r' hge hlt hc := by
    obtain ⟨rfl, rfl⟩ := afterMsg_carries hge hlt hc
    refine ⟨Or.inl rfl, hr, ?_⟩
    show _ = awaited cfg (s.recs r')
    rw [afterMsg_sqes_recv, awaited, hpc]
  unique q q' r' hge hlt hge' hlt' hc hc' :=
    (afterMsg_carries hge hlt hc).1.trans (afterMsg_carries hge' hlt' hc').1.symm
  sends q hge hlt fd src len hop := by
    rcases afterMsg_queued hge hlt with rfl | rfl
    · exact Or.inr (by rw [afterMsg_sqes_send])
    · rw [afterMsg_sqes_recv] at hop
      cases hop
  carried q hge hlt := by
    rcases afterMsg_queued hge hlt with rfl | rfl
    · exact Or.inr ⟨_, _, _, by rw [afterMsg_sqes_send]⟩
    · exact Or.inl ⟨r, by rw [Carries, afterMsg_sqes_recv]⟩

/-- The next accept carries the new record, the header's `recv` the one continued. -/
theorem afterAccepted_carries {q r r' fd : Nat} (hge : s.sqTail ≤ q)
    (hlt : q < (afterAccepted cfg s r fd).sqTail) (hc : Carries (afterAccepted cfg s r fd) q r') :
    (q = s.sqTail + 1 ∧ r' = s.nRecs) ∨ (q = s.sqTail + 2 ∧ r' = r) := by
  rcases afterAccepted_queued hge hlt with rfl | rfl | rfl
  · rw [Carries, afterAccepted_sqes_send] at hc
    cases hc
  · rw [Carries, afterAccepted_sqes_accept] at hc
    cases hc
    exact Or.inl ⟨rfl, rfl⟩
  · rw [Carries, afterAccepted_sqes_recv] at hc
    cases hc
    exact Or.inr ⟨rfl, rfl⟩

theorem continues_afterAccepted {r : Nat} (hr : r < s.nRecs) (fd : Nat) :
    Continues cfg s (afterAccepted cfg s r fd) r where
  ext := extends_afterAccepted cfg s r fd
  nRecs_le := Nat.le_succ _
  recs_eq r' hlt hne := afterAccepted_recs_of_ne hlt hne
  awaits q r' hge hlt hc := by
    rcases afterAccepted_carries hge hlt hc with ⟨rfl, rfl⟩ | ⟨rfl, rfl⟩
    · rw [afterAccepted_sqes_accept, afterAccepted_recs_new hr]
      exact ⟨Or.inr (Nat.le_refl _), Nat.lt_succ_self _, rfl⟩
    · rw [afterAccepted_sqes_recv, afterAccepted_recs_self hr]
      exact ⟨Or.inl rfl, Nat.lt_succ_of_lt hr, rfl⟩
  unique q q' r' hge hlt hge' hlt' hc hc' := by
    rcases afterAccepted_carries hge hlt hc with ⟨rfl, rfl⟩ | ⟨rfl, rfl⟩ <;>
      rcases afterAccepted_carries hge' hlt' hc' with ⟨rfl, h'⟩ | ⟨rfl, h'⟩
    · rfl
    · exact absurd h' (Nat.ne_of_gt hr)
    · exact absurd h' (Nat.ne_of_lt hr)
    · rfl
  sends q hge hlt fd' src len hop := by
    rcases afterAccepted_queued hge hlt with rfl | rfl | rfl
    · rw [afterAccepted_sqes_send] at hop
      cases hop
      exact Or.inl rfl
    · rw [afterAccepted_sqes_accept] at hop
      cases hop
    · rw [afterAccepted_sqes_recv] at hop
      cases hop
  carried q hge hlt := by
    rcases afterAccepted_queued hge hlt with rfl | rfl | rfl
    · exact Or.inr ⟨_, _, _, by rw [afterAccepted_sqes_send]⟩
    · exact Or.inl ⟨s.nRecs, by rw [Carries, afterAccepted_sqes_accept]⟩
    · exact Or.inl ⟨r, by rw [Carries, afterAccepted_sqes_recv]⟩

/-- Once a connection is accepted, the records are those past their accept, the one
continued and the new one. -/
theorem afterAccepted_recs_cases {r r' fd : Nat} (hr : r < s.nRecs)
    (hr' : r' < (afterAccepted cfg s r fd).nRecs) :
    (r' < s.nRecs ∧ r' ≠ r ∧ (afterAccepted cfg s r fd).recs r' = s.recs r') ∨
      (r' = r ∧ (afterAccepted cfg s r fd).recs r' = ⟨.receivedHeader, fd, (s.recs r).buf⟩) ∨
      (r' = s.nRecs ∧ (afterAccepted cfg s r fd).recs r' = ⟨.accepted, cfg.listenFd, .wild⟩) := by
  rcases Nat.lt_succ_iff_lt_or_eq.mp hr' with hlt | rfl
  · by_cases hne : r' = r
    · subst hne
      exact Or.inr (Or.inl ⟨rfl, afterAccepted_recs_self hr⟩)
    · exact Or.inl ⟨hlt, hne, afterAccepted_recs_of_ne hlt hne⟩
  · exact Or.inr (Or.inr ⟨rfl, afterAccepted_recs_new hr⟩)

section Visit

variable {c : Cqe} {q₀ r head i : Nat}

theorem Owned.visit_skip (h : Owned cfg s)
    (hv : Visited s s { s with loop := .walk (head + 1) (i + 1) } c q₀) (hskip : Skips cfg s c) :
    Owned cfg { s with loop := .walk (head + 1) (i + 1) } := by
  have hold : ∀ {q}, Live { s with loop := .walk (head + 1) (i + 1) } q → Live s q := by
    intro q hq
    rcases (hv.live_iff q).mp hq with ⟨hq, -⟩ | ⟨h₁, h₂⟩
    · exact hq
    · exact absurd h₂ (Nat.not_lt.mpr h₁)
  constructor
  · exact fun q r' hq hc => h.awaits q r' (hold hq) hc
  · exact fun q q' r' hq hq' => h.unique q q' r' (hold hq) (hold hq')
  · exact h.sends
  · exact h.carried
  · -- the accept's own completion is never skipped
    obtain ⟨ra, hra, hpc, ⟨q, hq, hc⟩, huniq⟩ := h.listener
    refine ⟨ra, hra, hpc, ⟨q, (hv.live_iff q).mpr (Or.inl ⟨hq, ?_⟩), hc⟩, huniq⟩
    rintro rfl
    have hud : c.userData = some ra := by rw [hv.userData₀]; exact hc
    rcases hskip with hnone | ⟨r', hr', hcase⟩
    · rw [hnone] at hud
      cases hud
    · rw [hr'] at hud
      cases hud
      rw [hpc] at hcase
      simp at hcase
  · exact h.listens
  · exact h.fd_opened
  · exact h.fd_inj
  · exact h.buf_set
  · exact h.buf_inj
  · exact fun q l slot hq => h.accepted_fd q l slot (hold hq)
  · exact h.listen_closed

theorem Owned.visit_header (h : Owned cfg s)
    (hv : Visited s (afterHeader cfg s r)
      { afterHeader cfg s r with loop := .walk (head + 1) (i + 1) } c q₀)
    (hr : c.userData = some r) (hpc : (s.recs r).pc = .receivedHeader) :
    Owned cfg { afterHeader cfg s r with loop := .walk (head + 1) (i + 1) } := by
  have hk : Continues cfg s (afterHeader cfg s r) r := continues_afterHeader (hv.awaits h hr).1
  set u := afterHeader cfg s r with hu
  have hrecr : u.recs r = ⟨.receivedMsg, (s.recs r).fd, .heap s.nBufs⟩ := afterHeader_recs_self
  have hrec : ∀ {r'}, r' ≠ r → u.recs r' = s.recs r' := afterHeader_recs_of_ne
  have hacc : ∀ r', (u.recs r').pc = .accepted ↔ (s.recs r').pc = .accepted := by
    intro r'
    by_cases hne : r' = r
    · subst hne
      rw [hrecr, hpc]
      simp
    · rw [hrec hne]
  have hfd : ∀ r', (u.recs r').fd = (s.recs r').fd := by
    intro r'
    by_cases hne : r' = r
    · subst hne
      rw [hrecr]
    · rw [hrec hne]
  constructor
  · exact fun q r' hq hc => hk.awaits_live h hv hr hq hc
  · exact fun q q' r' hq hq' hc hc' => hk.unique_live h hv hr hq hq' hc hc'
  · exact hk.sends_all h
  · exact hk.carried_all h
  · obtain ⟨ra, hra, hpca, hcarrier, huniq⟩ := h.listener
    have hne : ra ≠ r := by
      rintro rfl
      rw [hpca] at hpc
      cases hpc
    exact ⟨ra, hra, (hacc ra).mpr hpca, hk.carrier_live hv hr hne hcarrier,
      fun r' hr' hpc' => huniq r' hr' ((hacc r').mp hpc')⟩
  · intro r' hr' hpc'
    rw [hfd]
    exact h.listens r' hr' ((hacc r').mp hpc')
  · intro r' hr' hpc'
    rw [hfd]
    exact h.fd_opened r' hr' (fun heq => hpc' ((hacc r').mpr heq))
  · intro r₁ hr₁ r₂ hr₂ h₁ h₂ heq
    rw [hfd, hfd] at heq
    exact h.fd_inj r₁ hr₁ r₂ hr₂ (fun hx => h₁ ((hacc r₁).mpr hx))
      (fun hx => h₂ ((hacc r₂).mpr hx)) heq
  · intro r' hr' hpc'
    by_cases hne : r' = r
    · subst hne
      exact ⟨s.nBufs, Nat.lt_succ_self _, by rw [hrecr]⟩
    · rw [hrec hne] at hpc' ⊢
      obtain ⟨b, hb, hbuf⟩ := h.buf_set r' hr' hpc'
      exact ⟨b, Nat.lt_succ_of_lt hb, hbuf⟩
  · -- the fresh buffer is no other record's
    have hfresh : ∀ r' < s.nRecs, r' ≠ r → (u.recs r').pc = .receivedMsg →
        (u.recs r').buf ≠ .heap s.nBufs := by
      intro r' hr' hne hpc' heq
      rw [hrec hne] at hpc' heq
      obtain ⟨b, hb, hbuf⟩ := h.buf_set r' hr' hpc'
      rw [hbuf] at heq
      cases heq
      exact absurd hb (Nat.lt_irrefl _)
    intro r₁ hr₁ r₂ hr₂ h₁ h₂ heq
    by_cases hn₁ : r₁ = r <;> by_cases hn₂ : r₂ = r
    · rw [hn₁, hn₂]
    · subst hn₁
      rw [hrecr] at heq
      exact absurd heq.symm (hfresh r₂ hr₂ hn₂ h₂)
    · subst hn₂
      rw [hrecr] at heq
      exact absurd heq (hfresh r₁ hr₁ hn₁ h₁)
    · rw [hrec hn₁] at h₁ heq
      rw [hrec hn₂] at h₂ heq
      exact h.buf_inj r₁ hr₁ r₂ hr₂ h₁ h₂ heq
  · -- the request queued is no accept
    intro q l slot hq hop hst
    rcases (hv.live_iff q).mp hq with ⟨hl, -⟩ | ⟨hge, hlt⟩
    · simp only [hk.ext.sqes_eq q hl.1] at hop
      obtain ⟨fd, hres, hmem, hall⟩ := h.accepted_fd q l slot hl hop hst
      refine ⟨fd, hres, hmem, fun r' hr' hpc' => ?_⟩
      rw [hfd]
      exact hall r' hr' (fun hx => hpc' ((hacc r').mpr hx))
    · obtain rfl := afterHeader_queued hge hlt
      rw [afterHeader_sqes_recv] at hop
      cases hop
  · exact h.listen_closed

theorem Owned.visit_msg (h : Owned cfg s)
    (hv : Visited s (afterMsg cfg s r)
      { afterMsg cfg s r with loop := .walk (head + 1) (i + 1) } c q₀)
    (hr : c.userData = some r) (hpc : (s.recs r).pc = .receivedMsg) :
    Owned cfg { afterMsg cfg s r with loop := .walk (head + 1) (i + 1) } := by
  have hk : Continues cfg s (afterMsg cfg s r) r := continues_afterMsg (hv.awaits h hr).1 hpc
  constructor
  · exact fun q r' hq hc => hk.awaits_live h hv hr hq hc
  · exact fun q q' r' hq hq' hc hc' => hk.unique_live h hv hr hq hq' hc hc'
  · exact hk.sends_all h
  · exact hk.carried_all h
  · obtain ⟨ra, hra, hpca, hcarrier, huniq⟩ := h.listener
    have hne : ra ≠ r := by
      rintro rfl
      rw [hpca] at hpc
      cases hpc
    exact ⟨ra, hra, hpca, hk.carrier_live hv hr hne hcarrier, huniq⟩
  · exact h.listens
  · exact h.fd_opened
  · exact h.fd_inj
  · exact h.buf_set
  · exact h.buf_inj
  · -- neither of the requests queued is an accept
    intro q l slot hq hop hst
    rcases (hv.live_iff q).mp hq with ⟨hl, -⟩ | ⟨hge, hlt⟩
    · simp only [hk.ext.sqes_eq q hl.1] at hop
      exact h.accepted_fd q l slot hl hop hst
    · rcases afterMsg_queued hge hlt with rfl | rfl
      · rw [afterMsg_sqes_send] at hop
        cases hop
      · rw [afterMsg_sqes_recv] at hop
        cases hop
  · exact h.listen_closed

/-- The descriptor an accept completion brings is one no record holds. -/
theorem Visited.accepted_fd {u : State} (hv : Visited s u t c q₀) (h : Owned cfg s)
    (hr : c.userData = some r) (hpc : (s.recs r).pc = .accepted) (hres : 0 ≤ c.res) :
    c.res.toNat ∈ s.opened ∧
      ∀ r' < s.nRecs, (s.recs r').pc ≠ .accepted → (s.recs r').fd ≠ c.res.toNat := by
  obtain ⟨-, hop⟩ := hv.awaits h hr
  obtain ⟨slot, hst, hcqe⟩ := hv.posted₀
  rw [awaited, hpc] at hop
  rw [hop, Op.len, decide_eq_true (by omega)] at hst
  obtain ⟨fd, hfd, hmem, hall⟩ := h.accepted_fd q₀ _ slot hv.live₀ hop hst
  rw [hcqe] at hfd
  rw [hfd, Int.toNat_natCast]
  exact ⟨hmem, hall⟩

/-- A live accept is the request of the one record that waits for a connection. -/
theorem Owned.carries_of_accept {q l : Nat} (h : Owned cfg s) (hrlt : r < s.nRecs)
    (hpc : (s.recs r).pc = .accepted) (hq : Live s q) (hop : (s.sqes q).op = .accept l) :
    Carries s q r := by
  obtain ⟨ra, -, -, -, huniq⟩ := h.listener
  rcases h.carried q hq.1 with ⟨r', hc⟩ | ⟨_, _, _, hsend⟩
  · obtain ⟨hlt, haw⟩ := h.awaits q r' hq hc
    have hpc' : (s.recs r').pc = .accepted := by
      rw [hop, awaited] at haw
      cases hx : (s.recs r').pc <;> simp [hx] at haw ⊢
    rwa [huniq r hrlt hpc, ← huniq r' hlt hpc']
  · rw [hop] at hsend
    cases hsend

theorem Owned.visit_accepted {fd : Nat} (h : Owned cfg s) (hQ : Queues s)
    (hv : Visited s (afterAccepted cfg s r fd)
      { afterAccepted cfg s r fd with loop := .walk (head + 1) (i + 1) } c q₀)
    (hr : c.userData = some r) (hpc : (s.recs r).pc = .accepted) (hmem : fd ∈ s.opened)
    (hfree : ∀ r' < s.nRecs, (s.recs r').pc ≠ .accepted → (s.recs r').fd ≠ fd) :
    Owned cfg { afterAccepted cfg s r fd with loop := .walk (head + 1) (i + 1) } := by
  obtain ⟨hrlt, -⟩ := hv.awaits h hr
  obtain ⟨ra, -, -, -, huniq⟩ := h.listener
  have hk : Continues cfg s (afterAccepted cfg s r fd) r := continues_afterAccepted hrlt fd
  set u := afterAccepted cfg s r fd with hu
  have hrecs : ∀ {r'}, r' < u.nRecs → (r' < s.nRecs ∧ r' ≠ r ∧ u.recs r' = s.recs r') ∨
      (r' = r ∧ u.recs r' = ⟨.receivedHeader, fd, (s.recs r).buf⟩) ∨
      (r' = s.nRecs ∧ u.recs r' = ⟨.accepted, cfg.listenFd, .wild⟩) :=
    afterAccepted_recs_cases hrlt
  constructor
  · exact fun q r' hq hc => hk.awaits_live h hv hr hq hc
  · exact fun q q' r' hq hq' hc hc' => hk.unique_live h hv hr hq hq' hc hc'
  · exact hk.sends_all h
  · exact hk.carried_all h
  · -- the new record waits, with the accept just queued
    refine ⟨s.nRecs, Nat.lt_succ_self _, ?_, ⟨s.sqTail + 1, ?_, ?_⟩, ?_⟩
    · show (u.recs s.nRecs).pc = _
      rw [hu, afterAccepted_recs_new hrlt]
    · exact (hv.live_iff _).mpr (Or.inr ⟨Nat.le_succ _, Nat.lt_succ_of_lt (Nat.lt_succ_self _)⟩)
    · exact congrArg Sqe.userData afterAccepted_sqes_accept
    · intro r' hr' hpc'
      rcases hrecs hr' with ⟨hlt, hne, heq⟩ | ⟨-, heq⟩ | ⟨rfl, -⟩
      · -- every other old record is past its accept
        rw [heq] at hpc'
        exact absurd ((huniq r' hlt hpc').trans (huniq r hrlt hpc).symm) hne
      · rw [heq] at hpc'
        cases hpc'
      · rfl
  · intro r' hr' hpc'
    rcases hrecs hr' with ⟨hlt, -, heq⟩ | ⟨-, heq⟩ | ⟨-, heq⟩
    · rw [heq] at hpc' ⊢
      exact h.listens r' hlt hpc'
    · rw [heq] at hpc'
      cases hpc'
    · rw [heq]
  · intro r' hr' hpc'
    rcases hrecs hr' with ⟨hlt, -, heq⟩ | ⟨-, heq⟩ | ⟨-, heq⟩
    · rw [heq] at hpc' ⊢
      exact h.fd_opened r' hlt hpc'
    · rw [heq]
      exact hmem
    · rw [heq] at hpc'
      exact absurd rfl hpc'
  · -- the new descriptor is free, so that it is no other record's
    intro r₁ hr₁ r₂ hr₂ h₁ h₂ heq
    rcases hrecs hr₁ with ⟨hlt₁, -, he₁⟩ | ⟨rfl, he₁⟩ | ⟨-, he₁⟩
    · rw [he₁] at h₁ heq
      rcases hrecs hr₂ with ⟨hlt₂, -, he₂⟩ | ⟨rfl, he₂⟩ | ⟨-, he₂⟩
      · rw [he₂] at h₂ heq
        exact h.fd_inj r₁ hlt₁ r₂ hlt₂ h₁ h₂ heq
      · rw [he₂] at heq
        exact absurd heq (hfree r₁ hlt₁ h₁)
      · exact absurd (congrArg Threadlet.pc he₂) h₂
    · rw [he₁] at heq
      rcases hrecs hr₂ with ⟨hlt₂, -, he₂⟩ | ⟨rfl, -⟩ | ⟨-, he₂⟩
      · rw [he₂] at h₂ heq
        exact absurd heq.symm (hfree r₂ hlt₂ h₂)
      · rfl
      · exact absurd (congrArg Threadlet.pc he₂) h₂
    · exact absurd (congrArg Threadlet.pc he₁) h₁
  · intro r' hr' hpc'
    rcases hrecs hr' with ⟨hlt, -, heq⟩ | ⟨-, heq⟩ | ⟨-, heq⟩ <;> rw [heq] at hpc'
    · rw [heq]
      exact h.buf_set r' hlt hpc'
    · cases hpc'
    · cases hpc'
  · intro r₁ hr₁ r₂ hr₂ h₁ h₂ heq
    have hpast : ∀ {r'}, r' < u.nRecs → (u.recs r').pc = .receivedMsg →
        r' < s.nRecs ∧ u.recs r' = s.recs r' := by
      intro r' hr' hpc'
      rcases hrecs hr' with ⟨hlt, -, heq⟩ | ⟨-, heq⟩ | ⟨-, heq⟩
      · exact ⟨hlt, heq⟩
      · rw [heq] at hpc'
        cases hpc'
      · rw [heq] at hpc'
        cases hpc'
    obtain ⟨hlt₁, he₁⟩ := hpast hr₁ h₁
    obtain ⟨hlt₂, he₂⟩ := hpast hr₂ h₂
    rw [he₁] at h₁ heq
    rw [he₂] at h₂ heq
    exact h.buf_inj r₁ hlt₁ r₂ hlt₂ h₁ h₂ heq
  · -- no other accept is live: the only accepting record was the one handled
    intro q l slot hq hop hst
    rcases (hv.live_iff q).mp hq with ⟨hl, hne⟩ | ⟨hge, -⟩
    · simp only [hk.ext.sqes_eq q hl.1] at hop
      exact absurd (h.carries_of_accept hrlt hpc hl hop) (hv.not_carries h hr hl hne)
    · have hidle : u.status q = .idle := hQ.queued_idle q (Nat.le_trans hQ.sq_le hge)
      rw [hidle] at hst
      cases hst
  · exact h.listen_closed

end Visit

-- ---------------------------------------------------------------------------
-- The step and run lemmas
-- ---------------------------------------------------------------------------

theorem owned_step {l : Label} (hQ : Queues s) (h : Owned cfg s) (hstep : Step cfg s l t) :
    Owned cfg t := by
  cases hstep with
  | submit hloop =>
    have hseen : seen (submitAll s) = seen s := by simp [seen, submitAll, hloop]
    exact h.congr rfl rfl rfl rfl rfl rfl (fun q => by unfold Live; rw [hseen]; rfl)
      fun q l slot _ hst => ⟨hst, rfl⟩
  | waitCqe hloop hlt =>
    have hseen : seen s = s.cqHead := by simp [seen, hloop]
    exact h.congr rfl rfl rfl rfl rfl rfl (fun q => by unfold Live; rw [hseen]; rfl)
      fun q l slot _ hst => ⟨hst, rfl⟩
  | waitError =>
    exact h.congr rfl rfl rfl rfl rfl rfl (fun q => Iff.rfl) fun q l slot _ hst => ⟨hst, rfl⟩
  | @visit u head i hloop hlt hh =>
    obtain ⟨q₀, hv⟩ := exists_visited hQ hloop hlt hh.extends
    cases hh with
    | skip hskip => exact h.visit_skip hv hskip
    | accepted r hr hpc hres hroom =>
      obtain ⟨hmem, hfree⟩ := hv.accepted_fd h hr hpc hres
      exact h.visit_accepted hQ hv hr hpc hmem hfree
    | header r hr hpc hres hroom => exact h.visit_header hv hr hpc
    | msg r hr hpc hres hroom => exact h.visit_msg hv hr hpc
  | visitExit =>
    exact h.congr rfl rfl rfl rfl rfl rfl (fun q => Iff.rfl) fun q l slot _ hst => ⟨hst, rfl⟩
  | advance head i hloop heq =>
    have hw := hQ.walk_eq head i hloop
    have hseen : seen s = s.cqHead + i := by rw [seen_walk hloop, hw]
    exact h.congr rfl rfl rfl rfl rfl rfl (fun q => by unfold Live; rw [hseen]; rfl)
      fun q l slot _ hst => ⟨hst, rfl⟩
  | start q hlt hidle hready =>
    refine h.congr rfl rfl rfl rfl rfl rfl
      (fun q' => live_setStatus (not_isPosted_idle hidle) (by simp) rfl rfl rfl) ?_
    exact fun q' l slot _ hst => ⟨posted_of_setStatus (by simp) hst, rfl⟩
  | recvSome q k p fd dst len hst hop hlen htaken =>
    refine h.congr rfl rfl rfl rfl rfl rfl
      (fun q' => live_setStatus (not_isPosted_running hst) (by simp) rfl rfl rfl) ?_
    exact fun q' l slot _ hst' => ⟨posted_of_setStatus (by simp) hst', rfl⟩
  | sendSome q k p fd src len hst hop hlen =>
    refine h.congr rfl rfl rfl rfl rfl rfl
      (fun q' => live_setStatus (not_isPosted_running hst) (by simp) rfl rfl rfl) ?_
    exact fun q' l slot _ hst' => ⟨posted_of_setStatus (by simp) hst', rfl⟩
  | finish q p hst hlen hop =>
    exact h.post hQ (not_isPosted_running hst) fun l hacc => absurd hacc (hop l)
  | fail q p res hst hlt =>
    refine h.post hQ (not_isPosted_running hst) fun l hacc => ?_
    rw [hacc] at hlt
    exact hlt
  | cancel q hlt hidle hbroken =>
    exact h.post hQ (not_isPosted_idle hidle) fun _ _ => by decide
  | connect q p fd lfd hst hop hne hfresh => exact h.openConn hQ hst hop hne hfresh

theorem owned_initial (cfg : Config) (junk : Junk) : Owned cfg (initial cfg junk) := by
  have hlive : ∀ q, Live (initial cfg junk) q ↔ q = 0 := by simp [Live, initial]
  constructor
  · intro q r _ hc
    cases hc
    exact ⟨Nat.one_pos, rfl⟩
  · intro q q' r hq hq' _ _
    rw [(hlive q).mp hq, (hlive q').mp hq']
  · intro q _ fd src len hop
    cases hop
  · exact fun q _ => Or.inl ⟨0, rfl⟩
  · exact ⟨0, Nat.one_pos, rfl, ⟨0, (hlive 0).mpr rfl, rfl⟩, fun r hr _ => Nat.lt_one_iff.mp hr⟩
  · exact fun r _ _ => rfl
  · exact fun r _ hpc => absurd rfl hpc
  · exact fun r _ r' _ hpc => absurd rfl hpc
  · intro r _ hpc
    cases hpc
  · intro r _ r' _ hpc
    cases hpc
  · intro q l slot _ _ hst
    cases hst
  · exact List.not_mem_nil

/-- The layered invariant: the queues, and on top of them who owns what. -/
theorem owned_preserved (cfg : Config) :
    (machine cfg).Preserves fun s => Queues s ∧ Owned cfg s :=
  (queues_preserved cfg).and fun _ _ _ hQ _ h hstep => owned_step hQ h (step_cases hstep).2

end EchoServer.Sharded
