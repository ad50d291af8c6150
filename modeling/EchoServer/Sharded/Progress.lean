import EchoServer.Lib.Justice
import EchoServer.Sharded.Records
import EchoServer.Sharded.Echo
import Mathlib.Data.Finset.Card
import Mathlib.Data.Finset.Range
import Mathlib.Data.Prod.Lex

/-!
# io_uring_sharded — every message is echoed

What the clients of the other connections do, and how the kernel orders their requests,
cannot keep a connection waiting. The loop submits and walks the completions for all
connections together, so the argument follows the one request that a connection waits for:
it is queued until the loop comes round to `io_uring_submit`, then in the hands of the
kernel, then posted until the walk comes to it, and what the loop body does with it is to
queue the next one.

What is assumed of a run:

* the process is not left out for ever (`Just`);
* the kernel starts the requests that are submitted to it, and finishes those with all their
  bytes moved (`JustUnless`, `Transfers`);
* on the connection in question, and on no other, the client does its part: the bytes of its
  stream arrive, and it reads what it is sent (`Answers`, `Transfers`). A client that sends
  and does not read fills the socket, and its `send` stays where it is. The clients of the
  other connections may stay silent, or not read, for ever;
* on the connection in question no request fails, unless its stream is too short for it
  (`Sound`).

Main results:

* `Task` — the request a connection waits for, and how many are to follow;
* `place` — where the request is, and whose step it needs;
* `Stage.onward` — no step of anyone takes a connection back;
* `Stage.transfers` — what a connection waits for moves the bytes of no other;
* `mainLoop_serves` — in every such run the connection is echoed every complete block.
-/

namespace EchoServer.Sharded

open EchoServer.Lib

variable {cfg : Config} {s t : State} {fd J : Nat}

-- ---------------------------------------------------------------------------
-- The parties
-- ---------------------------------------------------------------------------

/-- The process, and the kernel at work on one request. -/
inductive Party
  | program
  | request (q : Nat)

/-- The steps of a party; to move no byte is not one. -/
def Party.Acts : Party → Label → Prop
  | .program, l => l = .submit ∨ l = .waitCqe ∨ l = .visit ∨ l = .advance
  | .request q, l => l = .start q ∨ l = .finish q ∨
      ∃ k, l = .recvSome q (k + 1) ∨ l = .sendSome q (k + 1)

/-- A request that is about to fail: on the connection `fd` no `send` does, and a `recv` only
when the rest of the stream is too short for it. -/
def Excused (cfg : Config) (fd : Nat) (s : State) : Status → Op → Prop
  | .running _, .send fd' _ _ => fd' ≠ fd
  | .running p, .recv fd' _ len => fd' ≠ fd ∨ (cfg.streams fd).length < (s.conns fd).taken + (len - p)
  | _, _ => True

/-- The connection `fd` itself does not fail. -/
def Sound (cfg : Config) (fd : Nat) (s : State) : Label → Prop
  | .fail q _ => Excused cfg fd s (s.status q) (s.sqes q).op
  | _ => True

instance (cfg : Config) (fd : Nat) (s : State) : ∀ st op, Decidable (Excused cfg fd s st op)
  | .running _, .send .. => inferInstanceAs (Decidable (_ ≠ _))
  | .running _, .recv .. => inferInstanceAs (Decidable (_ ∨ _))
  | .running _, .accept _ | .idle, _ | .posted .., _ => inferInstanceAs (Decidable True)

instance (cfg : Config) (fd : Nat) (s : State) : ∀ l, Decidable (Sound cfg fd s l)
  | .fail q _ => inferInstanceAs (Decidable (Excused cfg fd s (s.status q) (s.sqes q).op))
  | .submit | .waitCqe | .waitError | .visit | .advance | .start _ | .recvSome .. | .sendSome ..
  | .finish _ | .cancel _ | .connect .. => inferInstanceAs (Decidable True)

/-- The request `q` has bytes of the connection `fd` to move: for a `recv`, what the client
sends has to arrive, and for a `send`, the client has to read. -/
def Transfers (s : State) (q fd : Nat) : Prop :=
  match s.status q, (s.sqes q).op with
  | .running p, .recv fd' _ len | .running p, .send fd' _ len => fd' = fd ∧ p < len
  | _, _ => False

-- ---------------------------------------------------------------------------
-- Where a request is
-- ---------------------------------------------------------------------------

/-- How far the loop is from its next `io_uring_submit`, with entries queued. -/
def toSubmit (s : State) : Nat :=
  match s.loop with
  | .walk head _ => s.sqHead - head + 1
  | _ => 0

/-- How far the loop is from handling the completion in `slot`. -/
def toSlot (s : State) (slot : Nat) : Nat :=
  match s.loop with
  | .submit => slot - s.cqHead + 2
  | .wait => slot - s.cqHead + 1
  | .walk head _ => slot - head

structure Place where
  stage : Nat
  left : Nat
  party : Party

/-- Queued, in the hands of the kernel, or posted. -/
def place (s : State) (w : Nat) : Place :=
  match s.status w with
  | .posted slot _ => ⟨0, toSlot s slot, .program⟩
  | .running p => ⟨1, (s.sqes w).op.len - p, .request w⟩
  | .idle =>
    if w < s.sqHead then ⟨1, (s.sqes w).op.len + 1, .request w⟩ else ⟨2, toSubmit s, .program⟩

section Place
variable {w : Nat}

theorem place_posted {slot : Nat} {full : Bool} (h : s.status w = .posted slot full) :
    place s w = ⟨0, toSlot s slot, .program⟩ := by
  rw [place, h]

theorem place_running {p : Nat} (h : s.status w = .running p) :
    place s w = ⟨1, (s.sqes w).op.len - p, .request w⟩ := by
  rw [place, h]

theorem place_submitted (h : s.status w = .idle) (hw : w < s.sqHead) :
    place s w = ⟨1, (s.sqes w).op.len + 1, .request w⟩ := by
  rw [place, h]
  exact if_pos hw

theorem place_queued (h : s.status w = .idle) (hw : s.sqHead ≤ w) :
    place s w = ⟨2, toSubmit s, .program⟩ := by
  rw [place, h]
  exact if_neg (Nat.not_lt.mpr hw)

/-- What a request needs is the loop's step, or the kernel's at this request. -/
theorem place_party (s : State) (w : Nat) :
    (place s w).party = .program ∨ (place s w).party = .request w := by
  unfold place
  split
  · exact Or.inl rfl
  · exact Or.inr rfl
  · split
    · exact Or.inr rfl
    · exact Or.inl rfl

end Place

/-- Every completion is that of a submitted request. -/
theorem Queues.cqTail_le (h : Queues s) : s.cqTail ≤ s.sqHead := by
  choose! q f hq using h.slot_surj
  have hmaps : ∀ slot ∈ Finset.range s.cqTail, q slot ∈ Finset.range s.sqHead := by
    intro slot hslot
    exact Finset.mem_range.mpr (h.submitted (by rw [hq slot (Finset.mem_range.mp hslot)]; simp))
  have hinj : Set.InjOn q (Finset.range s.cqTail) := by
    intro slot hslot slot' hslot' heq
    have h₁ := hq slot (Finset.mem_range.mp hslot)
    rw [heq, hq slot' (Finset.mem_range.mp hslot')] at h₁
    exact (Status.posted.inj h₁).1.symm
  simpa using Finset.card_le_card_of_injOn q hmaps hinj

-- ---------------------------------------------------------------------------
-- What a connection waits for
-- ---------------------------------------------------------------------------

/-- A request that may start: the reply in front of it, if any, is sent. -/
def Front (s : State) (w : Nat) : Prop :=
  ∀ q, q + 1 = w → (s.sqes q).link = true → ∃ slot, s.status q = .posted slot true

/-- The connection `fd` waits for the request `q`, and this one for the kernel's work on `w`;
`c` counts the requests of the connection up to the reply to block `J`. -/
inductive Task (cfg : Config) (fd J : Nat) (s : State) : (q w c : Nat) → Prop
  | accepted (q l slot : Nat) : (s.sqes q).op = .accept l → s.status q = .posted slot true →
      (s.cqes slot).res = fd → Task cfg fd J s q q (2 * J + 3)
  | header (q r : Nat) : Carries s q r → (s.recs r).pc = .receivedHeader → (s.recs r).fd = fd →
      (∀ slot, s.status q ≠ .posted slot false) → Task cfg fd J s q q (2 * J + 2)
  | receiving (q r k : Nat) : Carries s q r → (s.recs r).pc = .receivedMsg → (s.recs r).fd = fd →
      (∀ slot, s.status q ≠ .posted slot false) → Front s q →
      (flow s fd).handed.length = k → k < J → Task cfg fd J s q q (2 * (J - k) + 1)
  | sending (f r k : Nat) : (s.sqes f).link = true → Carries s (f + 1) r →
      (s.recs r).pc = .receivedMsg → (s.recs r).fd = fd → ¬ IsPosted s f →
      (flow s fd).handed.length = k + 1 → k < J → Task cfg fd J s (f + 1) f (2 * (J - k))

/-- With the invariant, nothing is queued while the loop waits for a completion. -/
structure Base (cfg : Config) (s : State) : Prop where
  inv : Inv cfg s
  wait : s.loop = .wait → s.sqHead = s.sqTail

/-- How far a connection is that waits for the kernel's work on `w`, with `c` as in `Task`. -/
def distance (s : State) (w c : Nat) : ℕ ×ₗ ℕ := toLex (3 * c + (place s w).stage, (place s w).left)

/-- How far the connection is from the reply to block `J`, and who has to take a step. -/
def Stage (cfg : Config) (fd J : Nat) (x : ℕ ×ₗ ℕ) (s : State) (a : Party) : Prop :=
  Base cfg s ∧ ∃ q w c, Live s q ∧ Task cfg fd J s q w c ∧ x = distance s w c ∧
    a = (place s w).party

/-- The process has ended, or the first `J` blocks are back. -/
def Done (cfg : Config) (fd J : Nat) (s : State) : Prop :=
  s.exit ≠ none ∨ J * cfg.msgSize.val ≤ (flow s fd).echoed.length

section Task
variable {q w c : Nat}

theorem Task.le (h : Task cfg fd J s q w c) : w ≤ q := by
  cases h with
  | accepted | header | receiving => exact Nat.le_refl _
  | sending => exact Nat.le_succ _

theorem Task.lt_sqTail (h : Task cfg fd J s q w c) (hl : Live s q) : w < s.sqTail :=
  Nat.lt_of_le_of_lt h.le hl.1

/-- A request that is posted is the one that the connection waits for. -/
theorem Task.eq_of_posted (h : Task cfg fd J s q w c) (hw : IsPosted s w) : w = q := by
  cases h with
  | accepted | header | receiving => rfl
  | sending _ r k hlink hc hpc hfd hno => exact absurd hw hno

/-- What a connection waits for is left as it is by a step that works on other requests, or
on this one without posting it. -/
theorem Task.congr (h : Task cfg fd J s q w c) (hQ : Queues s) (hsqes : t.sqes = s.sqes)
    (hrecs : t.recs = s.recs) (hhanded : (flow t fd).handed = (flow s fd).handed)
    (hcqes : ∀ slot < s.cqTail, t.cqes slot = s.cqes slot)
    (hstatus : ∀ q, t.status q = s.status q ∨ ¬ IsPosted s q ∧ (q = w → ¬ IsPosted t q)) :
    Task cfg fd J t q w c := by
  have hposted : ∀ {q' slot full}, s.status q' = .posted slot full →
      t.status q' = .posted slot full := by
    intro q' slot full hq'
    rcases hstatus q' with heq | ⟨hno, -⟩
    · rw [heq, hq']
    · exact absurd ⟨slot, full, hq'⟩ hno
  have hsame : ∀ {slot}, s.status w ≠ .posted slot false → t.status w ≠ .posted slot false := by
    intro slot hw
    rcases hstatus w with heq | ⟨-, hno⟩
    · rwa [heq]
    · exact fun hst => hno rfl ⟨slot, false, hst⟩
  cases h with
  | accepted _ l slot hop hst hres =>
    exact .accepted q l slot (by rw [hsqes, hop]) (hposted hst)
      (by rw [hcqes slot (hQ.posted q slot true hst).1, hres])
  | header _ r hc hpc hfd hno =>
    exact .header q r (by rwa [Carries, hsqes]) (by rw [hrecs, hpc]) (by rw [hrecs, hfd])
      fun slot => hsame (hno slot)
  | receiving _ r k hc hpc hfd hno hfront hk hlt =>
    refine .receiving q r k (by rwa [Carries, hsqes]) (by rw [hrecs, hpc]) (by rw [hrecs, hfd])
      (fun slot => hsame (hno slot)) ?_ (by rw [hhanded, hk]) hlt
    intro q' hq' hlink
    rw [hsqes] at hlink
    obtain ⟨slot, hst⟩ := hfront q' hq' hlink
    exact ⟨slot, hposted hst⟩
  | sending _ r k hlink hc hpc hfd hno hk hlt =>
    refine .sending w r k (by rw [hsqes, hlink]) (by rwa [Carries, hsqes]) (by rw [hrecs, hpc])
      (by rw [hrecs, hfd]) ?_ (by rw [hhanded, hk]) hlt
    rcases hstatus w with heq | ⟨-, hno'⟩
    · rwa [IsPosted, heq]
    · exact hno' rfl

section Base
variable (hB : Base cfg s) (hl : Live s q) (h : Task cfg fd J s q w c)
include hB hl h

theorem Task.opened : fd ∈ s.opened := by
  have hO := hB.inv.owned
  cases h with
  | accepted _ l slot hop hst hres =>
    obtain ⟨fd', hres', hmem, -⟩ := hO.accepted_fd q l slot hl hop hst
    obtain rfl : fd = fd' := Int.ofNat_inj.mp (hres.symm.trans hres')
    exact hmem
  | header _ r hc hpc hfd =>
    exact hfd ▸ hO.fd_opened r (hO.awaits q r hl hc).1 (by rw [hpc]; simp)
  | receiving _ r k hc hpc hfd =>
    exact hfd ▸ hO.fd_opened r (hO.awaits q r hl hc).1 (by rw [hpc]; simp)
  | sending _ r k hlink hc hpc hfd =>
    exact hfd ▸ hO.fd_opened r (hO.awaits (w + 1) r hl hc).1 (by rw [hpc]; simp)

/-- Nothing stands in front of the request that the kernel has to work on. -/
theorem Task.front (hno : ¬ IsPosted s w) : Front s w := by
  cases h with
  | accepted _ l slot hop hst => exact absurd ⟨slot, true, hst⟩ hno
  | header _ r hc hpc =>
    intro q' hq' hlink
    rw [(hB.inv.echo.header q r hl hc hpc).unlinked q' hq'] at hlink
    cases hlink
  | receiving _ r k hc hpc hfd hno hfront => exact hfront
  | sending _ r k hlink hc =>
    -- what stands behind a linked entry is a `recv`
    rintro q' rfl hlink'
    have hlt := Nat.lt_of_succ_lt hl.1
    obtain ⟨⟨fd₁, src₁, len₁, r₁, -, hrecv⟩, -⟩ := hB.inv.queues.chain q' (Nat.lt_of_succ_lt hlt) hlink'
    obtain ⟨⟨fd₂, src₂, len₂, r₂, hsend, -⟩, -⟩ := hB.inv.queues.chain (q' + 1) hlt hlink
    rw [hrecv] at hsend
    cases hsend

/-- The request the kernel works on: a `recv` of bytes that the client sends, or the reply. -/
theorem Task.runs {p : Nat} (hJ : J * cfg.msgSize.val ≤ (body cfg fd).length)
    (hrest : ¬ Done cfg fd J s) (hrun : s.status w = .running p) :
    (∃ dst len, (s.sqes w).op = .recv fd dst len ∧ p ≤ len ∧
      (s.conns fd).taken + (len - p) ≤ (cfg.streams fd).length) ∨
      ∃ src len, (s.sqes w).op = .send fd src len ∧ p ≤ len := by
  have hbody : (body cfg fd).length = (cfg.streams fd).length - 2 := List.length_drop
  have hpos : 0 < J * cfg.msgSize.val := by
    by_contra hzero
    exact hrest (Or.inr (by omega))
  cases h with
  | accepted _ l slot hop hst =>
    rw [hrun] at hst
    cases hst
  | header _ r hc hpc hfd =>
    have hp := hB.inv.echo.header q r hl hc hpc
    obtain ⟨htaken, hle⟩ := hp.moving p (by rw [hrun]; rfl)
    have hop := hB.inv.owned.op_header hl hc hpc
    rw [hfd] at htaken hop
    have htaken' : (s.conns fd).taken = p := htaken
    exact Or.inl ⟨_, _, hop, hle, by omega⟩
  | receiving _ r k hc hpc hfd hno hfront hk hlt =>
    obtain ⟨k', hrec⟩ := (hB.inv.echo.msg q r hl hc hpc).receiving_of_running hrun
    have hop := hB.inv.owned.op_msg hl hc hpc
    have htaken := hrec.taken
    have hhanded := hrec.handed
    rw [hfd] at htaken hhanded hop
    obtain rfl : k' = k := hhanded.symm.trans hk
    have htaken' : (s.conns fd).taken = 2 + k' * cfg.msgSize.val + p := htaken
    have hblock : (k' + 1) * cfg.msgSize.val ≤ J * cfg.msgSize.val := Nat.mul_le_mul_right _ hlt
    rw [Nat.succ_mul] at hblock
    have hle := hrec.le
    exact Or.inl ⟨_, _, hop, hle, by omega⟩
  | sending _ r k hlink hc hpc hfd =>
    have hidle := hB.inv.queues.behind w (Nat.lt_of_succ_lt hl.1) hlink (not_isPosted_running hrun)
    obtain ⟨k', p', hs⟩ :=
      (hB.inv.echo.msg (w + 1) r hl hc hpc).sending_of_front hlink hidle (not_isPosted_running hrun)
    have hmoved := hs.moved_eq
    rw [hrun] at hmoved
    obtain rfl : p = p' := Option.some.inj hmoved
    obtain ⟨⟨fd', src, len, r', hsend, hrecv⟩, -⟩ :=
      hB.inv.queues.chain w (Nat.lt_of_succ_lt hl.1) hlink
    have hop := hB.inv.owned.op_msg hl hc hpc
    rw [hrecv, Op.recv.injEq] at hop
    obtain ⟨rfl, -, rfl⟩ := hop
    exact Or.inr ⟨src, _, by rw [hsend, hfd], hs.le⟩

end Base

end Task

-- ---------------------------------------------------------------------------
-- Whoever has to take a step can
-- ---------------------------------------------------------------------------

theorem not_isSome_of_rest (hrest : ¬ Done cfg fd J s) : ¬ s.exit.isSome := by
  intro hexit
  exact hrest (Or.inl (Option.isSome_iff_ne_none.mp hexit))

/-- The loop goes on, unless it waits for a completion. -/
theorem program_enabled (hQ : Queues s) (hexit : ¬ s.exit.isSome)
    (hwait : s.loop = .wait → s.cqHead < s.cqTail) :
    ∃ l t, Party.program.Acts l ∧ step cfg s l = some t := by
  cases hloop : s.loop with
  | submit => exact ⟨.submit, submitAll s, Or.inl rfl, by rw [step, if_neg hexit, hloop]⟩
  | wait =>
    refine ⟨.waitCqe, { s with loop := .walk s.cqHead 0 }, Or.inr (Or.inl rfl), ?_⟩
    rw [step, if_neg hexit, hloop]
    exact if_pos (hwait hloop)
  | walk head i =>
    have hle : head ≤ s.cqTail := seen_walk hloop ▸ hQ.cq_le.2
    rcases Nat.lt_or_eq_of_le hle with hlt | heq
    · cases hhandled : handleCqe cfg s (s.cqes head) with
      | ok u =>
        refine ⟨.visit, { u with loop := .walk (head + 1) (i + 1) }, Or.inr (Or.inr (Or.inl rfl)), ?_⟩
        simp only [step, if_neg hexit, hloop, if_pos hlt, hhandled]
      | error e =>
        refine ⟨.visit, { s with exit := some e }, Or.inr (Or.inr (Or.inl rfl)), ?_⟩
        simp only [step, if_neg hexit, hloop, if_pos hlt, hhandled]
    · refine ⟨.advance, { s with cqHead := s.cqHead + i, loop := .submit },
        Or.inr (Or.inr (Or.inr rfl)), ?_⟩
      simp only [step, if_neg hexit, hloop, if_pos heq]

theorem linkReady_of_front {w : Nat} (hQ : Queues s) (hw : w < s.sqHead) (h : Front s w) :
    linkReady s w = true := by
  rw [linkReady, Bool.or_eq_true]
  by_cases hfollows : s.follows w = true
  · rw [hQ.follows_eq w hw, Bool.and_eq_true, decide_eq_true_eq] at hfollows
    obtain ⟨slot, hst⟩ := h (w - 1) (Nat.sub_add_cancel hfollows.1) hfollows.2
    exact Or.inr (by rw [hst])
  · exact Or.inl (by simpa using hfollows)

theorem Stage.enabled {x : ℕ ×ₗ ℕ} {a : Party} (h : Stage cfg fd J x s a)
    (hJ : J * cfg.msgSize.val ≤ (body cfg fd).length) (hrest : ¬ Done cfg fd J s) :
    ∃ l t, a.Acts l ∧ step cfg s l = some t := by
  obtain ⟨hB, q, w, c, hl, htask, -, rfl⟩ := h
  have hexit := not_isSome_of_rest hrest
  have hQ := hB.inv.queues
  cases hst : s.status w with
  | posted slot full =>
    rw [place_posted hst]
    refine program_enabled hQ hexit fun hloop => ?_
    -- the completion is not handled yet
    obtain rfl := htask.eq_of_posted ⟨slot, full, hst⟩
    have hseen := hl.2 slot full hst
    rw [seen, hloop] at hseen
    exact Nat.lt_of_le_of_lt hseen (hQ.posted w slot full hst).1
  | idle =>
    by_cases hw : w < s.sqHead
    · have hready := linkReady_of_front hQ hw (htask.front hB hl (not_isPosted_idle hst))
      rw [place_submitted hst hw]
      refine ⟨.start w, setStatus s w (.running 0), Or.inl rfl, ?_⟩
      rw [step, if_neg hexit]
      exact if_pos ⟨hw, hst, hready⟩
    · rw [place_queued hst (Nat.not_lt.mp hw)]
      refine program_enabled hQ hexit fun hloop => ?_
      have heq := hB.wait hloop
      have hlt := htask.lt_sqTail hl
      omega
  | running p =>
    rw [place_running hst]
    rcases htask.runs hB hl hJ hrest hst with ⟨dst, len, hop, hle, htaken⟩ | ⟨src, len, hop, hle⟩
    · rcases Nat.lt_or_eq_of_le hle with hlt | rfl
      · refine ⟨.recvSome w 1, moveIn cfg s w fd dst p 1, Or.inr (Or.inr ⟨0, Or.inl rfl⟩), ?_⟩
        simp only [step, if_neg hexit, hst, hop]
        exact if_pos ⟨hlt, by omega⟩
      · refine ⟨.finish w, post s w p, Or.inr (Or.inl rfl), ?_⟩
        simp only [step, if_neg hexit, hst, hop, if_true]
    · rcases Nat.lt_or_eq_of_le hle with hlt | rfl
      · refine ⟨.sendSome w 1, moveOut s w fd src p 1, Or.inr (Or.inr ⟨0, Or.inr rfl⟩), ?_⟩
        simp only [step, if_neg hexit, hst, hop]
        exact if_pos hlt
      · refine ⟨.finish w, post s w p, Or.inr (Or.inl rfl), ?_⟩
        simp only [step, if_neg hexit, hst, hop, if_true]

/-- A request that a connection waits for moves its bytes, and those of no other. -/
theorem Stage.transfers {x : ℕ ×ₗ ℕ} {q fd' : Nat} (h : Stage cfg fd J x s (.request q))
    (hJ : J * cfg.msgSize.val ≤ (body cfg fd).length) (hrest : ¬ Done cfg fd J s)
    (hmoves : Transfers s q fd') : fd' = fd := by
  obtain ⟨hB, _, w, c, hl, htask, -, hparty⟩ := h
  obtain rfl : q = w := by
    rcases place_party s w with heq | heq
    · rw [heq] at hparty
      cases hparty
    · rw [heq] at hparty
      exact Party.request.inj hparty
  unfold Transfers at hmoves
  cases hst : s.status q with
  | running p =>
    rw [hst] at hmoves
    rcases htask.runs hB hl hJ hrest hst with ⟨dst, len, hop, -⟩ | ⟨src, len, hop, -⟩
    · rw [hop] at hmoves
      exact hmoves.1.symm
    · rw [hop] at hmoves
      exact hmoves.1.symm
  | idle | posted =>
    rw [hst] at hmoves
    exact hmoves.elim

-- ---------------------------------------------------------------------------
-- The kernel's steps
-- ---------------------------------------------------------------------------

/-- The request that a step of the kernel works on. -/
def Label.target : Label → Option Nat
  | .start q | .recvSome q _ | .sendSome q _ | .finish q | .fail q _ | .cancel q | .connect q _ =>
    some q
  | _ => none

/-- The request that a party works on. -/
def Party.target : Party → Option Nat
  | .program => none
  | .request q => some q

theorem Party.Acts.target {a : Party} {l : Label} (h : a.Acts l) : l.target = a.target := by
  cases a with
  | program => rcases h with rfl | rfl | rfl | rfl <;> rfl
  | request q => rcases h with rfl | rfl | ⟨k, rfl | rfl⟩ <;> rfl

/-- The kernel works on request `q`. -/
structure Works (s t : State) (q : Nat) : Prop where
  loop_eq : t.loop = s.loop
  sqHead_eq : t.sqHead = s.sqHead
  sqTail_eq : t.sqTail = s.sqTail
  sqes_eq : t.sqes = s.sqes
  recs_eq : t.recs = s.recs
  cqHead_eq : t.cqHead = s.cqHead
  unposted : ¬ IsPosted s q
  status_eq : ∀ q', q' ≠ q → t.status q' = s.status q'
  cqes_eq : ∀ slot < s.cqTail, t.cqes slot = s.cqes slot
  handed_eq : ∀ fd ∈ s.opened, (flow t fd).handed = (flow s fd).handed

theorem works_post {q : Nat} {res : Int} (hno : ¬ IsPosted s q) : Works s (post s q res) q where
  loop_eq := rfl
  sqHead_eq := rfl
  sqTail_eq := rfl
  sqes_eq := rfl
  recs_eq := rfl
  cqHead_eq := rfl
  unposted := hno
  status_eq _ h := post_of_ne s h
  cqes_eq _ h := post_cqes s h
  handed_eq _ _ := rfl

theorem Step.works {l : Label} {q : Nat} (hstep : Step cfg s l t) (hl : l.target = some q) :
    Works s t q := by
  cases hstep with
  | submit | waitCqe | waitError | visit | visitExit | advance => cases hl
  | start _ hlt hidle =>
    cases hl
    exact ⟨rfl, rfl, rfl, rfl, rfl, rfl, not_isPosted_idle hidle,
      fun _ h => setStatus_of_ne s _ h, fun _ _ => rfl, fun _ _ => rfl⟩
  | recvSome _ k p fd dst len hst =>
    cases hl
    refine ⟨rfl, rfl, rfl, rfl, rfl, rfl, not_isPosted_running hst,
      fun _ h => moveIn_status_of_ne s h, fun _ _ => rfl, fun fd' _ => ?_⟩
    by_cases hfd : fd' = fd
    · rw [hfd, flow_moveIn]
    · rw [flow_moveIn_of_ne s hfd]
  | sendSome _ k p fd src len hst =>
    cases hl
    refine ⟨rfl, rfl, rfl, rfl, rfl, rfl, not_isPosted_running hst,
      fun _ h => Function.update_of_ne h .., fun _ _ => rfl, fun fd' _ => ?_⟩
    by_cases hfd : fd' = fd
    · rw [hfd, flow_moveOut]
    · rw [flow_moveOut_of_ne s hfd]
  | finish _ p hst =>
    cases hl
    exact works_post (not_isPosted_running hst)
  | fail _ p res hst =>
    cases hl
    exact works_post (not_isPosted_running hst)
  | cancel _ hlt hidle =>
    cases hl
    exact works_post (not_isPosted_idle hidle)
  | connect _ p fd lfd hst hop hne hfresh =>
    cases hl
    have h : Works s (post s q (fd : Int)) q := works_post (not_isPosted_running hst)
    refine { h with handed_eq := ?_ }
    intro fd' hmem
    have hfd : fd' ≠ fd := by
      rintro rfl
      exact hfresh hmem
    rw [flow_openConn_of_ne s hfd]

theorem base_step {l : Label} (hB : Base cfg s) (h : step cfg s l = some t) : Base cfg t := by
  have hinv := inv_preserved cfg hB.inv h
  have hstep := (step_cases h).2
  cases htarget : l.target with
  | some q =>
    have hw := hstep.works htarget
    refine ⟨hinv, ?_⟩
    rw [hw.loop_eq, hw.sqHead_eq, hw.sqTail_eq]
    exact hB.wait
  | none =>
    cases hstep with
    | submit => exact ⟨hinv, fun _ => rfl⟩
    | waitError | visitExit => exact ⟨hinv, hB.wait⟩
    | waitCqe | advance | visit => exact ⟨hinv, nofun⟩
    | start | recvSome | sendSome | finish | fail | cancel | connect => cases htarget

-- ---------------------------------------------------------------------------
-- What a step leaves of the distance
-- ---------------------------------------------------------------------------

/-- After a step the connection is served or closer to it, or where it was, and then the step
was not one of the party it needs. -/
def Onward (cfg : Config) (fd J : Nat) (x : ℕ ×ₗ ℕ) (a : Party) (l : Label) (t : State) : Prop :=
  Done cfg fd J t ∨ (∃ y < x, ∃ b, Stage cfg fd J y t b) ∨ Stage cfg fd J x t a ∧ ¬ a.Acts l

section Onward
variable {q q' w w' c c' : Nat} {l : Label}

theorem distance_lt {stage left stage' left' : Nat} {party party' : Party}
    (hs : place s w = ⟨stage, left, party⟩) (ht : place t w' = ⟨stage', left', party'⟩)
    (h : 3 * c' + stage' < 3 * c + stage ∨ 3 * c' + stage' = 3 * c + stage ∧ left' < left) :
    distance t w' c' < distance s w c := by
  rw [distance, distance, hs, ht]
  exact Prod.Lex.toLex_lt_toLex.mpr h

theorem Onward.closer {x : ℕ ×ₗ ℕ} {a : Party} (hB : Base cfg t) (hl : Live t q)
    (h : Task cfg fd J t q w c) (hlt : distance t w c < x) : Onward cfg fd J x a l t :=
  Or.inr (Or.inl ⟨_, hlt, _, hB, q, w, c, hl, h, rfl, rfl⟩)

theorem Onward.stay (hB : Base cfg t) (hl : Live t q) (h : Task cfg fd J t q w c)
    (hplace : place t w = place s w) (hno : ¬ (place s w).party.Acts l) :
    Onward cfg fd J (distance s w c) (place s w).party l t := by
  refine Or.inr (Or.inr ⟨⟨hB, q, w, c, hl, h, ?_, ?_⟩, hno⟩)
  · rw [distance, distance, hplace]
  · rw [hplace]

theorem Works.place_eq (hw : Works s t q) (hne : w ≠ q) : place t w = place s w := by
  simp only [place, hw.status_eq w hne, toSlot, toSubmit, hw.loop_eq,
    hw.sqHead_eq, hw.cqHead_eq, hw.sqes_eq]

theorem Works.task (hw : Works s t q') (hB : Base cfg s) (hl : Live s q) (h : Task cfg fd J s q w c)
    (hno : q' = w → ¬ IsPosted t w) : Task cfg fd J t q w c := by
  refine h.congr hB.inv.queues hw.sqes_eq hw.recs_eq (hw.handed_eq fd (h.opened hB hl)) hw.cqes_eq ?_
  intro q₁
  by_cases hq : q₁ = q'
  · subst hq
    exact Or.inr ⟨hw.unposted, fun heq => heq ▸ hno heq⟩
  · exact Or.inl (hw.status_eq q₁ hq)

/-- A step of the kernel at another request. -/
theorem Works.onward (hw : Works s t q') (hne : w ≠ q') (htarget : l.target = some q')
    (hB : Base cfg s) (hl : Live s q) (hB' : Base cfg t) (hl' : Live t q)
    (h : Task cfg fd J s q w c) :
    Onward cfg fd J (distance s w c) (place s w).party l t := by
  refine .stay hB' hl' (hw.task hB hl h fun heq => absurd heq.symm hne) (hw.place_eq hne) ?_
  intro hacts
  rw [hacts.target] at htarget
  rcases place_party s w with hparty | hparty <;> rw [hparty] at htarget <;> cases htarget
  exact hne rfl

/-- The request goes on without being over. -/
theorem Works.closer {x : ℕ ×ₗ ℕ} {a : Party} {p : Nat} (hw : Works s t w) (hB : Base cfg s)
    (hl : Live s q) (hB' : Base cfg t) (hl' : Live t q) (h : Task cfg fd J s q w c)
    (hst : t.status w = .running p) (hlt : distance t w c < x) : Onward cfg fd J x a l t :=
  .closer hB' hl' (hw.task hB hl h fun _ => not_isPosted_running hst) hlt

theorem Step.live_iff (hQ : Queues s) (hstep : Step cfg s l t) (htarget : l.target = some q') :
    Live t q ↔ Live s q := by
  rcases hstep.quiet hQ with hquiet | ⟨u, head, i, hloop, -, -, rfl⟩
  · exact hquiet.live_iff q
  · have hsame : Loop.walk (head + 1) (i + 1) = s.loop := (hstep.works htarget).loop_eq
    rw [hloop, Loop.walk.injEq] at hsame
    exact absurd hsame.1 (Nat.succ_ne_self head)

section Own
variable (hB : Base cfg s) (hl : Live s q) (h : Task cfg fd J s q w c)
include hB hl h

/-- The kernel has moved `k` more bytes. -/
theorem Task.move {p k : Nat} {x : State} (hw : Works s x w) (hB' : Base cfg x) (hl' : Live x q)
    (hrun : s.status w = .running p) (hrun' : x.status w = .running (p + k))
    (hle : p + k ≤ (s.sqes w).op.len) (hacts : k = 0 → ¬ (Party.request w).Acts l) :
    Onward cfg fd J (distance s w c) (place s w).party l x := by
  rcases Nat.eq_zero_or_pos k with rfl | hpos
  · refine .stay hB' hl' (hw.task hB hl h fun _ => not_isPosted_running hrun') ?_ ?_
    · rw [place_running hrun, place_running hrun', hw.sqes_eq]
      rfl
    · rw [place_running hrun]
      exact hacts rfl
  · refine hw.closer hB hl hB' hl' h hrun' (distance_lt (place_running hrun) (place_running hrun') ?_)
    rw [hw.sqes_eq]
    exact Or.inr ⟨rfl, by omega⟩

/-- The kernel's work on the request is over. -/
theorem Task.finish {p : Nat} (hrun : s.status w = .running p) (hlen : p = (s.sqes w).op.len)
    (hB' : Base cfg (post s w p)) (hl' : Live (post s w p) q) :
    Onward cfg fd J (distance s w c) (place s w).party l (post s w p) := by
  have hno := not_isPosted_running hrun
  have hself : (post s w p).status w = .posted s.cqTail true := by
    rw [hlen]
    exact post_self_full s
  have hnofail : ∀ slot, (post s w p).status w ≠ .posted slot false := by
    intro slot hst
    rw [hself] at hst
    cases hst
  have hposted : distance (post s w p) w c < distance s w c :=
    distance_lt (place_running hrun) (place_posted hself) (Or.inl (Nat.lt_succ_self _))
  cases h with
  | accepted _ l slot hop hst => exact absurd ⟨slot, true, hst⟩ hno
  | header _ r hc hpc hfd => exact .closer hB' hl' (.header q r hc hpc hfd hnofail) hposted
  | receiving _ r k hc hpc hfd _ hfront hk hlt =>
    refine .closer hB' hl' (.receiving q r k hc hpc hfd hnofail ?_ hk hlt) hposted
    intro q' hq' hlink
    obtain ⟨slot, hst⟩ := hfront q' hq' hlink
    exact ⟨slot, by rw [post_of_ne s (by omega), hst]⟩
  | sending _ r k hlink hc hpc hfd _ hk hlt =>
    have hQ := hB.inv.queues
    have hidle : (post s w p).status (w + 1) = .idle := by
      rw [post_of_ne s (Nat.succ_ne_self w)]
      exact hQ.behind w (Nat.lt_of_succ_lt hl.1) hlink hno
    have hfront : Front (post s w p) (w + 1) := by
      intro q' hq' _
      obtain rfl := Nat.succ_injective hq'
      exact ⟨s.cqTail, hself⟩
    by_cases hmore : k + 1 < J
    · -- the `recv` behind the reply may start
      have hsub : w + 1 < (post s w p).sqHead :=
        (hQ.chain w (Nat.lt_of_succ_lt hl.1) hlink).2.2 (hQ.submitted (by rw [hrun]; simp))
      refine .closer hB' hl' (.receiving (w + 1) r (k + 1) hc hpc hfd ?_ hfront hk hmore) ?_
      · intro slot hst
        rw [hidle] at hst
        cases hst
      · exact distance_lt (place_running hrun) (place_submitted hidle hsub) (Or.inl (by omega))
    · -- this was the reply to the last block
      obtain ⟨k', p', hrec⟩ := (hB'.inv.echo.msg (w + 1) r hl' hc hpc).receiving_of_ready
        (not_isPosted_idle hidle) hfront
      have hhanded := hrec.handed
      have hechoed := hrec.echoed
      have hfd' : ((post s w p).recs r).fd = fd := hfd
      rw [hfd'] at hhanded hechoed
      obtain rfl : k' = k + 1 := hhanded.symm.trans hk
      refine Or.inl (Or.inr ?_)
      rw [hechoed]
      exact Nat.mul_le_mul_right _ (Nat.le_of_not_lt hmore)

/-- A step of the kernel at the request that the connection waits for. -/
theorem Task.own (hJ : J * cfg.msgSize.val ≤ (body cfg fd).length)
    (hrest : ¬ Done cfg fd J s) (hsound : Sound cfg fd s l) (hst : step cfg s l = some t)
    (htarget : l.target = some w) : Onward cfg fd J (distance s w c) (place s w).party l t := by
  have hstep := (step_cases hst).2
  have hB' := base_step hB hst
  have hl' : Live t q := (hstep.live_iff hB.inv.queues htarget).mpr hl
  have hw := hstep.works htarget
  have hfront := h.front hB hl hw.unposted
  cases hstep with
  | submit | waitCqe | waitError | visit | visitExit | advance => cases htarget
  | start _ hlt hidle =>
    cases htarget
    have hrun := setStatus_self s w (.running 0)
    refine hw.closer hB hl hB' hl' h hrun (distance_lt (place_submitted hidle hlt) (place_running hrun) ?_)
    rw [hw.sqes_eq]
    exact Or.inr ⟨rfl, by omega⟩
  | recvSome _ k p fd' dst len hrun hop hlen =>
    cases htarget
    refine h.move hB hl hw hB' hl' hrun (moveIn_status cfg s w fd' dst p k)
      (by rw [hop]; exact hlen) ?_
    rintro rfl (hacts | hacts | ⟨k, hacts | hacts⟩) <;> cases hacts
  | sendSome _ k p fd' src len hrun hop hlen =>
    cases htarget
    refine h.move hB hl hw hB' hl' hrun (Function.update_self ..) (by rw [hop]; exact hlen) ?_
    rintro rfl (hacts | hacts | ⟨k, hacts | hacts⟩) <;> cases hacts
  | finish _ p hrun hlen =>
    cases htarget
    exact h.finish hB hl hrun hlen hB' hl'
  | fail _ p res hrun =>
    cases htarget
    rcases h.runs hB hl hJ hrest hrun with ⟨dst, len, hop, -, htaken⟩ | ⟨src, len, hop, -⟩
    · rw [Sound, hrun, hop] at hsound
      rcases hsound with hother | hshort
      · exact absurd rfl hother
      · exact absurd htaken (Nat.not_le.mpr hshort)
    · rw [Sound, hrun, hop] at hsound
      exact absurd rfl hsound
  | cancel _ hlt hidle hbroken =>
    cases htarget
    obtain ⟨hfollows, slot, hslot⟩ := linkBroken_posted hbroken
    rw [hB.inv.queues.follows_eq w hlt, Bool.and_eq_true, decide_eq_true_eq] at hfollows
    obtain ⟨slot', hslot'⟩ := hfront (w - 1) (Nat.sub_add_cancel hfollows.1) hfollows.2
    rw [hslot] at hslot'
    cases hslot'
  | connect _ p fd' lfd hrun hop =>
    cases htarget
    rcases h.runs hB hl hJ hrest hrun with ⟨dst, len, hop', -⟩ | ⟨src, len, hop', -⟩ <;>
      rw [hop] at hop' <;> cases hop'

end Own

-- ---------------------------------------------------------------------------
-- The steps of the loop
-- ---------------------------------------------------------------------------

/-- The loop takes a step that leaves the request as it is. -/
theorem Task.turn (hB' : Base cfg t) (hl' : Live t q) (h' : Task cfg fd J t q w c)
    (htarget : l.target = none) (hstatus : t.status w = s.status w) (hsqes : t.sqes w = s.sqes w)
    (hsq : s.sqHead ≤ t.sqHead)
    (hposted : ∀ slot full, s.status w = .posted slot full → toSlot t slot < toSlot s slot)
    (hqueued : s.status w = .idle → s.sqHead ≤ w → w < t.sqHead ∨ toSubmit t < toSubmit s) :
    Onward cfg fd J (distance s w c) (place s w).party l t := by
  have hnot : ¬ (Party.request w).Acts l := by
    intro hacts
    rw [hacts.target] at htarget
    cases htarget
  cases hst : s.status w with
  | posted slot full =>
    rw [hst] at hstatus
    exact .closer hB' hl' h'
      (distance_lt (place_posted hst) (place_posted hstatus) (Or.inr ⟨rfl, hposted slot full hst⟩))
  | running p =>
    rw [hst] at hstatus
    refine .stay hB' hl' h' ?_ ?_
    · rw [place_running hst, place_running hstatus, hsqes]
    · rw [place_running hst]
      exact hnot
  | idle =>
    rw [hst] at hstatus
    rcases Nat.lt_or_ge w s.sqHead with hlt | hge
    · refine .stay hB' hl' h' ?_ ?_
      · rw [place_submitted hst hlt, place_submitted hstatus (Nat.lt_of_lt_of_le hlt hsq), hsqes]
      · rw [place_submitted hst hlt]
        exact hnot
    · refine .closer hB' hl' h' ?_
      rcases Nat.lt_or_ge w t.sqHead with hlt | hge'
      · exact distance_lt (place_queued hst hge) (place_submitted hstatus hlt)
          (Or.inl (Nat.lt_succ_self _))
      · have hsubmit := (hqueued hst hge).resolve_left (Nat.not_lt.mpr hge')
        exact distance_lt (place_queued hst hge) (place_queued hstatus hge') (Or.inr ⟨rfl, hsubmit⟩)

section Loop
variable (hB : Base cfg s) (hB' : Base cfg t) (hl : Live s q) (h : Task cfg fd J s q w c)
include hB hB' hl h

theorem Task.submit (hloop : s.loop = .submit) (ht : t = submitAll s) :
    Onward cfg fd J (distance s w c) (place s w).party .submit t := by
  subst ht
  have hseen : seen (submitAll s) = seen s := by simp [seen, submitAll, hloop]
  refine Task.turn hB' (by rw [Live, hseen]; exact hl)
    (h.congr hB.inv.queues rfl rfl rfl (fun _ _ => rfl) fun _ => Or.inl rfl) rfl rfl rfl
    hB.inv.queues.sq_le ?_ fun _ _ => Or.inl (h.lt_sqTail hl)
  intro slot full _
  simp only [toSlot, submitAll, hloop]
  exact Nat.lt_succ_self _

theorem Task.waitCqe (hloop : s.loop = .wait) (ht : t = { s with loop := .walk s.cqHead 0 }) :
    Onward cfg fd J (distance s w c) (place s w).party .waitCqe t := by
  subst ht
  have hseen : seen s = s.cqHead := by simp [seen, hloop]
  refine Task.turn hB' (by rw [Live, hseen] at hl; exact hl)
    (h.congr hB.inv.queues rfl rfl rfl (fun _ _ => rfl) fun _ => Or.inl rfl) rfl rfl rfl
    (Nat.le_refl _) ?_ ?_
  · intro slot full _
    simp only [toSlot, hloop]
    exact Nat.lt_succ_self _
  · -- every entry has been submitted
    intro _ hge
    have hlt := h.lt_sqTail hl
    rw [← hB.wait hloop] at hlt
    exact absurd hlt (Nat.not_lt.mpr hge)

theorem Task.advance {head i : Nat} (hloop : s.loop = .walk head i) (hend : head = s.cqTail)
    (ht : t = { s with cqHead := s.cqHead + i, loop := .submit }) :
    Onward cfg fd J (distance s w c) (place s w).party .advance t := by
  subst ht
  have hQ := hB.inv.queues
  have hseen : seen s = s.cqHead + i := by rw [seen_walk hloop, hQ.walk_eq head i hloop]
  refine Task.turn hB' (by rw [Live, hseen] at hl; exact hl)
    (h.congr hQ rfl rfl rfl (fun _ _ => rfl) fun _ => Or.inl rfl) rfl rfl rfl (Nat.le_refl _) ?_ ?_
  · -- the walk has come past every completion
    intro slot full hst
    obtain rfl := h.eq_of_posted ⟨slot, full, hst⟩
    have hge := hl.2 slot full hst
    rw [seen_walk hloop, hend] at hge
    exact absurd (hQ.posted w slot full hst).1 (Nat.not_lt.mpr hge)
  · intro _ _
    refine Or.inr ?_
    simp only [toSubmit, hloop]
    exact Nat.succ_pos _

end Loop

section Visit
variable {u : State} {cqe : Cqe} {q₀ head i : Nat}

theorem Skips.record {r : Nat} (h : Skips cfg s cqe) (hud : cqe.userData = some r) :
    ((s.recs r).pc = .receivedHeader ∧ cqe.res < 2) ∨
      ((s.recs r).pc = .receivedMsg ∧ cqe.res < cfg.msgSize.val) := by
  rcases h with hnone | ⟨r', hr', h⟩
  · rw [hnone] at hud
    cases hud
  · obtain rfl : r' = r := Option.some.inj (hr'.symm.trans hud)
    exact h

theorem Handled.of_accepted {r : Nat} (hh : Handled cfg s cqe u) (hud : cqe.userData = some r)
    (hpc : (s.recs r).pc = .accepted) : u = afterAccepted cfg s r cqe.res.toNat := by
  cases hh with
  | skip hskip =>
    rcases hskip.record hud with ⟨hpc', -⟩ | ⟨hpc', -⟩ <;> rw [hpc] at hpc' <;> cases hpc'
  | accepted r' hr' => rw [Option.some.inj (hr'.symm.trans hud)]
  | header r' hr' hpc' | msg r' hr' hpc' =>
    rw [Option.some.inj (hr'.symm.trans hud), hpc] at hpc'
    cases hpc'

theorem Handled.of_header {r : Nat} (hh : Handled cfg s cqe u) (hud : cqe.userData = some r)
    (hpc : (s.recs r).pc = .receivedHeader) (hres : 2 ≤ cqe.res) : u = afterHeader cfg s r := by
  cases hh with
  | skip hskip =>
    rcases hskip.record hud with ⟨-, hshort⟩ | ⟨hpc', -⟩
    · exact absurd hres (Int.not_le.mpr hshort)
    · rw [hpc] at hpc'
      cases hpc'
  | header r' hr' => rw [Option.some.inj (hr'.symm.trans hud)]
  | accepted r' hr' hpc' | msg r' hr' hpc' =>
    rw [Option.some.inj (hr'.symm.trans hud), hpc] at hpc'
    cases hpc'

theorem Handled.of_msg {r : Nat} (hh : Handled cfg s cqe u) (hud : cqe.userData = some r)
    (hpc : (s.recs r).pc = .receivedMsg) (hres : (cfg.msgSize.val : Int) ≤ cqe.res) :
    u = afterMsg cfg s r := by
  cases hh with
  | skip hskip =>
    rcases hskip.record hud with ⟨hpc', -⟩ | ⟨-, hshort⟩
    · rw [hpc] at hpc'
      cases hpc'
    · exact absurd hres (Int.not_le.mpr hshort)
  | msg r' hr' => rw [Option.some.inj (hr'.symm.trans hud)]
  | accepted r' hr' hpc' | header r' hr' hpc' =>
    rw [Option.some.inj (hr'.symm.trans hud), hpc] at hpc'
    cases hpc'

/-- Handling a completion leaves the records of the other requests as they are, and their
connections. -/
theorem Visited.others {r : Nat} (hv : Visited s u t cqe q₀) (hh : Handled cfg s cqe u)
    (hO : Owned cfg s) (hl : Live s q) (hne : q ≠ q₀) (hc : Carries s q r) :
    u.recs r = s.recs r ∧ ((s.recs r).pc ≠ .accepted →
      (flow u (s.recs r).fd).handed = (flow s (s.recs r).fd).handed) := by
  have hlt := (hO.awaits q r hl hc).1
  have hother : ∀ {r₀}, cqe.userData = some r₀ → r ≠ r₀ := by
    rintro r₀ hr rfl
    exact hv.not_carries hO hr hl hne hc
  cases hh with
  | skip => exact ⟨rfl, fun _ => rfl⟩
  | accepted r₀ hr => exact ⟨afterAccepted_recs_of_ne hlt (hother hr), fun _ => rfl⟩
  | header r₀ hr => exact ⟨afterHeader_recs_of_ne (hother hr), fun _ => rfl⟩
  | msg r₀ hr hpc₀ =>
    refine ⟨rfl, fun hpc => ?_⟩
    have hfd : (s.recs r).fd ≠ (s.recs r₀).fd := fun heq =>
      hother hr (hO.fd_inj r hlt r₀ (hv.awaits hO hr).1 hpc (by rw [hpc₀]; simp) heq)
    simp [flow, afterMsg, Function.update_of_ne hfd]

/-- The loop handles the completion of another request. -/
theorem Task.others (hB : Base cfg s) (hl : Live s q) (h : Task cfg fd J s q w c)
    (hv : Visited s u { u with loop := .walk (head + 1) (i + 1) } cqe q₀)
    (hh : Handled cfg s cqe u) (hne : q ≠ q₀) :
    Task cfg fd J { u with loop := .walk (head + 1) (i + 1) } q w c := by
  have hext := hh.extends
  have hQ := hB.inv.queues
  have hstatus : ∀ q', u.status q' = s.status q' := fun q' => congrFun hext.status_eq q'
  have hcarries : ∀ {r}, Carries s q r → Carries u q r := by
    intro r hc
    rw [Carries, hext.sqes_eq q hl.1]
    exact hc
  cases h with
  | accepted _ l slot hop hst hres =>
    refine .accepted q l slot ?_ ((hstatus q).trans hst) ?_
    · exact (congrArg Sqe.op (hext.sqes_eq q hl.1)).trans hop
    · exact (congrArg Cqe.res (congrFun hext.cqes_eq slot)).trans hres
  | header _ r hc hpc hfd hno =>
    obtain ⟨hrec, -⟩ := hv.others hh hB.inv.owned hl hne hc
    refine .header q r (hcarries hc) ((congrArg Threadlet.pc hrec).trans hpc)
      ((congrArg Threadlet.fd hrec).trans hfd) fun slot => ?_
    show u.status q ≠ _
    rw [hstatus]
    exact hno slot
  | receiving _ r k hc hpc hfd hno hfront hk hlt =>
    obtain ⟨hrec, hhanded⟩ := hv.others hh hB.inv.owned hl hne hc
    rw [hfd] at hhanded
    refine .receiving q r k (hcarries hc) ((congrArg Threadlet.pc hrec).trans hpc)
      ((congrArg Threadlet.fd hrec).trans hfd) (fun slot => ?_) ?_
      ((congrArg List.length (hhanded (by rw [hpc]; simp))).trans hk) hlt
    · show u.status q ≠ _
      rw [hstatus]
      exact hno slot
    · intro q' hq' hlink
      have hlink' : (u.sqes q').link = true := hlink
      rw [hext.sqes_eq q' (by have := hl.1; omega)] at hlink'
      obtain ⟨slot, hst⟩ := hfront q' hq' hlink'
      exact ⟨slot, (hstatus q').trans hst⟩
  | sending _ r k hlink hc hpc hfd hno hk hlt =>
    obtain ⟨hrec, hhanded⟩ := hv.others hh hB.inv.owned hl hne hc
    rw [hfd] at hhanded
    refine .sending w r k ?_ (hcarries hc) ((congrArg Threadlet.pc hrec).trans hpc)
      ((congrArg Threadlet.fd hrec).trans hfd) ?_
      ((congrArg List.length (hhanded (by rw [hpc]; simp))).trans hk) hlt
    · exact (congrArg Sqe.link (hext.sqes_eq w (Nat.lt_of_succ_lt hl.1))).trans hlink
    · rintro ⟨slot, full, hst⟩
      exact hno ⟨slot, full, (hstatus w).symm.trans hst⟩

/-- The loop handles the completion that the connection waits for: it queues the next request. -/
theorem Task.handled (hB : Base cfg s) (hB' : Base cfg { u with loop := .walk (head + 1) (i + 1) })
    (hl : Live s q₀) (h : Task cfg fd J s q₀ w c) (hJ : 0 < J)
    (hv : Visited s u { u with loop := .walk (head + 1) (i + 1) } cqe q₀)
    (hh : Handled cfg s cqe u) :
    Onward cfg fd J (distance s w c) (place s w).party .visit
      { u with loop := .walk (head + 1) (i + 1) } := by
  have hQ := hB.inv.queues
  have hO := hB.inv.owned
  obtain ⟨slot₀, hst₀, hcqe⟩ := hv.posted₀
  -- the entries that the loop body queues
  have hnew : ∀ q, s.sqTail ≤ q → q < u.sqTail →
      Live { u with loop := .walk (head + 1) (i + 1) } q ∧ u.status q = .idle ∧ u.sqHead ≤ q := by
    intro q hge hlt
    have hsub : s.sqHead ≤ q := Nat.le_trans hQ.sq_le hge
    refine ⟨(hv.live_iff q).mpr (Or.inr ⟨hge, hlt⟩), ?_, ?_⟩
    · rw [hh.extends.status_eq]
      exact hQ.queued_idle q hsub
    · rw [hh.extends.sqHead_eq]
      exact hsub
  have hcloser : ∀ {q' w' c'}, s.sqTail ≤ w' → w' ≤ q' → q' < u.sqTail → c' < c → w = q₀ →
      Task cfg fd J { u with loop := .walk (head + 1) (i + 1) } q' w' c' →
      Onward cfg fd J (distance s w c) (place s w).party .visit
        { u with loop := .walk (head + 1) (i + 1) } := by
    rintro q' w' c' hge hle hlt hc rfl htask
    obtain ⟨-, hidle, hsub⟩ := hnew w' hge (Nat.lt_of_le_of_lt hle hlt)
    obtain ⟨hlive, -⟩ := hnew q' (Nat.le_trans hge hle) hlt
    exact .closer hB' hlive htask
      (distance_lt (place_posted hst₀) (place_queued hidle hsub) (Or.inl (by omega)))
  have hfull : (∀ slot, s.status q₀ ≠ .posted slot false) → ((s.sqes q₀).op.len : Int) ≤ cqe.res := by
    intro hno
    by_contra hshort
    rw [decide_eq_false hshort] at hst₀
    exact hno slot₀ hst₀
  have hnofail : ∀ {q}, s.sqTail ≤ q → q < u.sqTail → ∀ slot, u.status q ≠ .posted slot false := by
    intro q hge hlt slot hst
    rw [(hnew q hge hlt).2.1] at hst
    cases hst
  cases h with
  | accepted _ l slot hop hst hres =>
    rw [hst, Status.posted.injEq] at hst₀
    obtain ⟨rfl, -⟩ := hst₀
    rw [hcqe] at hres
    obtain ⟨r, hr, hpc, -⟩ := hO.listener
    have hc := hO.carries_of_accept hr hpc hl hop
    obtain rfl := hh.of_accepted (hv.userData₀.trans hc) hpc
    have hrec : (afterAccepted cfg s r cqe.res.toNat).recs r = _ := afterAccepted_recs_self hr
    refine hcloser (Nat.le_add_right _ 2) (Nat.le_refl _) (Nat.lt_succ_self _)
      (Nat.lt_succ_self _) rfl (.header _ r (congrArg Sqe.userData afterAccepted_sqes_recv)
        (congrArg Threadlet.pc hrec) ((congrArg Threadlet.fd hrec).trans ?_)
        (hnofail (Nat.le_add_right _ 2) (Nat.lt_succ_self _)))
    rw [hres]
    rfl
  | header _ r hc hpc hfd hno =>
    have hres := hfull hno
    rw [hO.op_header hl hc hpc] at hres
    obtain rfl := hh.of_header (hv.userData₀.trans hc) hpc hres
    have hrec : (afterHeader cfg s r).recs r = _ := afterHeader_recs_self
    have hhanded := (hB.inv.echo.header w r hl hc hpc).handed
    rw [hfd] at hhanded
    refine hcloser (Nat.le_refl _) (Nat.le_refl _) (Nat.lt_succ_self _) ?_ rfl
      (.receiving _ r 0 (congrArg Sqe.userData afterHeader_sqes_recv) (congrArg Threadlet.pc hrec)
        ((congrArg Threadlet.fd hrec).trans hfd) (hnofail (Nat.le_refl _) (Nat.lt_succ_self _)) ?_
        (congrArg List.length hhanded) hJ)
    · omega
    · -- no reply is queued in front of it
      intro q' hq' hlink
      have hold : q' < s.sqTail := by omega
      have hlink' : ((afterHeader cfg s r).sqes q').link = true := hlink
      rw [hh.extends.sqes_eq q' hold] at hlink'
      have := (hQ.chain q' hold hlink').2.1
      omega
  | receiving _ r k hc hpc hfd hno hfront hk hlt =>
    have hres := hfull hno
    rw [hO.op_msg hl hc hpc] at hres
    obtain rfl := hh.of_msg (hv.userData₀.trans hc) hpc hres
    obtain ⟨-, hidle, -⟩ := hnew s.sqTail (Nat.le_refl _) (Nat.lt_add_of_pos_right Nat.two_pos)
    refine hcloser (Nat.le_refl _) (Nat.le_succ _) (Nat.lt_succ_self _) (Nat.lt_succ_self _) rfl
      (.sending _ r k (congrArg Sqe.link afterMsg_sqes_send)
        (congrArg Sqe.userData afterMsg_sqes_recv) hpc hfd (not_isPosted_idle hidle) ?_ hlt)
    show (flow (afterMsg cfg s r) fd).handed.length = k + 1
    rw [← hk, ← hfd]
    simp [flow, afterMsg]
  | sending _ r k hlink hc hpc hfd hno hk hlt =>
    rw [hQ.behind w (Nat.lt_of_succ_lt hl.1) hlink hno] at hst₀
    cases hst₀

end Visit

/-- **No step takes a connection back.** -/
theorem Stage.onward {x : ℕ ×ₗ ℕ} {a : Party} (h : Stage cfg fd J x s a)
    (hJ : J * cfg.msgSize.val ≤ (body cfg fd).length) (hrest : ¬ Done cfg fd J s)
    (hsound : Sound cfg fd s l) (hst : step cfg s l = some t) : Onward cfg fd J x a l t := by
  obtain ⟨hB, q, w, c, hl, htask, rfl, rfl⟩ := h
  have hQ := hB.inv.queues
  have hB' := base_step hB hst
  have hstep := (step_cases hst).2
  cases htarget : l.target with
  | some q' =>
    by_cases hw : w = q'
    · subst hw
      exact htask.own hB hl hJ hrest hsound hst htarget
    · exact (hstep.works htarget).onward hw htarget hB hl hB' ((hstep.live_iff hQ htarget).mpr hl) htask
  | none =>
    cases hstep with
    | submit hloop => exact htask.submit hB hB' hl hloop rfl
    | waitCqe hloop => exact htask.waitCqe hB hB' hl hloop rfl
    | advance head i hloop hend => exact htask.advance hB hB' hl hloop hend rfl
    | waitError | visitExit => exact Or.inl (Or.inl (Option.some_ne_none _))
    | @visit u head i hloop hlt hh =>
      obtain ⟨q₀, hv⟩ := exists_visited hQ hloop hlt hh.extends
      by_cases hq : q = q₀
      · subst hq
        refine htask.handled hB hB' hl ?_ hv hh
        by_contra hzero
        obtain rfl : J = 0 := Nat.eq_zero_of_not_pos hzero
        exact hrest (Or.inr (by rw [Nat.zero_mul]; exact Nat.zero_le _))
      · have hlive := (hv.live_iff q).mpr (Or.inl ⟨hl, hq⟩)
        refine Task.turn hB' hlive (htask.others hB hl hv hh hq) rfl (congrFun hh.extends.status_eq w)
          (hh.extends.sqes_eq w (htask.lt_sqTail hl)) (Nat.le_of_eq hh.extends.sqHead_eq.symm) ?_ ?_
        · -- the walk has not come to it yet
          intro slot full hposted
          obtain rfl := htask.eq_of_posted ⟨slot, full, hposted⟩
          have hlt' : head + 1 ≤ slot :=
            hlive.2 slot full ((congrFun hh.extends.status_eq w).trans hposted)
          simp only [toSlot, hloop]
          omega
        · intro _ _
          have hle := hQ.cqTail_le
          refine Or.inr ?_
          simp only [toSubmit, hloop, hh.extends.sqHead_eq]
          omega
    | start | recvSome | sendSome | finish | fail | cancel | connect => cases htarget

end Onward

theorem ranking (hJ : J * cfg.msgSize.val ≤ (body cfg fd).length) :
    Machine.Ranking (machine cfg) (Sound cfg fd) (Done cfg fd J) Party.Acts
      (fun x s => ∃ a, Stage cfg fd J x s a) (Stage cfg fd J) :=
  .of_each (fun _ _ _ h hrest => h.enabled hJ hrest)
    fun _ _ _ _ _ h hrest hsound hst => h.onward hJ hrest hsound hst

-- ---------------------------------------------------------------------------
-- The result
-- ---------------------------------------------------------------------------

theorem base_preserved (cfg : Config) : (machine cfg).Preserves (Base cfg) :=
  fun _ _ _ h hstep => base_step h hstep

theorem base_initial (cfg : Config) (junk : Junk) : Base cfg (initial cfg junk) where
  inv := inv_reachable ⟨[], rfl⟩
  wait := nofun

/-- `main_loop` closes no connection. -/
theorem opened_preserved (cfg : Config) (fd : Nat) :
    (machine cfg).Preserves fun s => fd ∈ s.opened := by
  intro s l t h hst
  cases (step_cases hst).2 with
  | visit head i hloop hlt hh =>
    cases hh with
    | skip | accepted | header | msg => exact h
  | connect => exact List.mem_cons_of_mem _ h
  | submit | waitCqe | waitError | visitExit | advance | start | recvSome | sendSome | finish
  | fail | cancel => exact h

/-- A connection begins by waiting for the loop to come to its accept. -/
theorem Base.stage_opened {l : Label} (hB : Base cfg s) (hst : step cfg s l = some t)
    (hclosed : fd ∉ s.opened) (hopen : fd ∈ t.opened) : ∃ x a, Stage cfg fd J x t a := by
  have hB' := base_step hB hst
  cases (step_cases hst).2 with
  | visit head i hloop hlt hh =>
    cases hh with
    | skip | accepted | header | msg => exact absurd hopen hclosed
  | connect q p fd' lfd hrun hop hne hfresh =>
    rcases List.mem_cons.mp hopen with rfl | hmem
    · have hno := not_isPosted_running hrun
      have hlive : Live (openConn s q fd) q :=
        (live_post hB.inv.queues hno : Live (post s q (fd : Int)) q ↔ Live s q).mpr
          (live_of_not_posted (Nat.lt_of_lt_of_le (hB.inv.queues.submitted (by rw [hrun]; simp))
            hB.inv.queues.sq_le) hno)
      have hposted : (openConn s q fd).status q = .posted s.cqTail true := by
        show (post s q (fd : Int)).status q = _
        rw [post_self, hop]
        exact congrArg _ (decide_eq_true (Int.natCast_nonneg fd))
      have hres : ((openConn s q fd).cqes s.cqTail).res = fd := by
        show (Function.update s.cqes s.cqTail _ s.cqTail).res = fd
        rw [Function.update_self]
      exact ⟨_, _, hB', q, q, _, hlive, .accepted q lfd s.cqTail hop hposted hres, rfl, rfl⟩
    · exact absurd hmem hclosed
  | submit | waitCqe | waitError | visitExit | advance | start | recvSome | sendSome | finish
  | fail | cancel => exact absurd hopen hclosed

/-- **Every connection is served.** In every run of `main_loop` in which the process is not left
out for ever, nor the kernel's work on a request that has no bytes to move, and in which the
client on `fd` sends its stream and reads what it is sent, and its connection does not fail:
once it is accepted, there is a point at which the process has ended or every complete block
that its client sends is back, whatever the other connections do. -/
theorem mainLoop_serves (cfg : Config) (junk : Junk) (fd : Nat) (r : (machine cfg).Run)
    (hstart : r.state 0 = initial cfg junk) (hprogram : r.Just Party.program.Acts)
    (hkernel : ∀ q, r.JustUnless (fun s => ∃ fd', Transfers s q fd') (Party.request q).Acts)
    (hclient : ∀ q, r.Answers (fun s => Transfers s q fd) (Party.request q).Acts)
    (hsound : r.Always (Sound cfg fd)) (k : ℕ) (hopen : fd ∈ (r.state k).opened) :
    ∃ j, (r.state j).exit ≠ none ∨
      payload ((r.state j).conns fd).wire = (blocks cfg.msgSize.val (body cfg fd)).flatten := by
  have hbase : ∀ j, Base cfg (r.state j) :=
    fun j => (base_preserved cfg).reachable (hstart ▸ base_initial cfg junk) (r.reachable j)
  have hclosed : fd ∉ (r.state 0).opened := by
    rw [hstart]
    exact List.not_mem_nil
  obtain ⟨j, l, hlabel, hnot, hnow⟩ := r.exists_step (P := fun s => fd ∈ s.opened) hclosed hopen
  set J := (body cfg fd).length / cfg.msgSize.val with hJ
  have hle : J * cfg.msgSize.val ≤ (body cfg fd).length := Nat.div_mul_le_self _ _
  obtain ⟨x, a, hstage⟩ := (hbase j).stage_opened (J := J) (r.step j l hlabel) hnot hnow
  have hjust : ∀ a : Party, r.JustUnless
      (fun s => Done cfg fd J s ∨ ∀ x, ¬ Stage cfg fd J x s a) a.Acts := by
    rintro (_ | q)
    · exact hprogram.unless _
    · refine (hkernel q).of_answers (hclient q) fun s => ?_
      rintro ⟨fd', hmoves⟩
      by_cases hwaits : ¬ Done cfg fd J s ∧ ∃ x, Stage cfg fd J x s (.request q)
      · obtain ⟨hrest, x, hx⟩ := hwaits
        exact Or.inl (hx.transfers hle hrest hmoves ▸ hmoves)
      · refine Or.inr (or_iff_not_imp_left.mpr fun hrest x hx => ?_)
        exact hwaits ⟨hrest, x, hx⟩
  obtain ⟨m, hjm, hexit | hechoed⟩ := (ranking hle).eventually hsound hjust ⟨a, hstage⟩
  · exact ⟨m, Or.inl hexit⟩
  · refine ⟨m, Or.inr ?_⟩
    have hflow := (hbase m).inv.echo.conns fd (r.preserves (opened_preserved cfg fd) hjm hnow)
    have hall : (flow (r.state m) fd).echoed.length = J * cfg.msgSize.val := by
      have hhanded : (flow (r.state m) fd).handed.length ≤ J :=
        (Nat.le_div_iff_mul_le cfg.msgSize.pos).mpr hflow.handed_le
      exact Nat.le_antisymm (hflow.echoed_le.trans (Nat.mul_le_mul_right _ hhanded)) hechoed
    show (flow (r.state m) fd).echoed = _
    rw [hflow.echoed_eq, hall, flatten_blocks _ cfg.msgSize.pos]

/-- The kernel has nothing to do for request `q`: it is over, or an accept. -/
def Finished (s : State) (q : Nat) : Bool :=
  match s.status q, (s.sqes q).op with
  | .posted _ _, _ | .running _, .accept _ => true
  | _, _ => false

/-- The loop waits, and the kernel has nothing to do but to accept. -/
theorem not_acts_of_finished (hloop : s.loop = .wait) (hcq : s.cqHead = s.cqTail)
    (hall : ∀ q < s.sqHead, Finished s q = true) (hQ : Queues s) (a : Party) (l : Label)
    (hacts : a.Acts l) : step cfg s l = none := by
  have hfinished : ∀ {q}, s.status q ≠ .idle → Finished s q = true := fun hst =>
    hall _ (hQ.submitted hst)
  by_contra hsome
  obtain ⟨t, ht⟩ := Option.ne_none_iff_exists'.mp hsome
  have htarget := hacts.target
  cases (step_cases ht).2 with
  | submit h | visit _ _ h | visitExit _ _ _ h | advance _ _ h =>
    rw [hloop] at h
    cases h
  | waitCqe _ hlt =>
    rw [hcq] at hlt
    exact absurd hlt (Nat.lt_irrefl _)
  | start q hlt hidle =>
    have h := hall q hlt
    rw [Finished, hidle] at h
    cases h
  | recvSome q k p fd dst len hrun hop | sendSome q k p fd src len hrun hop =>
    have h := hfinished (q := q) (by rw [hrun]; simp)
    rw [Finished, hrun, hop] at h
    cases h
  | finish q p hrun hlen hop =>
    have h := hfinished (q := q) (by rw [hrun]; simp)
    rw [Finished, hrun] at h
    cases hq : (s.sqes q).op with
    | accept fd => exact hop fd hq
    | send | recv =>
      rw [hq] at h
      cases h
  | waitError | fail | cancel | connect =>
    cases a with
    | program => rcases hacts with h | h | h | h <;> cases h
    | request q => rcases hacts with h | h | ⟨k, h | h⟩ <;> cases h

/-- A client that sends one message and a byte, reads the reply and leaves. -/
def oneClient : List Label :=
  oneEcho ++ [.waitCqe, .visit, .advance,
    .submit, .start 6, .recvSome 6 1, .fail 6 1, .start 1, .sendSome 1 4, .finish 1, .start 2,
    .waitCqe, .visit, .visit, .advance, .submit]

theorem mainLoop_serves_oneClient :
    let cfg : Config := ⟨⟨2, by decide, by decide⟩, 3, fun _ => [0, 0, 7, 8, 9]⟩
    let junk : Junk := ⟨fun _ => List.replicate bufSize 0, fun _ => List.length_replicate⟩
    ∃ r : (machine cfg).Run, r.state 0 = initial cfg junk ∧ r.Always (Sound cfg 4) ∧
      ∃ j, (r.state j).exit ≠ none ∨ payload ((r.state j).conns 4).wire = [7, 8] := by
  intro cfg junk
  have hview : ((machine cfg).exec (initial cfg junk) oneClient).map (fun s =>
      decide (s.loop = .wait ∧ s.cqHead = s.cqTail ∧ s.opened = [4] ∧
        ∀ q < s.sqHead, Finished s q = true)) = some true := by decide
  have hsound : (machine cfg).Along (Sound cfg 4) (initial cfg junk) oneClient := by decide
  have hblocks : (blocks cfg.msgSize.val (body cfg 4)).flatten = [7, 8] := by decide
  obtain ⟨s, hs, heq⟩ := Option.map_eq_some_iff.mp hview
  obtain ⟨hloop, hcq, hopened, hfinished⟩ := of_decide_eq_true heq
  have hdisabled : ∀ (a : Party) (l : Label), a.Acts l → step cfg s l = none :=
    not_acts_of_finished hloop hcq hfinished (inv_reachable ⟨oneClient, hs⟩).queues
  obtain ⟨r, h0, hend, halways⟩ := Machine.exists_run hs
  refine ⟨r, h0, halways _ hsound, ?_⟩
  rw [← hblocks]
  have hjust : ∀ a : Party, r.Just a.Acts := fun a =>
    Machine.Run.just_of_disabled hend (hdisabled a)
  exact mainLoop_serves cfg junk 4 r h0 (hjust .program) (fun q => (hjust (.request q)).unless _)
    (fun q => (hjust (.request q)).answers _) (halways _ hsound) oneClient.length (by rw [hend _ (Nat.le_refl _), hopened]; simp)

end EchoServer.Sharded
