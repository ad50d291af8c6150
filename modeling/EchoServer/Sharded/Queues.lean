import EchoServer.Sharded.Steps

/-!
# io_uring_sharded — the two queues

The invariant that ties the submission table, the kernel's progress on it and
the completion table together, whatever the entries are about:

* every posted completion belongs to exactly one request and carries its user
  data, and says whether the request completed in full;
* nothing has happened to an entry that is not submitted;
* a linked entry is a `send` and the next one the `recv` behind it, both in the
  same submission, and nothing happens to the `recv` before the `send` is over;
* the count `i` of a batch is the number of completions the walk has passed.

`queues_step` is the step lemma. `Live` names the requests whose completion the loop has not
handled yet.
-/

namespace EchoServer.Sharded

open EchoServer.Lib

variable {cfg : Config} {s t : State}

/-- The completions below this one have been handled. -/
def seen (s : State) : Nat :=
  match s.loop with
  | .walk head _ => head
  | _ => s.cqHead

/-- Request `q` has a completion. -/
def IsPosted (s : State) (q : Nat) : Prop := ∃ slot full, s.status q = .posted slot full

/-- Request `q` is queued, in flight, or completed and not yet handled. -/
def Live (s : State) (q : Nat) : Prop :=
  q < s.sqTail ∧ ∀ slot full, s.status q = .posted slot full → seen s ≤ slot

/-- A linked entry and the one behind it. -/
def Pair (s : State) (q : Nat) : Prop :=
  ∃ fd src len r, s.sqes q = ⟨.send fd src len, none, true⟩ ∧
    s.sqes (q + 1) = ⟨.recv fd src len, some r, false⟩

/-- What holds of the two rings:

* the heads are not beyond the tails, and the walk is where its counter says;
* a queued entry is idle, and a posted one lies in a slot of its own in the completion ring,
  with the request's user data and its result;
* a linked entry is the `send` of a pair, whose `recv` is queued and submitted with it, and
  which does not start before the `send` is posted. -/
structure Queues (s : State) : Prop where
  sq_le : s.sqHead ≤ s.sqTail
  cq_le : s.cqHead ≤ seen s ∧ seen s ≤ s.cqTail
  walk_eq : ∀ head i, s.loop = .walk head i → head = s.cqHead + i
  queued_idle : ∀ q, s.sqHead ≤ q → s.status q = .idle
  posted : ∀ q slot full, s.status q = .posted slot full → slot < s.cqTail ∧
    (s.cqes slot).userData = (s.sqes q).userData ∧
    full = decide (((s.sqes q).op.len : Int) ≤ (s.cqes slot).res)
  slot_inj : ∀ q q' slot f f', s.status q = .posted slot f → s.status q' = .posted slot f' → q = q'
  slot_surj : ∀ slot < s.cqTail, ∃ q f, s.status q = .posted slot f
  chain : ∀ q < s.sqTail, (s.sqes q).link = true →
    Pair s q ∧ q + 1 < s.sqTail ∧ (q < s.sqHead → q + 1 < s.sqHead)
  follows_eq : ∀ q < s.sqHead, s.follows q = (decide (0 < q) && (s.sqes (q - 1)).link)
  behind : ∀ q < s.sqTail, (s.sqes q).link = true → ¬ IsPosted s q → s.status (q + 1) = .idle

-- ---------------------------------------------------------------------------
-- Consequences
-- ---------------------------------------------------------------------------

/-- The kernel has touched only what was submitted. -/
theorem Queues.submitted {q : Nat} (h : Queues s) (hq : s.status q ≠ .idle) : q < s.sqHead := by
  by_contra hge
  exact hq (h.queued_idle q (Nat.not_lt.mp hge))

/-- A request on which the kernel has begun does not wait for the one before it. -/
theorem Queues.pred_posted {q : Nat} (h : Queues s) (hq : s.status (q + 1) ≠ .idle)
    (hlink : (s.sqes q).link = true) : IsPosted s q := by
  have hlt := h.submitted hq
  by_contra hno
  exact hq (h.behind q (by have := h.sq_le; omega) hlink hno)

/-- A request behind a link is started when the one before it has moved all its bytes. -/
theorem linkReady_posted {q : Nat} (hr : linkReady s q = true) (hf : s.follows q = true) :
    ∃ slot, s.status (q - 1) = .posted slot true := by
  unfold linkReady at hr
  rw [hf, Bool.not_true, Bool.false_or] at hr
  split at hr
  · rename_i slot full hst
    subst hr
    exact ⟨slot, hst⟩
  · cases hr

/-- It is cancelled when the one before it has failed or come up short. -/
theorem linkBroken_posted {q : Nat} (hb : linkBroken s q = true) :
    s.follows q = true ∧ ∃ slot, s.status (q - 1) = .posted slot false := by
  unfold linkBroken at hb
  rw [Bool.and_eq_true] at hb
  refine ⟨hb.1, ?_⟩
  have hb2 := hb.2
  split at hb2
  · rename_i slot full hst
    rw [Bool.not_eq_true'] at hb2
    subst hb2
    exact ⟨slot, hst⟩
  · cases hb2

/-- Entries of a pair are submitted together, so that the second one knows of the link. -/
theorem Queues.follows_succ {q : Nat} (h : Queues s) (hq : q + 1 < s.sqHead)
    (hlink : (s.sqes q).link = true) : s.follows (q + 1) = true := by
  simp [h.follows_eq (q + 1) hq, hlink]

theorem not_isPosted_idle {q : Nat} (h : s.status q = .idle) : ¬ IsPosted s q := by
  rintro ⟨slot, full, h'⟩
  rw [h] at h'
  cases h'

theorem not_isPosted_running {q p : Nat} (h : s.status q = .running p) : ¬ IsPosted s q := by
  rintro ⟨slot, full, h'⟩
  rw [h] at h'
  cases h'

theorem live_of_not_posted {q : Nat} (hq : q < s.sqTail) (h : ¬ IsPosted s q) : Live s q :=
  ⟨hq, fun slot full hst => absurd ⟨slot, full, hst⟩ h⟩

-- ---------------------------------------------------------------------------
-- Kernel steps
-- ---------------------------------------------------------------------------

/-- The kernel changes what it has done with one submitted request. -/
theorem Queues.setStatus {q : Nat} {st : Status} (h : Queues s) (hq : q < s.sqHead)
    (hold : ¬ IsPosted s q) (hnew : ∀ slot full, st ≠ .posted slot full)
    (hpred : ∀ p, p + 1 = q → (s.sqes p).link = true → IsPosted s p) {t : State}
    (hloop : t.loop = s.loop) (hsh : t.sqHead = s.sqHead) (hst : t.sqTail = s.sqTail)
    (hsqes : t.sqes = s.sqes) (hfol : t.follows = s.follows) (hcqes : t.cqes = s.cqes)
    (hch : t.cqHead = s.cqHead) (hct : t.cqTail = s.cqTail)
    (hstatus : t.status = Function.update s.status q st) : Queues t := by
  have hseen : seen t = seen s := by simp [seen, hloop, hch]
  have hother : ∀ {q' slot full}, t.status q' = .posted slot full →
      s.status q' = .posted slot full := by
    intro q' slot full h'
    rw [hstatus] at h'
    by_cases hqq : q' = q
    · subst hqq
      rw [Function.update_self] at h'
      exact absurd h' (hnew slot full)
    · rwa [Function.update_of_ne hqq] at h'
  constructor
  · rw [hsh, hst]; exact h.sq_le
  · rw [hseen, hch, hct]; exact h.cq_le
  · rw [hloop, hch]; exact h.walk_eq
  · intro q' hq'
    rw [hsh] at hq'
    rw [hstatus, Function.update_of_ne (by omega)]
    exact h.queued_idle q' hq'
  · intro q' slot full h'
    rw [hct, hcqes, hsqes]
    exact h.posted q' slot full (hother h')
  · intro q₁ q₂ slot f f' h₁ h₂
    exact h.slot_inj q₁ q₂ slot f f' (hother h₁) (hother h₂)
  · intro slot hslot
    rw [hct] at hslot
    obtain ⟨q', f, hq'⟩ := h.slot_surj slot hslot
    refine ⟨q', f, ?_⟩
    rw [hstatus, Function.update_of_ne, hq']
    rintro rfl
    exact hold ⟨slot, f, hq'⟩
  · intro q' hq' hlink
    rw [hst] at hq'
    rw [hsqes] at hlink
    simpa only [Pair, hsqes, hst, hsh] using h.chain q' hq' hlink
  · intro q' hq'
    rw [hsh] at hq'
    rw [hfol, hsqes]
    exact h.follows_eq q' hq'
  · intro q' hq' hlink hno
    rw [hst] at hq'
    rw [hsqes] at hlink
    have hno' : ¬ IsPosted s q' := by
      rintro ⟨slot, full, h'⟩
      by_cases hqq : q' = q
      · subst hqq
        exact hold ⟨slot, full, h'⟩
      · exact hno ⟨slot, full, by rw [hstatus, Function.update_of_ne hqq, h']⟩
    have hne : q' + 1 ≠ q := fun heq => hno' (hpred q' heq hlink)
    rw [hstatus, Function.update_of_ne hne]
    exact h.behind q' hq' hlink hno'

/-- The kernel posts the completion of a submitted request. -/
theorem Queues.post {q : Nat} {res : Int} (h : Queues s) (hq : q < s.sqHead)
    (hold : ¬ IsPosted s q)
    (hpred : ∀ p, p + 1 = q → (s.sqes p).link = true → IsPosted s p) :
    Queues (post s q res) := by
  have hother : ∀ {q' slot full}, q' ≠ q →
      ((EchoServer.Sharded.post s q res).status q' = .posted slot full ↔
        s.status q' = .posted slot full) := by
    intro q' slot full hne
    simp [EchoServer.Sharded.post, Function.update_of_ne hne]
  have hself : (EchoServer.Sharded.post s q res).status q =
      .posted s.cqTail (decide (((s.sqes q).op.len : Int) ≤ res)) := by
    simp [EchoServer.Sharded.post]
  -- the slot at the tail is new, so no other request has it
  constructor
  · exact h.sq_le
  · exact ⟨h.cq_le.1, Nat.le_succ_of_le h.cq_le.2⟩
  · exact h.walk_eq
  · intro q' hq'
    have hne : q' ≠ q := by
      rintro rfl
      exact absurd hq (Nat.not_lt.mpr hq')
    simpa [EchoServer.Sharded.post, Function.update_of_ne hne] using h.queued_idle q' hq'
  · intro q' slot full h'
    by_cases hqq : q' = q
    · subst hqq
      rw [hself] at h'
      cases h'
      exact ⟨Nat.lt_succ_self _, by simp [EchoServer.Sharded.post],
        by simp [EchoServer.Sharded.post]⟩
    · obtain ⟨hlt, hud, hfull⟩ := h.posted q' slot full ((hother hqq).mp h')
      have hne : slot ≠ s.cqTail := Nat.ne_of_lt hlt
      simp only [EchoServer.Sharded.post, Function.update_of_ne hne]
      exact ⟨Nat.lt_succ_of_lt hlt, hud, hfull⟩
  · intro q₁ q₂ slot f f' h₁ h₂
    by_cases h1 : q₁ = q <;> by_cases h2 : q₂ = q
    · rw [h1, h2]
    · subst h1
      rw [hself] at h₁
      cases h₁
      have := (h.posted q₂ _ _ ((hother h2).mp h₂)).1
      omega
    · subst h2
      rw [hself] at h₂
      cases h₂
      have := (h.posted q₁ _ _ ((hother h1).mp h₁)).1
      omega
    · exact h.slot_inj q₁ q₂ slot f f' ((hother h1).mp h₁) ((hother h2).mp h₂)
  · intro slot hslot
    rcases Nat.lt_succ_iff_lt_or_eq.mp hslot with hlt | rfl
    · obtain ⟨q', f, hq'⟩ := h.slot_surj slot hlt
      refine ⟨q', f, (hother ?_).mpr hq'⟩
      rintro rfl
      exact hold ⟨slot, f, hq'⟩
    · exact ⟨q, _, hself⟩
  · exact h.chain
  · exact h.follows_eq
  · intro q' hq' hlink hno
    have hne' : q' ≠ q := by
      rintro rfl
      exact hno ⟨_, _, hself⟩
    have hno' : ¬ IsPosted s q' := by
      rintro ⟨slot, full, h'⟩
      exact hno ⟨slot, full, (hother hne').mpr h'⟩
    have hne : q' + 1 ≠ q := fun heq => hno' (hpred q' heq hlink)
    have hidle := h.behind q' hq' hlink hno'
    simpa [EchoServer.Sharded.post, Function.update_of_ne hne] using hidle

-- ---------------------------------------------------------------------------
-- Program steps
-- ---------------------------------------------------------------------------

/-- The program queues entries and touches nothing else of the rings; a linked
entry is queued together with the one behind it. -/
structure Extends (s t : State) : Prop where
  loop_eq : t.loop = s.loop
  sqHead_eq : t.sqHead = s.sqHead
  sqTail_le : s.sqTail ≤ t.sqTail
  sqes_eq : ∀ q < s.sqTail, t.sqes q = s.sqes q
  follows_eq : t.follows = s.follows
  status_eq : t.status = s.status
  cqes_eq : t.cqes = s.cqes
  cqHead_eq : t.cqHead = s.cqHead
  cqTail_eq : t.cqTail = s.cqTail
  chain : ∀ q, s.sqTail ≤ q → q < t.sqTail → (t.sqes q).link = true →
    Pair t q ∧ q + 1 < t.sqTail

/-- Queuing keeps all of it: the loop only appends, and appends pairs whole. -/
theorem Queues.extends (h : Queues s) (he : Extends s t) : Queues t := by
  have hsq := h.sq_le
  have hseen : seen t = seen s := by simp [seen, he.loop_eq, he.cqHead_eq]
  have hposted : ∀ {q}, IsPosted t q ↔ IsPosted s q := by simp [IsPosted, he.status_eq]
  constructor
  · rw [he.sqHead_eq]; exact Nat.le_trans hsq he.sqTail_le
  · rw [hseen, he.cqHead_eq, he.cqTail_eq]; exact h.cq_le
  · rw [he.loop_eq, he.cqHead_eq]; exact h.walk_eq
  · rw [he.sqHead_eq, he.status_eq]; exact h.queued_idle
  · intro q slot full hq
    rw [he.status_eq] at hq
    have hlt := h.submitted (q := q) (by rw [hq]; simp)
    rw [he.cqTail_eq, he.cqes_eq, he.sqes_eq q (by omega)]
    exact h.posted q slot full hq
  · rw [he.status_eq]; exact h.slot_inj
  · rw [he.cqTail_eq, he.status_eq]; exact h.slot_surj
  · intro q hq hlink
    by_cases hold : q < s.sqTail
    · rw [he.sqes_eq q hold] at hlink
      obtain ⟨⟨fd, src, len, r, hs₁, hs₂⟩, hlt, hsub⟩ := h.chain q hold hlink
      refine ⟨⟨fd, src, len, r, ?_, ?_⟩, Nat.lt_of_lt_of_le hlt he.sqTail_le, ?_⟩
      · rw [he.sqes_eq q hold, hs₁]
      · rw [he.sqes_eq (q + 1) hlt, hs₂]
      · rwa [he.sqHead_eq]
    · obtain ⟨hpair, hlt⟩ := he.chain q (by omega) hq hlink
      refine ⟨hpair, hlt, fun hlt' => ?_⟩
      rw [he.sqHead_eq] at hlt'
      omega
  · intro q hq
    rw [he.sqHead_eq] at hq
    rw [he.follows_eq, he.sqes_eq (q - 1) (by omega)]
    exact h.follows_eq q hq
  · intro q hq hlink hno
    rw [hposted] at hno
    rw [he.status_eq]
    by_cases hold : q < s.sqTail
    · rw [he.sqes_eq q hold] at hlink
      exact h.behind q hold hlink hno
    · exact h.queued_idle (q + 1) (by omega)

theorem extends_refl (s : State) : Extends s s where
  loop_eq := rfl
  sqHead_eq := rfl
  sqTail_le := Nat.le_refl _
  sqes_eq _ _ := rfl
  follows_eq := rfl
  status_eq := rfl
  cqes_eq := rfl
  cqHead_eq := rfl
  cqTail_eq := rfl
  chain _ h₁ h₂ := absurd h₂ (Nat.not_lt.mpr h₁)

theorem extends_afterAccepted (cfg : Config) (s : State) (r fd : Nat) : Extends s (afterAccepted cfg s r fd) where
  loop_eq := rfl
  sqHead_eq := rfl
  sqTail_le := Nat.le_add_right _ _
  sqes_eq q hq := by
    simp only [afterAccepted]
    rw [Function.update_of_ne (by omega), Function.update_of_ne (by omega),
      Function.update_of_ne (by omega)]
  follows_eq := rfl
  status_eq := rfl
  cqes_eq := rfl
  cqHead_eq := rfl
  cqTail_eq := rfl
  chain q h₁ h₂ hlink := by
    rcases afterAccepted_queued h₁ h₂ with rfl | rfl | rfl <;> simp at hlink

theorem extends_afterHeader (cfg : Config) (s : State) (r : Nat) : Extends s (afterHeader cfg s r) where
  loop_eq := rfl
  sqHead_eq := rfl
  sqTail_le := Nat.le_succ _
  sqes_eq q hq := by
    simp only [afterHeader]
    rw [Function.update_of_ne (by omega)]
  follows_eq := rfl
  status_eq := rfl
  cqes_eq := rfl
  cqHead_eq := rfl
  cqTail_eq := rfl
  chain q h₁ h₂ hlink := by
    obtain rfl := afterHeader_queued h₁ h₂
    simp at hlink

theorem extends_afterMsg (cfg : Config) (s : State) (r : Nat) : Extends s (afterMsg cfg s r) where
  loop_eq := rfl
  sqHead_eq := rfl
  sqTail_le := Nat.le_add_right _ _
  sqes_eq q hq := by
    simp only [afterMsg]
    rw [Function.update_of_ne (by omega), Function.update_of_ne (by omega)]
  follows_eq := rfl
  status_eq := rfl
  cqes_eq := rfl
  cqHead_eq := rfl
  cqTail_eq := rfl
  chain q h₁ h₂ hlink := by
    rcases afterMsg_queued h₁ h₂ with rfl | rfl
    · exact ⟨⟨_, _, _, r, afterMsg_sqes_send, afterMsg_sqes_recv⟩, Nat.lt_succ_self _⟩
    · simp at hlink

/-- Whatever the loop body does with a completion only appends to the submission ring. -/
theorem Handled.extends {c : Cqe} (h : Handled cfg s c t) : Extends s t := by
  cases h with
  | skip => exact extends_refl s
  | accepted r => exact extends_afterAccepted cfg s r _
  | header r => exact extends_afterHeader cfg s r
  | msg r => exact extends_afterMsg cfg s r

/-- `io_uring_submit` hands over all that is queued; a pair is never cut in two, as both its
entries are there. -/
theorem Queues.submitAll (h : Queues s) (hloop : s.loop = .submit) :
    Queues (submitAll s) := by
  have hsq := h.sq_le
  have hseen : seen (EchoServer.Sharded.submitAll s) = seen s := by
    simp [seen, EchoServer.Sharded.submitAll, hloop]
  constructor
  · exact Nat.le_refl _
  · rw [hseen]; exact h.cq_le
  · intro head i hw
    simp [EchoServer.Sharded.submitAll] at hw
  · intro q hq
    exact h.queued_idle q (Nat.le_trans hsq hq)
  · exact h.posted
  · exact h.slot_inj
  · exact h.slot_surj
  · intro q hq hlink
    obtain ⟨hpair, hlt, -⟩ := h.chain q hq hlink
    exact ⟨hpair, hlt, fun _ => hlt⟩
  · intro q hq
    simp only [EchoServer.Sharded.submitAll]
    split
    · -- the first entry of a submission follows nothing: had it a linked one
      -- before it, the two would be in the same submission
      rename_i hin
      rcases Nat.lt_or_ge s.sqHead q with hlt | hge
      · simp [hlt, Nat.zero_lt_of_lt hlt]
      · obtain rfl : q = s.sqHead := by omega
        rw [decide_eq_false (Nat.lt_irrefl _), Bool.false_and, eq_comm, Bool.and_eq_false_iff]
        by_cases hz : 0 < s.sqHead
        · refine Or.inr (Bool.eq_false_iff.mpr fun hlink => ?_)
          have := (h.chain (s.sqHead - 1) (by omega) hlink).2.2 (by omega)
          omega
        · exact Or.inl (decide_eq_false hz)
    · rename_i hout
      exact h.follows_eq q (by simp only [EchoServer.Sharded.submitAll] at hq; omega)
  · exact h.behind

-- ---------------------------------------------------------------------------
-- The step and run lemmas
-- ---------------------------------------------------------------------------

theorem seen_walk {head i : Nat} (hloop : s.loop = .walk head i) : seen s = head := by
  simp [seen, hloop]

/-- What a step that changes only the status of one request needs to know. -/
theorem Queues.pred_of_idle {q : Nat} (h : Queues s) (hq : q < s.sqHead)
    (hready : linkReady s q = true) :
    ∀ p, p + 1 = q → (s.sqes p).link = true → IsPosted s p := by
  rintro p rfl hlink
  obtain ⟨slot, hst⟩ := linkReady_posted hready (h.follows_succ hq hlink)
  exact ⟨slot, true, hst⟩

/-- A request in progress behind a link has its predecessor posted. -/
theorem Queues.pred_of_running {q p : Nat} (h : Queues s) (hst : s.status q = .running p) :
    ∀ p', p' + 1 = q → (s.sqes p').link = true → IsPosted s p' := by
  rintro p' rfl hlink
  exact h.pred_posted (by rw [hst]; simp) hlink

/-- Every step of the loop and of the kernel keeps the order of the rings. This needs nothing
of what the requests are for. -/
theorem queues_step {l : Label} (h : Queues s) (hstep : Step cfg s l t) : Queues t := by
  cases hstep with
  | submit hloop => exact h.submitAll hloop
  | waitCqe hloop hlt =>
    have hseen : seen s = s.cqHead := by simp [seen, hloop]
    refine ⟨h.sq_le, ⟨Nat.le_refl _, Nat.le_of_lt hlt⟩, ?_, h.queued_idle, h.posted, h.slot_inj,
      h.slot_surj, h.chain, h.follows_eq, h.behind⟩
    intro head i hw
    cases hw
    simp
  | waitError =>
    exact ⟨h.sq_le, h.cq_le, h.walk_eq, h.queued_idle, h.posted, h.slot_inj, h.slot_surj, h.chain,
      h.follows_eq, h.behind⟩
  | @visit u head i hloop hlt hh =>
    -- `handle_cqe` extends the submission queue; then the walk moves on by one
    have hu := h.extends hh.extends
    have huloop : u.loop = .walk head i := hh.extends.loop_eq.trans hloop
    have hseen := seen_walk huloop
    have hw := hu.walk_eq head i huloop
    have hcq := hu.cq_le
    have hlt' : head < u.cqTail := by rwa [hh.extends.cqTail_eq]
    refine ⟨hu.sq_le, ⟨?_, hlt'⟩, ?_, hu.queued_idle, hu.posted, hu.slot_inj, hu.slot_surj,
      hu.chain, hu.follows_eq, hu.behind⟩
    · simp only [seen]
      omega
    · intro head' i' hw'
      cases hw'
      simp only
      omega
  | visitExit =>
    exact ⟨h.sq_le, h.cq_le, h.walk_eq, h.queued_idle, h.posted, h.slot_inj, h.slot_surj, h.chain,
      h.follows_eq, h.behind⟩
  | advance head i hloop heq =>
    have hw := h.walk_eq head i hloop
    refine ⟨h.sq_le, ⟨Nat.le_refl _, ?_⟩, ?_, h.queued_idle, h.posted, h.slot_inj,
      h.slot_surj, h.chain, h.follows_eq, h.behind⟩
    · simp only [seen]
      omega
    · intro head' i' hw'
      cases hw'
  | start q hlt hidle hready =>
    exact h.setStatus hlt (not_isPosted_idle hidle) (by simp) (h.pred_of_idle hlt hready)
      rfl rfl rfl rfl rfl rfl rfl rfl rfl
  | recvSome q k p fd dst len hst hop hlen htaken =>
    exact h.setStatus (h.submitted (by rw [hst]; simp)) (not_isPosted_running hst) (by simp)
      (h.pred_of_running hst) rfl rfl rfl rfl rfl rfl rfl rfl rfl
  | sendSome q k p fd src len hst hop hlen =>
    exact h.setStatus (h.submitted (by rw [hst]; simp)) (not_isPosted_running hst) (by simp)
      (h.pred_of_running hst) rfl rfl rfl rfl rfl rfl rfl rfl rfl
  | finish q p hst hlen hop =>
    exact h.post (h.submitted (by rw [hst]; simp)) (not_isPosted_running hst)
      (h.pred_of_running hst)
  | fail q p res hst hlt =>
    exact h.post (h.submitted (by rw [hst]; simp)) (not_isPosted_running hst)
      (h.pred_of_running hst)
  | cancel q hlt hidle hbroken =>
    refine h.post hlt (not_isPosted_idle hidle) ?_
    rintro p rfl hlink
    obtain ⟨-, slot, hst⟩ := linkBroken_posted hbroken
    exact ⟨slot, false, hst⟩
  | connect q p fd lfd hst hop hne hfresh =>
    have hp : Queues (post s q (fd : Int)) := h.post (h.submitted (by rw [hst]; simp))
      (not_isPosted_running hst) (h.pred_of_running hst)
    exact ⟨hp.sq_le, hp.cq_le, hp.walk_eq, hp.queued_idle, hp.posted, hp.slot_inj, hp.slot_surj,
      hp.chain, hp.follows_eq, hp.behind⟩

theorem queues_preserved (cfg : Config) : (machine cfg).Preserves Queues :=
  fun _ _ _ h hstep => queues_step h (step_cases hstep).2

theorem queues_initial (cfg : Config) (junk : Junk) : Queues (initial cfg junk) := by
  constructor <;> simp [initial, seen, Pair, IsPosted]

end EchoServer.Sharded
