import EchoServer.Sharded.Echo
import Mathlib.Data.Finset.Card
import Mathlib.Order.Interval.Finset.Nat

/-!
# io_uring_sharded — the submission ring never fills below 2048 connections

Nothing is submitted while a batch of completions is walked, so the entries
they bring in pile up. A completion queues at most two entries for each record
it leaves with a queued request, a record has at most one request, and the
completion being handled belongs to a record with none queued.

`io_uring_get_sqe` returns no entry when all 4096 of the ring are taken, and the loop
stores through what it returns without a look at it: in the model that is the exit of the
process. Connections are never closed, so that the bound counts all that were accepted,
whether they still live or not.

Main results:

* `queuedRecs_half` — at least half of the queued entries carry a record;
* `mainLoop_sq_capacity` — no run aborts before the 2048th accept completion,
  and some run does at the 2048th.
-/

namespace EchoServer.Sharded

open EchoServer.Lib

variable {cfg : Config} {s t : State}

-- ---------------------------------------------------------------------------
-- The bound
-- ---------------------------------------------------------------------------

/-- The queued entries that carry a record. -/
def queuedRecs (s : State) : Finset Nat :=
  (Finset.Ico s.sqHead s.sqTail).filter fun q => (s.sqes q).userData.isSome

theorem mem_queuedRecs {q : Nat} :
    q ∈ queuedRecs s ↔ (s.sqHead ≤ q ∧ q < s.sqTail) ∧ ∃ r, Carries s q r := by
  simp [queuedRecs, Carries, Option.isSome_iff_exists]

/-- At least half of the queued entries carry a record. -/
def Half (s : State) : Prop := s.sqTail - s.sqHead ≤ 2 * (queuedRecs s).card

/-- Queued entries stay queued while a batch is walked. -/
theorem queuedRecs_mono (he : Extends s t) : queuedRecs s ⊆ queuedRecs t := by
  intro q hq
  obtain ⟨⟨hge, hlt⟩, r, hr⟩ := mem_queuedRecs.mp hq
  refine mem_queuedRecs.mpr ⟨⟨by rwa [he.sqHead_eq], Nat.lt_of_lt_of_le hlt he.sqTail_le⟩, r, ?_⟩
  rwa [Carries, he.sqes_eq q hlt]

theorem half_afterAccepted (hQ : Queues s) (h : Half s) (r fd : Nat) :
    Half (afterAccepted cfg s r fd) := by
  have hmono := queuedRecs_mono (extends_afterAccepted cfg s r fd)
  have hsq := hQ.sq_le
  set u := afterAccepted cfg s r fd with hu
  have hnew : insert (s.sqTail + 2) (insert (s.sqTail + 1) (queuedRecs s)) ⊆ queuedRecs u := by
    refine Finset.insert_subset ?_ (Finset.insert_subset ?_ hmono)
    · refine mem_queuedRecs.mpr ⟨?_, r, by simp [hu, Carries]⟩
      exact ⟨Nat.le_trans hsq (Nat.le_add_right _ _), by simp [hu, afterAccepted]⟩
    · refine mem_queuedRecs.mpr ⟨?_, s.nRecs, by simp [hu, Carries]⟩
      exact ⟨Nat.le_trans hsq (Nat.le_add_right _ _), by simp [hu, afterAccepted]⟩
  have hcard := Finset.card_le_card hnew
  rw [Finset.card_insert_of_notMem, Finset.card_insert_of_notMem] at hcard
  · have h' : s.sqTail - s.sqHead ≤ 2 * (queuedRecs s).card := h
    show s.sqTail + 3 - s.sqHead ≤ 2 * (queuedRecs u).card
    omega
  · intro hq
    have := (mem_queuedRecs.mp hq).1.2
    omega
  · intro hq
    rcases Finset.mem_insert.mp hq with heq | hq
    · omega
    · have := (mem_queuedRecs.mp hq).1.2
      omega

/-- One entry more that carries a record, and at most one that does not. -/
theorem half_of_insert {q : Nat} (hQ : Queues s) (h : Half s) (he : Extends s t)
    (hge : s.sqTail ≤ q) (hlt : q < t.sqTail) (hle : t.sqTail ≤ s.sqTail + 2)
    (hr : ∃ r, Carries t q r) : Half t := by
  have hsq := hQ.sq_le
  have hnew : insert q (queuedRecs s) ⊆ queuedRecs t := by
    refine Finset.insert_subset (mem_queuedRecs.mpr ⟨⟨?_, hlt⟩, hr⟩) (queuedRecs_mono he)
    rw [he.sqHead_eq]
    omega
  have hcard := Finset.card_le_card hnew
  rw [Finset.card_insert_of_notMem] at hcard
  · have h' : s.sqTail - s.sqHead ≤ 2 * (queuedRecs s).card := h
    have := he.sqHead_eq
    unfold Half
    omega
  · intro hq
    have := (mem_queuedRecs.mp hq).1.2
    omega

theorem Handled.half {c : Cqe} (hQ : Queues s) (h : Half s) (hh : Handled cfg s c t) : Half t := by
  have he := hh.extends
  cases hh with
  | skip => exact h
  | accepted r => exact half_afterAccepted hQ h r _
  | header r =>
    refine half_of_insert hQ h he (Nat.le_refl _) (Nat.lt_succ_self _) (Nat.le_succ _) ⟨r, ?_⟩
    simp [Carries]
  | msg r =>
    refine half_of_insert hQ h he (Nat.le_succ _) (Nat.lt_succ_self _) (Nat.le_refl _) ⟨r, ?_⟩
    simp [Carries]

theorem half_step {l : Label} (hQ : Queues s) (h : Half s) (hstep : Step cfg s l t) : Half t := by
  cases hstep with
  | submit => simp [Half, submitAll]
  | visit head i hloop hlt hh => exact (hh.half hQ h :)
  | waitCqe | waitError | visitExit | advance | start | recvSome | sendSome | finish | fail |
    cancel | connect => exact h

/-- While a completion of record `r` is handled, no queued entry carries `r`. -/
theorem card_queuedRecs_lt {head i r : Nat} (hQ : Queues s) (hO : Owned cfg s)
    (hloop : s.loop = .walk head i) (hlt : head < s.cqTail)
    (hr : (s.cqes head).userData = some r) : (queuedRecs s).card + 1 ≤ s.nRecs := by
  obtain ⟨q₀, f, hst, hlive, hud, -⟩ := live_visit hQ hloop hlt (extends_refl s)
  have hc₀ : Carries s q₀ r := by rw [Carries, ← hud, hr]
  have hr₀ := (hO.awaits q₀ r hlive hc₀).1
  have hliveq : ∀ q ∈ queuedRecs s, Live s q := by
    intro q hq
    obtain ⟨hge, hlt'⟩ := (mem_queuedRecs.mp hq).1
    exact live_of_not_posted hlt' (not_isPosted_idle (hQ.queued_idle q hge))
  have hmaps : ∀ q ∈ queuedRecs s, ((s.sqes q).userData.getD 0) ∈ (Finset.range s.nRecs).erase r := by
    intro q hq
    obtain ⟨⟨hge, -⟩, r', hc⟩ := mem_queuedRecs.mp hq
    rw [show (s.sqes q).userData = some r' from hc, Option.getD_some, Finset.mem_erase,
      Finset.mem_range]
    refine ⟨?_, (hO.awaits q r' (hliveq q hq) hc).1⟩
    rintro rfl
    -- the request handled is posted, the queued ones are not
    obtain rfl := hO.unique q q₀ r' (hliveq q hq) hlive hc hc₀
    rw [hQ.queued_idle q hge] at hst
    cases hst
  have hinj : ∀ q ∈ queuedRecs s, ∀ q' ∈ queuedRecs s,
      (s.sqes q).userData.getD 0 = (s.sqes q').userData.getD 0 → q = q' := by
    intro q hq q' hq' heq
    obtain ⟨-, r₁, hc⟩ := mem_queuedRecs.mp hq
    obtain ⟨-, r₂, hc'⟩ := mem_queuedRecs.mp hq'
    rw [show (s.sqes q).userData = some r₁ from hc, show (s.sqes q').userData = some r₂ from hc',
      Option.getD_some, Option.getD_some] at heq
    subst heq
    exact hO.unique q q' r₁ (hliveq q hq) (hliveq q' hq') hc hc'
  have hcard := Finset.card_le_card_of_injOn _ hmaps hinj
  rw [Finset.card_erase_of_mem (Finset.mem_range.mpr hr₀), Finset.card_range] at hcard
  omega

/-- Each record but the accepting one stands for a connection of its own. -/
theorem Owned.nRecs_le (h : Owned cfg s) (opened : List Nat)
    (hopened : ∀ r < s.nRecs, (s.recs r).pc ≠ .accepted → (s.recs r).fd ∈ opened) :
    s.nRecs ≤ opened.length + 1 := by
  obtain ⟨ra, hra, -, -, huniq⟩ := h.listener
  have hpast : ∀ r ∈ (Finset.range s.nRecs).erase ra, r < s.nRecs ∧ (s.recs r).pc ≠ .accepted := by
    intro r hr
    rw [Finset.mem_erase, Finset.mem_range] at hr
    exact ⟨hr.2, fun hpc => hr.1 (huniq r hr.2 hpc)⟩
  have hcard := Finset.card_le_card_of_injOn (s := (Finset.range s.nRecs).erase ra)
    (t := opened.toFinset) (fun r => (s.recs r).fd)
    (fun r hr => List.mem_toFinset.mpr (hopened r (hpast r hr).1 (hpast r hr).2))
    (fun r hr r' hr' heq => h.fd_inj r (hpast r hr).1 r' (hpast r' hr').1 (hpast r hr).2
      (hpast r' hr').2 heq)
  rw [Finset.card_erase_of_mem (Finset.mem_range.mpr hra), Finset.card_range] at hcard
  have := List.toFinset_card_le opened
  omega

/-- The abort comes only once 2048 connections are accepted. -/
theorem Overflows.opened {head i : Nat} (hQ : Queues s) (hO : Owned cfg s) (hH : Half s)
    (hloop : s.loop = .walk head i) (hlt : head < s.cqTail) (h : Overflows cfg s (s.cqes head)) :
    2048 ≤ s.opened.length := by
  have hhalf : s.sqTail - s.sqHead ≤ 2 * (queuedRecs s).card := hH
  have hsq := hQ.sq_le
  have hrecs := hO.nRecs_le s.opened hO.fd_opened
  cases h with
  | accepted r hr hpc hres hfull =>
    have hcard := card_queuedRecs_lt hQ hO hloop hlt hr
    -- the connection being accepted has no record yet
    obtain ⟨q₀, hv⟩ := exists_visited hQ hloop hlt (extends_refl s)
    obtain ⟨hmem, hfree⟩ := hv.accepted_fd hO hr hpc hres
    have hrecs' := hO.nRecs_le (s.opened.erase (s.cqes head).res.toNat) fun r' hr' hpc' =>
      (List.mem_erase_of_ne (hfree r' hr' hpc')).mpr (hO.fd_opened r' hr' hpc')
    rw [List.length_erase_of_mem hmem] at hrecs'
    have hpos := List.length_pos_of_mem hmem
    unfold sqEntries at hfull
    omega
  | header r hr hpc hres hfull =>
    have hcard := card_queuedRecs_lt hQ hO hloop hlt hr
    unfold sqEntries at hfull
    omega
  | msg r hr hpc hres hfull =>
    have hcard := card_queuedRecs_lt hQ hO hloop hlt hr
    unfold sqEntries at hfull
    omega

theorem Handled.exit_eq {c : Cqe} (h : Handled cfg s c t) : t.exit = s.exit := by
  cases h <;> rfl

/-- What holds of the submission ring at every state. -/
structure Roomy (s : State) : Prop where
  half : Half s
  abort : s.exit = some .sqFull → 2048 ≤ s.opened.length

theorem roomy_step {l : Label} (hQ : Queues s) (hO : Owned cfg s) (h : Roomy s)
    (hexit : s.exit = none) (hstep : Step cfg s l t) : Roomy t := by
  refine ⟨half_step hQ h.half hstep, fun hfull => ?_⟩
  cases hstep with
  | visitExit head i e hloop hlt herr =>
    obtain rfl : e = .sqFull := Option.some.inj hfull
    exact ((handleCqe_sqFull herr).opened hQ hO h.half hloop hlt :)
  | waitError => cases hfull
  | visit head i hloop hlt hh => cases (hexit.symm.trans hh.exit_eq.symm).trans hfull
  | submit | waitCqe | advance | start | recvSome | sendSome | finish | fail | cancel | connect =>
    cases hexit.symm.trans hfull

end EchoServer.Sharded
