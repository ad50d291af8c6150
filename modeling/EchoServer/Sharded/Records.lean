import EchoServer.Sharded.Ownership

/-!
# io_uring_sharded — what becomes of the records

A threadlet that is not waiting for a request has exited: its last request came up short and
the loop passed its completion with `continue`. `Settled` says that there is no third case,
and that nothing is queued for a threadlet that has exited; the batches are counted apart.

* `Step.quiet` — what a step that handles no completion leaves as it is;
* `settled_reachable` — every record is waiting or retired, and never both;
* `batch_advance` — a batch advances the completion queue by what it has visited;
* `record_ownership` — who holds what, in every state of `main_loop`.
-/

namespace EchoServer.Sharded

open EchoServer.Lib

variable {cfg : Config} {s t u : State} {q q₀ r r' head i : Nat}

-- ---------------------------------------------------------------------------
-- Records that have retired
-- ---------------------------------------------------------------------------

/-- Request `q` came up short, and the loop has passed its completion. -/
def Failed (s : State) (q : Nat) : Prop := ∃ slot < seen s, s.status q = .posted slot false

/-- The threadlet has exited. -/
def Retired (s : State) (r : Nat) : Prop := ∃ q, Failed s q ∧ Carries s q r

theorem Failed.lt (hQ : Queues s) (h : Failed s q) : q < s.sqTail := by
  obtain ⟨slot, -, hst⟩ := h
  exact Nat.lt_of_lt_of_le (hQ.submitted (by rw [hst]; simp)) hQ.sq_le

/-- A kernel step that posts nothing. -/
theorem failed_setStatus {st : Status} (hold : ¬ IsPosted s q)
    (hnew : ∀ slot full, st ≠ .posted slot full) (hseen : seen t = seen s)
    (hstatus : t.status = Function.update s.status q st) : Failed t q₀ ↔ Failed s q₀ := by
  unfold Failed
  rw [hseen, hstatus]
  refine exists_congr fun slot => and_congr_right fun _ => ?_
  by_cases hqq : q₀ = q
  · subst hqq
    rw [Function.update_self]
    exact iff_of_false (hnew slot false) fun h => hold ⟨slot, false, h⟩
  · rw [Function.update_of_ne hqq]

/-- A completion just posted is one the loop has not come to. -/
theorem failed_post {res : Int} (hQ : Queues s) (hold : ¬ IsPosted s q) :
    Failed (post s q res) q₀ ↔ Failed s q₀ := by
  have hcq := hQ.cq_le.2
  unfold Failed
  refine exists_congr fun slot => and_congr_right fun hlt => ?_
  by_cases hqq : q₀ = q
  · subst hqq
    simp only [post, Function.update_self, Status.posted.injEq]
    refine iff_of_false (fun h => ?_) fun h => hold ⟨slot, false, h⟩
    have hlt' : slot < seen s := hlt
    omega
  · simp only [post, Function.update_of_ne hqq]

-- ---------------------------------------------------------------------------
-- What a step does to the requests
-- ---------------------------------------------------------------------------

/-- No entry is queued, and no completion handled. -/
structure Quiet (s t : State) : Prop where
  sqes_eq : t.sqes = s.sqes
  sqTail_eq : t.sqTail = s.sqTail
  nRecs_eq : t.nRecs = s.nRecs
  live_iff : ∀ q, Live t q ↔ Live s q
  failed_iff : ∀ q, Failed t q ↔ Failed s q

theorem Quiet.of_seen (hseen : seen t = seen s) (hsqes : t.sqes = s.sqes)
    (hst : t.sqTail = s.sqTail) (hn : t.nRecs = s.nRecs) (hstatus : t.status = s.status) :
    Quiet s t where
  sqes_eq := hsqes
  sqTail_eq := hst
  nRecs_eq := hn
  live_iff q := by rw [Live, Live, hst, hstatus, hseen]
  failed_iff q := by rw [Failed, Failed, hstatus, hseen]

theorem quiet_setStatus {st : Status} (hold : ¬ IsPosted s q)
    (hnew : ∀ slot full, st ≠ .posted slot full) (hseen : seen t = seen s)
    (hsqes : t.sqes = s.sqes) (hst : t.sqTail = s.sqTail) (hn : t.nRecs = s.nRecs)
    (hstatus : t.status = Function.update s.status q st) : Quiet s t where
  sqes_eq := hsqes
  sqTail_eq := hst
  nRecs_eq := hn
  live_iff _ := live_setStatus hold hnew hst hseen hstatus
  failed_iff _ := failed_setStatus hold hnew hseen hstatus

theorem quiet_post {res : Int} (hQ : Queues s) (hold : ¬ IsPosted s q) : Quiet s (post s q res) where
  sqes_eq := rfl
  sqTail_eq := rfl
  nRecs_eq := rfl
  live_iff _ := live_post hQ hold
  failed_iff _ := failed_post hQ hold

/-- Every step but the visit of a completion leaves the requests as they are. -/
theorem Step.quiet {l : Label} (hQ : Queues s) (hstep : Step cfg s l t) :
    Quiet s t ∨ ∃ u head i, s.loop = .walk head i ∧ head < s.cqTail ∧
      Handled cfg s (s.cqes head) u ∧ t = { u with loop := .walk (head + 1) (i + 1) } := by
  cases hstep with
  | submit hloop => exact Or.inl (.of_seen (by simp [seen, submitAll, hloop]) rfl rfl rfl rfl)
  | waitCqe hloop hlt => exact Or.inl (.of_seen (by simp [seen, hloop]) rfl rfl rfl rfl)
  | waitError => exact Or.inl (.of_seen rfl rfl rfl rfl rfl)
  | @visit u head i hloop hlt hh => exact Or.inr ⟨u, head, i, hloop, hlt, hh, rfl⟩
  | visitExit => exact Or.inl (.of_seen rfl rfl rfl rfl rfl)
  | advance head i hloop heq =>
    have hw := hQ.walk_eq head i hloop
    exact Or.inl (.of_seen (by rw [seen_walk hloop, hw]; rfl) rfl rfl rfl rfl)
  | start q hlt hidle hready =>
    exact Or.inl (quiet_setStatus (not_isPosted_idle hidle) (by simp) rfl rfl rfl rfl rfl)
  | recvSome q k p fd dst len hst hop hlen htaken =>
    exact Or.inl (quiet_setStatus (not_isPosted_running hst) (by simp) rfl rfl rfl rfl rfl)
  | sendSome q k p fd src len hst hop hlen =>
    exact Or.inl (quiet_setStatus (not_isPosted_running hst) (by simp) rfl rfl rfl rfl rfl)
  | finish q p hst hlen hop => exact Or.inl (quiet_post hQ (not_isPosted_running hst))
  | fail q p res hst hlt => exact Or.inl (quiet_post hQ (not_isPosted_running hst))
  | cancel q hlt hidle hbroken => exact Or.inl (quiet_post hQ (not_isPosted_idle hidle))
  | connect q p fd lfd hst hop hne hfresh =>
    have hpost : Quiet s (post s q (fd : Int)) := quiet_post hQ (not_isPosted_running hst)
    exact Or.inl ⟨rfl, rfl, rfl, hpost.live_iff, hpost.failed_iff⟩

/-- The visit of a completion: its request was the one at the head of the walk, and has
failed if it came up short. -/
theorem Visited.failed_iff {c : Cqe} (hQ : Queues s) (hloop : s.loop = .walk head i) (he : Extends s u)
    (hv : Visited s u { u with loop := .walk (head + 1) (i + 1) } c q₀) (q : Nat) :
    Failed { u with loop := .walk (head + 1) (i + 1) } q ↔
      Failed s q ∨ q = q₀ ∧ c.res < (s.sqes q₀).op.len := by
  obtain ⟨head', hst, -⟩ := hv.posted₀
  have hle : head ≤ head' := by
    have hseen := hv.live₀.2 _ _ hst
    rwa [seen_walk hloop] at hseen
  -- it is not live afterwards, so its completion is not behind the head
  obtain rfl : head' = head := by
    by_contra hne
    have hlive : Live { u with loop := .walk (head + 1) (i + 1) } q₀ := by
      refine ⟨Nat.lt_of_lt_of_le hv.live₀.1 he.sqTail_le, fun slot full h => ?_⟩
      rw [he.status_eq, hst] at h
      cases h
      show head + 1 ≤ head'
      omega
    rcases (hv.live_iff q₀).mp hlive with ⟨-, hself⟩ | ⟨hge, -⟩
    · exact hself rfl
    · exact absurd hv.live₀.1 (Nat.not_lt.mpr hge)
  have hshort : decide (((s.sqes q₀).op.len : Int) ≤ c.res) = false ↔ c.res < (s.sqes q₀).op.len := by
    rw [decide_eq_false_iff_not, Int.not_le]
  simp only [Failed, he.status_eq, seen_walk hloop]
  constructor
  · rintro ⟨slot, hlt, hslot⟩
    rcases Nat.lt_succ_iff_lt_or_eq.mp hlt with hlt | rfl
    · exact Or.inl ⟨slot, hlt, hslot⟩
    · obtain rfl := hQ.slot_inj q q₀ _ _ _ hslot hst
      rw [hst] at hslot
      exact Or.inr ⟨rfl, hshort.mp (Status.posted.inj hslot).2⟩
  · rintro (⟨slot, hlt, hslot⟩ | ⟨rfl, hres⟩)
    · exact ⟨slot, Nat.lt_succ_of_lt hlt, hslot⟩
    · exact ⟨_, Nat.lt_succ_self _, by rw [hst, hshort.mpr hres]⟩

-- ---------------------------------------------------------------------------
-- Waiting or retired
-- ---------------------------------------------------------------------------

/-- A record is retired or has a request to wait for, and not both. -/
structure Settled (s : State) : Prop where
  known : ∀ q < s.sqTail, ∀ r, Carries s q r → r < s.nRecs
  settled : ∀ r < s.nRecs, Retired s r ∨ ∃ q, Live s q ∧ Carries s q r
  apart : ∀ r q, Retired s r → Live s q → ¬ Carries s q r

theorem Quiet.carries_iff (h : Quiet s t) : Carries t q r ↔ Carries s q r := by
  rw [Carries, Carries, h.sqes_eq]

theorem Quiet.retired_iff (h : Quiet s t) : Retired t r ↔ Retired s r :=
  exists_congr fun q => and_congr (h.failed_iff q) h.carries_iff

theorem Settled.quiet (h : Settled s) (hq : Quiet s t) : Settled t where
  known q hlt r hc := by
    rw [hq.sqTail_eq] at hlt
    rw [hq.nRecs_eq]
    exact h.known q hlt r (hq.carries_iff.mp hc)
  settled r hr := by
    rw [hq.nRecs_eq] at hr
    refine (h.settled r hr).imp hq.retired_iff.mpr ?_
    rintro ⟨q, hl, hc⟩
    exact ⟨q, (hq.live_iff q).mpr hl, hq.carries_iff.mpr hc⟩
  apart r q hret hl hc :=
    h.apart r q (hq.retired_iff.mp hret) ((hq.live_iff q).mp hl) (hq.carries_iff.mp hc)

section Visit
variable {c : Cqe} (h : Settled s) (hQ : Queues s) (hO : Owned cfg s) (hloop : s.loop = .walk head i)
include h hQ hO hloop

/-- A threadlet whose completion is passed over has exited. -/
theorem Settled.visit_skip (hv : Visited s s { s with loop := .walk (head + 1) (i + 1) } c q₀)
    (hskip : Skips cfg s c) : Settled { s with loop := .walk (head + 1) (i + 1) } := by
  have hfailed := hv.failed_iff hQ hloop (extends_refl s)
  have hold : ∀ {q}, Live { s with loop := .walk (head + 1) (i + 1) } q → Live s q ∧ q ≠ q₀ := by
    intro q hq
    rcases (hv.live_iff q).mp hq with hq | ⟨hge, hlt⟩
    · exact hq
    · exact absurd hlt (Nat.not_lt.mpr hge)
  refine ⟨h.known, fun r hr => ?_, fun r q hret hl hc => ?_⟩
  · rcases h.settled r hr with ⟨q, hf, hc⟩ | ⟨q, hl, hc⟩
    · exact Or.inl ⟨q, (hfailed q).mpr (Or.inl hf), hc⟩
    · by_cases hne : q = q₀
      · subst hne
        refine Or.inl ⟨q, (hfailed q).mpr (Or.inr ⟨rfl, ?_⟩), hc⟩
        have hud : c.userData = some r := hv.userData₀.trans hc
        have hop := (hv.awaits hO hud).2
        -- what it waited for is what the loop body compares the result with
        rcases hskip with hnone | ⟨r', hr', hcase⟩
        · rw [hnone] at hud
          cases hud
        · obtain rfl : r' = r := Option.some.inj (hr'.symm.trans hud)
          rcases hcase with ⟨hpc, hres⟩ | ⟨hpc, hres⟩
          · rw [hop, awaited, hpc]
            exact hres
          · rw [hop, awaited, hpc]
            exact hres
      · exact Or.inr ⟨q, (hv.live_iff q).mpr (Or.inl ⟨hl, hne⟩), hc⟩
  · obtain ⟨hl, hne⟩ := hold hl
    obtain ⟨q', hf, hc'⟩ := hret
    rcases (hfailed q').mp hf with hf | ⟨rfl, -⟩
    · exact h.apart r q ⟨q', hf, hc'⟩ hl hc
    · exact hne (hO.unique q q' r hl hv.live₀ hc hc')

omit hO in
/-- A threadlet that goes on waits again, and so does one that is new. -/
theorem Settled.continues (k : Continues cfg s u r)
    (hv : Visited s u { u with loop := .walk (head + 1) (i + 1) } c q₀) (hr : c.userData = some r)
    (hfull : ((s.sqes q₀).op.len : Int) ≤ c.res)
    (hcarried : ∀ r' < u.nRecs, r' = r ∨ s.nRecs ≤ r' →
      ∃ q, s.sqTail ≤ q ∧ q < u.sqTail ∧ Carries u q r') :
    Settled { u with loop := .walk (head + 1) (i + 1) } := by
  have hfailed : ∀ q, Failed { u with loop := .walk (head + 1) (i + 1) } q ↔ Failed s q := by
    intro q
    rw [hv.failed_iff hQ hloop k.ext, or_iff_left]
    exact fun hshort => absurd hshort.2 (Int.not_lt.mpr hfull)
  have hret : ∀ r', Retired { u with loop := .walk (head + 1) (i + 1) } r' ↔ Retired s r' := by
    intro r'
    refine exists_congr fun q => ?_
    rw [hfailed q]
    refine and_congr_right fun hf => ?_
    rw [Carries, Carries, ← k.ext.sqes_eq q (hf.lt hQ)]
  refine ⟨fun q hlt r' hc => ?_, fun r' hr' => ?_, fun r' q hretired hl hc => ?_⟩
  · rcases Nat.lt_or_ge q s.sqTail with hold | hge
    · rw [Carries, k.ext.sqes_eq q hold] at hc
      exact Nat.lt_of_lt_of_le (h.known q hold r' hc) k.nRecs_le
    · exact (k.awaits q r' hge hlt hc).2.1
  · by_cases hnew : r' = r ∨ s.nRecs ≤ r'
    · obtain ⟨q, hge, hlt, hc⟩ := hcarried r' hr' hnew
      exact Or.inr ⟨q, (hv.live_iff q).mpr (Or.inr ⟨hge, hlt⟩), hc⟩
    · obtain ⟨hne, hlt⟩ := not_or.mp hnew
      refine (h.settled r' (Nat.not_le.mp hlt)).imp (hret r').mpr ?_
      exact k.carrier_live hv hr hne
  · have hretired := (hret r').mp hretired
    rcases (hv.live_iff q).mp hl with ⟨hl, -⟩ | ⟨hge, hlt⟩
    · rw [Carries, k.ext.sqes_eq q hl.1] at hc
      exact h.apart r' q hretired hl hc
    · rcases (k.awaits q r' hge hlt hc).1 with rfl | hnew
      · exact h.apart r' q₀ hretired hv.live₀ (by rw [Carries, ← hv.userData₀, hr])
      · obtain ⟨q', hf, hc'⟩ := hretired
        exact absurd (h.known q' (hf.lt hQ) r' hc') (Nat.not_lt.mpr hnew)

theorem Settled.visit (hv : Visited s u { u with loop := .walk (head + 1) (i + 1) } c q₀)
    (hh : Handled cfg s c u) : Settled { u with loop := .walk (head + 1) (i + 1) } := by
  cases hh with
  | skip hskip => exact h.visit_skip hQ hO hloop hv hskip
  | accepted r hr hpc hres hroom =>
    obtain ⟨hlt, hop⟩ := hv.awaits hO hr
    have k : Continues cfg s (afterAccepted cfg s r c.res.toNat) r := continues_afterAccepted hlt _
    refine h.continues hQ hloop k hv hr ?_ ?_
    · rw [hop, awaited, hpc]
      exact hres
    · intro r' hr' hnew
      rcases hnew with rfl | hge
      · exact ⟨s.sqTail + 2, Nat.le_add_right _ _, Nat.lt_succ_self _, by simp [Carries]⟩
      · obtain rfl : r' = s.nRecs := Nat.le_antisymm (Nat.le_of_lt_succ hr') hge
        exact ⟨s.sqTail + 1, Nat.le_add_right _ _, Nat.lt_succ_of_lt (Nat.lt_succ_self _),
          by simp [Carries]⟩
  | header r hr hpc hres hroom =>
    obtain ⟨hlt, hop⟩ := hv.awaits hO hr
    have k : Continues cfg s (afterHeader cfg s r) r := continues_afterHeader hlt
    refine h.continues hQ hloop k hv hr ?_ ?_
    · rw [hop, awaited, hpc]
      exact hres
    · intro r' hr' hnew
      obtain rfl := hnew.resolve_right (Nat.not_le.mpr hr')
      exact ⟨s.sqTail, Nat.le_refl _, Nat.lt_succ_self _, by simp [Carries]⟩
  | msg r hr hpc hres hroom =>
    obtain ⟨hlt, hop⟩ := hv.awaits hO hr
    have k : Continues cfg s (afterMsg cfg s r) r := continues_afterMsg hlt hpc
    refine h.continues hQ hloop k hv hr ?_ ?_
    · rw [hop, awaited, hpc]
      exact hres
    · intro r' hr' hnew
      obtain rfl := hnew.resolve_right (Nat.not_le.mpr hr')
      exact ⟨s.sqTail + 1, Nat.le_succ _, Nat.lt_succ_self _, by simp [Carries]⟩

end Visit

-- ---------------------------------------------------------------------------
-- The step and run lemmas
-- ---------------------------------------------------------------------------

theorem settled_step {l : Label} (hQ : Queues s) (hO : Owned cfg s) (h : Settled s)
    (hstep : Step cfg s l t) : Settled t := by
  rcases hstep.quiet hQ with hq | ⟨u, head, i, hloop, hlt, hh, rfl⟩
  · exact h.quiet hq
  · obtain ⟨q₀, hv⟩ := exists_visited hQ hloop hlt hh.extends
    exact h.visit hQ hO hloop hv hh

theorem settled_initial (cfg : Config) (junk : Junk) : Settled (initial cfg junk) where
  known q _ r hc := by
    cases hc
    exact Nat.one_pos
  settled r hr := by
    obtain rfl := Nat.lt_one_iff.mp hr
    exact Or.inr ⟨0, by simp [Live, initial], rfl⟩
  apart r q hret _ _ := by
    obtain ⟨q', ⟨slot, -, hst⟩, -⟩ := hret
    cases hst

theorem settled_preserved (cfg : Config) :
    (machine cfg).Preserves fun s => (Queues s ∧ Owned cfg s) ∧ Settled s :=
  (owned_preserved cfg).and fun _ _ _ hinv _ h hstep =>
    settled_step hinv.1 hinv.2 h (step_cases hstep).2

theorem settled_reachable {junk : Junk} (h : (machine cfg).Reachable (initial cfg junk) s) :
    (Queues s ∧ Owned cfg s) ∧ Settled s :=
  (settled_preserved cfg).reachable
    ⟨⟨queues_initial cfg junk, owned_initial cfg junk⟩, settled_initial cfg junk⟩ h

/-- A threadlet that has exited does not come back. -/
theorem Retired.step {l : Label} (hQ : Queues s) (h : Retired s r) (hstep : Step cfg s l t) :
    Retired t r := by
  rcases hstep.quiet hQ with hq | ⟨u, head, i, hloop, hlt, hh, rfl⟩
  · exact hq.retired_iff.mpr h
  · obtain ⟨q₀, hv⟩ := exists_visited hQ hloop hlt hh.extends
    obtain ⟨q, hf, hc⟩ := h
    refine ⟨q, (hv.failed_iff hQ hloop hh.extends q).mpr (Or.inl hf), ?_⟩
    rw [Carries] at hc ⊢
    rwa [← hh.extends.sqes_eq q (hf.lt hQ)] at hc

theorem Retired.reachable (hQ : Queues s) (h : Retired s r) (hreach : (machine cfg).Reachable s t) :
    Retired t r := by
  have hpres : (machine cfg).Preserves fun s => Queues s ∧ Retired s r :=
    (queues_preserved cfg).and fun _ _ _ hQ _ h hstep => h.step hQ (step_cases hstep).2
  exact (hpres.reachable ⟨hQ, h⟩ hreach).2

-- ---------------------------------------------------------------------------
-- Batches
-- ---------------------------------------------------------------------------

/-- What a step makes of the walk, if it does not end it. -/
theorem Step.walk {l : Label} (hstep : Step cfg s l t) (hloop : s.loop = .walk head i)
    (hl : l ≠ .advance) : t.cqHead = s.cqHead ∧
      (t.exit = none → t.loop = .walk (head + [l].count .visit) (i + [l].count .visit)) := by
  cases hstep with
  | submit hsubmit =>
    rw [hsubmit] at hloop
    cases hloop
  | waitCqe hwait | waitError hwait =>
    rw [hwait] at hloop
    cases hloop
  | visit head' i' hwalk hlt hh =>
    rw [hwalk] at hloop
    cases hloop
    exact ⟨hh.extends.cqHead_eq, fun _ => rfl⟩
  | visitExit => exact ⟨rfl, fun hexit => by cases hexit⟩
  | advance => exact absurd rfl hl
  | start | recvSome | sendSome | finish | fail | cancel | connect => exact ⟨rfl, fun _ => hloop⟩

/-- While a batch is walked, `i` counts the visits, unless one of them ends the process. -/
theorem walk_exec {ls : List Label} (hloop : s.loop = .walk head i) (hadv : .advance ∉ ls)
    (hrun : (machine cfg).exec s ls = some t) : t.cqHead = s.cqHead ∧
      (t.exit = none → t.loop = .walk (head + ls.count .visit) (i + ls.count .visit)) := by
  induction ls generalizing s head i with
  | nil =>
    obtain rfl : s = t := by simpa using hrun
    exact ⟨rfl, fun _ => hloop⟩
  | cons l ls ih =>
    obtain ⟨m, hm, hrest⟩ := Machine.exec_cons_iff.mp hrun
    obtain ⟨hl, hls⟩ := not_or.mp (List.mem_cons.not.mp hadv)
    obtain ⟨hcq, hwalk⟩ := (step_cases hm).2.walk hloop (Ne.symm hl)
    cases ls with
    | nil =>
      obtain rfl : m = t := by simpa using hrest
      exact ⟨hcq, hwalk⟩
    | cons l' ls =>
      -- the process has gone on
      obtain ⟨_, hm', -⟩ := Machine.exec_cons_iff.mp hrest
      obtain ⟨hcq', hwalk'⟩ := ih (hwalk (step_cases hm').1) hls hrest
      refine ⟨hcq'.trans hcq, fun hexit => ?_⟩
      have hcount : ([l] ++ l' :: ls).count .visit = [l].count .visit + (l' :: ls).count .visit :=
        List.count_append
      rw [List.singleton_append] at hcount
      rw [hwalk' hexit, hcount, Nat.add_assoc, Nat.add_assoc]

/-- The completions that a batch visits are those by which it advances the queue. -/
theorem batch_advance {ls : List Label} (hadv : .advance ∉ ls)
    (hrun : (machine cfg).exec s (.waitCqe :: (ls ++ [.advance])) = some t) :
    t.cqHead = s.cqHead + ls.count .visit ∧ t.cqHead = t.cqTail := by
  obtain ⟨m, hm, hrun⟩ := Machine.exec_cons_iff.mp hrun
  obtain ⟨m', hm', hrun⟩ := Machine.exec_append_iff.mp hrun
  obtain ⟨m'', ht, hnil⟩ := Machine.exec_cons_iff.mp hrun
  obtain rfl : t = m'' := (Option.some.inj hnil).symm
  have hwait : step cfg s .waitCqe = some m := hm
  have hadvance : step cfg m' .advance = some t := ht
  obtain ⟨hexit, hstep⟩ := step_cases hadvance
  have hloop : m.loop = .walk s.cqHead 0 ∧ m.cqHead = s.cqHead := by
    cases (step_cases hwait).2
    exact ⟨rfl, rfl⟩
  obtain ⟨hcq, hwalk⟩ := walk_exec hloop.1 hadv hm'
  cases hstep with
  | advance head i hloop' heq =>
    rw [hwalk hexit] at hloop'
    obtain ⟨rfl, rfl⟩ := Loop.walk.inj hloop'
    refine ⟨?_, ?_⟩
    · show m'.cqHead + _ = _
      rw [hcq, hloop.2, Nat.zero_add]
    · show m'.cqHead + _ = m'.cqTail
      rw [hcq, hloop.2, Nat.zero_add, ← heq]

-- ---------------------------------------------------------------------------
-- Every state
-- ---------------------------------------------------------------------------

/-- Who holds what. -/
structure RecordOwnership (cfg : Config) (s : State) : Prop where
  /-- One record waits for a connection, and its accept is the only one outstanding. -/
  accept : ∃ r₀ < s.nRecs, ∃ q₀, (∀ r < s.nRecs, (s.recs r).pc = .accepted ↔ r = r₀) ∧
    Carries s q₀ r₀ ∧ ∀ q, Live s q ∧ (∃ fd, (s.sqes q).op = .accept fd) ↔ q = q₀
  /-- Every other record has exited for good or has one request outstanding. -/
  others : ∀ r < s.nRecs, (s.recs r).pc ≠ .accepted →
    (Retired s r ∧ ∀ t, (machine cfg).Reachable s t → ∀ q, Live t q → ¬ Carries t q r) ∨
      (¬ Retired s r ∧ ∃ q, Live s q ∧ Carries s q r)
  unique : ∀ q q' r, Live s q → Live s q' → Carries s q r → Carries s q' r → q = q'
  /-- The record of the completion that is handled next says which request it was. -/
  handled : ∀ head i r, s.loop = .walk head i → head < s.cqTail →
    (s.cqes head).userData = some r → ∃ q full, s.status q = .posted head full ∧ Carries s q r ∧
      (s.sqes q).op = awaited cfg (s.recs r)
  fds : ∀ r < s.nRecs, ∀ r' < s.nRecs, r ≠ r' → (s.recs r).fd ≠ (s.recs r').fd
  bufs : ∀ r < s.nRecs, ∀ r' < s.nRecs, (s.recs r).pc = .receivedMsg →
    (s.recs r').pc = .receivedMsg → r ≠ r' → (s.recs r).buf ≠ (s.recs r').buf
  buf_set : ∀ r < s.nRecs, (s.recs r).pc = .receivedMsg → ∃ b, (s.recs r).buf = .heap b
  /-- The batch that starts here. -/
  batch : ∀ ls t, .advance ∉ ls → (machine cfg).exec s (.waitCqe :: (ls ++ [.advance])) = some t →
    t.cqHead = s.cqHead + ls.count .visit ∧ t.cqHead = t.cqTail

theorem Owned.accept (h : Owned cfg s) :
    ∃ r₀ < s.nRecs, ∃ q₀, (∀ r < s.nRecs, (s.recs r).pc = .accepted ↔ r = r₀) ∧
      Carries s q₀ r₀ ∧ ∀ q, Live s q ∧ (∃ fd, (s.sqes q).op = .accept fd) ↔ q = q₀ := by
  obtain ⟨r₀, hr₀, hpc, ⟨q₀, hl₀, hc₀⟩, huniq⟩ := h.listener
  refine ⟨r₀, hr₀, q₀, fun r hr => ⟨huniq r hr, ?_⟩, hc₀, fun q => ⟨?_, ?_⟩⟩
  · rintro rfl
    exact hpc
  · rintro ⟨hl, fd, hop⟩
    exact h.unique q q₀ r₀ hl hl₀ (h.carries_of_accept hr₀ hpc hl hop) hc₀
  · rintro rfl
    obtain ⟨-, hop⟩ := h.awaits q r₀ hl₀ hc₀
    rw [awaited, hpc] at hop
    exact ⟨hl₀, _, hop⟩

/-- The listener is no connection, so its record shares its descriptor with no other. -/
theorem Owned.fd_ne (h : Owned cfg s) (hr : r < s.nRecs) (hr' : r' < s.nRecs) (hne : r ≠ r') :
    (s.recs r).fd ≠ (s.recs r').fd := by
  obtain ⟨r₀, -, -, -, huniq⟩ := h.listener
  intro heq
  by_cases hpc : (s.recs r).pc = .accepted <;> by_cases hpc' : (s.recs r').pc = .accepted
  · exact hne ((huniq r hr hpc).trans (huniq r' hr' hpc').symm)
  · have hopened := h.fd_opened r' hr' hpc'
    rw [← heq, h.listens r hr hpc] at hopened
    exact h.listen_closed hopened
  · have hopened := h.fd_opened r hr hpc
    rw [heq, h.listens r' hr' hpc'] at hopened
    exact h.listen_closed hopened
  · exact hne (h.fd_inj r hr r' hr' hpc hpc' heq)

/-- **Who holds what.** In every state that `main_loop` and the kernel come to, for any
number of connections and any order of completions. -/
theorem record_ownership (cfg : Config) (junk : Junk) (s : State)
    (hreach : (machine cfg).Reachable (initial cfg junk) s) : RecordOwnership cfg s := by
  obtain ⟨⟨hQ, hO⟩, hS⟩ := settled_reachable hreach
  refine ⟨hO.accept, fun r hr hpc => ?_, hO.unique, fun head i r hloop hlt hr => ?_,
    fun r hr r' hr' => hO.fd_ne hr hr', fun r hr r' hr' hpc hpc' hne heq => ?_, fun r hr hpc => ?_,
    fun ls t => batch_advance⟩
  · by_cases hret : Retired s r
    · refine Or.inl ⟨hret, fun t ht q => ?_⟩
      obtain ⟨-, hSt⟩ := settled_reachable (hreach.trans ht)
      exact hSt.apart r q (hret.reachable hQ ht)
    · exact Or.inr ⟨hret, (hS.settled r hr).resolve_left hret⟩
  · obtain ⟨q, full, hst, hl, hud, -⟩ := live_visit hQ hloop hlt (extends_refl s)
    have hc : Carries s q r := hud.symm.trans hr
    exact ⟨q, full, hst, hc, (hO.awaits q r hl hc).2⟩
  · exact hne (hO.buf_inj r hr r' hr' hpc hpc' heq)
  · obtain ⟨b, -, hb⟩ := hO.buf_set r hr hpc
    exact ⟨b, hb⟩

/-- A client that goes before it has sent its header. -/
def oneLeaver : List Label :=
  [.submit, .start 0, .connect 0 4, .waitCqe, .visit, .advance,
    .submit, .start 3, .fail 3 0, .waitCqe, .visit, .advance]

theorem record_ownership_oneLeaver :
    let cfg : Config := ⟨⟨2, by decide, by decide⟩, 3, fun _ => []⟩
    let junk : Junk := ⟨fun _ => List.replicate bufSize 0, fun _ => List.length_replicate⟩
    ∃ s, (machine cfg).exec (initial cfg junk) oneLeaver = some s ∧ Retired s 0 ∧
      RecordOwnership cfg s := by
  intro cfg junk
  have hrun : ((machine cfg).exec (initial cfg junk) oneLeaver).map
      (fun s => (seen s, s.status 3, (s.sqes 3).userData)) = some (2, .posted 1 false, some 0) := by
    decide
  obtain ⟨s, hs, heq⟩ := Option.map_eq_some_iff.mp hrun
  obtain ⟨hseen, heq⟩ := Prod.mk.inj heq
  obtain ⟨hst, hud⟩ := Prod.mk.inj heq
  exact ⟨s, hs, ⟨3, ⟨1, by rw [hseen]; decide, hst⟩, hud⟩, record_ownership cfg junk s ⟨oneLeaver, hs⟩⟩

end EchoServer.Sharded
