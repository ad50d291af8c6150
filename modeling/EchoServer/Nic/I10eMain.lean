import EchoServer.Nic.I10eSteps
import EchoServer.Nic.ReceiveRing

/-!
# i10e.c — what is received, reported and sent

What the program and the device write never overlaps what the other one still reads, so every
step keeps the invariant.

What is assumed of the device, and of nothing else:

* it takes the descriptor at the head, stores the frame, writes the descriptor back and moves
  the head in this order, and takes no descriptor at or behind the tail;
* what it writes back has `DD` set; the other bits of the status, the errors, the checksum and
  the tag are anything;
* at the transmit ring it reads the packet before it writes `DD`, so that `DD` in a descriptor
  says that the packet has been read;
* a frame is no longer than the buffer that `SRRCTL` announces.

How its steps and those of the program come one after another is left open.

Main results:

* `inv_step` — the places, the descriptors and the frames, over every step;
* `main_received` — what has been received is in the buffers, and nothing is blocked;
* `main_transmits` — the packet on the wire, and what `send_one` waits for;
* `exec_poll` — the walk visits the descriptors that `Ring.rqPollOnce` does;
* `main_reports` — `rq_poll_once` reports the frames that are there when it looks.
-/

namespace EchoServer.Nic.I10e

open EchoServer.Lib

variable {r : Region} {off : Nat} {s t : State} {l : Label}

-- ---------------------------------------------------------------------------
-- The invariant is kept
-- ---------------------------------------------------------------------------

theorem Locals.step (h : Locals r s) (hstep : Step r off s l t) : Locals r t := by
  obtain ⟨hnext, hrq, htq, hround, hexited, hblocked⟩ := h
  cases hstep with
  | allocRq a next hpc ha hn =>
    refine ⟨hn, fun _ => ha, fun h => absurd h (show ¬ 5 ≤ 1 by decide), ?_,
      fun h => (by cases h), hblocked⟩
    rintro _ ⟨⟩
    exact Nat.zero_le _
  | prepare i x next hpc hi hx hn =>
    rw [hpc] at hrq
    refine ⟨hn, fun _ => hrq le_rfl, fun h => absurd h (show ¬ 5 ≤ 1 by decide), ?_,
      fun h => (by cases h), hblocked⟩
    rintro _ ⟨⟩
    exact hi
  | prepared hpc =>
    rw [hpc] at hnext hrq
    exact ⟨hnext, fun _ => hrq le_rfl, fun h => absurd h (show ¬ 5 ≤ 2 by decide),
      fun _ h => (by cases h), fun h => (by cases h), hblocked⟩
  | rxRegisters low high hpc =>
    rw [hpc] at hnext hrq
    exact ⟨hnext, fun _ => hrq (by decide), fun h => absurd h (show ¬ 5 ≤ 3 by decide),
      fun _ h => (by cases h), fun h => (by cases h), hblocked⟩
  | rxEnable hpc =>
    rw [hpc] at hnext hrq
    exact ⟨hnext, fun _ => hrq (by decide), fun h => absurd h (show ¬ 5 ≤ 4 by decide),
      fun _ h => (by cases h), fun h => (by cases h), hblocked⟩
  | allocTq a next low high hpc ha hn =>
    rw [hpc] at hrq
    exact ⟨hn, fun _ => hrq (by decide), fun _ => ha,
      fun _ h => (by cases h), fun h => (by cases h), hblocked⟩
  | sendOne x next hpc hx hn =>
    rw [hpc] at hrq htq
    refine ⟨?_, fun _ => hrq (by decide), fun _ => htq (by decide),
      fun _ h => (by cases h), fun h => (by cases h), hblocked⟩
    show next.toNat = r.base.toNat + (2048 * 130 + 128)
    rw [hn, slot, Nat.add_assoc]
  | post hpc | waiting hpc | poll hpc =>
    rw [hpc] at hnext hrq htq
    exact ⟨hnext, fun _ => hrq (by decide), fun _ => htq (by decide),
      fun _ h => (by cases h), fun h => (by cases h), hblocked⟩
  | visit i firstUnreceived hpc | visited i firstUnreceived hpc =>
    rw [hpc] at hnext hrq htq
    exact ⟨hnext, fun _ => hrq (show 1 ≤ 9 by decide), fun _ => htq (show 5 ≤ 9 by decide),
      fun _ h => (by cases h), fun h => (by cases h), hblocked⟩
  | rxFetch | rxStore | rxWriteBack | rxAdvance | txFetch | txRead | txWriteBack | txAdvance =>
    exact ⟨hnext, hrq, htq, hround, hexited, hblocked⟩

theorem Locals.prepared_le (h : Locals r s) : s.pc.prepared ≤ 128 := by
  cases hpc : s.pc with
  | allocRq => exact Nat.zero_le _
  | prepare i => exact h.round i hpc
  | rxRegisters | rxEnable | allocTq | sendOne | post | waiting | poll | walk | done | exited => exact le_rfl

theorem Pc.prepared_eq {pc : Pc} (h : 2 ≤ pc.rank) : pc.prepared = 128 := by
  cases pc with
  | allocRq | prepare => exact absurd h (by simp [Pc.rank])
  | rxRegisters | rxEnable | allocTq | sendOne | post | waiting | poll | walk | done | exited => rfl

/-- There is a buffer for each frame. -/
theorem Receives.lt_of_stored (h : Receives r s) {i : Nat} {bytes : Bytes}
    (hi : s.stored[i]? = some bytes) : i < 127 := by
  obtain ⟨hlt, -⟩ := List.getElem?_eq_some_iff.mp hi
  have hcount := h.count
  have hbusy := h.busy
  unfold State.stored at hlt
  rw [List.length_append, List.length_map] at hlt
  cases hrx : s.rx with
  | idle | fetched =>
    rw [hrx] at hlt
    exact hlt.trans_le hcount
  | stored f | written f =>
    rw [hrx] at hlt hbusy
    exact Nat.lt_of_lt_of_le hlt (hbusy fun h => (by cases h))

theorem Describes.congr {mem mem' : Mem} {i : Nat} {frame : Option Frame}
    (h : Describes r mem i frame)
    (hsame : ∀ x, ring r i ≤ x → x < ring r (i + 1) → mem' x = mem x) :
    Describes r mem' i frame := by
  obtain ⟨d, hholds, haddr, hframe⟩ := h
  refine ⟨d, hholds.congr fun x hle hlt => hsame x hle ?_, haddr, hframe⟩
  rw [RqDesc.length_bytes] at hlt
  unfold ring at hlt ⊢
  omega

/-- What happens behind the buffers does not concern the receive ring. -/
theorem Receives.elsewhere (h : Receives r s) (hle : s.pc.prepared ≤ 128)
    (hpc : t.pc = s.pc ∨ 4 ≤ s.pc.rank ∧ 4 ≤ t.pc.rank)
    (hq : t.rxq = s.rxq) (hrx : t.rx = s.rx) (hreceived : t.received = s.received)
    (hmem : ∀ x < slot r 129, t.mem x = s.mem x) : Receives r t := by
  have hrank : ∀ n ≤ 4, n ≤ t.pc.rank → n ≤ s.pc.rank := by
    intro n hn ht
    rcases hpc with hpc | ⟨hs, -⟩
    · rwa [hpc] at ht
    · exact hn.trans hs
  have hstored : t.stored = s.stored := by rw [State.stored, State.stored, hrx, hreceived]
  have hdescribed : t.described = s.described := by rw [State.described, State.described, hrx, hreceived]
  have hprepared : t.pc.prepared = s.pc.prepared := by
    rcases hpc with hpc | ⟨hs, ht⟩
    · rw [hpc]
    · rw [Pc.prepared_eq (hs.trans' (by decide)), Pc.prepared_eq (ht.trans' (by decide))]
  refine ⟨fun ht => ?_, fun ht => ?_, fun ht => ?_, ?_, ?_, ?_, ?_, ?_⟩
  · rw [hq, hrx, hreceived]
    refine h.off ?_
    rcases hpc with hpc | ⟨-, ht'⟩
    · rwa [hpc] at ht
    · exact absurd ht' (Nat.not_le.mpr ht)
  · rw [hq, hreceived]
    exact h.base (hrank 3 (by decide) ht)
  · rw [hq]
    exact h.tail (hrank 4 le_rfl ht)
  · rw [hreceived]
    exact h.count
  · rw [hrx, hreceived]
    exact h.busy
  · rw [hrx, hreceived]
    exact h.fetched
  · rw [hprepared, hdescribed]
    intro i hi
    refine (h.descs i hi).congr fun x _ hlt => hmem x ?_
    unfold ring at hlt
    unfold slot
    omega
  · rw [hstored]
    intro i frame hi
    obtain ⟨hholds, hlen⟩ := h.frames i frame hi
    have hi' := h.lt_of_stored hi
    refine ⟨hholds.congr fun x _ hlt => hmem x ?_, hlen⟩
    unfold slot at hlt ⊢
    omega

theorem getElem?_concat_cases {α : Type*} {frames : List α} {last frame : α} {i : Nat}
    (h : (frames ++ [last])[i]? = some frame) :
    frames[i]? = some frame ∨ i = frames.length ∧ frame = last := by
  rcases Nat.lt_trichotomy i frames.length with hlt | rfl | hgt
  · rw [List.getElem?_append_left hlt] at h
    exact Or.inl h
  · rw [List.getElem?_concat_length] at h
    exact Or.inr ⟨rfl, (Option.some.inj h).symm⟩
  · rw [List.getElem?_eq_none (by rw [List.length_append]; exact hgt)] at h
    cases h

theorem described_nil (hidle : s.rx = .idle) (hnone : s.received = []) : s.described = [] := by
  rw [State.described, hidle, hnone]
  rfl

/-- Before the queue is enabled nothing is received. -/
theorem Receives.setup (hidle : t.rx = .idle) (hnone : t.received = [])
    (hoff : t.pc.rank < 4 → t.rxq.rxctrl = false)
    (hbase : 3 ≤ t.pc.rank → joined t.rxq.rdbah t.rxq.rdbal = 0 ∧ t.rxq.rdlen = 2048 ∧
      t.rxq.srrctl = 2 ∧ t.rxq.rdh = 0)
    (htail : 4 ≤ t.pc.rank → t.rxq.rdt = 127)
    (hdescs : ∀ i < t.pc.prepared, Describes r t.mem i none) : Receives r t := by
  have hstored : t.stored = [] := by rw [State.stored, hidle, hnone]; rfl
  have hdescribed := described_nil hidle hnone
  refine ⟨fun h => ⟨hoff h, hidle, hnone⟩, fun h => ?_, htail, ?_, fun h => absurd hidle h, ?_, ?_, ?_⟩
  · rw [hnone]
    exact hbase h
  · rw [hnone]
    exact Nat.zero_le _
  · rw [hidle]
    rintro _ ⟨⟩
  · rw [hdescribed]
    exact hdescs
  · rw [hstored]
    intro i frame h
    rw [List.getElem?_nil] at h
    cases h

/-- A descriptor that the program has prepared tells of no frame. -/
theorem describes_none {mem : Mem} {i : Nat} {x : UInt64} (hx : x.toNat = 2048 * (i + 1)) :
    Describes r (mem.write (ring r i) (RqDesc.bytes ⟨x, 0, 0, 0, 0, 0⟩)) i none :=
  ⟨_, holds_write _ _ _, hx, fun _ h => (by cases h)⟩

/-- A descriptor that the device has written back tells of its frame. -/
theorem Describes.writeBack {mem : Mem} {i : Nat} {d : RqDesc} {bytes : Bytes}
    {before : Option Frame} (h : Describes r mem i before) (hdd : d.status &&& 1 = 1)
    (hlen : d.length.toNat = bytes.length) :
    Describes r (mem.write (ring r i + 8) d.result) i (some ⟨bytes, d.status⟩) := by
  obtain ⟨old, hholds, haddr, -⟩ := h
  refine ⟨⟨old.bufferAddress, d.length, d.checksum, d.status, d.errors, d.vlanTag⟩, ?_, haddr, ?_⟩
  · refine holds_append.mpr ⟨?_, holds_write _ _ _⟩
    exact (holds_append.mp hholds).1.apart (Or.inl le_rfl)
  · rintro _ ⟨⟩
    exact ⟨hlen, rfl, hdd⟩

theorem Receives.step (h : Receives r s) (hl : Locals r s) (hstep : Step r off s l t) :
    Receives r t := by
  have hprepared := hl.prepared_le
  cases hstep with
  | allocRq a next hpc =>
    obtain ⟨hctrl, hidle, hnone⟩ := h.off (by rw [hpc]; decide)
    exact .setup hidle hnone (fun _ => hctrl) (fun h => absurd h (show ¬ 3 ≤ 1 by decide))
      (fun h => absurd h (show ¬ 4 ≤ 1 by decide)) fun i hi => absurd hi (Nat.not_lt_zero i)
  | prepare i x next hpc hi hx =>
    obtain ⟨hctrl, hidle, hnone⟩ := h.off (by rw [hpc]; exact (by decide : 1 < 4))
    refine .setup hidle hnone (fun _ => hctrl) (fun h => absurd h (show ¬ 3 ≤ 1 by decide))
      (fun h => absurd h (show ¬ 4 ≤ 1 by decide)) fun j hj => ?_
    rcases Nat.lt_succ_iff_lt_or_eq.mp hj with hlt | rfl
    · have hdesc := h.descs j (by rw [hpc]; exact hlt)
      have hdescribed := described_nil hidle hnone
      rw [hdescribed] at hdesc
      refine hdesc.congr fun y _ hy => Mem.write_of_lt (hy.trans_le ?_)
      unfold ring
      omega
    · exact describes_none hx
  | prepared hpc =>
    obtain ⟨hctrl, hidle, hnone⟩ := h.off (by rw [hpc]; exact (by decide : 1 < 4))
    refine .setup hidle hnone (fun _ => hctrl) (fun h => absurd h (show ¬ 3 ≤ 2 by decide))
      (fun h => absurd h (show ¬ 4 ≤ 2 by decide)) fun j hj => ?_
    have hdesc := h.descs j (by rw [hpc]; exact hj)
    have hdescribed := described_nil hidle hnone
    rwa [hdescribed] at hdesc
  | rxRegisters low high hpc hjoined =>
    obtain ⟨hctrl, hidle, hnone⟩ := h.off (by rw [hpc]; decide)
    refine .setup hidle hnone (fun _ => hctrl) (fun _ => ⟨hjoined, rfl, rfl, rfl⟩)
      (fun h => absurd h (show ¬ 4 ≤ 3 by decide)) fun j hj => ?_
    have hdesc := h.descs j (by rw [hpc]; exact hj)
    have hdescribed := described_nil hidle hnone
    rwa [hdescribed] at hdesc
  | rxEnable hpc =>
    obtain ⟨-, hidle, hnone⟩ := h.off (by rw [hpc]; decide)
    have hbase := h.base (by rw [hpc]; decide)
    rw [hnone] at hbase
    refine .setup hidle hnone (fun h => absurd h (show ¬ 4 < 4 by decide)) (fun _ => hbase)
      (fun _ => rfl) fun j hj => ?_
    have hdesc := h.descs j (by rw [hpc]; exact hj)
    have hdescribed := described_nil hidle hnone
    rwa [hdescribed] at hdesc
  | allocTq a next low high hpc =>
    exact h.elsewhere hprepared (Or.inr ⟨by rw [hpc]; decide, show 4 ≤ 5 by decide⟩) rfl rfl rfl
      fun _ _ => rfl
  | post hpc =>
    exact h.elsewhere hprepared (Or.inr ⟨by rw [hpc]; decide, show 4 ≤ 7 by decide⟩) rfl rfl rfl
      fun _ _ => rfl
  | waiting hpc =>
    exact h.elsewhere hprepared (Or.inr ⟨by rw [hpc]; decide, show 4 ≤ 8 by decide⟩) rfl rfl rfl
      fun _ _ => rfl
  | poll hpc =>
    exact h.elsewhere hprepared (Or.inr ⟨by rw [hpc]; decide, show 4 ≤ 9 by decide⟩) rfl rfl rfl
      fun _ _ => rfl
  | visit i n hpc =>
    exact h.elsewhere hprepared (Or.inr ⟨by rw [hpc]; exact (by decide : 4 ≤ 9), show 4 ≤ 9 by decide⟩)
      rfl rfl rfl fun _ _ => rfl
  | visited i n hpc =>
    exact h.elsewhere hprepared (Or.inr ⟨by rw [hpc]; exact (by decide : 4 ≤ 9), show 4 ≤ 10 by decide⟩)
      rfl rfl rfl fun _ _ => rfl
  | sendOne x next hpc =>
    refine h.elsewhere hprepared (Or.inr ⟨by rw [hpc]; decide, show 4 ≤ 6 by decide⟩) rfl rfl rfl
      fun y hy => ?_
    have hlt : y < slot r 130 := hy.trans (by unfold slot; omega)
    exact (Mem.write_of_lt hlt).trans (Mem.write_of_lt hy)
  | txFetch | txRead | txAdvance =>
    exact h.elsewhere hprepared (Or.inl rfl) rfl rfl rfl fun _ _ => rfl
  | txWriteBack =>
    exact h.elsewhere hprepared (Or.inl rfl) rfl rfl rfl fun y hy =>
      Mem.write_of_lt (hy.trans_le (Nat.le_add_right _ _))
  | rxFetch d hidle hrank hlt haddr =>
    have hstored : s.stored = s.received.map Frame.bytes := by rw [State.stored, hidle, List.append_nil]
    have hdescribed : s.described = s.received := by rw [State.described, hidle, List.append_nil]
    obtain ⟨hoff, hbase, htail, hcount, -, -, hdescs, hframes⟩ := h
    rw [hdescribed] at hdescs
    rw [hstored] at hframes
    refine ⟨fun h => absurd hrank (Nat.not_le.mpr h), hbase, htail, hcount, fun _ => hlt, ?_, ?_, ?_⟩
    · rintro _ ⟨⟩
      exact haddr
    · simpa only [State.described, List.append_nil] using hdescs
    · simpa only [State.stored, List.append_nil] using hframes
  | rxStore d frame hrx hsize =>
    have hbusy : s.rx ≠ .idle := by
      rw [hrx]
      rintro ⟨⟩
    have hlt := h.busy hbusy
    have hstored : s.stored = s.received.map Frame.bytes := by rw [State.stored, hrx, List.append_nil]
    have hdescribed : s.described = s.received := by rw [State.described, hrx, List.append_nil]
    obtain ⟨hoff, hbase, htail, hcount, -, -, hdescs, hframes⟩ := h
    rw [hdescribed] at hdescs
    rw [hstored] at hframes
    refine ⟨fun h => absurd (hoff h).2.1 hbusy, hbase, htail, hcount, fun _ => hlt,
      fun _ h => (by cases h), ?_, ?_⟩
    · intro i hi
      simp only [State.described, List.append_nil]
      refine (hdescs i hi).congr fun y _ hy => Mem.write_of_lt (hy.trans_le ?_)
      have hi' := hi.trans_le hprepared
      unfold ring slot
      omega
    · intro i f hi
      rcases getElem?_concat_cases hi with hold | ⟨rfl, rfl⟩
      · obtain ⟨hholds, hlen⟩ := hframes i f hold
        refine ⟨hholds.apart (Or.inl ?_), hlen⟩
        obtain ⟨hi', -⟩ := List.getElem?_eq_some_iff.mp hold
        have hlen : (s.received.map Frame.bytes).length = s.received.length := List.length_map _
        have hbefore : i < s.received.length := hlen ▸ hi'
        unfold slot
        omega
      · rw [List.length_map]
        exact ⟨holds_write _ _ _, hsize⟩
  | rxWriteBack d bytes hrx hdd hlen =>
    have hbusy : s.rx ≠ .idle := by
      rw [hrx]
      rintro ⟨⟩
    have hlt := h.busy hbusy
    have hstored : s.stored = s.received.map Frame.bytes ++ [bytes] := by rw [State.stored, hrx]
    have hdescribed : s.described = s.received := by rw [State.described, hrx, List.append_nil]
    let frame : Frame := ⟨bytes, d.status⟩
    obtain ⟨hoff, hbase, htail, hcount, -, -, hdescs, hframes⟩ := h
    rw [hdescribed] at hdescs
    rw [hstored] at hframes
    refine ⟨fun h => absurd (hoff h).2.1 hbusy, hbase, htail, hcount, fun _ => hlt,
      fun _ h => (by cases h), ?_, ?_⟩
    · intro i hi
      rcases eq_or_ne i s.received.length with rfl | hne
      · have hlast : (s.received ++ [frame])[s.received.length]? = some frame := List.getElem?_concat_length
        show Describes r _ _ ((s.received ++ [frame])[s.received.length]?)
        rw [hlast]
        exact (hdescs _ hi).writeBack hdd hlen
      · have hsame : (s.received ++ [frame])[i]? = s.received[i]? := by
          rcases Nat.lt_or_gt_of_ne hne with hbefore | hafter
          · exact List.getElem?_append_left hbefore
          · rw [List.getElem?_eq_none (by rw [List.length_append]; exact hafter),
              List.getElem?_eq_none hafter.le]
        show Describes r _ _ ((s.received ++ [frame])[i]?)
        rw [hsame]
        refine (hdescs i hi).congr fun y hy hy' => ?_
        unfold ring at hy hy'
        rcases Nat.lt_or_gt_of_ne hne with hbefore | hafter
        · refine Mem.write_of_lt ?_
          unfold ring
          omega
        · refine Mem.write_of_le ?_
          rw [RqDesc.length_result]
          unfold ring
          omega
    · intro i f hi
      obtain ⟨hholds, hsize⟩ := hframes i f hi
      refine ⟨hholds.apart (Or.inr ?_), hsize⟩
      rw [RqDesc.length_result]
      unfold ring slot
      omega
  | rxAdvance frame hrx =>
    have hbusy : s.rx ≠ .idle := by
      rw [hrx]
      rintro ⟨⟩
    have hlt := h.busy hbusy
    have hstored : s.stored = s.received.map Frame.bytes ++ [frame.bytes] := by rw [State.stored, hrx]
    have hdescribed : s.described = s.received ++ [frame] := by rw [State.described, hrx]
    obtain ⟨hoff, hbase, htail, -, -, -, hdescs, hframes⟩ := h
    rw [hdescribed] at hdescs
    rw [hstored] at hframes
    refine ⟨fun h => absurd (hoff h).2.1 hbusy, fun h => ?_, htail, ?_, fun h => absurd rfl h,
      fun _ h => (by cases h), ?_, ?_⟩
    · obtain ⟨hjoined, hlen, hsize, -⟩ := hbase h
      refine ⟨hjoined, hlen, hsize, ?_⟩
      show s.received.length + 1 = (s.received ++ [frame]).length
      rw [List.length_append]
      rfl
    · rw [List.length_append]
      exact hlt
    · simpa only [State.described, List.append_nil] using hdescs
    · simpa only [State.stored, List.append_nil, List.map_append, List.map_singleton] using hframes

-- ---------------------------------------------------------------------------
-- The packet
-- ---------------------------------------------------------------------------

theorem Posted.congr (h : Posted r s) (htx : t.tx = s.tx) (hq : t.txq.tdh = s.txq.tdh)
    (hsent : t.sent = s.sent) (hmem : ∀ x, slot r 129 ≤ x → t.mem x = s.mem x) : Posted r t := by
  have hdesc : ∀ {x}, Holds s.mem (slot r 129) (packetDesc x).bytes →
      Holds t.mem (slot r 129) (packetDesc x).bytes :=
    fun h => h.congr fun y hy _ => hmem y hy
  have hbuf : Holds s.mem (slot r 130) (counting 128) → Holds t.mem (slot r 130) (counting 128) :=
    fun h => h.congr fun y hy _ => hmem y (hy.trans' (by unfold slot; omega))
  cases h with
  | pending x h₁ h₂ h₃ hx h₄ h₅ =>
    exact .pending x (htx.trans h₁) (hq.trans h₂) (hsent.trans h₃) hx (hdesc h₄) (hbuf h₅)
  | fetched x h₁ h₂ h₃ hx h₄ h₅ =>
    exact .fetched x (htx.trans h₁) (hq.trans h₂) (hsent.trans h₃) hx (hdesc h₄) (hbuf h₅)
  | read x h₁ h₂ h₃ h₄ => exact .read x (htx.trans h₁) (hq.trans h₂) (hsent.trans h₃) (hdesc h₄)
  | written h₁ h₂ h₃ => exact .written (htx.trans h₁) (hq.trans h₂) (hsent.trans h₃)
  | advanced h₁ h₂ h₃ => exact .advanced (htx.trans h₁) (hq.trans h₂) (hsent.trans h₃)

/-- What happens before the transmit ring does not concern it. -/
theorem Transmits.elsewhere (h : Transmits r s)
    (hpc : t.pc = s.pc ∨ 8 ≤ s.pc.rank ∧ 8 ≤ t.pc.rank) (htx : t.tx = s.tx) (hq : t.txq = s.txq)
    (hsent : t.sent = s.sent) (hpacket : t.packet = s.packet)
    (hmem : ∀ x, slot r 129 ≤ x → t.mem x = s.mem x) : Transmits r t := by
  have hrank : ∀ n ≤ 8, n ≤ t.pc.rank → n ≤ s.pc.rank := by
    intro n hn ht
    rcases hpc with hpc | ⟨hs, -⟩
    · rwa [hpc] at ht
    · exact hn.trans hs
  refine ⟨fun ht => ?_, hpacket.trans h.packet, fun ht => ?_, fun ht => ?_, fun ht => ?_, fun ht => ?_⟩
  · rw [hq]
    exact h.base (hrank 5 (by decide) ht)
  · rw [htx, hq, hsent]
    refine h.before ?_
    rcases hpc with hpc | ⟨-, ht'⟩
    · rwa [hpc] at ht
    · exact absurd (ht'.trans ht) (by decide)
  · rcases hpc with hpc | ⟨-, ht'⟩
    · obtain ⟨x, hx, hdesc, hbuf⟩ := h.built (hpc.symm.trans ht)
      exact ⟨x, hx, hdesc.congr fun y hy _ => hmem y hy,
        hbuf.congr fun y hy _ => hmem y (hy.trans' (by unfold slot; omega))⟩
    · rw [ht] at ht'
      exact absurd ht' (by decide)
  · obtain ⟨htail, hposted⟩ := h.posted (hrank 7 (by decide) ht)
    exact ⟨(congrArg TxQueue.tdt hq).trans htail, hposted.congr htx (congrArg _ hq) hsent hmem⟩
  · rw [hsent]
    exact h.waited (hrank 8 le_rfl ht)

/-- Before the transmit ring is there, nothing is sent. -/
theorem Transmits.setup (h : Transmits r s) (hs : s.pc.rank < 5) (ht : t.pc.rank < 5)
    (htx : t.tx = s.tx) (hq : t.txq = s.txq) (hsent : t.sent = s.sent)
    (hpacket : t.packet = s.packet) : Transmits r t := by
  have hlate : ∀ {n : Nat} {P : Prop}, 5 ≤ n → n ≤ t.pc.rank → P :=
    fun hn h => absurd (hn.trans h) (Nat.not_le.mpr ht)
  refine ⟨hlate le_rfl, hpacket.trans h.packet, fun _ => ?_, fun hpost => ?_, hlate (by decide),
    hlate (by decide)⟩
  · rw [htx, hq, hsent]
    exact h.before (hs.le.trans (by decide))
  · rw [hpost] at ht
    exact absurd ht (by decide)

/-- A step at the transmit ring, once the packet is posted. -/
theorem Transmits.sends (h : Transmits r s) (hrank : 7 ≤ s.pc.rank) (hpc : t.pc = s.pc)
    (hq : { t.txq with tdh := s.txq.tdh } = s.txq) (hpacket : t.packet = []) (hposted : Posted r t)
    (hwaited : 8 ≤ t.pc.rank → t.sent = [counting 64]) : Transmits r t := by
  have hlow : ¬ t.pc.rank ≤ 6 := by
    rw [hpc]
    exact Nat.not_le.mpr hrank
  refine ⟨fun _ => ?_, hpacket, fun h => absurd h hlow, fun hpost => ?_, fun _ => ⟨?_, hposted⟩, hwaited⟩
  · have hbase := h.base (hrank.trans' (by decide))
    rwa [← hq] at hbase
  · rw [hpost] at hlow
    exact absurd le_rfl hlow
  · have htail := (h.posted hrank).1
    rwa [← hq] at htail

/-- The program sees the bit only after the packet has been sent. -/
theorem Posted.sent_of_done (h : Posted r s) (hdone : s.mem (slot r 129 + 12) &&& 1 ≠ 0) :
    s.sent = [counting 64] := by
  have hnot : ∀ x, ¬ Holds s.mem (slot r 129) (packetDesc x).bytes := by
    intro x hdesc
    have hbyte : s.mem (slot r 129 + 12) = 0 := hdesc.apply (show 12 < 16 by decide)
    rw [hbyte] at hdone
    exact hdone rfl
  cases h with
  | pending x _ _ _ _ hdesc | fetched x _ _ _ _ hdesc | read x _ _ _ hdesc => exact absurd hdesc (hnot x)
  | written _ _ hsent | advanced _ _ hsent => exact hsent

theorem Transmits.step (h : Transmits r s) (hr : Receives r s) (hstep : Step r off s l t) :
    Transmits r t := by
  have hbusy : s.tx ≠ .idle → 7 ≤ s.pc.rank := fun hne => (h.sending (Or.inl hne)).1
  cases hstep with
  | allocRq a next hpc =>
    exact h.setup (by rw [hpc]; decide) (show 1 < 5 by decide) rfl rfl rfl rfl
  | prepare i x next hpc =>
    exact h.setup (by rw [hpc]; exact (by decide : 1 < 5)) (show 1 < 5 by decide) rfl rfl rfl rfl
  | prepared hpc =>
    exact h.setup (by rw [hpc]; exact (by decide : 1 < 5)) (show 2 < 5 by decide) rfl rfl rfl rfl
  | rxRegisters low high hpc =>
    exact h.setup (by rw [hpc]; decide) (show 3 < 5 by decide) rfl rfl rfl rfl
  | rxEnable hpc =>
    exact h.setup (by rw [hpc]; decide) (show 4 < 5 by decide) rfl rfl rfl rfl
  | allocTq a next low high hpc ha hn hjoined =>
    obtain ⟨hidle, hsent, -, -⟩ := h.before (by rw [hpc]; decide)
    exact ⟨fun _ => ⟨hjoined, rfl⟩, h.packet, fun _ => ⟨hidle, hsent, rfl, rfl⟩, fun h => (by cases h),
      fun h => absurd h (show ¬ 7 ≤ 5 by decide), fun h => absurd h (show ¬ 8 ≤ 5 by decide)⟩
  | sendOne x next hpc hx hn =>
    refine ⟨fun _ => h.base (by rw [hpc]; decide), h.packet, fun _ => h.before (by rw [hpc]; decide),
      fun _ => ⟨x, hx, ?_, holds_write _ _ _⟩, fun h => absurd h (show ¬ 7 ≤ 6 by decide),
      fun h => absurd h (show ¬ 8 ≤ 6 by decide)⟩
    refine (holds_write _ _ _).apart (Or.inl ?_)
    rw [TqDesc.length_bytes]
    unfold slot
    omega
  | post hpc =>
    obtain ⟨hidle, hsent, hhead, -⟩ := h.before (by rw [hpc]; decide)
    obtain ⟨x, hx, hdesc, hbuf⟩ := h.built hpc
    exact ⟨fun _ => h.base (by rw [hpc]; decide), h.packet, fun h => absurd h (show ¬ 7 ≤ 6 by decide),
      fun h => (by cases h), fun _ => ⟨rfl, .pending x hidle hhead hsent hx hdesc hbuf⟩,
      fun h => absurd h (show ¬ 8 ≤ 7 by decide)⟩
  | waiting hpc hdone =>
    obtain ⟨htail, hposted⟩ := h.posted (by rw [hpc]; decide)
    exact ⟨fun _ => h.base (by rw [hpc]; decide), h.packet, fun h => absurd h (show ¬ 8 ≤ 6 by decide),
      fun h => (by cases h), fun _ => ⟨htail, hposted.congr rfl rfl rfl fun _ _ => rfl⟩,
      fun _ => hposted.sent_of_done hdone⟩
  | poll hpc =>
    exact h.elsewhere (Or.inr ⟨by rw [hpc]; decide, show 8 ≤ 9 by decide⟩) rfl rfl rfl rfl fun _ _ => rfl
  | visit i n hpc =>
    exact h.elsewhere (Or.inr ⟨by rw [hpc]; exact (by decide : 8 ≤ 9), show 8 ≤ 9 by decide⟩) rfl rfl rfl
      rfl fun _ _ => rfl
  | visited i n hpc =>
    exact h.elsewhere (Or.inr ⟨by rw [hpc]; exact (by decide : 8 ≤ 9), show 8 ≤ 10 by decide⟩) rfl rfl rfl
      rfl fun _ _ => rfl
  | rxFetch | rxAdvance => exact h.elsewhere (Or.inl rfl) rfl rfl rfl rfl fun _ _ => rfl
  | rxStore d frame hrx hsize =>
    have hlt := hr.busy (by rw [hrx]; rintro ⟨⟩)
    refine h.elsewhere (Or.inl rfl) rfl rfl rfl rfl fun y hy => Mem.write_of_le (hy.trans' ?_)
    unfold slot
    omega
  | rxWriteBack d frame hrx =>
    have hlt := hr.busy (by rw [hrx]; rintro ⟨⟩)
    refine h.elsewhere (Or.inl rfl) rfl rfl rfl rfl fun y hy => Mem.write_of_le (hy.trans' ?_)
    rw [RqDesc.length_result]
    unfold ring slot
    omega
  | txFetch x hidle hhead hrank hx hdesc hbuf =>
    have hsent : s.sent = [] := by
      cases (h.posted hrank).2 with
      | pending _ _ _ hsent => exact hsent
      | fetched _ htx | read _ htx | written htx =>
        rw [hidle] at htx
        cases htx
      | advanced _ hone =>
        rw [hhead] at hone
        cases hone
    exact h.sends hrank rfl rfl h.packet (.fetched x rfl hhead hsent hx hdesc hbuf) h.waited
  | txRead x htx =>
    have hrank := hbusy (by rw [htx]; rintro ⟨⟩)
    cases (h.posted hrank).2 with
    | fetched x' htx' hhead hsent hx hdesc =>
      have hsent' : s.sent ++ [counting 64] = [counting 64] := by rw [hsent, List.nil_append]
      exact h.sends hrank rfl rfl rfl
        (.read x rfl hhead hsent' (by
          rw [htx] at htx'
          cases htx'
          exact hdesc)) fun _ => hsent'
    | pending _ htx' | read _ htx' | written htx' | advanced htx' =>
      rw [htx] at htx'
      cases htx'
  | txWriteBack x htx =>
    have hrank := hbusy (by rw [htx]; rintro ⟨⟩)
    cases (h.posted hrank).2 with
    | read x' htx' hhead hsent =>
      exact h.sends hrank rfl rfl h.packet (.written rfl hhead hsent) h.waited
    | pending _ htx' | fetched _ htx' | written htx' | advanced htx' =>
      rw [htx] at htx'
      cases htx'
  | txAdvance htx =>
    have hrank := hbusy (by rw [htx]; rintro ⟨⟩)
    cases (h.posted hrank).2 with
    | written _ hhead hsent =>
      exact h.sends hrank rfl rfl h.packet (.advanced rfl rfl hsent) h.waited
    | pending _ htx' | fetched _ htx' | read _ htx' | advanced htx' =>
      rw [htx] at htx'
      cases htx'

theorem inv_step (h : Inv r s) (hstep : step r off s l = some t) : Inv r t := by
  have hcases := step_cases h hstep
  exact ⟨h.locals.step hcases, h.receives.step h.locals hcases, h.transmits.step h.receives hcases⟩

/-- A frame that the device has moved past is stored and described. -/
theorem stored_of_received {i : Nat} {frame : Frame} (h : s.received[i]? = some frame) :
    s.stored[i]? = some frame.bytes := by
  obtain ⟨hlt, -⟩ := List.getElem?_eq_some_iff.mp h
  rw [State.stored, List.getElem?_append_left (by rwa [List.length_map]), List.getElem?_map, h]
  rfl

theorem Receives.describes_of_received (h : Receives r s) {i : Nat} {frame : Frame}
    (hi : s.received[i]? = some frame) : Describes r s.mem i (some frame) := by
  obtain ⟨hlt, -⟩ := List.getElem?_eq_some_iff.mp hi
  have hcount := h.count
  have hrank : 4 ≤ s.pc.rank := by
    by_contra hlow
    obtain ⟨-, -, hnone⟩ := h.off (Nat.not_le.mp hlow)
    rw [hnone] at hi
    cases hi
  have hdesc := h.descs i (by rw [Pc.prepared_eq (hrank.trans' (by decide))]; omega)
  rwa [show s.described[i]? = some frame from (List.getElem?_append_left hlt).trans hi] at hdesc

theorem inv_preserved : (machine r off).Preserves (Inv r) := fun _ _ _ => inv_step

theorem inv_reachable {mem : Mem} (h : (machine r off).Reachable (initial r mem) s) : Inv r s :=
  inv_preserved.reachable (inv_initial r mem) h

-- ---------------------------------------------------------------------------
-- What is received and sent
-- ---------------------------------------------------------------------------

/-- **What has been received is in the buffers**, in the order of the ring: frame `i` lies whole
in the buffer of descriptor `i`, and the descriptor has its length and the status that the device
has written back for it, with the bit that says so. Neither side has used an address outside the
region. -/
theorem main_received {mem : Mem} (h : (machine r off).Reachable (initial r mem) s) :
    s.pc ≠ .exited ∧ s.blocked = false ∧ s.received.length ≤ 127 ∧
      ∀ i frame, s.received[i]? = some frame →
        Holds s.mem (slot r (i + 1)) frame.bytes ∧ Describes r s.mem i (some frame) := by
  have hinv := inv_reachable h
  obtain ⟨hlocals, hreceives, -⟩ := hinv
  refine ⟨hlocals.exited, hlocals.blocked, hreceives.count, fun i frame hi => ?_⟩
  exact ⟨(hreceives.frames i _ (stored_of_received hi)).1, hreceives.describes_of_received hi⟩

/-- One frame comes in before the packet goes out. -/
def firstRun : List Label :=
  List.replicate 132 .program ++ [.rxFetch, .rxStore [1, 2, 0, 46], .rxWriteBack 0 0 3 0, .rxAdvance] ++
    List.replicate 3 .program ++ [.txFetch, .txRead, .txWriteBack, .txAdvance, .program]

/-- Another one comes in while the first is printed. -/
def secondRun : List Label :=
  [.rxFetch, .rxStore [5], .rxWriteBack 0 0 1 0, .rxAdvance, .program, .program]

theorem exec_firstRun :
    ((machine somePage 2).exec (initial somePage fun _ => 0) firstRun).map
      (fun s => (s.pc, s.received)) = some (.poll, [⟨[1, 2, 0, 46], 3⟩]) := by
  decide +kernel

theorem main_received_oneFrame :
    ∃ s, (machine somePage 2).Reachable (initial somePage fun _ => 0) s ∧
      Holds s.mem (slot somePage 1) [1, 2, 0, 46] := by
  obtain ⟨s, hexec, hproj⟩ := Option.map_eq_some_iff.mp exec_firstRun
  obtain ⟨-, hreceived⟩ := Prod.mk.inj hproj
  have hreach : (machine somePage 2).Reachable (initial somePage fun _ => 0) s := ⟨_, hexec⟩
  obtain ⟨-, -, -, hframes⟩ := main_received hreach
  exact ⟨s, hreach, (hframes 0 _ (by rw [hreceived]; rfl)).1⟩

/-- `send_one` has returned: it has seen `DD` in the descriptor of the packet. -/
def State.SendOneReturned (s : State) : Prop := Pc.poll.rank ≤ s.pc.rank

/-- **Nothing but the packet of `send_one` goes out**, and `send_one` waits until it has: by `DD`
the device says that it has read the packet. -/
theorem main_transmits {mem : Mem} (h : (machine r off).Reachable (initial r mem) s) :
    (s.sent = [] ∨ s.sent = [counting 64]) ∧ (s.SendOneReturned → s.sent = [counting 64]) := by
  obtain ⟨-, -, htransmits⟩ := inv_reachable h
  refine ⟨?_, htransmits.waited⟩
  rcases Nat.lt_or_ge s.pc.rank 7 with hlow | hhigh
  · exact Or.inl (htransmits.before (Nat.le_of_lt_succ hlow)).2.1
  · cases (htransmits.posted hhigh).2 with
    | pending _ _ _ hsent | fetched _ _ _ hsent => exact Or.inl hsent
    | read _ _ _ hsent | written _ _ hsent | advanced _ _ hsent => exact Or.inr hsent

theorem main_transmits_onePacket :
    ∃ s, (machine somePage 2).Reachable (initial somePage fun _ => 0) s ∧ s.pc = .poll ∧
      s.sent = [counting 64] := by
  obtain ⟨s, hexec, hproj⟩ := Option.map_eq_some_iff.mp exec_firstRun
  obtain ⟨hpc, -⟩ := Prod.mk.inj hproj
  have hreach : (machine somePage 2).Reachable (initial somePage fun _ => 0) s := ⟨_, hexec⟩
  exact ⟨s, hreach, hpc, (main_transmits hreach).2 (by rw [State.SendOneReturned, hpc])⟩

-- ---------------------------------------------------------------------------
-- The walk over the ring
-- ---------------------------------------------------------------------------

section Walk

/-- The walk, when it has printed the lines of the descriptors `es` and is at `i`. -/
def State.walked (r : Region) (off : Nat) (s : State) (es : List Nat) (pc : Pc) : State :=
  { s with printed := s.printed ++ es.map (line r off s), pc := pc }

variable {es : List Nat} {i j n : Nat}

/-- A round of the walk is one of `Ring.rqPollOnce`. -/
theorem exec_rounds {q : Ring} (hlen : q.len = rqLen) (h : q.rqPollOnce.rounds n i = some (es, j))
    (hpc : s.pc = .walk i q.head) :
    (machine r off).exec s (List.replicate n .program) = some (s.walked r off es (.walk j q.head)) := by
  induction n generalizing s i es with
  | zero =>
    obtain ⟨rfl, rfl⟩ : [] = es ∧ i = j := by simpa [Loop.rounds] using h
    rw [State.walked, List.map_nil, List.append_nil, ← hpc]
    rfl
  | succ n ih =>
    by_cases hlt : i < q.head
    · have hround : q.rqPollOnce.round i = .next i ((i + 1) % q.len) := if_pos hlt
      rw [Loop.rounds_cons hround] at h
      obtain ⟨⟨es', j'⟩, hrest, heq⟩ := Option.map_eq_some_iff.mp h
      obtain ⟨rfl, rfl⟩ := Prod.mk.inj heq
      have hstep : (machine r off).step s .program =
          some (s.walked r off [i] (.walk ((i + 1) % q.len) q.head)) := by
        simp only [machine, step, program, hpc, if_pos hlt, hlen]
        rfl
      refine Machine.exec_cons_iff.mpr ⟨_, hstep, (ih hrest rfl).trans ?_⟩
      simp only [State.walked, List.append_assoc]
      rfl
    · have hround : q.rqPollOnce.round i = .done := if_neg hlt
      rw [Loop.rounds, hround] at h
      cases h

/-- **The walk is the loop of `Ring.rqPollOnce`** on the ring that the registers tell of, as long
as nobody else moves: it prints a line for each descriptor that the loop visits. -/
theorem exec_poll (q : Ring) (hlen : q.len = rqLen) (hhead : q.head = s.rxq.rdh)
    (htail : q.tail = s.rxq.rdt) (hpc : s.pc = .poll)
    (h : q.rqPollOnce.Ends q.firstPrepared es j) :
    ∃ n, (machine r off).exec s (List.replicate n .program) = some (s.walked r off es .done) := by
  obtain ⟨⟨n, hrounds⟩, hdone⟩ := h
  have hover : ¬ j < q.head := fun hlt => by
    have hround : q.rqPollOnce.round j = .next j ((j + 1) % q.len) := if_pos hlt
    rw [hround] at hdone
    cases hdone
  have hfirst : (machine r off).step s .program =
      some (s.walked r off [] (.walk q.firstPrepared q.head)) := by
    simp only [machine, step, program, hpc, Ring.firstPrepared, hlen, hhead, htail, State.walked,
      List.map_nil, List.append_nil]
  have hlast : (machine r off).step (s.walked r off es (.walk j q.head)) .program =
      some (s.walked r off es .done) := by
    simp only [machine, step, program, State.walked, if_neg hover]
  refine ⟨n + 1 + 1, ?_⟩
  rw [List.replicate_succ, List.replicate_succ']
  refine Machine.exec_cons_iff.mpr ⟨_, hfirst, Machine.exec_append_iff.mpr
    ⟨s.walked r off es (.walk j q.head), ?_, ?_⟩⟩
  · have hpc' : (s.walked r off [] (.walk q.firstPrepared q.head)).pc =
        .walk q.firstPrepared q.head := rfl
    refine (exec_rounds hlen hrounds hpc').trans ?_
    simp only [State.walked, List.map_nil, List.append_nil]
    rfl
  · exact Machine.exec_cons_iff.mpr ⟨_, hlast, rfl⟩

end Walk

-- ---------------------------------------------------------------------------
-- What is reported
-- ---------------------------------------------------------------------------

/-- The line tells of the frame: its length, where it lies, its status, and the two bytes at
`lengthOffset`, the high one first. -/
def Line.Tells (r : Region) (lengthOffset : Nat) (line : Line) (i : Nat) (frame : Frame) : Prop :=
  line.length.toNat = frame.bytes.length ∧ line.addr.toNat = slot r (i + 1) ∧
    line.status = frame.status ∧ line.status &&& 1 = 1 ∧
    ∀ high low, frame.bytes[lengthOffset]? = some high → frame.bytes[lengthOffset + 1]? = some low →
      line.ethernetLength.toNat = 256 * high.toNat + low.toNat

/-- The two bytes of a word, the other way round. -/
theorem toNat_ntohs (high low : UInt8) :
    (ntohs (.ofNat (leNat [high, low]))).toNat = 256 * high.toNat + low.toNat := by
  have hhigh := high.toNat_lt
  have hlow := low.toNat_lt
  have hword : (UInt16.ofNat (leNat [high, low])).toNat = high.toNat + 256 * low.toNat :=
    UInt16.toNat_ofNat_of_lt' (by show high.toNat + 256 * (low.toNat + 256 * 0) < 65536; omega)
  rw [ntohs, hword, UInt16.toNat_ofNat_of_lt' (by show _ < 65536; omega)]
  omega

/-- The line of a descriptor that the device has written back. -/
theorem line_tells {i : Nat} {frame : Frame} (hrq : s.rqAddr.toNat = r.base.toNat) (hi : i < 128)
    (hholds : Holds s.mem (slot r (i + 1)) frame.bytes) (hdesc : Describes r s.mem i (some frame)) :
    (line r off s i).Tells r off i frame := by
  obtain ⟨d, hring, haddr, hframe⟩ := hdesc
  obtain ⟨hlen, hstatus, hdd⟩ := hframe frame rfl
  have hread : s.mem.read (s.rqAddr.toNat + 16 * i) 16 = d.bytes := by
    rw [hrq]
    exact hring
  have hplace : (iovaddrToVaddr .i10e r.base d.bufferAddress).toNat = slot r (i + 1) := by
    have hroom := r.room
    have hdma := dmaSize_eq
    show ((d.bufferAddress - 0) + r.base).toNat = r.base.toNat + 2048 * (i + 1)
    rw [UInt64.sub_zero, UInt64.toNat_add, haddr, Nat.mod_eq_of_lt (by omega), Nat.add_comm]
  unfold line
  rw [hread, RqDesc.ofBytes_bytes]
  refine ⟨hlen, hplace, hstatus, hdd, fun high low hhigh hlow => ?_⟩
  obtain ⟨hlt, rfl⟩ := List.getElem?_eq_some_iff.mp hhigh
  obtain ⟨hlt', rfl⟩ := List.getElem?_eq_some_iff.mp hlow
  have hword : s.mem.read (slot r (i + 1) + off) 2 = [frame.bytes[off], frame.bytes[off + 1]] := by
    rw [← hholds.apply hlt, ← hholds.apply hlt']
    rfl
  show (ntohs (.ofNat (leNat (s.mem.read ((iovaddrToVaddr .i10e r.base d.bufferAddress).toNat + off)
    2)))).toNat = _
  rw [hplace, hword]
  exact toNat_ntohs _ _

/-- What `rq_poll_once` has printed, of the frames `fs` that were there when it looked. -/
structure Reports (r : Region) (off : Nat) (fs : List Frame) (s : State) : Prop where
  inv : Inv r s
  there : fs <+: s.received
  walk : ∃ i, i = s.printed.length ∧ i ≤ fs.length ∧
    (s.pc = .walk i fs.length ∨ s.pc = .done ∧ i = fs.length)
  lines : ∀ i l frame, s.printed[i]? = some l → fs[i]? = some frame → Line.Tells r off l i frame

theorem reports_step {fs : List Frame} (h : Reports r off fs s) (hstep : step r off s l = some t) :
    Reports r off fs t := by
  have hinv := inv_step h.inv hstep
  have hcases := step_cases h.inv hstep
  obtain ⟨hinv', hthere, ⟨i, hi, hle, hpc⟩, hlines⟩ := h
  cases hcases with
  | visit i' n hwalk hlt =>
    rcases hpc with hpc | ⟨hpc, -⟩
    · rw [hwalk] at hpc
      cases hpc
      have hcount := hinv'.receives.count
      have hmore := hthere.length_le
      have hnext : (i + 1) % rqLen = i + 1 := Nat.mod_eq_of_lt (show i + 1 < 128 by omega)
      refine ⟨hinv, hthere, ⟨i + 1, ?_, hlt, Or.inl ?_⟩, fun j l frame hj hframe => ?_⟩
      · show i + 1 = (s.printed ++ [line r off s i]).length
        rw [List.length_append, hi]
        rfl
      · show Pc.walk ((i + 1) % rqLen) fs.length = _
        rw [hnext]
      · rcases getElem?_concat_cases hj with hold | ⟨rfl, rfl⟩
        · exact hlines j l frame hold hframe
        · rw [← hi] at hframe ⊢
          have hreceived : s.received[i]? = some frame := by
            obtain ⟨rest, hrest⟩ := hthere
            obtain ⟨hin, -⟩ := List.getElem?_eq_some_iff.mp hframe
            rw [← hrest, List.getElem?_append_left hin]
            exact hframe
          refine line_tells (hinv'.locals.rq ?_) (by omega) (hinv'.receives.frames i _
            (stored_of_received hreceived)).1 (hinv'.receives.describes_of_received hreceived)
          rw [hwalk]
          exact (by decide : 1 ≤ 9)
    · rw [hwalk] at hpc
      cases hpc
  | visited i' n hwalk hnot =>
    refine ⟨hinv, hthere, ⟨i, hi, hle, Or.inr ⟨rfl, ?_⟩⟩, hlines⟩
    rcases hpc with hpc | ⟨hpc, -⟩
    · rw [hwalk] at hpc
      cases hpc
      omega
    · rw [hwalk] at hpc
      cases hpc
  | rxAdvance frame => exact ⟨hinv, hthere.trans (List.prefix_append _ _), ⟨i, hi, hle, hpc⟩, hlines⟩
  | rxFetch | rxStore | rxWriteBack | txFetch | txRead | txWriteBack | txAdvance =>
    exact ⟨hinv, hthere, ⟨i, hi, hle, hpc⟩, hlines⟩
  | allocRq _ _ hother | prepare _ _ _ hother | prepared hother | rxRegisters _ _ hother
  | rxEnable hother | allocTq _ _ _ _ hother | sendOne _ _ hother | post hother | waiting hother
  | poll hother =>
    rw [hother] at hpc
    rcases hpc with hpc | ⟨hpc, -⟩ <;> cases hpc

theorem reports_reachable {fs : List Frame} (h : Reports r off fs s)
    (hrun : (machine r off).Reachable s t) : Reports r off fs t := by
  have hkeep : (machine r off).Preserves (Reports r off fs) := fun _ _ _ => reports_step
  exact hkeep.reachable h hrun

/-- Nothing is printed before. -/
theorem unprinted_reachable {mem : Mem} (h : (machine r off).Reachable (initial r mem) s) :
    Inv r s ∧ (s.pc.rank ≤ 8 → s.printed = []) := by
  have hkeep : (machine r off).Preserves fun s => Inv r s ∧ (s.pc.rank ≤ 8 → s.printed = []) := by
    rintro s l t ⟨hinv, hnone⟩ hstep
    refine ⟨inv_step hinv hstep, ?_⟩
    have hcases := step_cases hinv hstep
    cases hcases with
    | allocRq _ _ hpc | prepare _ _ _ hpc | prepared hpc | rxRegisters _ _ hpc | rxEnable hpc
    | allocTq _ _ _ _ hpc | sendOne _ _ hpc | post hpc | waiting hpc =>
      exact fun _ => hnone (by rw [hpc]; simp [Pc.rank])
    | poll | visit => exact fun h => absurd h (show ¬ 9 ≤ 8 by decide)
    | visited => exact fun h => absurd h (show ¬ 10 ≤ 8 by decide)
    | rxFetch | rxStore | rxWriteBack | rxAdvance | txFetch | txRead | txWriteBack | txAdvance =>
      exact hnone
  exact hkeep.reachable ⟨inv_initial r mem, fun _ => rfl⟩ h

/-- **`rq_poll_once` reports the frames that have been received when it looks**, one line for
each and in their order, whatever comes in while it walks; and it ends. -/
theorem main_reports {mem : Mem} {m : State} (h : (machine r off).Reachable (initial r mem) s)
    (hpc : s.pc = .poll) (hpoll : step r off s .program = some m)
    (hrun : (machine r off).Reachable m t) :
    (∀ i l frame, t.printed[i]? = some l → s.received[i]? = some frame → Line.Tells r off l i frame) ∧
      (t.pc = .done ∧ t.printed.length = s.received.length ∨
        t.printed.length ≤ s.received.length ∧ ∃ u, step r off t .program = some u ∧
          (u.pc = .done ∨ u.printed.length = t.printed.length + 1)) := by
  obtain ⟨hinv, hnone⟩ := unprinted_reachable h
  have hempty : s.printed = [] := hnone (by rw [hpc]; decide)
  have hstart : Reports r off s.received m := by
    have hinv' := inv_step hinv hpoll
    have hcases := step_cases hinv hpoll
    cases hcases with
    | poll =>
      refine ⟨hinv', List.prefix_rfl, ⟨0, ?_, Nat.zero_le _, Or.inl rfl⟩, fun i l frame hi => ?_⟩
      · show 0 = s.printed.length
        rw [hempty]
        rfl
      · have hi' : s.printed[i]? = some l := hi
        rw [hempty] at hi'
        cases hi'
    | allocRq _ _ hother | prepare _ _ _ hother | prepared hother | rxRegisters _ _ hother
    | rxEnable hother | allocTq _ _ _ _ hother | sendOne _ _ hother | post hother | waiting hother
    | visit _ _ hother | visited _ _ hother =>
      rw [hpc] at hother
      cases hother
  obtain ⟨-, -, ⟨i, hi, hle, hwalk | ⟨hdone, hlast⟩⟩, hlines⟩ := reports_reachable hstart hrun
  · refine ⟨hlines, Or.inr ⟨hi ▸ hle, ?_⟩⟩
    rcases Nat.lt_or_ge i s.received.length with hlt | hge
    · refine ⟨_, by simp only [step, program, hwalk, if_pos hlt]; rfl, Or.inr ?_⟩
      exact List.length_append
    · exact ⟨_, by simp only [step, program, hwalk, if_neg (Nat.not_lt.mpr hge)]; rfl, Or.inl rfl⟩
  · exact ⟨hlines, Or.inl ⟨hdone, hi.symm.trans hlast⟩⟩

theorem exec_secondRun :
    (((machine somePage 2).exec (initial somePage fun _ => 0) firstRun).bind fun s =>
      (step somePage 2 s .program).bind fun m => ((machine somePage 2).exec m secondRun).map
        fun t => (s.pc, s.received, t.pc, t.printed.length, t.received)) =
      some (.poll, [⟨[1, 2, 0, 46], 3⟩], .done, 1, [⟨[1, 2, 0, 46], 3⟩, ⟨[5], 1⟩]) := by
  decide +kernel

theorem main_reports_firstFrame :
    ∃ t : State, t.received = [⟨[1, 2, 0, 46], 3⟩, ⟨[5], 1⟩] ∧ ∃ l, t.printed = [l] ∧
      Line.Tells somePage 2 l 0 ⟨[1, 2, 0, 46], 3⟩ := by
  obtain ⟨s, hexec, hrest⟩ := Option.bind_eq_some_iff.mp exec_secondRun
  obtain ⟨m, hpoll, hrest⟩ := Option.bind_eq_some_iff.mp hrest
  obtain ⟨t, hrun, hproj⟩ := Option.map_eq_some_iff.mp hrest
  obtain ⟨hpc, hproj⟩ := Prod.mk.inj hproj
  obtain ⟨hreceived, hproj⟩ := Prod.mk.inj hproj
  obtain ⟨-, hproj⟩ := Prod.mk.inj hproj
  obtain ⟨hlen, hlast⟩ := Prod.mk.inj hproj
  obtain ⟨l, hl⟩ := List.length_eq_one_iff.mp hlen
  have hreach : (machine somePage 2).Reachable (initial somePage fun _ => 0) s := ⟨_, hexec⟩
  have hreach' : (machine somePage 2).Reachable m t := ⟨_, hrun⟩
  obtain ⟨hlines, -⟩ := main_reports hreach hpc hpoll hreach'
  exact ⟨t, hlast, l, hl, hlines 0 l _ (by rw [hl]; rfl) (by rw [hreceived]; rfl)⟩

end EchoServer.Nic.I10e
