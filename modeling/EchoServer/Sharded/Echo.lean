import EchoServer.Sharded.Phases

/-!
# io_uring_sharded — what every connection is sent

The data half of the invariant through every step, and what it means for the
connections. One threadlet after another is served from the same loop, and the two
requests of a reply, its `send` and the `recv` of the next message into the same buffer,
are queued together; what keeps them apart is the link between them.

The kernel is the one of the model of the ring: it starts and finishes requests in any
order that the links allow, cuts and fails them at any time, and posts completions in any
order. Of the clients nothing is assumed: their streams are any bytes, of any length.

Main results:

* `echo_step` — every step keeps the phases of all threadlets and connections;
* `Echo.no_overlap` — no `recv` writes a buffer that a `send` is reading;
* `mainLoop_echoes` — on every connection, at every reachable state, the
  payload sent is a prefix of the connection's own blocks.
-/

namespace EchoServer.Sharded

open EchoServer.Lib

variable {cfg : Config} {s t : State}

-- ---------------------------------------------------------------------------
-- Starting a request
-- ---------------------------------------------------------------------------

theorem setStatus_self (s : State) (q : Nat) (st : Status) : (setStatus s q st).status q = st :=
  Function.update_self ..

theorem setStatus_of_ne {q q' : Nat} (s : State) (st : Status) (h : q' ≠ q) :
    (setStatus s q st).status q' = s.status q' :=
  Function.update_of_ne h ..

/-- The kernel starts a request. When it is the `recv` of a reply, the link before it says that
the `send` from the same buffer is over, so that the buffer holds nothing that is still
needed: the connection goes from replying to receiving. -/
theorem echo_start {q : Nat} (hQ : Queues s) (hO : Owned cfg s) (hE : Echo cfg s)
    (hq : q < s.sqHead) (hidle : s.status q = .idle) (hready : linkReady s q = true) :
    Echo cfg (setStatus s q (.running 0)) := by
  have hsq := hQ.sq_le
  have hno := not_isPosted_idle hidle
  have hlive : ∀ q', Live (setStatus s q (.running 0)) q' ↔ Live s q' :=
    fun q' => live_setStatus hno (by simp) rfl rfl rfl
  have hself := setStatus_self s q (.running 0)
  have hne : ∀ {q'}, q' ≠ q → (setStatus s q (.running 0)).status q' = s.status q' :=
    fun h => setStatus_of_ne s _ h
  cases hE.kind hQ hO (by omega) hno with
  | accept l hop hun =>
    refine hE.congr hQ hO rfl rfl rfl hlive (fun _ _ => rfl) (fun _ => rfl) rfl fun q' => ?_
    by_cases hqq : q' = q
    · subst hqq
      exact Or.inr ⟨hun, Or.inr (by rw [hself]; simp), by rw [hop]; simp⟩
    · exact Or.inl (hne hqq)
  | header r hr hl hc hpc hop =>
    refine hE.frame hQ hO hr (by rw [hpc]; simp) (Or.inl ⟨hl, hc⟩) rfl rfl rfl hlive
      (fun _ _ => rfl) (fun _ _ => rfl) (fun _ _ => rfl) hE.heap_length (fun _ h => hne h)
      (hE.conns _ (hO.fd_opened r hr (by rw [hpc]; simp))) ?_ (by rw [hpc]; simp)
    intro q' hl' hc' _
    obtain rfl := hO.unique q' q r hl' hl hc' hc
    have hp := hE.header q' r hl hc hpc
    refine ⟨hp.unlinked, hp.handed, hp.echoed, ?_, ?_, hp.taken_le⟩
    · intro p hm
      rw [hself] at hm
      exact hp.moving p (by rw [hidle]; exact hm)
    · intro slot hst
      rw [hself] at hst
      cases hst
  | msg r b hr hl hc hpc hb hop =>
    refine hE.frame hQ hO hr (by rw [hpc]; simp) (Or.inl ⟨hl, hc⟩) rfl rfl rfl hlive
      (fun _ _ => rfl) (fun _ _ => rfl) (fun _ _ => rfl) hE.heap_length (fun _ h => hne h)
      (hE.conns _ (hO.fd_opened r hr (by rw [hpc]; simp))) (by rw [hpc]; simp) ?_
    intro q' hl' hc' _
    obtain rfl := hO.unique q' q r hl' hl hc' hc
    -- the reply in front, if any, is over: the buffer is free
    have hfront : ∀ q'', q'' + 1 = q' → (s.sqes q'').link = true →
        ∃ slot, s.status q'' = .posted slot true := by
      rintro q'' rfl hlink
      exact linkReady_posted hready (hQ.follows_succ hq hlink)
    obtain ⟨k, p, hrec⟩ := (hE.msg q' r hl hc hpc).receiving_of_ready hno hfront
    have hp : 0 = p := by
      have hm := hrec.moved_eq
      rw [hidle] at hm
      exact Option.some.inj hm
    subst hp
    refine .receiving k 0 ⟨by rw [hself]; rfl, ?_, hrec.le, hrec.handed, hrec.echoed, hrec.taken,
      hrec.mem⟩
    intro q'' hq'' hlink
    obtain ⟨slot, hst⟩ := hfront q'' hq'' hlink
    exact ⟨slot, true, by rw [hne (by omega)]; exact hst⟩
  | reply r b hr hl hc hpc hb hlink hop hidle' =>
    refine hE.frame hQ hO hr (by rw [hpc]; simp) (Or.inr ⟨by omega, hlink, hc⟩) rfl rfl rfl hlive
      (fun _ _ => rfl) (fun _ _ => rfl) (fun _ _ => rfl) hE.heap_length (fun _ h => hne h)
      (hE.conns _ (hO.fd_opened r hr (by rw [hpc]; simp))) (by rw [hpc]; simp) ?_
    intro q' hl' hc' _
    obtain rfl := hO.unique q' (q + 1) r hl' hl hc' hc
    obtain ⟨k, p, hs⟩ := (hE.msg (q + 1) r hl hc hpc).sending_of_front hlink hidle' hno
    have hp : 0 = p := by
      have hm := hs.moved_eq
      rw [hidle] at hm
      exact Option.some.inj hm
    subst hp
    exact .sending k 0 q rfl ⟨hlink, by rw [hne (by omega)]; exact hidle', by rw [hself]; rfl,
      hs.le, hs.handed, hs.echoed, hs.taken, hs.mem⟩
  | announce fd len hop hun =>
    refine hE.congr hQ hO rfl rfl rfl hlive (fun _ _ => rfl) (fun _ => rfl) rfl fun q' => ?_
    by_cases hqq : q' = q
    · subst hqq
      exact Or.inr ⟨hun, Or.inl ⟨fd, _, len, hop⟩, by rw [hop]; simp⟩
    · exact Or.inl (hne hqq)

-- ---------------------------------------------------------------------------
-- Completions
-- ---------------------------------------------------------------------------

theorem post_self {q : Nat} {res : Int} (s : State) :
    (post s q res).status q = .posted s.cqTail (decide (((s.sqes q).op.len : Int) ≤ res)) :=
  Function.update_self ..

theorem post_self_fail {q : Nat} {res : Int} (h : res < (s.sqes q).op.len) :
    (post s q res).status q = .posted s.cqTail false := by
  rw [post_self, decide_eq_false (Int.not_le.mpr h)]

/-- A request that has moved all its bytes is posted as one that a linked request may
follow. -/
theorem post_self_full {q : Nat} (s : State) :
    (post s q (s.sqes q).op.len).status q = .posted s.cqTail true := by
  rw [post_self, decide_eq_true (Int.le_refl _)]

theorem post_of_ne {q q' : Nat} {res : Int} (s : State) (h : q' ≠ q) :
    (post s q res).status q' = s.status q' :=
  Function.update_of_ne h ..

theorem post_cqes {q slot : Nat} {res : Int} (s : State) (h : slot < s.cqTail) :
    (post s q res).cqes slot = s.cqes slot :=
  Function.update_of_ne (Nat.ne_of_lt h) ..

/-- A request fails, comes up short or is cancelled. -/
theorem echo_fail {q : Nat} {res : Int} (hQ : Queues s) (hO : Owned cfg s) (hE : Echo cfg s)
    (hq : q < s.sqTail) (hno : ¬ IsPosted s q) (hres : res < (s.sqes q).op.len) :
    Echo cfg (post s q res) := by
  have hlive : ∀ q', Live (post s q res) q' ↔ Live s q' := fun q' => live_post hQ hno
  have hself := post_self_fail hres
  have hne : ∀ {q'}, q' ≠ q → (post s q res).status q' = s.status q' := fun h => post_of_ne s h
  have hcqes : ∀ slot < s.cqTail, (post s q res).cqes slot = s.cqes slot :=
    fun slot h => post_cqes s h
  cases hE.kind hQ hO hq hno with
  | accept l hop hun =>
    refine hE.congr hQ hO rfl rfl rfl hlive hcqes (fun _ => rfl) rfl fun q' => ?_
    by_cases hqq : q' = q
    · subst hqq
      exact Or.inr ⟨hun, Or.inr (by rw [hself]; simp), by rw [hop]; simp⟩
    · exact Or.inl (hne hqq)
  | header r hr hl hc hpc hop =>
    refine hE.frame hQ hO hr (by rw [hpc]; simp) (Or.inl ⟨hl, hc⟩) rfl rfl rfl hlive
      hcqes (fun _ _ => rfl) (fun _ _ => rfl) hE.heap_length (fun _ h => hne h)
      (hE.conns _ (hO.fd_opened r hr (by rw [hpc]; simp))) ?_ (by rw [hpc]; simp)
    intro q' hl' hc' _
    obtain rfl := hO.unique q' q r hl' hl hc' hc
    have hp := hE.header q' r hl hc hpc
    refine ⟨hp.unlinked, hp.handed, hp.echoed, ?_, ?_, hp.taken_le⟩
    · intro p hm
      rw [hself] at hm
      cases hm
    · intro slot hst
      rw [hself] at hst
      cases hst
  | msg r b hr hl hc hpc hb hop =>
    refine hE.frame hQ hO hr (by rw [hpc]; simp) (Or.inl ⟨hl, hc⟩) rfl rfl rfl hlive
      hcqes (fun _ _ => rfl) (fun _ _ => rfl) hE.heap_length (fun _ h => hne h)
      (hE.conns _ (hO.fd_opened r hr (by rw [hpc]; simp))) (by rw [hpc]; simp) ?_
    intro q' hl' hc' _
    obtain rfl := hO.unique q' q r hl' hl hc' hc
    exact .failed s.cqTail hself
  | reply r b hr hl hc hpc hb hlink hop hidle' =>
    refine hE.frame hQ hO hr (by rw [hpc]; simp) (Or.inr ⟨hq, hlink, hc⟩) rfl rfl rfl hlive
      hcqes (fun _ _ => rfl) (fun _ _ => rfl) hE.heap_length (fun _ h => hne h)
      (hE.conns _ (hO.fd_opened r hr (by rw [hpc]; simp))) (by rw [hpc]; simp) ?_
    intro q' hl' hc' _
    obtain rfl := hO.unique q' (q + 1) r hl' hl hc' hc
    exact .cut q s.cqTail rfl hlink (by rw [hne (by omega)]; exact hidle') hself
  | announce fd len hop hun =>
    refine hE.congr hQ hO rfl rfl rfl hlive hcqes (fun _ => rfl) rfl fun q' => ?_
    by_cases hqq : q' = q
    · subst hqq
      exact Or.inr ⟨hun, Or.inl ⟨fd, _, len, hop⟩, by rw [hop]; simp⟩
    · exact Or.inl (hne hqq)

/-- A `send` or `recv` completes in full. -/
theorem echo_finish {q p : Nat} (hQ : Queues s) (hO : Owned cfg s) (hE : Echo cfg s)
    (hst : s.status q = .running p) (hp : p = (s.sqes q).op.len)
    (hop' : ∀ l, (s.sqes q).op ≠ .accept l) : Echo cfg (post s q p) := by
  have hno := not_isPosted_running hst
  have hq : q < s.sqTail := by
    have := hQ.submitted (q := q) (by rw [hst]; simp)
    have := hQ.sq_le
    omega
  have hlive : ∀ q', Live (post s q p) q' ↔ Live s q' := fun q' => live_post hQ hno
  have hself : (post s q p).status q = .posted s.cqTail true := by
    rw [hp]
    exact post_self_full s
  have hne : ∀ {q'}, q' ≠ q → (post s q p).status q' = s.status q' := fun h => post_of_ne s h
  have hcqes : ∀ slot < s.cqTail, (post s q p).cqes slot = s.cqes slot :=
    fun slot h => post_cqes s h
  cases hE.kind hQ hO hq hno with
  | accept l hop hun => exact absurd hop (hop' l)
  | header r hr hl hc hpc hop =>
    refine hE.frame hQ hO hr (by rw [hpc]; simp) (Or.inl ⟨hl, hc⟩) rfl rfl rfl hlive
      hcqes (fun _ _ => rfl) (fun _ _ => rfl) hE.heap_length (fun _ h => hne h)
      (hE.conns _ (hO.fd_opened r hr (by rw [hpc]; simp))) ?_ (by rw [hpc]; simp)
    intro q' hl' hc' _
    obtain rfl := hO.unique q' q r hl' hl hc' hc
    have hph := hE.header q' r hl hc hpc
    refine ⟨hph.unlinked, hph.handed, hph.echoed, ?_, fun slot _ => ?_, hph.taken_le⟩
    · intro p' hm
      rw [hself] at hm
      cases hm
    · rw [hop, Op.len] at hp
      exact (hph.moving p (by rw [hst]; rfl)).1.trans hp
  | msg r b hr hl hc hpc hb hop =>
    have hconn := hE.conns _ (hO.fd_opened r hr (by rw [hpc]; simp))
    refine hE.frame hQ hO hr (by rw [hpc]; simp) (Or.inl ⟨hl, hc⟩) rfl rfl rfl hlive
      hcqes (fun _ _ => rfl) (fun _ _ => rfl) hE.heap_length (fun _ h => hne h)
      hconn (by rw [hpc]; simp) ?_
    intro q' hl' hc' _
    obtain rfl := hO.unique q' q r hl' hl hc' hc
    obtain ⟨k, hrec⟩ := (hE.msg q' r hl hc hpc).receiving_of_running hst
    have hpn : p = cfg.msgSize.val := by rw [hp, hop, Op.len]
    subst hpn
    have htaken : (flow s (s.recs r).fd).taken = 2 + (k + 1) * cfg.msgSize.val := by
      rw [hrec.taken, Nat.succ_mul, Nat.add_assoc]
    refine .received k ⟨⟨_, hself⟩, hrec.handed, hrec.echoed, htaken, ?_, hrec.mem⟩
    have := hconn.taken_le
    omega
  | reply r b hr hl hc hpc hb hlink hop hidle' =>
    refine hE.frame hQ hO hr (by rw [hpc]; simp) (Or.inr ⟨hq, hlink, hc⟩) rfl rfl rfl hlive
      hcqes (fun _ _ => rfl) (fun _ _ => rfl) hE.heap_length (fun _ h => hne h)
      (hE.conns _ (hO.fd_opened r hr (by rw [hpc]; simp))) (by rw [hpc]; simp) ?_
    intro q' hl' hc' _
    obtain rfl := hO.unique q' (q + 1) r hl' hl hc' hc
    obtain ⟨k, p', hs⟩ := (hE.msg (q + 1) r hl hc hpc).sending_of_front hlink hidle' hno
    have hp' : p = p' := by
      have hm := hs.moved_eq
      rw [hst] at hm
      exact Option.some.inj hm
    have hpn : p = cfg.msgSize.val := by rw [hp, hop, Op.len]
    subst hp'
    -- the block is back in full, and the buffer is free for the next
    refine .receiving (k + 1) 0 ⟨by rw [hne (by omega), hidle']; rfl, ?_, Nat.zero_le _, hs.handed,
      ?_, hs.taken, rfl⟩
    · intro q'' hq'' _
      obtain rfl : q'' = q := by omega
      exact ⟨_, _, hself⟩
    · have he := hs.echoed
      rw [hpn] at he
      rw [Nat.succ_mul]
      exact he
  | announce fd len hop hun =>
    refine hE.congr hQ hO rfl rfl rfl hlive hcqes (fun _ => rfl) rfl fun q' => ?_
    by_cases hqq : q' = q
    · subst hqq
      exact Or.inr ⟨hun, Or.inl ⟨fd, _, len, hop⟩, by rw [hop]; simp⟩
    · exact Or.inl (hne hqq)

-- ---------------------------------------------------------------------------
-- Moving bytes
-- ---------------------------------------------------------------------------

/-- What a `recv` moves is counted as taken, and changes nothing else of the connection. -/
theorem flow_moveIn (cfg : Config) (s : State) (q fd : Nat) (dst : Ptr) (p k : Nat) :
    flow (moveIn cfg s q fd dst p k) fd =
      ⟨(flow s fd).taken + k, (flow s fd).echoed, (flow s fd).handed⟩ := by
  simp [flow, moveIn]

theorem flow_moveIn_of_ne {q fd fd' : Nat} {dst : Ptr} {p k : Nat} (s : State) (h : fd' ≠ fd) :
    flow (moveIn cfg s q fd dst p k) fd' = flow s fd' := by
  simp [flow, moveIn, Function.update_of_ne h]

/-- What a `send` moves is echoed, unless it is of the announcement. -/
theorem flow_moveOut (s : State) (q fd : Nat) (src : Ptr) (p k : Nat) :
    flow (moveOut s q fd src p k) fd =
      ⟨(flow s fd).taken,
        (flow s fd).echoed ++ payload ((((s.mem src).drop p).take k).map (Prod.mk src)),
        (flow s fd).handed⟩ := by
  simp [flow, moveOut]

theorem flow_moveOut_of_ne {q fd fd' : Nat} {src : Ptr} {p k : Nat} (s : State) (h : fd' ≠ fd) :
    flow (moveOut s q fd src p k) fd' = flow s fd' := by
  simp [flow, moveOut, Function.update_of_ne h]

/-- More of the stream is taken, up to the end of the block being received. -/
theorem FlowOk.take {n taken : Nat} {S : Bytes} {c : Flow} (h : FlowOk n S c)
    (hle : taken ≤ 2 + S.length) (hecho : c.echoed.length = c.handed.length * n)
    (hahead : taken ≤ 2 + (c.handed.length + 1) * n) :
    FlowOk n S ⟨taken, c.echoed, c.handed⟩ :=
  ⟨h.handed_le, h.handed_eq, h.echoed_eq, h.echoed_le, h.le_echoed, hle, Or.inr ⟨hecho, hahead⟩⟩

/-- Bytes of the stream after what comes after the part already taken. -/
theorem take_streams (cfg : Config) (fd : Nat) {k m : Nat} (h : 2 + m + k ≤ (cfg.streams fd).length) :
    ((cfg.streams fd).drop (2 + m)).take k = ((body cfg fd).drop m).take k ∧
      (((cfg.streams fd).drop (2 + m)).take k).length = k := by
  refine ⟨by rw [body, List.drop_drop], ?_⟩
  rw [List.length_take, List.length_drop]
  omega

section MoveIn

variable {q k p fd : Nat} {dst : Ptr}

/-- A request in progress is as live after some of its bytes as before. -/
theorem live_moveIn (hno : ¬ IsPosted s q) (q' : Nat) :
    Live (moveIn cfg s q fd dst p k) q' ↔ Live s q' :=
  live_setStatus hno (by simp) rfl rfl rfl

theorem moveIn_status (cfg : Config) (s : State) (q fd : Nat) (dst : Ptr) (p k : Nat) :
    (moveIn cfg s q fd dst p k).status q = .running (p + k) :=
  Function.update_self ..

theorem moveIn_status_of_ne {q' : Nat} (s : State) (h : q' ≠ q) :
    (moveIn cfg s q fd dst p k).status q' = s.status q' :=
  Function.update_of_ne h ..

theorem moveIn_mem (cfg : Config) (s : State) (q fd : Nat) (dst : Ptr) (p k : Nat) :
    (moveIn cfg s q fd dst p k).mem dst =
      overwrite (s.mem dst) p (((cfg.streams fd).drop (flow s fd).taken).take k) :=
  Function.update_self ..

theorem moveIn_mem_of_ne {b : Ptr} (s : State) (h : b ≠ dst) :
    (moveIn cfg s q fd dst p k).mem b = s.mem b :=
  Function.update_of_ne h ..

theorem length_streams_le (cfg : Config) (fd : Nat) :
    (cfg.streams fd).length ≤ 2 + (body cfg fd).length := by
  rw [body, List.length_drop]
  omega

/-- Bytes of a header come in: the buffers of the threadlets stay as they are. -/
theorem echo_recvHeader {r : Nat} (hQ : Queues s) (hO : Owned cfg s) (hE : Echo cfg s)
    (hst : s.status q = .running p) (hr : r < s.nRecs) (hl : Live s q) (hc : Carries s q r)
    (hpc : (s.recs r).pc = .receivedHeader) (hlen : p + k ≤ 2)
    (htaken : (flow s (s.recs r).fd).taken + k ≤ (cfg.streams (s.recs r).fd).length) :
    Echo cfg (moveIn cfg s q (s.recs r).fd .headerBuf p k) := by
  have hno := not_isPosted_running hst
  have hself := moveIn_status cfg s q (s.recs r).fd .headerBuf p k
  have hflow := flow_moveIn cfg s q (s.recs r).fd .headerBuf p k
  have hph := hE.header q r hl hc hpc
  obtain ⟨htk, -⟩ := hph.moving p (by rw [hst]; rfl)
  have hmem : ∀ b, (moveIn cfg s q (s.recs r).fd .headerBuf p k).mem (.heap b) = s.mem (.heap b) :=
    fun b => moveIn_mem_of_ne s (by simp)
  refine hE.frame hQ hO hr (by rw [hpc]; simp) (Or.inl ⟨hl, hc⟩) rfl rfl rfl (live_moveIn hno)
    (fun _ _ => rfl) (fun _ h => flow_moveIn_of_ne s h) (fun b _ => hmem b)
    (fun b => by rw [hmem]; exact hE.heap_length b) (fun _ h => moveIn_status_of_ne s h) ?_ ?_
    (by rw [hpc]; simp)
  · have hconn := hE.conns _ (hO.fd_opened r hr (by rw [hpc]; simp))
    rw [hflow]
    have hecho : (flow s (s.recs r).fd).echoed.length =
        (flow s (s.recs r).fd).handed.length * cfg.msgSize.val := by
      rw [hph.echoed, hph.handed]
      simp
    exact hconn.take (htaken.trans (length_streams_le cfg _)) hecho (by rw [htk]; omega)
  · intro q' hl' hc' _
    obtain rfl := hO.unique q' q r hl' hl hc' hc
    refine ⟨hph.unlinked, by rw [hflow]; exact hph.handed, by rw [hflow]; exact hph.echoed,
      ?_, ?_, by rw [hflow]; simp only; omega⟩
    · intro p' hm
      rw [hself] at hm
      obtain rfl : p + k = p' := Option.some.inj hm
      rw [hflow]
      exact ⟨by simp only; omega, hlen⟩
    · intro slot hpost
      rw [hself] at hpost
      cases hpost

/-- Bytes of a message come into the buffer of the threadlet, which no other one uses. -/
theorem echo_recvMsg {r b : Nat} (hQ : Queues s) (hO : Owned cfg s) (hE : Echo cfg s)
    (hst : s.status q = .running p) (hr : r < s.nRecs) (hl : Live s q) (hc : Carries s q r)
    (hpc : (s.recs r).pc = .receivedMsg) (hb : (s.recs r).buf = .heap b)
    (hlen : p + k ≤ cfg.msgSize.val)
    (htaken : (flow s (s.recs r).fd).taken + k ≤ (cfg.streams (s.recs r).fd).length) :
    Echo cfg (moveIn cfg s q (s.recs r).fd (.heap b) p k) := by
  have hno := not_isPosted_running hst
  have hself := moveIn_status cfg s q (s.recs r).fd (.heap b) p k
  have hflow := flow_moveIn cfg s q (s.recs r).fd (.heap b) p k
  have hconn := hE.conns _ (hO.fd_opened r hr (by rw [hpc]; simp))
  obtain ⟨j, hrec⟩ := (hE.msg q r hl hc hpc).receiving_of_running hst
  have hbuf := hE.heap_length b
  have hsize : cfg.msgSize.val ≤ bufSize := cfg.msgSize.le_bufSize
  have htk := hrec.taken
  obtain ⟨hbytes, hbytesLen⟩ := take_streams cfg (s.recs r).fd (k := k)
    (m := j * cfg.msgSize.val + p) (by omega)
  rw [← Nat.add_assoc, ← htk] at hbytes hbytesLen
  have hmemEq := moveIn_mem cfg s q (s.recs r).fd (.heap b) p k
  have hmemNe : ∀ b', b' ≠ b →
      (moveIn cfg s q (s.recs r).fd (.heap b) p k).mem (.heap b') = s.mem (.heap b') :=
    fun b' h => moveIn_mem_of_ne s (by simpa using h)
  refine hE.frame hQ hO hr (by rw [hpc]; simp) (Or.inl ⟨hl, hc⟩) rfl rfl rfl (live_moveIn hno)
    (fun _ _ => rfl) (fun _ h => flow_moveIn_of_ne s h) ?_ ?_ (fun _ h => moveIn_status_of_ne s h)
    ?_ (by rw [hpc]; simp) ?_
  · intro b' hb'
    refine hmemNe b' fun heq => hb' ⟨hpc, ?_⟩
    rw [hb, heq]
  · intro b'
    by_cases hbb : b' = b
    · rw [hbb, hmemEq, length_overwrite, hbuf]
      rw [hbytesLen]
      omega
    · rw [hmemNe b' hbb]
      exact hE.heap_length b'
  · rw [hflow]
    refine hconn.take (htaken.trans (length_streams_le cfg _)) ?_ ?_
    · rw [hrec.handed, hrec.echoed]
    · rw [hrec.handed, htk, Nat.succ_mul]
      omega
  · intro q' hl' hc' _
    obtain rfl := hO.unique q' q r hl' hl hc' hc
    refine .receiving j (p + k) ⟨by rw [hself]; rfl, ?_, hlen, by rw [hflow]; exact hrec.handed,
      by rw [hflow]; exact hrec.echoed, by rw [hflow]; simp only; omega, ?_⟩
    · intro q'' hq'' hlink
      obtain ⟨slot, full, hpost⟩ := hrec.front q'' hq'' hlink
      exact ⟨slot, full, by rw [moveIn_status_of_ne s (by omega)]; exact hpost⟩
    · -- the bytes that came in follow those of the same block
      have htake := take_overwrite (s.mem (.heap b))
        (((cfg.streams (s.recs r).fd).drop (flow s (s.recs r).fd).taken).take k) (i := p)
        (by have := hrec.le; omega)
      rw [hbytesLen] at htake
      have hold := hrec.mem
      rw [hb] at hold
      rw [hb, hmemEq]
      calc _ = (s.mem (.heap b)).take p ++ _ := htake
        _ = _ := by rw [hold, hbytes, List.take_add, List.drop_drop]

end MoveIn

/-- Some bytes come into the buffer of a `recv`. The header's are dropped, so that only their
number counts; a message's extend the part of the block that the buffer holds, and as no
other live request has the same buffer, no other connection sees them. -/
theorem echo_recvSome {q k p fd len : Nat} {dst : Ptr} (hQ : Queues s) (hO : Owned cfg s)
    (hE : Echo cfg s) (hst : s.status q = .running p) (hop : (s.sqes q).op = .recv fd dst len)
    (hlen : p + k ≤ len) (htaken : (s.conns fd).taken + k ≤ (cfg.streams fd).length) :
    Echo cfg (moveIn cfg s q fd dst p k) := by
  have hno := not_isPosted_running hst
  have hq : q < s.sqTail := by
    have := hQ.submitted (q := q) (by rw [hst]; simp)
    have := hQ.sq_le
    omega
  cases hE.kind hQ hO hq hno with
  | header r hr hl hc hpc hop' =>
    rw [hop, Op.recv.injEq] at hop'
    obtain ⟨rfl, rfl, rfl⟩ := hop'
    exact echo_recvHeader hQ hO hE hst hr hl hc hpc hlen htaken
  | msg r b hr hl hc hpc hb hop' =>
    rw [hop, Op.recv.injEq] at hop'
    obtain ⟨rfl, rfl, rfl⟩ := hop'
    exact echo_recvMsg hQ hO hE hst hr hl hc hpc hb hlen htaken
  | accept l hop' | reply r b _ _ _ _ _ _ hop' | announce fd' len' hop' =>
    -- these do not take bytes
    rw [hop] at hop'
    cases hop'

/-- Some bytes go out of the buffer of a `send`. Those of a reply are the next ones of the
block in the buffer, which the linked `recv` has not been let into; those of the announcement
are no payload of any connection. -/
theorem echo_sendSome {q k p fd len : Nat} {src : Ptr} (hQ : Queues s) (hO : Owned cfg s)
    (hE : Echo cfg s) (hst : s.status q = .running p) (hop : (s.sqes q).op = .send fd src len)
    (hlen : p + k ≤ len) : Echo cfg (moveOut s q fd src p k) := by
  have hno := not_isPosted_running hst
  have hq : q < s.sqTail := by
    have := hQ.submitted (q := q) (by rw [hst]; simp)
    have := hQ.sq_le
    omega
  set t := moveOut s q fd src p k with ht
  have hlive : ∀ q', Live t q' ↔ Live s q' :=
    fun q' => live_setStatus hno (by simp) rfl rfl rfl
  have hself : t.status q = .running (p + k) := Function.update_self ..
  have hne : ∀ {q'}, q' ≠ q → t.status q' = s.status q' := fun h => Function.update_of_ne h ..
  have hflow := flow_moveOut s q fd src p k
  rw [← ht] at hflow
  cases hE.kind hQ hO hq hno with
  | accept l hop' hun =>
    rw [hop] at hop'
    cases hop'
  | header r hr hl hc hpc hop' =>
    rw [hop] at hop'
    cases hop'
  | msg r b hr hl hc hpc hb hop' =>
    rw [hop] at hop'
    cases hop'
  | reply r b hr hl hc hpc hb hlink hop' hidle' =>
    rw [hop, Op.send.injEq] at hop'
    obtain ⟨rfl, rfl, rfl⟩ := hop'
    have hconn := hE.conns _ (hO.fd_opened r hr (by rw [hpc]; simp))
    obtain ⟨j, p', hs⟩ := (hE.msg (q + 1) r hl hc hpc).sending_of_front hlink hidle' hno
    obtain rfl : p = p' := by
      have hm := hs.moved_eq
      rw [hst] at hm
      exact Option.some.inj hm
    rw [payload_heap] at hflow
    -- the bytes sent are the next ones of the block in the buffer
    have hbytes : ((s.mem (.heap b)).drop p).take k =
        ((body cfg (s.recs r).fd).drop (j * cfg.msgSize.val + p)).take k := by
      have hm := hs.mem
      rw [hb] at hm
      rw [take_drop_congr (m := (body cfg (s.recs r).fd).drop (j * cfg.msgSize.val)) hm hlen,
        List.drop_drop]
    have hblock := hconn.handed_le
    rw [hs.handed, Nat.succ_mul] at hblock
    have hk : (((s.mem (.heap b)).drop p).take k).length = k := by
      rw [hbytes, List.length_take, List.length_drop]
      omega
    refine hE.frame hQ hO hr (by rw [hpc]; simp) (Or.inr ⟨hq, hlink, hc⟩) rfl rfl rfl hlive
      (fun _ _ => rfl) (fun _ h => flow_moveOut_of_ne s h) (fun _ _ => rfl) hE.heap_length
      (fun _ h => hne h) ?_ (by rw [hpc]; simp) ?_
    · rw [hflow]
      have hecho := hs.echoed
      refine ⟨hconn.handed_le, hconn.handed_eq, ?_, ?_, ?_, hconn.taken_le, Or.inl ?_⟩
      · simp only
        rw [List.length_append, hk, hecho, List.take_add, ← hbytes, ← hecho, ← hconn.echoed_eq]
      · simp only
        rw [List.length_append, hk, hecho, hs.handed, Nat.succ_mul]
        omega
      · simp only
        rw [List.length_append, hk, hecho, hs.handed, Nat.succ_mul]
        omega
      · simp only
        rw [hs.taken, hs.handed]
    · intro q' hl' hc' _
      obtain rfl := hO.unique q' (q + 1) r hl' hl hc' hc
      refine .sending j (p + k) q rfl ⟨hlink, by rw [hne (by omega)]; exact hidle',
        by rw [hself]; rfl, hlen, by rw [hflow]; exact hs.handed, ?_,
        by rw [hflow]; exact hs.taken, hs.mem⟩
      rw [hflow]
      simp only
      rw [List.length_append, hk, hs.echoed, Nat.add_assoc]
  | announce fd' len' hop' hun =>
    rw [hop, Op.send.injEq] at hop'
    obtain ⟨rfl, rfl, rfl⟩ := hop'
    rw [payload_msgSizeConv, List.append_nil] at hflow
    refine hE.congr hQ hO rfl rfl rfl hlive (fun _ _ => rfl) (fun fd' => ?_) rfl fun q' => ?_
    · by_cases hfd : fd' = fd
      · rw [hfd]
        exact hflow
      · exact flow_moveOut_of_ne s hfd
    · by_cases hqq : q' = q
      · subst hqq
        exact Or.inr ⟨hun, Or.inl ⟨fd, _, len, hop⟩, by rw [hop]; simp⟩
      · exact Or.inl (hne hqq)

-- ---------------------------------------------------------------------------
-- A new connection
-- ---------------------------------------------------------------------------

theorem flow_openConn (s : State) (q fd : Nat) : flow (openConn s q fd) fd = Flow.fresh := by
  simp [flow, openConn, post, payload, Flow.fresh]

theorem flow_openConn_of_ne {q fd fd' : Nat} (s : State) (h : fd' ≠ fd) :
    flow (openConn s q fd) fd' = flow s fd' := by
  simp [flow, openConn, post, Function.update_of_ne h]

/-- A client connects. Its descriptor is one that no record has had, so that the connection is
new to the invariant: nothing is taken, and nothing is handed over or echoed. -/
theorem echo_connect {q p fd l : Nat} (hQ : Queues s) (hO : Owned cfg s) (hE : Echo cfg s)
    (hst : s.status q = .running p) (hop : (s.sqes q).op = .accept l) (hfresh : fd ∉ s.opened) :
    Echo cfg (openConn s q fd) := by
  have hno := not_isPosted_running hst
  have hlive : ∀ q', Live (openConn s q fd) q' ↔ Live s q' :=
    fun q' => (live_post hQ hno : Live (post s q (fd : Int)) q' ↔ Live s q')
  have hself : (openConn s q fd).status q = .posted s.cqTail true := by
    have h : (post s q (fd : Int)).status q = _ := post_self s
    rw [hop, Op.len, decide_eq_true (by omega)] at h
    exact h
  have hne : ∀ {q'}, q' ≠ q → (openConn s q fd).status q' = s.status q' := fun h => post_of_ne s h
  have hcqes : ∀ slot < s.cqTail, (openConn s q fd).cqes slot = s.cqes slot :=
    fun slot h => post_cqes s h
  have hflow : ∀ fd' ∈ s.opened, flow (openConn s q fd) fd' = flow s fd' := by
    intro fd' hmem
    refine flow_openConn_of_ne s ?_
    rintro rfl
    exact hfresh hmem
  have hrecv : ∀ {q' fd' dst len}, (s.sqes q').op = .recv fd' dst len → q' ≠ q := by
    rintro q' fd' dst len hop' rfl
    rw [hop] at hop'
    cases hop'
  constructor
  · intro fd' hmem
    rcases List.mem_cons.mp hmem with rfl | hmem'
    · rw [flow_openConn]
      exact FlowOk.fresh _ _
    · rw [hflow fd' hmem']
      exact hE.conns fd' hmem'
  · intro q' l' slot fd' hq' hop' hst' hres
    by_cases hqq : q' = q
    · subst hqq
      rw [hself] at hst'
      obtain rfl : s.cqTail = slot := by simpa using hst'
      have hfd : fd = fd' := by
        simpa [openConn, post] using hres
      rw [← hfd]
      exact flow_openConn s q' fd
    · rw [hne hqq] at hst'
      rw [hcqes slot (hQ.posted q' slot true hst').1] at hres
      have hl := (hlive q').mp hq'
      obtain ⟨fd'', hfd'', hmem, -⟩ := hO.accepted_fd q' l' slot hl hop' hst'
      obtain rfl : fd'' = fd' := by
        rw [hfd''] at hres
        exact_mod_cast hres
      rw [hflow fd'' hmem]
      exact hE.fresh q' l' slot fd'' hl hop' hst' hfd''
  · intro q' r hq' hc hpc
    have hl := (hlive q').mp hq'
    have hr := (hO.awaits q' r hl hc).1
    change (s.recs r).pc = _ at hpc
    have hmem := hO.fd_opened r hr (by rw [hpc]; simp)
    exact (hE.header q' r hl hc hpc).congr (hflow _ hmem) (hne (hrecv (hO.op_header hl hc hpc)))
      fun _ _ => rfl
  · intro q' r hq' hc hpc
    have hl := (hlive q').mp hq'
    have hr := (hO.awaits q' r hl hc).1
    change (s.recs r).pc = _ at hpc
    have hmem := hO.fd_opened r hr (by rw [hpc]; simp)
    refine (hE.msg q' r hl hc hpc).congr (hflow _ hmem) rfl (hne (hrecv (hO.op_msg hl hc hpc)))
      ?_ fun _ _ => rfl
    rintro q'' rfl hlink
    refine hne ?_
    rintro rfl
    obtain ⟨⟨fd', src, len, r', hs, -⟩, -⟩ := hQ.chain q'' (by have := hl.1; omega) hlink
    rw [hs] at hop
    cases hop
  · exact hE.heap_length

-- ---------------------------------------------------------------------------
-- Handling a completion
-- ---------------------------------------------------------------------------

section Visit

variable {u : State} {c : Cqe} {q₀ r₀ head i : Nat}

/-- The loop passes over a completion. The request that is no longer live was the only one of
its record, so that the record has no phase any more, and every other keeps its own. -/
theorem Echo.visit_skip (hE : Echo cfg s)
    (hv : Visited s s { s with loop := .walk (head + 1) (i + 1) } c q₀) :
    Echo cfg { s with loop := .walk (head + 1) (i + 1) } := by
  have hold : ∀ {q}, Live { s with loop := .walk (head + 1) (i + 1) } q → Live s q := by
    intro q hq
    rcases (hv.live_iff q).mp hq with ⟨hq, -⟩ | ⟨h₁, h₂⟩
    · exact hq
    · exact absurd h₂ (Nat.not_lt.mpr h₁)
  constructor
  · exact hE.conns
  · exact fun q l slot fd hq => hE.fresh q l slot fd (hold hq)
  · exact fun q r hq hc hpc =>
      (hE.header q r (hold hq) hc hpc).congr rfl rfl fun _ _ => rfl
  · exact fun q r hq hc hpc =>
      (hE.msg q r (hold hq) hc hpc).congr rfl rfl rfl (fun _ _ _ => rfl) fun _ _ => rfl
  · exact hE.heap_length

/-- Continuing threadlet `r₀`: the requests of the other threadlets are as they
were, and what has to be shown concerns the entries just queued. -/
theorem Echo.visit (hE : Echo cfg s) (hQ : Queues s) (hO : Owned cfg s) (he : Extends s u)
    (hv : Visited s u { u with loop := .walk (head + 1) (i + 1) } c q₀)
    (hr : c.userData = some r₀) (hopened : u.opened = s.opened) (hmem : u.mem = s.mem)
    (hrecs : ∀ r < s.nRecs, r ≠ r₀ → u.recs r = s.recs r)
    (hflow : ∀ fd, flow u fd = flow s fd ∨ ((s.recs r₀).pc ≠ .accepted ∧ fd = (s.recs r₀).fd))
    (hconn : ∀ fd ∈ s.opened, FlowOk cfg.msgSize.val (body cfg fd) (flow u fd))
    (hheader : ∀ q r, s.sqTail ≤ q → q < u.sqTail → Carries u q r →
      (u.recs r).pc = .receivedHeader → HeaderPhase u q (u.recs r).fd)
    (hmsg : ∀ q r, s.sqTail ≤ q → q < u.sqTail → Carries u q r →
      (u.recs r).pc = .receivedMsg → MsgPhase cfg u q (u.recs r).fd (u.recs r).buf) :
    Echo cfg { u with loop := .walk (head + 1) (i + 1) } := by
  obtain ⟨hr₀, -⟩ := hv.awaits hO hr
  have hflow' : ∀ {r}, r < s.nRecs → r ≠ r₀ → (s.recs r).pc ≠ .accepted →
      flow u (s.recs r).fd = flow s (s.recs r).fd := by
    intro r hlt hne hpc
    rcases hflow (s.recs r).fd with heq | ⟨hpc₀, heq⟩
    · exact heq
    · exact absurd (hO.fd_inj r hlt r₀ hr₀ hpc hpc₀ heq) hne
  have hpred : ∀ {q q'}, Live s q → q' + 1 = q → u.sqes q' = s.sqes q' := fun hl hq' =>
    he.sqes_eq _ (by have := hl.1; omega)
  constructor
  · intro fd hfd
    exact hconn fd (by rwa [← hopened])
  · intro q l slot fd hq hop hst hres
    simp only [he.status_eq] at hst
    rcases (hv.live_iff q).mp hq with ⟨hl, hne⟩ | ⟨hge, -⟩
    · simp only [he.sqes_eq q hl.1] at hop
      simp only [he.cqes_eq] at hres
      obtain ⟨fd', hfd', -, hfree⟩ := hO.accepted_fd q l slot hl hop hst
      obtain rfl : fd' = fd := by
        rw [hfd'] at hres
        exact_mod_cast hres
      rcases hflow fd' with heq | ⟨hpc₀, heq⟩
      · exact heq.trans (hE.fresh q l slot fd' hl hop hst hfd')
      · exact absurd heq.symm (hfree r₀ hr₀ hpc₀)
    · rw [hQ.queued_idle q (by have := hQ.sq_le; omega)] at hst
      cases hst
  · intro q r hq hc hpc
    rcases (hv.live_iff q).mp hq with ⟨hl, hne⟩ | ⟨hge, hlt⟩
    · obtain ⟨hc', hr', hne'⟩ := hv.carries_old hO he hr hl hne hc
      simp only [hrecs r hr' hne'] at hpc ⊢
      exact (hE.header q r hl hc' hpc).congr (hflow' hr' hne' (by rw [hpc]; simp))
        (by simp only [he.status_eq]) fun _ hq' => hpred hl hq'
    · exact (hheader q r hge hlt hc hpc).congr rfl rfl fun _ _ => rfl
  · intro q r hq hc hpc
    rcases (hv.live_iff q).mp hq with ⟨hl, hne⟩ | ⟨hge, hlt⟩
    · obtain ⟨hc', hr', hne'⟩ := hv.carries_old hO he hr hl hne hc
      simp only [hrecs r hr' hne'] at hpc ⊢
      exact (hE.msg q r hl hc' hpc).congr (hflow' hr' hne' (by rw [hpc]; simp))
        (by simp only [hmem]) (by simp only [he.status_eq])
        (fun _ _ _ => by simp only [he.status_eq]) fun _ hq' => hpred hl hq'
    · exact (hmsg q r hge hlt hc hpc).congr rfl rfl rfl (fun _ _ _ => rfl) fun _ _ => rfl
  · simp only [hmem]
    exact hE.heap_length

/-- The loop accepts a connection: the record that waited for it goes on to its header, and the
new record waits for the next connection. The announcement's `send` carries no record, and is
in no phase. -/
theorem echo_visit_accepted {fd : Nat} (hQ : Queues s) (hO : Owned cfg s) (hE : Echo cfg s)
    (hv : Visited s (afterAccepted cfg s r₀ fd)
      { afterAccepted cfg s r₀ fd with loop := .walk (head + 1) (i + 1) } c q₀)
    (hr : c.userData = some r₀) (hpc : (s.recs r₀).pc = .accepted) (hres : c.res = fd) :
    Echo cfg { afterAccepted cfg s r₀ fd with loop := .walk (head + 1) (i + 1) } := by
  obtain ⟨hrlt, hop₀⟩ := hv.awaits hO hr
  set u := afterAccepted cfg s r₀ fd with hu
  have hrecN : u.recs s.nRecs = ⟨.accepted, cfg.listenFd, .wild⟩ := afterAccepted_recs_new hrlt
  have hrecr : u.recs r₀ = ⟨.receivedHeader, fd, (s.recs r₀).buf⟩ := afterAccepted_recs_self hrlt
  refine hE.visit hQ hO (extends_afterAccepted cfg s r₀ fd) hv hr rfl rfl
    (fun r hlt hne => afterAccepted_recs_of_ne hlt hne) (fun _ => Or.inl rfl) hE.conns ?_ ?_
  · intro q r hge hlt hc hpc'
    rcases afterAccepted_carries hge hlt hc with ⟨-, rfl⟩ | ⟨rfl, rfl⟩
    · rw [hrecN] at hpc'
      cases hpc'
    · -- the header's `recv`, on a connection nothing has happened on
      obtain ⟨slot, hst, hcqe⟩ := hv.posted₀
      rw [awaited, hpc] at hop₀
      rw [hop₀, Op.len, hres, decide_eq_true (by omega)] at hst
      have hfresh : flow u fd = Flow.fresh :=
        hE.fresh q₀ _ slot fd hv.live₀ hop₀ hst (by rw [hcqe, hres])
      have hidle : u.status (s.sqTail + 2) = .idle :=
        hQ.queued_idle _ (by have := hQ.sq_le; omega)
      rw [hrecr]
      refine ⟨?_, by rw [hfresh]; rfl, by rw [hfresh]; rfl, ?_, ?_, by rw [hfresh]; simp [Flow.fresh]⟩
      · intro p hp
        obtain rfl : p = s.sqTail + 1 := by omega
        rw [hu, afterAccepted_sqes_accept]
      · intro p hm
        rw [hidle] at hm
        obtain rfl : 0 = p := Option.some.inj hm
        rw [hfresh]
        exact ⟨rfl, Nat.zero_le _⟩
      · intro slot' hst'
        rw [hidle] at hst'
        cases hst'
  · intro q r hge hlt hc hpc'
    rcases afterAccepted_carries hge hlt hc with ⟨-, rfl⟩ | ⟨-, rfl⟩
    · rw [hrecN] at hpc'
      cases hpc'
    · rw [hrecr] at hpc'
      cases hpc'

/-- The header is there, and the record gets a buffer of its own, which is new to the heap. It
waits for the first block of its stream, of which nothing has come. -/
theorem echo_visit_header (hQ : Queues s) (hO : Owned cfg s) (hE : Echo cfg s)
    (hv : Visited s (afterHeader cfg s r₀)
      { afterHeader cfg s r₀ with loop := .walk (head + 1) (i + 1) } c q₀)
    (hr : c.userData = some r₀) (hpc : (s.recs r₀).pc = .receivedHeader) (hres : 2 ≤ c.res) :
    Echo cfg { afterHeader cfg s r₀ with loop := .walk (head + 1) (i + 1) } := by
  obtain ⟨hrlt, hop₀⟩ := hv.awaits hO hr
  set u := afterHeader cfg s r₀ with hu
  have hrecr : u.recs r₀ = ⟨.receivedMsg, (s.recs r₀).fd, .heap s.nBufs⟩ := afterHeader_recs_self
  refine hE.visit hQ hO (extends_afterHeader cfg s r₀) hv hr rfl rfl
    (fun r _ hne => afterHeader_recs_of_ne hne) (fun _ => Or.inl rfl) hE.conns ?_ ?_
  · intro q r hge hlt hc hpc'
    obtain ⟨-, rfl⟩ := afterHeader_carries hge hlt hc
    rw [hrecr] at hpc'
    cases hpc'
  · intro q r hge hlt hc hpc'
    obtain ⟨rfl, rfl⟩ := afterHeader_carries hge hlt hc
    have hph := hE.header q₀ r hv.live₀ (by rw [Carries, ← hv.userData₀, hr]) hpc
    obtain ⟨slot, hst, -⟩ := hv.posted₀
    rw [awaited, hpc] at hop₀
    rw [hop₀, Op.len, decide_eq_true (by omega)] at hst
    have hidle : u.status s.sqTail = .idle := hQ.queued_idle _ hQ.sq_le
    have hflow : flow u (u.recs r).fd = flow s (s.recs r).fd := by
      rw [hrecr]
      rfl
    refine .receiving 0 0 ⟨by rw [hidle]; rfl, ?_, Nat.zero_le _, ?_, ?_, ?_, rfl⟩
    · rintro q' hq' hlink
      have hlt' : q' < s.sqTail := by omega
      rw [(extends_afterHeader cfg s r).sqes_eq q' hlt'] at hlink
      have := (hQ.chain q' hlt' hlink).2.1
      omega
    · rw [hflow, hph.handed]
      rfl
    · rw [hflow, hph.echoed]
      simp
    · rw [hflow, hph.full slot hst]
      simp

/-- The next block of the stream is handed to `send`. -/
theorem FlowOk.hand {n : Nat} {S : Bytes} {c : Flow} (h : FlowOk n S c) (hn : 0 < n)
    (hle : (c.handed.length + 1) * n ≤ S.length)
    (hecho : c.echoed.length = c.handed.length * n)
    (htaken : c.taken = 2 + (c.handed.length + 1) * n) :
    FlowOk n S ⟨c.taken, c.echoed, c.handed ++ [block n c.handed.length S]⟩ := by
  have hlen : (c.handed ++ [block n c.handed.length S]).length = c.handed.length + 1 := by simp
  refine ⟨?_, ?_, h.echoed_eq, ?_, ?_, h.taken_le, Or.inl ?_⟩
  · rwa [hlen]
  · rw [hlen, take_succ_blocks hn hle, ← h.handed_eq]
  · rw [hlen, Nat.succ_mul, hecho]
    omega
  · rw [hlen, Nat.succ_mul, hecho]
  · rw [hlen]
    exact Nat.le_of_eq htaken

/-- A block is there, and is handed over: the record queues its `send` and, linked to it, the
`recv` of the next one into the same buffer. What was received is now what is replied. -/
theorem echo_visit_msg (hQ : Queues s) (hO : Owned cfg s) (hE : Echo cfg s)
    (hv : Visited s (afterMsg cfg s r₀)
      { afterMsg cfg s r₀ with loop := .walk (head + 1) (i + 1) } c q₀)
    (hr : c.userData = some r₀) (hpc : (s.recs r₀).pc = .receivedMsg)
    (hres : (cfg.msgSize.val : Int) ≤ c.res) :
    Echo cfg { afterMsg cfg s r₀ with loop := .walk (head + 1) (i + 1) } := by
  obtain ⟨hrlt, hop₀⟩ := hv.awaits hO hr
  set u := afterMsg cfg s r₀ with hu
  -- the completion handled is that of the block in the buffer
  obtain ⟨slot, hst, -⟩ := hv.posted₀
  rw [awaited, hpc] at hop₀
  rw [hop₀, Op.len, decide_eq_true hres] at hst
  obtain ⟨k, hrec⟩ : ∃ k, Received cfg s q₀ (s.recs r₀).fd (s.recs r₀).buf k :=
    (hE.msg q₀ r₀ hv.live₀ (by rw [Carries, ← hv.userData₀, hr]) hpc).received_of_full hst
  have hconn := hE.conns _ (hO.fd_opened r₀ hrlt (by rw [hpc]; simp))
  have hflow : flow u (s.recs r₀).fd = ⟨(flow s (s.recs r₀).fd).taken,
      (flow s (s.recs r₀).fd).echoed, (flow s (s.recs r₀).fd).handed ++
        [block cfg.msgSize.val k (body cfg (s.recs r₀).fd)]⟩ := by
    rw [← hrec.mem]
    simp [hu, flow, afterMsg]
  have hflowNe : ∀ {fd}, fd ≠ (s.recs r₀).fd → flow u fd = flow s fd := fun h => by
    simp [hu, flow, afterMsg, Function.update_of_ne h]
  refine hE.visit hQ hO (extends_afterMsg cfg s r₀) hv hr rfl rfl (fun _ _ _ => rfl) ?_ ?_ ?_ ?_
  · intro fd
    by_cases hfd : fd = (s.recs r₀).fd
    · exact Or.inr ⟨by rw [hpc]; simp, hfd⟩
    · exact Or.inl (hflowNe hfd)
  · intro fd hmem
    by_cases hfd : fd = (s.recs r₀).fd
    · subst hfd
      rw [hflow]
      have h := hconn.hand cfg.msgSize.pos (by rw [hrec.handed]; exact hrec.le)
        (by rw [hrec.handed, hrec.echoed]) (by rw [hrec.handed, hrec.taken])
      rwa [hrec.handed] at h
    · rw [hflowNe hfd]
      exact hE.conns fd hmem
  · intro q r hge hlt hc hpc'
    obtain ⟨-, rfl⟩ := afterMsg_carries hge hlt hc
    rw [show u.recs r = s.recs r from rfl, hpc] at hpc'
    cases hpc'
  · intro q r hge hlt hc _
    obtain ⟨rfl, rfl⟩ := afterMsg_carries hge hlt hc
    have hidle : ∀ q, s.sqTail ≤ q → u.status q = .idle := fun q hq =>
      hQ.queued_idle q (by have := hQ.sq_le; omega)
    refine .sending k 0 s.sqTail rfl ⟨?_, hidle _ (Nat.le_succ _), ?_, Nat.zero_le _, ?_, ?_, ?_,
      hrec.mem⟩
    · simp [hu, afterMsg]
    · rw [hidle _ (Nat.le_refl _)]
      rfl
    · show (flow u (s.recs r).fd).handed.length = k + 1
      rw [hflow, List.length_append, hrec.handed]
      rfl
    · show (flow u (s.recs r).fd).echoed.length = _
      rw [hflow]
      exact hrec.echoed
    · show (flow u (s.recs r).fd).taken = _
      rw [hflow]
      exact hrec.taken

end Visit

-- ---------------------------------------------------------------------------
-- The step and run lemmas
-- ---------------------------------------------------------------------------

/-- **Every step keeps the phases.** The cases are those of `step_cases`: the kernel's moves
change one connection by some bytes, and the loop's one record by one phase. -/
theorem echo_step {l : Label} (hQ : Queues s) (hO : Owned cfg s) (hE : Echo cfg s)
    (hstep : Step cfg s l t) : Echo cfg t := by
  cases hstep with
  | submit hloop =>
    have hseen : seen (submitAll s) = seen s := by simp [seen, submitAll, hloop]
    exact hE.congr hQ hO rfl rfl rfl (fun q => by unfold Live; rw [hseen]; rfl) (fun _ _ => rfl)
      (fun _ => rfl) rfl fun _ => Or.inl rfl
  | waitCqe hloop hlt =>
    have hseen : seen s = s.cqHead := by simp [seen, hloop]
    exact hE.congr hQ hO rfl rfl rfl (fun q => by unfold Live; rw [hseen]; rfl) (fun _ _ => rfl)
      (fun _ => rfl) rfl fun _ => Or.inl rfl
  | waitError =>
    exact hE.congr hQ hO rfl rfl rfl (fun _ => Iff.rfl) (fun _ _ => rfl) (fun _ => rfl) rfl
      fun _ => Or.inl rfl
  | @visit u head i hloop hlt hh =>
    obtain ⟨q₀, hv⟩ := exists_visited hQ hloop hlt hh.extends
    cases hh with
    | skip hskip => exact hE.visit_skip hv
    | accepted r hr hpc hres hroom =>
      exact echo_visit_accepted hQ hO hE hv hr hpc (Int.toNat_of_nonneg hres).symm
    | header r hr hpc hres hroom => exact echo_visit_header hQ hO hE hv hr hpc hres
    | msg r hr hpc hres hroom => exact echo_visit_msg hQ hO hE hv hr hpc hres
  | visitExit =>
    exact hE.congr hQ hO rfl rfl rfl (fun _ => Iff.rfl) (fun _ _ => rfl) (fun _ => rfl) rfl
      fun _ => Or.inl rfl
  | advance head i hloop heq =>
    have hw := hQ.walk_eq head i hloop
    have hseen : seen s = s.cqHead + i := by rw [seen_walk hloop, hw]
    exact hE.congr hQ hO rfl rfl rfl (fun q => by unfold Live; rw [hseen]; rfl) (fun _ _ => rfl)
      (fun _ => rfl) rfl fun _ => Or.inl rfl
  | start q hlt hidle hready => exact echo_start hQ hO hE hlt hidle hready
  | recvSome q k p fd dst len hst hop hlen htaken =>
    exact echo_recvSome hQ hO hE hst hop hlen htaken
  | sendSome q k p fd src len hst hop hlen => exact echo_sendSome hQ hO hE hst hop hlen
  | finish q p hst hlen hop => exact echo_finish hQ hO hE hst hlen hop
  | fail q p res hst hlt =>
    have hq := hQ.submitted (q := q) (by rw [hst]; simp)
    have hsq := hQ.sq_le
    exact echo_fail hQ hO hE (by omega) (not_isPosted_running hst) hlt
  | cancel q hlt hidle hbroken =>
    have hsq := hQ.sq_le
    refine echo_fail hQ hO hE (by omega) (not_isPosted_idle hidle) ?_
    exact Int.lt_of_lt_of_le (by decide) (Int.natCast_nonneg _)
  | connect q p fd lfd hst hop hne hfresh => exact echo_connect hQ hO hE hst hop hfresh

/-- At the beginning there is no connection, and the one record waits for an accept. -/
theorem echo_initial (cfg : Config) (junk : Junk) : Echo cfg (initial cfg junk) := by
  constructor
  · intro fd hfd
    cases hfd
  · intro q l slot fd _ _ hst
    cases hst
  · intro q r _ _ hpc
    cases hpc
  · intro q r _ _ hpc
    cases hpc
  · exact junk.length_heap

/-- The whole invariant of the event loop. -/
structure Inv (cfg : Config) (s : State) : Prop where
  queues : Queues s
  owned : Owned cfg s
  echo : Echo cfg s

/-- The three parts of the invariant are kept together: what is in the queues says which
requests are live, those say who owns what, and that says which phase each record is in. -/
theorem inv_preserved (cfg : Config) : (machine cfg).Preserves (Inv cfg) := by
  intro s l t h hstep
  have hst := (step_cases hstep).2
  exact ⟨queues_step h.queues hst, owned_step h.queues h.owned hst,
    echo_step h.queues h.owned h.echo hst⟩

/-- The invariant holds in every state that `main_loop` comes to. -/
theorem inv_reachable {junk : Junk} (h : (machine cfg).Reachable (initial cfg junk) s) :
    Inv cfg s :=
  (inv_preserved cfg).reachable
    ⟨queues_initial cfg junk, owned_initial cfg junk, echo_initial cfg junk⟩ h

-- ---------------------------------------------------------------------------
-- What it means for the connections
-- ---------------------------------------------------------------------------

/-- The echo of a connection: the blocks handed to `send` are the first ones of
its stream, each once; the payload on the wire is those blocks, of which at most
the last is cut; and at most one block has come in that is not back in full. -/
structure Echoes (n : Nat) (S : Bytes) (c : Conn) : Prop where
  handed : c.handed <+: blocks n S
  payload_le : payload c.wire <+: c.handed.flatten
  le_payload : c.handed.dropLast.flatten <+: payload c.wire
  ahead : (c.taken - 2) / n ≤ (payload c.wire).length / n + 1

/-- The counts of the invariant say what the bytes are: as the blocks handed over are the first
ones of the stream, and what is echoed is a prefix of the stream, one is a prefix of the
other. -/
theorem FlowOk.echoes {n : Nat} {S : Bytes} {c : Conn} (hn : 0 < n)
    (h : FlowOk n S ⟨c.taken, payload c.wire, c.handed⟩) : Echoes n S c := by
  obtain ⟨hle, heq, hecho, hecho_le, hle_echo, -, hahead⟩ := h
  simp only at *
  have hflat : c.handed.flatten = S.take (c.handed.length * n) := by
    rw [heq, flatten_take_blocks hn (by simpa [← heq] using hle), ← heq]
  have hdrop : c.handed.dropLast.flatten = S.take ((c.handed.length - 1) * n) := by
    have hlast : c.handed.dropLast = (blocks n S).take (c.handed.length - 1) := by
      have hlen : c.handed.length ≤ (blocks n S).length := by
        rw [length_blocks]
        exact (Nat.le_div_iff_mul_le hn).mpr hle
      generalize c.handed.length = j at heq hlen ⊢
      rw [heq, List.dropLast_eq_take, List.take_take, List.length_take]
      congr 1
      omega
    rw [hlast, flatten_take_blocks hn]
    exact (Nat.mul_le_mul_right n (Nat.sub_le _ _)).trans hle
  refine ⟨?_, ?_, ?_, ?_⟩
  · rw [heq]
    exact List.take_prefix _ _
  · rw [hflat, hecho]
    exact List.take_prefix_take_left hecho_le
  · rw [hdrop, hecho]
    refine List.take_prefix_take_left ?_
    rw [Nat.sub_mul, Nat.one_mul]
    omega
  · rw [← Nat.add_div_right _ hn]
    refine Nat.div_le_div_right ?_
    rw [Nat.succ_mul] at hahead
    omega

/-- No buffer is written by a `recv` while a `send` reads it. -/
def NoOverlap (s : State) : Prop :=
  ∀ q q' p p' fd fd' b len len', s.status q = .running p → s.status q' = .running p' →
    (s.sqes q).op = .recv fd (.heap b) len → (s.sqes q').op ≠ .send fd' (.heap b) len'

/-- A `recv` in progress and a `send` in progress from the same buffer would be the two requests
of one reply, of which the second does not start before the first is over. -/
theorem Inv.no_overlap (h : Inv cfg s) : NoOverlap s := by
  intro q q' p p' fd fd' b len len' hst hst' hop hop'
  have hlt : ∀ {q p}, s.status q = .running p → q < s.sqTail := fun hst =>
    Nat.lt_of_lt_of_le (h.queues.submitted (by rw [hst]; simp)) h.queues.sq_le
  have hno := not_isPosted_running hst
  have hno' := not_isPosted_running hst'
  cases h.echo.kind h.queues h.owned (hlt hst') hno' with
  | reply r' b' hr' hl' hc' hpc' hb' hlink hop₂ hidle =>
    rw [hop', Op.send.injEq] at hop₂
    obtain ⟨-, hbb, -⟩ := hop₂
    cases h.echo.kind h.queues h.owned (hlt hst) hno with
    | msg r b₁ hr hl hc hpc hb hop₁ =>
      -- the two belong to one threadlet, whose `recv` waits for its `send`
      rw [hop, Op.recv.injEq] at hop₁
      obtain ⟨-, hbb₁, -⟩ := hop₁
      obtain rfl := h.owned.buf_inj r hr r' hr' hpc hpc' (by rw [hb, hb', ← hbb₁, ← hbb])
      obtain rfl := h.owned.unique q (q' + 1) r hl hl' hc hc'
      rw [hidle] at hst
      cases hst
    | header r hr hl hc hpc hop₁ =>
      rw [hop] at hop₁
      cases hop₁
    | accept l hop₁ =>
      rw [hop] at hop₁
      cases hop₁
    | reply r b₁ _ _ _ _ _ _ hop₁ =>
      rw [hop] at hop₁
      cases hop₁
    | announce fd₁ len₁ hop₁ =>
      rw [hop] at hop₁
      cases hop₁
  | accept l hop₂ =>
    rw [hop'] at hop₂
    cases hop₂
  | header r hr hl hc hpc hop₂ =>
    rw [hop'] at hop₂
    cases hop₂
  | msg r b₁ hr hl hc hpc hb hop₂ =>
    rw [hop'] at hop₂
    cases hop₂
  | announce fd₁ len₁ hop₂ =>
    rw [hop'] at hop₂
    cases hop₂

/-- Every connection of `main_loop` is echoed its own blocks, and no buffer is
overwritten while it is being sent, at every state of every run. -/
theorem mainLoop_echoes (cfg : Config) (junk : Junk) (s : State)
    (hreach : (machine cfg).Reachable (initial cfg junk) s) :
    (∀ fd ∈ s.opened, Echoes cfg.msgSize.val (body cfg fd) (s.conns fd)) ∧ NoOverlap s := by
  have h := inv_reachable hreach
  exact ⟨fun fd hfd => (h.echo.conns fd hfd).echoes cfg.msgSize.pos, h.no_overlap⟩

/-- A client that sends one message of two bytes, up to the reply. -/
def oneEcho : List Label :=
  [.submit, .start 0, .connect 0 4, .waitCqe, .visit, .advance,
    .submit, .start 3, .recvSome 3 2, .finish 3, .waitCqe, .visit, .advance,
    .submit, .start 4, .recvSome 4 2, .finish 4, .waitCqe, .visit, .advance,
    .submit, .start 5, .sendSome 5 2, .finish 5]

theorem mainLoop_echoes_oneEcho :
    let cfg : Config := ⟨⟨2, by decide, by decide⟩, 3, fun _ => [0, 0, 7, 8]⟩
    let junk : Junk := ⟨fun _ => List.replicate bufSize 0, fun _ => List.length_replicate⟩
    ∃ s, (machine cfg).exec (initial cfg junk) oneEcho = some s ∧
      payload (s.conns 4).wire = [7, 8] ∧ Echoes 2 [7, 8] (s.conns 4) ∧ NoOverlap s := by
  intro cfg junk
  have hrun : ((machine cfg).exec (initial cfg junk) oneEcho).map
      (fun s => (s.opened, payload (s.conns 4).wire)) = some ([4], [7, 8]) := by decide
  obtain ⟨s, hs, heq⟩ := Option.map_eq_some_iff.mp hrun
  obtain ⟨hopened, hpayload⟩ := Prod.mk.inj heq
  obtain ⟨hechoes, hoverlap⟩ := mainLoop_echoes cfg junk s ⟨oneEcho, hs⟩
  exact ⟨s, hs, hpayload, hechoes 4 (by rw [hopened]; exact List.mem_singleton_self 4), hoverlap⟩

end EchoServer.Sharded
