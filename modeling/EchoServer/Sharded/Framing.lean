import EchoServer.Sharded.Echo

/-!
# io_uring_sharded — the announcement comes first

The `send` of the announcement is not linked to anything, so that nothing in `main_loop`
keeps it in front of the replies; what does is that a client sends its first message when
it has the announcement.

What is assumed of a run is that of the client in question, and of no other: it sends no
message before all four bytes of the announcement are on its connection. That a client has
to wait is shown beside the theorem, by a run in which one does not.

Main results:

* `Announced.step` — the announcement of a connection goes out once, and no message is
  answered before it is out;
* `mainLoop_framed` — to a client that waits for the announcement, the connection carries the
  four bytes of the size and then its own blocks;
* `not_framed_oneEcho` — to one that does not wait, it may carry the reply first.
-/

namespace EchoServer.Sharded

open EchoServer.Lib

variable {cfg : Config} {s t : State} {fd : Nat}

/-- The bytes of the wire that came from `msg_size_conv`. -/
def announced (wire : List (Ptr × UInt8)) : Bytes :=
  wire.filterMap fun
    | (.msgSizeConv, b) => some b
    | _ => none

@[simp] theorem announced_append (w w' : List (Ptr × UInt8)) :
    announced (w ++ w') = announced w ++ announced w' := by
  simp [announced]

theorem announced_msgSizeConv (bs : Bytes) : announced (bs.map (Prod.mk .msgSizeConv)) = bs := by
  simp [announced, List.filterMap_map]

theorem announced_heap (b : Nat) (bs : Bytes) : announced (bs.map (Prod.mk (.heap b))) = [] := by
  simp [announced, List.filterMap_map]

/-- The client on `fd` sends what follows its header when it has the four bytes of the
announcement, so that they are on the wire before its messages are taken. -/
def Waits (fd : Nat) (s : State) : Label → Prop
  | .recvSome q k =>
    match (s.sqes q).op with
    | .recv fd' _ _ => fd' = fd → (s.conns fd).taken + k ≤ 2 ∨ 4 ≤ (s.conns fd).wire.length
    | _ => True
  | _ => True

instance (fd : Nat) (s : State) (l : Label) : Decidable (Waits fd s l) := by
  unfold Waits
  split
  · split <;> infer_instance
  · infer_instance

/-- Request `q` is the announcement of the connection `fd`. -/
def Announces (s : State) (q fd : Nat) : Prop :=
  q < s.sqTail ∧ ∃ len, (s.sqes q).op = .send fd .msgSizeConv len

/-- The announcement of a connection: it is asked for once, what is out of it is what its
request has moved, and it is out before the first message is taken. -/
structure Announced (cfg : Config) (fd : Nat) (s : State) : Prop where
  conv : s.mem .msgSizeConv = htonl cfg.msgSize.val
  len : ∀ q < s.sqTail, ∀ len, (s.sqes q).op = .send fd .msgSizeConv len → len = 4
  known : ∀ q, Announces s q fd → ∃ r < s.nRecs, (s.recs r).pc ≠ .accepted ∧ (s.recs r).fd = fd
  unique : ∀ q q', Announces s q fd → Announces s q' fd → q = q'
  sent : announced (s.conns fd).wire <+: htonl cfg.msgSize.val
  moving : ∀ q p, Announces s q fd → moved (s.status q) = some p →
    (announced (s.conns fd).wire).length = p
  silent : (∀ q, ¬ Announces s q fd) → announced (s.conns fd).wire = []
  order : (s.conns fd).wire.map Prod.snd = announced (s.conns fd).wire ++ payload (s.conns fd).wire
  first : 2 < (s.conns fd).taken ∨ payload (s.conns fd).wire ≠ [] →
    (announced (s.conns fd).wire).length = 4

-- ---------------------------------------------------------------------------
-- Steps that move no byte of the connection
-- ---------------------------------------------------------------------------

/-- A step that asks for no announcement and leaves the connection as it is. -/
theorem Announced.congr (h : Announced cfg fd s) (hmem : t.mem .msgSizeConv = s.mem .msgSizeConv)
    (hasks : ∀ q len, q < t.sqTail → (t.sqes q).op = .send fd .msgSizeConv len →
      q < s.sqTail ∧ (s.sqes q).op = .send fd .msgSizeConv len)
    (hold : ∀ q, Announces s q fd → Announces t q fd)
    (hrecs : ∀ r < s.nRecs, (s.recs r).pc ≠ .accepted →
      r < t.nRecs ∧ (t.recs r).pc ≠ .accepted ∧ (t.recs r).fd = (s.recs r).fd)
    (hwire : (t.conns fd).wire = (s.conns fd).wire) (htaken : (t.conns fd).taken = (s.conns fd).taken)
    (hmoved : ∀ q p, Announces s q fd → moved (t.status q) = some p → moved (s.status q) = some p) :
    Announced cfg fd t := by
  have hback : ∀ q, Announces t q fd → Announces s q fd := by
    rintro q ⟨hlt, len, hop⟩
    exact ⟨(hasks q len hlt hop).1, len, (hasks q len hlt hop).2⟩
  refine ⟨by rw [hmem, h.conv], ?_, ?_, ?_, by rw [hwire]; exact h.sent, ?_, ?_,
    by rw [hwire]; exact h.order, by rw [hwire, htaken]; exact h.first⟩
  · intro q hlt len hop
    exact h.len q (hasks q len hlt hop).1 len (hasks q len hlt hop).2
  · intro q hq
    obtain ⟨r, hr, hpc, hfd⟩ := h.known q (hback q hq)
    obtain ⟨hr', hpc', hfd'⟩ := hrecs r hr hpc
    exact ⟨r, hr', hpc', hfd'.trans hfd⟩
  · exact fun q q' hq hq' => h.unique q q' (hback q hq) (hback q' hq')
  · intro q p hq hm
    rw [hwire]
    exact h.moving q p (hback q hq) (hmoved q p (hback q hq) hm)
  · intro hnone
    rw [hwire]
    exact h.silent fun q hq => hnone q (hold q hq)

/-- The kernel changes the status of requests, and moves no byte of the connection. -/
theorem Announced.status (h : Announced cfg fd s) (hmem : t.mem .msgSizeConv = s.mem .msgSizeConv)
    (hsqes : t.sqes = s.sqes) (hst : t.sqTail = s.sqTail) (hrecs : t.recs = s.recs)
    (hn : t.nRecs = s.nRecs) (hconn : t.conns fd = s.conns fd)
    (hmoved : ∀ q p, Announces s q fd → moved (t.status q) = some p → moved (s.status q) = some p) :
    Announced cfg fd t := by
  refine h.congr hmem ?_ ?_ ?_ (by rw [hconn]) (by rw [hconn]) hmoved
  · intro q len hlt hop
    rw [hst] at hlt
    rw [hsqes] at hop
    exact ⟨hlt, hop⟩
  · rintro q ⟨hlt, len, hop⟩
    exact ⟨by rw [hst]; exact hlt, len, by rw [hsqes]; exact hop⟩
  · intro r hr hpc
    rw [hrecs, hn]
    exact ⟨hr, hpc, rfl⟩

theorem moved_update {q q' p : Nat} {st : Status} (hst : st = .running 0 ∧ s.status q = .idle ∨ moved st = none)
    (h : moved (Function.update s.status q st q') = some p) : moved (s.status q') = some p := by
  by_cases hqq : q' = q
  · subst hqq
    rw [Function.update_self] at h
    rcases hst with ⟨rfl, hidle⟩ | hnone
    · rw [hidle]
      exact h
    · rw [hnone] at h
      cases h
  · rwa [Function.update_of_ne hqq] at h

theorem Announced.post {q : Nat} {res : Int} (h : Announced cfg fd s) :
    Announced cfg fd (post s q res) :=
  h.status rfl rfl rfl rfl rfl rfl fun _ _ _ hm => moved_update (Or.inr rfl) hm

-- ---------------------------------------------------------------------------
-- Steps that move bytes
-- ---------------------------------------------------------------------------

section Move
variable {q k p fd' len : Nat}

/-- Until a reply is sent, the wire holds the announcement alone. -/
theorem Announced.complete (h : Announced cfg fd s) (hlong : 4 ≤ (s.conns fd).wire.length) :
    (announced (s.conns fd).wire).length = 4 := by
  by_cases hpay : payload (s.conns fd).wire = []
  · have horder := congrArg List.length h.order
    rw [hpay, List.append_nil, List.length_map] at horder
    have hle := h.sent.length_le
    rw [length_htonl] at hle
    omega
  · exact h.first (Or.inr hpay)

theorem Announced.moveIn {dst : Ptr} (h : Announced cfg fd s) (hdst : dst ≠ .msgSizeConv)
    (hwaits : fd' = fd → (s.conns fd).taken + k ≤ 2 ∨ 4 ≤ (s.conns fd).wire.length)
    (hrun : s.status q = .running p) (hop : ∀ src len, (s.sqes q).op ≠ .send fd src len) :
    Announced cfg fd (moveIn cfg s q fd' dst p k) := by
  have hmem : (EchoServer.Sharded.moveIn cfg s q fd' dst p k).mem .msgSizeConv = s.mem .msgSizeConv :=
    moveIn_mem_of_ne s hdst.symm
  have hmoved : ∀ q' p', Announces s q' fd →
      moved ((EchoServer.Sharded.moveIn cfg s q fd' dst p k).status q') = some p' →
      moved (s.status q') = some p' := by
    rintro q' p' ⟨-, len, hop'⟩ hm
    have hne : q' ≠ q := by
      rintro rfl
      exact hop .msgSizeConv len hop'
    rwa [moveIn_status_of_ne s hne] at hm
  by_cases hfd : fd' = fd
  · subst hfd
    have hconn : (EchoServer.Sharded.moveIn cfg s q fd' dst p k).conns fd' =
        { s.conns fd' with taken := (s.conns fd').taken + k } := Function.update_self ..
    refine ⟨by rw [hmem, h.conv], h.len, h.known, h.unique, by rw [hconn]; exact h.sent, ?_,
      by rw [hconn]; exact h.silent, by rw [hconn]; exact h.order, ?_⟩
    · intro q' p' hq' hm
      rw [hconn]
      exact h.moving q' p' hq' (hmoved q' p' hq' hm)
    · rw [hconn]
      rintro (htaken | hpay)
      · rcases hwaits rfl with hle | hlong
        · exact absurd hle (Nat.not_le.mpr htaken)
        · exact h.complete hlong
      · exact h.first (Or.inr hpay)
  · exact h.status hmem rfl rfl rfl rfl (Function.update_of_ne (Ne.symm hfd) ..) hmoved

/-- The announcement moves on. -/
theorem Announced.announce (h : Announced cfg fd s) (hq : q < s.sqTail)
    (hop : (s.sqes q).op = .send fd .msgSizeConv len) (hrun : s.status q = .running p)
    (hlen : p + k ≤ len) : Announced cfg fd (moveOut s q fd .msgSizeConv p k) := by
  obtain rfl := h.len q hq len hop
  have hmine : Announces s q fd := ⟨hq, 4, hop⟩
  have hp : (announced (s.conns fd).wire).length = p := h.moving q p hmine (by rw [hrun]; rfl)
  set bytes := ((s.mem .msgSizeConv).drop p).take k with hbytes
  have hwire : ((moveOut s q fd .msgSizeConv p k).conns fd).wire =
      (s.conns fd).wire ++ bytes.map (Prod.mk .msgSizeConv) := by
    simp [moveOut, hbytes]
  have hann : announced ((moveOut s q fd .msgSizeConv p k).conns fd).wire =
      announced (s.conns fd).wire ++ bytes := by
    rw [hwire, announced_append, announced_msgSizeConv]
  have hpay : payload ((moveOut s q fd .msgSizeConv p k).conns fd).wire =
      payload (s.conns fd).wire := by
    rw [hwire, payload_append, payload_msgSizeConv, List.append_nil]
  have hk : bytes.length = k := by
    rw [hbytes, List.length_take, List.length_drop, h.conv, length_htonl]
    omega
  have htaken : ((moveOut s q fd .msgSizeConv p k).conns fd).taken = (s.conns fd).taken := by
    simp [moveOut]
  refine ⟨h.conv, h.len, h.known, h.unique, ?_, ?_, fun hnone => absurd hmine (hnone q), ?_, ?_⟩
  · -- the bytes that follow what is out
    have hout : announced (s.conns fd).wire = (htonl cfg.msgSize.val).take p := by
      rw [← hp]
      exact List.prefix_iff_eq_take.mp h.sent
    rw [hann, hbytes, h.conv, hout, ← List.take_add]
    exact List.take_prefix _ _
  · intro q' p' hq' hm
    obtain rfl := h.unique q' q hq' hmine
    have hself : (moveOut s q' fd .msgSizeConv p k).status q' = .running (p + k) :=
      Function.update_self ..
    rw [hself] at hm
    cases hm
    rw [hann, List.length_append, hp, hk]
  · rw [hann, hpay, hwire, List.map_append, h.order, List.map_map]
    -- nothing is left to announce once a reply is out
    by_cases hnil : payload (s.conns fd).wire = []
    · rw [hnil, List.append_nil, List.append_nil]
      simp [Function.comp_def]
    · have hfour := h.first (Or.inr hnil)
      obtain rfl : k = 0 := by omega
      obtain hempty : bytes = [] := List.length_eq_zero_iff.mp hk
      rw [hempty]
      simp
  · rw [hann, hpay, htaken, List.length_append, hk]
    intro hlate
    have hfour := h.first hlate
    omega

/-- A reply goes out, which answers a message taken before. -/
theorem Announced.reply {b : Nat} (h : Announced cfg fd s) (htaken : 2 < (s.conns fd).taken)
    (hop : (s.sqes q).op = .send fd (.heap b) len) :
    Announced cfg fd (moveOut s q fd (.heap b) p k) := by
  set bytes := ((s.mem (.heap b)).drop p).take k with hbytes
  have hconn : (moveOut s q fd (.heap b) p k).conns fd =
      { s.conns fd with wire := (s.conns fd).wire ++ bytes.map (Prod.mk (.heap b)) } :=
    Function.update_self ..
  have hann : announced ((moveOut s q fd (.heap b) p k).conns fd).wire =
      announced (s.conns fd).wire := by
    rw [hconn, announced_append, announced_heap, List.append_nil]
  refine ⟨h.conv, h.len, h.known, h.unique, by rw [hann]; exact h.sent, ?_,
    by rw [hann]; exact h.silent, ?_, fun _ => by rw [hann]; exact h.first (Or.inl htaken)⟩
  · rintro q' p' hq' hm
    rw [hann]
    refine h.moving q' p' hq' ?_
    obtain ⟨-, len', hop'⟩ := hq'
    have hne : q' ≠ q := by
      rintro rfl
      cases hop.symm.trans hop'
    have hsame : (moveOut s q fd (.heap b) p k).status q' = s.status q' :=
      Function.update_of_ne hne ..
    rwa [hsame] at hm
  · rw [hann, hconn, List.map_append, h.order, payload_append, payload_heap, List.append_assoc,
      List.map_map]
    simp [Function.comp_def]

end Move

-- ---------------------------------------------------------------------------
-- The step and run lemmas
-- ---------------------------------------------------------------------------

/-- A connection that is not open has no announcement. -/
theorem Announced.opening {q fd' : Nat} (h : Announced cfg fd s) (hO : Owned cfg s)
    (hfresh : fd' ∉ s.opened) : Announced cfg fd (openConn s q fd') := by
  by_cases hfd : fd' = fd
  · subst hfd
    have hnone : ∀ q', ¬ Announces (openConn s q fd') q' fd' := by
      intro q' hq'
      obtain ⟨r, hr, hpc, hfd⟩ := h.known q' hq'
      exact hfresh (hfd ▸ hO.fd_opened r hr hpc)
    have hconn : (openConn s q fd').conns fd' = ⟨0, [], []⟩ := Function.update_self ..
    refine ⟨h.conv, h.len, h.known, h.unique, ?_, fun q' _ hq' => absurd hq' (hnone q'), ?_, ?_, ?_⟩
    · rw [hconn]
      exact List.nil_prefix
    · intro _
      rw [hconn]
      rfl
    · rw [hconn]
      rfl
    · rw [hconn]
      rintro (htaken | hpay)
      · exact absurd htaken (Nat.not_lt_zero 2)
      · exact absurd rfl hpay
  · exact h.status rfl rfl rfl rfl rfl (Function.update_of_ne (Ne.symm hfd) ..)
      fun _ _ _ hm => moved_update (Or.inr rfl) hm

/-- With a connection the loop asks for its announcement. -/
theorem Announced.accepted {r fd' : Nat} (h : Announced cfg fd s) (hQ : Queues s) (hr : r < s.nRecs)
    (hpc : (s.recs r).pc = .accepted)
    (hnew : ∀ r < s.nRecs, (s.recs r).pc ≠ .accepted → (s.recs r).fd ≠ fd') :
    Announced cfg fd (afterAccepted cfg s r fd') := by
  have hext := extends_afterAccepted cfg s r fd'
  have hrecs : ∀ r' < s.nRecs, (s.recs r').pc ≠ .accepted →
      r' < (afterAccepted cfg s r fd').nRecs ∧
        (afterAccepted cfg s r fd').recs r' = s.recs r' := by
    intro r' hr' hpc'
    refine ⟨Nat.lt_succ_of_lt hr', afterAccepted_recs_of_ne hr' ?_⟩
    rintro rfl
    exact hpc' hpc
  -- the three new entries are an announcement, an accept and a `recv`
  have hasks : ∀ q len, q < (afterAccepted cfg s r fd').sqTail →
      ((afterAccepted cfg s r fd').sqes q).op = .send fd .msgSizeConv len →
      q < s.sqTail ∧ (s.sqes q).op = .send fd .msgSizeConv len ∨
        q = s.sqTail ∧ fd' = fd ∧ len = 4 := by
    intro q len hlt hop
    rcases Nat.lt_or_ge q s.sqTail with hold | hge
    · rw [hext.sqes_eq q hold] at hop
      exact Or.inl ⟨hold, hop⟩
    · rcases afterAccepted_queued hge hlt with rfl | rfl | rfl
      · rw [afterAccepted_sqes_send, Op.send.injEq] at hop
        exact Or.inr ⟨rfl, hop.1, hop.2.2.symm⟩
      · rw [afterAccepted_sqes_accept] at hop
        cases hop
      · rw [afterAccepted_sqes_recv] at hop
        cases hop
  by_cases hfd : fd' = fd
  · subst hfd
    have hnone : ∀ q, ¬ Announces s q fd' := by
      intro q hq
      obtain ⟨r', hr', hpc', hfd⟩ := h.known q hq
      exact hnew r' hr' hpc' hfd
    have hempty := h.silent hnone
    have htail : ∀ q, Announces (afterAccepted cfg s r fd') q fd' → q = s.sqTail := by
      rintro q ⟨hlt, len, hop⟩
      rcases hasks q len hlt hop with ⟨hold, hop'⟩ | ⟨rfl, -⟩
      · exact absurd ⟨hold, len, hop'⟩ (hnone q)
      · rfl
    refine ⟨h.conv, ?_, ?_, ?_, h.sent, ?_, fun _ => hempty, h.order, h.first⟩
    · intro q hlt len hop
      rcases hasks q len hlt hop with ⟨hold, hop'⟩ | ⟨-, -, rfl⟩
      · exact absurd ⟨hold, len, hop'⟩ (hnone q)
      · rfl
    · intro q _
      exact ⟨r, Nat.lt_succ_of_lt hr, by rw [afterAccepted_recs_self hr]; simp,
        by rw [afterAccepted_recs_self hr]⟩
    · intro q q' hq hq'
      rw [htail q hq, htail q' hq']
    · intro q p hq hm
      obtain rfl := htail q hq
      have hidle : s.status s.sqTail = .idle := hQ.queued_idle _ hQ.sq_le
      have hm' : moved (s.status s.sqTail) = some p := hm
      rw [hidle] at hm'
      obtain rfl : 0 = p := Option.some.inj hm'
      exact congrArg List.length hempty
  · refine h.congr rfl ?_ ?_ ?_ rfl rfl fun _ _ _ hm => hm
    · intro q len hlt hop
      exact (hasks q len hlt hop).resolve_right fun hnew => hfd hnew.2.1
    · rintro q ⟨hlt, len, hop⟩
      exact ⟨Nat.lt_of_lt_of_le hlt hext.sqTail_le, len, by rw [hext.sqes_eq q hlt, hop]⟩
    · intro r' hr' hpc'
      obtain ⟨hlt, hrec⟩ := hrecs r' hr' hpc'
      rw [hrec]
      exact ⟨hlt, hpc', rfl⟩

/-- A threadlet that goes on asks for no announcement. -/
theorem Announced.continues {u : State} {r : Nat} (h : Announced cfg fd s) (k : Continues cfg s u r)
    (hmem : u.mem = s.mem) (hasks : ∀ q, s.sqTail ≤ q → q < u.sqTail → ∀ len,
      (u.sqes q).op ≠ .send fd .msgSizeConv len)
    (hpc : (u.recs r).pc ≠ .accepted) (hfd : (u.recs r).fd = (s.recs r).fd)
    (hwire : (u.conns fd).wire = (s.conns fd).wire) (htaken : (u.conns fd).taken = (s.conns fd).taken) :
    Announced cfg fd u := by
  refine h.congr (by rw [hmem]) ?_ ?_ ?_ hwire htaken ?_
  · intro q len hlt hop
    rcases Nat.lt_or_ge q s.sqTail with hold | hge
    · rw [k.ext.sqes_eq q hold] at hop
      exact ⟨hold, hop⟩
    · exact absurd hop (hasks q hge hlt len)
  · rintro q ⟨hlt, len, hop⟩
    exact ⟨Nat.lt_of_lt_of_le hlt k.ext.sqTail_le, len, by rw [k.ext.sqes_eq q hlt, hop]⟩
  · intro r' hr' hpc'
    refine ⟨Nat.lt_of_lt_of_le hr' k.nRecs_le, ?_⟩
    by_cases hrr : r' = r
    · subst hrr
      exact ⟨hpc, hfd⟩
    · rw [k.recs_eq r' hr' hrr]
      exact ⟨hpc', rfl⟩
  · intro q p _ hm
    rwa [k.ext.status_eq] at hm

theorem Announced.visit {u : State} {c : Cqe} {q₀ head i : Nat} (h : Announced cfg fd s) (hI : Inv cfg s)
    (hv : Visited s u { u with loop := .walk (head + 1) (i + 1) } c q₀) (hh : Handled cfg s c u) :
    Announced cfg fd u := by
  have hO := hI.owned
  cases hh with
  | skip => exact h
  | accepted r hr hpc hres =>
    exact h.accepted hI.queues (hv.awaits hO hr).1 hpc (hv.accepted_fd hO hr hpc hres).2
  | header r hr hpc =>
    refine h.continues (continues_afterHeader (hv.awaits hO hr).1) rfl ?_ ?_ ?_ rfl rfl
    · intro q hge hlt len hop
      obtain rfl := afterHeader_queued hge hlt
      rw [afterHeader_sqes_recv] at hop
      cases hop
    · rw [afterHeader_recs_self]
      simp
    · rw [afterHeader_recs_self]
  | msg r hr hpc =>
    obtain ⟨b, -, hb⟩ := hO.buf_set r (hv.awaits hO hr).1 hpc
    have hconn : ((afterMsg cfg s r).conns fd).wire = (s.conns fd).wire ∧
        ((afterMsg cfg s r).conns fd).taken = (s.conns fd).taken := by
      by_cases hfd : fd = (s.recs r).fd
      · subst hfd
        simp [afterMsg]
      · simp [afterMsg, Function.update_of_ne hfd]
    refine h.continues (continues_afterMsg (hv.awaits hO hr).1 hpc) rfl ?_ ?_ rfl hconn.1 hconn.2
    · intro q hge hlt len hop
      rcases afterMsg_queued hge hlt with rfl | rfl
      · rw [afterMsg_sqes_send, hb] at hop
        cases hop
      · rw [afterMsg_sqes_recv] at hop
        cases hop
    · show (s.recs r).pc ≠ .accepted
      rw [hpc]
      simp

theorem Announced.step {l : Label} (h : Announced cfg fd s) (hI : Inv cfg s) (hwaits : Waits fd s l)
    (hstep : Step cfg s l t) : Announced cfg fd t := by
  have hq : ∀ {q p}, s.status q = .running p → q < s.sqTail := fun hrun =>
    Nat.lt_of_lt_of_le (hI.queues.submitted (by rw [hrun]; simp)) hI.queues.sq_le
  cases hstep with
  | submit | waitCqe | waitError | visitExit | advance =>
    exact h.status rfl rfl rfl rfl rfl rfl fun _ _ _ hm => hm
  | @visit u head i hloop hlt hh =>
    obtain ⟨q₀, hv⟩ := exists_visited hI.queues hloop hlt hh.extends
    exact (h.visit hI hv hh).status rfl rfl rfl rfl rfl rfl fun _ _ _ hm => hm
  | start q hlt hidle hready =>
    exact h.status rfl rfl rfl rfl rfl rfl fun _ _ _ hm => moved_update (Or.inl ⟨rfl, hidle⟩) hm
  | recvSome q k p fd' dst len hrun hop hlen htaken =>
    have hno := not_isPosted_running hrun
    have hdst : dst ≠ .msgSizeConv := by
      cases hI.echo.kind hI.queues hI.owned (hq hrun) hno with
      | header r _ _ _ _ hop' | msg r b _ _ _ _ _ hop' =>
        rw [hop, Op.recv.injEq] at hop'
        rw [hop'.2.1]
        simp
      | accept l hop' | reply r b _ _ _ _ _ _ hop' | announce fd' len' hop' =>
        rw [hop] at hop'
        cases hop'
    rw [Waits, hop] at hwaits
    refine h.moveIn hdst hwaits hrun fun src len' hop' => ?_
    rw [hop] at hop'
    cases hop'
  | sendSome q k p fd' src len hrun hop hlen =>
    have hno := not_isPosted_running hrun
    by_cases hfd : fd' = fd
    · subst hfd
      cases hI.echo.kind hI.queues hI.owned (hq hrun) hno with
      | announce fd' len' hop' =>
        rw [hop, Op.send.injEq] at hop'
        obtain ⟨rfl, rfl, rfl⟩ := hop'
        exact h.announce (hq hrun) hop hrun hlen
      | reply r b hr hl hc hpc hb hlink hop' hidle =>
        rw [hop, Op.send.injEq] at hop'
        obtain ⟨rfl, rfl, -⟩ := hop'
        obtain ⟨j, p', hs⟩ := (hI.echo.msg (q + 1) r hl hc hpc).sending_of_front hlink hidle hno
        have htaken : (s.conns (s.recs r).fd).taken = 2 + (j + 1) * cfg.msgSize.val := hs.taken
        have hpos : 0 < (j + 1) * cfg.msgSize.val := Nat.mul_pos (Nat.succ_pos j) cfg.msgSize.pos
        exact h.reply (by omega) hop
      | accept l hop' | header r _ _ _ _ hop' | msg r b _ _ _ _ _ hop' =>
        rw [hop] at hop'
        cases hop'
    · -- the bytes of another connection
      refine h.status rfl rfl rfl rfl rfl (Function.update_of_ne (Ne.symm hfd) ..) ?_
      rintro q' p' ⟨-, len', hop'⟩ hm
      have hne : q' ≠ q := by
        rintro rfl
        rw [hop] at hop'
        cases hop'
        exact hfd rfl
      have hsame : (moveOut s q fd' src p k).status q' = s.status q' :=
        Function.update_of_ne hne ..
      rwa [hsame] at hm
  | finish q p hrun hlen hop => exact h.post
  | fail q p res hrun hlt => exact h.post
  | cancel q hlt hidle hbroken => exact h.post
  | connect q p fd' lfd hrun hop hne hfresh => exact h.opening hI.owned hfresh

theorem announced_initial (cfg : Config) (junk : Junk) (fd : Nat) :
    Announced cfg fd (initial cfg junk) := by
  have hnone : ∀ q, ¬ Announces (initial cfg junk) q fd := by
    rintro q ⟨-, len, hop⟩
    cases hop
  refine ⟨rfl, fun q _ len hop => ?_, fun q hq => absurd hq (hnone q), fun q _ hq => absurd hq (hnone q),
    List.nil_prefix, fun q _ hq => absurd hq (hnone q), fun _ => rfl, rfl, ?_⟩
  · cases hop
  · rintro (htaken | hpay)
    · exact absurd htaken (Nat.not_lt_zero 2)
    · exact absurd rfl hpay

/-- **The wire of a connection.** In every run of `main_loop` in which the client on `fd` waits
for the announcement before it sends messages, what the connection carries is the four bytes
of the size and then the complete blocks of the client's stream, as far as they are out. -/
theorem mainLoop_framed (cfg : Config) (junk : Junk) (fd : Nat) (ls : List Label) (s : State)
    (hrun : (machine cfg).exec (initial cfg junk) ls = some s)
    (hwaits : (machine cfg).Along (Waits fd) (initial cfg junk) ls) (hopen : fd ∈ s.opened) :
    (s.conns fd).wire.map Prod.snd <+:
      htonl cfg.msgSize.val ++ (blocks cfg.msgSize.val (body cfg fd)).flatten := by
  have hinv : Inv cfg s ∧ Announced cfg fd s := by
    refine hwaits.invariant (P := fun s => Inv cfg s ∧ Announced cfg fd s) hrun
      ⟨inv_reachable ⟨[], rfl⟩, announced_initial cfg junk fd⟩ ?_
    intro s l t h hl hst
    exact ⟨inv_preserved cfg h.1 hst, h.2.step h.1 hl (step_cases hst).2⟩
  obtain ⟨hI, hA⟩ := hinv
  have hechoes := (hI.echo.conns fd hopen).echoes cfg.msgSize.pos
  have hpayload : payload (s.conns fd).wire <+: (blocks cfg.msgSize.val (body cfg fd)).flatten := by
    obtain ⟨rest, hrest⟩ := hechoes.handed
    refine hechoes.payload_le.trans ?_
    rw [← hrest, List.flatten_append]
    exact List.prefix_append _ _
  rw [hA.order]
  by_cases hnil : payload (s.conns fd).wire = []
  · rw [hnil, List.append_nil]
    exact hA.sent.trans (List.prefix_append _ _)
  · -- the announcement is out
    have hall : announced (s.conns fd).wire = htonl cfg.msgSize.val :=
      hA.sent.eq_of_length (hA.first (Or.inr hnil))
    rw [hall]
    exact (List.prefix_append_right_inj _).mpr hpayload

/-- A client that takes the announcement, sends one message of two bytes and gets the reply. -/
def waiting : List Label :=
  [.submit, .start 0, .connect 0 4, .waitCqe, .visit, .advance,
    .submit, .start 3, .recvSome 3 2, .finish 3, .start 1, .sendSome 1 4, .finish 1,
    .waitCqe, .visit, .visit, .advance, .submit, .start 4, .recvSome 4 2, .finish 4,
    .waitCqe, .visit, .advance, .submit, .start 5, .sendSome 5 2]

theorem mainLoop_framed_waiting :
    let cfg : Config := ⟨⟨2, by decide, by decide⟩, 3, fun _ => [0, 0, 7, 8]⟩
    let junk : Junk := ⟨fun _ => List.replicate bufSize 0, fun _ => List.length_replicate⟩
    ∃ s, (machine cfg).exec (initial cfg junk) waiting = some s ∧
      (s.conns 4).wire.map Prod.snd = [0, 0, 0, 2, 7, 8] ∧
      (s.conns 4).wire.map Prod.snd <+: htonl 2 ++ (blocks 2 (body cfg 4)).flatten := by
  intro cfg junk
  have hview : ((machine cfg).exec (initial cfg junk) waiting).map
      (fun s => (s.opened, (s.conns 4).wire.map Prod.snd)) = some ([4], [0, 0, 0, 2, 7, 8]) := by decide
  have hwaits : (machine cfg).Along (Waits 4) (initial cfg junk) waiting := by decide
  obtain ⟨s, hs, heq⟩ := Option.map_eq_some_iff.mp hview
  obtain ⟨hopened, hwire⟩ := Prod.mk.inj heq
  exact ⟨s, hs, hwire, mainLoop_framed cfg junk 4 waiting s hs hwaits
    (by rw [hopened]; exact List.mem_singleton_self 4)⟩

/-- A client that does not wait gets its reply in place of the announcement. -/
theorem not_framed_oneEcho :
    let cfg : Config := ⟨⟨2, by decide, by decide⟩, 3, fun _ => [0, 0, 7, 8]⟩
    let junk : Junk := ⟨fun _ => List.replicate bufSize 0, fun _ => List.length_replicate⟩
    ∃ s, (machine cfg).exec (initial cfg junk) oneEcho = some s ∧
      ¬ (s.conns 4).wire.map Prod.snd <+: htonl 2 ++ (blocks 2 (body cfg 4)).flatten := by
  intro cfg junk
  have hview : ((machine cfg).exec (initial cfg junk) oneEcho).map
      (fun s => (s.conns 4).wire.map Prod.snd) = some [7, 8] := by decide
  obtain ⟨s, hs, hwire⟩ := Option.map_eq_some_iff.mp hview
  refine ⟨s, hs, ?_⟩
  rw [hwire]
  decide

end EchoServer.Sharded
