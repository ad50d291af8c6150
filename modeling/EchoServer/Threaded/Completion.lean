import EchoServer.Threaded.Uring2

/-!
# uring2.c — the completions of one iteration

`handle_conn` does not look at what `io_uring_wait_cqes` returns. It walks the
completions that are in the queue by the time it gets there, and then passes two,
however many it has walked. Here the walk is taken one completion at a time, with
the network and the kernel moving in between.

What `io_uring` does with a queue whose head was moved past its tail is not
defined; the handler takes no step then.

* `Walk.inv_step` — as long as both completions are there when a walk ends, every
  iteration is an iteration of `uring2`'s handler;
* `handleConn_accounts_iff` — exactly which runs account for their completions;
* `handleConn_interrupted` — the shortest run that does not.
-/

namespace EchoServer.Uring2

open EchoServer.Lib EchoServer.Threaded

-- ---------------------------------------------------------------------------
-- The loop, completion by completion
-- ---------------------------------------------------------------------------

/-- A session whose handler may be in the loop of `io_uring_for_each_cqe`; `cursor` is
the `head` of that loop. -/
structure Walk where
  sess : Session Pc Buf UInt8
  cursor : Option Nat

/-- The queue's head. Head and tail are both three ahead of the ring's: the three
plain calls before the loop post no completions. -/
def Walk.head (x : Walk) : Nat := x.sess.thread.seen

/-- The queue's tail. -/
def Walk.tail (x : Walk) : Nat := x.sess.thread.results.length

/-- What happens next: `io_uring_wait_cqes` returns `e`, the loop looks at its next
completion, or it has come to the tail and `io_uring_cq_advance` is called. -/
inductive Choice
  | io (e : Event)
  | waited (e : Int)
  | inspect
  | advance
  deriving DecidableEq, Repr

/-- `return NULL` in the loop. -/
def Walk.leave (x : Walk) : Walk :=
  { sess := { x.sess with thread := { x.sess.thread with pc := .returned } }, cursor := none }

/-- From `io_uring_cq_advance` to the next `io_uring_submit`. -/
def Walk.resend (m : MsgSize) (x : Walk) : Walk :=
  let t := x.sess.thread
  let mem := Function.update t.mem .sendBuf
    (overwrite (t.mem .sendBuf) 0 ((t.mem .recvBuf).take m.val))
  { sess := { x.sess with
      thread := { t with
        mem := mem
        flights := t.flights ++ [⟨.send .sendBuf m.val, 0⟩, ⟨.recv .recvBuf m.val, 0⟩]
        seen := t.seen + 2 } }
    cursor := none }

/-- `handle_conn`. Up to its loop it does what `uring2`'s program says; there it sleeps in
`io_uring_wait_cqes`, which returns a success only with two completions in the queue. -/
def Walk.step (m : MsgSize) (peer : Peer UInt8) (x : Walk) : Choice → Option Walk
  | .io e =>
    if e = .wake ∧ x.sess.thread.pc = .waitBoth then none
    else (Session.step (handleConn m) peer x.sess e).map fun s => { x with sess := s }
  | .waited e =>
    if x.sess.thread.pc = .waitBoth ∧ x.cursor = none ∧ x.head ≤ x.tail ∧
        (0 ≤ e → x.head + 2 ≤ x.tail) then
      -- `e` is not looked at
      some { x with cursor := some x.head }
    else none
  | .inspect =>
    match x.cursor with
    | none => none
    | some head =>
      match x.sess.thread.results[head]? with
      | none => none
      | some n => if n < m.val then some x.leave else some { x with cursor := some (head + 1) }
  | .advance =>
    match x.cursor with
    | none => none
    | some head => if head = x.tail then some (x.resend m) else none

def Walk.machine (m : MsgSize) (peer : Peer UInt8) : Machine Walk Choice := ⟨Walk.step m peer⟩

def Walk.start (m : MsgSize) (sendStack recvStack : Buffer) : Walk :=
  ⟨Session.start (entry m sendStack recvStack), none⟩

-- ---------------------------------------------------------------------------
-- The accounting
-- ---------------------------------------------------------------------------

variable {m : MsgSize} {peer : Peer UInt8} {x y : Walk} {i : Choice}

/-- An iteration's end that accounts for its completions: from `x`, where the walk has
come to the tail, to `y`, where the next requests are submitted. -/
structure Advanced (m : MsgSize) (peer : Peer UInt8) (x y : Walk) : Prop where
  /-- the head is advanced by as many completions as were walked -/
  inspected : x.cursor = some y.head
  /-- not past the tail, and none is left in the queue -/
  tail : y.head = y.tail
  /-- nor will one come in later -/
  idle : x.sess.thread.flights = []
  /-- the `send` and the `recv` have completed in full -/
  full : x.sess.thread.pending = [(m.val : Int), (m.val : Int)]
  /-- what is sent next was received -/
  received : m.val ≤ x.sess.taken ∧ (y.sess.thread.mem .sendBuf).take m.val =
    (peer.stream.drop (x.sess.taken - m.val)).take m.val

def Accounted (m : MsgSize) (peer : Peer UInt8) (x : Walk) (i : Choice) (y : Walk) : Prop :=
  i = .advance → Advanced m peer x y

/-- When a walk ends, both completions of the iteration have been posted. -/
def BothPosted (x : Walk) (i : Choice) : Prop := i = .advance → x.tail = x.head + 2

instance (x : Walk) (i : Choice) : Decidable (BothPosted x i) :=
  inferInstanceAs (Decidable (i = .advance → x.tail = x.head + 2))

/-- While the handler walks, it has walked over full results only. -/
structure Walking (m : MsgSize) (peer : Peer UInt8) (x : Walk) (head : Nat) : Prop where
  pc : x.sess.thread.pc = .waitBoth
  inv : Inv m peer x.sess
  head_le : x.head ≤ head
  le_tail : head ≤ x.tail
  full : ∀ n ∈ (x.sess.thread.results.take head).drop x.head, (m.val : Int) ≤ n

/-- The handler sleeps, walks or has returned. After a `return` from the loop one of the
requests may still be in flight. -/
inductive WalkInv (m : MsgSize) (peer : Peer UInt8) (x : Walk) : Prop
  | returned : x.cursor = none → x.sess.thread.pc = .returned → WalkInv m peer x
  | asleep : x.cursor = none → Inv m peer x.sess → WalkInv m peer x
  | walking (head : Nat) : x.cursor = some head → Walking m peer x head → WalkInv m peer x

-- ---------------------------------------------------------------------------
-- The steps
-- ---------------------------------------------------------------------------

/-- While the handler does not move, completions are posted, and none is taken back. -/
theorem posted_of_step {s t : Session Pc Buf UInt8} {e : Event}
    (h : Session.Step (handleConn m) peer s e t) (he : e ≠ .wake) :
    t.thread.pc = s.thread.pc ∧ t.thread.seen = s.thread.seen ∧
      s.thread.results <+: t.thread.results := by
  cases h with
  | arrive | fin | moveIn | moveOut => exact ⟨rfl, rfl, List.prefix_refl _⟩
  | received | wasSent => exact ⟨rfl, rfl, List.prefix_append ..⟩
  | wake => exact absurd rfl he

theorem Walking.io {head : Nat} {s : Session Pc Buf UInt8} {e : Event} (h : Walking m peer x head)
    (hstep : Session.Step (handleConn m) peer x.sess e s) (he : e ≠ .wake) :
    Walking m peer { x with sess := s } head := by
  obtain ⟨hpc, hseen, hposted⟩ := posted_of_step hstep he
  refine ⟨hpc.trans h.pc, h.inv.asleep hstep he, ?_, Nat.le_trans h.le_tail hposted.length_le, ?_⟩
  · show s.thread.seen ≤ head
    rw [hseen]
    exact h.head_le
  · show ∀ n ∈ (s.thread.results.take head).drop s.thread.seen, (m.val : Int) ≤ n
    -- what was walked over is the same
    obtain ⟨new, hnew⟩ := hposted
    rw [hseen, ← hnew, List.take_append_of_le_length h.le_tail]
    exact h.full

/-- The completion at the cursor is a full one. -/
theorem Walking.next {head : Nat} {n : Int} (h : Walking m peer x head)
    (hn : x.sess.thread.results[head]? = some n) (hfull : ¬ n < m.val) :
    Walking m peer { x with cursor := some (head + 1) } (head + 1) := by
  obtain ⟨hlt, -⟩ := List.getElem?_eq_some_iff.mp hn
  refine ⟨h.pc, h.inv, Nat.le_succ_of_le h.head_le, hlt, ?_⟩
  show ∀ k ∈ (x.sess.thread.results.take (head + 1)).drop x.head, (m.val : Int) ≤ k
  have hlen : (x.sess.thread.results.take head).length = head :=
    List.length_take_of_le h.le_tail
  rw [List.take_add_one, hn, List.drop_append_of_le_length (by rw [hlen]; exact h.head_le)]
  intro k hk
  rcases List.mem_append.mp hk with hold | hone
  · exact h.full k hold
  · obtain rfl : k = n := by simpa using hone
    exact Int.not_lt.mp hfull

/-- A walk that has come to the end of a queue with both completions. -/
theorem Walking.advance (h : Walking m peer x x.tail) (hcursor : x.cursor = some x.tail)
    (hboth : x.tail = x.head + 2) :
    Inv m peer (x.resend m).sess ∧ Advanced m peer x (x.resend m) := by
  have hpend : x.sess.thread.pending.length = 2 := by
    show (List.drop x.head _).length = 2
    rw [List.length_drop]
    exact Nat.sub_eq_of_eq_add' hboth
  have hfull : ∀ n ∈ x.sess.thread.pending, (m.val : Int) ≤ n := by
    have hall := h.full
    rwa [Walk.tail, List.take_length] at hall
  have hwant : (handleConn m).want x.sess.thread.pc = 2 := by
    rw [h.pc]
    rfl
  have hready : x.sess.thread.ready (handleConn m) = true :=
    Thread.ready_iff.mpr ⟨by omega, by omega⟩
  -- the handler's program does the same with the two results
  have hrun : (x.resend m).sess =
      { x.sess with thread := x.sess.thread.run (handleConn m) } := by
    have hany : ¬ x.sess.thread.pending.any (fun n => decide (n < (m.val : Int))) = true := by
      simp only [List.any_eq_true, decide_eq_true_eq, not_exists, not_and, Int.not_lt]
      exact hfull
    simp only [Walk.resend, Thread.run, handleConn, h.pc, if_neg hany, List.map_cons, List.map_nil]
  have hinv : Inv m peer (x.resend m).sess := by
    rw [hrun]
    exact inv_step h.inv (.wake hready)
  refine ⟨hinv, ?_⟩
  cases h.inv.phase with
  | waitBoth w block j base _ _ _ _ _ hcalls =>
    obtain ⟨n, hn, hflights, hperm, -, -, htaken, hrecv⟩ := hcalls.bothOver (by omega)
    have hout : outcome (peer.sends j) m.val = m.val :=
      Int.le_antisymm (outcome_le _ _) (hfull _ (hperm.mem_iff.mpr List.mem_cons_self))
    obtain rfl : n = m.val := by
      have := hfull n (hperm.mem_iff.mpr (by simp))
      omega
    refine ⟨hcursor.trans (congrArg some hboth), hboth.symm, hflights, ?_, ?_, ?_⟩
    · rw [hout] at hperm
      exact (List.perm_replicate (n := 2)).mp hperm
    · rw [htaken]
      exact Nat.le_add_left ..
    · have hcopied : (x.resend m).sess.thread.mem = copied m x.sess.thread.mem := rfl
      have hroom : m.val ≤ (x.sess.thread.mem .recvBuf).length := by
        rw [h.inv.length_recv]
        exact m.le_bufSize
      rw [hcopied, take_copied_sendBuf hroom, hrecv, htaken, Nat.add_sub_cancel]
  | announcing hpc | header _ _ hpc | first _ _ hpc | returned hpc =>
    rw [h.pc] at hpc
    cases hpc

/-- The step lemma: as long as both completions are there when a walk ends, the iterations
are those of `uring2`'s program, and each accounts for its completions. -/
theorem Walk.inv_step (h : WalkInv m peer x) (hboth : BothPosted x i)
    (hstep : Walk.step m peer x i = some y) : WalkInv m peer y ∧ Accounted m peer x i y := by
  cases i with
  | io e =>
    refine ⟨?_, fun hi => by cases hi⟩
    obtain ⟨hnot, hstep⟩ := Option.ite_none_left_eq_some.mp hstep
    obtain ⟨s, hs, rfl⟩ := Option.map_eq_some_iff.mp hstep
    have hs := Session.step_cases hs
    cases h with
    | returned hcursor hpc =>
      -- a handler that has returned waits for nothing, so it is never woken
      have he : e ≠ .wake := by
        rintro rfl
        cases hs with
        | wake hready =>
          have hwant := (Thread.ready_iff.mp hready).1
          rw [hpc] at hwant
          exact absurd hwant (Nat.lt_irrefl 0)
      exact .returned hcursor ((posted_of_step hs he).1.trans hpc)
    | asleep hcursor hinv => exact .asleep hcursor (Uring2.inv_step hinv hs)
    | walking head hcursor hwalk =>
      have he : e ≠ .wake := fun he => hnot ⟨he, hwalk.pc⟩
      exact .walking head hcursor (hwalk.io hs he)
  | waited e =>
    refine ⟨?_, fun hi => by cases hi⟩
    obtain ⟨⟨hpc, hcursor, hle, -⟩, heq⟩ := Option.ite_none_right_eq_some.mp hstep
    cases heq
    cases h with
    | returned _ hret =>
      rw [hpc] at hret
      cases hret
    | asleep _ hinv =>
      refine .walking x.head rfl ⟨hpc, hinv, Nat.le_refl _, hle, ?_⟩
      show ∀ n ∈ (x.sess.thread.results.take x.head).drop x.head, (m.val : Int) ≤ n
      rw [List.drop_take, Nat.sub_self, List.take_zero]
      exact fun _ hn => absurd hn List.not_mem_nil
    | walking head hsome =>
      rw [hcursor] at hsome
      cases hsome
  | inspect =>
    refine ⟨?_, fun hi => by cases hi⟩
    cases h with
    | returned hcursor | asleep hcursor => simp [Walk.step, hcursor] at hstep
    | walking head hcursor hwalk =>
      simp only [Walk.step, hcursor] at hstep
      cases hn : x.sess.thread.results[head]? with
      | none => simp [hn] at hstep
      | some n =>
        simp only [hn] at hstep
        by_cases hfull : n < m.val
        · rw [if_pos hfull] at hstep
          cases hstep
          exact .returned rfl rfl
        · rw [if_neg hfull] at hstep
          cases hstep
          exact .walking (head + 1) rfl (hwalk.next hn hfull)
  | advance =>
    cases h with
    | returned hcursor | asleep hcursor => simp [Walk.step, hcursor] at hstep
    | walking head hcursor hwalk =>
      simp only [Walk.step, hcursor] at hstep
      obtain ⟨rfl, heq⟩ := Option.ite_none_right_eq_some.mp hstep
      cases heq
      obtain ⟨hinv, hadvanced⟩ := hwalk.advance hcursor (hboth rfl)
      exact ⟨.asleep rfl hinv, fun _ => hadvanced⟩

/-- A walk that ends without both completions moves the head past the tail. -/
theorem not_accounted (hboth : ¬ BothPosted x i) (hstep : Walk.step m peer x i = some y) :
    ¬ Accounted m peer x i y := by
  intro hacc
  refine hboth fun hi => ?_
  have hadvanced := hacc hi
  subst hi
  have htail := hadvanced.tail
  cases hcursor : x.cursor with
  | none => simp [Walk.step, hcursor] at hstep
  | some head =>
    simp only [Walk.step, hcursor] at hstep
    obtain ⟨-, heq⟩ := Option.ite_none_right_eq_some.mp hstep
    cases heq
    exact htail.symm

-- ---------------------------------------------------------------------------
-- Exactly which runs account for their completions
-- ---------------------------------------------------------------------------

/-- **Completion accounting.** For every sequence of results of the wait and every order
of completions: in each iteration the head is advanced by the completions walked, to the
tail, with both requests completed in full and the message just received sent next, if and
only if whenever a walk ends both completions of its iteration have been posted. -/
theorem handleConn_accounts_iff (m : MsgSize) (peer : Peer UInt8) (sendStack recvStack : Buffer)
    (is : List Choice) (x : Walk)
    (hrun : (Walk.machine m peer).exec (Walk.start m sendStack recvStack) is = some x) :
    (Walk.machine m peer).EachStep (Accounted m peer) (Walk.start m sendStack recvStack) is ↔
      (Walk.machine m peer).Along BothPosted (Walk.start m sendStack recvStack) is :=
  Machine.eachStep_iff_along (WalkInv m peer)
    (fun _ i _ h hC hstep => Walk.inv_step (i := i) h hC hstep)
    (fun _ i _ _ hC hstep => not_accounted (i := i) hC hstep)
    (.asleep rfl (inv_start m peer sendStack recvStack)) hrun

-- ---------------------------------------------------------------------------
-- An interrupted wait
-- ---------------------------------------------------------------------------

/-- A client that sends its header and two messages of four bytes. -/
def twoMessages : Peer UInt8 := ⟨[72, 105, 1, 2, 3, 4, 5, 6, 7, 8], fun _ => some bufSize⟩

/-- Up to the loop, and then the first message goes out. -/
def firstSent : List Choice :=
  [.io (.arrive 10), .io (.move 0 4), .io (.done 0), .io .wake, .io (.move 0 2), .io (.done 0),
    .io .wake, .io (.move 0 4), .io (.done 0), .io .wake, .io (.move 0 4), .io (.done 0)]

/-- The second message comes in before the wait is over. -/
def bothDone : List Choice :=
  firstSent ++ [.io (.move 0 4), .io (.done 0), .waited 0, .inspect, .inspect, .advance]

theorem handleConn_accounts_iff_bothDone :
    ∃ x, (Walk.machine four twoMessages).exec (Walk.start four zeros zeros) bothDone = some x ∧
      (Walk.machine four twoMessages).EachStep (Accounted four twoMessages)
        (Walk.start four zeros zeros) bothDone := by
  obtain ⟨x, hx⟩ : ∃ x, (Walk.machine four twoMessages).exec (Walk.start four zeros zeros) bothDone =
    some x := Option.isSome_iff_exists.mp (by decide)
  exact ⟨x, hx, (handleConn_accounts_iff four twoMessages zeros zeros bothDone x hx).mpr (by decide)⟩

/-- The wait is interrupted when the `send` has completed and the `recv` has not: the head
is moved past the tail, and what has been left in `recv_buf` since the header is submitted
as the next message. -/
theorem handleConn_interrupted :
    ∃ x y, (Walk.machine four twoMessages).exec (Walk.start four zeros zeros)
        (firstSent ++ [.waited (-4), .inspect]) = some x ∧
      (Walk.machine four twoMessages).step x .advance = some y ∧
      y.head = y.tail + 1 ∧ (y.sess.thread.mem .sendBuf).take 4 = [72, 105, 0, 0] ∧
      ¬ Accounted four twoMessages x .advance y := by
  have hview : ((Walk.machine four twoMessages).exec (Walk.start four zeros zeros)
      (firstSent ++ [.waited (-4), .inspect, .advance])).map
        (fun y => (y.head, y.tail, (y.sess.thread.mem .sendBuf).take 4)) =
      some (5, 4, [72, 105, 0, 0]) := by decide
  obtain ⟨y, hrun, hview⟩ := Option.map_eq_some_iff.mp hview
  simp only [Prod.mk.injEq] at hview
  obtain ⟨hhead, htail, hbytes⟩ := hview
  have hsplit : firstSent ++ [.waited (-4), .inspect, .advance] =
      (firstSent ++ [.waited (-4), .inspect]) ++ [.advance] := rfl
  rw [hsplit] at hrun
  obtain ⟨x, hx, hlast⟩ := Machine.exec_append_iff.mp hrun
  obtain ⟨y', hy, hnil⟩ := Machine.exec_cons_iff.mp hlast
  obtain rfl : y' = y := by simpa using hnil
  refine ⟨x, y', hx, hy, by rw [hhead, htail], hbytes, fun hacc => ?_⟩
  have heq := (hacc rfl).tail
  rw [hhead, htail] at heq
  cases heq

end EchoServer.Uring2
