import EchoServer.Bench.Fill
import EchoServer.Lib.Blocks
import EchoServer.Lib.Duplex

/-!
# client.c — a client thread on its connection

What a thread of `client` sends and receives: "Hi", the announced message size,
and then one `one_operation` after another, in all three phases of the benchmark
alike. What the loop over `rng_state` leaves in `buf` before the `k`-th `send` is
a parameter, so that the messages are arbitrary. Up to 128 bytes the loop leaves the
whole of `buf` (`oneOperation_eq`); above, it stores outside `buf` in its 17th round
(`not_fills`), and what is said here of such sizes is said of a client whose `buf` is
filled in some other way.

* `oneOperation_eq` — what is sent is what the loop of `one_operation` leaves;
* `Phase.act` — a client in a call stays in its phase;
* `At.wake` — it goes from one call to the next, provided what it reads begins with
  the announcement;
* `Phase.reply` — what an operation reads is the next block of what comes then.
-/

namespace EchoServer.Client

open EchoServer.Lib

-- ---------------------------------------------------------------------------
-- The thread
-- ---------------------------------------------------------------------------

/-- The system call that a client thread is in; `size` is what it decoded and `k`
counts its calls of `one_operation`. -/
inductive Pc
  | hi
  | size
  | sending (size k : Nat)
  | recving (size k : Nat)
  | exited
  deriving DecidableEq, Repr

/-- The variables whose bytes the calls move. -/
inductive Buf
  | hi
  | msgSize
  | buf
  deriving DecidableEq, Repr

/-- "Hi". -/
def hello : Bytes := [72, 105]

/-- `one_operation` up to its `send`. -/
def oneOperation (fill : Nat → Buffer) (size k : Nat) (mem : Buf → Bytes) : Wake Pc Buf UInt8 :=
  ⟨.sending size k, Function.update mem .buf (fill k).bytes, [.send .buf size]⟩

/-- `client`, from each system call to the next; `n` is what the call returned. -/
def client (fill : Nat → Buffer) : Prog Pc Buf UInt8 where
  want
    | .exited => 0
    | _ => 1
  wake pc mem results :=
    let n := results.headD 0
    match pc with
    -- what `send` returns for "Hi" is ignored
    | .hi => ⟨.size, mem, [.recv .msgSize 4]⟩
    | .size =>
      if n ≠ 4 then ⟨.exited, mem, []⟩ else oneOperation fill (ntohl (mem .msgSize)) 0 mem
    | .sending size k =>
      if n < size then ⟨.exited, mem, []⟩ else ⟨.recving size k, mem, [.recv .buf size]⟩
    | .recving size k =>
      if n < size then ⟨.exited, mem, []⟩ else oneOperation fill size (k + 1) mem
    | .exited => ⟨.exited, mem, []⟩

/-- A client that has just connected. `msg_size` is uninitialised, `buf` is zero. -/
def entry (word : Nat) : Thread Pc Buf UInt8 where
  pc := .hi
  mem
    | .hi => hello
    | .msgSize => htonl word
    | .buf => List.replicate bufSize 0
  flights := [⟨.send .hi 2, 0⟩]
  results := []
  seen := 0

-- ---------------------------------------------------------------------------
-- What a client sends
-- ---------------------------------------------------------------------------

/-- The `k`-th message of a client, of `n` bytes. -/
def message (n : Nat) (fill : Nat → Buffer) (k : Nat) : Bytes := (fill k).bytes.take n

/-- The first `k` messages of a client. -/
def messages (n : Nat) (fill : Nat → Buffer) : Nat → Bytes
  | 0 => []
  | k + 1 => messages n fill k ++ message n fill k

section
variable {n : Nat} {fill : Nat → Buffer}

theorem length_message (hn : n ≤ bufSize) (k : Nat) : (message n fill k).length = n := by
  rw [message, List.length_take, (fill k).length_eq, Nat.min_eq_left hn]

theorem length_messages (hn : n ≤ bufSize) (k : Nat) : (messages n fill k).length = k * n := by
  induction k with
  | zero => simp [messages]
  | succ k ih => rw [messages, List.length_append, ih, length_message hn, Nat.succ_mul]

theorem messages_mono {k k' : Nat} (h : k ≤ k') : messages n fill k <+: messages n fill k' := by
  induction h with
  | refl => exact List.prefix_rfl
  | step _ ih => exact ih.trans (List.prefix_append _ _)

/-- The next block behind the first `k` messages is the next message. -/
theorem block_messages (hn : n ≤ bufSize) {k k' : Nat} (h : k < k') :
    block n k (messages n fill k') = message n fill k := by
  have hnext : messages n fill (k + 1) <+: messages n fill k' := messages_mono h
  obtain ⟨R, hR⟩ := hnext
  rw [block, ← hR, messages, List.append_assoc, List.drop_left' (length_messages hn k),
    List.take_left' (length_message hn k)]

end

-- ---------------------------------------------------------------------------
-- The loop over `rng_state`
-- ---------------------------------------------------------------------------

/-- `buf` as `send` takes it: its words are little-endian. -/
def bytesOf (buf : Bench.Words) : Bytes :=
  (List.range bufSize).map fun i => UInt8.ofNat ((buf.toList.getD (i / 8) 0).toNat / 256 ^ (i % 8))

/-- The loop of `one_operation`, started on the words `buf` with `rng_state` at `s`, leaves
the bytes `b`. -/
def Fills (size : Nat) (s : UInt64) (buf : Bench.Words) (b : Buffer) : Prop :=
  ∃ stores x, (Bench.fillBuf size).Ends ⟨0, s, buf⟩ stores x ∧ b.bytes = bytesOf x.buf

section
variable {size : Nat} {s : UInt64} {buf : Bench.Words} {b : Buffer}

theorem fills_iff (hsize : size ≤ 128) :
    Fills size s buf b ↔ b.bytes = bytesOf (Bench.stored s buf (Bench.words size)) := by
  constructor
  · rintro ⟨stores, x, hends, hb⟩
    rw [hb, (hends.unique (Bench.fill_ends hsize)).2]
  · exact fun hb => ⟨_, _, Bench.fill_ends hsize, hb⟩

/-- Above 128 bytes the loop stores outside `buf`, and leaves nothing that can be sent. -/
theorem not_fills (hsize : 128 < size) : ¬ Fills size s buf b := by
  rintro ⟨stores, x, hends, -⟩
  exact hends.not_faults (Bench.fill_faults hsize)

/-- Up to 128 bytes `one_operation` is its loop and a `send` of what this leaves. -/
theorem oneOperation_eq (hsize : size ≤ 128) {fill : Nat → Buffer} {k : Nat}
    (hfill : Fills size s buf (fill k)) (mem : Buf → Bytes) :
    oneOperation fill size k mem = ⟨.sending size k,
      Function.update mem .buf (bytesOf (Bench.stored s buf (Bench.words size))), [.send .buf size]⟩ := by
  rw [oneOperation, (fills_iff hsize).mp hfill]

end

-- ---------------------------------------------------------------------------
-- The phases of a client
-- ---------------------------------------------------------------------------

/-- Where a client is that has put `U` into its connection and taken `W` out. -/
inductive Phase (m : MsgSize) (fill : Nat → Buffer) (t : Thread Pc Buf UInt8) (U W : Bytes) : Prop
  | hi : t.pc = .hi → t.mem .hi = hello → t.Talk true (.send .hi 2) [] [] U W → Phase m fill t U W
  | size : t.pc = .size → t.Talk true (.recv .msgSize 4) hello [] U W → Phase m fill t U W
  | sending (k : Nat) (W₀ : Bytes) : t.pc = .sending m.val k → t.mem .buf = (fill k).bytes →
      W₀.length = 4 + k * m.val →
      t.Talk true (.send .buf m.val) (hello ++ messages m.val fill k) W₀ U W → Phase m fill t U W
  | recving (k : Nat) (W₀ : Bytes) : t.pc = .recving m.val k → W₀.length = 4 + k * m.val →
      t.Talk true (.recv .buf m.val) (hello ++ messages m.val fill (k + 1)) W₀ U W → Phase m fill t U W

/-- A client in one of its phases, with its buffers. -/
structure At (m : MsgSize) (fill : Nat → Buffer) (t : Thread Pc Buf UInt8) (U W : Bytes) : Prop where
  phase : Phase m fill t U W
  length_msgSize : (t.mem .msgSize).length = 4
  length_buf : (t.mem .buf).length = bufSize

variable {m : MsgSize} {fill : Nat → Buffer} {t t' : Thread Pc Buf UInt8} {U W : Bytes}

theorem at_entry (m : MsgSize) (fill : Nat → Buffer) (word : Nat) :
    At m fill (entry word) [] [] where
  phase := .hi rfl rfl (.sending (p := 0) (.moving rfl rfl (Nat.zero_le _) (Nat.le_refl _))
    (Nat.le_refl 2))
  length_msgSize := rfl
  length_buf := List.length_replicate

theorem Phase.talk (h : Phase m fill t U W) : ∃ r U₀ W₀, t.Talk true r U₀ W₀ U W := by
  cases h with
  | hi _ _ htalk | size _ htalk | sending _ _ _ _ _ htalk | recving _ _ _ _ htalk =>
    exact ⟨_, _, _, htalk⟩

theorem Phase.want (h : Phase m fill t U W) : (client fill).want t.pc = 1 := by
  cases h with
  | hi hpc | size hpc | sending _ _ hpc | recving _ _ hpc =>
    rw [hpc]
    rfl

/-- A client in a call stays in its phase. -/
theorem Phase.act {cap : Nat} {inp out inp' out' : Chan UInt8} {move : Move}
    (h : Phase m fill t out.put inp.got) (hmove : move ≠ .wake)
    (hact : t.act (client fill) cap inp out move = some (t', inp', out')) :
    Phase m fill t' out'.put inp'.got ∧ (∀ b, (t'.mem b).length = (t.mem b).length) ∧
      inp'.put = inp.put ∧ out'.got = out.got := by
  cases h with
  | hi hpc hmem htalk =>
    obtain ⟨htalk', hkept, hrest⟩ := Thread.Talk.act (P := client fill) htalk hmove hact
    exact ⟨.hi (hkept.pc.trans hpc) ((hkept.mem _ fun _ h => by cases h).trans hmem) htalk',
      hkept.length, hrest⟩
  | size hpc htalk =>
    obtain ⟨htalk', hkept, hrest⟩ := Thread.Talk.act (P := client fill) htalk hmove hact
    exact ⟨.size (hkept.pc.trans hpc) htalk', hkept.length, hrest⟩
  | sending k W₀ hpc hmem hlen htalk =>
    obtain ⟨htalk', hkept, hrest⟩ := Thread.Talk.act (P := client fill) htalk hmove hact
    exact ⟨.sending k W₀ (hkept.pc.trans hpc) ((hkept.mem _ fun _ h => by cases h).trans hmem) hlen
      htalk', hkept.length, hrest⟩
  | recving k W₀ hpc hlen htalk =>
    obtain ⟨htalk', hkept, hrest⟩ := Thread.Talk.act (P := client fill) htalk hmove hact
    exact ⟨.recving k W₀ (hkept.pc.trans hpc) hlen htalk', hkept.length, hrest⟩

/-- What a client has put, in any phase, is a prefix of "Hi" and its messages. -/
theorem Phase.put_messages (h : Phase m fill t U W) : ∃ k, U <+: hello ++ messages m.val fill k := by
  cases h with
  | hi _ hmem htalk =>
    cases htalk with
    | sending =>
      refine ⟨0, ?_⟩
      rw [hmem, messages, List.append_nil, List.nil_append]
      exact List.take_prefix _ _
  | size _ htalk =>
    cases htalk with
    | recving => exact ⟨0, by simp [messages]⟩
  | sending k _ _ hmem _ htalk =>
    cases htalk with
    | @sending _ _ p _ _ hcall =>
      refine ⟨k + 1, ?_⟩
      have hp : p ≤ m.val := hcall.le
      rw [hmem, messages, message, ← List.append_assoc]
      refine (List.prefix_append_right_inj _).mpr ?_
      exact List.take_prefix_take_left hp
  | recving k _ _ _ htalk =>
    cases htalk with
    | recving => exact ⟨k + 1, List.prefix_rfl⟩

-- ---------------------------------------------------------------------------
-- What a client reads
-- ---------------------------------------------------------------------------

/-- Two prefixes of one stream of the same length are the same. -/
theorem eq_of_prefixes {U V S : Bytes} (hU : U <+: S) (hV : V <+: S) (hlen : U.length = V.length) :
    U = V :=
  (List.prefix_of_prefix_length_le hU hV (Nat.le_of_eq hlen)).eq_of_length hlen

/-- What has been read begins with the announcement. -/
def Announced (m : MsgSize) (W : Bytes) : Prop := ∃ S, W <+: htonl m.val ++ S

/-- The first four bytes read are the announcement. -/
theorem Announced.eq (h : Announced m W) (hlen : W.length = 4) : W = htonl m.val := by
  obtain ⟨S, hS⟩ := h
  exact eq_of_prefixes hS (List.prefix_append _ _) hlen

/-- **What an operation reads** is the next block behind the announcement. -/
theorem Phase.reply {size k : Nat} {S : Bytes} (h : Phase m fill t U W)
    (hread : W <+: htonl m.val ++ S) (hpc : t.pc = .recving size k)
    (hready : t.ready (client fill) = true) :
    size = m.val ∧ (k + 1) * m.val ≤ S.length ∧ (t.mem .buf).take size = block m.val k S := by
  have hwant := h.want
  cases h with
  | hi hpc' | size hpc' | sending _ _ hpc' => rw [hpc'] at hpc; cases hpc
  | recving k' W₀ hpc' hlen htalk =>
    rw [hpc'] at hpc
    cases hpc
    have hroom : ((t.mem .buf).take m.val).length = m.val := by
      cases htalk with
      | recving _ hlen => rw [List.length_take, Nat.min_eq_left hlen]
    obtain ⟨-, -, rfl⟩ := htalk.recvAllOver hready hwant
    obtain ⟨hlong, hblock⟩ := block_of_prefix hread (by rw [hlen, length_htonl]) hroom
    exact ⟨rfl, hlong, hblock⟩

/-- A client goes from one call to the next. -/
theorem At.wake (h : At m fill t U W) (hannounced : Announced m W)
    (hready : t.ready (client fill) = true) : At m fill (t.run (client fill)) U W := by
  have hwant := h.phase.want
  have hm : m.val ≤ bufSize := m.le_bufSize
  obtain ⟨hphase, hsize, hbuf⟩ := h
  cases hphase with
  | hi hpc hmem htalk =>
    have hnext : (client fill).wake t.pc t.mem t.pending = ⟨.size, t.mem, [.recv .msgSize 4]⟩ := by
      rw [hpc]
      rfl
    obtain ⟨-, rfl, rfl⟩ := htalk.sendOver hready hwant
    obtain ⟨htalk', hpc', hmem'⟩ := htalk.next hready hwant hnext (Nat.le_of_eq hsize.symm)
    rw [hmem] at htalk' ⊢
    exact ⟨.size hpc' htalk', by rw [hmem']; exact hsize, by rw [hmem']; exact hbuf⟩
  | size hpc htalk =>
    obtain ⟨hpend, rfl, rfl⟩ := htalk.recvAllOver hready hwant
    -- all of `msg_size` has come in
    rw [List.nil_append, List.take_of_length_le (Nat.le_of_eq hsize)] at *
    have hword := hannounced.eq hsize
    have hnext : (client fill).wake t.pc t.mem t.pending = oneOperation fill m.val 0 t.mem := by
      simp only [client, hpc, hpend, List.headD_cons, hword, m.ntohl_htonl]
      exact if_neg (by decide)
    obtain ⟨htalk', hpc', hmem'⟩ := htalk.next hready hwant hnext (by
      simp only [Req.len, Req.buf, Function.update_self, (fill 0).length_eq]
      exact hm)
    refine ⟨.sending 0 (t.mem .msgSize) hpc' ?_ (by rw [hsize, Nat.zero_mul]) ?_, ?_, ?_⟩
    · rw [hmem', Function.update_self]
    · rwa [messages, List.append_nil]
    · rw [hmem', Function.update_of_ne (by decide)]
      exact hsize
    · rw [hmem', Function.update_self]
      exact (fill 0).length_eq
  | sending k W₀ hpc hmem hlen htalk =>
    obtain ⟨hpend, rfl, rfl⟩ := htalk.sendOver hready hwant
    have hnext : (client fill).wake t.pc t.mem t.pending =
        ⟨.recving m.val k, t.mem, [.recv .buf m.val]⟩ := by
      simp only [client, hpc, hpend, List.headD_cons]
      exact if_neg (Int.lt_irrefl _)
    obtain ⟨htalk', hpc', hmem'⟩ := htalk.next hready hwant hnext (by
      show m.val ≤ (t.mem .buf).length
      rwa [hbuf])
    refine ⟨.recving k W hpc' hlen ?_, by rw [hmem']; exact hsize, by rw [hmem']; exact hbuf⟩
    rwa [messages, message, ← hmem, ← List.append_assoc]
  | recving k W₀ hpc hlen htalk =>
    obtain ⟨hpend, rfl, rfl⟩ := htalk.recvAllOver hready hwant
    have hnext : (client fill).wake t.pc t.mem t.pending =
        oneOperation fill m.val (k + 1) t.mem := by
      simp only [client, hpc, hpend, List.headD_cons]
      exact if_neg (Int.lt_irrefl _)
    obtain ⟨htalk', hpc', hmem'⟩ := htalk.next hready hwant hnext (by
      simp only [Req.len, Req.buf, Function.update_self, (fill (k + 1)).length_eq]
      exact hm)
    refine ⟨.sending (k + 1) _ hpc' ?_ ?_ htalk', ?_, ?_⟩
    · rw [hmem', Function.update_self]
    · rw [List.length_append, hlen, List.length_take, hbuf, Nat.min_eq_left hm, Nat.succ_mul,
        Nat.add_assoc]
    · rw [hmem', Function.update_of_ne (by decide)]
      exact hsize
    · rw [hmem', Function.update_self]
      exact (fill (k + 1)).length_eq

theorem keeps (m : MsgSize) (fill : Nat → Buffer) :
    Thread.Keeps (client fill) (At m fill) (Announced m) where
  act h hmove hact := by
    obtain ⟨hphase, hlen, hrest⟩ := h.phase.act hmove hact
    exact ⟨⟨hphase, (hlen _).trans h.length_msgSize, (hlen _).trans h.length_buf⟩, hrest⟩
  wake h hannounced hready := h.wake hannounced hready

end EchoServer.Client
