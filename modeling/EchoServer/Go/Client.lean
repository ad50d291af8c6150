import EchoServer.EndToEnd.Client

/-!
# go/client.go — a Go client on its connection

`client`, from each `Read` or `Write` to the next, in all three phases of the
benchmark alike. `rand.Read` leaves any bytes in `buf`. Every client of a process
decodes the same announcement into the one variable `msgSize`, so a client is
modelled with a variable of its own.

* `At.wake` — a client goes from one call to the next, or panics;
* `Phase.reply` — what an operation reads is the next block behind the four bytes
  of the announcement that the client reads.
-/

namespace EchoServer.GoClient

open EchoServer.Lib EchoServer.Client

-- ---------------------------------------------------------------------------
-- The client
-- ---------------------------------------------------------------------------

/-- The call that a client is in; `size` is what it decoded and `k` counts its
calls of `oneOperation`. -/
inductive Pc
  | hi
  | size
  | sending (size k : Nat)
  | recving (size k : Nat)
  | panicked
  deriving DecidableEq, Repr

inductive Buf
  | hi
  | buf
  deriving DecidableEq, Repr

/-- `oneOperation` up to its `Write`; `buf[0:msgSize]` may be out of range. -/
def oneOperation (fill : Nat → Buffer) (size k : Nat) (mem : Buf → Bytes) : Wake Pc Buf UInt8 :=
  let mem := Function.update mem .buf (fill k).bytes
  if bufSize < size then ⟨.panicked, mem, []⟩ else ⟨.sending size k, mem, [.send .buf size]⟩

/-- `client`, from each call to the next; `n` is what the call returned. -/
def client (fill : Nat → Buffer) : Prog Pc Buf UInt8 where
  want
    | .panicked => 0
    | _ => 1
  wake pc mem results :=
    let n := results.headD 0
    match pc with
    | .hi => if n < 2 then ⟨.panicked, mem, []⟩ else ⟨.size, mem, [.recv .buf 4]⟩
    | .size =>
      if n < 4 then ⟨.panicked, mem, []⟩
      else oneOperation fill (ntohl ((mem .buf).take 4)) 0 mem
    | .sending size k =>
      if n < size then ⟨.panicked, mem, []⟩ else ⟨.recving size k, mem, [.recv .buf size]⟩
    | .recving size k =>
      if n < size then ⟨.panicked, mem, []⟩ else oneOperation fill size (k + 1) mem
    | .panicked => ⟨.panicked, mem, []⟩
  waitall := false

/-- A client that has just connected. -/
def entry : Thread Pc Buf UInt8 where
  pc := .hi
  mem
    | .hi => hello
    | .buf => List.replicate bufSize 0
  flights := [⟨.send .hi 2, 0⟩]
  results := []
  seen := 0

-- ---------------------------------------------------------------------------
-- What a call leads to
-- ---------------------------------------------------------------------------

/-- The call of a client that has not panicked. -/
def Pc.call : Pc → Option (Req Buf)
  | .hi => some (.send .hi 2)
  | .size => some (.recv .buf 4)
  | .sending n _ => some (.send .buf n)
  | .recving n _ => some (.recv .buf n)
  | .panicked => none

section
variable {fill : Nat → Buffer} {n size k : Nat} {pc : Pc} {mem : Buf → Bytes} {r : Req Buf}

theorem wake_short (hcall : pc.call = some r) (h : n < r.len) :
    (client fill).wake pc mem [(n : Int)] = ⟨.panicked, mem, []⟩ := by
  cases pc with
  | hi | size | sending | recving =>
    cases hcall
    exact if_pos (Int.ofNat_lt.mpr h)
  | panicked => cases hcall

theorem wake_hi :
    (client fill).wake .hi mem [((2 : Nat) : Int)] = ⟨.size, mem, [.recv .buf 4]⟩ := by
  simp only [client, List.headD_cons]
  exact if_neg (Int.lt_irrefl 2)

theorem wake_size : (client fill).wake .size mem [((4 : Nat) : Int)] =
    oneOperation fill (ntohl ((mem .buf).take 4)) 0 mem := by
  simp only [client, List.headD_cons]
  exact if_neg (Int.lt_irrefl 4)

theorem wake_sending : (client fill).wake (.sending size k) mem [(size : Int)] =
    ⟨.recving size k, mem, [.recv .buf size]⟩ := by
  simp only [client, List.headD_cons]
  exact if_neg (Int.lt_irrefl _)

theorem wake_recving : (client fill).wake (.recving size k) mem [(size : Int)] =
    oneOperation fill size (k + 1) mem := by
  simp only [client, List.headD_cons]
  exact if_neg (Int.lt_irrefl _)

end

-- ---------------------------------------------------------------------------
-- The phases of a client
-- ---------------------------------------------------------------------------

/-- Where a client is that has put `U` into its connection and taken `W` out, when the
first four bytes it takes are the size `n`. -/
inductive Phase (n : Nat) (fill : Nat → Buffer) (t : Thread Pc Buf UInt8) (U W : Bytes) : Prop
  | hi : t.pc = .hi → t.mem .hi = hello → t.Talk false (.send .hi 2) [] [] U W →
      Phase n fill t U W
  | size : t.pc = .size → t.Talk false (.recv .buf 4) hello [] U W → Phase n fill t U W
  | sending (k : Nat) (W₀ : Bytes) : t.pc = .sending n k → n ≤ bufSize →
      t.mem .buf = (fill k).bytes → W₀.length = 4 + k * n →
      t.Talk false (.send .buf n) (hello ++ messages n fill k) W₀ U W → Phase n fill t U W
  | recving (k : Nat) (W₀ : Bytes) : t.pc = .recving n k → n ≤ bufSize →
      W₀.length = 4 + k * n →
      t.Talk false (.recv .buf n) (hello ++ messages n fill (k + 1)) W₀ U W → Phase n fill t U W
  | ended (k : Nat) : t.flights = [] → t.pc = .panicked → U <+: hello ++ messages n fill k →
      Phase n fill t U W

/-- A client in one of its phases, with its buffer. -/
structure At (n : Nat) (fill : Nat → Buffer) (t : Thread Pc Buf UInt8) (U W : Bytes) : Prop where
  phase : Phase n fill t U W
  length_buf : (t.mem .buf).length = bufSize

variable {n : Nat} {fill : Nat → Buffer} {t t' : Thread Pc Buf UInt8} {U W : Bytes}

theorem at_entry (n : Nat) (fill : Nat → Buffer) : At n fill entry [] [] where
  phase := .hi rfl rfl (.sending (p := 0) (.moving rfl rfl (Nat.zero_le _) (Nat.le_refl _))
    (Nat.le_refl 2))
  length_buf := List.length_replicate

/-- A client in a call stays in its phase. -/
theorem Phase.act {cap : Nat} {inp out inp' out' : Chan UInt8} {move : Move}
    (h : Phase n fill t out.put inp.got) (hmove : move ≠ .wake)
    (hact : t.act (client fill) cap inp out move = some (t', inp', out')) :
    Phase n fill t' out'.put inp'.got ∧ (∀ b, (t'.mem b).length = (t.mem b).length) ∧
      inp'.put = inp.put ∧ out'.got = out.got := by
  cases h with
  | hi hpc hmem htalk =>
    obtain ⟨htalk', hkept, hrest⟩ := Thread.Talk.act (P := client fill) htalk hmove hact
    exact ⟨.hi (hkept.pc.trans hpc) ((hkept.mem _ fun _ h => by cases h).trans hmem) htalk',
      hkept.length, hrest⟩
  | size hpc htalk =>
    obtain ⟨htalk', hkept, hrest⟩ := Thread.Talk.act (P := client fill) htalk hmove hact
    exact ⟨.size (hkept.pc.trans hpc) htalk', hkept.length, hrest⟩
  | sending k W₀ hpc hle hmem hlen htalk =>
    obtain ⟨htalk', hkept, hrest⟩ := Thread.Talk.act (P := client fill) htalk hmove hact
    exact ⟨.sending k W₀ (hkept.pc.trans hpc) hle ((hkept.mem _ fun _ h => by cases h).trans hmem)
      hlen htalk', hkept.length, hrest⟩
  | recving k W₀ hpc hle hlen htalk =>
    obtain ⟨htalk', hkept, hrest⟩ := Thread.Talk.act (P := client fill) htalk hmove hact
    exact ⟨.recving k W₀ (hkept.pc.trans hpc) hle hlen htalk', hkept.length, hrest⟩
  | ended k hflights =>
    rw [Thread.act_eq_none hflights hmove] at hact
    cases hact

/-- What a client has put, in any phase, is a prefix of "Hi" and its messages. -/
theorem Phase.put_messages (h : Phase n fill t U W) : ∃ k, U <+: hello ++ messages n fill k := by
  cases h with
  | hi _ hmem htalk =>
    cases htalk with
    | sending =>
      refine ⟨0, ?_⟩
      rw [hmem, messages, List.append_nil, List.nil_append]
      exact List.take_prefix _ _
  | size _ htalk =>
    cases htalk with
    | recving => exact ⟨0, by simp [messages]⟩
  | sending k _ _ _ hmem _ htalk =>
    cases htalk with
    | @sending _ _ p _ _ hcall =>
      refine ⟨k + 1, ?_⟩
      have hp : p ≤ n := hcall.le
      rw [hmem, messages, message, ← List.append_assoc]
      refine (List.prefix_append_right_inj _).mpr ?_
      exact List.take_prefix_take_left hp
  | recving k _ _ _ _ htalk =>
    cases htalk with
    | recving => exact ⟨k + 1, List.prefix_rfl⟩
  | ended k _ _ hput => exact ⟨k, hput⟩

/-- The first four bytes read are the size `n`. -/
def Sized (n : Nat) (W : Bytes) : Prop := W.length = 4 → ntohl W = n

/-- A client that panics puts and takes nothing more. -/
theorem At.stop {r : Req Buf} {U₀ W₀ : Bytes} {mem : Buf → Bytes} (h : At n fill t U W)
    (htalk : t.Talk false r U₀ W₀ U W) (hready : t.ready (client fill) = true)
    (hwant : (client fill).want t.pc = 1)
    (hnext : (client fill).wake t.pc t.mem t.pending = ⟨.panicked, mem, []⟩)
    (hmem : (mem .buf).length = bufSize) : At n fill (t.run (client fill)) U W := by
  obtain ⟨hflights, hpc, hmem'⟩ := htalk.stop hready hwant hnext
  obtain ⟨k, hput⟩ := h.phase.put_messages
  exact ⟨.ended k hflights hpc hput, by rw [hmem', hmem]⟩

/-- A client goes into its next operation, or panics because the size is out of
range. -/
theorem At.operate {r : Req Buf} {U₀ W₀ : Bytes} {k : Nat} (h : At n fill t U W)
    (htalk : t.Talk false r U₀ W₀ U W) (hready : t.ready (client fill) = true)
    (hwant : (client fill).want t.pc = 1)
    (hnext : (client fill).wake t.pc t.mem t.pending = oneOperation fill n k t.mem)
    (hU : U = hello ++ messages n fill k) (hW : W.length = 4 + k * n) :
    At n fill (t.run (client fill)) U W := by
  have hbuf : (Function.update t.mem .buf (fill k).bytes .buf).length = bufSize := by
    rw [Function.update_self]
    exact (fill k).length_eq
  by_cases hrange : bufSize < n
  · exact h.stop htalk hready hwant (hnext.trans (if_pos hrange)) hbuf
  · have hle := Nat.not_lt.mp hrange
    obtain ⟨htalk', hpc, hmem⟩ := htalk.next hready hwant (hnext.trans (if_neg hrange)) (by
      show n ≤ (Function.update t.mem .buf (fill k).bytes .buf).length
      rwa [hbuf])
    refine ⟨.sending k W hpc hle ?_ hW ?_, by rw [hmem, hbuf]⟩
    · rw [hmem, Function.update_self]
    · rwa [← hU]

/-- A client goes from one call to the next, or panics. -/
theorem At.wake (h : At n fill t U W) (hsized : Sized n W)
    (hready : t.ready (client fill) = true) : At n fill (t.run (client fill)) U W := by
  have hat := h
  obtain ⟨hphase, hbuf⟩ := h
  cases hphase with
  | hi hpc hmem htalk =>
    have hwant : (client fill).want t.pc = 1 := by rw [hpc]; rfl
    obtain ⟨hpend, rfl, rfl⟩ := htalk.sendOver hready hwant
    have hnext : (client fill).wake t.pc t.mem t.pending = ⟨.size, t.mem, [.recv .buf 4]⟩ := by
      rw [hpc, hpend]
      exact wake_hi
    obtain ⟨htalk', hpc', hmem'⟩ := htalk.next hready hwant hnext (by
      show 4 ≤ (t.mem .buf).length
      rw [hbuf]
      decide)
    rw [hmem] at htalk' ⊢
    exact ⟨.size hpc' htalk', by rw [hmem', hbuf]⟩
  | size hpc htalk =>
    have hwant : (client fill).want t.pc = 1 := by rw [hpc]; rfl
    obtain ⟨p, hp, -, hpend, hU, hW⟩ := htalk.recvOver hready hwant
    by_cases hshort : p < 4
    · refine hat.stop htalk hready hwant ?_ hbuf
      rw [hpc, hpend]
      exact wake_short rfl hshort
    · obtain rfl : p = 4 := by omega
      have hlen : ((t.mem .buf).take 4).length = 4 := by
        rw [List.length_take, hbuf]
        rfl
      rw [List.nil_append] at hW
      have hword : ntohl ((t.mem .buf).take 4) = n := hW ▸ hsized (by rw [hW, hlen])
      refine hat.operate htalk hready hwant (k := 0) ?_ ?_ ?_
      · rw [hpc, hpend, ← hword]
        exact wake_size
      · rw [hU, messages, List.append_nil]
      · rw [hW, hlen, Nat.zero_mul]
  | sending k W₀ hpc hle hmem hlen htalk =>
    have hwant : (client fill).want t.pc = 1 := by rw [hpc]; rfl
    obtain ⟨hpend, rfl, rfl⟩ := htalk.sendOver hready hwant
    have hnext : (client fill).wake t.pc t.mem t.pending =
        ⟨.recving n k, t.mem, [.recv .buf n]⟩ := by
      rw [hpc, hpend]
      exact wake_sending
    obtain ⟨htalk', hpc', hmem'⟩ := htalk.next hready hwant hnext (by
      show n ≤ (t.mem .buf).length
      rwa [hbuf])
    refine ⟨.recving k W hpc' hle hlen ?_, by rw [hmem', hbuf]⟩
    rwa [messages, message, ← hmem, ← List.append_assoc]
  | recving k W₀ hpc hle hlen htalk =>
    have hwant : (client fill).want t.pc = 1 := by rw [hpc]; rfl
    obtain ⟨p, hp, -, hpend, hU, hW⟩ := htalk.recvOver hready hwant
    by_cases hshort : p < n
    · refine hat.stop htalk hready hwant ?_ hbuf
      rw [hpc, hpend]
      exact wake_short rfl hshort
    · obtain rfl : p = n := by omega
      refine hat.operate htalk hready hwant (k := k + 1) ?_ hU ?_
      · rw [hpc, hpend]
        exact wake_recving
      · rw [hW, List.length_append, hlen, List.length_take, hbuf, Nat.min_eq_left hle, Nat.succ_mul,
          Nat.add_assoc]
  | ended _ _ hpc =>
    have hpos := (Thread.ready_iff.mp hready).1
    rw [hpc] at hpos
    exact absurd hpos (Nat.lt_irrefl 0)

/-- **What an operation reads** is the next block behind the first four bytes. -/
theorem Phase.reply {size k : Nat} {A S : Bytes} (h : Phase n fill t U W) (hA : A.length = 4)
    (hread : W <+: A ++ S) (hpc : t.pc = .recving size k) (hready : t.ready (client fill) = true)
    (hfull : t.pending = [(size : Int)]) :
    size = n ∧ n ≤ bufSize ∧ (k + 1) * n ≤ S.length ∧ (t.mem .buf).take size = block n k S := by
  have hwant : (client fill).want t.pc = 1 := by rw [hpc]; rfl
  cases h with
  | hi hpc' | size hpc' | sending _ _ hpc' | ended _ _ hpc' => rw [hpc'] at hpc; cases hpc
  | recving k' W₀ hpc' hle hlen htalk =>
    rw [hpc'] at hpc
    cases hpc
    have hroom : ((t.mem .buf).take n).length = n := by
      cases htalk with
      | recving _ hlen => rw [List.length_take, Nat.min_eq_left hlen]
    obtain ⟨p, -, -, hpend, -, rfl⟩ := htalk.recvOver hready hwant
    rw [hfull] at hpend
    obtain rfl : n = p := by simpa using hpend
    obtain ⟨hlong, hblock⟩ := block_of_prefix hread (by rw [hlen, hA]) hroom
    exact ⟨rfl, hle, hlong, hblock⟩

theorem keeps (n : Nat) (fill : Nat → Buffer) :
    Thread.Keeps (client fill) (At n fill) (Sized n) where
  act h hmove hact := by
    obtain ⟨hphase, hlen, hrest⟩ := h.phase.act hmove hact
    exact ⟨⟨hphase, (hlen _).trans h.length_buf⟩, hrest⟩
  wake h hsized hready := h.wake hsized hready

end EchoServer.GoClient
