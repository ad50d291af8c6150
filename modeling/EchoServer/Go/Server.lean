import EchoServer.Common
import EchoServer.Lib.Duplex

/-!
# go/simple/main.go — the Go server

`handleConn`, from each `Read` or `Write` to the next. A `Read` returns with what
is there, which may be less than it asked for; a `Read` or `Write` that returns an
error returns fewer bytes than it was asked for.

* `Phase.act`, `Phase.wake` — what the handler does to its end of a connection;
* `Phase.echo` — what it has put is its announcement and then what it has taken
  after the header.
-/

namespace EchoServer.GoServer

open EchoServer.Lib

-- ---------------------------------------------------------------------------
-- The handler
-- ---------------------------------------------------------------------------

/-- The call that `handleConn` is in; `fatal` and `panicked` end the process. -/
inductive Pc
  | announcing
  | header
  | recving
  | sending
  | returned
  | fatal
  | panicked
  deriving DecidableEq, Repr

/-- The only buffer of `handleConn`. -/
inductive Buf
  | buf
  deriving DecidableEq, Repr

/-- What `handleConn` writes first: `buf[:8]`, of which `PutUint32` has set four. -/
def announcement (msgSize : Nat) : Bytes := htonl msgSize ++ List.replicate 4 0

/-- `handleConn`, from each call to the next; `n` is what the call returned. -/
def handleConn (msgSize : Nat) : Prog Pc Buf UInt8 where
  want
    | .returned | .fatal | .panicked => 0
    | _ => 1
  wake pc mem results :=
    let n := results.headD 0
    match pc with
    | .announcing => if n < 8 then ⟨.fatal, mem, []⟩ else ⟨.header, mem, [.recv .buf 2]⟩
    | .header =>
      if n < 2 then ⟨.fatal, mem, []⟩
      -- `buf[:msgSize]` is out of range
      else if bufSize < msgSize then ⟨.panicked, mem, []⟩
      else ⟨.recving, mem, [.recv .buf msgSize]⟩
    | .recving =>
      if n < msgSize then ⟨.returned, mem, []⟩ else ⟨.sending, mem, [.send .buf msgSize]⟩
    | .sending =>
      if n < msgSize then ⟨.panicked, mem, []⟩ else ⟨.recving, mem, [.recv .buf msgSize]⟩
    | .returned | .fatal | .panicked => ⟨pc, mem, []⟩
  waitall := false

/-- `handleConn` in its first call: `buf` is new, so it is zero but for the size. -/
def entry (msgSize : Nat) : Thread Pc Buf UInt8 where
  pc := .announcing
  mem _ := htonl msgSize ++ List.replicate 1020 0
  flights := [⟨.send .buf 8, 0⟩]
  results := []
  seen := 0

-- ---------------------------------------------------------------------------
-- What a call leads to
-- ---------------------------------------------------------------------------

/-- The call of a handler that has not ended. -/
def Pc.call (msgSize : Nat) : Pc → Option (Req Buf)
  | .announcing => some (.send .buf 8)
  | .header => some (.recv .buf 2)
  | .recving => some (.recv .buf msgSize)
  | .sending => some (.send .buf msgSize)
  | .returned | .fatal | .panicked => none

/-- Where the handler goes when its call comes back full. -/
def Pc.next : Pc → Pc
  | .announcing => .header
  | .header => .recving
  | .recving => .sending
  | .sending => .recving
  | pc => pc

/-- Where it ends when its call comes up short. -/
def Pc.failed : Pc → Pc
  | .announcing | .header => .fatal
  | .recving => .returned
  | .sending => .panicked
  | pc => pc

section
variable {msgSize n : Nat} {pc : Pc} {mem : Buf → Bytes} {r : Req Buf}

theorem wake_short (hcall : pc.call msgSize = some r) (h : n < r.len) :
    (handleConn msgSize).wake pc mem [(n : Int)] = ⟨pc.failed, mem, []⟩ := by
  cases pc with
  | announcing | header | recving | sending =>
    cases hcall
    exact if_pos (Int.ofNat_lt.mpr h)
  | returned | fatal | panicked => cases hcall

theorem wake_full (hroom : msgSize ≤ bufSize) (hcall : pc.call msgSize = some r) (h : r.len ≤ n) :
    (handleConn msgSize).wake pc mem [(n : Int)] =
      ⟨pc.next, mem, (pc.next.call msgSize).toList⟩ := by
  have hnot : ¬ (n : Int) < r.len := Int.not_lt.mpr (Int.ofNat_le.mpr h)
  cases pc with
  | header =>
    cases hcall
    exact (if_neg hnot).trans (if_neg (Nat.not_lt.mpr hroom))
  | announcing | recving | sending =>
    cases hcall
    exact if_neg hnot
  | returned | fatal | panicked => cases hcall

end

-- ---------------------------------------------------------------------------
-- The phases of the handler
-- ---------------------------------------------------------------------------

/-- Where a handler is that has put `D` into its connection and taken `V` out; `H`
are the two header bytes and `E` what it has echoed. -/
inductive Phase (msgSize : Nat) (t : Thread Pc Buf UInt8) (D V : Bytes) : Prop
  | announcing : t.pc = .announcing → (t.mem .buf).take 8 = announcement msgSize →
      t.Talk false (.send .buf 8) [] [] D V → Phase msgSize t D V
  | header : t.pc = .header → t.Talk false (.recv .buf 2) (announcement msgSize) [] D V →
      Phase msgSize t D V
  | recving (H E : Bytes) : t.pc = .recving → H.length = 2 → msgSize ≤ bufSize →
      t.Talk false (.recv .buf msgSize) (announcement msgSize ++ E) (H ++ E) D V →
      Phase msgSize t D V
  | sending (H E : Bytes) : t.pc = .sending → H.length = 2 → msgSize ≤ bufSize →
      t.Talk false (.send .buf msgSize) (announcement msgSize ++ E)
        (H ++ (E ++ (t.mem .buf).take msgSize)) D V →
      Phase msgSize t D V
  | ended : t.flights = [] → (handleConn msgSize).want t.pc = 0 →
      D <+: announcement msgSize ++ V.drop 2 → Phase msgSize t D V

/-- A handler in one of its phases, with its buffer. -/
structure At (msgSize : Nat) (t : Thread Pc Buf UInt8) (D V : Bytes) : Prop where
  phase : Phase msgSize t D V
  length_buf : (t.mem .buf).length = bufSize

variable {msgSize : Nat} {t t' : Thread Pc Buf UInt8} {D V : Bytes}

theorem length_entry (msgSize : Nat) : ((entry msgSize).mem .buf).length = bufSize := by
  show (htonl msgSize ++ List.replicate 1020 0).length = 1024
  rw [List.length_append, List.length_replicate, length_htonl]

theorem at_entry (msgSize : Nat) : At msgSize (entry msgSize) [] [] where
  phase := .announcing rfl rfl (.sending (p := 0) (.moving rfl rfl (Nat.zero_le _) (Nat.le_refl _))
    (by rw [length_entry]; decide))
  length_buf := length_entry msgSize

theorem wake_mem (msgSize : Nat) (pc : Pc) (mem : Buf → Bytes) (results : List Int) (b : Buf) :
    ((handleConn msgSize).wake pc mem results).mem b = mem b := by
  simp only [handleConn]
  cases pc <;> simp only <;> (try split) <;> (try split) <;> rfl

/-- A handler in a call stays in its phase. -/
theorem Phase.act {cap : Nat} {inp out inp' out' : Chan UInt8} {move : Move}
    (h : Phase msgSize t out.put inp.got) (hmove : move ≠ .wake)
    (hact : t.act (handleConn msgSize) cap inp out move = some (t', inp', out')) :
    Phase msgSize t' out'.put inp'.got ∧ (∀ b, (t'.mem b).length = (t.mem b).length) ∧
      inp'.put = inp.put ∧ out'.got = out.got := by
  cases h with
  | announcing hpc hmem htalk =>
    obtain ⟨htalk', hkept, hrest⟩ := Thread.Talk.act (P := handleConn msgSize) htalk hmove hact
    have hbuf : t'.mem .buf = t.mem .buf := hkept.mem _ fun _ h => by cases h
    exact ⟨.announcing (hkept.pc.trans hpc) (by rwa [hbuf]) htalk', hkept.length, hrest⟩
  | header hpc htalk =>
    obtain ⟨htalk', hkept, hrest⟩ := Thread.Talk.act (P := handleConn msgSize) htalk hmove hact
    exact ⟨.header (hkept.pc.trans hpc) htalk', hkept.length, hrest⟩
  | recving H E hpc hH hle htalk =>
    obtain ⟨htalk', hkept, hrest⟩ := Thread.Talk.act (P := handleConn msgSize) htalk hmove hact
    exact ⟨.recving H E (hkept.pc.trans hpc) hH hle htalk', hkept.length, hrest⟩
  | sending H E hpc hH hle htalk =>
    obtain ⟨htalk', hkept, hrest⟩ := Thread.Talk.act (P := handleConn msgSize) htalk hmove hact
    have hbuf : t'.mem .buf = t.mem .buf := hkept.mem _ fun _ h => by cases h
    exact ⟨.sending H E (hkept.pc.trans hpc) hH hle (by rwa [hbuf]), hkept.length, hrest⟩
  | ended hflights =>
    rw [Thread.act_eq_none hflights hmove] at hact
    cases hact

/-- What a handler has put is its announcement and then what it has taken after the
header, up to some point. -/
theorem Phase.echo (h : Phase msgSize t D V) : D <+: announcement msgSize ++ V.drop 2 := by
  cases h with
  | announcing _ hmem htalk =>
    cases htalk with
    | @sending _ _ p _ _ hcall =>
      have hp : p ≤ 8 := hcall.le
      rw [List.nil_append]
      refine List.IsPrefix.trans ?_ (List.prefix_append _ _)
      rw [← hmem]
      exact List.take_prefix_take_left hp
  | header _ htalk =>
    cases htalk with
    | recving => exact List.prefix_append _ _
  | recving H E _ hH _ htalk =>
    cases htalk with
    | recving =>
      rw [List.append_assoc, ← hH, List.drop_left]
      exact (List.prefix_append_right_inj _).mpr (List.prefix_append _ _)
  | sending H E _ hH _ htalk =>
    cases htalk with
    | @sending _ _ p _ _ hcall =>
      have hp : p ≤ msgSize := hcall.le
      rw [← hH, List.drop_left, List.append_assoc]
      refine (List.prefix_append_right_inj _).mpr ((List.prefix_append_right_inj _).mpr ?_)
      exact List.take_prefix_take_left hp
  | ended _ _ hecho => exact hecho

/-- A handler that ends puts and takes nothing more. -/
theorem Phase.stop {r : Req Buf} {D₀ V₀ : Bytes} (h : Phase msgSize t D V) (pc : Pc)
    (htalk : t.Talk false r D₀ V₀ D V) (hready : t.ready (handleConn msgSize) = true)
    (hwant : (handleConn msgSize).want t.pc = 1)
    (hnext : (handleConn msgSize).wake t.pc t.mem t.pending = ⟨pc, t.mem, []⟩)
    (hpc : (handleConn msgSize).want pc = 0) : Phase msgSize (t.run (handleConn msgSize)) D V := by
  obtain ⟨hflights, hpc', -⟩ := htalk.stop hready hwant hnext
  exact .ended hflights (by rwa [hpc']) h.echo

/-- A handler goes from one call to the next, or ends. -/
theorem Phase.wake (h : Phase msgSize t D V) (hbuf : (t.mem .buf).length = bufSize)
    (hready : t.ready (handleConn msgSize) = true) :
    Phase msgSize (t.run (handleConn msgSize)) D V := by
  have hphase := h
  cases h with
  | announcing hpc hmem htalk =>
    have hwant : (handleConn msgSize).want t.pc = 1 := by rw [hpc]; rfl
    obtain ⟨hpend, rfl, rfl⟩ := htalk.sendOver hready hwant
    have hnext : (handleConn msgSize).wake t.pc t.mem t.pending =
        ⟨.header, t.mem, [.recv .buf 2]⟩ := by
      simp only [handleConn, hpc, hpend, List.headD_cons]
      exact if_neg (by decide)
    obtain ⟨htalk', hpc', -⟩ := htalk.next hready hwant hnext (by
      show 2 ≤ (t.mem .buf).length
      rw [hbuf]
      decide)
    rw [hmem] at htalk' ⊢
    exact .header hpc' htalk'
  | header hpc htalk =>
    have hwant : (handleConn msgSize).want t.pc = 1 := by rw [hpc]; rfl
    obtain ⟨p, hp, -, hpend, rfl, rfl⟩ := htalk.recvOver hready hwant
    by_cases hshort : p < 2
    · -- EOF within the header is fatal
      refine hphase.stop .fatal htalk hready hwant ?_ rfl
      rw [hpc, hpend]
      exact wake_short rfl hshort
    · by_cases hrange : bufSize < msgSize
      · -- the slice of the buffer is out of range
        refine hphase.stop .panicked htalk hready hwant ?_ rfl
        rw [hpc, hpend]
        exact (if_neg (by show ¬ (p : Int) < 2; omega)).trans (if_pos hrange)
      · have hnext : (handleConn msgSize).wake t.pc t.mem t.pending =
            ⟨.recving, t.mem, [.recv .buf msgSize]⟩ := by
          rw [hpc, hpend]
          exact wake_full (Nat.not_lt.mp hrange) rfl (Nat.not_lt.mp hshort)
        obtain ⟨htalk', hpc', -⟩ := htalk.next hready hwant hnext (by
          show msgSize ≤ (t.mem .buf).length
          rw [hbuf]
          exact Nat.not_lt.mp hrange)
        obtain rfl : p = 2 := by omega
        refine .recving ((t.mem .buf).take 2) [] hpc' ?_ (Nat.not_lt.mp hrange) ?_
        · rw [List.length_take, hbuf]
          rfl
        · rwa [List.append_nil, List.append_nil]
  | recving H E hpc hH hle htalk =>
    have hwant : (handleConn msgSize).want t.pc = 1 := by rw [hpc]; rfl
    obtain ⟨p, hp, -, hpend, rfl, rfl⟩ := htalk.recvOver hready hwant
    by_cases hshort : p < msgSize
    · -- EOF: the block is not complete, and nothing of it comes back
      refine hphase.stop .returned htalk hready hwant ?_ rfl
      rw [hpc, hpend]
      exact wake_short rfl hshort
    · have hnext : (handleConn msgSize).wake t.pc t.mem t.pending =
          ⟨.sending, t.mem, [.send .buf msgSize]⟩ := by
        rw [hpc, hpend]
        exact wake_full hle rfl (Nat.not_lt.mp hshort)
      obtain ⟨htalk', hpc', hmem'⟩ := htalk.next hready hwant hnext (by
        show msgSize ≤ (t.mem .buf).length
        rwa [hbuf])
      obtain rfl : p = msgSize := by omega
      refine .sending H E hpc' hH hle ?_
      rw [hmem', ← List.append_assoc]
      exact htalk'
  | sending H E hpc hH hle htalk =>
    have hwant : (handleConn msgSize).want t.pc = 1 := by rw [hpc]; rfl
    obtain ⟨hpend, rfl, rfl⟩ := htalk.sendOver hready hwant
    have hnext : (handleConn msgSize).wake t.pc t.mem t.pending =
        ⟨.recving, t.mem, [.recv .buf msgSize]⟩ := by
      rw [hpc, hpend]
      exact wake_full hle rfl (Nat.le_refl _)
    obtain ⟨htalk', hpc', -⟩ := htalk.next hready hwant hnext (by
      show msgSize ≤ (t.mem .buf).length
      rwa [hbuf])
    refine .recving H (E ++ (t.mem .buf).take msgSize) hpc' hH hle ?_
    rwa [← List.append_assoc]
  | ended _ hwant =>
    have hpos := (Thread.ready_iff.mp hready).1
    rw [hwant] at hpos
    exact absurd hpos (Nat.lt_irrefl 0)

theorem keeps (msgSize : Nat) : Thread.Keeps (handleConn msgSize) (At msgSize) fun _ => True where
  act h hmove hact := by
    obtain ⟨hphase, hlen, hrest⟩ := h.phase.act hmove hact
    exact ⟨⟨hphase, (hlen _).trans h.length_buf⟩, hrest⟩
  wake h _ hready := ⟨h.phase.wake h.length_buf hready,
    (congrArg List.length (wake_mem msgSize _ _ _ _)).trans h.length_buf⟩

end EchoServer.GoServer
