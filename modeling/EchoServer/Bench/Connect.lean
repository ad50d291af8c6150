import EchoServer.Common

/-!
# client.c, multiclient.c — how a thread connects

`getaddrinfo` gives a list of addresses, of any family. The loop makes a socket for each
of them and connects it; `conn_fd` holds the descriptor of the last one, and nothing is
closed.

* `connectLoop_ok` — what the loop leaves, whatever the list;
* `oneConnection_iff` — a thread has one connection exactly when there was one address.
-/

namespace EchoServer.Bench

-- ---------------------------------------------------------------------------
-- The loop
-- ---------------------------------------------------------------------------

/-- `struct addrinfo`, without its link. -/
structure AddrInfo where
  family : Int
  socktype : Int
  protocol : Int
  addr : Bytes
  deriving DecidableEq, Repr

/-- What the kernel answers in one round. -/
structure Answers where
  socket : Int
  connect : Int
  deriving DecidableEq, Repr

/-- An open socket and where it is connected to. -/
structure Socket where
  fd : Int
  peer : Option Bytes
  deriving DecidableEq, Repr

/-- What a thread has come to: `conn_fd`, the sockets it has opened, and the connections
that a server was asked to accept. -/
structure Connecting where
  connFd : Int
  sockets : List Socket
  asked : List Bytes
  deriving DecidableEq, Repr

/-- `socket` has made a socket. -/
def Connecting.socket (x : Connecting) (fd : Int) : Connecting :=
  { x with connFd := fd, sockets := x.sockets ++ [⟨fd, none⟩] }

/-- `connect` has connected the newest socket. -/
def Connecting.connect (x : Connecting) (addr : Bytes) : Connecting :=
  { x with
    sockets := x.sockets.dropLast ++ [⟨x.connFd, some addr⟩]
    asked := x.asked ++ [addr] }

/-- One round: what it prints before it ends the process, or where the thread is. -/
def connectRound (onSocket onConnect : List String) (x : Connecting) (cur : AddrInfo × Answers) :
    Except (List String) Connecting :=
  if 0 > cur.2.socket then .error onSocket
  else if 0 ≠ cur.2.connect then .error onConnect
  else .ok ((x.socket cur.2.socket).connect cur.1.addr)

/-- The loop over the list, each address with what the kernel answers in its round. -/
def connectLoop (onSocket onConnect : List String) (ais : List (AddrInfo × Answers)) :
    Except (List String) Connecting :=
  ais.foldlM (connectRound onSocket onConnect) ⟨-1, [], []⟩

/-- The loop of `client` in client.c. -/
def clientConnect (ais : List (AddrInfo × Answers)) : Except (List String) Connecting :=
  connectLoop ["socket"] ["connect"] ais

/-- The loop of `start_client` in multiclient.c. -/
def startClientConnect (address port : String) (ais : List (AddrInfo × Answers)) :
    Except (List String) Connecting :=
  connectLoop ["socket"] ["address: " ++ address ++ ", port: " ++ port, "connect"] ais

-- ---------------------------------------------------------------------------
-- What the loop leaves
-- ---------------------------------------------------------------------------

section
variable {onSocket onConnect : List String} {x y : Connecting} {cur : AddrInfo × Answers}
  {ais : List (AddrInfo × Answers)}

theorem connectRound_ok (h : connectRound onSocket onConnect x cur = .ok y) :
    y = ⟨cur.2.socket, x.sockets ++ [⟨cur.2.socket, some cur.1.addr⟩], x.asked ++ [cur.1.addr]⟩ := by
  unfold connectRound at h
  split at h
  · cases h
  · split at h
    · cases h
    · cases h
      simp [Connecting.connect, Connecting.socket]

/-- The sockets that the loop opens, one for each address. -/
def opened (ais : List (AddrInfo × Answers)) : List Socket :=
  ais.map fun cur => ⟨cur.2.socket, some cur.1.addr⟩

/-- From any round on: every address adds a socket, and the last one is used. -/
theorem foldlM_ok (h : ais.foldlM (connectRound onSocket onConnect) x = .ok y) :
    y.sockets = x.sockets ++ opened ais ∧ y.asked = x.asked ++ ais.map (·.1.addr) ∧
      y.connFd = ((ais.getLast?.map (·.2.socket)).getD x.connFd) := by
  induction ais generalizing x with
  | nil =>
    cases h
    exact ⟨(List.append_nil _).symm, (List.append_nil _).symm, rfl⟩
  | cons cur ais ih =>
    rw [List.foldlM_cons] at h
    cases hround : connectRound onSocket onConnect x cur with
    | error e =>
      rw [hround] at h
      cases h
    | ok z =>
      rw [hround] at h
      obtain ⟨hsockets, hasked, hfd⟩ := ih h
      have hz := connectRound_ok hround
      subst hz
      refine ⟨?_, ?_, ?_⟩
      · rw [hsockets, List.append_assoc]
        rfl
      · rw [hasked, List.append_assoc]
        rfl
      · rw [hfd, List.getLast?_cons]
        cases ais.getLast? <;> rfl

theorem connectLoop_ok (h : connectLoop onSocket onConnect ais = .ok x) :
    x.sockets = opened ais ∧ x.asked = ais.map (·.1.addr) ∧
      x.connFd = (ais.getLast?.map (·.2.socket)).getD (-1) :=
  foldlM_ok h

end

-- ---------------------------------------------------------------------------
-- One connection
-- ---------------------------------------------------------------------------

/-- The thread holds one socket, which is connected to `ai` and is the one it uses, and a
server was asked to accept that connection only. -/
structure OneConnection (x : Connecting) (ai : AddrInfo) : Prop where
  socket : x.sockets = [⟨x.connFd, some ai.addr⟩]
  asked : x.asked = [ai.addr]

theorem oneConnection_of_ok {onSocket onConnect : List String} {ai : AddrInfo} {answers : Answers}
    {rest : List (AddrInfo × Answers)} {x : Connecting}
    (h : connectLoop onSocket onConnect ((ai, answers) :: rest) = .ok x) :
    OneConnection x ai ↔ rest = [] := by
  obtain ⟨hsockets, hasked, hfd⟩ := connectLoop_ok h
  constructor
  · rintro ⟨hone, -⟩
    rw [hsockets] at hone
    have hlen := congrArg List.length hone
    rw [opened, List.length_map, List.length_cons, List.length_singleton] at hlen
    exact List.length_eq_zero_iff.mp (by omega)
  · rintro rfl
    refine ⟨?_, hasked⟩
    rw [hsockets, hfd]
    rfl

/-- **Exactly when a thread has one connection**: there is one address. For every list that
is not empty and whatever the kernel answers, when the loop is left without exiting, in
either program. -/
theorem oneConnection_iff (ai : AddrInfo) (answers : Answers) (rest : List (AddrInfo × Answers))
    (address port : String) (x : Connecting) :
    (clientConnect ((ai, answers) :: rest) = .ok x → (OneConnection x ai ↔ rest = [])) ∧
      (startClientConnect address port ((ai, answers) :: rest) = .ok x →
        (OneConnection x ai ↔ rest = [])) :=
  ⟨oneConnection_of_ok, oneConnection_of_ok⟩

/-- A name that stands for one address. -/
theorem oneConnection_iff_oneAddress :
    OneConnection ⟨5, [⟨5, some [127, 0, 0, 1]⟩], [[127, 0, 0, 1]]⟩ ⟨2, 1, 6, [127, 0, 0, 1]⟩ := by
  obtain ⟨hclient, -⟩ := oneConnection_iff ⟨2, 1, 6, [127, 0, 0, 1]⟩ ⟨5, 0⟩ [] "" ""
    ⟨5, [⟨5, some [127, 0, 0, 1]⟩], [[127, 0, 0, 1]]⟩
  exact (hclient rfl).mpr rfl

/-- The list for a name that stands for two addresses of the server, one of IPv6 and one of
IPv4; both answer. -/
def twoAddresses : List (AddrInfo × Answers) :=
  [(⟨10, 1, 6, [0, 0, 0, 0, 0, 0, 0, 0, 0, 0, 0, 0, 0, 0, 0, 1]⟩, ⟨5, 0⟩),
    (⟨2, 1, 6, [127, 0, 0, 1]⟩, ⟨6, 0⟩)]

/-- The thread uses the second connection, and the first one stays open. -/
theorem two_connections :
    ∃ x, clientConnect twoAddresses = .ok x ∧ startClientConnect "server" "12345" twoAddresses = .ok x ∧
      ¬ OneConnection x ⟨10, 1, 6, [0, 0, 0, 0, 0, 0, 0, 0, 0, 0, 0, 0, 0, 0, 0, 1]⟩ ∧
      x.sockets.length = 2 ∧ x.connFd = 6 ∧ x.asked.length = 2 :=
  ⟨_, rfl, rfl, fun h => absurd (congrArg List.length h.asked) (by decide), rfl, rfl, rfl⟩

end EchoServer.Bench
