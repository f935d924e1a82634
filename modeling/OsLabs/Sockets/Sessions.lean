/-
# The datagram server among its clients

Processes that run `client.c`, any number of them at once, with process ids of at most six digits,
and the server that answers.  A client writes its name into `sa_data`, where a longer id leaves no
room for the end (`sockaddr_eq_ok_iff`).  It binds `<pid>.socket`, sends its process id, waits for
an answer, prints it, closes its socket and unlinks the name.  A signal may end a client at any
time, and then the name stays; a process id may be used again.  SIGINT ends the server.

An address that lacks its end is nobody's (`pathOf_cut`): it has no longer the name of its client,
and never that of another.  `Moves` lists what a step can do.

The kernel's queues have room, so that `sendto` does not wait; `recvfrom` and `read` do not fail.
-/
import OsLabs.Sockets.Overruns
import OsLabs.Lib.Numeral

namespace OsLabs.Responder

open OsLabs

/-! ## 1. Names and addresses -/

/-- `server.srv` -/
def SERVER_SOCKET : Bytes := [115, 101, 114, 118, 101, 114, 46, 115, 114, 118]

/-- The name that a client binds. -/
def socketName (c : Client) : Bytes := decimal c ++ suffix

def dot : UInt8 := 46

/-- The name in an address: up to its NUL, or to its end. -/
def pathOf (addr : Bytes) : Option Bytes :=
  if addr.take AF_UNIX.length = AF_UNIX then some ((addr.drop AF_UNIX.length).takeWhile (· ≠ 0))
  else none

variable {c c' : Client} {addr rest : Bytes} {n : Nat}

theorem address_eq (c : Client) : address c = AF_UNIX ++ (socketName c ++ [0]) := by
  simp [address, socketName]

theorem socketName_no_nul (c : Client) : (0 : UInt8) ∉ socketName c := by
  simp [socketName, suffix, decimal_no_nul]

theorem pathOf_append (rest : Bytes) :
    pathOf (AF_UNIX ++ rest) = some (rest.takeWhile (· ≠ 0)) := by
  rw [pathOf, List.take_left, if_pos rfl, List.drop_left]

theorem pathOf_address (c : Client) : pathOf (address c) = some (socketName c) := by
  rw [address_eq, pathOf_append, List.takeWhile_append,
    if_pos (by rw [Buffer.takeWhile_of_no_nul (socketName_no_nul c)])]
  simp

theorem notMem_decimal {x : UInt8} (hx : digitOf 10 x = none) (n : Nat) : x ∉ decimal n := fun h =>
  mem_digits_of_not_digit hx h (congrArg Prod.snd (digits_decimal n))

theorem dot_notMem_decimal (n : Nat) : dot ∉ decimal n := notMem_decimal rfl n

/-- What stands in front of the first dot of a client's name is the process id. -/
theorem takeWhile_socketName (c : Client) (rest : Bytes) :
    (socketName c ++ rest).takeWhile (· ≠ dot) = decimal c := by
  have hall : (decimal c).takeWhile (· ≠ dot) = decimal c :=
    List.takeWhile_eq_self_iff.mpr fun x hx => by
      simpa using fun heq : x = dot => dot_notMem_decimal c (heq ▸ hx)
  rw [socketName, suffix, List.append_assoc, List.takeWhile_append, if_pos (by rw [hall])]
  simp [dot]

theorem decimal_injective {m n : Nat} (h : decimal m = decimal n) : m = n := by
  have hm := digits_decimal m
  rw [h, digits_decimal n] at hm
  exact (Prod.mk.inj hm).1.symm

/-- Even a name that goes on in another way after its dot is nobody else's. -/
theorem eq_of_dotted {u v : Bytes} (h : decimal c ++ dot :: u = socketName c' ++ v) : c = c' := by
  have htake := congrArg (List.takeWhile (· ≠ dot)) h
  rw [takeWhile_socketName] at htake
  have hall : (decimal c).takeWhile (· ≠ dot) = decimal c :=
    List.takeWhile_eq_self_iff.mpr fun x hx => by
      simpa using fun heq : x = dot => dot_notMem_decimal c (heq ▸ hx)
  rw [List.takeWhile_append, if_pos (by rw [hall])] at htake
  exact Fin.ext (decimal_injective (by simpa using htake))

/-- The address of the client with the shortest name. -/
def SHORTEST : Nat := 11

theorem length_decimal_pos (n : Nat) : 0 < (decimal n).length := by
  rw [decimal, List.length_map, List.length_pos_iff]
  exact Nat.toDigits_ne_nil

theorem shortest_le (c : Client) : SHORTEST ≤ (address c).length := by
  have hpos := length_decimal_pos c
  simp only [address, AF_UNIX, suffix, List.length_append, List.length_cons, List.length_nil,
    SHORTEST]
  omega

/-- What is left of an address when its end is lost: still the family, the process id and the dot
behind it. -/
theorem cut_eq (hn : SHORTEST ≤ n) (hpre : (address c).take n <+: addr) :
    ∃ v, addr = AF_UNIX ++ (decimal c ++ dot :: v) := by
  have hdec : (decimal c).length ≤ 6 := length_decimal_le (by decide) c.isLt
  obtain ⟨rest, rfl⟩ := hpre
  obtain ⟨k, hk⟩ : ∃ k, n = (AF_UNIX ++ decimal c ++ [dot]).length + k := by
    refine ⟨n - (AF_UNIX ++ decimal c ++ [dot]).length, ?_⟩
    simp only [SHORTEST] at hn
    simp only [AF_UNIX, List.length_append, List.length_cons, List.length_nil]
    omega
  have haddr : address c =
      (AF_UNIX ++ decimal c ++ [dot]) ++ [115, 111, 99, 107, 101, 116, 0] := by
    simp [address, suffix, dot]
  rw [haddr, hk, List.take_length_add_append]
  exact ⟨_, by simp only [List.append_assoc, List.singleton_append]; rfl⟩

theorem decimal_ne_server (c : Client) (w : Bytes) : decimal c ++ dot :: w ≠ SERVER_SOCKET := by
  intro h
  obtain ⟨x, xs, hx⟩ := List.exists_cons_of_length_pos (length_decimal_pos c)
  have hno : (115 : UInt8) ∉ decimal c := notMem_decimal rfl c
  rw [hx, SERVER_SOCKET, List.cons_append, List.cons.injEq] at h
  exact hno (by simp [hx, h.1])

/-- **An address that lacks its end is nobody's**, and one that does not is its client's. -/
theorem pathOf_cut (hn : SHORTEST ≤ n) (hpre : (address c).take n <+: addr)
    (hlen : addr.length = (address c).length) : ∃ p, pathOf addr = some p ∧ p ≠ SERVER_SOCKET ∧
      ∀ c', p = socketName c' → c' = c ∧ addr = address c := by
  obtain ⟨v, rfl⟩ := cut_eq hn hpre
  have hall : (decimal c).takeWhile (· ≠ 0) = decimal c :=
    Buffer.takeWhile_of_no_nul (decimal_no_nul c)
  have hpath : pathOf (AF_UNIX ++ (decimal c ++ dot :: v)) =
      some (decimal c ++ dot :: v.takeWhile (· ≠ 0)) := by
    rw [pathOf_append, List.takeWhile_append, if_pos (by rw [hall]),
      List.takeWhile_cons_of_pos (by decide)]
  refine ⟨_, hpath, decimal_ne_server c _, fun c' hc' => ?_⟩
  obtain rfl : c = c' := eq_of_dotted (v := []) (by rw [hc', List.append_nil])
  refine ⟨rfl, ?_⟩
  -- the name is whole, so only one byte is left behind it, and that ends it
  have hw : v.takeWhile (· ≠ 0) = [115, 111, 99, 107, 101, 116] := by
    simpa [socketName, suffix, dot] using hc'
  have hsplit := List.takeWhile_append_dropWhile (p := fun x : UInt8 => x ≠ 0) (l := v)
  have hone : (v.dropWhile (· ≠ 0)).length = 1 := by
    have hv := congrArg List.length hsplit
    rw [List.length_append, hw] at hv
    simp only [address, suffix, List.length_append, List.length_cons, List.length_nil] at hlen hv
    omega
  obtain ⟨x, hx⟩ := List.length_eq_one_iff.mp hone
  have hzero : x = 0 := by
    have hhead := List.head_dropWhile_not (fun x : UInt8 => x ≠ 0) (l := v) (by rw [hx]; simp)
    simp only [hx, List.head_cons] at hhead
    simpa using hhead
  rw [← hsplit, hw, hx, hzero]
  simp [address, suffix, dot]

/-! ## 2. The program -/

/-- The loop's body up to `sendto`, with the line that it prints before the message is
terminated. -/
def receiveOne (pid : Nat) (s : Server) (d : Datagram) : Result (Server × Datagram) := do
  let (_, received) ← recvfrom s (some d)
  let _ ← access .buf (received.buf.cstring 0)
  iteration pid s (some d)

/-- The process that a socket belongs to. -/
inductive Endpoint
  | server
  | client (c : Client)
deriving DecidableEq, Repr

/-- The next step of the server: `recvfrom`, or `sendto` with what it sends. -/
inductive ServerPc
  | recvfrom
  | sendto (d : Datagram)
  | exited
deriving DecidableEq

/-- The next step of a process that runs `client.c`, with its `buf`. -/
inductive ClientPc
  | absent
  | bind (buf : Buffer BUFFER_SIZE)
  | sendto (buf : Buffer BUFFER_SIZE)
  | read (buf : Buffer BUFFER_SIZE)
  | close
  | unlink
deriving DecidableEq

def SA_DATA_SIZE : Nat := 14

/-- `strcpy` or `sprintf` of a name into `sa_data`, which is zero from its initializer, and the name
that stands there then. -/
def sockaddr (name : Bytes) : Result Bytes := do
  let sa_data ← access .sa_data ((Buffer.zero SA_DATA_SIZE).store 0 (name ++ [0]))
  access .sa_data (sa_data.cstring 0)

/-- `queue` is what has arrived at the server's socket, `files` the socket files of the directory,
`inbox` what has arrived at the socket that a client has bound, while it is open, and `out` what
the clients have printed as read. -/
structure System where
  vars : Server
  server : ServerPc
  queue : List Datagram
  files : Bytes → Option Endpoint
  client : Client → ClientPc
  inbox : Client → Option (List Bytes)
  out : List (Client × Bytes)

/-- A process starts, with what `buf` holds at first; a client or the server takes its next step;
a signal ends a client; SIGINT ends the server. -/
inductive Event
  | spawn (c : Client) (buf : Buffer BUFFER_SIZE)
  | client (c : Client)
  | kill (c : Client)
  | server
  | sigint

namespace System

def setPc (s : System) (c : Client) (pc : ClientPc) : System :=
  { s with client := fun x => if x = c then pc else s.client x }

def setInbox (s : System) (c : Client) (inbox : Option (List Bytes)) : System :=
  { s with inbox := fun x => if x = c then inbox else s.inbox x }

def setFile (s : System) (name : Bytes) (e : Option Endpoint) : System :=
  { s with files := fun x => if x = name then e else s.files x }

/-- The process ends, and its socket is closed. -/
def exit (s : System) (c : Client) : System := (s.setPc c .absent).setInbox c none

/-- `sendto` delivers to the open socket that has the name, if there is one. -/
def deliver (s : System) (d : Datagram) : System :=
  match (pathOf d.addr).bind s.files with
  | some (.client c) => s.setInbox c ((s.inbox c).map (· ++ [d.data]))
  | some .server => { s with queue := s.queue ++ [⟨AF_UNIX ++ SERVER_SOCKET ++ [0], d.data⟩] }
  | none => s

/-- `client.c` -/
def clientStep (s : System) (c : Client) : Option (Result System) :=
  match s.client c with
  | .absent => none
  | .bind buf =>
    some (do
      let _ ← sockaddr SERVER_SOCKET
      let name ← sockaddr (socketName c)
      return if s.files name = none then
        ((s.setFile name (some (.client c))).setInbox c (some [])).setPc c (.sendto buf)
      else s.exit c)
  | .sendto buf => some (do
    let buf ← access .buf (buf.store 0 (decimal c ++ [0]))
    let text ← access .buf (buf.cstring 0)
    let server ← sockaddr SERVER_SOCKET
    let sent : System := { s with queue := s.queue ++ [⟨address c, text⟩] }
    return if s.files server = some .server then sent.setPc c (.read buf) else s.exit c)
  | .read buf =>
    match s.inbox c with
    | some (data :: inbox) => some (do
      let buf ← access .buf (buf.store 0 (data.take BUFFER_SIZE))
      let buf ← access .buf (buf.store (data.take BUFFER_SIZE).length [0])
      let text ← access .buf (buf.cstring 0)
      let printed : System := { s with out := s.out ++ [(c, text)] }
      return (printed.setInbox c (some inbox)).setPc c .close)
    | _ => none
  | .close => some (.ok ((s.setInbox c none).setPc c .unlink))
  | .unlink => some (do
    let name ← sockaddr (socketName c)
    return (s.setFile name none).setPc c .absent)

/-- The server's loop. -/
def serverStep (pid : Nat) (s : System) : Option (Result System) :=
  match s.server with
  | .recvfrom =>
    match s.queue with
    | d :: queue => some ((receiveOne pid s.vars d).map fun r =>
        { s with vars := r.1, server := .sendto r.2, queue := queue })
    | [] => none
  | .sendto d => some (.ok { s.deliver d with server := .recvfrom })
  | .exited => none

/-- `sigint_handler` -/
def sigint (s : System) : System :=
  { s with server := .exited, queue := [] }.setFile SERVER_SOCKET none

def step (pid : Nat) (s : System) : Event → Option (Result System)
  | .spawn c buf => if s.client c = .absent then some (.ok (s.setPc c (.bind buf))) else none
  | .client c => s.clientStep c
  | .kill c => if s.client c = .absent then none else some (.ok (s.exit c))
  | .server => s.serverStep pid
  | .sigint => if s.server = .exited then none else some (.ok s.sigint)

/-- The server has bound its name and waits. -/
def init (vars : Server) : System where
  vars := vars
  server := .recvfrom
  queue := []
  files name := if name = SERVER_SOCKET then some .server else none
  client _ := .absent
  inbox _ := none
  out := []

end System

def sessions (pid : Nat) (vars : Server) : Machine (Result System) Event where
  init := .ok (.init vars)
  step
    | .ok s, a => s.step pid a
    | .error _, _ => none

/-! ## 3. One message -/

variable {pid : Nat} {s s' : Server} {r : Datagram}

theorem receiveOne_of_iteration {d : Datagram} (h : iteration pid s (some d) = .ok (s', r))
    {m : Int} {t : Server} (hrecv : recvfrom s (some d) = .ok (m, t)) (hnul : 0 ∈ t.buf.bytes) :
    receiveOne pid s d = .ok (s', r) := by
  simp only [receiveOne, hrecv, Buffer.cstring_zero, if_pos hnul, access, h, bind, Except.bind]

/-- There is a NUL in `buf` behind the longest request. -/
def Terminated (s : Server) : Prop := (0 : UInt8) ∈ s.buf.bytes.drop 6

theorem length_decimal_client (c : Client) : (decimal c).length ≤ 6 :=
  length_decimal_le (by decide) c.isLt

theorem recvfrom_request (s : Server) (c : Client) :
    ∃ t, recvfrom s (some (request c)) = .ok ((decimal c).length, t) ∧
      t.addrlen = (address c).length ∧
      t.buf.bytes = decimal c ++ s.buf.bytes.drop (decimal c).length ∧
      (address c).take s.addrlen <+: t.client_addr.bytes := by
  have hdec := length_decimal_client c
  have haddr := length_address_le c
  have htake : (decimal c).take BUFFER_SIZE = decimal c :=
    List.take_of_length_le (by unfold BUFFER_SIZE; omega)
  obtain ⟨buf, hbuf, hbytes⟩ := Buffer.store_eq_ok s.buf 0 (decimal c) (Int.le_refl 0)
    (by unfold BUFFER_SIZE; omega)
  obtain ⟨client_addr, hclient, hclient'⟩ := Buffer.store_eq_ok s.client_addr 0
    ((address c).take (min s.addrlen (address c).length)) (Int.le_refl 0)
    (by rw [List.length_take]; omega)
  refine ⟨⟨client_addr, (address c).length, buf, s.copy_buf⟩, ?_, rfl, ?_, ?_⟩
  · simp only [recvfrom, request, htake, hbuf, hclient, access, bind, Except.bind]
  · simpa using hbytes
  · rw [hclient', ← List.take_eq_take_min]
    simp

/-- **One request**: its answer, whose address is that of the client as far as it was stored. -/
theorem receiveOne_request (hpid : pid < 2 ^ 31) (hnul : Terminated s) (c : Client) :
    ∃ s' r, receiveOne pid s (request c) = .ok (s', r) ∧ s'.addrlen = (address c).length ∧
      Terminated s' ∧ r.data = answer pid (decimal c) ++ [0] ∧
      r.addr.length = (address c).length ∧ (address c).take s.addrlen <+: r.addr ∧
      (r.addr = address c ↔ Fits s c) := by
  have hdec := length_decimal_client c
  have haddr := length_address_le c
  obtain ⟨s', r, hit, haddrlen, hiff⟩ := iteration_request hpid s c
  obtain ⟨t, hrecv, htlen, hbuf, hclient⟩ := recvfrom_request s c
  have hprint : (0 : UInt8) ∈ t.buf.bytes := by
    rw [hbuf]
    exact List.mem_append_right _ ((List.drop_subset_drop_left _ hdec) hnul)
  have hone := receiveOne_of_iteration hit hrecv hprint
  rw [iteration, hrecv] at hit
  obtain ⟨buf', hbuf', hit⟩ := access_bind_eq_ok hit
  obtain ⟨str, hstr, hit⟩ := access_bind_eq_ok hit
  obtain ⟨copy_buf, hcopy, hit⟩ := access_bind_eq_ok hit
  obtain ⟨text, htext, hit⟩ := access_bind_eq_ok hit
  obtain ⟨dest, hdest, hit⟩ := access_bind_eq_ok hit
  obtain ⟨rfl, rfl⟩ := Prod.mk.inj (Except.ok.inj hit)
  -- the message with its NUL, and the answer
  have hbytes : buf'.bytes = decimal c ++ 0 :: s.buf.bytes.drop ((decimal c).length + 1) := by
    rw [(Buffer.bytes_of_store hbuf').2, hbuf]
    simp [List.drop_append]
  rw [Buffer.cstring_zero_of_append hbytes, Buffer.takeWhile_of_no_nul (decimal_no_nul c),
    Except.ok.injEq] at hstr
  subst hstr
  have hanswer : (0 : UInt8) ∉ answer pid (decimal c) := by simp [answer, decimal_no_nul]
  have hcopied : copy_buf.bytes = answer pid (decimal c) ++
      0 :: t.copy_buf.bytes.drop ((answer pid (decimal c)).length + 1) := by
    rw [(Buffer.bytes_of_store hcopy).2]
    simp
  rw [Buffer.cstring_zero_of_append hcopied, Buffer.takeWhile_of_no_nul hanswer,
    Except.ok.injEq] at htext
  subst htext
  have hdest' : dest = t.client_addr.bytes.take (address c).length := by
    rw [Buffer.load, htlen, if_pos ⟨Int.le_refl 0, by omega⟩] at hdest
    exact (Except.ok.inj hdest).symm
  have hclen := t.client_addr.length_eq
  refine ⟨_, _, hone, haddrlen, ?_, rfl, ?_, ?_, hiff⟩
  · simp only [Terminated, hbytes]
    rcases Nat.lt_or_ge (decimal c).length 6 with hlt | hge
    · rw [List.drop_append, List.drop_eq_nil_of_le hdec, List.nil_append,
        show 6 - (decimal c).length = (6 - (decimal c).length - 1) + 1 by omega,
        List.drop_succ_cons, List.drop_drop]
      rwa [show (decimal c).length + 1 + (6 - (decimal c).length - 1) = 6 by omega]
    · rw [List.drop_left' (by omega)]
      exact List.mem_cons_self
  · rw [hdest', List.length_take]
    omega
  · rw [hdest', List.prefix_take_iff]
    exact ⟨hclient, by rw [List.length_take]; omega⟩

/-- **One answer** fits in a client's array, and is what it prints. -/
theorem read_answer (hpid : pid < 2 ^ 31) (c : Client) (buf : Buffer BUFFER_SIZE) :
    ∃ buf₁ buf₂, buf.store 0 ((answer pid (decimal c) ++ [0]).take BUFFER_SIZE) = .ok buf₁ ∧
      buf₁.store ((answer pid (decimal c) ++ [0]).take BUFFER_SIZE).length [0] = .ok buf₂ ∧
      buf₂.cstring 0 = .ok (answer pid (decimal c)) := by
  have hdec := length_decimal_client c
  have hpidlen : (decimal pid).length ≤ 10 :=
    length_decimal_le (by decide) (Nat.lt_trans hpid (by decide))
  have hlen : (answer pid (decimal c) ++ [0]).length < BUFFER_SIZE := by
    rw [List.length_append, length_answer, List.length_singleton, BUFFER_SIZE]
    omega
  have hanswer : (0 : UInt8) ∉ answer pid (decimal c) := by simp [answer, decimal_no_nul]
  obtain ⟨buf₁, buf₂, h₁, -, h₂, hstr⟩ := Buffer.store_terminate buf _ hlen
  rw [List.take_of_length_le (Nat.le_of_lt hlen)]
  refine ⟨buf₁, buf₂, h₁, h₂, hstr.trans ?_⟩
  rw [List.takeWhile_append, if_pos (by rw [Buffer.takeWhile_of_no_nul hanswer])]
  simp

theorem sockaddr_server : sockaddr SERVER_SOCKET = .ok SERVER_SOCKET := rfl

/-- **A client's name** has room in `sa_data` exactly when its process id has six digits at most. -/
theorem sockaddr_eq_ok_iff (n : Nat) :
    sockaddr (decimal n ++ suffix) = .ok (decimal n ++ suffix) ↔ n < 1000000 := by
  have hsuffix : suffix.length = 7 := rfl
  have hlen : (decimal n ++ suffix ++ [0]).length = (decimal n).length + 8 := by
    simp [hsuffix]
  constructor
  · intro h
    obtain ⟨sa_data, hstore, -⟩ := access_bind_eq_ok h
    have hfit := (Buffer.bytes_of_store hstore).1.2
    rw [hlen] at hfit
    unfold SA_DATA_SIZE at hfit
    exact (length_decimal_le_iff (e := 6) (by decide)).mp (by omega)
  · intro hn
    have hdec : (decimal n).length ≤ 6 := length_decimal_le (by decide) (by omega)
    have hnul : (0 : UInt8) ∉ decimal n ++ suffix := by simp [suffix, decimal_no_nul]
    obtain ⟨sa_data, hstore, hstr⟩ := (Buffer.zero SA_DATA_SIZE).store_string (decimal n ++ suffix)
      (by rw [List.length_append, hsuffix]; unfold SA_DATA_SIZE; omega)
    rw [Buffer.takeWhile_of_no_nul hnul] at hstr
    simp only [sockaddr, hstore, hstr, access, bind, Except.bind]

theorem sockaddr_socketName (c : Client) : sockaddr (socketName c) = .ok (socketName c) :=
  (sockaddr_eq_ok_iff c).mpr c.isLt

/-! ## 4. One step -/

/-- The name is bound, by this process. -/
def ClientPc.bound : ClientPc → Bool
  | .absent => false
  | .bind _ => false
  | _ => true

/-- The socket is bound and open. -/
def ClientPc.listens : ClientPc → Bool
  | .sendto _ => true
  | .read _ => true
  | .close => true
  | _ => false

def ClientPc.waits : ClientPc → Bool
  | .read _ => true
  | _ => false

/-- How many answers to a client are about to be sent. -/
def ServerPc.answers (pc : ServerPc) (c : Client) : Nat :=
  match pc with
  | .sendto d => if d.addr = address c then 1 else 0
  | _ => 0

/-- The requests and answers of a client that are on their way. -/
def System.pending (s : System) (c : Client) : Nat :=
  s.queue.count (request c) + s.server.answers c + ((s.inbox c).getD []).length

/-- An answer that is sent: that to a client, to its address as far as it was stored. -/
structure IsAnswer (pid : Nat) (d : Datagram) (c : Client) : Prop where
  data : d.data = answer pid (decimal c) ++ [0]
  length : d.addr.length = (address c).length
  stored : ∃ n, SHORTEST ≤ n ∧ (address c).take n <+: d.addr

/-- What holds of a client: what is on its way to it is awaited, or its process was ended and has
left its file. -/
structure ClientOk (pid : Nat) (s : System) (c : Client) : Prop where
  bound : (s.client c).bound = true → s.files (socketName c) = some (.client c)
  listens : (s.inbox c).isSome = (s.client c).listens
  inbox : ∀ q, s.inbox c = some q → ∀ data ∈ q, data = answer pid (decimal c) ++ [0]
  pending_le : s.pending c ≤ 1
  awaited : s.pending c ≠ 0 → s.files (socketName c) = some (.client c) ∧
    ((s.client c).waits = true ∨ (s.client c).bound = false)

/-- **The invariant.**  A socket file is the server's or bears its client's name, requests and
answers are those of clients, and every client has printed its own answer. -/
structure SystemInv (pid : Nat) (s : System) : Prop where
  terminated : Terminated s.vars
  addrlen : SHORTEST ≤ s.vars.addrlen
  queue : ∀ d ∈ s.queue, ∃ c, d = request c
  reply : ∀ d, s.server = .sendto d → ∃ c, IsAnswer pid d c
  files : ∀ name e, s.files name = some e →
    e = .server ∧ name = SERVER_SOCKET ∨ ∃ c, e = .client c ∧ name = socketName c
  serverFile : s.files SERVER_SOCKET = some .server ↔ s.server ≠ .exited
  gone : s.server = .exited → s.queue = []
  client : ∀ c, ClientOk pid s c
  out : ∀ l ∈ s.out, l.2 = answer pid (decimal l.1)

variable {σ σ' : System} {a : Event}

/-- **What a step does** in a state of the invariant. -/
inductive Moves (pid : Nat) (σ : System) : Event → System → Prop
  | spawn (c : Client) (buf : Buffer BUFFER_SIZE) (hpc : σ.client c = .absent) :
    Moves pid σ (.spawn c buf) (σ.setPc c (.bind buf))
  | bind (c : Client) (buf : Buffer BUFFER_SIZE) (hpc : σ.client c = .bind buf)
    (hfree : σ.files (socketName c) = none) : Moves pid σ (.client c)
      (((σ.setFile (socketName c) (some (.client c))).setInbox c (some [])).setPc c (.sendto buf))
  | refuse (c : Client) (buf : Buffer BUFFER_SIZE) (hpc : σ.client c = .bind buf)
    (htaken : σ.files (socketName c) ≠ none) : Moves pid σ (.client c) (σ.exit c)
  | send (c : Client) (buf buf' : Buffer BUFFER_SIZE) (hpc : σ.client c = .sendto buf)
    (hserver : σ.server ≠ .exited) : Moves pid σ (.client c)
      (({ σ with queue := σ.queue ++ [request c] } : System).setPc c (.read buf'))
  | unsent (c : Client) (buf : Buffer BUFFER_SIZE) (hpc : σ.client c = .sendto buf)
    (hserver : σ.server = .exited) : Moves pid σ (.client c) (σ.exit c)
  | read (c : Client) (buf : Buffer BUFFER_SIZE) (q : List Bytes) (hpc : σ.client c = .read buf)
    (hinbox : σ.inbox c = some ((answer pid (decimal c) ++ [0]) :: q)) : Moves pid σ (.client c)
      ((({ σ with out := σ.out ++ [(c, answer pid (decimal c))] } : System).setInbox c
        (some q)).setPc c .close)
  | close (c : Client) (hpc : σ.client c = .close) :
    Moves pid σ (.client c) ((σ.setInbox c none).setPc c .unlink)
  | unlink (c : Client) (hpc : σ.client c = .unlink) :
    Moves pid σ (.client c) ((σ.setFile (socketName c) none).setPc c .absent)
  | kill (c : Client) (hpc : σ.client c ≠ .absent) : Moves pid σ (.kill c) (σ.exit c)
  | receive (c : Client) (q : List Datagram) (vars : Server) (r : Datagram)
    (hpc : σ.server = .recvfrom) (hq : σ.queue = request c :: q) (hterm : Terminated vars)
    (hlen : SHORTEST ≤ vars.addrlen) (hr : IsAnswer pid r c)
    (hfits : r.addr = address c ↔ Fits σ.vars c) :
    Moves pid σ .server { σ with vars := vars, server := .sendto r, queue := q }
  | answer (c : Client) (d : Datagram) (hpc : σ.server = .sendto d) (haddr : d.addr = address c) :
    Moves pid σ .server { σ.setInbox c
      ((σ.inbox c).map (· ++ [Responder.answer pid (decimal c) ++ [0]])) with server := .recvfrom }
  | lose (d : Datagram) (hpc : σ.server = .sendto d) (haddr : ∀ c, d.addr ≠ address c) :
    Moves pid σ .server { σ with server := .recvfrom }
  | sigint (hpc : σ.server ≠ .exited) : Moves pid σ .sigint σ.sigint

theorem socketName_injective (h : socketName c = socketName c') : c = c' := by
  have h' := takeWhile_socketName c []
  rw [h, takeWhile_socketName] at h'
  exact Fin.ext (decimal_injective h'.symm)

theorem socketName_ne_server (c : Client) : socketName c ≠ SERVER_SOCKET := by
  have h := decimal_ne_server c [115, 111, 99, 107, 101, 116]
  simpa [socketName, suffix, dot] using h

theorem address_injective (h : address c = address c') : c = c' := by
  rw [address_eq, address_eq] at h
  exact socketName_injective (List.append_cancel_right (List.append_cancel_left h))

theorem request_injective (h : request c = request c') : c = c' :=
  address_injective (congrArg Datagram.addr h)

/-- An answer comes to its client if its address is whole, and to nobody else. -/
theorem IsAnswer.path {d : Datagram} (h : IsAnswer pid d c) : ∃ p, pathOf d.addr = some p ∧
    p ≠ SERVER_SOCKET ∧ ∀ c', p = socketName c' → c' = c ∧ d.addr = address c := by
  obtain ⟨n, hn, hpre⟩ := h.stored
  exact pathOf_cut hn hpre h.length

theorem IsAnswer.eq_of_addr {d : Datagram} (h : IsAnswer pid d c) (haddr : d.addr = address c') :
    c' = c := by
  obtain ⟨p, hp, -, hname⟩ := h.path
  rw [haddr, pathOf_address] at hp
  exact (hname c' (Option.some.inj hp).symm).1

theorem SystemInv.client_moves (h : SystemInv pid σ) (hpid : pid < 2 ^ 31) {x : Result System}
    (hst : σ.clientStep c = some x) : ∃ σ', x = .ok σ' ∧ Moves pid σ (.client c) σ' := by
  unfold System.clientStep at hst
  split at hst
  · exact absurd hst (by simp)
  · rename_i buf hpc
    obtain rfl := Option.some.inj hst
    simp only [sockaddr_server, sockaddr_socketName, bind, Except.bind, pure, Except.pure,
      Except.ok.injEq, exists_eq_left']
    split
    · rename_i hfree
      exact .bind c buf hpc hfree
    · rename_i htaken
      exact .refuse c buf hpc htaken
  · rename_i buf hpc
    obtain rfl := Option.some.inj hst
    obtain ⟨buf', hbuf', htext⟩ := buf.store_string (decimal c) (by
      have := length_decimal_client c
      unfold BUFFER_SIZE
      omega)
    rw [Buffer.takeWhile_of_no_nul (decimal_no_nul c)] at htext
    simp only [hbuf', htext, sockaddr_server, access, bind, Except.bind, pure, Except.pure,
      Except.ok.injEq, exists_eq_left']
    split
    · rename_i hserver
      exact .send c buf buf' hpc (h.serverFile.mp hserver)
    · rename_i hserver
      exact .unsent c buf hpc (by_contra fun hne => hserver (h.serverFile.mpr hne))
  · rename_i buf hpc
    split at hst
    · rename_i data q hinbox
      obtain rfl := Option.some.inj hst
      obtain rfl := (h.client c).inbox _ hinbox data List.mem_cons_self
      obtain ⟨buf₁, buf₂, h₁, h₂, htext⟩ := read_answer hpid c buf
      simp only [h₁, h₂, htext, access, bind, Except.bind, pure, Except.pure, Except.ok.injEq,
        exists_eq_left']
      exact .read c buf q hpc hinbox
    · exact absurd hst (by simp)
  · rename_i hpc
    obtain rfl := Option.some.inj hst
    exact ⟨_, rfl, .close c hpc⟩
  · rename_i hpc
    obtain rfl := Option.some.inj hst
    rw [sockaddr_socketName]
    exact ⟨_, rfl, .unlink c hpc⟩

theorem SystemInv.server_moves (h : SystemInv pid σ) (hpid : pid < 2 ^ 31) {x : Result System}
    (hst : σ.serverStep pid = some x) : ∃ σ', x = .ok σ' ∧ Moves pid σ .server σ' := by
  unfold System.serverStep at hst
  split at hst
  · rename_i hpc
    split at hst
    · rename_i d q hq
      obtain rfl := Option.some.inj hst
      obtain ⟨c, rfl⟩ := h.queue d (hq ▸ List.mem_cons_self)
      obtain ⟨vars, r, hone, hlen, hterm, hdata, hrlen, hpre, hfits⟩ :=
        receiveOne_request hpid h.terminated c
      rw [hone]
      exact ⟨_, rfl, .receive c q vars r hpc hq hterm (hlen ▸ shortest_le c)
        ⟨hdata, hrlen, _, h.addrlen, hpre⟩ hfits⟩
    · exact absurd hst (by simp)
  · rename_i d hpc
    obtain rfl := Option.some.inj hst
    obtain ⟨c, hd⟩ := h.reply d hpc
    obtain ⟨p, hp, hserver, hname⟩ := hd.path
    by_cases haddr : d.addr = address c
    · have hpending : σ.pending c ≠ 0 := by
        rw [System.pending, hpc, ServerPc.answers, if_pos haddr]
        omega
      have hfile := ((h.client c).awaited hpending).1
      refine ⟨_, rfl, ?_⟩
      have hdeliver : σ.deliver d = σ.setInbox c
          ((σ.inbox c).map (· ++ [answer pid (decimal c) ++ [0]])) := by
        rw [System.deliver, haddr, pathOf_address, Option.bind_some, hfile, hd.data]
      rw [hdeliver]
      exact .answer c d hpc haddr
    · have hnone : σ.files p = none := by
        rw [Option.eq_none_iff_forall_ne_some]
        rintro e he
        rcases h.files p e he with ⟨-, rfl⟩ | ⟨c', -, hc'⟩
        · exact hserver rfl
        · exact haddr (hname c' hc').2
      refine ⟨_, rfl, ?_⟩
      have hdeliver : σ.deliver d = σ := by
        rw [System.deliver, hp, Option.bind_some, hnone]
      rw [hdeliver]
      refine .lose d hpc fun c' hc' => ?_
      obtain rfl := hd.eq_of_addr hc'
      exact haddr hc'
  · exact absurd hst (by simp)

theorem SystemInv.moves (h : SystemInv pid σ) (hpid : pid < 2 ^ 31) {x : Result System}
    (hst : σ.step pid a = some x) : ∃ σ', x = .ok σ' ∧ Moves pid σ a σ' := by
  cases a with
  | spawn c buf =>
    obtain ⟨hpc, hx⟩ := Option.ite_none_right_eq_some.mp hst
    exact ⟨_, (Option.some.inj hx).symm, .spawn c buf hpc⟩
  | client c => exact h.client_moves hpid hst
  | kill c =>
    obtain ⟨hpc, hx⟩ := Option.ite_none_left_eq_some.mp hst
    exact ⟨_, (Option.some.inj hx).symm, .kill c hpc⟩
  | server => exact h.server_moves hpid hst
  | sigint =>
    obtain ⟨hpc, hx⟩ := Option.ite_none_left_eq_some.mp hst
    exact ⟨_, (Option.some.inj hx).symm, .sigint hpc⟩

end OsLabs.Responder
