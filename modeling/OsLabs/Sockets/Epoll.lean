/-
# The epoll server

A server on a TCP socket.  `epoll_wait` hands it up to `MAX_EVENTS` events at a time, and it
goes through them in order: at an event of the listening socket it accepts a connection, and at
an event of a connection it reads once, sends back its own process id and what it has read, and
closes the connection.

The network and the other ends are the actions of one machine: who connects, how many bytes of
a message have arrived when the server reads, whether a connection is taken back before it is
accepted, or reset, and whether `accept` fails.  What the server sends on a connection is the reply
there.  The arrays `msg_to` and `msg_from` are local to the branch that serves a connection, so
what they hold when it is entered is the environment's choice too.
-/
import OsLabs.Lib.Machine
import OsLabs.Lib.Buffer
import Mathlib.Logic.Function.Basic
import Mathlib.Data.Fintype.Basic

namespace OsLabs.Epoll

open OsLabs

/-! ## 1. The clients -/

abbrev Bytes : Type := List UInt8

def MAX_EVENTS : Nat := 4

def BUFF_SIZE : Nat := 32

instance neZero_pids : NeZero (2 ^ 31) := ⟨by decide⟩

/-- A client process: its id, and what is in its array `msg_to` at first. -/
structure Client where
  pid : Fin (2 ^ 31)
  msg_to : Buffer BUFF_SIZE
deriving DecidableEq

/-- `msg_to` as the client sends it, all `BUFF_SIZE` bytes. -/
def Client.message (c : Client) : Except Int (Buffer BUFF_SIZE) := do
  let msg_to ← c.msg_to.store (BUFF_SIZE - 1 : Nat) [0]
  msg_to.store 0 (decimal c.pid ++ [0])

/-- The other end of a connection: a client that sends its message and waits for the answer, or
any other program. -/
inductive Peer
  | client (c : Client)
  | other
deriving DecidableEq

/-! ## 2. The branches of the loop -/

inductive Arr
  | msg_to
  | msg_from
deriving DecidableEq, Repr

/-- Why the server is no longer in its loop: it has called `exit`, or an access has left the
array `a`, at index `i` first. -/
inductive Stop
  | exit
  | overrun (a : Arr) (i : Int)
deriving DecidableEq, Repr

abbrev Result (α : Type) : Type := Except Stop α

variable {α : Type}

def access (a : Arr) : Except Int α → Result α
  | .ok x => .ok x
  | .error i => .error (.overrun a i)

/-- The arrays of the branch that serves a connection. -/
structure Locals where
  msg_to : Buffer BUFF_SIZE
  msg_from : Buffer BUFF_SIZE
deriving DecidableEq

/-- `read` into `msg_from`.  It gets no bytes when the other end has closed the connection. -/
def read (msg_from : Buffer BUFF_SIZE) (received : Option Bytes) :
    Result (Int × Buffer BUFF_SIZE) :=
  access .msg_from (msg_from.recv BUFF_SIZE received)

/-- What `sprintf(msg_to, "%d_%s", getpid(), msg_from)` prints. -/
def answer (pid : Nat) (str : Bytes) : Bytes := decimal pid ++ [95] ++ str

/-- The branch that serves a connection: what it sends, if anything.  `sent` says whether `send`
succeeds. -/
def connBranch (pid : Nat) (l : Locals) (received : Option Bytes) (sent : Bool) :
    Result (Option (Buffer BUFF_SIZE)) := do
  let msg_to ← access .msg_to (l.msg_to.store (BUFF_SIZE - 1 : Nat) [0])
  let msg_from ← access .msg_from (l.msg_from.store (BUFF_SIZE - 1 : Nat) [0])
  let (rc, msg_from) ← read msg_from received
  if rc = -1 then .error .exit
  else if rc > 0 then do
    -- `printf`, and then `sprintf`
    let _ ← access .msg_from (msg_from.cstring 0)
    let str ← access .msg_from (msg_from.cstring 0)
    let msg_to ← access .msg_to (msg_to.store 0 (answer pid str ++ [0]))
    if sent = false then .error .exit
    else do
      let _ ← access .msg_to (msg_to.cstring 0)
      .ok (some msg_to)
  else .ok none

inductive Phase
  /-- not connected yet -/
  | idle
  /-- connected, and not accepted yet -/
  | queued
  /-- lost before it was accepted, and still to be reported by `accept` -/
  | failed
  /-- accepted, and added to `epollfd` -/
  | watched
  | closed
deriving DecidableEq, Repr

/-- A connection: how many bytes have arrived on it, and what the server has sent. -/
structure Conn where
  phase : Phase
  arrived : Nat
  reply : Option (Buffer BUFF_SIZE)
deriving DecidableEq

variable {N : Nat}

/-- An element of `events`. -/
inductive Event (N : Nat)
  | listen
  | conn (k : Fin N)
deriving DecidableEq, Repr

/-- The server in its loop: all connections, whether `listen_sock` is non-blocking, and the
events that are still to be handled before the next `epoll_wait`. -/
structure Loop (N : Nat) where
  conns : Fin N → Conn
  nonblock : Bool
  events : List (Event N)

namespace Loop

def init (N : Nat) : Loop N := ⟨fun _ => ⟨.idle, 0, none⟩, false, []⟩

def set (l : Loop N) (k : Fin N) (c : Conn) : Loop N :=
  { l with conns := Function.update l.conns k c }

def move (l : Loop N) (k : Fin N) (p : Phase) : Loop N :=
  l.set k { l.conns k with phase := p }

@[simp] theorem set_conns_self (l : Loop N) (k : Fin N) (c : Conn) : (l.set k c).conns k = c := by
  simp [set]

@[simp] theorem set_conns_of_ne (l : Loop N) {k j : Fin N} (c : Conn) (h : j ≠ k) :
    (l.set k c).conns j = l.conns j := by
  simp [set, h]

end Loop

/-- The branch for `listen_sock`, with what `accept` returns and whether `fcntl` and `epoll_ctl`
succeed. -/
def listenBranch (l : Loop N) (conn_sock : Option (Fin N)) (fcntl epoll_ctl : Bool) :
    Result (Loop N) :=
  match conn_sock with
  | none => .error .exit
  | some k =>
    if fcntl = false then .error .exit
    else if epoll_ctl = false then .error .exit
    else .ok { l.move k .watched with nonblock := true }

/-! ## 3. The server among its peers -/

/-- There is something to be had from a socket.  A connection is closed at its first event, so
`EPOLLET` makes no difference. -/
def Ready (peers : Fin N → Peer) (l : Loop N) : Event N → Prop
  | .listen => ∃ k, (l.conns k).phase = .queued ∨ (l.conns k).phase = .failed
  | .conn k => (l.conns k).phase = .watched ∧ (peers k = .other ∨ 0 < (l.conns k).arrived)

instance (peers : Fin N → Peer) (l : Loop N) : ∀ e, Decidable (Ready peers l e)
  | .listen => inferInstanceAs (Decidable (∃ _, _))
  | .conn _ => inferInstanceAs (Decidable (_ ∧ _))

/-- What `accept` may return: a connection, or -1 (`none`).  That may happen at any time: for a
connection that was lost, when there is none and the socket does not block, when the process has
no descriptor left, and as `client_len` has no value when `accept` reads it (a negative one is
an error). -/
def MayAccept (l : Loop N) : Option (Fin N) → Prop
  | some k => (l.conns k).phase = .queued
  | none => True

instance (l : Loop N) : ∀ c, Decidable (MayAccept l c)
  | some _ => inferInstanceAs (Decidable (_ = _))
  | none => isTrue trivial

/-- What `read` and `send` may return: for a client, all that has arrived of its message. -/
def MayRead (received : Option Bytes) (sent : Bool) (arrived : Nat) : Peer → Prop
  | .client c =>
    received = c.message.toOption.map (fun m => m.bytes.take arrived) ∧ sent = true
  | .other => True

instance (received : Option Bytes) (sent : Bool) (arrived : Nat) :
    ∀ p, Decidable (MayRead received sent arrived p)
  | .client _ => inferInstanceAs (Decidable (_ ∧ _))
  | .other => isTrue trivial

inductive Action (N : Nat)
  /-- the other end connects -/
  | connect (k : Fin N)
  /-- `n` more bytes arrive -/
  | deliver (k : Fin N) (n : Nat)
  /-- a connection is taken back before it is accepted -/
  | abort (k : Fin N)
  /-- the same, and its event stays -/
  | fail (k : Fin N)
  /-- `epoll_wait` returns -/
  | wait (events : List (Event N))
  /-- the next event is handled: one of `listen_sock` -/
  | accept (conn_sock : Option (Fin N))
  /-- the next event is handled: one of a connection -/
  | serve (stale : Locals) (received : Option Bytes) (sent : Bool)
deriving DecidableEq

/-- `fcntl` and `epoll_ctl` do not fail: nothing that a peer does makes them. -/
def system (pid : Nat) (peers : Fin N → Peer) : Machine (Result (Loop N)) (Action N) where
  init := .ok (.init N)
  step
    | .error _, _ => none
    | .ok l, .connect k =>
      if (l.conns k).phase = .idle then some (.ok (l.move k .queued)) else none
    | .ok l, .deliver k n =>
      if ((l.conns k).phase = .queued ∨ (l.conns k).phase = .watched) ∧ 0 < n ∧
          (l.conns k).arrived + n ≤ BUFF_SIZE then
        some (.ok (l.set k { l.conns k with arrived := (l.conns k).arrived + n }))
      else none
    | .ok l, .abort k =>
      if peers k = .other ∧ (l.conns k).phase = .queued then some (.ok (l.move k .closed))
      else none
    | .ok l, .fail k =>
      if peers k = .other ∧ (l.conns k).phase = .queued then some (.ok (l.move k .failed))
      else none
    | .ok l, .wait events =>
      if l.events = [] ∧ events ≠ [] ∧ events.length ≤ MAX_EVENTS ∧ events.Nodup ∧
          ∀ e ∈ events, Ready peers l e then
        some (.ok { l with events := events })
      else none
    | .ok l, .accept conn_sock =>
      match l.events with
      | .listen :: es =>
        if MayAccept l conn_sock then
          some (listenBranch { l with events := es } conn_sock true true)
        else none
      | _ => none
    | .ok l, .serve stale received sent =>
      match l.events with
      | .conn k :: es =>
        if MayRead received sent (l.conns k).arrived (peers k) then
          some ((connBranch pid stale received sent).map fun reply =>
            Loop.set { l with events := es } k
              { l.conns k with phase := .closed, reply := reply })
        else none
      | _ => none

/-! ## 4. What the branch of a connection does -/

/-- What `msg_from` holds after a `read` of `data`. -/
def contents (l : Locals) (data : Bytes) : Bytes :=
  data.take BUFF_SIZE ++ (l.msg_from.bytes.take (BUFF_SIZE - 1) ++ [0]).drop data.length

/-- There is a NUL in `msg_from`, and the answer to what stands before it fits in `msg_to`. -/
def Fits (pid : Nat) (l : Locals) (data : Bytes) : Prop :=
  0 ∈ contents l data ∧
    (decimal pid).length + ((contents l data).takeWhile (· ≠ 0)).length + 2 ≤ BUFF_SIZE

instance (pid : Nat) (l : Locals) (data : Bytes) : Decidable (Fits pid l data) :=
  inferInstanceAs (Decidable (_ ∧ _))

variable {pid : Nat} {l : Locals} {data : Bytes} {sent : Bool}

/-- The two stores before the `read` stay inside the arrays. -/
theorem store_last (b : Buffer BUFF_SIZE) :
    ∃ b', b.store (BUFF_SIZE - 1 : Nat) [0] = .ok b' ∧
      b'.bytes = b.bytes.take (BUFF_SIZE - 1) ++ [0] := by
  obtain ⟨b', hst, hb'⟩ := Buffer.store_eq_ok b (BUFF_SIZE - 1 : Nat) [0] (Int.natCast_nonneg _)
    (by decide)
  refine ⟨b', hst, ?_⟩
  have hnil : b.bytes.drop ((BUFF_SIZE - 1) + 1) = [] :=
    List.drop_eq_nil_of_le (by rw [b.length_eq]; decide)
  rw [hb', Int.toNat_natCast, List.length_singleton, hnil, List.append_nil]

theorem connBranch_none (pid : Nat) (l : Locals) (sent : Bool) :
    connBranch pid l none sent = .error .exit := by
  obtain ⟨b₁, h₁, -⟩ := store_last l.msg_to
  obtain ⟨b₂, h₂, -⟩ := store_last l.msg_from
  simp [connBranch, h₁, h₂, access, read, Buffer.recv, bind, Except.bind]

/-- `read` leaves the array as `contents` says. -/
theorem read_some (l : Locals) (data : Bytes) : ∃ msg_from msg_from',
    l.msg_from.store (BUFF_SIZE - 1 : Nat) [0] = .ok msg_from ∧
      read msg_from (some data) = .ok ((data.take BUFF_SIZE).length, msg_from') ∧
      msg_from'.bytes = contents l data := by
  obtain ⟨b, hst, hb⟩ := store_last l.msg_from
  obtain ⟨b', hrecv, hb'⟩ := b.recv_some data
  exact ⟨b, b', hst, by rw [read, hrecv, access], by rw [hb', contents, hb]⟩

theorem connBranch_nil (pid : Nat) (l : Locals) (sent : Bool) :
    connBranch pid l (some []) sent = .ok none := by
  obtain ⟨b₁, h₁, -⟩ := store_last l.msg_to
  obtain ⟨b₂, b₃, h₂, h₃, -⟩ := read_some l []
  simp [connBranch, h₁, h₂, h₃, access, bind, Except.bind]

/-- What follows a `read` that has left `msg_from'`. -/
theorem connBranch_some (pid : Nat) (l : Locals) (hne : data ≠ []) (sent : Bool) :
    ∃ msg_to : Buffer BUFF_SIZE, connBranch pid l (some data) sent =
      if (0 : UInt8) ∈ contents l data then
        (access .msg_to (msg_to.store 0
            (answer pid ((contents l data).takeWhile (· ≠ 0)) ++ [0]))).bind fun msg_to =>
          if sent = false then .error .exit
          else (access .msg_to (msg_to.cstring 0)).bind fun _ => .ok (some msg_to)
      else .error (.overrun .msg_from BUFF_SIZE) := by
  obtain ⟨msg_to, hto, -⟩ := store_last l.msg_to
  obtain ⟨b, b', hst, hread, hb'⟩ := read_some l data
  have hpos : 0 < (data.take BUFF_SIZE).length := by
    rw [List.length_take]
    have := List.length_pos_of_ne_nil hne
    unfold BUFF_SIZE
    omega
  have hrc : ((data.take BUFF_SIZE).length : Int) ≠ -1 := by omega
  have hgt : ((data.take BUFF_SIZE).length : Int) > 0 := by omega
  have hstr : b'.cstring 0 = if (0 : UInt8) ∈ contents l data then
      .ok ((contents l data).takeWhile (· ≠ 0)) else .error (Buffer.outside BUFF_SIZE 0) := by
    rw [Buffer.cstring_zero, hb']
  refine ⟨msg_to, ?_⟩
  simp only [connBranch, hto, hst, hread, access, bind, Except.bind, if_neg hrc, if_pos hgt]
  by_cases hmem : (0 : UInt8) ∈ contents l data
  · rw [hstr, if_pos hmem, if_pos hmem]
  · rw [hstr, if_neg hmem, if_neg hmem]
    rfl

theorem length_answer (pid : Nat) (str : Bytes) :
    (answer pid str).length = (decimal pid).length + str.length + 1 := by
  simp [answer]
  omega

theorem answer_no_nul (pid : Nat) {str : Bytes} (h : (0 : UInt8) ∉ str) :
    (0 : UInt8) ∉ answer pid str := by
  simp [answer, decimal_no_nul, h]

/-- **What is read fits**: it is answered, unless `send` fails. -/
theorem connBranch_of_fits (hne : data ≠ []) (h : Fits pid l data) (sent : Bool) :
    ∃ msg_to, connBranch pid l (some data) sent =
        (if sent = false then .error .exit else .ok (some msg_to)) ∧
      msg_to.cstring 0 = .ok (answer pid ((contents l data).takeWhile (· ≠ 0))) := by
  obtain ⟨hmem, hle⟩ := h
  obtain ⟨b, hb⟩ := connBranch_some pid l hne sent
  obtain ⟨b', hst, hstr⟩ := Buffer.store_string b (answer pid ((contents l data).takeWhile (· ≠ 0)))
    (by rw [length_answer]; omega)
  rw [Buffer.takeWhile_of_no_nul (answer_no_nul pid (Buffer.nul_notMem_takeWhile _))] at hstr
  refine ⟨b', ?_, hstr⟩
  rw [hb, if_pos hmem, hst]
  simp only [access, Except.bind, hstr]

/-- **What is read does not fit**: an access leaves its array. -/
theorem connBranch_of_not_fits (hne : data ≠ []) (h : ¬ Fits pid l data) (sent : Bool) :
    ∃ a i, connBranch pid l (some data) sent = .error (.overrun a i) := by
  obtain ⟨b, hb⟩ := connBranch_some pid l hne sent
  by_cases hmem : (0 : UInt8) ∈ contents l data
  · have hlong : ¬ (decimal pid).length + ((contents l data).takeWhile (· ≠ 0)).length + 2 ≤
        BUFF_SIZE := fun hle => h ⟨hmem, hle⟩
    refine ⟨.msg_to, BUFF_SIZE, ?_⟩
    rw [hb, if_pos hmem, Buffer.store_eq_error _ _ _
      (by rw [List.length_append, length_answer, List.length_singleton]; omega)]
    rfl
  · exact ⟨.msg_from, BUFF_SIZE, by rw [hb, if_neg hmem]⟩

/-- Everything that the branch can come to. -/
theorem connBranch_cases (pid : Nat) (l : Locals) (received : Option Bytes) (sent : Bool) :
    ((received = none ∨ ∃ data, received = some data ∧ data ≠ [] ∧ Fits pid l data ∧
        sent = false) ∧ connBranch pid l received sent = .error .exit) ∨
      (received = some [] ∧ connBranch pid l received sent = .ok none) ∨
      ∃ data, received = some data ∧ data ≠ [] ∧
        ((Fits pid l data ∧ sent = true ∧ ∃ msg_to,
            connBranch pid l received sent = .ok (some msg_to) ∧
            msg_to.cstring 0 = .ok (answer pid ((contents l data).takeWhile (· ≠ 0)))) ∨
          (¬ Fits pid l data ∧ ∃ a i,
            connBranch pid l received sent = .error (.overrun a i))) := by
  rcases received with - | data
  · exact .inl ⟨.inl rfl, connBranch_none pid l sent⟩
  rcases eq_or_ne data [] with rfl | hne
  · exact .inr (.inl ⟨rfl, connBranch_nil pid l sent⟩)
  by_cases hfits : Fits pid l data
  · obtain ⟨msg_to, hbranch, hstr⟩ := connBranch_of_fits hne hfits sent
    cases sent with
    | false => exact .inl ⟨.inr ⟨data, rfl, hne, hfits, rfl⟩, hbranch⟩
    | true => exact .inr (.inr ⟨data, rfl, hne, .inl ⟨hfits, rfl, msg_to, hbranch, hstr⟩⟩)
  · exact .inr (.inr ⟨data, rfl, hne, .inr ⟨hfits, connBranch_of_not_fits hne hfits sent⟩⟩)

/-- The message of a client begins with its process id and a NUL. -/
theorem Client.message_eq (c : Client) :
    ∃ m, c.message = .ok m ∧ decimal c.pid ++ [0] <+: m.bytes := by
  have hdigits : (decimal c.pid).length ≤ 10 :=
    length_decimal_le (by decide) (Nat.lt_trans c.pid.isLt (by decide))
  obtain ⟨b, hst, -⟩ := store_last c.msg_to
  obtain ⟨m, hst', hm⟩ := Buffer.store_eq_ok b 0 (decimal c.pid ++ [0]) (Int.le_refl 0)
    (by rw [List.length_append, List.length_singleton]; unfold BUFF_SIZE; omega)
  refine ⟨m, ?_, ?_⟩
  · rw [Client.message, hst]
    exact hst'
  · rw [hm, Int.toNat_zero, List.take_zero, List.nil_append]
    exact List.prefix_append _ _

/-- What is read from a client of which something has arrived. -/
theorem MayRead.client {c : Client} {received : Option Bytes} {n : Nat} (hn : 0 < n)
    (h : MayRead received sent n (.client c)) : ∃ m : Buffer BUFF_SIZE,
      received = some (m.bytes.take n) ∧ m.bytes.take n ≠ [] ∧ sent = true ∧
      decimal c.pid ++ [0] <+: m.bytes := by
  obtain ⟨m, hm, hpre⟩ := c.message_eq
  obtain ⟨rfl, rfl⟩ := h
  refine ⟨m, by rw [hm]; rfl, ?_, rfl, hpre⟩
  rw [← List.length_pos_iff, List.length_take, m.length_eq]
  unfold BUFF_SIZE
  omega

end OsLabs.Epoll
