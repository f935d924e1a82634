/-
# The datagram server that answers

A server on a Unix datagram socket.  It receives a message, and sends back its own process id
and the message, to the address that `recvfrom` has left in `client_addr`, of `addrlen` bytes.
`addrlen` is set once, before the loop.  `recvfrom` takes from it how many bytes of the sender's
address may be stored, and leaves in it how many bytes that address has.  So after a client with
a short name the next address is cut to the length of that name, and the reply goes to an
address whose last bytes are what was there before.

An iteration ends in an error if an access leaves its array.  What is printed is left out.
-/
import OsLabs.Lib.Machine
import OsLabs.Lib.Buffer

namespace OsLabs.Responder

open OsLabs

/-! ## 1. Clients -/

abbrev Bytes : Type := List UInt8

/-- The ids of the client processes: at most six digits. -/
abbrev Client : Type := Fin 1000000

def AF_UNIX : Bytes := [1, 0]

/-- `.socket` -/
def suffix : Bytes := [46, 115, 111, 99, 107, 101, 116]

/-- The address of a client: the family, the name that it binds, and a NUL. -/
def address (c : Client) : Bytes := AF_UNIX ++ decimal c ++ suffix ++ [0]

/-- A message with an address: of its sender when received, of its receiver when sent. -/
structure Datagram where
  addr : Bytes
  data : Bytes
deriving DecidableEq

/-- What a client sends: its process id. -/
def request (c : Client) : Datagram := ⟨address c, decimal c⟩

/-! ## 2. The server -/

def BUFFER_SIZE : Nat := 64

/-- `sizeof(struct sockaddr)` -/
def SOCKADDR_SIZE : Nat := 16

/-- The arrays of the server and of a client. -/
inductive Arr
  | client_addr
  | buf
  | copy_buf
  | sa_data
deriving DecidableEq, Repr

/-- The outcome, or the array that an access leaves and the first index outside. -/
abbrev Result (α : Type) : Type := Except (Arr × Int) α

variable {α : Type}

def access (a : Arr) : Except Int α → Result α
  | .ok x => .ok x
  | .error i => .error (a, i)

structure Server where
  client_addr : Buffer SOCKADDR_SIZE
  addrlen : Nat
  buf : Buffer BUFFER_SIZE
  copy_buf : Buffer BUFFER_SIZE
deriving DecidableEq

/-- The variables before the loop; the arrays hold anything. -/
def start (client_addr : Buffer SOCKADDR_SIZE) (buf copy_buf : Buffer BUFFER_SIZE) : Server :=
  ⟨client_addr, SOCKADDR_SIZE, buf, copy_buf⟩

/-- `recvfrom` with a datagram, or its failure.  As much of the address is stored as `addrlen`
says, and `addrlen` becomes its whole length. -/
def recvfrom (s : Server) : Option Datagram → Result (Int × Server)
  | none => .ok (-1, s)
  | some d => do
    let buf ← access .buf (s.buf.store 0 (d.data.take BUFFER_SIZE))
    let client_addr ← access .client_addr
      (s.client_addr.store 0 (d.addr.take (min s.addrlen d.addr.length)))
    .ok ((d.data.take BUFFER_SIZE).length,
      { s with client_addr := client_addr, addrlen := d.addr.length, buf := buf })

/-- What `sprintf(copy_buf, "%d --> %s\n", getpid(), buf)` prints. -/
def answer (pid : Nat) (str : Bytes) : Bytes := decimal pid ++ [32, 45, 45, 62, 32] ++ str ++ [10]

/-- The loop's body in a server with process id `pid`: the reply that it sends. -/
def iteration (pid : Nat) (s : Server) (received : Option Datagram) :
    Result (Server × Datagram) := do
  let (bytes_read, s) ← recvfrom s received
  let buf ← access .buf (s.buf.store bytes_read [0])
  let str ← access .buf (buf.cstring 0)
  let copy_buf ← access .copy_buf (s.copy_buf.store 0 (answer pid str ++ [0]))
  let text ← access .copy_buf (copy_buf.cstring 0)
  let dest ← access .client_addr (s.client_addr.load 0 s.addrlen)
  .ok ({ s with buf := buf, copy_buf := copy_buf }, ⟨dest, text ++ [0]⟩)

/-- The server in its loop, with the last client and what was sent back. -/
structure Loop where
  server : Server
  last : Option (Client × Datagram)

/-- One request after the other. -/
def loop (pid : Nat) (s : Server) : Machine (Result Loop) Client where
  init := .ok ⟨s, none⟩
  step
    | .ok l, c => some ((iteration pid l.server (some (request c))).map fun r =>
        ⟨r.1, some (c, r.2)⟩)
    | .error _, _ => none

/-! ## 3. One request -/

variable {pid : Nat} {s : Server} {c : Client}

theorem length_address_le (c : Client) : (address c).length ≤ SOCKADDR_SIZE := by
  have hlen := length_decimal_le (n := c) (e := 6) (by decide) c.isLt
  simp only [address, AF_UNIX, suffix, List.length_append, List.length_cons, List.length_nil,
    SOCKADDR_SIZE]
  omega

theorem length_answer (pid : Nat) (str : Bytes) :
    (answer pid str).length = (decimal pid).length + str.length + 6 := by
  simp [answer]
  omega

/-- The client's address is not longer than `addrlen`, or `client_addr` has its last bytes in
place already. -/
def Fits (s : Server) (c : Client) : Prop :=
  (address c).length ≤ s.addrlen ∨
    (s.client_addr.bytes.drop s.addrlen).take ((address c).length - s.addrlen) =
      (address c).drop s.addrlen

/-- An address stored with at most `m` bytes, and read back with its own length. -/
theorem take_stored_iff (a old : Bytes) (m : Nat) :
    (a.take (min m a.length) ++ old.drop (min m a.length)).take a.length = a ↔
      a.length ≤ m ∨ (old.drop m).take (a.length - m) = a.drop m := by
  rw [eq_comm, ← List.prefix_iff_eq_take, prefix_take_append_iff (List.prefix_refl a)]
  rcases Nat.le_total a.length m with hle | hge
  · rw [Nat.min_eq_right hle]
    exact iff_of_true (.inl (Nat.le_refl _)) (.inl hle)
  · rw [Nat.min_eq_left hge]

/-- **One request**: no access leaves its array, and the reply goes to the client exactly when
its address fits. -/
theorem iteration_request (hpid : pid < 2 ^ 31) (s : Server) (c : Client) :
    ∃ s' r, iteration pid s (some (request c)) = .ok (s', r) ∧
      s'.addrlen = (address c).length ∧ (r.addr = address c ↔ Fits s c) := by
  have hdata : (decimal c).length ≤ 6 := length_decimal_le (by decide) c.isLt
  have hpidlen : (decimal pid).length ≤ 10 :=
    length_decimal_le (by decide) (Nat.lt_trans hpid (by decide))
  have haddr := length_address_le c
  have htake : (decimal c).take BUFFER_SIZE = decimal c :=
    List.take_of_length_le (by unfold BUFFER_SIZE; omega)
  have hnul : (0 : UInt8) ∉ answer pid (decimal c) := by
    simp [answer, decimal_no_nul]
  -- the message, the sender's address, and the NUL behind the message
  obtain ⟨buf₁, buf₂, hbuf₁, -, hbuf₂, hstr⟩ := Buffer.store_terminate s.buf (decimal c)
    (by unfold BUFFER_SIZE; omega)
  rw [Buffer.takeWhile_of_no_nul (decimal_no_nul _)] at hstr
  obtain ⟨client_addr, hclient, hbytes⟩ := Buffer.store_eq_ok s.client_addr 0
    ((address c).take (min s.addrlen (address c).length)) (Int.le_refl 0)
    (by rw [List.length_take]; omega)
  -- the answer
  obtain ⟨copy_buf, hcopy, htext⟩ := Buffer.store_string s.copy_buf (answer pid (decimal c))
    (by rw [length_answer]; unfold BUFFER_SIZE; omega)
  rw [Buffer.takeWhile_of_no_nul hnul] at htext
  have hload : client_addr.load 0 (address c).length =
      .ok (client_addr.bytes.take (address c).length) :=
    if_pos ⟨Int.le_refl 0, by omega⟩
  refine ⟨⟨client_addr, (address c).length, buf₂, copy_buf⟩,
    ⟨client_addr.bytes.take (address c).length, answer pid (decimal c) ++ [0]⟩, ?_, rfl, ?_⟩
  · simp only [iteration, recvfrom, request, htake, hbuf₁, hclient, hbuf₂, hstr, hcopy, htext,
      hload, access, bind, Except.bind]
  · have hlen : ((address c).take (min s.addrlen (address c).length)).length =
        min s.addrlen (address c).length := by
      rw [List.length_take]
      omega
    simp only [Int.toNat_zero, List.take_zero, List.nil_append, Nat.zero_add, hlen] at hbytes
    simp only [hbytes]
    exact take_stored_iff _ _ _

/-! ## 4. Runs -/

/-- The last reply went to the client whose request was received last. -/
def Answers : Result Loop → Prop
  | .ok l => ∀ c r, l.last = some (c, r) → r.addr = address c
  | .error _ => False

/-- The address of the next client fits. -/
def NextFits : Result Loop → Client → Prop
  | .ok l, c => Fits l.server c
  | .error _, _ => True

/-- One iteration: the last reply is the one to this client. -/
theorem loop_step {l : Loop} {r : Result Loop} (hpid : pid < 2 ^ 31)
    (h : (loop pid s).step (.ok l) c = some r) : ∃ l' d, r = .ok l' ∧ l'.last = some (c, d) ∧
      l'.server.addrlen = (address c).length ∧ (d.addr = address c ↔ Fits l.server c) := by
  obtain ⟨s', d, hit, hlen, hiff⟩ := iteration_request hpid l.server c
  refine ⟨⟨s', some (c, d)⟩, d, ?_, rfl, hlen, hiff⟩
  rw [← Option.some.inj h, hit]
  rfl

theorem answers_of_last {l : Loop} {d : Datagram} (hlast : l.last = some (c, d))
    (h : d.addr = address c) : Answers (.ok l) := by
  intro c' d' hlast'
  rw [hlast, Option.some.injEq, Prod.mk.injEq] at hlast'
  rw [← hlast'.1, ← hlast'.2]
  exact h

/-- Process ids that never get longer are answered rightly. -/
theorem answers_of_descending (hpid : pid < 2 ^ 31) : ∀ (cs : List Client) (l : Loop),
    Answers (.ok l) → (∀ c ∈ cs, (address c).length ≤ l.server.addrlen) →
    cs.Pairwise (fun c c' => (address c').length ≤ (address c).length) →
    (loop pid s).StatesMeet Answers (.ok l) cs := by
  intro cs
  induction cs with
  | nil =>
    intro l hans _ _
    exact hans
  | cons c cs ih =>
    intro l hans hle hdesc
    obtain ⟨hhead, hdesc⟩ := List.pairwise_cons.mp hdesc
    refine ⟨hans, fun r hr => ?_⟩
    obtain ⟨l', d, rfl, hlast, hlen, hiff⟩ := loop_step hpid hr
    have hfit : Fits l.server c := Or.inl (hle c (by simp))
    exact ih l' (answers_of_last hlast (hiff.mpr hfit)) (fun c' hc' => hlen ▸ hhead c' hc') hdesc

/-- **The replies go to the clients that asked** exactly when the address of each client fits:
it is not longer than that of the client before, or what is in `client_addr` behind that
length happens to be the rest of it. -/
theorem answers_iff_fits (pid : Fin (2 ^ 31)) (client_addr : Buffer SOCKADDR_SIZE)
    (buf copy_buf : Buffer BUFFER_SIZE) (cs : List Client) :
    (loop pid (start client_addr buf copy_buf)).StatesMeet Answers
        (.ok ⟨start client_addr buf copy_buf, none⟩) cs ↔
      (loop pid (start client_addr buf copy_buf)).StepsMeet NextFits
        (.ok ⟨start client_addr buf copy_buf, none⟩) cs := by
  have hinit : Answers (.ok ⟨start client_addr buf copy_buf, none⟩) := fun c r hlast => by
    simp at hlast
  refine (Machine.stepsMeet_iff_statesMeet_of_step (I := fun _ => True)
    (fun _ _ _ _ _ => trivial) ?_ trivial hinit).symm
  rintro (e | l) c r - h hst
  · exact absurd h id
  · obtain ⟨l', d, rfl, hlast, -, hiff⟩ := loop_step pid.isLt hst
    constructor
    · exact fun hans => hiff.mp (hans c d hlast)
    · exact fun hfit => answers_of_last hlast (hiff.mpr hfit)

/-- The client that was answered last, and the address that the answer was sent to. -/
def lastAnswer : Result Loop → Option (Client × Bytes)
  | .ok l => l.last.map fun p => (p.1, p.2.addr)
  | .error _ => none

/-- **A short process id and then a longer one**: the end of the second client's address is
lost, and what stood there before takes its place. -/
theorem answers_wrong : ¬ ∀ (pid : Fin (2 ^ 31)) (client_addr : Buffer SOCKADDR_SIZE)
    (buf copy_buf : Buffer BUFFER_SIZE) (cs : List Client),
    (loop pid (start client_addr buf copy_buf)).StatesMeet Answers
      (.ok ⟨start client_addr buf copy_buf, none⟩) cs := by
  intro h
  have hmeet := h 1 (.zero _) (.zero _) (.zero _) [123, 12345]
  have hrun : (((loop 1 (start (.zero _) (.zero _) (.zero _))).run
      (.ok ⟨start (.zero _) (.zero _) (.zero _), none⟩) [123, 12345]).map lastAnswer) =
        some (some (12345, (address 12345).take 13 ++ [0, 0])) := by decide +kernel
  obtain ⟨r, hr, hlast⟩ := Option.map_eq_some_iff.mp hrun
  have hans := hmeet.last hr
  rcases r with e | l
  · exact hans
  · obtain ⟨p, hp, heq⟩ := Option.map_eq_some_iff.mp hlast
    rw [Prod.mk.injEq] at heq
    have haddr := hans p.1 p.2 hp
    rw [heq.1, heq.2] at haddr
    exact absurd haddr (by decide +kernel)

end OsLabs.Responder
