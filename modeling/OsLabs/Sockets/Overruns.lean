/-
# Messages that overrun the servers' arrays

Three servers read messages into arrays of a fixed size and print them, or an answer to them.
The epoll server makes sure of a NUL in its last byte before it reads, and loses it again to a
message that fills the array.  The two datagram servers put the NUL behind what they have read,
so for a message that fills the array outside of it; the one that answers also prints its array
before it does so, and does it at index -1 when `recvfrom` fails.  The answers are as long as the
messages and the server's process id make them.

For each server: the accesses of a run are inside the arrays exactly when all its messages are
short enough, and terminated where they have to be.
-/
import OsLabs.Sockets.EventLoop
import OsLabs.Sockets.Responder

/-! ## 1. The epoll server -/

namespace OsLabs.Epoll

variable {N pid : Nat} {peers : Fin N → Peer}

/-- No access has left its array. -/
def InBounds (s : Result (Loop N)) : Prop := ∀ a i, s ≠ .error (.overrun a i)

/-- What is read fits. -/
def ReadFits (pid : Nat) : Result (Loop N) → Action N → Prop
  | .ok _, .serve stale (some data) _ => data ≠ [] → Fits pid stale data
  | _, _ => True

theorem inBounds_ok (l : Loop N) : InBounds (.ok l) := by simp [InBounds]

theorem inBounds_exit : InBounds (.error .exit : Result (Loop N)) := by simp [InBounds]

theorem inBounds_iff {l : Loop N} {a : Action N} {r : Result (Loop N)}
    (hst : Step pid peers l a r) : InBounds r ↔ ReadFits pid (.ok l) a := by
  cases hst with
  | connect | deliver | abort | fail | wait | accept => exact iff_of_true (inBounds_ok _) trivial
  | refuse => exact iff_of_true inBounds_exit trivial
  | serve es k stale received sent hl hmay =>
    rcases connBranch_cases pid stale received sent with ⟨hwhy, he⟩ | ⟨rfl, he⟩ |
      ⟨data, rfl, hne, ⟨hfits, rfl, m, he, -⟩ | ⟨hfits, b, i, he⟩⟩
    · rw [he]
      refine iff_of_true inBounds_exit ?_
      rcases hwhy with rfl | ⟨data, rfl, -, hfits, -⟩
      · trivial
      · exact fun _ => hfits
    · rw [he]
      exact iff_of_true (inBounds_ok _) fun h => absurd rfl h
    · rw [he]
      exact iff_of_true (inBounds_ok _) fun _ => hfits
    · rw [he]
      exact iff_of_false (fun h => h b i rfl) fun h => hfits (h hne)

theorem statesMeet_inBounds_iff (as : List (Action N)) :
    (system pid peers).StepsMeet (ReadFits pid) (system pid peers).init as ↔
      (system pid peers).StatesMeet InBounds (system pid peers).init as := by
  refine Machine.stepsMeet_iff_statesMeet_of_step (I := fun _ => True) (fun _ _ _ _ _ => trivial)
    ?_ trivial (inBounds_ok _)
  rintro (e | l) a s' - hin hst
  · exact absurd hst (by simp [system])
  · exact inBounds_iff (step_iff.mp hst)

end OsLabs.Epoll

/-! ## 2. The datagram server that answers -/

namespace OsLabs.Responder

/-- The arrays that hold text. -/
structure Texts where
  buf : Buffer BUFFER_SIZE
  copy_buf : Buffer BUFFER_SIZE
deriving DecidableEq

/-- What `recvfrom` does to `buf`. -/
def receive (buf : Buffer BUFFER_SIZE) (received : Option Bytes) :
    Result (Int × Buffer BUFFER_SIZE) :=
  access .buf (buf.recv BUFFER_SIZE received)

/-- The loop's body with what it prints, and without the addresses. -/
def textIteration (pid : Nat) (s : Texts) (received : Option Bytes) : Result Texts := do
  let (bytes_read, buf) ← receive s.buf received
  -- printed before it is terminated
  let _ ← access .buf (buf.cstring 0)
  let buf ← access .buf (buf.store bytes_read [0])
  let str ← access .buf (buf.cstring 0)
  let copy_buf ← access .copy_buf (s.copy_buf.store 0 (answer pid str ++ [0]))
  let _ ← access .copy_buf (copy_buf.cstring 0)
  .ok ⟨buf, copy_buf⟩

def texts (pid : Nat) (s : Texts) : Machine (Result Texts) (Option Bytes) where
  init := .ok s
  step
    | .ok s, received => some (textIteration pid s received)
    | .error _, _ => none

/-- A message that leaves room for its NUL, is followed by one in `buf` or has one itself, and
whose answer fits in `copy_buf`. -/
def TextFits (pid : Nat) (s : Texts) : Option Bytes → Prop
  | none => False
  | some data => data.length < BUFFER_SIZE ∧
      (0 ∈ data ∨ 0 ∈ s.buf.bytes.drop data.length) ∧
      (decimal pid).length + (data.takeWhile (· ≠ 0)).length + 7 ≤ BUFFER_SIZE

variable {pid : Nat} {s : Texts} {data : Bytes}

theorem access_bind_eq_ok {α β : Type} {a : Arr} {x : Except Int α} {f : α → Result β} {b : β}
    (h : access a x >>= f = .ok b) : ∃ y, x = .ok y ∧ f y = .ok b := by
  cases x with
  | error i => exact absurd h (by simp [access, bind, Except.bind])
  | ok y => exact ⟨y, rfl, h⟩

theorem receive_of_recvfrom {s s' : Server} {d : Option Datagram} {n : Int}
    (h : recvfrom s d = .ok (n, s')) : receive s.buf (d.map Datagram.data) = .ok (n, s'.buf) ∧
      s'.copy_buf = s.copy_buf := by
  cases d with
  | none =>
    obtain ⟨rfl, rfl⟩ := Prod.mk.inj (Except.ok.inj h)
    exact ⟨rfl, rfl⟩
  | some d =>
    obtain ⟨buf, hbuf, h⟩ := access_bind_eq_ok h
    obtain ⟨client_addr, -, h⟩ := access_bind_eq_ok h
    obtain ⟨rfl, rfl⟩ := Prod.mk.inj (Except.ok.inj h)
    refine ⟨?_, rfl⟩
    simp only [Option.map_some, receive, Buffer.recv, hbuf, access, Except.map]

/-- **What `iteration` leaves out** is the line that is printed first. -/
theorem textIteration_of_iteration {s s' s₁ : Server} {d : Option Datagram} {r : Datagram}
    {n : Int} {str : Bytes} (hrecv : recvfrom s d = .ok (n, s₁))
    (hprint : s₁.buf.cstring 0 = .ok str) (h : iteration pid s d = .ok (s', r)) :
    textIteration pid ⟨s.buf, s.copy_buf⟩ (d.map Datagram.data) =
      .ok ⟨s'.buf, s'.copy_buf⟩ := by
  obtain ⟨hreceive, hcopy_buf⟩ := receive_of_recvfrom hrecv
  rw [iteration, hrecv] at h
  obtain ⟨buf, hbuf, h⟩ := access_bind_eq_ok h
  obtain ⟨str', hstr', h⟩ := access_bind_eq_ok h
  obtain ⟨copy_buf, hcopy, h⟩ := access_bind_eq_ok h
  obtain ⟨text, htext, h⟩ := access_bind_eq_ok h
  obtain ⟨dest, -, h⟩ := access_bind_eq_ok h
  obtain ⟨rfl, -⟩ := Prod.mk.inj (Except.ok.inj h)
  rw [hcopy_buf] at hcopy
  simp only [textIteration, hreceive, hprint, hbuf, hstr', hcopy, htext, access, bind,
    Except.bind]

/-- A message that leaves room for its NUL. -/
theorem textIteration_some (pid : Nat) (s : Texts) (hlen : data.length < BUFFER_SIZE) :
    ∃ buf : Buffer BUFFER_SIZE, textIteration pid s (some data) =
      if 0 ∈ data ∨ 0 ∈ s.buf.bytes.drop data.length then
        (access .copy_buf
          (s.copy_buf.store 0 (answer pid (data.takeWhile (· ≠ 0)) ++ [0]))).bind fun copy_buf =>
            (access .copy_buf (copy_buf.cstring 0)).bind fun _ => .ok ⟨buf, copy_buf⟩
      else .error (.buf, BUFFER_SIZE) := by
  obtain ⟨buf₁, buf₂, hrecv, hbuf₁, hst, hstr⟩ := s.buf.recv_terminate data hlen
  have hprint : buf₁.cstring 0 = if 0 ∈ data ∨ 0 ∈ s.buf.bytes.drop data.length then
      .ok (buf₁.bytes.takeWhile (· ≠ 0)) else .error (Buffer.outside BUFFER_SIZE 0) := by
    rw [Buffer.cstring_zero, hbuf₁]
    simp only [List.mem_append]
  refine ⟨buf₂, ?_⟩
  simp only [textIteration, receive, hrecv, access, bind, Except.bind]
  by_cases hnul : 0 ∈ data ∨ 0 ∈ s.buf.bytes.drop data.length
  · rw [hprint, if_pos hnul, if_pos hnul]
    simp only [hst, hstr]
  · rw [hprint, if_neg hnul, if_neg hnul]
    rfl

/-- **One message** is received, printed and answered inside the arrays exactly when it fits. -/
theorem textIteration_iff (pid : Nat) (s : Texts) (received : Option Bytes) :
    (∃ t, textIteration pid s received = .ok t) ↔ TextFits pid s received := by
  cases received with
  | none =>
    -- the NUL goes to index -1
    refine iff_of_false ?_ id
    rintro ⟨t, ht⟩
    have hrecv : receive s.buf none = .ok (-1, s.buf) := rfl
    rw [textIteration, hrecv] at ht
    obtain ⟨str, -, ht⟩ := access_bind_eq_ok ht
    obtain ⟨buf, hbuf, ht⟩ := access_bind_eq_ok ht
    exact absurd (Buffer.bytes_of_store hbuf).1.1 (by decide)
  | some data =>
    by_cases hlen : data.length < BUFFER_SIZE
    · obtain ⟨buf, hbuf⟩ := textIteration_some pid s hlen
      rw [hbuf]
      by_cases hnul : 0 ∈ data ∨ 0 ∈ s.buf.bytes.drop data.length
      · rw [if_pos hnul]
        by_cases hle : (decimal pid).length + (data.takeWhile (· ≠ 0)).length + 7 ≤ BUFFER_SIZE
        · refine iff_of_true ?_ ⟨hlen, hnul, hle⟩
          obtain ⟨copy_buf, hst, htext⟩ := Buffer.store_string s.copy_buf
            (answer pid (data.takeWhile (· ≠ 0))) (by rw [length_answer]; omega)
          exact ⟨⟨buf, copy_buf⟩, by rw [hst]; simp only [access, Except.bind, htext]⟩
        · refine iff_of_false ?_ fun h => hle h.2.2
          rintro ⟨t, ht⟩
          obtain ⟨copy_buf, hst, -⟩ := access_bind_eq_ok ht
          have hin := (Buffer.bytes_of_store hst).1.2
          rw [List.length_append, length_answer, List.length_singleton] at hin
          omega
      · rw [if_neg hnul]
        exact iff_of_false (by simp) fun h => hnul h.2.1
    · -- the NUL goes behind the array
      refine iff_of_false ?_ fun h => hlen h.1
      rintro ⟨t, ht⟩
      obtain ⟨buf₁, hrecv, hst⟩ := s.buf.recv_full data (Nat.le_of_not_lt hlen)
      have hreceive : receive s.buf (some data) = .ok ((BUFFER_SIZE : Int), buf₁) := by
        rw [receive, hrecv, access]
      rw [textIteration, hreceive] at ht
      obtain ⟨str, -, ht⟩ := access_bind_eq_ok ht
      obtain ⟨buf, hbuf, ht⟩ := access_bind_eq_ok ht
      exact absurd (hst.symm.trans hbuf) (by simp)

/-- No access has left its array. -/
def InBounds : Result Texts → Prop
  | .ok _ => True
  | .error _ => False

/-- The next message fits. -/
def NextTextFits (pid : Nat) : Result Texts → Option Bytes → Prop
  | .ok s, received => TextFits pid s received
  | .error _, _ => True

theorem inBounds_iff {received : Option Bytes} {r : Result Texts} {s₀ : Texts}
    (hst : (texts pid s₀).step (.ok s) received = some r) :
    InBounds r ↔ TextFits pid s received := by
  rw [← textIteration_iff, Option.some.inj hst]
  cases r with
  | error e => exact iff_of_false id (by simp)
  | ok t => exact iff_of_true trivial ⟨t, rfl⟩

theorem statesMeet_inBounds_iff (pid : Nat) (s : Texts) (msgs : List (Option Bytes)) :
    (texts pid s).StepsMeet (NextTextFits pid) (.ok s) msgs ↔
      (texts pid s).StatesMeet InBounds (.ok s) msgs := by
  refine Machine.stepsMeet_iff_statesMeet_of_step (I := fun _ => True) (fun _ _ _ _ _ => trivial)
    ?_ trivial trivial
  rintro (e | s) received s' - hin hst
  · exact absurd hin id
  · exact inBounds_iff hst

end OsLabs.Responder

/-! ## 3. The datagram server that only receives -/

namespace OsLabs.Receiver

abbrev Bytes : Type := List UInt8

def BUFFER_SIZE : Nat := 64

/-- Why the server is no longer in its loop: it has called `exit`, or an access has left `buf`,
at index `i` first. -/
inductive Stop
  | exit
  | overrun (i : Int)
deriving DecidableEq, Repr

abbrev Result (α : Type) : Type := Except Stop α

def access {α : Type} : Except Int α → Result α
  | .ok x => .ok x
  | .error i => .error (.overrun i)

/-- What `read` does to `buf`. -/
def read (buf : Buffer BUFFER_SIZE) (received : Option Bytes) :
    Result (Int × Buffer BUFFER_SIZE) :=
  access (buf.recv BUFFER_SIZE received)

/-- The loop's body. -/
def iteration (buf : Buffer BUFFER_SIZE) (received : Option Bytes) :
    Result (Buffer BUFFER_SIZE) := do
  let (bytes_read, buf) ← read buf received
  if bytes_read = -1 then .error .exit
  else do
    let buf ← access (buf.store bytes_read [0])
    let _ ← access (buf.cstring 0)
    .ok buf

def loop (buf : Buffer BUFFER_SIZE) : Machine (Result (Buffer BUFFER_SIZE)) (Option Bytes) where
  init := .ok buf
  step
    | .ok buf, received => some (iteration buf received)
    | .error _, _ => none

def InBounds (s : Result (Buffer BUFFER_SIZE)) : Prop := ∀ i, s ≠ .error (.overrun i)

/-- A message that leaves room for its NUL. -/
def Short : Option Bytes → Prop
  | none => True
  | some data => data.length < BUFFER_SIZE

def NextShort : Result (Buffer BUFFER_SIZE) → Option Bytes → Prop
  | .ok _, received => Short received
  | .error _, _ => True

/-- **One message.** -/
theorem iteration_iff (buf : Buffer BUFFER_SIZE) (received : Option Bytes) :
    InBounds (iteration buf received) ↔ Short received := by
  cases received with
  | none =>
    have hread : read buf none = .ok (-1, buf) := rfl
    exact iff_of_true (by simp [InBounds, iteration, hread, bind, Except.bind]) trivial
  | some data =>
    by_cases hlen : data.length < BUFFER_SIZE
    · refine iff_of_true ?_ hlen
      have hrc : (data.length : Int) ≠ -1 := by omega
      obtain ⟨buf₁, buf₂, hrecv, -, hst, hstr⟩ := buf.recv_terminate data hlen
      simp [InBounds, iteration, read, hrecv, hrc, hst, hstr, access, bind, Except.bind]
    · refine iff_of_false ?_ hlen
      have hrc : (BUFFER_SIZE : Int) ≠ -1 := by decide
      obtain ⟨buf₁, hrecv, hst⟩ := buf.recv_full data (Nat.le_of_not_lt hlen)
      intro h
      refine h BUFFER_SIZE ?_
      simp only [iteration, read, hrecv, if_neg hrc, hst, access, bind, Except.bind]

theorem statesMeet_inBounds_iff (buf : Buffer BUFFER_SIZE) (msgs : List (Option Bytes)) :
    (loop buf).StepsMeet NextShort (.ok buf) msgs ↔
      (loop buf).StatesMeet InBounds (.ok buf) msgs := by
  refine Machine.stepsMeet_iff_statesMeet_of_step (I := fun _ => True) (fun _ _ _ _ _ => trivial)
    ?_ trivial (by simp [InBounds])
  rintro (e | buf) received s' - hin hst
  · exact absurd hst (by simp [loop])
  · rw [← Option.some.inj hst]
    exact iteration_iff buf received

end OsLabs.Receiver

/-! ## 4. The three servers -/

namespace OsLabs

/-- **The messages stay inside the arrays exactly when they fit**: of the epoll server, what each
`read` leaves in `msg_from` has a NUL, and the answer to it fits in `msg_to`; of the server that
answers, each message leaves room for its NUL, `buf` has a NUL as it is received, and the answer
fits in `copy_buf`; of the server that only receives, each message leaves room for its NUL. -/
theorem servers_inBounds_iff (pid : Fin (2 ^ 31)) :
    (∀ (N : Nat) (peers : Fin N → Epoll.Peer) (as : List (Epoll.Action N)),
      (Epoll.system pid peers).StepsMeet (Epoll.ReadFits pid) (Epoll.system pid peers).init as ↔
        (Epoll.system pid peers).StatesMeet Epoll.InBounds (Epoll.system pid peers).init as) ∧
      (∀ (s : Responder.Texts) (msgs : List (Option Responder.Bytes)),
        (Responder.texts pid s).StepsMeet (Responder.NextTextFits pid) (.ok s) msgs ↔
          (Responder.texts pid s).StatesMeet Responder.InBounds (.ok s) msgs) ∧
      ∀ (buf : Buffer Receiver.BUFFER_SIZE) (msgs : List (Option Receiver.Bytes)),
        (Receiver.loop buf).StepsMeet Receiver.NextShort (.ok buf) msgs ↔
          (Receiver.loop buf).StatesMeet Receiver.InBounds (.ok buf) msgs :=
  ⟨fun _ _ as => Epoll.statesMeet_inBounds_iff as, Responder.statesMeet_inBounds_iff pid,
    Receiver.statesMeet_inBounds_iff⟩

/-- A message of 32 bytes without a NUL. -/
def fullMessage : List (Epoll.Action 1) :=
  [.connect 0, .wait [.listen], .accept (some 0), .wait [.conn 0],
    .serve ⟨.zero _, .zero _⟩ (some (List.replicate 32 65)) true]

/-- The array that an access has left, and where. -/
def overrun? : Epoll.Result (Epoll.Loop 1) → Option (Epoll.Arr × Int)
  | .error (.overrun a i) => some (a, i)
  | _ => none

/-- **Messages that fill the array** overrun every one of the three servers. -/
theorem full_messages_overrun :
    (¬ ∀ (pid : Fin (2 ^ 31)) (N : Nat) (peers : Fin N → Epoll.Peer)
      (as : List (Epoll.Action N)),
      (Epoll.system pid peers).StatesMeet Epoll.InBounds (Epoll.system pid peers).init as) ∧
    (¬ ∀ (pid : Fin (2 ^ 31)) (s : Responder.Texts) (msgs : List (Option Responder.Bytes)),
      (Responder.texts pid s).StatesMeet Responder.InBounds (.ok s) msgs) ∧
    ¬ ∀ (buf : Buffer Receiver.BUFFER_SIZE) (msgs : List (Option Receiver.Bytes)),
      (Receiver.loop buf).StatesMeet Receiver.InBounds (.ok buf) msgs := by
  refine ⟨fun h => ?_, fun h => ?_, fun h => ?_⟩
  · have hmeet := h 1 1 (fun _ => .other) fullMessage
    have hrun : ((Epoll.system 1 fun _ => .other).run
        (Epoll.system 1 fun _ => .other).init fullMessage).map overrun? =
          some (some (.msg_from, 32)) := by decide +kernel
    obtain ⟨t, ht, hout⟩ := Option.map_eq_some_iff.mp hrun
    rcases t with (- | ⟨a, i⟩) | l
    · exact absurd hout (by simp [overrun?])
    · exact hmeet.last ht a i rfl
    · exact absurd hout (by simp [overrun?])
  · have hmeet := h 1 ⟨.zero _, .zero _⟩ [some (List.replicate 64 65)]
    rw [← Responder.statesMeet_inBounds_iff] at hmeet
    exact absurd (hmeet _ rfl).1.1 (by decide)
  · have hmeet := h (.zero _) [some (List.replicate 64 65)]
    rw [← Receiver.statesMeet_inBounds_iff] at hmeet
    have hshort : Receiver.Short (some (List.replicate 64 65)) := (hmeet _ rfl).1
    exact absurd hshort (by simp [Receiver.Short, Receiver.BUFFER_SIZE])

end OsLabs
