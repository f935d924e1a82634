/-
# bakery1 over UDP: requests that are executed again

The machine of `Bakery1/Model.lean` executes every call of a client once.  `bakery_client.c`
creates its handle with "udp", and `clnt_call` sends a request again until a reply to it arrives
or its time-out is over; the server keeps no cache of what it has executed.  So a copy of a
request is executed like the request itself: each execution of GET_NUMBER takes a slot, of which
the client learns one, and each execution of BAKERY_WAIT creates a thread, whose id is stored over
that of the thread before.

The server here is the one of the model, with the copies of requests and replies in flight around
it; they are executed and delivered in any order, and can be lost.  A pthread call can fail, and
then the server exits: a second BAKERY_SERVICE, for one, joins a thread that has been joined.

What any step can do to the slots is said once (`holds_step`): a client comes to hold a slot only
by a GET_NUMBER that is executed for it.  The rest is within the arrays (`Bounded.server`,
`Bounded.thread`).
-/
import OsLabs.Bakery1.Progress

namespace OsLabs.Bakery1

open Bakery

/-! ## 1. The server and the network -/

/-- A copy of a request, with what its client knew when it made the call; or of a reply, with
what its client knows behind it. -/
structure Datagram (ι : Type) where
  client : ι
  knows : Client
deriving DecidableEq, Repr

structure Udp (ι : Type) where
  /-- `srv.client x` is what `x` knew when the request was made that is executed for it -/
  srv : State ι
  /-- the threads whose id is in `thr` no longer, with the slots of their arguments -/
  orphans : List (Nat × Thread)
  /-- `none` is a client whose call has timed out: it follows the NULL pointer it was returned -/
  client : ι → Option Client
  requests : List (Datagram ι)
  replies : List (Datagram ι)
  /-- how often GET_NUMBER was executed for a client -/
  executed : ι → Nat
  exited : Bool

inductive Event (ι : Type)
  /-- the client makes its next call, or sends the outstanding one again -/
  | send (x : ι)
  /-- the dispatcher takes up the request at position `i` -/
  | take (i : Nat)
  | server
  | thread (k : Nat)
  /-- the thread at position `i` of `orphans` performs its next access -/
  | orphan (i : Nat)
  /-- the pthread call that the dispatcher is at fails -/
  | fail
  | deliver (i : Nat)
  | loseRequest (i : Nat)
  | loseReply (i : Nat)
  | expire (x : ι)
deriving DecidableEq, Repr

def Udp.init (ι : Type) : Udp ι where
  srv := Bakery1.init ι
  orphans := []
  client := fun _ => some .fresh
  requests := []
  replies := []
  executed := fun _ => 0
  exited := false

/-- What a reply makes of what its client knows.  A reply to a call before is dropped. -/
def Client.receive : Client → Client → Client
  | .fresh, .ticket pid num => .ticket pid num
  | .ticket pid num, .waiting _ _ => .waiting pid num
  | .waiting pid num, .served _ _ res => .served pid num res
  | cl, _ => cl

/-- The client whose call the dispatcher executes. -/
def Dispatcher.client {ι : Type} : Dispatcher ι → Option ι
  | .idle => none
  | .getNumber x _ _ _ | .wait x _ _ _ | .service x _ _ _ => some x

/-- The thread whose id the next step of the dispatcher overwrites. -/
def State.overwritten {ι : Type} (s : State ι) : List (Nat × Thread) :=
  match s.disp with
  | .wait _ pid _ .create => (s.thr pid).toList.map (pid, ·)
  | _ => []

/-- The next step of the dispatcher is a pthread call. -/
def Dispatcher.atPthread {ι : Type} : Dispatcher ι → Bool
  | .wait _ _ _ .attrInit | .wait _ _ _ .create | .service _ _ _ _ => true
  | _ => false

namespace Udp

variable {ι : Type} [DecidableEq ι]

/-- `clnt_call`, the first time or again. -/
def send (n : Udp ι) (x : ι) : Option (Udp ι) :=
  match n.client x with
  | none | some (.served _ _ _) => none
  | some cl => some { n with requests := n.requests ++ [⟨x, cl⟩] }

def take (n : Udp ι) (i : Nat) : Option (Udp ι) :=
  n.requests[i]?.bind fun m =>
    (request (n.srv.setClient m.client m.knows) m.client).map fun srv =>
      { n with srv := srv, requests := n.requests.eraseIdx i
               executed := if m.knows = .fresh then
                 Function.update n.executed m.client (n.executed m.client + 1) else n.executed }

/-- The next step of the dispatcher; the last step of a handler is followed by the reply. -/
def serve (n : Udp ι) : Option (Udp ι) :=
  (serverStep n.srv).map fun srv =>
    { n with srv := srv, orphans := n.orphans ++ n.srv.overwritten
             replies := if srv.disp = .idle then
                 n.replies ++ n.srv.disp.client.toList.map fun x => ⟨x, srv.client x⟩
               else n.replies }

/-- A thread whose id is overwritten goes on. -/
def orphanStep (n : Udp ι) (i : Nat) : Option (Udp ι) :=
  n.orphans[i]?.bind fun p =>
    (threadStep n.srv p.1 p.2).map fun srv =>
      { n with srv := { srv with thr := n.srv.thr }
               orphans := n.orphans.set i (p.1, (srv.thr p.1).getD p.2) }

def deliver (n : Udp ι) (i : Nat) : Option (Udp ι) :=
  n.replies[i]?.map fun m =>
    { n with replies := n.replies.eraseIdx i
             client := Function.update n.client m.client
               ((n.client m.client).map fun cl => cl.receive m.knows) }

def step (n : Udp ι) (e : Event ι) : Option (Udp ι) :=
  if n.srv.fault.isSome ∨ n.exited = true then none else
  match e with
  | .send x => n.send x
  | .take i => n.take i
  | .server => n.serve
  | .thread k => ((n.srv.thr k).bind (threadStep n.srv k)).map fun srv => { n with srv := srv }
  | .orphan i => n.orphanStep i
  | .fail => if n.srv.disp.atPthread then some { n with exited := true } else none
  | .deliver i => n.deliver i
  | .loseRequest i => n.requests[i]?.map fun _ => { n with requests := n.requests.eraseIdx i }
  | .loseReply i => n.replies[i]?.map fun _ => { n with replies := n.replies.eraseIdx i }
  | .expire x => some { n with client := Function.update n.client x none }

end Udp

/-- The server with the clients `ι` and the network between them. -/
def udp (ι : Type) [DecidableEq ι] : Machine (Udp ι) (Event ι) where
  init := Udp.init ι
  step := Udp.step

/-! ## 2. The server stays within its arrays -/

variable {ι : Type} {s s' : State ι} {k : Nat} {t : Thread}

/-- The locals of a thread created for slot `k` are indices of the arrays. -/
structure Thread.InBounds (k : Nat) (t : Thread) : Prop where
  slot : k < SLOTS
  i : t.i < SLOTS
  j : t.j < SLOTS

/-- The client and the slot of the call that the dispatcher executes. -/
def Dispatcher.holder : Dispatcher ι → Option (ι × Nat)
  | .idle => none
  | .getNumber x ind _ _ => some (x, ind)
  | .wait x pid _ _ | .service x pid _ _ => some (x, pid)

/-- The loop of `get_number_1_svc` is within `number`. -/
def GetPc.InBounds : GetPc → Prop
  | .test i | .assign i => i < SLOTS
  | _ => True

def Dispatcher.ScanInBounds : Dispatcher ι → Prop
  | .getNumber _ _ _ pc => pc.InBounds
  | _ => True

/-- Every index that the server will use is one of its arrays. -/
structure Bounded (s : State ι) : Prop where
  fault : s.fault = none
  num_le : s.num ≤ SLOTS
  pid_lt : ∀ k, (s.res k).pid < SLOTS
  thread : ∀ k t, s.thr k = some t → t.InBounds k
  holder : ∀ x k, s.disp.holder = some (x, k) → k < s.num
  scan : s.disp.ScanInBounds

theorem scanNext_inBounds (i : Nat) : (scanNext i).InBounds := by
  unfold scanNext
  split
  · assumption
  · trivial

theorem Thread.InBounds.next (h : t.InBounds k) : t.next.InBounds k := by
  unfold Thread.next
  split
  · rename_i hj
    exact ⟨h.slot, h.i, hj⟩
  · exact ⟨h.slot, h.i, h.j⟩

theorem Bounded.setThread (h : Bounded s) (ht : t.InBounds k) : Bounded (s.setThread k t) := by
  refine { h with thread := fun m u hu => ?_ }
  rcases eq_or_ne m k with rfl | hm
  · simp only [State.setThread, Function.update_self, Option.some.injEq] at hu
    exact hu ▸ ht
  · exact h.thread m u (by simpa [State.setThread, hm] using hu)

/-- What a step of a thread leaves alone, and what it makes of the thread. -/
structure ThreadMoves (k : Nat) (s s' : State ι) : Prop where
  disp : s'.disp = s.disp
  num : s'.num = s.num
  client : s'.client = s.client
  thr : ∃ t', s'.thr = Function.update s.thr k (some t') ∧ t'.InBounds k

/-- **A step of a thread** is within the arrays and keeps the indices. -/
theorem Bounded.threadStep (h : Bounded s) (ht : t.InBounds k)
    (hst : threadStep s k t = some s') : Bounded s' ∧ ThreadMoves k s s' := by
  have hset : ∀ {r : State ι} {u : Thread}, r.setThread k u = s' → Bounded r →
      r.disp = s.disp → r.num = s.num → r.client = s.client → r.thr = s.thr → u.InBounds k →
      Bounded s' ∧ ThreadMoves k s s' := by
    rintro r u rfl hr h1 h2 h3 h4 hu
    exact ⟨hr.setThread hu, h1, h2, h3, u, by simp [State.setThread, h4], hu⟩
  have hsame : ∀ pc, ({ t with pc := pc } : Thread).InBounds k := fun pc => ⟨ht.slot, ht.i, ht.j⟩
  have hres : ∀ v, Bounded { s with res := Function.update s.res k { s.res k with res := v } } := by
    intro v
    refine { h with pid_lt := fun m => ?_ }
    rcases eq_or_ne m k with rfl | hm
    · simpa using h.pid_lt m
    · simpa [hm] using h.pid_lt m
  have hzero : 0 < SLOTS := by decide
  cases hpc : t.pc <;> simp only [Bakery1.threadStep, hpc, access_of_lt _ _ _ ht.slot,
    access_of_lt _ _ _ ht.i, access_of_lt _ _ _ ht.j, Option.some.injEq, reduceCtorEq] at hst
  case entry => exact hset hst h rfl rfl rfl rfl ⟨ht.slot, h.pid_lt k, hzero⟩
  case nonzero | equalTo =>
    refine hset hst h rfl rfl rfl rfl ?_
    split
    · exact hsame _
    · exact ht.next
  case hand v => exact hset hst (hres v) rfl rfl rfl rfl (hsame _)
  all_goals exact hset hst { h with } rfl rfl rfl rfl (hsame _)

/-- The reply that the call of `x` ends with. -/
inductive Dispatcher.Answers (x : ι) : Dispatcher ι → Client → Prop
  | getNumber (ind max : Nat) (pc : GetPc) (num : Nat) :
      Answers x (.getNumber x ind max pc) (.ticket ind num)
  | wait (pid num : Nat) (pc : WaitPc) : Answers x (.wait x pid num pc) (.waiting pid num)
  | service (pid num : Nat) (pc : ServicePc) (res : Nat) :
      Answers x (.service x pid num pc) (.served pid num res)

/-- It is about the slot that the call is about. -/
theorem Dispatcher.Answers.holder {d : Dispatcher ι} {x : ι} {cl : Client} (h : d.Answers x cl) :
    d.client = some x ∧ ∃ k, d.holder = some (x, k) ∧ cl.slot = some k := by
  cases h with
  | getNumber ind | wait ind | service ind => exact ⟨rfl, ind, rfl, rfl⟩

section Steps

variable [DecidableEq ι]

/-- What a step of the dispatcher leaves alone: it goes on with the call, or it replies. -/
structure ServerMoves (s s' : State ι) : Prop where
  num : s'.num = s.num
  disp : (s'.disp ≠ .idle ∧ s'.disp.holder = s.disp.holder ∧ s'.client = s.client) ∨
    s'.disp = .idle ∧ ∃ x cl, s.disp.Answers x cl ∧ s'.client = Function.update s.client x cl

/-- **A step of the dispatcher** is within the arrays and keeps the indices. -/
theorem Bounded.serverStep (h : Bounded s) (hst : serverStep s = some s') :
    Bounded s' ∧ ServerMoves s s' := by
  have hnum := h.num_le
  have hscan := h.scan
  have hlt : ∀ x k, s.disp.holder = some (x, k) → k < SLOTS := fun x k hk =>
    Nat.lt_of_lt_of_le (h.holder x k hk) hnum
  have hgo : ∀ {r : State ι}, r = s' → r.fault = s.fault → r.num = s.num →
      (∀ k, (r.res k).pid < SLOTS) → r.thr = s.thr → r.client = s.client → r.disp ≠ .idle →
      r.disp.holder = s.disp.holder → r.disp.ScanInBounds → Bounded s' ∧ ServerMoves s s' := by
    rintro r rfl h1 h2 h3 h4 h5 hd hh hsc
    have hthr : ∀ k t, r.thr k = some t → t.InBounds k := fun k t ht => h.thread k t (h4 ▸ ht)
    refine ⟨⟨h1.trans h.fault, h2 ▸ hnum, h3, hthr, fun x k hk => ?_, hsc⟩, h2,
      Or.inl ⟨hd, hh, h5⟩⟩
    exact h2.symm ▸ h.holder x k (hh ▸ hk)
  have hreply : ∀ {r : State ι} {x : ι} {cl : Client},
      ({ r with disp := .idle } : State ι).setClient x cl = s' → Bounded r → r.num = s.num →
      r.client = s.client → s.disp.Answers x cl → Bounded s' ∧ ServerMoves s s' := by
    rintro r x cl rfl hr h1 h2 ha
    have hidle : ∀ y k, (Dispatcher.idle : Dispatcher ι).holder ≠ some (y, k) := fun y k => by
      simp [Dispatcher.holder]
    refine ⟨{ hr with holder := fun y k hk => absurd hk (hidle y k), scan := trivial }, h1, ?_⟩
    exact Or.inr ⟨rfl, x, cl, ha, by simp [State.setClient, h2]⟩
  cases hd : s.disp with
  | idle => simp [Bakery1.serverStep, hd] at hst
  | getNumber x ind max pc =>
    have hind := hlt x ind (by rw [hd]; rfl)
    rw [hd] at hscan
    simp only [Bakery1.serverStep, hd, Option.some.injEq] at hst
    cases pc with
    | reply =>
      rw [getNumberStep, access_of_lt _ _ _ hind] at hst
      exact hreply hst h rfl rfl (hd ▸ .getNumber ind max _ _)
    | test i =>
      have hi : i < SLOTS := hscan
      rw [getNumberStep, access_of_lt _ _ _ hi] at hst
      refine hgo hst rfl rfl h.pid_lt rfl rfl (by simp) (by rw [hd]; rfl) ?_
      simp only [Dispatcher.ScanInBounds]
      split
      · exact hi
      · exact scanNext_inBounds (i + 1)
    | assign i =>
      have hi : i < SLOTS := hscan
      rw [getNumberStep, access_of_lt _ _ _ hi] at hst
      exact hgo hst rfl rfl h.pid_lt rfl rfl (by simp) (by rw [hd]; rfl) (scanNext_inBounds (i + 1))
    | choose =>
      rw [getNumberStep, access_of_lt _ _ _ hind] at hst
      exact hgo hst rfl rfl h.pid_lt rfl rfl (by simp) (by rw [hd]; rfl) (scanNext_inBounds 0)
    | store | argNum | unchoose =>
      rw [getNumberStep, access_of_lt _ _ _ hind] at hst
      exact hgo hst rfl rfl h.pid_lt rfl rfl (by simp) (by rw [hd]; rfl) trivial
  | wait x pid num pc =>
    have hpid := hlt x pid (by rw [hd]; rfl)
    simp only [Bakery1.serverStep, hd, Option.some.injEq] at hst
    cases pc with
    | attrInit =>
      rw [waitStep, access_of_lt _ _ _ hpid] at hst
      exact hgo hst rfl rfl h.pid_lt rfl rfl (by simp) (by rw [hd]; rfl) trivial
    | args =>
      rw [waitStep, access_of_lt _ _ _ hpid] at hst
      refine hgo hst rfl rfl (fun m => ?_) rfl rfl (by simp) (by rw [hd]; rfl) trivial
      rcases eq_or_ne m pid with rfl | hm
      · simpa using hpid
      · simpa [hm] using h.pid_lt m
    | create =>
      rw [waitStep, access_of_lt _ _ _ hpid] at hst
      have hentry : (⟨0, 0, .entry⟩ : Thread).InBounds pid := ⟨hpid, by decide, by decide⟩
      exact hreply hst (h.setThread hentry) rfl rfl (hd ▸ .wait pid num _)
  | service x pid num pc =>
    have hpid := hlt x pid (by rw [hd]; rfl)
    simp only [Bakery1.serverStep, hd] at hst
    cases pc with
    | attrDestroy =>
      rw [serviceStep, access_of_lt _ _ _ hpid, Option.some.injEq] at hst
      exact hgo hst rfl rfl h.pid_lt rfl rfl (by simp) (by rw [hd]; rfl) trivial
    | join =>
      simp only [serviceStep, access_of_lt _ _ _ hpid] at hst
      split at hst <;> simp only [Option.some.injEq, reduceCtorEq] at hst
      exact hreply hst h rfl rfl (hd ▸ .service pid num _ _)

end Steps

/-! ## 3. Who holds which slot -/

namespace Udp

variable {n n' : Udp ι} {x y : ι} {e : Event ι}

/-- Slot `k` was handed out to client `x`: the handler is at it, a datagram names it, or the
client was told. -/
def Holds (n : Udp ι) (x : ι) (k : Nat) : Prop :=
  n.srv.disp.holder = some (x, k) ∨
    (∃ m ∈ n.requests ++ n.replies, m.client = x ∧ m.knows.slot = some k) ∨
    ∃ cl, n.client x = some cl ∧ cl.slot = some k

/-- The client for which the step executes GET_NUMBER. -/
def getter (n : Udp ι) : Event ι → Option ι
  | .take i => (n.requests[i]?.filter fun m => m.knows = .fresh).map Datagram.client
  | _ => none

/-- GET_NUMBER finds a slot that exists. -/
def Fits (n : Udp ι) (e : Event ι) : Prop := (n.getter e).isSome = true → n.srv.num < SLOTS

def slots (n : Udp ι) : Slots ι := ⟨n.Holds, n.srv.num, n.executed⟩

/-- The slots held were handed out, and the indices are those of the arrays. -/
structure Inv (n : Udp ι) : Prop where
  bounded : Bounded n.srv
  orphan : ∀ p ∈ n.orphans, p.2.InBounds p.1
  issued : n.slots.Issued

theorem inv_init : Inv (Udp.init ι) := by
  have hno : ∀ x k, ¬ (Udp.init ι).Holds x k := fun x k => by
    simp [Holds, Udp.init, Bakery1.init, Dispatcher.holder, Client.slot]
  refine ⟨⟨rfl, Nat.zero_le _, fun _ => (by decide : 0 < SLOTS), fun k t ht => ?_, fun x k hk => ?_,
    trivial⟩, fun p hp => ?_, fun x k hk => absurd hk (hno x k),
    fun x y k hk => absurd hk (hno x k), fun x k hk => absurd hk (hno x k)⟩
  · simp [Udp.init, Bakery1.init] at ht
  · simp [Udp.init, Bakery1.init, Dispatcher.holder] at hk
  · simp [Udp.init] at hp

/-- What any step does to the indices and to the slots. -/
structure Moves (n n' : Udp ι) (e : Event ι) : Prop where
  bounded : Bounded n'.srv
  orphan : ∀ p ∈ n'.orphans, p.2.InBounds p.1
  slots : n.slots.Step n'.slots (n.getter e)

theorem Inv.moves (h : Inv n) (hm : Moves n n' e) : Inv n' :=
  ⟨hm.bounded, hm.orphan, h.issued.step hm.slots⟩

/-- A step that leaves the server alone. -/
theorem Inv.moves_of_srv (h : Inv n) (hsrv : n'.srv = n.srv) (horph : n'.orphans = n.orphans)
    (hex : n'.executed = n.executed) (hg : n.getter e = none)
    (hmem : ∀ m ∈ n'.requests ++ n'.replies, ∀ k, m.knows.slot = some k → n.Holds m.client k)
    (hcl : ∀ x cl, n'.client x = some cl → ∀ k, cl.slot = some k → n.Holds x k) :
    Moves n n' e := by
  refine ⟨hsrv ▸ h.bounded, horph ▸ h.orphan, ?_⟩
  rw [hg]
  refine .of_none (congrArg State.num hsrv) ?_ fun x => Nat.le_of_eq (congrFun hex.symm x)
  rintro x k (hd | ⟨m, hm, rfl, hk⟩ | ⟨cl, hx, hk⟩)
  · exact Or.inl (hsrv ▸ hd)
  · exact hmem m hm k hk
  · exact hcl x cl hx k hk

theorem Holds.of_mem {m : Datagram ι} (hm : m ∈ n.requests ++ n.replies)
    (hk : m.knows.slot = some k) : n.Holds m.client k := Or.inr (Or.inl ⟨m, hm, rfl, hk⟩)

theorem Holds.of_client {cl : Client} (hx : n.client x = some cl) (hk : cl.slot = some k) :
    n.Holds x k := Or.inr (Or.inr ⟨cl, hx, hk⟩)

/-- A step of a thread moves no slot. -/
theorem moves_of_thread {srv : State ι} (hb : Bounded srv)
    (hd : srv.disp = n.srv.disp) (hnum : srv.num = n.srv.num) (hsrv : n'.srv = srv)
    (horph : ∀ p ∈ n'.orphans, p.2.InBounds p.1) (hreq : n'.requests = n.requests)
    (hrep : n'.replies = n.replies) (hcl : n'.client = n.client) (hex : n'.executed = n.executed)
    (hg : n.getter e = none) : Moves n n' e := by
  refine ⟨hsrv ▸ hb, horph, ?_⟩
  rw [hg]
  refine .of_none ((congrArg State.num hsrv).trans hnum) (fun x k hk => ?_)
    fun x => Nat.le_of_eq (congrFun hex.symm x)
  simpa only [slots, Holds, hsrv, hd, hreq, hrep, hcl] using hk

/-- What a client knows of a slot it knew before, or the reply names it. -/
theorem slot_receive {cl r : Client} (h : (cl.receive r).slot = some k) :
    cl.slot = some k ∨ r.slot = some k := by
  cases cl <;> cases r <;> first | exact Or.inl h | exact Or.inr h

theorem mem_of_eraseRequest {i : Nat} {m : Datagram ι}
    (hm : m ∈ n.requests.eraseIdx i ++ n.replies) : m ∈ n.requests ++ n.replies := by
  rcases List.mem_append.mp hm with h | h
  · exact List.mem_append_left _ (List.mem_of_mem_eraseIdx h)
  · exact List.mem_append_right _ h

theorem mem_of_eraseReply {i : Nat} {m : Datagram ι}
    (hm : m ∈ n.requests ++ n.replies.eraseIdx i) : m ∈ n.requests ++ n.replies := by
  rcases List.mem_append.mp hm with h | h
  · exact List.mem_append_left _ h
  · exact List.mem_append_right _ (List.mem_of_mem_eraseIdx h)

theorem moves_send (h : Inv n) (hst : n.send x = some n') : Moves n n' (.send x) := by
  have hadd : ∀ cl, n.client x = some cl →
      Moves n { n with requests := n.requests ++ [⟨x, cl⟩] } (.send x) := by
    intro cl hx
    refine h.moves_of_srv rfl rfl rfl rfl (fun m hm k hk => ?_)
      fun y cl' hy k hk => .of_client hy hk
    rcases List.mem_append.mp hm with hm | hm
    · rcases List.mem_append.mp hm with hm | hm
      · exact .of_mem (List.mem_append_left _ hm) hk
      · obtain rfl := List.mem_singleton.mp hm
        exact .of_client hx hk
    · exact .of_mem (List.mem_append_right _ hm) hk
  unfold send at hst
  split at hst
  · exact absurd hst (by simp)
  · exact absurd hst (by simp)
  · rename_i cl _ hx
    rw [Option.some.injEq] at hst
    exact hst ▸ hadd cl hx

theorem moves_orphan (h : Inv n) {i : Nat} (hst : n.orphanStep i = some n') :
    Moves n n' (.orphan i) := by
  obtain ⟨p, hi, hst⟩ := Option.bind_eq_some_iff.mp hst
  obtain ⟨srv, hsrv, rfl⟩ := Option.map_eq_some_iff.mp hst
  have hp := h.orphan p (List.mem_of_getElem? hi)
  obtain ⟨hb, hd, hnum, -, t, ht, hin⟩ := h.bounded.threadStep hp hsrv
  have hb' : Bounded { srv with thr := n.srv.thr } := { hb with thread := h.bounded.thread }
  refine moves_of_thread hb' hd hnum rfl (fun q hq => ?_) rfl rfl rfl rfl rfl
  rcases List.mem_or_eq_of_mem_set hq with hq | rfl
  · exact h.orphan q hq
  · simpa [ht] using hin

/-- What taking up a request makes of the server. -/
theorem request_cases {s s' : State ι} (hst : request s x = some s') :
    s.disp = .idle ∧
      ((s.client x = .fresh ∧
          s' = { s with num := s.num + 1, disp := .getNumber x s.num 0 .choose }) ∨
        ∃ pid d, (s.client x).slot = some pid ∧ s.client x ≠ .fresh ∧
          d.holder = some (x, pid) ∧ d.ScanInBounds ∧ s' = { s with disp := d }) := by
  unfold request at hst
  split at hst <;> simp only [Option.some.injEq, reduceCtorEq] at hst
  · rename_i hd hx
    exact ⟨hd, Or.inl ⟨hx, hst.symm⟩⟩
  · rename_i pid num hd hx
    exact ⟨hd, Or.inr ⟨pid, .wait x pid num .attrInit, by rw [hx]; rfl,
      by simp [hx], rfl, trivial, hst.symm⟩⟩
  · rename_i pid num hd hx
    exact ⟨hd, Or.inr ⟨pid, .service x pid num .attrDestroy, by rw [hx]; rfl,
      by simp [hx], rfl, trivial, hst.symm⟩⟩

section Steps

variable [DecidableEq ι]

theorem moves_take (h : Inv n) {i : Nat} (hfit : Fits n (.take i)) (hst : n.take i = some n') :
    Moves n n' (.take i) := by
  obtain ⟨m, hi, hst⟩ := Option.bind_eq_some_iff.mp hst
  obtain ⟨srv, hreq, rfl⟩ := Option.map_eq_some_iff.mp hst
  have hmem : m ∈ n.requests ++ n.replies := List.mem_append_left _ (List.mem_of_getElem? hi)
  have hknows : (n.srv.setClient m.client m.knows).client m.client = m.knows := by
    simp [State.setClient]
  have hrest : ∀ y k, (∃ p ∈ n.requests.eraseIdx i ++ n.replies, p.client = y ∧
      p.knows.slot = some k) ∨ (∃ cl, n.client y = some cl ∧ cl.slot = some k) → n.Holds y k := by
    rintro y k (⟨p, hp, rfl, hk⟩ | ⟨cl, hy, hk⟩)
    · exact .of_mem (mem_of_eraseRequest hp) hk
    · exact .of_client hy hk
  have hb := h.bounded
  obtain ⟨-, ⟨hx, rfl⟩ | ⟨pid, d, hslot, hx, hd, hscan, rfl⟩⟩ := request_cases hreq
  · -- GET_NUMBER
    rw [hknows] at hx
    have hg : n.getter (.take i) = some m.client := by
      simp [getter, hi, Option.filter, hx]
    have hlt : n.srv.num < SLOTS := hfit (by simp [hg])
    refine ⟨{ hb with num_le := hlt, holder := ?_, scan := trivial }, h.orphan,
      by simp [hg, slots, State.setClient], ?_, fun y => ?_, fun y hy => ?_⟩
    · intro y k hk
      simp only [Dispatcher.holder, Option.some.injEq, Prod.mk.injEq] at hk
      exact hk.2 ▸ Nat.lt_succ_self _
    · rintro y k (hd | hrest')
      · simp only [Dispatcher.holder, Option.some.injEq, Prod.mk.injEq] at hd
        exact Or.inr ⟨hd.1 ▸ hg, hd.2.symm⟩
      · exact Or.inl (hrest y k hrest')
    · simp only [slots, hx, if_true]
      rcases eq_or_ne y m.client with rfl | hy
      · simp
      · simp [hy]
    · obtain rfl := Option.some.inj (hg.symm.trans hy)
      simp [slots, hx]
  · -- BAKERY_WAIT or BAKERY_SERVICE
    rw [hknows] at hx hslot
    have hg : n.getter (.take i) = none := by simp [getter, hi, Option.filter, hx]
    have hpid : n.Holds m.client pid := .of_mem hmem hslot
    refine ⟨{ hb with holder := fun y k hk => ?_, scan := hscan }, h.orphan, ?_⟩
    · rw [hd, Option.some.injEq, Prod.mk.injEq] at hk
      exact hk.2 ▸ h.issued.slot_lt _ _ hpid
    · rw [hg]
      refine .of_none rfl ?_ fun y => by simp [slots, hx]
      rintro y k (hd' | hrest')
      · rw [hd, Option.some.injEq, Prod.mk.injEq] at hd'
        exact hd'.1 ▸ hd'.2 ▸ hpid
      · exact hrest y k hrest'

theorem moves_serve (h : Inv n) (hst : n.serve = some n') : Moves n n' .server := by
  obtain ⟨srv, hsrv, rfl⟩ := Option.map_eq_some_iff.mp hst
  obtain ⟨hb, hnum, hdisp⟩ := h.bounded.serverStep hsrv
  refine ⟨hb, fun p hp => ?_, .of_none hnum ?_ fun _ => Nat.le_refl _⟩
  · rcases List.mem_append.mp hp with hp | hp
    · exact h.orphan p hp
    · unfold State.overwritten at hp
      split at hp
      · obtain ⟨t, ht, rfl⟩ := List.mem_map.mp hp
        exact h.bounded.thread _ t (by simpa using ht)
      · exact absurd hp List.not_mem_nil
  · rintro y k hk
    rcases hdisp with ⟨hbusy, hholder, -⟩ | ⟨hidle, x, cl, hanswers, hclient⟩
    · rcases hk with hd | ⟨m, hm, rfl, hk⟩ | hcl
      · exact Or.inl (hholder ▸ hd)
      · simp only [if_neg hbusy] at hm
        exact .of_mem hm hk
      · exact Or.inr (Or.inr hcl)
    · obtain ⟨hx, k', hholder, hslot⟩ := hanswers.holder
      have hholds : n.Holds x k' := Or.inl hholder
      rcases hk with hd | ⟨m, hm, rfl, hk⟩ | hcl
      · simp only [hidle, Dispatcher.holder, reduceCtorEq] at hd
      · simp only [if_pos hidle, hx, Option.toList_some, List.map_cons, List.map_nil] at hm
        rcases List.mem_append.mp hm with hm | hm
        · exact .of_mem (List.mem_append_left _ hm) hk
        · rcases List.mem_append.mp hm with hm | hm
          · exact .of_mem (List.mem_append_right _ hm) hk
          · obtain rfl := List.mem_singleton.mp hm
            simp only [hclient, Function.update_self, hslot, Option.some.injEq] at hk
            exact hk ▸ hholds
      · exact Or.inr (Or.inr hcl)

/-- **Every step** is within the arrays, and gives a slot to nobody but the client that
GET_NUMBER is executed for. -/
theorem Inv.step (h : Inv n) (hfit : n.Fits e) (hst : n.step e = some n') : Moves n n' e := by
  have hmem : ∀ m ∈ n.requests ++ n.replies, ∀ k, m.knows.slot = some k → n.Holds m.client k :=
    fun m hm k hk => .of_mem hm hk
  have hcl : ∀ x cl, n.client x = some cl → ∀ k, cl.slot = some k → n.Holds x k :=
    fun x cl hx k hk => .of_client hx hk
  unfold Udp.step at hst
  split at hst
  · exact absurd hst (by simp)
  cases e with
  | send x => exact moves_send h hst
  | take i => exact moves_take h hfit hst
  | server => exact moves_serve h hst
  | thread k =>
    obtain ⟨srv, hsrv, rfl⟩ := Option.map_eq_some_iff.mp hst
    obtain ⟨t, ht, hsrv⟩ := Option.bind_eq_some_iff.mp hsrv
    obtain ⟨hb, hd, hnum, -, -⟩ := h.bounded.threadStep (h.bounded.thread k t ht) hsrv
    exact moves_of_thread hb hd hnum rfl h.orphan rfl rfl rfl rfl rfl
  | orphan i => exact moves_orphan h hst
  | fail =>
    simp only at hst
    split at hst
    · rw [Option.some.injEq] at hst
      exact hst ▸ h.moves_of_srv rfl rfl rfl rfl hmem hcl
    · exact absurd hst (by simp)
  | deliver i =>
    obtain ⟨m, hi, rfl⟩ := Option.map_eq_some_iff.mp hst
    refine h.moves_of_srv rfl rfl rfl rfl (fun p hp => hmem p (mem_of_eraseReply hp)) ?_
    intro x cl hx k hk
    rcases eq_or_ne x m.client with rfl | hxm
    · simp only [Function.update_self, Option.map_eq_some_iff] at hx
      obtain ⟨cl', hx', rfl⟩ := hx
      rcases slot_receive hk with hk | hk
      · exact hcl _ cl' hx' k hk
      · exact hmem m (List.mem_append_right _ (List.mem_of_getElem? hi)) k hk
    · exact hcl x cl (by simpa [hxm] using hx) k hk
  | loseRequest i =>
    obtain ⟨m, -, rfl⟩ := Option.map_eq_some_iff.mp hst
    exact h.moves_of_srv rfl rfl rfl rfl (fun p hp => hmem p (mem_of_eraseRequest hp)) hcl
  | loseReply i =>
    obtain ⟨m, -, rfl⟩ := Option.map_eq_some_iff.mp hst
    exact h.moves_of_srv rfl rfl rfl rfl (fun p hp => hmem p (mem_of_eraseReply hp)) hcl
  | expire x =>
    rw [Option.some.injEq] at hst
    subst hst
    refine h.moves_of_srv rfl rfl rfl rfl hmem fun y cl hy k hk => ?_
    rcases eq_or_ne y x with rfl | hyx
    · simp at hy
    · exact hcl y cl (by simpa [hyx] using hy) k hk

end Steps

end Udp

end OsLabs.Bakery1
