/-
# bakery2 over UDP: what a retransmitted request leaves behind

`bakery_client.c` creates its handle with "udp": `clnt_call` sends the request again until a
reply to it arrives or the time-out of 25 seconds expires, and the server keeps no cache of the
requests it has executed.  The network below holds the copies of requests and replies in
flight as lists; copies are executed and delivered in any order, and can be lost.

Neither handler notices that it executes a copy.  Each execution of GET_NUMBER takes a slot of
its own, of which the client learns one, and each execution of BAKERY_SERVICE moves the cursor.
So the tickets of the other slots stay (`retransmission_effects`).
-/
import Mathlib.Algebra.BigOperators.Group.Finset.Basic
import Mathlib.Algebra.BigOperators.Group.Finset.Piecewise
import Mathlib.Algebra.Order.BigOperators.Group.Finset
import Mathlib.Data.Fintype.Card
import OsLabs.Bakery2.Model

namespace OsLabs.Bakery2

open Bakery

/-! ## 1. The clients, the server and the network between them -/

/-- The two procedures of the program. -/
inductive Proc
  | getNumber | bakeryService
deriving DecidableEq, Repr

/-- A copy of a request of `client`, or of a reply to it. -/
structure Message (ι : Type) where
  client : ι
  proc : Proc
  arg : BAKERY
deriving DecidableEq, Repr

/-- How far `bakery_prog_1` has come.  When a call fails the client prints the error and then
follows the NULL pointer it was returned, so `failed` is the end of it. -/
inductive Client
  | fresh
  | asking
  | ticket (pid num : Nat)
  | serving (pid num : Nat)
  | done (pid num res : Nat)
  | failed
deriving DecidableEq, Repr

structure Net (ι : Type) where
  srv : Server
  client : ι → Client
  requests : List (Message ι)
  replies : List (Message ι)
  /-- how often requests of a client were executed -/
  executed : ι → Proc → Nat
  fault : Option (Arr × Nat)

inductive Event (ι : Type)
  /-- the client makes its next call, or sends the outstanding one again -/
  | send (x : ι)
  /-- the server executes the request at position `i` -/
  | execute (i fuel : Nat)
  /-- the reply at position `i` arrives -/
  | deliver (i : Nat)
  | loseRequest (i : Nat)
  | loseReply (i : Nat)
  /-- the 25 seconds are over -/
  | expire (x : ι)
deriving DecidableEq, Repr

def Net.init (ι : Type) : Net ι where
  srv := Server.init
  client := fun _ => .fresh
  requests := []
  replies := []
  executed := fun _ _ => 0
  fault := none

section Steps

variable {ι : Type} [DecidableEq ι]

/-- `clnt_call`: GET_NUMBER first (its argument is not initialised and not read), then
BAKERY_SERVICE with the slot and the number received; while a call is outstanding, the same
request again. -/
def send (s : Net ι) (x : ι) : Option (Net ι) :=
  match s.client x with
  | .fresh => some { s with client := Function.update s.client x .asking
                            requests := s.requests ++ [⟨x, .getNumber, ⟨0, 0, 0⟩⟩] }
  | .asking => some { s with requests := s.requests ++ [⟨x, .getNumber, ⟨0, 0, 0⟩⟩] }
  | .ticket pid num =>
    some { s with client := Function.update s.client x (.serving pid num)
                  requests := s.requests ++ [⟨x, .bakeryService, ⟨num, pid, 0⟩⟩] }
  | .serving pid num =>
    some { s with requests := s.requests ++ [⟨x, .bakeryService, ⟨num, pid, 0⟩⟩] }
  | .done _ _ _ | .failed => none

/-- The dispatcher: the handler of the request's procedure. -/
def handle (clock : Nat → Int) (fuel : Nat) (srv : Server) (m : Message ι) :
    Option (Except (Arr × Nat) (BAKERY × Server)) :=
  match m.proc with
  | .getNumber => some (getNumber1Svc srv)
  | .bakeryService => bakeryService1Svc clock fuel srv m.arg

def Net.count (s : Net ι) (m : Message ι) : ι → Proc → Nat :=
  Function.update s.executed m.client
    (Function.update (s.executed m.client) m.proc (s.executed m.client m.proc + 1))

/-- The server takes one copy of a request off the network, executes it and replies. -/
def execute (clock : Nat → Int) (s : Net ι) (i fuel : Nat) : Option (Net ι) :=
  s.requests[i]?.bind fun m =>
    (handle clock fuel s.srv m).map fun
      | .ok (r, srv) =>
        { s with srv := srv, requests := s.requests.eraseIdx i, executed := s.count m
                 replies := s.replies ++ [⟨m.client, m.proc, r⟩] }
      | .error e => { s with executed := s.count m, fault := some e }

/-- What a client does with a reply: one to a call that is not outstanding is dropped. -/
def receive (cl : Client) (proc : Proc) (r : BAKERY) : Client :=
  match cl, proc with
  | .asking, .getNumber => .ticket r.pid r.num
  | .serving pid num, .bakeryService => .done pid num r.res
  | cl, _ => cl

def deliver (s : Net ι) (i : Nat) : Option (Net ι) :=
  s.replies[i]?.map fun m =>
    { s with replies := s.replies.eraseIdx i
             client := Function.update s.client m.client
               (receive (s.client m.client) m.proc m.arg) }

/-- The time-out of an outstanding call. -/
def expire (s : Net ι) (x : ι) : Option (Net ι) :=
  match s.client x with
  | .asking | .serving _ _ => some { s with client := Function.update s.client x .failed }
  | _ => none

def netStep (clock : Nat → Int) (s : Net ι) (e : Event ι) : Option (Net ι) :=
  if s.fault.isSome then none else
  match e with
  | .send x => send s x
  | .execute i fuel => execute clock s i fuel
  | .deliver i => deliver s i
  | .loseRequest i => s.requests[i]?.map fun _ => { s with requests := s.requests.eraseIdx i }
  | .loseReply i => s.replies[i]?.map fun _ => { s with replies := s.replies.eraseIdx i }
  | .expire x => expire s x

/-- The server behind a network that duplicates, reorders and loses. -/
def network (ι : Type) [DecidableEq ι] (clock : Nat → Int) : Machine (Net ι) (Event ι) where
  init := Net.init ι
  step := netStep clock

end Steps

/-! ## 2. Slots and their owners -/

section Invariant

variable {ι : Type} {s s' : Net ι} {owner : Nat → Option ι}

/-- The client may have sent BAKERY_SERVICE for slot `k`. -/
def Client.mayServe (cl : Client) (k : Nat) : Prop :=
  match cl with
  | .serving pid _ | .done pid _ _ => pid = k
  | .failed => True
  | _ => False

/-- The slot the client was told. -/
def Client.told : Client → Option Nat
  | .ticket pid _ | .serving pid _ | .done pid _ _ => some pid
  | _ => none

/-- BAKERY_SERVICE was executed for slot `k`. -/
def Served (s : Net ι) (k : Nat) : Prop := ∃ l ∈ s.srv.printed, l.1 = k

/-- **The invariant.**  `owner k` is the client whose GET_NUMBER took slot `k`; a client owns
as many slots as its GET_NUMBER was executed, knows at most one of them, and asks for service
with that one only. -/
structure NetInv [DecidableEq ι] [Fintype ι] (owner : Nat → Option ι) (s : Net ι) : Prop where
  fault : s.fault = none
  num_le : s.srv.num ≤ SLOTS
  total : ∑ x, s.executed x .getNumber = s.srv.num
  gets : ∀ x, ((Finset.range s.srv.num).filter (owner · = some x)).card = s.executed x .getNumber
  owned : ∀ k < s.srv.num, (owner k).isSome
  cursor : s.srv.c = letter (∑ x, s.executed x .bakeryService)
  number : ∀ k, s.srv.number k ≠ 0 ↔ k < s.srv.num ∧ ¬ Served s k
  told : ∀ x k, (s.client x).told = some k → k < s.srv.num ∧ owner k = some x
  request : ∀ m ∈ s.requests, m.proc = .bakeryService →
    m.arg.pid < s.srv.num ∧ owner m.arg.pid = some m.client ∧
      (s.client m.client).mayServe m.arg.pid
  served : ∀ k, Served s k → k < s.srv.num ∧
    ∃ x, owner k = some x ∧ (s.client x).mayServe k ∧ 1 ≤ s.executed x .bakeryService
  reply : ∀ m ∈ s.replies, m.proc = .getNumber →
    m.arg.pid < s.srv.num ∧ owner m.arg.pid = some m.client
  answered : ∀ m ∈ s.replies, m.proc = .bakeryService →
    ∃ k, Served s k ∧ owner k = some m.client
  done : ∀ x pid num res, s.client x = .done pid num res → Served s pid

/-- What a client receives does not change which slot it may have asked service for. -/
theorem receive_mayServe {cl : Client} {proc : Proc} {r : BAKERY} {k : Nat}
    (h : cl.mayServe k) : (receive cl proc r).mayServe k := by
  cases cl <;> cases proc <;> exact h

variable [DecidableEq ι] [Fintype ι]

theorem NetInv.setClient (h : NetInv owner s) {x : ι} {cl : Client}
    (hmay : ∀ k, (s.client x).mayServe k → cl.mayServe k)
    (htold : ∀ k, cl.told = some k → k < s.srv.num ∧ owner k = some x)
    (hdone : ∀ pid num res, cl = .done pid num res → Served s pid) :
    NetInv owner { s with client := Function.update s.client x cl } := by
  have hm : ∀ y k, (s.client y).mayServe k → (Function.update s.client x cl y).mayServe k := by
    intro y k hk
    rcases eq_or_ne y x with rfl | hyx
    · simpa using hmay k hk
    · simpa [hyx] using hk
  refine { h with told := ?_, request := ?_, served := ?_, done := ?_ }
  · intro y k hk
    rcases eq_or_ne y x with rfl | hyx
    · exact htold k (by simpa using hk)
    · exact h.told y k (by simpa [hyx] using hk)
  · intro m hreq hp
    obtain ⟨hlt, ho, hs⟩ := h.request m hreq hp
    exact ⟨hlt, ho, hm _ _ hs⟩
  · intro k hk
    obtain ⟨hlt, y, ho, hs, hex⟩ := h.served k hk
    exact ⟨hlt, y, ho, hm y k hs, hex⟩
  · intro y pid num res hy
    rcases eq_or_ne y x with rfl | hyx
    · exact hdone pid num res (by simpa using hy)
    · exact h.done y pid num res (by simpa [hyx] using hy)

theorem NetInv.setRequests (h : NetInv owner s) {rs : List (Message ι)}
    (hrs : ∀ m ∈ rs, m.proc = .bakeryService → m.arg.pid < s.srv.num ∧
      owner m.arg.pid = some m.client ∧ (s.client m.client).mayServe m.arg.pid) :
    NetInv owner { s with requests := rs } :=
  { h with request := hrs }

theorem NetInv.eraseRequest (h : NetInv owner s) (i : Nat) :
    NetInv owner { s with requests := s.requests.eraseIdx i } :=
  h.setRequests fun m hm => h.request m (List.mem_of_mem_eraseIdx hm)

theorem NetInv.eraseReply (h : NetInv owner s) (i : Nat) :
    NetInv owner { s with replies := s.replies.eraseIdx i } :=
  { h with
    reply := fun m hm => h.reply m (List.mem_of_mem_eraseIdx hm)
    answered := fun m hm => h.answered m (List.mem_of_mem_eraseIdx hm) }

omit [Fintype ι] in
theorem count_apply (s : Net ι) (m : Message ι) (x : ι) (p : Proc) :
    s.count m x p = s.executed x p + if x = m.client ∧ p = m.proc then 1 else 0 := by
  unfold Net.count
  rcases eq_or_ne x m.client with rfl | hx
  · rcases eq_or_ne p m.proc with rfl | hp
    · simp
    · simp [hp]
  · simp [hx]

theorem sum_count (s : Net ι) (m : Message ι) (p : Proc) :
    ∑ x, s.count m x p = ∑ x, s.executed x p + if p = m.proc then 1 else 0 := by
  simp only [count_apply, Finset.sum_add_distrib]
  by_cases hp : p = m.proc <;> simp [hp, Finset.sum_ite_eq']

/-! ## 3. The handlers keep it -/

/-- **GET_NUMBER takes a new slot**, whether the client asked before or not. -/
theorem NetInv.getNumber (h : NetInv owner s) {m : Message ι} (hm : m.proc = .getNumber)
    {srv : Server} {r : BAKERY} (hg : getNumber1Svc s.srv = .ok (r, srv)) :
    NetInv (Function.update owner s.srv.num (some m.client))
      { s with srv := srv, executed := s.count m
               replies := s.replies ++ [⟨m.client, m.proc, r⟩] } := by
  obtain ⟨hlt, hr, hnum, hc, hprinted, v, hv, hnumber⟩ :
      s.srv.num < SLOTS ∧ r.pid = s.srv.num ∧ srv.num = s.srv.num + 1 ∧ srv.c = s.srv.c ∧
        srv.printed = s.srv.printed ∧
        ∃ v, v ≠ 0 ∧ srv.number = Function.update s.srv.number s.srv.num v := by
    by_cases hlt : s.srv.num < SLOTS
    · rw [getNumber1Svc_of_lt hlt, Except.ok.injEq, Prod.mk.injEq] at hg
      obtain ⟨rfl, rfl⟩ := hg
      exact ⟨hlt, rfl, rfl, rfl, rfl, _, Nat.succ_ne_zero _, rfl⟩
    · simp [getNumber1Svc_of_ge hlt] at hg
  set owner' := Function.update owner s.srv.num (some m.client) with howner
  have hold : ∀ k, k < s.srv.num → owner' k = owner k := fun k hk => by
    rw [howner, Function.update_of_ne (by omega)]
  have hnew : owner' s.srv.num = some m.client := by rw [howner, Function.update_self]
  have hex : ∀ x, s.count m x .bakeryService = s.executed x .bakeryService := fun x => by
    simp [count_apply, hm]
  set r' : Net ι := { s with
    srv := srv, executed := s.count m, replies := s.replies ++ [⟨m.client, m.proc, r⟩] } with hr'
  have hserved : ∀ k, Served r' k ↔ Served s k := fun k => by
    simp only [Served, hr', hprinted]
  refine ⟨h.fault, ?_, ?_, ?_, ?_, ?_, ?_, ?_, ?_, ?_, ?_, ?_, ?_⟩
  · exact hnum ▸ hlt
  · simp [hr', sum_count, hm, hnum, h.total]
  · intro x
    have hsame : (Finset.range s.srv.num).filter (owner' · = some x) =
        (Finset.range s.srv.num).filter (owner · = some x) :=
      Finset.filter_congr fun k hk => by rw [hold k (Finset.mem_range.mp hk)]
    simp only [hr', hnum, Finset.range_add_one, Finset.filter_insert, hnew, Option.some.injEq,
      count_apply, hm, and_true]
    by_cases hx : m.client = x
    · rw [if_pos hx, if_pos hx.symm, Finset.card_insert_of_notMem (by simp), hsame, h.gets]
    · rw [if_neg hx, if_neg (Ne.symm hx), hsame, h.gets]
      rfl
  · intro k hk
    rcases Nat.lt_or_eq_of_le (Nat.le_of_lt_succ (hnum ▸ hk)) with hlt | rfl
    · exact hold k hlt ▸ h.owned k hlt
    · simp [hnew]
  · simp only [hr', hc, hex, h.cursor]
  · intro k
    rw [hserved]
    simp only [hr', hnumber, hnum]
    rcases eq_or_ne k s.srv.num with rfl | hk
    · have hns : ¬ Served s s.srv.num := fun hs => Nat.lt_irrefl _ (h.served _ hs).1
      simp [hv, hns]
    · rw [Function.update_of_ne hk, h.number k]
      have : k < s.srv.num + 1 ↔ k < s.srv.num := by omega
      rw [this]
  · intro x k hk
    obtain ⟨hlt, ho⟩ := h.told x k hk
    exact ⟨hnum ▸ Nat.lt_succ_of_lt hlt, (hold k hlt).trans ho⟩
  · intro m' hm' hp
    obtain ⟨hlt, ho, hs⟩ := h.request m' hm' hp
    exact ⟨hnum ▸ Nat.lt_succ_of_lt hlt, (hold _ hlt).trans ho, hs⟩
  · intro k hk
    obtain ⟨hlt, x, ho, hs, hx⟩ := h.served k ((hserved k).mp hk)
    exact ⟨hnum ▸ Nat.lt_succ_of_lt hlt, x, (hold k hlt).trans ho, hs, hx.trans_eq (hex x).symm⟩
  · intro m' hm' hp
    rcases List.mem_append.mp hm' with hin | hin
    · obtain ⟨hlt, ho⟩ := h.reply m' hin hp
      exact ⟨hnum ▸ Nat.lt_succ_of_lt hlt, (hold _ hlt).trans ho⟩
    · rw [List.mem_singleton.mp hin]
      exact ⟨by simp only [hr', hr, hnum]; omega, by rw [hr]; exact hnew⟩
  · intro m' hm' hp
    rcases List.mem_append.mp hm' with hin | hin
    · obtain ⟨k, hk, ho⟩ := h.answered m' hin hp
      exact ⟨k, (hserved k).mpr hk, (hold k (h.served k hk).1).trans ho⟩
    · rw [List.mem_singleton.mp hin] at hp
      simp [hm] at hp
  · intro x pid num res hx
    exact (hserved pid).mpr (h.done x pid num res hx)

/-- **BAKERY_SERVICE moves the cursor and clears the slot it is called with**, whether it was
executed before or not. -/
theorem NetInv.bakeryService (h : NetInv owner s) {m : Message ι} (hreq : m ∈ s.requests)
    (hm : m.proc = .bakeryService) {clock : Nat → Int} {fuel : Nat} {srv : Server} {r : BAKERY}
    (hs : bakeryService1Svc clock fuel s.srv m.arg = some (.ok (r, srv))) :
    NetInv owner { s with srv := srv, executed := s.count m
                          replies := s.replies ++ [⟨m.client, m.proc, r⟩] } := by
  obtain ⟨l, hnum, hc, hl, hprinted, hnumber⟩ : ∃ l : Nat × Nat × Nat,
      srv.num = s.srv.num ∧ (srv.c = if s.srv.c + 1 > letterZ then letterA else s.srv.c + 1) ∧
        l.1 = m.arg.pid ∧ srv.printed = s.srv.printed ++ [l] ∧
        srv.number = Function.update s.srv.number m.arg.pid 0 := by
    obtain ⟨tick, -, -, rfl⟩ := bakeryService1Svc_eq_some hs
    exact ⟨_, rfl, rfl, rfl, rfl, rfl⟩
  obtain ⟨hpid, hown, hmay⟩ := h.request m hreq hm
  set r' : Net ι := { s with
    srv := srv, executed := s.count m, replies := s.replies ++ [⟨m.client, m.proc, r⟩] } with hr'
  have hex : ∀ x, s.count m x .getNumber = s.executed x .getNumber := fun x => by
    simp [count_apply, hm]
  have hserved : ∀ k, Served r' k ↔ Served s k ∨ k = m.arg.pid := fun k => by
    simp only [Served, hr', hprinted, List.mem_append, List.mem_singleton, or_and_right, exists_or,
      exists_eq_left, hl]
    rw [eq_comm (a := k)]
  refine ⟨h.fault, ?_, ?_, ?_, ?_, ?_, ?_, ?_, ?_, ?_, ?_, ?_, ?_⟩
  · exact hnum ▸ h.num_le
  · simpa only [hr', hex, hnum] using h.total
  · simpa only [hr', hex, hnum] using h.gets
  · simpa only [hr', hnum] using h.owned
  · simp only [hr', hc, sum_count, hm, if_true, h.cursor]
    split
    · exact letter_succ_wrap ‹_›
    · exact letter_succ ‹_›
  · intro k
    rw [hserved]
    simp only [hr', hnumber, hnum]
    rcases eq_or_ne k m.arg.pid with rfl | hk
    · simp
    · rw [Function.update_of_ne hk, h.number k]
      simp [hk]
  · simpa only [hr', hnum] using h.told
  · simpa only [hr', hnum] using h.request
  · intro k hk
    rcases (hserved k).mp hk with hs | rfl
    · obtain ⟨hlt, x, ho, hx, hle⟩ := h.served k hs
      exact ⟨hnum ▸ hlt, x, ho, hx, by simp only [hr', count_apply]; omega⟩
    · exact ⟨hnum ▸ hpid, m.client, hown, hmay, by simp [hr', count_apply, hm]⟩
  · intro m' hm' hp
    rcases List.mem_append.mp hm' with hin | hin
    · exact hnum ▸ h.reply m' hin hp
    · rw [List.mem_singleton.mp hin] at hp
      simp [hm] at hp
  · intro m' hm' hp
    rcases List.mem_append.mp hm' with hin | hin
    · obtain ⟨k, hk, ho⟩ := h.answered m' hin hp
      exact ⟨k, (hserved k).mpr (Or.inl hk), ho⟩
    · rw [List.mem_singleton.mp hin]
      exact ⟨m.arg.pid, (hserved _).mpr (Or.inr rfl), hown⟩
  · intro x pid num res hx
    exact (hserved pid).mpr (Or.inl (h.done x pid num res hx))

/-! ## 4. Every step keeps it -/

/-- What a run establishes: the invariant, or more executions of GET_NUMBER than slots. -/
def Within (s : Net ι) : Prop :=
  (∃ owner, NetInv owner s) ∨ SLOTS < ∑ x, s.executed x .getNumber

theorem NetInv.send (h : NetInv owner s) {x : ι} (hst : send s x = some s') :
    NetInv owner s' := by
  have hask : ∀ r : Net ι, NetInv owner r →
      NetInv owner { r with requests := r.requests ++ [⟨x, .getNumber, ⟨0, 0, 0⟩⟩] } := by
    intro r hr
    refine hr.setRequests fun m hm hp => ?_
    rcases List.mem_append.mp hm with hin | hin
    · exact hr.request m hin hp
    · rw [List.mem_singleton.mp hin] at hp
      simp at hp
  have hserve : ∀ (r : Net ι) (pid num : Nat), NetInv owner r → r.client x = .serving pid num →
      NetInv owner { r with requests := r.requests ++ [⟨x, .bakeryService, ⟨num, pid, 0⟩⟩] } := by
    intro r pid num hr hx
    refine hr.setRequests fun m hm hp => ?_
    rcases List.mem_append.mp hm with hin | hin
    · exact hr.request m hin hp
    · obtain ⟨hlt, ho⟩ := hr.told x pid (by simp [hx, Client.told])
      rw [List.mem_singleton.mp hin]
      exact ⟨hlt, ho, by simp [hx, Client.mayServe]⟩
  cases hx : s.client x with
  | fresh =>
    simp only [Bakery2.send, hx, Option.some.injEq] at hst
    exact hst ▸ hask _ (h.setClient (by simp [hx, Client.mayServe]) (by simp [Client.told])
      (by simp))
  | asking =>
    simp only [Bakery2.send, hx, Option.some.injEq] at hst
    exact hst ▸ hask _ h
  | ticket pid num =>
    simp only [Bakery2.send, hx, Option.some.injEq] at hst
    have hstart : NetInv owner
        { s with client := Function.update s.client x (.serving pid num) } :=
      h.setClient (by simp [hx, Client.mayServe]) (fun k hk => h.told x k (hx ▸ hk)) (by simp)
    exact hst ▸ hserve _ pid num hstart (by simp)
  | serving pid num =>
    simp only [Bakery2.send, hx, Option.some.injEq] at hst
    exact hst ▸ hserve _ pid num h hx
  | done pid num res => simp [Bakery2.send, hx] at hst
  | failed => simp [Bakery2.send, hx] at hst

/-- A reply that is not dropped names a slot of the client, or follows the service of it. -/
theorem NetInv.receive (h : NetInv owner s) {m : Message ι} (hm : m ∈ s.replies) :
    NetInv owner { s with client := Function.update s.client m.client
                            (receive (s.client m.client) m.proc m.arg) } := by
  refine h.setClient (fun k => receive_mayServe) (fun k hk => ?_) (fun pid num res hd => ?_)
  · cases hcl : s.client m.client <;> cases hp : m.proc <;>
      simp only [hcl, hp, Bakery2.receive, Client.told, Option.some.injEq, reduceCtorEq] at hk
    case asking.getNumber => exact hk ▸ h.reply m hm hp
    all_goals exact h.told m.client k (by simp [hcl, Client.told, hk])
  · -- only a client that asked for service is done after this reply
    cases hcl : s.client m.client <;> cases hp : m.proc <;>
      simp only [hcl, hp, Bakery2.receive, Client.done.injEq, reduceCtorEq] at hd
    case serving.bakeryService pid' num' =>
      -- the slot served for this client is the one it asked for
      obtain ⟨k, hk, ho⟩ := h.answered m hm hp
      obtain ⟨-, y, hy, hmay, -⟩ := h.served k hk
      obtain rfl : m.client = y := Option.some.inj (ho.symm.trans hy)
      rw [hcl] at hmay
      obtain rfl : pid' = k := hmay
      exact hd.1 ▸ hk
    all_goals exact h.done m.client pid num res (by simp [hcl, hd])

theorem NetInv.execute (h : NetInv owner s) {clock : Nat → Int} {i fuel : Nat}
    (hst : execute clock s i fuel = some s') : Within s' := by
  obtain ⟨m, hi, hst⟩ := Option.bind_eq_some_iff.mp hst
  obtain ⟨out, hout, hst⟩ := Option.map_eq_some_iff.mp hst
  have hreq : m ∈ s.requests := List.mem_of_getElem? hi
  cases hm : m.proc with
  | getNumber =>
    rw [handle, hm, Option.some.injEq] at hout
    cases out with
    | ok out =>
      subst hst
      exact Or.inl ⟨_, (h.getNumber hm hout).eraseRequest i⟩
    | error e =>
      have hge : ¬ s.srv.num < SLOTS := fun hlt => by simp [getNumber1Svc_of_lt hlt] at hout
      subst hst
      refine Or.inr ?_
      simp only [sum_count, hm, if_true, h.total]
      omega
  | bakeryService =>
    rw [handle, hm] at hout
    cases out with
    | ok out =>
      subst hst
      exact Or.inl ⟨owner, (h.bakeryService hreq hm hout).eraseRequest i⟩
    | error e =>
      have hpid := (h.request m hreq hm).1
      have hle := h.num_le
      exact absurd (by omega) (bakeryService1Svc_error hout).1

omit [Fintype ι] in
theorem executed_le {clock : Nat → Int} {e : Event ι} (hst : netStep clock s e = some s') (x : ι)
    (p : Proc) : s.executed x p ≤ s'.executed x p := by
  unfold netStep at hst
  split at hst
  · exact absurd hst (by simp)
  cases e with
  | send x =>
    simp only [Bakery2.send] at hst
    split at hst <;> simp only [Option.some.injEq, reduceCtorEq] at hst <;>
      exact hst ▸ Nat.le_refl _
  | execute i fuel =>
    obtain ⟨m, -, hst⟩ := Option.bind_eq_some_iff.mp hst
    obtain ⟨out, -, rfl⟩ := Option.map_eq_some_iff.mp hst
    cases out <;> simp [count_apply]
  | deliver i =>
    obtain ⟨m, -, rfl⟩ := Option.map_eq_some_iff.mp hst
    exact Nat.le_refl _
  | loseRequest i =>
    obtain ⟨m, -, rfl⟩ := Option.map_eq_some_iff.mp hst
    exact Nat.le_refl _
  | loseReply i =>
    obtain ⟨m, -, rfl⟩ := Option.map_eq_some_iff.mp hst
    exact Nat.le_refl _
  | expire x =>
    simp only [expire] at hst
    split at hst <;> simp only [Option.some.injEq, reduceCtorEq] at hst <;>
      exact hst ▸ Nat.le_refl _

theorem Within.step {clock : Nat → Int} (h : Within s) {e : Event ι}
    (hst : netStep clock s e = some s') : Within s' := by
  have hle : ∀ x, s.executed x .getNumber ≤ s'.executed x .getNumber := fun x =>
    executed_le hst x _
  unfold netStep at hst
  split at hst
  · exact absurd hst (by simp)
  rcases h with ⟨owner, h⟩ | h
  · cases e with
    | send x => exact Or.inl ⟨owner, h.send hst⟩
    | execute i fuel => exact h.execute hst
    | deliver i =>
      obtain ⟨m, hi, rfl⟩ := Option.map_eq_some_iff.mp hst
      exact Or.inl ⟨owner, (h.receive (List.mem_of_getElem? hi)).eraseReply i⟩
    | loseRequest i =>
      obtain ⟨m, -, rfl⟩ := Option.map_eq_some_iff.mp hst
      exact Or.inl ⟨owner, h.eraseRequest i⟩
    | loseReply i =>
      obtain ⟨m, -, rfl⟩ := Option.map_eq_some_iff.mp hst
      exact Or.inl ⟨owner, h.eraseReply i⟩
    | expire x =>
      have hfail : NetInv owner { s with client := Function.update s.client x .failed } :=
        h.setClient (fun k _ => trivial) (by simp [Client.told]) (by simp)
      simp only [expire] at hst
      split at hst <;> simp only [Option.some.injEq, reduceCtorEq] at hst
      · exact Or.inl ⟨owner, hst ▸ hfail⟩
      · exact Or.inl ⟨owner, hst ▸ hfail⟩
  · exact Or.inr (Nat.lt_of_lt_of_le h (Finset.sum_le_sum fun x _ => hle x))

theorem netInv_init : NetInv (fun _ => none) (Net.init ι) where
  fault := rfl
  num_le := Nat.zero_le _
  total := by simp [Net.init, Server.init]
  gets := by simp [Net.init]
  owned := by simp [Net.init, Server.init]
  cursor := by simp [Net.init, Server.init, letter]
  number := by simp [Net.init, Server.init]
  told := by simp [Net.init, Client.told]
  request := by simp [Net.init]
  served := by simp [Net.init, Server.init, Served]
  reply := by simp [Net.init]
  answered := by simp [Net.init]
  done := by simp [Net.init]

theorem reachable_within {clock : Nat → Int} (h : (network ι clock).Reachable s) : Within s :=
  Machine.reachable_rule (M := network ι clock) (Or.inl ⟨_, netInv_init⟩)
    (fun _ _ _ hw hst => hw.step hst) h

/-! ## 5. When all clients have their letters -/

/-- A client that is done owns one slot that was served, and any other slot of it was not. -/
theorem NetInv.served_iff_of_done (h : NetInv owner s) {x : ι} {pid num res k : Nat}
    (hx : s.client x = .done pid num res) (hk : owner k = some x) : Served s k ↔ k = pid := by
  constructor
  · intro hs
    obtain ⟨-, y, ho, hmay, -⟩ := h.served k hs
    obtain rfl : x = y := Option.some.inj (hk.symm.trans ho)
    rw [hx] at hmay
    exact Eq.symm hmay
  · rintro rfl
    exact h.done x k num res hx

/-- Every client has its letter. -/
def AllDone (s : Net ι) : Prop := ∀ x, ∃ pid num res, s.client x = .done pid num res

/-- The slots that were served are those that a client was told. -/
theorem NetInv.served_iff_told (h : NetInv owner s) (hdone : AllDone s) {k : Nat}
    (hk : k < s.srv.num) : Served s k ↔ ∃ x, (s.client x).told = some k := by
  obtain ⟨x, ho⟩ := Option.isSome_iff_exists.mp (h.owned k hk)
  obtain ⟨pid, num, res, hx⟩ := hdone x
  rw [h.served_iff_of_done hx ho]
  constructor
  · rintro rfl
    exact ⟨x, by simp [hx, Client.told]⟩
  · rintro ⟨y, hy⟩
    obtain rfl : x = y := Option.some.inj (ho.symm.trans (h.told y k hy).2)
    simpa [hx, Client.told, eq_comm] using hy

/-- The tickets left are those of the slots that no client was told. -/
theorem NetInv.number_iff_untold (h : NetInv owner s) (hdone : AllDone s) (k : Nat) :
    s.srv.number k ≠ 0 ↔ k < s.srv.num ∧ ∀ x, (s.client x).told ≠ some k := by
  rw [h.number k]
  refine and_congr_right fun hk => ?_
  rw [h.served_iff_told hdone hk, not_exists]

/-- The slot that a client was told is among its own. -/
theorem NetInv.told_mem (h : NetInv owner s) (hdone : AllDone s) (x : ι) :
    ∃ pid, (s.client x).told = some pid ∧
      pid ∈ (Finset.range s.srv.num).filter (owner · = some x) := by
  obtain ⟨pid, num, res, hx⟩ := hdone x
  have hpid : (s.client x).told = some pid := by simp [hx, Client.told]
  exact ⟨pid, hpid, by simpa using h.told x pid hpid⟩

/-- No ticket is left exactly when no client has a slot beside the one that it was told. -/
theorem NetInv.cleared_iff (h : NetInv owner s) (hdone : AllDone s) :
    (∀ k, s.srv.number k = 0) ↔ ∀ x, s.executed x .getNumber = 1 := by
  constructor
  · intro hz x
    obtain ⟨pid, hpid, hin⟩ := h.told_mem hdone x
    rw [← h.gets x, Finset.card_eq_one]
    refine ⟨pid, Finset.eq_singleton_iff_unique_mem.mpr ⟨hin, fun k hk => ?_⟩⟩
    obtain ⟨hlt, ho⟩ := by simpa using hk
    obtain ⟨y, hy⟩ : ∃ y, (s.client y).told = some k := by
      by_contra hnone
      exact (h.number_iff_untold hdone k).mpr ⟨hlt, not_exists.mp hnone⟩ (hz k)
    obtain rfl : x = y := Option.some.inj (ho.symm.trans (h.told y k hy).2)
    exact Option.some.inj (hy.symm.trans hpid)
  · intro hone k
    by_contra hk
    obtain ⟨hlt, hnone⟩ := (h.number_iff_untold hdone k).mp hk
    obtain ⟨x, ho⟩ := Option.isSome_iff_exists.mp (h.owned k hlt)
    obtain ⟨pid, hpid, hin⟩ := h.told_mem hdone x
    have hcard : ((Finset.range s.srv.num).filter (owner · = some x)).card ≤ 1 :=
      Nat.le_of_eq ((h.gets x).trans (hone x))
    have hkpid : k = pid := Finset.card_le_one.mp hcard k (by simp [hlt, ho]) pid hin
    exact hnone x (hkpid ▸ hpid)

/-- Both requests of every client were executed. -/
theorem NetInv.one_le_executed (h : NetInv owner s) (hdone : AllDone s) (x : ι) (p : Proc) :
    1 ≤ s.executed x p := by
  obtain ⟨pid, num, res, hx⟩ := hdone x
  have htold : (s.client x).told = some pid := by simp [hx, Client.told]
  cases p with
  | getNumber =>
    obtain ⟨q, -, hin⟩ := h.told_mem hdone x
    exact h.gets x ▸ Finset.card_pos.mpr ⟨q, hin⟩
  | bakeryService =>
    obtain ⟨-, y, ho, -, hex⟩ := h.served pid (h.done x pid num res hx)
    obtain rfl : x = y := Option.some.inj ((h.told x pid htold).2.symm.trans ho)
    exact hex

/-- **What retransmission leaves behind.**  Let every client have its letter, after at most 32
executions of GET_NUMBER in all.  The tickets left are those of the slots that no client was
told; they are none exactly when no GET_NUMBER was executed twice.  And the cursor has moved by
one letter for each execution of BAKERY_SERVICE: at least once per client, and as often as there
are clients exactly when no BAKERY_SERVICE was executed twice. -/
theorem retransmission_effects {clock : Nat → Int} (hs : (network ι clock).Reachable s)
    (hfit : ∑ x, s.executed x .getNumber ≤ 32)
    (hdone : ∀ x, ∃ pid num res, s.client x = .done pid num res) :
    (∀ k, s.srv.number k ≠ 0 ↔ k < s.srv.num ∧ ∀ x, (s.client x).told ≠ some k) ∧
      ((∀ k, s.srv.number k = 0) ↔ ∀ x, s.executed x .getNumber = 1) ∧
      s.srv.c = letter (∑ x, s.executed x .bakeryService) ∧
      (∑ x, s.executed x .bakeryService = Fintype.card ι ↔
        ∀ x, s.executed x .bakeryService = 1) ∧
      ∀ x p, 1 ≤ s.executed x p := by
  obtain ⟨owner, h⟩ : ∃ owner, NetInv owner s := by
    rcases reachable_within hs with hi | hgt
    · exact hi
    · exact absurd hgt (by simp only [SLOTS]; omega)
  have hone := h.one_le_executed hdone
  refine ⟨?_, ?_, h.cursor, ?_, hone⟩
  · exact h.number_iff_untold hdone
  · exact h.cleared_iff hdone
  · have hsum := Finset.sum_eq_sum_iff_of_le fun x (_ : x ∈ Finset.univ) => hone x .bakeryService
    rw [← Finset.card_eq_sum_ones, Finset.card_univ] at hsum
    simpa [eq_comm] using hsum

end Invariant

/-- One client, whose GET_NUMBER and BAKERY_SERVICE requests are each sent and executed twice. -/
def sentTwice : List (Event (Fin 1)) :=
  [.send 0, .send 0, .execute 0 1, .execute 0 1, .deliver 0, .loseReply 0,
    .send 0, .send 0, .execute 0 1, .execute 0 1, .deliver 0, .loseReply 0]

/-- The ticket of slot 1 is left, and the cursor stands at the letter 'c'. -/
theorem sentTwice_run :
    ∃ s, (network (Fin 1) secondClock).Reachable s ∧ ∑ x, s.executed x .getNumber ≤ 32 ∧
      (∀ x, s.client x = .done 0 1 97) ∧ s.requests = [] ∧ s.srv.number 1 = 2 ∧ s.srv.c = 99 := by
  obtain ⟨s, hs, h⟩ := Machine.reachable_of_run_map (M := network (Fin 1) secondClock)
    (f := fun s => (s.executed 0 .getNumber, s.client 0, s.requests, s.srv.number 1, s.srv.c))
    (b := (2, .done 0 1 97, [], 2, 99)) sentTwice (by decide +kernel)
  simp only [Prod.mk.injEq] at h
  obtain ⟨hex, hcl, hreq, hnum, hc⟩ := h
  exact ⟨s, hs, by simp [hex], fun x => by rw [Subsingleton.elim x 0, hcl], hreq, hnum, hc⟩

theorem retransmission_effects_sentTwice :
    ∃ s, (network (Fin 1) secondClock).Reachable s ∧ s.srv.number 1 ≠ 0 ∧
      ∀ x, s.executed x .getNumber ≠ 1 := by
  obtain ⟨s, hs, hfit, hdone, -, hnum, -⟩ := sentTwice_run
  obtain ⟨-, hiff, -⟩ := retransmission_effects hs hfit fun x => ⟨0, 1, 97, hdone x⟩
  refine ⟨s, hs, by omega, fun x hx => ?_⟩
  have hz := hiff.mpr fun y => by rwa [Subsingleton.elim y x]
  exact absurd (hz 1) (by omega)

/-- **Retransmission has lasting effects**: with every client served and nothing in flight, a
ticket can be left, and the cursor can have moved by more letters than there are clients. -/
theorem retransmission_lasts :
    ¬ ∀ s, (network (Fin 1) secondClock).Reachable s → ∑ x, s.executed x .getNumber ≤ 32 →
      (∀ x, ∃ pid num res, s.client x = .done pid num res) → s.requests = [] →
        (∀ k, s.srv.number k = 0) ∧ s.srv.c = letter (Fintype.card (Fin 1)) := by
  obtain ⟨s, hs, hfit, hdone, hreq, hnum, -⟩ := sentTwice_run
  intro h
  have hz := (h s hs hfit (fun x => ⟨0, 1, 97, hdone x⟩) hreq).1 1
  omega

end OsLabs.Bakery2
