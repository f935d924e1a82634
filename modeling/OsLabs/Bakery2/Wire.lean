/-
# bakery2 over UDP, in bytes

Between `bakery_client.c` and `bakery_server.c` stand the files that rpcgen has made: the stubs of
`bakery_clnt.c` write an argument as bytes and read the result back, and `bakery_prog_1` of
`bakery_svc.c` reads the argument, calls the handler and writes its result.  Here a call and a
reply are datagrams with bytes in them.  What the client leaves uninitialised is whatever its
stack holds, and it goes on the wire.  Calls from elsewhere arrive too; the server reads each call
into one buffer, so behind the argument of a short one stands what the buffer held before.

The network of `Bakery2/Retransmit.lean` carries records instead.  As long as the calls from
elsewhere are for no procedure of the program, what reaches the server and the clients in bytes
reaches them there too (`wire_simulates`): the three bytes that no reader looks at, the junk and
the strays make no difference, and no stub refuses a reply.
-/
import Mathlib.Algebra.BigOperators.Fin
import OsLabs.Bakery.Xdr
import OsLabs.Bakery2.Retransmit
import OsLabs.Lib.Simulation

namespace OsLabs.Bakery2

open Bakery
open Bakery.Xdr (xdrBAKERY)

/-! ## 1. Stubs, dispatcher and datagrams -/

def NULLPROC : UInt32 := 0

def GET_NUMBER : UInt32 := 1

def BAKERY_SERVICE : UInt32 := 2

/-- A call on its way: its client (`none` if it is not one of the program's), the procedure and
the bytes of the argument. -/
structure CallMsg (ι : Type) where
  sender : Option ι
  proc : UInt32
  args : List UInt8
deriving DecidableEq, Repr

inductive AcceptStat
  | success | procUnavail | garbageArgs
deriving DecidableEq, Repr

/-- A reply on its way.  A client has one call of a procedure in all, so the procedure stands for
the number by which `clnt_call` knows its reply. -/
structure ReplyMsg (ι : Type) where
  receiver : Option ι
  proc : UInt32
  stat : AcceptStat
  results : List UInt8
deriving DecidableEq, Repr

/-- How far `bakery_prog_1` of the client has come, with the structures it has to keep. -/
inductive ClientProg
  | fresh
  | getNumber (arg : Xdr.BAKERY)
  | ticket (pid num : Int32)
  | bakeryService (arg : Xdr.BAKERY)
  | done (pid num : Int32) (res : Int8)
  | failed
deriving DecidableEq, Repr

structure Wire (ι : Type) where
  srv : Server
  client : ι → ClientProg
  calls : List (CallMsg ι)
  replies : List (ReplyMsg ι)
  executed : ι → Proc → Nat
  fault : Option (Arr × Nat)

inductive WireEvent (ι : Type)
  /-- the next call, or the outstanding one again; `junk` is what the stack of the client holds -/
  | send (x : ι) (junk : Xdr.BAKERY)
  /-- a call from elsewhere -/
  | stray (proc : UInt32) (args : List UInt8)
  /-- the server executes the call at position `i`; `stale` is what its buffer holds behind it -/
  | execute (i fuel : Nat) (stale : List UInt8)
  | deliver (i : Nat)
  | loseCall (i : Nat)
  | loseReply (i : Nat)
  | expire (x : ι)
deriving DecidableEq, Repr

def Wire.init (ι : Type) : Wire ι where
  srv := Server.init
  client := fun _ => .fresh
  calls := []
  replies := []
  executed := fun _ _ => 0
  fault := none

/-- The `switch` of the dispatcher. -/
def procedure (proc : UInt32) : Option Proc :=
  if proc = GET_NUMBER then some .getNumber
  else if proc = BAKERY_SERVICE then some .bakeryService
  else none

/-- The structure that a handler returns, with the types of `bakery.h`. -/
def BAKERY.wire (r : BAKERY) : Xdr.BAKERY := ⟨.ofNat r.num, .ofNat r.pid, .ofNat r.res⟩

/-- The handler, called with `argument`.  `get_number_1_svc` does not read it, and
`bakery_service_1_svc` writes `argp->res` first.  It waits for a negative number or slot as for 0,
as no ticket of a slot is smaller, and clears the entry of the slot it was given; a negative index
is named by its bits. -/
def callLocal (clock : Nat → Int) (fuel : Nat) (srv : Server) (p : Proc) (argument : Xdr.BAKERY) :
    Option (Except (Arr × Nat) (BAKERY × Server)) :=
  match p with
  | .getNumber => some (getNumber1Svc srv)
  | .bakeryService =>
    let out := bakeryService1Svc clock fuel srv
      ⟨argument.num.toNatClampNeg, argument.pid.toNatClampNeg, 0⟩
    if 0 ≤ argument.pid.toInt then out
    else out.map fun _ => .error (.number, argument.pid.toUInt32.toNat)

/-- `bakery_prog_1` of `bakery_svc.c`: the reply, and the server behind the call.  `args` is what
the buffer holds from the argument on. -/
def bakeryProg1 (clock : Nat → Int) (fuel : Nat) (srv : Server) (rq_proc : UInt32)
    (args : List UInt8) :
    Option (Except (Arr × Nat) ((AcceptStat × List UInt8) × Server)) :=
  if rq_proc = NULLPROC then some (.ok ((.success, []), srv)) else
  match procedure rq_proc with
  | none => some (.ok ((.procUnavail, []), srv))
  | some p =>
    match xdrBAKERY.decode args with
    | none => some (.ok ((.garbageArgs, []), srv))
    | some argument =>
      (callLocal clock fuel srv p argument.1).map fun out =>
        out.map fun r => ((.success, xdrBAKERY.encode r.1.wire), r.2)

/-- What the stubs `get_number_1` and `bakery_service_1` return for a reply to their call: NULL,
or the structure that the results are read into. -/
def clntRes {ι : Type} (m : ReplyMsg ι) : Option Xdr.BAKERY :=
  if m.stat = .success then (xdrBAKERY.decode m.results).map Prod.fst else none

/-- What the client does with a reply.  It goes on with NULL as with a structure, which is the
end of it. -/
def ClientProg.receive {ι : Type} (cl : ClientProg) (m : ReplyMsg ι) : ClientProg :=
  match cl with
  | .getNumber arg =>
    if procedure m.proc = some .getNumber then
      match clntRes m with
      | some result => .ticket result.pid result.num
      | none => .failed
    else .getNumber arg
  | .bakeryService arg =>
    if procedure m.proc = some .bakeryService then
      match clntRes m with
      | some result => .done arg.pid arg.num result.res
      | none => .failed
    else .bakeryService arg
  | cl => cl

/-- The dispatcher refuses a call with these bytes, or does nothing for it. -/
def Refused (proc : UInt32) (args : List UInt8) : Prop :=
  procedure proc = none ∨ xdrBAKERY.decode args = none

instance (proc : UInt32) (args : List UInt8) : Decidable (Refused proc args) :=
  inferInstanceAs (Decidable (_ ∨ _))

namespace Wire

variable {ι : Type} [DecidableEq ι]

/-- The call `proc` of client `x`, with the argument `arg`. -/
def call (w : Wire ι) (x : ι) (proc : UInt32) (arg : Xdr.BAKERY) : Wire ι :=
  { w with calls := w.calls ++ [⟨some x, proc, xdrBAKERY.encode arg⟩] }

def setClient (w : Wire ι) (x : ι) (cl : ClientProg) : Wire ι :=
  { w with client := Function.update w.client x cl }

/-- `clnt_call`, the first time or again. -/
def send (w : Wire ι) (x : ι) (junk : Xdr.BAKERY) : Option (Wire ι) :=
  match w.client x with
  | .fresh => some ((w.setClient x (.getNumber junk)).call x GET_NUMBER junk)
  | .getNumber arg => some (w.call x GET_NUMBER arg)
  | .ticket pid num =>
    let arg := { junk with num := num, pid := pid }
    some ((w.setClient x (.bakeryService arg)).call x BAKERY_SERVICE arg)
  | .bakeryService arg => some (w.call x BAKERY_SERVICE arg)
  | .done _ _ _ | .failed => none

/-- How often the handlers were executed for each client. -/
def count (w : Wire ι) (m : CallMsg ι) : ι → Proc → Nat := fun x p =>
  w.executed x p + if m.sender = some x ∧ procedure m.proc = some p then 1 else 0

/-- The server takes a call off the network and replies. -/
def execute (clock : Nat → Int) (w : Wire ι) (i fuel : Nat) (stale : List UInt8) :
    Option (Wire ι) :=
  w.calls[i]?.bind fun m =>
    (bakeryProg1 clock fuel w.srv m.proc (m.args ++ stale)).map fun
      | .ok r =>
        { w with srv := r.2, calls := w.calls.eraseIdx i, executed := w.count m
                 replies := w.replies ++ [⟨m.sender, m.proc, r.1.1, r.1.2⟩] }
      | .error e => { w with executed := w.count m, fault := some e }

def deliver (w : Wire ι) (i : Nat) : Option (Wire ι) :=
  w.replies[i]?.map fun m =>
    match m.receiver with
    | none => { w with replies := w.replies.eraseIdx i }
    | some x =>
      { w with replies := w.replies.eraseIdx i
               client := Function.update w.client x ((w.client x).receive m) }

/-- The time-out: the stub returns NULL. -/
def expire (w : Wire ι) (x : ι) : Option (Wire ι) :=
  match w.client x with
  | .getNumber _ | .bakeryService _ => some (w.setClient x .failed)
  | _ => none

def step (clock : Nat → Int) (w : Wire ι) (e : WireEvent ι) : Option (Wire ι) :=
  if w.fault.isSome then none else
  match e with
  | .send x junk => w.send x junk
  | .stray proc args => some { w with calls := w.calls ++ [⟨none, proc, args⟩] }
  | .execute i fuel stale => w.execute clock i fuel stale
  | .deliver i => w.deliver i
  | .loseCall i => w.calls[i]?.map fun _ => { w with calls := w.calls.eraseIdx i }
  | .loseReply i => w.replies[i]?.map fun _ => { w with replies := w.replies.eraseIdx i }
  | .expire x => w.expire x

end Wire

/-- The clients `ι`, the server, and the datagrams between them. -/
def wire (ι : Type) [DecidableEq ι] (clock : Nat → Int) : Machine (Wire ι) (WireEvent ι) where
  init := Wire.init ι
  step := Wire.step clock

/-- The event is no call from elsewhere for a procedure of the program. -/
def WireEvent.Regular {ι : Type} : WireEvent ι → Prop
  | .stray proc _ => procedure proc = none
  | _ => True

instance {ι : Type} : DecidablePred (@WireEvent.Regular ι)
  | .stray _ _ => inferInstanceAs (Decidable (_ = _))
  | .send _ _ => isTrue trivial
  | .execute _ _ _ => isTrue trivial
  | .deliver _ => isTrue trivial
  | .loseCall _ => isTrue trivial
  | .loseReply _ => isTrue trivial
  | .expire _ => isTrue trivial

/-! ## 2. What a datagram says -/

section Datagrams

variable {ι : Type}

theorem procedure_GET_NUMBER : procedure GET_NUMBER = some .getNumber := rfl

theorem procedure_BAKERY_SERVICE : procedure BAKERY_SERVICE = some .bakeryService := rfl

/-- The record has room in the types of `bakery.h`. -/
structure BAKERY.Fits (r : BAKERY) : Prop where
  num : r.num < 2 ^ 31
  pid : r.pid < 2 ^ 31
  res : r.res < 2 ^ 7

/-- The record that a structure holds, if nothing in it is negative. -/
def ofWire (v : Xdr.BAKERY) : BAKERY :=
  ⟨v.num.toNatClampNeg, v.pid.toNatClampNeg, v.res.toNatClampNeg⟩

theorem ofWire_wire {r : BAKERY} (h : r.Fits) : ofWire r.wire = r := by
  simp only [ofWire, BAKERY.wire, Int32.toNatClampNeg_ofNat_of_lt h.num,
    Int32.toNatClampNeg_ofNat_of_lt h.pid, Int8.toNatClampNeg_ofNat_of_lt h.res]

theorem zero_le_wire {r : BAKERY} (h : r.Fits) :
    0 ≤ r.wire.num.toInt ∧ 0 ≤ r.wire.pid.toInt := by
  simp only [BAKERY.wire, Int32.toInt_ofNat_of_lt h.num, Int32.toInt_ofNat_of_lt h.pid]
  omega

def ClientProg.abs : ClientProg → Client
  | .fresh => .fresh
  | .getNumber _ => .asking
  | .ticket pid num => .ticket pid.toNatClampNeg num.toNatClampNeg
  | .bakeryService arg => .serving arg.pid.toNatClampNeg arg.num.toNatClampNeg
  | .done pid num res => .done pid.toNatClampNeg num.toNatClampNeg res.toNatClampNeg
  | .failed => .failed

/-- The request that a call of the program is.  The argument of GET_NUMBER is junk. -/
def CallMsg.abs (m : CallMsg ι) : Option (Message ι) :=
  match m.sender, procedure m.proc with
  | some x, some .getNumber => some ⟨x, .getNumber, ⟨0, 0, 0⟩⟩
  | some x, some .bakeryService =>
    (xdrBAKERY.decode m.args).map fun p =>
      ⟨x, .bakeryService, { ofWire p.1 with res := 0 }⟩
  | _, _ => none

def ReplyMsg.abs (m : ReplyMsg ι) : Option (Message ι) :=
  match m.receiver, procedure m.proc with
  | some x, some p => (clntRes m).map fun v => ⟨x, p, ofWire v⟩
  | _, _ => none

/-- A call in flight: one for no procedure of the program, or one that a stub has written. -/
inductive CallMsg.Ok : CallMsg ι → Prop
  | stray {proc : UInt32} (args : List UInt8) (h : procedure proc = none) : Ok ⟨none, proc, args⟩
  | getNumber (x : ι) (arg : Xdr.BAKERY) : Ok ⟨some x, GET_NUMBER, xdrBAKERY.encode arg⟩
  | bakeryService (x : ι) (arg : Xdr.BAKERY) (hnum : 0 ≤ arg.num.toInt)
      (hpid : 0 ≤ arg.pid.toInt) : Ok ⟨some x, BAKERY_SERVICE, xdrBAKERY.encode arg⟩

/-- A reply in flight: one to nobody, or one that the dispatcher has written. -/
inductive ReplyMsg.Ok : ReplyMsg ι → Prop
  | stray (proc : UInt32) (stat : AcceptStat) (results : List UInt8) :
      Ok ⟨none, proc, stat, results⟩
  | result (x : ι) {proc : UInt32} {p : Proc} {r : BAKERY} (hp : procedure proc = some p)
      (hr : r.Fits) : Ok ⟨some x, proc, .success, xdrBAKERY.encode r.wire⟩

theorem clntRes_result (x : ι) (proc : UInt32) (v : Xdr.BAKERY) :
    clntRes ⟨some x, proc, .success, xdrBAKERY.encode v⟩ = some v := by
  rw [clntRes, if_pos rfl, xdrBAKERY.decode_encode]
  rfl

/-- **A call for no procedure of the program** changes nothing. -/
theorem bakeryProg1_of_none {proc : UInt32} (h : procedure proc = none) (clock : Nat → Int)
    (fuel : Nat) (srv : Server) (args : List UInt8) :
    ∃ r, bakeryProg1 clock fuel srv proc args = some (.ok (r, srv)) := by
  unfold bakeryProg1
  split
  · exact ⟨_, rfl⟩
  · rw [h]
    exact ⟨_, rfl⟩

/-- **A call that a stub has written** is the call of the handler, whatever stands behind it. -/
theorem bakeryProg1_of_encode {proc : UInt32} {p : Proc} (hp : procedure proc = some p)
    (arg : Xdr.BAKERY) (clock : Nat → Int) (fuel : Nat) (srv : Server) (stale : List UInt8) :
    bakeryProg1 clock fuel srv proc (xdrBAKERY.encode arg ++ stale) =
      (callLocal clock fuel srv p arg).map fun out =>
        out.map fun r => ((.success, xdrBAKERY.encode r.1.wire), r.2) := by
  have hnull : proc ≠ NULLPROC := by
    rintro rfl
    have hnone : procedure NULLPROC = none := rfl
    rw [hnone] at hp
    exact absurd hp (by simp)
  rw [bakeryProg1, if_neg hnull, hp, xdrBAKERY.decode_append]

/-- What a client receives is what it receives without the bytes. -/
theorem receive_abs (cl : ClientProg) (x : ι) {proc : UInt32} {p : Proc} {v : Xdr.BAKERY}
    (hp : procedure proc = some p) :
    (cl.receive ⟨some x, proc, .success, xdrBAKERY.encode v⟩).abs =
      receive cl.abs p (ofWire v) := by
  cases cl <;> simp only [ClientProg.receive, ClientProg.abs]
  case getNumber arg =>
    cases p <;> simp [hp, clntRes_result, receive, ofWire]
  case bakeryService arg =>
    cases p <;> simp [hp, clntRes_result, receive, ofWire]
  all_goals cases p <;> rfl

end Datagrams

/-! ## 3. What the server writes has room -/

/-- Every slot's number is at most the number of slots taken, and the cursor is at a letter. -/
structure Server.Small (srv : Server) : Prop where
  number : ∀ k, srv.number k ≤ srv.num
  num : srv.num ≤ SLOTS
  cursor : srv.c ≤ letterZ

theorem Server.small_init : Server.init.Small :=
  ⟨fun _ => Nat.le_refl _, Nat.zero_le _, by decide⟩

theorem scan_le {number : Nat → Nat} {b : Nat} (h : ∀ k, number k ≤ b) : scan number ≤ b := by
  have hfold : ∀ (l : List Nat) (m : Nat), m ≤ b →
      l.foldl (fun max i => if number i > max then number i else max) m ≤ b := by
    intro l
    induction l with
    | nil => exact fun m hm => hm
    | cons i l ih =>
      intro m hm
      rw [List.foldl_cons]
      refine ih _ ?_
      split
      · exact h i
      · exact hm
  exact hfold _ 0 (Nat.zero_le b)

variable {clock : Nat → Int} {fuel : Nat} {srv srv' : Server} {r : BAKERY}

theorem Server.Small.getNumber (h : srv.Small) (hg : getNumber1Svc srv = .ok (r, srv')) :
    srv'.Small ∧ r.Fits := by
  by_cases hlt : srv.num < SLOTS
  · rw [getNumber1Svc_of_lt hlt, Except.ok.injEq, Prod.mk.injEq] at hg
    obtain ⟨rfl, rfl⟩ := hg
    have hscan := scan_le h.number
    refine ⟨⟨fun k => ?_, hlt, h.cursor⟩, ?_, ?_, ?_⟩
    · rcases eq_or_ne k srv.num with rfl | hk
      · simpa using hscan
      · simpa [hk] using Nat.le_succ_of_le (h.number k)
    all_goals simp only [SLOTS] at hlt ⊢; omega
  · simp [getNumber1Svc_of_ge hlt] at hg

theorem Server.Small.bakeryService (h : srv.Small) {argp : BAKERY}
    (hs : bakeryService1Svc clock fuel srv argp = some (.ok (r, srv'))) :
    srv'.Small ∧ r.Fits := by
  obtain ⟨tick, -, rfl, rfl⟩ := bakeryService1Svc_eq_some hs
  have hc := h.cursor
  simp only [letterZ] at hc
  refine ⟨⟨fun k => ?_, h.num, ?_⟩, by simp, by simp, ?_⟩
  · rcases eq_or_ne k argp.pid with rfl | hk
    · simp
    · simpa [hk] using h.number k
  · by_cases hz : srv.c + 1 > letterZ
    · simp only [if_pos hz]
      decide
    · simp only [if_neg hz]
      omega
  · exact Nat.lt_of_le_of_lt hc (by decide)

/-- Of a structure with a slot that is not negative, the handler makes what it makes of the
record. -/
theorem callLocal_bakeryService {arg : Xdr.BAKERY} (h : 0 ≤ arg.pid.toInt)
    {ι : Type} (x : ι) : callLocal clock fuel srv .bakeryService arg =
      handle clock fuel srv ⟨x, .bakeryService, { ofWire arg with res := 0 }⟩ := by
  rw [callLocal, if_pos h]
  rfl

theorem Server.Small.handle (h : srv.Small) {ι : Type} {m : Message ι}
    (hm : handle clock fuel srv m = some (.ok (r, srv'))) : srv'.Small ∧ r.Fits := by
  cases hp : m.proc with
  | getNumber =>
    rw [Bakery2.handle, hp, Option.some.injEq] at hm
    exact h.getNumber hm
  | bakeryService =>
    rw [Bakery2.handle, hp] at hm
    exact h.bakeryService hm

/-! ## 4. The network without bytes does the same -/

section Simulation

variable {ι : Type}

/-- An element that `f` keeps, and what is left without it. -/
theorem filterMap_eraseIdx_of_some {α β : Type} {f : α → Option β} {l : List α} {i : Nat} {a : α}
    {b : β} (hi : l[i]? = some a) (hf : f a = some b) :
    ∃ j, (l.filterMap f)[j]? = some b ∧
      (l.eraseIdx i).filterMap f = (l.filterMap f).eraseIdx j := by
  obtain ⟨hlt, rfl⟩ := List.getElem?_eq_some_iff.mp hi
  have hl : l.filterMap f = (l.take i).filterMap f ++ b :: (l.drop (i + 1)).filterMap f := by
    conv_lhs => rw [← List.take_append_drop i l, List.drop_eq_getElem_cons hlt]
    rw [List.filterMap_append, List.filterMap_cons_some hf]
  refine ⟨((l.take i).filterMap f).length, ?_, ?_⟩
  · rw [hl, List.getElem?_append_right (Nat.le_refl _), Nat.sub_self, List.getElem?_cons_zero]
  · rw [hl, List.eraseIdx_append_of_length_le (Nat.le_refl _), Nat.sub_self,
      List.eraseIdx_cons_zero, List.eraseIdx_eq_take_drop_succ, List.filterMap_append]

/-- An element that `f` drops is not missed. -/
theorem filterMap_eraseIdx_of_none {α β : Type} {f : α → Option β} {l : List α} {i : Nat} {a : α}
    (hi : l[i]? = some a) (hf : f a = none) : (l.eraseIdx i).filterMap f = l.filterMap f := by
  obtain ⟨hlt, rfl⟩ := List.getElem?_eq_some_iff.mp hi
  conv_rhs => rw [← List.take_append_drop i l, List.drop_eq_getElem_cons hlt]
  rw [List.filterMap_append, List.filterMap_cons_none hf, List.eraseIdx_eq_take_drop_succ,
    List.filterMap_append]

/-- The network without bytes: the calls and replies of the program, and what they say. -/
def Wire.abs (w : Wire ι) : Net ι where
  srv := w.srv
  client := ClientProg.abs ∘ w.client
  requests := w.calls.filterMap CallMsg.abs
  replies := w.replies.filterMap ReplyMsg.abs
  executed := w.executed
  fault := w.fault

/-- **The invariant.**  What is in flight was written by a stub or the dispatcher, or is refused;
what the clients were told and what the server would reply has room, and is not negative. -/
structure WireInv (w : Wire ι) : Prop where
  calls : ∀ m ∈ w.calls, m.Ok
  replies : ∀ m ∈ w.replies, m.Ok
  small : w.srv.Small
  ticket : ∀ x pid num, w.client x = .ticket pid num → 0 ≤ num.toInt ∧ 0 ≤ pid.toInt
  serving : ∀ x arg, w.client x = .bakeryService arg → 0 ≤ arg.num.toInt ∧ 0 ≤ arg.pid.toInt

variable {clock : Nat → Int} {w w' : Wire ι}

theorem wireInv_init : WireInv (Wire.init ι) where
  calls := by simp [Wire.init]
  replies := by simp [Wire.init]
  small := Server.small_init
  ticket := by simp [Wire.init]
  serving := by simp [Wire.init]

theorem WireInv.addCall (h : WireInv w) {m : CallMsg ι} (hm : m.Ok) :
    WireInv { w with calls := w.calls ++ [m] } := by
  refine { h with calls := fun m' hm' => ?_ }
  rcases List.mem_append.mp hm' with hin | hin
  · exact h.calls m' hin
  · exact List.mem_singleton.mp hin ▸ hm

theorem WireInv.addReply (h : WireInv w) {m : ReplyMsg ι} (hm : m.Ok) :
    WireInv { w with replies := w.replies ++ [m] } := by
  refine { h with replies := fun m' hm' => ?_ }
  rcases List.mem_append.mp hm' with hin | hin
  · exact h.replies m' hin
  · exact List.mem_singleton.mp hin ▸ hm

theorem WireInv.eraseCall (h : WireInv w) (i : Nat) :
    WireInv { w with calls := w.calls.eraseIdx i } :=
  { h with calls := fun m hm => h.calls m (List.mem_of_mem_eraseIdx hm) }

theorem WireInv.eraseReply (h : WireInv w) (i : Nat) :
    WireInv { w with replies := w.replies.eraseIdx i } :=
  { h with replies := fun m hm => h.replies m (List.mem_of_mem_eraseIdx hm) }

variable [DecidableEq ι]

theorem WireInv.setClient (h : WireInv w) {x : ι} {cl : ClientProg}
    (hticket : ∀ pid num, cl = .ticket pid num → 0 ≤ num.toInt ∧ 0 ≤ pid.toInt)
    (hserving : ∀ arg, cl = .bakeryService arg → 0 ≤ arg.num.toInt ∧ 0 ≤ arg.pid.toInt) :
    WireInv (w.setClient x cl) := by
  refine { h with ticket := ?_, serving := ?_ }
  · intro y pid num hy
    rcases eq_or_ne y x with rfl | hyx
    · exact hticket pid num (by simpa [Wire.setClient] using hy)
    · exact h.ticket y pid num (by simpa [Wire.setClient, hyx] using hy)
  · intro y arg hy
    rcases eq_or_ne y x with rfl | hyx
    · exact hserving arg (by simpa [Wire.setClient] using hy)
    · exact h.serving y arg (by simpa [Wire.setClient, hyx] using hy)

theorem abs_setClient (w : Wire ι) (x : ι) (cl : ClientProg) :
    (w.setClient x cl).abs =
      { w.abs with client := Function.update w.abs.client x cl.abs } := by
  simp only [Wire.abs, Wire.setClient, Function.comp_update]

omit [DecidableEq ι] in
theorem abs_addCall (w : Wire ι) {m : CallMsg ι} {m' : Message ι} (hm : m.abs = some m') :
    ({ w with calls := w.calls ++ [m] } : Wire ι).abs =
      { w.abs with requests := w.abs.requests ++ [m'] } := by
  simp only [Wire.abs, List.filterMap_append, List.filterMap_cons_some hm, List.filterMap_nil]

theorem netStep_of_fault (h : w.fault = none) (e : Event ι) :
    netStep clock w.abs e = match e with
      | .send x => send w.abs x
      | .execute i fuel => execute clock w.abs i fuel
      | .deliver i => deliver w.abs i
      | .loseRequest i =>
        w.abs.requests[i]?.map fun _ => { w.abs with requests := w.abs.requests.eraseIdx i }
      | .loseReply i =>
        w.abs.replies[i]?.map fun _ => { w.abs with replies := w.abs.replies.eraseIdx i }
      | .expire x => expire w.abs x := by
  have hf : w.abs.fault.isSome = false := by simp [Wire.abs, h]
  cases e <;> simp [netStep, hf]

/-! ## 5. One step -/

omit [DecidableEq ι] in
theorem WireInv.sendGetNumber (h : WireInv w) (x : ι) (arg : Xdr.BAKERY) :
    WireInv (w.call x GET_NUMBER arg) ∧ (w.call x GET_NUMBER arg).abs =
      { w.abs with requests := w.abs.requests ++ [⟨x, .getNumber, ⟨0, 0, 0⟩⟩] } :=
  ⟨h.addCall (.getNumber x arg), abs_addCall w rfl⟩

omit [DecidableEq ι] in
theorem WireInv.sendBakeryService (h : WireInv w) (x : ι) (arg : Xdr.BAKERY)
    (harg : 0 ≤ arg.num.toInt ∧ 0 ≤ arg.pid.toInt) :
    WireInv (w.call x BAKERY_SERVICE arg) ∧ (w.call x BAKERY_SERVICE arg).abs =
      { w.abs with requests := w.abs.requests ++
        [⟨x, .bakeryService, ⟨arg.num.toNatClampNeg, arg.pid.toNatClampNeg, 0⟩⟩] } := by
  refine ⟨h.addCall (.bakeryService x arg harg.1 harg.2), abs_addCall w ?_⟩
  simp only [CallMsg.abs, procedure_BAKERY_SERVICE, xdrBAKERY.decode_encode, Option.map_some]
  rfl

theorem WireInv.send (h : WireInv w) {x : ι} {junk : Xdr.BAKERY}
    (hst : w.send x junk = some w') : WireInv w' ∧ send w.abs x = some w'.abs := by
  have habs : w.abs.client x = (w.client x).abs := rfl
  cases hx : w.client x with
  | fresh =>
    simp only [Wire.send, hx, Option.some.injEq] at hst
    subst hst
    have hset : WireInv (w.setClient x (.getNumber junk)) := h.setClient (by simp) (by simp)
    obtain ⟨hinv, hcall⟩ := hset.sendGetNumber x junk
    refine ⟨hinv, ?_⟩
    rw [hcall, abs_setClient, Bakery2.send, habs, hx]
    rfl
  | getNumber arg =>
    simp only [Wire.send, hx, Option.some.injEq] at hst
    subst hst
    obtain ⟨hinv, hcall⟩ := h.sendGetNumber x arg
    refine ⟨hinv, ?_⟩
    rw [hcall, Bakery2.send, habs, hx]
    rfl
  | ticket pid num =>
    simp only [Wire.send, hx, Option.some.injEq] at hst
    subst hst
    have hsigns := h.ticket x pid num hx
    have hset : WireInv (w.setClient x (.bakeryService { junk with num := num, pid := pid })) :=
      h.setClient (by simp) fun arg harg => ClientProg.bakeryService.inj harg ▸ hsigns
    obtain ⟨hinv, hcall⟩ := hset.sendBakeryService x { junk with num := num, pid := pid } hsigns
    refine ⟨hinv, ?_⟩
    rw [hcall, abs_setClient, Bakery2.send, habs, hx]
    rfl
  | bakeryService arg =>
    simp only [Wire.send, hx, Option.some.injEq] at hst
    subst hst
    obtain ⟨hinv, hcall⟩ := h.sendBakeryService x arg (h.serving x arg hx)
    refine ⟨hinv, ?_⟩
    rw [hcall, Bakery2.send, habs, hx]
    rfl
  | done pid num res => simp [Wire.send, hx] at hst
  | failed => simp [Wire.send, hx] at hst

theorem abs_count (w : Wire ι) (x : ι) {proc : UInt32} {p : Proc} (hp : procedure proc = some p)
    (args : List UInt8) (a : BAKERY) :
    w.abs.count ⟨x, p, a⟩ = w.count ⟨some x, proc, args⟩ := by
  funext y q
  rw [count_apply, Wire.count, hp]
  simp only [Wire.abs, Option.some.injEq, eq_comm]

/-- A call that a stub has written is executed as the request that it is. -/
theorem WireInv.executeCall (h : WireInv w) {i fuel : Nat} {stale : List UInt8} {x : ι}
    {proc : UInt32} {p : Proc} {arg : Xdr.BAKERY} {a : BAKERY}
    (hi : w.calls[i]? = some ⟨some x, proc, xdrBAKERY.encode arg⟩)
    (hp : procedure proc = some p)
    (habs : CallMsg.abs ⟨some x, proc, xdrBAKERY.encode arg⟩ = some ⟨x, p, a⟩)
    (hcall : callLocal clock fuel w.srv p arg = handle clock fuel w.srv ⟨x, p, a⟩)
    (hst : w.execute clock i fuel stale = some w') :
    WireInv w' ∧ ∃ j, execute clock w.abs j fuel = some w'.abs := by
  obtain ⟨j, hj, herase⟩ := filterMap_eraseIdx_of_some hi habs
  have hj' : w.abs.requests[j]? = some ⟨x, p, a⟩ := hj
  rw [Wire.execute, hi, Option.bind_some, bakeryProg1_of_encode hp, hcall, Option.map_map] at hst
  obtain ⟨out, hout, rfl⟩ := Option.map_eq_some_iff.mp hst
  have hout' : handle clock fuel w.abs.srv ⟨x, p, a⟩ = some out := hout
  have hcount := abs_count w x hp (xdrBAKERY.encode arg) a
  cases out with
  | error e =>
    refine ⟨{ h with }, j, ?_⟩
    rw [execute, hj', Option.bind_some, hout', Option.map_some]
    simp only [hcount]
    rfl
  | ok r =>
    obtain ⟨hsmall, hfits⟩ := h.small.handle hout
    have hreply : ReplyMsg.Ok ⟨some x, proc, .success, xdrBAKERY.encode r.1.wire⟩ :=
      .result x hp hfits
    have habs' : ReplyMsg.abs ⟨some x, proc, .success, xdrBAKERY.encode r.1.wire⟩ =
        some ⟨x, p, r.1⟩ := by
      simp only [ReplyMsg.abs, hp, clntRes_result, Option.map_some, ofWire_wire hfits]
    have hbase := (h.addReply hreply).eraseCall i
    refine ⟨⟨hbase.calls, hbase.replies, hsmall, h.ticket, h.serving⟩, j, ?_⟩
    rw [execute, hj', Option.bind_some, hout', Option.map_some]
    simp only [hcount]
    simp only [Wire.abs, Function.comp_apply, Except.map, List.filterMap_append,
      List.filterMap_cons_some habs', List.filterMap_nil, herase]

/-- A call for no procedure changes nothing but the network, and that where nobody looks. -/
theorem WireInv.executeStray (h : WireInv w) {i fuel : Nat} {stale : List UInt8} {proc : UInt32}
    {args : List UInt8} (hi : w.calls[i]? = some ⟨none, proc, args⟩)
    (hproc : procedure proc = none) (hst : w.execute clock i fuel stale = some w') :
    WireInv w' ∧ w'.abs = w.abs := by
  obtain ⟨r, hr⟩ := bakeryProg1_of_none hproc clock fuel w.srv (args ++ stale)
  rw [Wire.execute, hi, Option.bind_some, hr, Option.map_some, Option.some.injEq] at hst
  subst hst
  have hcount : w.count ⟨none, proc, args⟩ = w.executed := by
    funext x p
    simp [Wire.count]
  have hbase := (h.addReply (.stray proc r.1 r.2)).eraseCall i
  refine ⟨⟨hbase.calls, hbase.replies, h.small, h.ticket, h.serving⟩, ?_⟩
  have hcall : CallMsg.abs (⟨none, proc, args⟩ : CallMsg ι) = none := rfl
  have hreply : ReplyMsg.abs (⟨none, proc, r.1, r.2⟩ : ReplyMsg ι) = none := rfl
  simp only [Wire.abs, hcount, filterMap_eraseIdx_of_none hi hcall, List.filterMap_append,
    List.filterMap_cons_none hreply, List.filterMap_nil, List.append_nil]

theorem WireInv.execute (h : WireInv w) {i fuel : Nat} {stale : List UInt8}
    (hst : w.execute clock i fuel stale = some w') :
    WireInv w' ∧ (w'.abs = w.abs ∨ ∃ j, execute clock w.abs j fuel = some w'.abs) := by
  obtain ⟨m, hi, -⟩ := Option.bind_eq_some_iff.mp hst
  cases h.calls m (List.mem_of_getElem? hi) with
  | stray args hproc =>
    obtain ⟨hinv, habs⟩ := h.executeStray hi hproc hst
    exact ⟨hinv, Or.inl habs⟩
  | getNumber x arg =>
    have hcall : callLocal clock fuel w.srv .getNumber arg =
        handle clock fuel w.srv ⟨x, .getNumber, ⟨0, 0, 0⟩⟩ := rfl
    obtain ⟨hinv, hexec⟩ := h.executeCall hi procedure_GET_NUMBER rfl hcall hst
    exact ⟨hinv, Or.inr hexec⟩
  | bakeryService x arg hnum hpid =>
    have hcall : callLocal clock fuel w.srv .bakeryService arg =
        handle clock fuel w.srv ⟨x, .bakeryService, { ofWire arg with res := 0 }⟩ :=
      callLocal_bakeryService hpid x
    have habs : CallMsg.abs ⟨some x, BAKERY_SERVICE, xdrBAKERY.encode arg⟩ =
        some ⟨x, .bakeryService, { ofWire arg with res := 0 }⟩ := by
      simp only [CallMsg.abs, procedure_BAKERY_SERVICE, xdrBAKERY.decode_encode, Option.map_some]
    obtain ⟨hinv, hexec⟩ := h.executeCall hi procedure_BAKERY_SERVICE habs hcall hst
    exact ⟨hinv, Or.inr hexec⟩

/-- What a client receives is not negative. -/
theorem WireInv.receive (h : WireInv w) (x : ι) {proc : UInt32} {r : BAKERY} (hr : r.Fits) :
    WireInv (w.setClient x
      ((w.client x).receive ⟨some x, proc, .success, xdrBAKERY.encode r.wire⟩)) := by
  refine h.setClient ?_ ?_
  · intro pid num hcl
    cases hx : w.client x <;> simp only [hx, ClientProg.receive, clntRes_result] at hcl
    case getNumber arg =>
      split at hcl
      · obtain ⟨rfl, rfl⟩ := ClientProg.ticket.inj hcl
        exact zero_le_wire hr
      · exact absurd hcl (by simp)
    case ticket pid' num' => exact h.ticket x pid num (hx.trans hcl)
    case bakeryService arg => split at hcl <;> exact absurd hcl (by simp)
    all_goals exact absurd hcl (by simp)
  · intro arg hcl
    cases hx : w.client x <;> simp only [hx, ClientProg.receive, clntRes_result] at hcl
    case bakeryService arg' =>
      split at hcl
      · exact absurd hcl (by simp)
      · exact h.serving x arg (hx.trans hcl)
    case getNumber arg' => split at hcl <;> exact absurd hcl (by simp)
    all_goals exact absurd hcl (by simp)

theorem WireInv.deliver (h : WireInv w) {i : Nat} (hst : w.deliver i = some w') :
    WireInv w' ∧ (w'.abs = w.abs ∨ ∃ j, deliver w.abs j = some w'.abs) := by
  obtain ⟨m, hi, rfl⟩ := Option.map_eq_some_iff.mp hst
  cases h.replies m (List.mem_of_getElem? hi) with
  | stray proc stat results =>
    refine ⟨h.eraseReply i, Or.inl ?_⟩
    have hnone : ReplyMsg.abs (⟨none, proc, stat, results⟩ : ReplyMsg ι) = none := rfl
    simp only [Wire.abs, filterMap_eraseIdx_of_none hi hnone]
  | @result x proc p r hp hr =>
    have habs : ReplyMsg.abs ⟨some x, proc, .success, xdrBAKERY.encode r.wire⟩ =
        some ⟨x, p, r⟩ := by
      simp only [ReplyMsg.abs, hp, clntRes_result, Option.map_some, ofWire_wire hr]
    obtain ⟨j, hj, herase⟩ := filterMap_eraseIdx_of_some hi habs
    have hj' : w.abs.replies[j]? = some ⟨x, p, r⟩ := hj
    refine ⟨(h.receive x hr).eraseReply i, Or.inr ⟨j, ?_⟩⟩
    have hcl := receive_abs (w.client x) x (v := r.wire) hp
    rw [ofWire_wire hr] at hcl
    rw [Bakery2.deliver, hj', Option.map_some]
    simp only [Wire.abs, herase, Function.comp_update, hcl, Function.comp_apply]

theorem WireInv.expire (h : WireInv w) {x : ι} (hst : w.expire x = some w') :
    WireInv w' ∧ expire w.abs x = some w'.abs := by
  have habs : w.abs.client x = (w.client x).abs := rfl
  have hset : WireInv (w.setClient x .failed) := h.setClient (by simp) (by simp)
  cases hx : w.client x <;> simp only [Wire.expire, hx, Option.some.injEq, reduceCtorEq] at hst
  all_goals
    subst hst
    refine ⟨hset, ?_⟩
    rw [Bakery2.expire, habs, hx, abs_setClient]
    rfl

/-- **Every step is one of the network without bytes, or none of it**, unless it is a call from
elsewhere for a procedure of the program. -/
theorem WireInv.step (h : WireInv w) {e : WireEvent ι} (he : e.Regular)
    (hst : w.step clock e = some w') :
    WireInv w' ∧ (w'.abs = w.abs ∨ ∃ e, netStep clock w.abs e = some w'.abs) := by
  unfold Wire.step at hst
  split at hst
  · exact absurd hst (by simp)
  rename_i hf
  have hfault : w.fault = none := by simpa using hf
  cases e with
  | send x junk =>
    obtain ⟨hinv, hsend⟩ := h.send hst
    exact ⟨hinv, Or.inr ⟨.send x, (netStep_of_fault hfault _).trans hsend⟩⟩
  | stray proc args =>
    obtain rfl := Option.some.inj hst
    refine ⟨h.addCall (.stray args he), Or.inl ?_⟩
    have hnone : CallMsg.abs (⟨none, proc, args⟩ : CallMsg ι) = none := rfl
    simp only [Wire.abs, List.filterMap_append, List.filterMap_cons_none hnone,
      List.filterMap_nil, List.append_nil]
  | execute i fuel stale =>
    obtain ⟨hinv, habs | ⟨j, hj⟩⟩ := h.execute hst
    · exact ⟨hinv, Or.inl habs⟩
    · exact ⟨hinv, Or.inr ⟨.execute j fuel, (netStep_of_fault hfault _).trans hj⟩⟩
  | deliver i =>
    obtain ⟨hinv, habs | ⟨j, hj⟩⟩ := h.deliver hst
    · exact ⟨hinv, Or.inl habs⟩
    · exact ⟨hinv, Or.inr ⟨.deliver j, (netStep_of_fault hfault _).trans hj⟩⟩
  | loseCall i =>
    obtain ⟨m, hi, rfl⟩ := Option.map_eq_some_iff.mp hst
    refine ⟨h.eraseCall i, ?_⟩
    cases hm : m.abs with
    | none => exact Or.inl (by simp only [Wire.abs, filterMap_eraseIdx_of_none hi hm])
    | some m' =>
      obtain ⟨j, hj, herase⟩ := filterMap_eraseIdx_of_some hi hm
      have hj' : w.abs.requests[j]? = some m' := hj
      refine Or.inr ⟨.loseRequest j, (netStep_of_fault hfault _).trans ?_⟩
      simp only [hj', Option.map_some]
      simp only [Wire.abs, herase]
  | loseReply i =>
    obtain ⟨m, hi, rfl⟩ := Option.map_eq_some_iff.mp hst
    refine ⟨h.eraseReply i, ?_⟩
    cases hm : m.abs with
    | none => exact Or.inl (by simp only [Wire.abs, filterMap_eraseIdx_of_none hi hm])
    | some m' =>
      obtain ⟨j, hj, herase⟩ := filterMap_eraseIdx_of_some hi hm
      have hj' : w.abs.replies[j]? = some m' := hj
      refine Or.inr ⟨.loseReply j, (netStep_of_fault hfault _).trans ?_⟩
      simp only [hj', Option.map_some]
      simp only [Wire.abs, herase]
  | expire x =>
    obtain ⟨hinv, hexp⟩ := h.expire hst
    exact ⟨hinv, Or.inr ⟨.expire x, (netStep_of_fault hfault _).trans hexp⟩⟩

/-! ## 6. Whole runs -/

/-- **The network in bytes is simulated by the one without**, if nobody else calls the procedures
of the program. -/
theorem wire_simulates (clock : Nat → Int) :
    ((wire ι clock).restrict WireEvent.Regular).Simulates (network ι clock)
      fun w s => WireInv w ∧ s = w.abs where
  init := ⟨wireInv_init, rfl⟩
  step := by
    rintro w e w' _ ⟨h, rfl⟩ hst
    obtain ⟨hregular, hst⟩ := Machine.restrict_step_eq_some.mp hst
    obtain ⟨hinv, habs | ⟨e', he⟩⟩ := h.step hregular hst
    · exact Machine.Simulates.of_stutter ⟨hinv, habs.symm⟩
    · exact Machine.Simulates.of_step (N := network ι clock) he ⟨hinv, rfl⟩

theorem reachable_restrict {es : List (WireEvent ι)}
    (hrun : (wire ι clock).run (Wire.init ι) es = some w) (hes : ∀ e ∈ es, e.Regular) :
    ((wire ι clock).restrict WireEvent.Regular).Reachable w :=
  ⟨es, (Machine.run_restrict hes (Wire.init ι)).trans hrun⟩

/-- **What rpcgen's layer adds is nothing.**  In every run in which nobody else calls the procedures
of the program, the server, the executions and the clients are at the end those of a state that
the program reaches over the network without bytes.  No call of a client is refused, whatever
stands behind it in the server's buffer, no stub returns NULL for a reply, and no ticket has a
negative slot or number. -/
theorem wire_refines_network {es : List (WireEvent ι)}
    (hrun : (wire ι clock).run (Wire.init ι) es = some w) (hes : ∀ e ∈ es, e.Regular) :
    (∃ s, (network ι clock).Reachable s ∧ s.srv = w.srv ∧ s.executed = w.executed ∧
        s.fault = w.fault ∧ ∀ x, s.client x = (w.client x).abs) ∧
      (∀ m ∈ w.calls, ∀ x, m.sender = some x → ∀ stale, ¬ Refused m.proc (m.args ++ stale)) ∧
      (∀ m ∈ w.replies, ∀ x, m.receiver = some x → clntRes m ≠ none) ∧
      ∀ x pid num, w.client x = .ticket pid num → 0 ≤ pid.toInt ∧ 0 ≤ num.toInt := by
  obtain ⟨s, hs, h, rfl⟩ := (wire_simulates clock).reachable (reachable_restrict hrun hes)
  refine ⟨⟨w.abs, hs, rfl, rfl, rfl, fun x => rfl⟩, ?_, ?_, ?_⟩
  · intro m hm x hx stale
    cases h.calls m hm with
    | stray args hproc => exact absurd hx (by simp)
    | getNumber y arg => simp [Refused, procedure_GET_NUMBER, xdrBAKERY.decode_append]
    | bakeryService y arg => simp [Refused, procedure_BAKERY_SERVICE, xdrBAKERY.decode_append]
  · intro m hm x hx
    cases h.replies m hm with
    | stray proc stat results => exact absurd hx (by simp)
    | result y hp hr => simp [clntRes_result]
  · intro x pid num hx
    exact (h.ticket x pid num hx).symm

/-- The slot that a client was told. -/
def ClientProg.told : ClientProg → Option Int32
  | .ticket pid _ | .done pid _ _ => some pid
  | .bakeryService arg => some arg.pid
  | _ => none

omit [DecidableEq ι] in
theorem told_abs (cl : ClientProg) : cl.abs.told = cl.told.map Int32.toNatClampNeg := by
  cases cl <;> rfl

/-- **Slots over the wire.**  As long as GET_NUMBER was executed at most 32 times, and nobody else
calls the procedures of the program, no access of the server is outside an array, every slot that
a client was told is one of those handed out, no other client was told it, and the cursor has
moved by one letter for each execution of BAKERY_SERVICE. -/
theorem wire_slots_distinct [Fintype ι] {es : List (WireEvent ι)}
    (hrun : (wire ι clock).run (Wire.init ι) es = some w) (hes : ∀ e ∈ es, e.Regular)
    (hfit : ∑ x, w.executed x .getNumber ≤ 32) :
    w.fault = none ∧ w.srv.c = letter (∑ x, w.executed x .bakeryService) ∧
      ∀ x pid, (w.client x).told = some pid → pid.toNatClampNeg < w.srv.num ∧
        ∀ y, (w.client y).told = some pid → y = x := by
  refine (wire_simulates clock).transfer (N := network ι clock)
    (P := fun w => ∑ x, w.executed x .getNumber ≤ 32 → w.fault = none ∧
      w.srv.c = letter (∑ x, w.executed x .bakeryService) ∧
        ∀ x pid, (w.client x).told = some pid → pid.toNatClampNeg < w.srv.num ∧
          ∀ y, (w.client y).told = some pid → y = x)
    (Q := Within) ?_ (fun s hs => reachable_within hs) (reachable_restrict hrun hes) hfit
  rintro w _ ⟨-, rfl⟩ hwithin hfit
  rcases hwithin with ⟨owner, h⟩ | hgt
  · have htold : ∀ x pid, (w.client x).told = some pid →
        pid.toNatClampNeg < w.srv.num ∧ owner pid.toNatClampNeg = some x := by
      intro x pid hx
      refine h.told x _ ?_
      have habs : w.abs.client x = (w.client x).abs := rfl
      rw [habs, told_abs, hx, Option.map_some]
    refine ⟨h.fault, h.cursor, fun x pid hx => ⟨(htold x pid hx).1, fun y hy => ?_⟩⟩
    exact Option.some.inj ((htold y pid hy).2.symm.trans (htold x pid hx).2)
  · have hle : ∑ x, w.abs.executed x .getNumber ≤ SLOTS := hfit
    exact absurd hgt (Nat.not_lt.mpr hle)

end Simulation

/-- Two clients, each call sent twice; the stacks are full of junk, the buffer of other bytes, and
a call for a procedure that does not exist arrives first. -/
def junkAndStrays : List (WireEvent (Fin 2)) :=
  [.stray 7 [1, 2], .send 0 ⟨-5, 77, -3⟩, .send 0 ⟨0, 0, 0⟩, .send 1 ⟨6, -1, 9⟩,
    .execute 0 1 [9, 9], .execute 0 1 [], .execute 1 1 [3], .deliver 2, .deliver 1,
    .send 1 ⟨0, 0, 120⟩, .execute 1 8 [255], .deliver 1]

theorem junkAndStrays_regular : ∀ e ∈ junkAndStrays, e.Regular := by
  intro e he
  simp only [junkAndStrays, List.mem_cons, List.not_mem_nil, or_false] at he
  rcases he with rfl | rfl | rfl | rfl | rfl | rfl | rfl | rfl | rfl | rfl | rfl | rfl <;> trivial

theorem junkAndStrays_run : ∃ w,
    (wire (Fin 2) secondClock).run (Wire.init (Fin 2)) junkAndStrays = some w ∧
    ∑ x, w.executed x .getNumber ≤ 32 ∧ w.client 0 = .ticket 0 1 ∧ w.client 1 = .done 1 2 97 := by
  have hrun : ((wire (Fin 2) secondClock).run (Wire.init (Fin 2)) junkAndStrays).map
      (fun w => (w.executed 0 .getNumber, w.executed 1 .getNumber, w.client 0, w.client 1)) =
        some (1, 1, .ticket 0 1, .done 1 2 97) := by decide +kernel
  obtain ⟨w, hw, h⟩ := Option.map_eq_some_iff.mp hrun
  simp only [Prod.mk.injEq] at h
  obtain ⟨h0, h1, hx, hy⟩ := h
  exact ⟨w, hw, by simp [Fin.sum_univ_two, h0, h1], hx, hy⟩

theorem wire_refines_network_junkAndStrays : ∃ w,
    (wire (Fin 2) secondClock).run (Wire.init (Fin 2)) junkAndStrays = some w ∧
    w.client 1 = .done 1 2 97 ∧
      ∃ s, (network (Fin 2) secondClock).Reachable s ∧ s.client 1 = .done 1 2 97 := by
  obtain ⟨w, hw, -, -, hy⟩ := junkAndStrays_run
  obtain ⟨⟨s, hs, -, -, -, hcl⟩, -⟩ := wire_refines_network hw junkAndStrays_regular
  refine ⟨w, hw, hy, s, hs, ?_⟩
  rw [hcl 1, hy]
  decide

theorem wire_slots_distinct_junkAndStrays : ∃ w,
    (wire (Fin 2) secondClock).run (Wire.init (Fin 2)) junkAndStrays = some w ∧
    w.client 0 = .ticket 0 1 ∧ (w.client 1).told = some 1 ∧ (1 : Int32).toNatClampNeg < w.srv.num ∧
      ∀ y, (w.client y).told = some 1 → y = 1 := by
  obtain ⟨w, hw, hfit, hx, hy⟩ := junkAndStrays_run
  have htold : (w.client 1).told = some 1 := by rw [hy]; rfl
  obtain ⟨-, -, hslots⟩ := wire_slots_distinct hw junkAndStrays_regular hfit
  obtain ⟨hlt, huniq⟩ := hslots 1 1 htold
  exact ⟨w, hw, hx, htold, hlt, huniq⟩

end OsLabs.Bakery2
