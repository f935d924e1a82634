/-
# bakery2: clients that call the server directly

The clients of `bakery_client.c` without the network between: each calls GET_NUMBER and, after
the reply, BAKERY_SERVICE with the slot and the number it was given, and the server executes one
call at a time.  A call is one step; an access outside the arrays sets `fault` and ends the run.
-/
import OsLabs.Bakery2.Model

namespace OsLabs.Bakery2

open Bakery

/-- Which replies a client has received: none, its ticket, or its letter. -/
inductive Caller
  | fresh
  | ticket (pid num : Nat)
  | served (pid num res : Nat)
deriving DecidableEq, Repr

structure Calls (ι : Type) where
  srv : Server
  client : ι → Caller
  fault : Option (Arr × Nat)

/-- The next call of client `client`; `fuel` bounds the iterations of a waiting loop. -/
structure Call (ι : Type) where
  client : ι
  fuel : Nat

def Calls.init (ι : Type) : Calls ι where
  srv := Server.init
  client := fun _ => .fresh
  fault := none

section Steps

variable {ι : Type} [DecidableEq ι]

/-- What the reply makes of the client and the server, or the fault that there is none. -/
def Calls.finish (s : Calls ι) (x : ι) (f : BAKERY → Caller) :
    Except (Arr × Nat) (BAKERY × Server) → Calls ι
  | .ok (r, srv) => { s with srv := srv, client := Function.update s.client x (f r) }
  | .error e => { s with fault := some e }

def callStep (clock : Nat → Int) (s : Calls ι) (a : Call ι) : Option (Calls ι) :=
  if s.fault.isSome then none else
  match s.client a.client with
  | .fresh => some (s.finish a.client (fun r => .ticket r.pid r.num) (getNumber1Svc s.srv))
  | .ticket pid num =>
    (bakeryService1Svc clock a.fuel s.srv ⟨num, pid, 0⟩).map
      (s.finish a.client (fun r => .served pid num r.res))
  | .served _ _ _ => none

/-- The server and the clients `ι`, with the readings of the processor clock given. -/
def server (ι : Type) [DecidableEq ι] (clock : Nat → Int) : Machine (Calls ι) (Call ι) where
  init := Calls.init ι
  step := callStep clock

end Steps

/-! ## 1. What a call does -/

section Calls

variable {ι : Type} [DecidableEq ι] {clock : Nat → Int} {s s' : Calls ι} {a : Call ι}

/-- **A step is one call, to its reply**: a GET_NUMBER while there are slots, a GET_NUMBER when
there are none, or a BAKERY_SERVICE (of a slot that exists, or not). -/
theorem callStep_cases (h : callStep clock s a = some s') :
    s.fault = none ∧
      ((s.client a.client = .fresh ∧ s.srv.num < SLOTS ∧
          s' = { s with
            srv := { s.srv with
              num := s.srv.num + 1, choosing := Function.update s.srv.choosing s.srv.num 0
              number := Function.update s.srv.number s.srv.num (scan s.srv.number + 1) }
            client := Function.update s.client a.client
              (.ticket s.srv.num (scan s.srv.number + 1)) }) ∨
        (s.client a.client = .fresh ∧ ¬ s.srv.num < SLOTS ∧
          s' = { s with fault := some (.choosing, s.srv.num) }) ∨
        ∃ pid num, s.client a.client = .ticket pid num ∧
          ((pid < SLOTS ∧ ∃ tick, s' = { s with
              srv := { s.srv with
                c := if s.srv.c + 1 > letterZ then letterA else s.srv.c + 1
                printed := s.srv.printed ++ [(pid, num, s.srv.c)], tick := tick
                number := Function.update s.srv.number pid 0 }
              client := Function.update s.client a.client (.served pid num s.srv.c) }) ∨
            (¬ pid < SLOTS ∧ s' = { s with fault := some (.number, pid) }))) := by
  unfold callStep at h
  split at h
  · simp at h
  rename_i hf
  refine ⟨by simpa using hf, ?_⟩
  split at h
  · rename_i hx
    rw [Option.some.injEq] at h
    by_cases hlt : s.srv.num < SLOTS
    · rw [getNumber1Svc_of_lt hlt] at h
      exact Or.inl ⟨hx, hlt, h.symm⟩
    · rw [getNumber1Svc_of_ge hlt] at h
      exact Or.inr (Or.inl ⟨hx, hlt, h.symm⟩)
  · rename_i pid num hx
    obtain ⟨out, hout, h⟩ := Option.map_eq_some_iff.mp h
    refine Or.inr (Or.inr ⟨pid, num, hx, ?_⟩)
    cases out with
    | ok out =>
      obtain ⟨tick, hpid, hr, hsrv⟩ := bakeryService1Svc_eq_some hout
      obtain ⟨r, srv⟩ := out
      subst hr hsrv h
      exact Or.inl ⟨hpid, tick, rfl⟩
    | error e =>
      obtain ⟨hpid, he⟩ := bakeryService1Svc_error hout
      exact Or.inr ⟨hpid, he ▸ h.symm⟩
  · simp at h

/-- The slot a client was told. -/
def Caller.slot : Caller → Option Nat
  | .fresh => none
  | .ticket pid _ | .served pid _ _ => some pid

/-- Slot `k` was handed out to client `x`. -/
def Calls.Holds (s : Calls ι) (x : ι) (k : Nat) : Prop := (s.client x).slot = some k

end Calls

end OsLabs.Bakery2
