/-
# bakery1: the multi-threaded bakery server as a labelled machine

`3/proc/bakery1/bakery_server.c` gives each client a number larger than all numbers in use, and
serves the smallest one first: it keeps the numbers in two arrays of 32 `int`s, and one cursor
`c` goes over the letters.  A client calls GET_NUMBER, BAKERY_WAIT and BAKERY_SERVICE, each
call after the reply to the one before (`bakery_client.c`); `svc_run` executes one call at a
time, and every BAKERY_WAIT creates a thread that runs `bakery_service`.

The machine below interleaves the dispatcher and the threads at single accesses to
`choosing[]`, `number[]` and `c`, in the order in which the C statements perform them:

* `Action.request x`: the dispatcher takes up the next request of client `x`;
* `Action.server`: the dispatcher performs the next access of the handler it is in;
* `Action.thread k`: the thread created for slot `k` performs its next access.

Accesses to `attr`, `thr` and `res` are merged with their neighbours: the dispatcher writes
`res[k].pid` and `res[k].num` before it creates the thread, and reads `res[k].res` after it
joined it.  Every array access is checked against the array's 32 entries; an access outside
them sets `fault`, after which the machine has no step.  The pthread calls succeed; the
branches that report their failure and call `exit` are not modelled, and neither is `sleep`.
The counters stay far below the range of `int` as long as no access faults, so they are `Nat`.
-/
import Mathlib.Logic.Function.Basic
import OsLabs.Bakery.Letters
import OsLabs.Lib.Machine

namespace OsLabs.Bakery1

open Bakery

/-- `struct thread_arg`. -/
structure ThreadArg where
  pid : Nat
  num : Nat
  res : Nat
deriving DecidableEq, Repr

/-- The next access of a `bakery_service` thread.  The arguments are the operands already
read for the comparison or the assignment in progress. -/
inductive Pc
  /-- `int i = targ->pid` -/
  | entry
  /-- `while (choosing[j]) {}` -/
  | choosing
  /-- `number[j] != 0` -/
  | nonzero
  /-- the left operand of `number[j] < number[i]` -/
  | less
  /-- its right operand -/
  | lessThan (a : Nat)
  /-- the left operand of `number[j] == number[i]` -/
  | equal
  /-- its right operand, then `j < i` -/
  | equalTo (a : Nat)
  /-- the read of `c` in `targ->res = c++` -/
  | take
  /-- its write of `c` -/
  | bump (v : Nat)
  /-- its write of `targ->res` -/
  | hand (v : Nat)
  /-- `c > 'z'` -/
  | test
  /-- `c = 'a'` -/
  | wrap
  /-- the `printf` -/
  | print
  /-- `number[i] = 0` -/
  | clear
  | done
deriving DecidableEq, Repr

/-- The locals and the position of one thread. -/
structure Thread where
  i : Nat
  j : Nat
  pc : Pc
deriving DecidableEq, Repr

/-- The next access of `get_number_1_svc`. -/
inductive GetPc
  /-- `choosing[ind] = 1` -/
  | choose
  /-- `number[i] > max` -/
  | test (i : Nat)
  /-- `max = number[i]`, which reads `number[i]` a second time -/
  | assign (i : Nat)
  /-- `number[ind] = max + 1` -/
  | store
  /-- `argp->num = number[ind]` -/
  | argNum
  /-- `choosing[ind] = 0` -/
  | unchoose
  /-- `result.num = number[ind]`, and the reply -/
  | reply
deriving DecidableEq, Repr

/-- The next step of `bakery_wait_1_svc`. -/
inductive WaitPc
  /-- `pthread_attr_init(&attr[argp->pid])` -/
  | attrInit
  /-- the two stores into `res[argp->pid]` -/
  | args
  /-- `pthread_create`, and the reply -/
  | create
deriving DecidableEq, Repr

/-- The next step of `bakery_service_1_svc`. -/
inductive ServicePc
  /-- `pthread_attr_destroy(&attr[argp->pid])` -/
  | attrDestroy
  /-- `pthread_join(thr[argp->pid], NULL)`, the read of `res[argp->pid].res`, and the reply -/
  | join
deriving DecidableEq, Repr

/-- What the only thread of `svc_run` is doing, and for which client. -/
inductive Dispatcher (ι : Type)
  | idle
  | getNumber (x : ι) (ind max : Nat) (pc : GetPc)
  | wait (x : ι) (pid num : Nat) (pc : WaitPc)
  | service (x : ι) (pid num : Nat) (pc : ServicePc)
deriving DecidableEq, Repr

/-- Which replies a client has received: none, the one to GET_NUMBER, the one to BAKERY_WAIT,
or the one to BAKERY_SERVICE with its letter. -/
inductive Client
  | fresh
  | ticket (pid num : Nat)
  | waiting (pid num : Nat)
  | served (pid num res : Nat)
deriving DecidableEq, Repr

structure State (ι : Type) where
  choosing : Nat → Nat
  number : Nat → Nat
  num : Nat
  c : Nat
  res : Nat → ThreadArg
  /-- the thread whose id is stored in `thr[k]` -/
  thr : Nat → Option Thread
  disp : Dispatcher ι
  client : ι → Client
  /-- the lines the threads have printed: slot, number and letter -/
  printed : List (Nat × Nat × Nat)
  fault : Option (Arr × Nat)

inductive Action (ι : Type)
  | request (x : ι)
  | server
  | thread (k : Nat)
deriving DecidableEq, Repr

/-- The server as it is started, and clients that have not called it yet. -/
def init (ι : Type) : State ι where
  choosing := fun _ => 0
  number := fun _ => 0
  num := 0
  c := letterA
  res := fun _ => ⟨0, 0, 0⟩
  thr := fun _ => none
  disp := .idle
  client := fun _ => .fresh
  printed := []
  fault := none

section Steps

variable {ι : Type} [DecidableEq ι]

/-- Go on with `s'` if entry `i` of the array `arr` exists. -/
def State.access (s : State ι) (arr : Arr) (i : Nat) (s' : State ι) : State ι :=
  if i < SLOTS then s' else { s with fault := some (arr, i) }

def State.setThread (s : State ι) (k : Nat) (t : Thread) : State ι :=
  { s with thr := Function.update s.thr k (some t) }

def State.setClient (s : State ι) (x : ι) (cl : Client) : State ι :=
  { s with client := Function.update s.client x cl }

/-- The dispatcher takes up the next request of `x`.  `int ind = num++` is executed here:
`num` belongs to the dispatcher alone. -/
def request (s : State ι) (x : ι) : Option (State ι) :=
  match s.disp, s.client x with
  | .idle, .fresh => some { s with num := s.num + 1, disp := .getNumber x s.num 0 .choose }
  | .idle, .ticket pid num => some { s with disp := .wait x pid num .attrInit }
  | .idle, .waiting pid num => some { s with disp := .service x pid num .attrDestroy }
  | _, _ => none

/-- The head of the loop over `i`: `i < 32` after `i++`. -/
def scanNext (i : Nat) : GetPc := if i < SLOTS then .test i else .store

/-- The next access of `get_number_1_svc`. -/
def getNumberStep (s : State ι) (x : ι) (ind max : Nat) : GetPc → State ι
  | .choose =>
    s.access .choosing ind
      { s with choosing := Function.update s.choosing ind 1
               disp := .getNumber x ind max (scanNext 0) }
  | .test i =>
    s.access .number i
      { s with disp := .getNumber x ind max
                 (if s.number i > max then .assign i else scanNext (i + 1)) }
  | .assign i =>
    s.access .number i { s with disp := .getNumber x ind (s.number i) (scanNext (i + 1)) }
  | .store =>
    s.access .number ind
      { s with number := Function.update s.number ind (max + 1)
               disp := .getNumber x ind max .argNum }
  | .argNum => s.access .number ind { s with disp := .getNumber x ind max .unchoose }
  | .unchoose =>
    s.access .choosing ind
      { s with choosing := Function.update s.choosing ind 0
               disp := .getNumber x ind max .reply }
  | .reply =>
    s.access .number ind
      ({ s with disp := .idle }.setClient x (.ticket ind (s.number ind)))

/-- The next step of `bakery_wait_1_svc`. -/
def waitStep (s : State ι) (x : ι) (pid num : Nat) : WaitPc → State ι
  | .attrInit => s.access .attr pid { s with disp := .wait x pid num .args }
  | .args =>
    s.access .res pid
      { s with res := Function.update s.res pid { s.res pid with pid := pid, num := num }
               disp := .wait x pid num .create }
  | .create =>
    s.access .thr pid
      (({ s with disp := .idle }.setThread pid ⟨0, 0, .entry⟩).setClient x (.waiting pid num))

/-- The next step of `bakery_service_1_svc`; the join is enabled once the thread has ended. -/
def serviceStep (s : State ι) (x : ι) (pid num : Nat) : ServicePc → Option (State ι)
  | .attrDestroy => some (s.access .attr pid { s with disp := .service x pid num .join })
  | .join =>
    match s.thr pid with
    | some ⟨_, _, .done⟩ =>
      some (s.access .res pid
        ({ s with disp := .idle }.setClient x (.served pid num (s.res pid).res)))
    | _ => none

/-- The next access of the dispatcher. -/
def serverStep (s : State ι) : Option (State ι) :=
  match s.disp with
  | .idle => none
  | .getNumber x ind max pc => some (getNumberStep s x ind max pc)
  | .wait x pid num pc => some (waitStep s x pid num pc)
  | .service x pid num pc => serviceStep s x pid num pc

/-- The head of the loop over `j`: `j < 32` after `j++`. -/
def Thread.next (t : Thread) : Thread :=
  if t.j + 1 < SLOTS then { t with j := t.j + 1, pc := .choosing } else { t with pc := .take }

/-- The next access of the thread whose argument is `&res[k]`. -/
def threadStep (s : State ι) (k : Nat) (t : Thread) : Option (State ι) :=
  match t.pc with
  | .entry => some (s.access .res k (s.setThread k ⟨(s.res k).pid, 0, .choosing⟩))
  | .choosing =>
    some (s.access .choosing t.j
      (s.setThread k { t with pc := if s.choosing t.j ≠ 0 then .choosing else .nonzero }))
  | .nonzero =>
    some (s.access .number t.j
      (s.setThread k (if s.number t.j ≠ 0 then { t with pc := .less } else t.next)))
  | .less => some (s.access .number t.j (s.setThread k { t with pc := .lessThan (s.number t.j) }))
  | .lessThan a =>
    some (s.access .number t.i
      (s.setThread k { t with pc := if a < s.number t.i then .nonzero else .equal }))
  | .equal =>
    some (s.access .number t.j (s.setThread k { t with pc := .equalTo (s.number t.j) }))
  | .equalTo a =>
    some (s.access .number t.i
      (s.setThread k
        (if a = s.number t.i ∧ t.j < t.i then { t with pc := .nonzero } else t.next)))
  | .take => some (s.setThread k { t with pc := .bump s.c })
  | .bump v => some ({ s with c := v + 1 }.setThread k { t with pc := .hand v })
  | .hand v =>
    some (s.access .res k
      ({ s with res := Function.update s.res k { s.res k with res := v } }.setThread k
        { t with pc := .test }))
  | .test => some (s.setThread k { t with pc := if s.c > letterZ then .wrap else .print })
  | .wrap => some ({ s with c := letterA }.setThread k { t with pc := .print })
  | .print =>
    some (s.access .res k
      ({ s with printed := s.printed ++
                  [((s.res k).pid, (s.res k).num, (s.res k).res)] }.setThread k
        { t with pc := .clear }))
  | .clear =>
    some (s.access .number t.i
      ({ s with number := Function.update s.number t.i 0 }.setThread k { t with pc := .done }))
  | .done => none

/-- One atomic step of the server and its clients. -/
def step (s : State ι) (a : Action ι) : Option (State ι) :=
  if s.fault.isSome then none else
  match a with
  | .request x => request s x
  | .server => serverStep s
  | .thread k => (s.thr k).bind (threadStep s k)

end Steps

/-- The server with the clients `ι`. -/
def server (ι : Type) [DecidableEq ι] : Machine (State ι) (Action ι) where
  init := init ι
  step := step

end OsLabs.Bakery1
