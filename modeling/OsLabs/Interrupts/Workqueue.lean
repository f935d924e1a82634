/-
# The workqueue module: its interrupt handler, its two works and their queues

The steps of `mywq_init`, of `mywq_exit`, of the interrupt handler and of the two workers, in
any order.  The work functions read `code` from the work each time that they name it; the two
arguments of one `printk` may be read in either order.

As in the tasklet module the handler is registered first and `free_irq` comes late: after both
queues are destroyed.  `safe_iff` gives the exact condition on the steps of a run, and the last
section puts both modules together.

`queue_work` does nothing with a work that is pending.  A worker clears the mark before it calls
the function.  `flush_workqueue` waits for the works that were queued or running when it was
called, `destroy_workqueue` until the queue is empty, `free_irq` for a running handler.  A use of
an object that is not there has no next state.
-/
import OsLabs.Interrupts.Tasklet

namespace OsLabs.Workqueue

open OsLabs

/-! ## 1. The module -/

/-- The next step of `mywq_fun_1`: a read of `code` for the test; of the two reads for the index of
the name and for the number, the first, or the one that is left; a read for the number alone; the
output of what was read, and the return. -/
inductive Fun1
  | test
  | args
  | number (name : Nat)
  | index (code : Nat)
  | code
  | printk (name : Option Nat) (code : Nat)
deriving DecidableEq, Repr

/-- The next step of `mywq_fun_2`: the end of `msleep`, the read of `code`, and its output and
the return. -/
inductive Fun2
  | sleep
  | code
  | printk (code : Nat)
deriving DecidableEq, Repr

/-- A work: its memory, its code, its pending mark, the function that runs for it, and how many
of its runs a flush still waits for. -/
structure Work (ρ : Type) where
  obj : Obj
  code : Nat
  pending : Bool
  run : Option ρ
  awaited : Nat
deriving DecidableEq

/-- The next step of `mywq_init` or `mywq_exit`. -/
inductive Pc
  | requestIrq
  | allocWq1
  | allocWq2
  | kmallocWork1
  | initWork1
  | kmallocWork2
  | initWork2
  | procCreate
  | procMkdir
  | procSymlink
  | loaded
  | procRemove
  | flush1
  | flushWait1
  | flush2
  | flushWait2
  | destroy1
  | destroy2
  | freeIrq
  | kfreeWork1
  | kfreeWork2
  | exited
  | initFailed
  | work2Failed
  | work2FailedKfree
  | failed
deriving DecidableEq, Repr

/-- The next step of `my_irq_handler`. -/
inductive Handler
  | setCode1 (code : Nat)
  | setCode2 (code : Nat)
  | queue1
  | queue2
  | ret
deriving DecidableEq, Repr

/-- `codes` are those that `inb` has read; `printed1` and `printed2` what the work functions have
printed: the index of the name, if there is one, and the code. -/
structure State where
  pc : Pc
  registered : Bool
  mywq1 : Obj
  mywq2 : Obj
  work_1 : Work Fun1
  work_2 : Work Fun2
  handler : Option Handler
  proc_dir : Bool
  codes : List Nat
  printed1 : List (Option Nat × Nat)
  printed2 : List Nat
deriving DecidableEq

/-- A step: of `mywq_init` or `mywq_exit`, with the success of the call in it; the start of
`mywq_exit`; an interrupt with the code that `inb` reads; a step of the handler; of a worker, which
for the first one may be the read of the number before the index. -/
inductive Act
  | next (ok : Bool)
  | exit
  | irq (code : Nat)
  | handler
  | worker1
  | numberFirst
  | worker2
deriving DecidableEq, Repr

namespace Work

variable {ρ : Type}

/-- Neither queued nor running. -/
def Idle (w : Work ρ) : Prop := w.pending = false ∧ w.run = none

instance (w : Work ρ) [DecidableEq ρ] : Decidable w.Idle := inferInstanceAs (Decidable (_ ∧ _))

/-- `queue_work` -/
def queue (w : Work ρ) : Work ρ := { w with pending := true }

/-- The worker takes the work from its queue. -/
def start (w : Work ρ) (f : ρ) : Option (Work ρ) :=
  if w.pending then some { w with pending := false, run := some f } else none

/-- The function returns. -/
def finish (w : Work ρ) : Work ρ := { w with run := none, awaited := w.awaited - 1 }

/-- A flush waits for what is running and what is queued. -/
def await (w : Work ρ) : Work ρ := { w with awaited := w.run.isSome.toNat + w.pending.toNat }

end Work

/-- `mywq_init` and `mywq_exit`. -/
def State.next (s : State) (ok : Bool) : Option State :=
  match s.pc with
  | .requestIrq =>
    some (if ok then { s with pc := .allocWq1, registered := true } else { s with pc := .failed })
  | .allocWq1 =>
    some (if ok then { s with pc := .allocWq2, mywq1 := .ready } else { s with pc := .initFailed })
  | .allocWq2 =>
    some (if ok then { s with pc := .kmallocWork1, mywq2 := .ready }
      else { s with pc := .initFailed })
  | .kmallocWork1 =>
    some (if ok then { s with pc := .initWork1, work_1 := { s.work_1 with obj := .allocated } }
      else { s with pc := .initFailed })
  | .initWork1 => some { s with pc := .kmallocWork2, work_1 := { s.work_1 with obj := .ready } }
  | .kmallocWork2 =>
    some (if ok then { s with pc := .initWork2, work_2 := { s.work_2 with obj := .allocated } }
      else { s with pc := .work2Failed })
  | .initWork2 => some { s with pc := .procCreate, work_2 := { s.work_2 with obj := .ready } }
  | .procCreate => some (if ok then { s with pc := .procMkdir } else { s with pc := .failed })
  | .procMkdir => some { s with pc := .procSymlink, proc_dir := ok }
  | .procSymlink =>
    some (if s.proc_dir && ok then { s with pc := .loaded } else { s with pc := .failed })
  | .loaded => none
  | .procRemove => some { s with pc := .flush1 }
  | .flush1 => some { s with pc := .flushWait1, work_1 := s.work_1.await }
  | .flushWait1 => if s.work_1.awaited = 0 then some { s with pc := .flush2 } else none
  | .flush2 => some { s with pc := .flushWait2, work_2 := s.work_2.await }
  | .flushWait2 => if s.work_2.awaited = 0 then some { s with pc := .destroy1 } else none
  | .destroy1 =>
    if s.work_1.Idle then some { s with pc := .destroy2, mywq1 := .freed } else none
  | .destroy2 =>
    if s.work_2.Idle then some { s with pc := .freeIrq, mywq2 := .freed } else none
  | .freeIrq =>
    if s.handler = none then some { s with pc := .kfreeWork1, registered := false } else none
  | .kfreeWork1 => some { s with pc := .kfreeWork2, work_1 := { s.work_1 with obj := .freed } }
  | .kfreeWork2 => some { s with pc := .exited, work_2 := { s.work_2 with obj := .freed } }
  | .exited => none
  | .initFailed =>
    if s.handler = none then some { s with pc := .failed, registered := false } else none
  | .work2Failed =>
    if s.handler = none then some { s with pc := .work2FailedKfree, registered := false } else none
  | .work2FailedKfree => some { s with pc := .failed, work_1 := { s.work_1 with obj := .freed } }
  | .failed => none

/-- `my_irq_handler` after its start. -/
def State.handlerStep (s : State) : Handler → Option State
  | .setCode1 code =>
    if s.work_1.obj = .ready then
      some { s with work_1 := { s.work_1 with code := code }, handler := some (.setCode2 code) }
    else none
  | .setCode2 code =>
    if s.work_2.obj = .ready then
      some { s with work_2 := { s.work_2 with code := code }, handler := some .queue1 }
    else none
  | .queue1 =>
    if s.mywq1 = .ready ∧ s.work_1.obj = .ready then
      some { s with work_1 := s.work_1.queue, handler := some .queue2 }
    else none
  | .queue2 =>
    if s.mywq2 = .ready ∧ s.work_2.obj = .ready then
      some { s with work_2 := s.work_2.queue, handler := some .ret }
    else none
  | .ret => some { s with handler := none }

/-- The number of names. -/
def ASCII_SIZE : Nat := 84

/-- A step of the first queue's worker. -/
def State.worker1 (s : State) : Option State :=
  if s.mywq1 = .ready ∧ s.work_1.obj = .ready then
    match s.work_1.run with
    | none => (s.work_1.start .test).map fun w => { s with work_1 := w }
    | some .test =>
      some { s with work_1 :=
        { s.work_1 with run := some (if s.work_1.code < ASCII_SIZE then .args else .code) } }
    | some .args => some { s with work_1 := { s.work_1 with run := some (.number s.work_1.code) } }
    | some (.number name) =>
      some { s with work_1 := { s.work_1 with run := some (.printk (some name) s.work_1.code) } }
    | some (.index code) =>
      some { s with work_1 := { s.work_1 with run := some (.printk (some s.work_1.code) code) } }
    | some .code =>
      some { s with work_1 := { s.work_1 with run := some (.printk none s.work_1.code) } }
    | some (.printk name code) =>
      some { s with work_1 := s.work_1.finish, printed1 := s.printed1 ++ [(name, code)] }
  else none

/-- The first queue's worker reads the number before the index. -/
def State.numberFirst (s : State) : Option State :=
  if s.mywq1 = .ready ∧ s.work_1.obj = .ready ∧ s.work_1.run = some .args then
    some { s with work_1 := { s.work_1 with run := some (.index s.work_1.code) } }
  else none

/-- A step of the second queue's worker. -/
def State.worker2 (s : State) : Option State :=
  if s.mywq2 = .ready ∧ s.work_2.obj = .ready then
    match s.work_2.run with
    | none => (s.work_2.start .sleep).map fun w => { s with work_2 := w }
    | some .sleep => some { s with work_2 := { s.work_2 with run := some .code } }
    | some .code => some { s with work_2 := { s.work_2 with run := some (.printk s.work_2.code) } }
    | some (.printk code) =>
      some { s with work_2 := s.work_2.finish, printed2 := s.printed2 ++ [code] }
  else none

/-- Before `mywq_init`. -/
def start : State :=
  ⟨.requestIrq, false, .null, .null, ⟨.null, 0, false, none, 0⟩, ⟨.null, 0, false, none, 0⟩, none,
    false, [], [], []⟩

def module : Machine State Act where
  init := start
  step s
    | .next ok => s.next ok
    | .exit => if s.pc = .loaded then some { s with pc := .procRemove } else none
    | .irq code =>
      if s.registered = true ∧ s.handler = none then
        some { s with handler := some (.setCode1 code), codes := s.codes ++ [code] }
      else none
    | .handler => s.handler.bind s.handlerStep
    | .worker1 => s.worker1
    | .numberFirst => s.numberFirst
    | .worker2 => s.worker2

/-! ## 2. The condition -/

/-- Everything that the handler uses is there. -/
structure AllReady (s : State) : Prop where
  mywq1 : s.mywq1 = .ready
  mywq2 : s.mywq2 = .ready
  work_1 : s.work_1.obj = .ready
  work_2 : s.work_2.obj = .ready

/-- The handler runs only with the works and their queues ready, and when the module is gone it
is not registered and no work is queued or runs. -/
structure Safe (s : State) : Prop where
  ready : s.handler ≠ none → AllReady s
  ended : s.pc = .failed ∨ s.pc = .exited →
    s.registered = false ∧ s.work_1.Idle ∧ s.work_2.Idle

/-- Before everything is ready, while it is, and after. -/
inductive Stage
  | before
  | live
  | after
deriving DecidableEq

def Pc.stage : Pc → Stage
  | .requestIrq => .before
  | .allocWq1 => .before
  | .allocWq2 => .before
  | .kmallocWork1 => .before
  | .initWork1 => .before
  | .kmallocWork2 => .before
  | .initWork2 => .before
  | .initFailed => .before
  | .work2Failed => .before
  | .work2FailedKfree => .before
  | .failed => .before
  | .destroy2 => .after
  | .freeIrq => .after
  | .kfreeWork1 => .after
  | .kfreeWork2 => .after
  | .exited => .after
  | _ => .live

/-- The condition on a step: an interrupt comes after the last `INIT_WORK` and before the first
`destroy_workqueue`, the registrations under /proc do not fail, and the first queue is not
destroyed under the handler. -/
def Meets (s : State) : Act → Prop
  | .irq _ => s.pc.stage = .live
  | .next ok =>
    match s.pc with
    | .procCreate => ok = true
    | .procSymlink => s.proc_dir = true ∧ ok = true
    | .destroy1 => s.handler = none
    | _ => True
  | _ => True

/-- From the end of `request_irq` to that of `free_irq`. -/
def Pc.armed : Pc → Bool
  | .requestIrq => false
  | .kfreeWork1 => false
  | .kfreeWork2 => false
  | .exited => false
  | .work2FailedKfree => false
  | .failed => false
  | _ => true

/-- What `mywq_init` has made so far. -/
def Built (s : State) : Prop :=
  match s.pc with
  | .allocWq2 => s.mywq1 = .ready
  | .kmallocWork1 => s.mywq1 = .ready ∧ s.mywq2 = .ready
  | .initWork1 => s.mywq1 = .ready ∧ s.mywq2 = .ready
  | .kmallocWork2 => (s.mywq1 = .ready ∧ s.mywq2 = .ready) ∧ s.work_1.obj = .ready
  | .initWork2 => (s.mywq1 = .ready ∧ s.mywq2 = .ready) ∧ s.work_1.obj = .ready
  | _ => True

/-- Nothing happens: no handler runs, and the works are idle. -/
structure Quiet (s : State) : Prop where
  handler : s.handler = none
  work_1 : s.work_1.Idle
  work_2 : s.work_2.Idle

/-- What the steps that meet the condition keep. -/
structure Inv (s : State) : Prop where
  registered : s.registered = s.pc.armed
  before : s.pc.stage = .before → s.work_2.obj ≠ .ready ∧ Built s ∧ Quiet s
  live : s.pc.stage = .live → AllReady s
  after : s.pc.stage = .after → s.mywq1 ≠ .ready ∧ s.handler = none ∧ s.work_1.Idle ∧
    (s.pc ≠ .destroy2 → s.work_2.Idle)

variable {s s' : State} {ok : Bool}

theorem Inv.of_before (hs : s.pc.stage = .before) (hreg : s.registered = s.pc.armed)
    (hobj : s.work_2.obj ≠ .ready) (hb : Built s) (hq : Quiet s) : Inv s where
  registered := hreg
  before _ := ⟨hobj, hb, hq⟩
  live h := by simp [hs] at h
  after h := by simp [hs] at h

theorem Inv.of_live (hs : s.pc.stage = .live) (hreg : s.registered = s.pc.armed)
    (hall : AllReady s) : Inv s where
  registered := hreg
  before h := by simp [hs] at h
  live _ := hall
  after h := by simp [hs] at h

theorem Inv.of_after (hs : s.pc.stage = .after) (hreg : s.registered = s.pc.armed)
    (hobj : s.mywq1 ≠ .ready) (hh : s.handler = none) (h1 : s.work_1.Idle)
    (h2 : s.pc ≠ .destroy2 → s.work_2.Idle) : Inv s where
  registered := hreg
  before h := by simp [hs] at h
  live h := by simp [hs] at h
  after _ := ⟨hobj, hh, h1, h2⟩

theorem Inv.live_of_allReady (h : Inv s) (hall : AllReady s) : s.pc.stage = .live := by
  cases hs : s.pc.stage with
  | before => exact absurd hall.work_2 (h.before hs).1
  | live => rfl
  | after => exact absurd hall.mywq1 (h.after hs).1

theorem Inv.safe (h : Inv s) : Safe s where
  ready hne := by
    cases hs : s.pc.stage with
    | before => exact absurd (h.before hs).2.2.handler hne
    | live => exact h.live hs
    | after => exact absurd (h.after hs).2.1 hne
  ended := by
    rintro (hpc | hpc)
    · obtain ⟨-, -, hq⟩ := h.before (by rw [hpc]; rfl)
      exact ⟨h.registered.trans (by rw [hpc]; rfl), hq.work_1, hq.work_2⟩
    · obtain ⟨-, -, h1, h2⟩ := h.after (by rw [hpc]; rfl)
      exact ⟨h.registered.trans (by rw [hpc]; rfl), h1, h2 (by rw [hpc]; decide)⟩

theorem inv_start : Inv start :=
  .of_before rfl rfl (by decide) trivial ⟨rfl, ⟨rfl, rfl⟩, ⟨rfl, rfl⟩⟩

/-! ## 3. The steps -/

/-- The steps of `mywq_init` until everything is ready, and its error exits. -/
theorem Inv.next_before (h : Inv s) (hs : s.pc.stage = .before) (hst : s.next ok = some s') :
    Inv s' := by
  obtain ⟨hobj, hb, hq⟩ := h.before hs
  have hreg := h.registered
  have hh := hq.handler
  unfold Built at hb
  cases hpc : s.pc with
  | requestIrq =>
    rw [hpc] at hreg
    cases ok <;> simp only [State.next, hpc, Option.some.injEq] at hst <;> subst hst
    · exact .of_before rfl hreg hobj trivial ⟨hh, hq.work_1, hq.work_2⟩
    · exact .of_before rfl rfl hobj trivial ⟨hh, hq.work_1, hq.work_2⟩
  | allocWq1 =>
    rw [hpc] at hreg
    cases ok <;> simp only [State.next, hpc, Option.some.injEq] at hst <;> subst hst
    · exact .of_before rfl hreg hobj trivial ⟨hh, hq.work_1, hq.work_2⟩
    · exact .of_before rfl hreg hobj rfl ⟨hh, hq.work_1, hq.work_2⟩
  | allocWq2 =>
    rw [hpc] at hreg
    simp only [hpc] at hb
    cases ok <;> simp only [State.next, hpc, Option.some.injEq] at hst <;> subst hst
    · exact .of_before rfl hreg hobj trivial ⟨hh, hq.work_1, hq.work_2⟩
    · exact .of_before rfl hreg hobj ⟨hb, rfl⟩ ⟨hh, hq.work_1, hq.work_2⟩
  | kmallocWork1 =>
    rw [hpc] at hreg
    simp only [hpc] at hb
    cases ok <;> simp only [State.next, hpc, Option.some.injEq] at hst <;> subst hst
    · exact .of_before rfl hreg hobj trivial ⟨hh, hq.work_1, hq.work_2⟩
    · exact .of_before rfl hreg hobj hb ⟨hh, hq.work_1, hq.work_2⟩
  | initWork1 =>
    rw [hpc] at hreg
    simp only [hpc] at hb
    simp only [State.next, hpc, Option.some.injEq] at hst
    subst hst
    exact .of_before rfl hreg hobj ⟨hb, rfl⟩ ⟨hh, hq.work_1, hq.work_2⟩
  | kmallocWork2 =>
    rw [hpc] at hreg
    simp only [hpc] at hb
    cases ok <;> simp only [State.next, hpc, Option.some.injEq] at hst <;> subst hst
    · exact .of_before rfl hreg hobj trivial ⟨hh, hq.work_1, hq.work_2⟩
    · exact .of_before rfl hreg (by simp) hb ⟨hh, hq.work_1, hq.work_2⟩
  | initWork2 =>
    rw [hpc] at hreg
    simp only [hpc] at hb
    simp only [State.next, hpc, Option.some.injEq] at hst
    subst hst
    exact .of_live rfl hreg ⟨hb.1.1, hb.1.2, hb.2, rfl⟩
  | initFailed =>
    simp only [State.next, hpc, if_pos hh, Option.some.injEq] at hst
    subst hst
    exact .of_before rfl rfl hobj trivial ⟨hh, hq.work_1, hq.work_2⟩
  | work2Failed =>
    simp only [State.next, hpc, if_pos hh, Option.some.injEq] at hst
    subst hst
    exact .of_before rfl rfl hobj trivial ⟨hh, hq.work_1, hq.work_2⟩
  | work2FailedKfree =>
    rw [hpc] at hreg
    simp only [State.next, hpc, Option.some.injEq] at hst
    subst hst
    exact .of_before rfl hreg hobj trivial ⟨hh, hq.work_1, hq.work_2⟩
  | failed => simp [State.next, hpc] at hst
  | _ => simp [hpc, Pc.stage] at hs

/-- The steps while everything is ready, if none fails and no handler runs at `destroy1`. -/
theorem Inv.next_live (h : Inv s) (hs : s.pc.stage = .live) (hm : Meets s (.next ok))
    (hst : s.next ok = some s') : Inv s' := by
  obtain ⟨hq1, hq2, hw1, hw2⟩ := h.live hs
  have hreg := h.registered
  simp only [Meets] at hm
  cases hpc : s.pc with
  | procCreate =>
    rw [hpc] at hreg
    simp only [hpc] at hm
    simp only [State.next, hpc, hm, if_true, Option.some.injEq] at hst
    subst hst
    exact .of_live rfl hreg ⟨hq1, hq2, hw1, hw2⟩
  | procMkdir =>
    rw [hpc] at hreg
    simp only [State.next, hpc, Option.some.injEq] at hst
    subst hst
    exact .of_live rfl hreg ⟨hq1, hq2, hw1, hw2⟩
  | procSymlink =>
    rw [hpc] at hreg
    simp only [hpc] at hm
    simp only [State.next, hpc, hm, Bool.and_self, if_true, Option.some.injEq] at hst
    subst hst
    exact .of_live rfl hreg ⟨hq1, hq2, hw1, hw2⟩
  | loaded => simp [State.next, hpc] at hst
  | procRemove =>
    rw [hpc] at hreg
    simp only [State.next, hpc, Option.some.injEq] at hst
    subst hst
    exact .of_live rfl hreg ⟨hq1, hq2, hw1, hw2⟩
  | flush1 =>
    rw [hpc] at hreg
    simp only [State.next, hpc, Option.some.injEq] at hst
    subst hst
    exact .of_live rfl hreg ⟨hq1, hq2, hw1, hw2⟩
  | flushWait1 =>
    rw [hpc] at hreg
    simp only [State.next, hpc, Option.ite_none_right_eq_some, Option.some.injEq] at hst
    obtain ⟨-, rfl⟩ := hst
    exact .of_live rfl hreg ⟨hq1, hq2, hw1, hw2⟩
  | flush2 =>
    rw [hpc] at hreg
    simp only [State.next, hpc, Option.some.injEq] at hst
    subst hst
    exact .of_live rfl hreg ⟨hq1, hq2, hw1, hw2⟩
  | flushWait2 =>
    rw [hpc] at hreg
    simp only [State.next, hpc, Option.ite_none_right_eq_some, Option.some.injEq] at hst
    obtain ⟨-, rfl⟩ := hst
    exact .of_live rfl hreg ⟨hq1, hq2, hw1, hw2⟩
  | destroy1 =>
    rw [hpc] at hreg
    simp only [hpc] at hm
    simp only [State.next, hpc, Option.ite_none_right_eq_some, Option.some.injEq] at hst
    obtain ⟨hidle, rfl⟩ := hst
    exact .of_after rfl hreg (by simp) hm hidle (fun hne => absurd rfl hne)
  | _ => simp [hpc, Pc.stage] at hs

/-- The end of `mywq_exit`, from the destruction of the second queue on. -/
theorem Inv.next_after (h : Inv s) (hs : s.pc.stage = .after) (hst : s.next ok = some s') :
    Inv s' := by
  obtain ⟨hobj, hh, h1, h2⟩ := h.after hs
  have hreg := h.registered
  cases hpc : s.pc with
  | destroy2 =>
    rw [hpc] at hreg
    simp only [State.next, hpc, Option.ite_none_right_eq_some, Option.some.injEq] at hst
    obtain ⟨hidle, rfl⟩ := hst
    exact .of_after rfl hreg hobj hh h1 (fun _ => hidle)
  | freeIrq =>
    simp only [State.next, hpc, if_pos hh, Option.some.injEq] at hst
    subst hst
    exact .of_after rfl rfl hobj hh h1 (fun _ => h2 (by rw [hpc]; decide))
  | kfreeWork1 =>
    rw [hpc] at hreg
    simp only [State.next, hpc, Option.some.injEq] at hst
    subst hst
    exact .of_after rfl hreg hobj hh h1 (fun _ => h2 (by rw [hpc]; decide))
  | kfreeWork2 =>
    rw [hpc] at hreg
    simp only [State.next, hpc, Option.some.injEq] at hst
    subst hst
    exact .of_after rfl hreg hobj hh h1 (fun _ => h2 (by rw [hpc]; decide))
  | exited => simp [State.next, hpc] at hst
  | _ => simp [hpc, Pc.stage] at hs

/-- The memory of the works and the queues, and the place in `mywq_init` and `mywq_exit`. -/
structure SameObjs (s s' : State) : Prop where
  pc : s'.pc = s.pc
  registered : s'.registered = s.registered
  mywq1 : s'.mywq1 = s.mywq1
  mywq2 : s'.mywq2 = s.mywq2
  work_1 : s'.work_1.obj = s.work_1.obj
  work_2 : s'.work_2.obj = s.work_2.obj

theorem Inv.of_sameObjs (h : Inv s) (hs : s.pc.stage = .live) (hsame : SameObjs s s') : Inv s' := by
  obtain ⟨hq1, hq2, hw1, hw2⟩ := h.live hs
  refine .of_live (hsame.pc ▸ hs) ?_ ⟨hsame.mywq1.trans hq1, hsame.mywq2.trans hq2,
    hsame.work_1.trans hw1, hsame.work_2.trans hw2⟩
  rw [hsame.registered, hsame.pc]
  exact h.registered

theorem handlerStep_sameObjs {k : Handler} (hst : s.handlerStep k = some s') :
    SameObjs s s' := by
  cases k <;> simp only [State.handlerStep, Option.ite_none_right_eq_some, Option.some.injEq] at hst
  case ret =>
    subst hst
    exact ⟨rfl, rfl, rfl, rfl, rfl, rfl⟩
  all_goals
    obtain ⟨-, rfl⟩ := hst
    exact ⟨rfl, rfl, rfl, rfl, rfl, rfl⟩

theorem start_obj {ρ : Type} {w w' : Work ρ} {f : ρ} (h : w.start f = some w') :
    w.pending = true ∧ w'.obj = w.obj := by
  simp only [Work.start, Option.ite_none_right_eq_some, Option.some.injEq] at h
  obtain ⟨hp, rfl⟩ := h
  exact ⟨hp, rfl⟩

/-- A step of the first worker: the work is not idle. -/
theorem worker1_cases (hst : s.worker1 = some s') : ¬ s.work_1.Idle ∧ SameObjs s s' := by
  simp only [State.worker1, Option.ite_none_right_eq_some] at hst
  obtain ⟨-, hst⟩ := hst
  split at hst
  · obtain ⟨w, hw, rfl⟩ := Option.map_eq_some_iff.mp hst
    obtain ⟨hp, hobj⟩ := start_obj hw
    exact ⟨fun hidle => by simp [hidle.1] at hp, ⟨rfl, rfl, rfl, rfl, hobj, rfl⟩⟩
  all_goals
    rename_i hrun
    obtain rfl := Option.some.inj hst
    exact ⟨fun hidle => by simp [hidle.2] at hrun, ⟨rfl, rfl, rfl, rfl, rfl, rfl⟩⟩

theorem numberFirst_cases (hst : s.numberFirst = some s') : s.work_1.run = some .args ∧
    s' = { s with work_1 := { s.work_1 with run := some (.index s.work_1.code) } } := by
  simp only [State.numberFirst, Option.ite_none_right_eq_some, Option.some.injEq] at hst
  obtain ⟨⟨-, -, hrun⟩, rfl⟩ := hst
  exact ⟨hrun, rfl⟩

/-- A step of the second worker. -/
theorem worker2_cases (hst : s.worker2 = some s') : ¬ s.work_2.Idle ∧ SameObjs s s' ∧
    s'.work_1 = s.work_1 ∧ s'.handler = s.handler := by
  simp only [State.worker2, Option.ite_none_right_eq_some] at hst
  obtain ⟨-, hst⟩ := hst
  split at hst
  · obtain ⟨w, hw, rfl⟩ := Option.map_eq_some_iff.mp hst
    obtain ⟨hp, hobj⟩ := start_obj hw
    exact ⟨fun hidle => by simp [hidle.1] at hp, ⟨rfl, rfl, rfl, rfl, rfl, hobj⟩, rfl, rfl⟩
  all_goals
    rename_i hrun
    obtain rfl := Option.some.inj hst
    exact ⟨fun hidle => by simp [hidle.2] at hrun, ⟨rfl, rfl, rfl, rfl, rfl, rfl⟩, rfl, rfl⟩

/-- A running handler finds everything ready. -/
theorem Inv.live_of_handler {k : Handler} (h : Inv s) (hk : s.handler = some k) :
    s.pc.stage = .live := by
  cases hs : s.pc.stage with
  | before => simp [(h.before hs).2.2.handler] at hk
  | live => rfl
  | after => simp [(h.after hs).2.1] at hk

/-- The first worker goes on only while everything is ready. -/
theorem Inv.of_not_idle (h : Inv s) (hidle : ¬ s.work_1.Idle) (hsame : SameObjs s s') :
    Inv s' := by
  cases hs : s.pc.stage with
  | before => exact absurd (h.before hs).2.2.work_1 hidle
  | live => exact h.of_sameObjs hs hsame
  | after => exact absurd (h.after hs).2.2.1 hidle

/-- The second worker may go on until its queue is destroyed. -/
theorem Inv.worker2 (h : Inv s) (hst : s.worker2 = some s') : Inv s' := by
  obtain ⟨hidle, hsame, hw1, hh'⟩ := worker2_cases hst
  cases hs : s.pc.stage with
  | before => exact absurd (h.before hs).2.2.work_2 hidle
  | live => exact h.of_sameObjs hs hsame
  | after =>
    obtain ⟨hobj, hh, h1, h2⟩ := h.after hs
    have hpc : s.pc = .destroy2 := by
      by_contra hne
      exact hidle (h2 hne)
    refine .of_after (hsame.pc ▸ hs) ?_ (hsame.mywq1 ▸ hobj) (hh'.trans hh) (hw1 ▸ h1) ?_
    · rw [hsame.registered, hsame.pc]
      exact h.registered
    · exact fun hne => absurd (hsame.pc.trans hpc) hne

/-- **A step that meets the condition** keeps the invariant. -/
theorem Inv.step {a : Act} (h : Inv s) (hm : Meets s a) (hst : module.step s a = some s') :
    Inv s' := by
  cases a with
  | next ok =>
    cases hs : s.pc.stage with
    | before => exact h.next_before hs hst
    | live => exact h.next_live hs hm hst
    | after => exact h.next_after hs hst
  | exit =>
    simp only [module, Option.ite_none_right_eq_some, Option.some.injEq] at hst
    obtain ⟨hpc, rfl⟩ := hst
    have hreg := h.registered
    rw [hpc] at hreg
    obtain ⟨hq1, hq2, hw1, hw2⟩ := h.live (by rw [hpc]; rfl)
    exact .of_live rfl hreg ⟨hq1, hq2, hw1, hw2⟩
  | irq code =>
    simp only [module, Option.ite_none_right_eq_some, Option.some.injEq] at hst
    obtain ⟨-, rfl⟩ := hst
    exact h.of_sameObjs hm ⟨rfl, rfl, rfl, rfl, rfl, rfl⟩
  | handler =>
    obtain ⟨k, hk, hst⟩ := Option.bind_eq_some_iff.mp hst
    exact h.of_sameObjs (h.live_of_handler hk) (handlerStep_sameObjs hst)
  | worker1 =>
    obtain ⟨hidle, hsame⟩ := worker1_cases hst
    exact h.of_not_idle hidle hsame
  | numberFirst =>
    obtain ⟨hrun, rfl⟩ := numberFirst_cases hst
    refine h.of_not_idle ?_ ⟨rfl, rfl, rfl, rfl, rfl, rfl⟩
    exact fun hidle => absurd (hidle.2.symm.trans hrun) (by simp)
  | worker2 => exact h.worker2 hst

/-- An error exit of `mywq_init` after the last `INIT_WORK` leaves the handler registered. -/
theorem Inv.not_safe_of_failed (h : Inv s) (harmed : s.pc.armed = true) (hpc : s'.pc = .failed)
    (hreg : s'.registered = s.registered) : ¬ Safe s' := by
  intro hsafe
  have hfree := (hsafe.ended (Or.inl hpc)).1
  rw [hreg, h.registered, harmed] at hfree
  exact absurd hfree (by decide)

/-- **A step that does not meet the condition** leads to an unsafe state at once. -/
theorem not_safe_of_not_meets {a : Act} (h : Inv s) (hm : ¬ Meets s a)
    (hst : module.step s a = some s') : ¬ Safe s' := by
  intro hsafe
  cases a with
  | next ok =>
    change s.next ok = some s' at hst
    simp only [Meets] at hm
    cases hpc : s.pc with
    | procCreate =>
      simp only [hpc, Bool.not_eq_true] at hm
      simp only [State.next, hpc, hm, Option.some.injEq] at hst
      exact h.not_safe_of_failed (by rw [hpc]; rfl) (by simp [← hst]) (by simp [← hst]) hsafe
    | procSymlink =>
      simp only [hpc, ← Bool.and_eq_true, Bool.not_eq_true] at hm
      simp only [State.next, hpc, hm, Option.some.injEq] at hst
      exact h.not_safe_of_failed (by rw [hpc]; rfl) (by simp [← hst]) (by simp [← hst]) hsafe
    | destroy1 =>
      simp only [hpc] at hm
      simp only [State.next, hpc, Option.ite_none_right_eq_some, Option.some.injEq] at hst
      obtain ⟨-, rfl⟩ := hst
      simpa using (hsafe.ready hm).mywq1
    | _ => simp [hpc] at hm
  | irq code =>
    simp only [module, Option.ite_none_right_eq_some, Option.some.injEq] at hst
    obtain ⟨-, rfl⟩ := hst
    obtain ⟨hq1, hq2, hw1, hw2⟩ := hsafe.ready (by simp)
    exact hm (h.live_of_allReady ⟨hq1, hq2, hw1, hw2⟩)
  | exit => exact hm trivial
  | handler => exact hm trivial
  | worker1 => exact hm trivial
  | numberFirst => exact hm trivial
  | worker2 => exact hm trivial

/-- Along every run the handler and the works are safe exactly when every step meets the
condition. -/
theorem safe_iff (as : List Act) :
    module.StatesMeet Safe module.init as ↔ module.StepsMeet Meets module.init as :=
  (Machine.stepsMeet_iff_statesMeet (M := module) (fun _ h => Inv.safe h)
    (fun _ _ _ h hm hst => h.step hm hst)
    (fun _ _ _ h hm hst => not_safe_of_not_meets h hm hst) inv_start).symm

end OsLabs.Workqueue

/-! ## 4. Both modules -/

namespace OsLabs.Interrupts

open OsLabs

/-- **The handlers and the objects they use.**  Along every run of each module, with any
interrupts and any failures, the handler runs only while its objects are there, and nothing is
left when the module is gone, exactly when every step meets the condition: interrupts come only
between the end of the last initialisation of an object and the first release of one, the calls
of the initialisation after that do not fail, no object is released under a running handler, and
no tasklet is scheduled again between `tasklet_kill` and the end of `my_exit`. -/
theorem handlers_safe_iff (as : List Tasklet.Act) (bs : List Workqueue.Act) :
    (Tasklet.module.StatesMeet Tasklet.Safe Tasklet.module.init as ↔
      Tasklet.module.StepsMeet Tasklet.Meets Tasklet.module.init as) ∧
    (Workqueue.module.StatesMeet Workqueue.Safe Workqueue.module.init bs ↔
      Workqueue.module.StepsMeet Workqueue.Meets Workqueue.module.init bs) :=
  ⟨Tasklet.safe_iff as, Workqueue.safe_iff bs⟩

/-- **A key pressed too early**: `request_irq` comes before what the handler uses is there. -/
theorem handlers_unsafe :
    (¬ ∀ as, Tasklet.module.StatesMeet Tasklet.Safe Tasklet.module.init as) ∧
    ¬ ∀ bs, Workqueue.module.StatesMeet Workqueue.Safe Workqueue.module.init bs := by
  constructor
  · intro h
    have hmeet := (Tasklet.safe_iff _).mp (h [.next true, .irq 30])
    have hlive : Tasklet.Pc.kmalloc.live = true := ((hmeet _ rfl).2 _ rfl).1
    exact absurd hlive (by decide)
  · intro h
    have hmeet := (Workqueue.safe_iff _).mp (h [.next true, .irq 30])
    have hstage : Workqueue.Pc.allocWq1.stage = Workqueue.Stage.live := ((hmeet _ rfl).2 _ rfl).1
    exact absurd hstage (by decide)

end OsLabs.Interrupts
