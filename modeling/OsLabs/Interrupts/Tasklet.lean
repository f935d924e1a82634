/-
# The tasklet module: its interrupt handler and the life of its tasklet

The steps of `my_init`, of `my_exit`, of the interrupt handler and of the softirq that runs the
tasklet, in any order.  An allocation or a registration fails when the step says so.

`my_init` registers the handler first, and three of its error exits leave it registered;
`my_exit` frees the tasklet before it frees the interrupt.  So the handler is safe only in runs
in which no interrupt comes before `tasklet_init` or after `kfree`, and the like: `Meets` is the
condition on one step, `safe_iff` says that it is exact.

`free_irq` waits for a running handler.  `tasklet_kill` takes the SCHED bit, waits until the
tasklet does not run and clears the bit.  A use of a tasklet that is not initialised, or was
freed, has no next state.  What is printed is left out, and of the entries under /proc all but
the test on `proc_dir`.
-/
import OsLabs.Lib.Machine

namespace OsLabs

/-- What a pointer to an object of the kernel leads to. -/
inductive Obj
  | null
  | allocated
  | ready
  | freed
deriving DecidableEq, Repr

namespace Tasklet

/-! ## 1. The module -/

/-- The state of a `struct tasklet_struct`: its SCHED and RUN bits, whether it is in the list of
the softirq, and its data. -/
structure TaskletStruct where
  sched : Bool
  run : Bool
  queued : Bool
  data : Nat
deriving DecidableEq, Repr

/-- The next step of `my_init` or `my_exit`. -/
inductive Pc
  | requestIrq
  | kmalloc
  | kmallocFailed
  | taskletInit
  | vmalloc
  | procCreate
  | procMkdir
  | procSymlink
  | loaded
  | procRemove
  | taskletKill
  | taskletUnlockWait
  | kfree
  | freeIrq
  | failed
  | exited
deriving DecidableEq, Repr

/-- The next step of `my_irq_handler`. -/
inductive Handler
  | setData (code : Nat)
  | schedule
  | ret
deriving DecidableEq, Repr

structure State where
  pc : Pc
  registered : Bool
  obj : Obj
  tasklet : TaskletStruct
  handler : Option Handler
  buffer : Obj
  proc_dir : Bool
deriving DecidableEq

/-- A step: of `my_init` or `my_exit`, with the success of the call in it; the start of
`my_exit`; an interrupt with the code that `inb` reads; a step of the handler; of the softirq. -/
inductive Act
  | next (ok : Bool)
  | exit
  | irq (code : Nat)
  | handler
  | softirq
deriving DecidableEq, Repr

/-- `my_init` and `my_exit`. -/
def State.next (s : State) (ok : Bool) : Option State :=
  match s.pc with
  | .requestIrq =>
    some (if ok then { s with pc := .kmalloc, registered := true } else { s with pc := .failed })
  | .kmalloc =>
    some (if ok then { s with pc := .taskletInit, obj := .allocated }
      else { s with pc := .kmallocFailed })
  | .kmallocFailed =>
    if s.handler = none then some { s with pc := .failed, registered := false } else none
  | .taskletInit =>
    some { s with pc := .vmalloc, obj := .ready, tasklet := ⟨false, false, false, 0⟩ }
  | .vmalloc =>
    some (if ok then { s with pc := .procCreate, buffer := .ready } else { s with pc := .failed })
  | .procCreate =>
    some (if ok then { s with pc := .procMkdir } else { s with pc := .failed, buffer := .freed })
  | .procMkdir => some { s with pc := .procSymlink, proc_dir := ok }
  | .procSymlink =>
    some (if s.proc_dir && ok then { s with pc := .loaded }
      else { s with pc := .failed, buffer := .freed })
  | .loaded => none
  | .procRemove => some { s with pc := .taskletKill }
  | .taskletKill =>
    if s.tasklet.sched then none
    else some { s with pc := .taskletUnlockWait, tasklet := { s.tasklet with sched := true } }
  | .taskletUnlockWait =>
    if s.tasklet.run then none
    else some { s with pc := .kfree, tasklet := { s.tasklet with sched := false } }
  | .kfree => some { s with pc := .freeIrq, obj := .freed }
  | .freeIrq =>
    if s.handler = none then some { s with pc := .exited, registered := false } else none
  | .failed => none
  | .exited => none

/-- `tasklet_schedule` -/
def TaskletStruct.schedule (t : TaskletStruct) : TaskletStruct :=
  if t.sched then t else { t with sched := true, queued := true }

/-- `my_irq_handler` after its start. -/
def State.handlerStep (s : State) : Handler → State
  | .setData code =>
    { s with tasklet := { s.tasklet with data := code }, handler := some .schedule }
  | .schedule => { s with tasklet := s.tasklet.schedule, handler := some .ret }
  | .ret => { s with handler := none }

/-- The softirq starts the tasklet, or finishes it. -/
def State.softirqStep (s : State) : Option State :=
  if s.tasklet.run then some { s with tasklet := { s.tasklet with run := false } }
  else if s.tasklet.queued then
    some { s with tasklet := { s.tasklet with sched := false, run := true, queued := false } }
  else none

def module : Machine State Act where
  init := ⟨.requestIrq, false, .null, ⟨false, false, false, 0⟩, none, .null, false⟩
  step s
    | .next ok => s.next ok
    | .exit => if s.pc = .loaded then some { s with pc := .procRemove } else none
    | .irq code =>
      if s.registered = true ∧ s.handler = none then some { s with handler := some (.setData code) }
      else none
    | .handler => if s.obj = .ready then s.handler.map s.handlerStep else none
    | .softirq => if s.obj = .ready then s.softirqStep else none

/-! ## 2. The condition -/

/-- The handler runs only with its tasklet ready, and when the module is gone it is not
registered and no tasklet is scheduled or runs. -/
structure Safe (s : State) : Prop where
  ready : s.handler ≠ none → s.obj = .ready
  ended : s.pc = .failed ∨ s.pc = .exited →
    s.registered = false ∧ s.tasklet.sched = false ∧ s.tasklet.run = false

/-- From the end of `tasklet_init` to `kfree`. -/
def Pc.live : Pc → Bool
  | .vmalloc => true
  | .procCreate => true
  | .procMkdir => true
  | .procSymlink => true
  | .loaded => true
  | .procRemove => true
  | .taskletKill => true
  | .taskletUnlockWait => true
  | .kfree => true
  | _ => false

/-- The condition on a step: an interrupt comes after `tasklet_init` and before `kfree`, what
follows `tasklet_init` does not fail, `kfree` is not called under the handler, and `my_exit` ends
without a tasklet that was scheduled again after `tasklet_kill`. -/
def Meets (s : State) : Act → Prop
  | .irq _ => s.pc.live = true
  | .next ok =>
    match s.pc with
    | .vmalloc => ok = true
    | .procCreate => ok = true
    | .procSymlink => s.proc_dir = true ∧ ok = true
    | .kfree => s.handler = none
    | .freeIrq => s.tasklet.sched = false ∧ s.tasklet.run = false
    | _ => True
  | _ => True

/-- From the end of `request_irq` to that of `free_irq`. -/
def Pc.armed : Pc → Bool
  | .requestIrq => false
  | .failed => false
  | .exited => false
  | _ => true

def TaskletStruct.Idle (t : TaskletStruct) : Prop := t.sched = false ∧ t.run = false

/-- What the steps that meet the condition keep. -/
structure Inv (s : State) : Prop where
  registered : s.registered = s.pc.armed
  live : s.pc.live = true → s.obj = .ready
  dead : s.pc.live = false → s.obj ≠ .ready ∧ s.handler = none
  idle : s.pc.live = false → s.pc ≠ .freeIrq → s.tasklet.Idle

variable {s s' : State} {ok : Bool}

theorem Inv.safe (h : Inv s) : Safe s where
  ready hne := by
    cases hl : s.pc.live with
    | true => exact h.live hl
    | false => exact absurd (h.dead hl).2 hne
  ended := by
    rintro (hpc | hpc)
    · exact ⟨h.registered.trans (by rw [hpc]; rfl), h.idle (by rw [hpc]; rfl) (by rw [hpc]; decide)⟩
    · exact ⟨h.registered.trans (by rw [hpc]; rfl), h.idle (by rw [hpc]; rfl) (by rw [hpc]; decide)⟩

theorem Inv.of_live (hl : s.pc.live = true) (hobj : s.obj = .ready)
    (hreg : s.registered = s.pc.armed) : Inv s where
  registered := hreg
  live _ := hobj
  dead hd := by simp [hl] at hd
  idle hd _ := by simp [hl] at hd

theorem Inv.of_dead (hl : s.pc.live = false) (hobj : s.obj ≠ .ready) (hh : s.handler = none)
    (hidle : s.pc ≠ .freeIrq → s.tasklet.Idle) (hreg : s.registered = s.pc.armed) : Inv s where
  registered := hreg
  live h := by simp [hl] at h
  dead _ := ⟨hobj, hh⟩
  idle _ := hidle

theorem inv_init : Inv module.init :=
  .of_dead rfl (by simp [module]) rfl (fun _ => ⟨rfl, rfl⟩) rfl

/-- The steps of `my_init` up to `tasklet_init` and its first error exits. -/
theorem Inv.next_dead (h : Inv s) (hl : s.pc.live = false) (hpc : s.pc ≠ .freeIrq)
    (hst : s.next ok = some s') : Inv s' := by
  obtain ⟨hobj, hh⟩ := h.dead hl
  have hidle := h.idle hl hpc
  have hreg := h.registered
  cases hpc' : s.pc with
  | requestIrq =>
    cases ok <;> simp only [State.next, hpc', Option.some.injEq] at hst <;> subst hst
    · exact .of_dead rfl hobj hh (fun _ => hidle) (hreg.trans (by rw [hpc']; rfl))
    · exact .of_dead rfl hobj hh (fun _ => hidle) rfl
  | kmalloc =>
    rw [hpc'] at hreg
    cases ok <;> simp only [State.next, hpc', Option.some.injEq] at hst <;> subst hst
    · exact .of_dead rfl hobj hh (fun _ => hidle) hreg
    · exact .of_dead rfl (by simp) hh (fun _ => hidle) hreg
  | kmallocFailed =>
    simp only [State.next, hpc', if_pos hh, Option.some.injEq] at hst
    subst hst
    exact .of_dead rfl hobj hh (fun _ => hidle) rfl
  | taskletInit =>
    rw [hpc'] at hreg
    simp only [State.next, hpc', Option.some.injEq] at hst
    subst hst
    exact .of_live rfl rfl hreg
  | freeIrq => exact absurd hpc' hpc
  | failed => simp [State.next, hpc'] at hst
  | exited => simp [State.next, hpc'] at hst
  | _ => simp [hpc', Pc.live] at hl

/-- The steps while the tasklet is ready, if none fails and no handler runs at `kfree`. -/
theorem Inv.next_live (h : Inv s) (hl : s.pc.live = true) (hm : Meets s (.next ok))
    (hst : s.next ok = some s') : Inv s' := by
  have hobj := h.live hl
  have hreg := h.registered
  simp only [Meets] at hm
  cases hpc : s.pc with
  | vmalloc =>
    simp only [hpc] at hm
    simp only [State.next, hpc, hm, if_true, Option.some.injEq] at hst
    subst hst
    exact .of_live rfl hobj (by rw [hreg, hpc]; rfl)
  | procCreate =>
    simp only [hpc] at hm
    simp only [State.next, hpc, hm, if_true, Option.some.injEq] at hst
    subst hst
    exact .of_live rfl hobj (by rw [hreg, hpc]; rfl)
  | procMkdir =>
    simp only [State.next, hpc, Option.some.injEq] at hst
    subst hst
    exact .of_live rfl hobj (by rw [hreg, hpc]; rfl)
  | procSymlink =>
    simp only [hpc] at hm
    simp only [State.next, hpc, hm, Bool.and_self, if_true, Option.some.injEq] at hst
    subst hst
    exact .of_live rfl hobj (by rw [hreg, hpc]; rfl)
  | loaded => simp [State.next, hpc] at hst
  | procRemove =>
    simp only [State.next, hpc, Option.some.injEq] at hst
    subst hst
    exact .of_live rfl hobj (by rw [hreg, hpc]; rfl)
  | taskletKill =>
    simp only [State.next, hpc, Option.ite_none_left_eq_some, Option.some.injEq] at hst
    obtain ⟨-, rfl⟩ := hst
    exact .of_live rfl hobj (by rw [hreg, hpc]; rfl)
  | taskletUnlockWait =>
    simp only [State.next, hpc, Option.ite_none_left_eq_some, Option.some.injEq] at hst
    obtain ⟨-, rfl⟩ := hst
    exact .of_live rfl hobj (by rw [hreg, hpc]; rfl)
  | kfree =>
    simp only [hpc] at hm
    simp only [State.next, hpc, Option.some.injEq] at hst
    subst hst
    exact .of_dead rfl (by simp) hm (fun hne => absurd rfl hne) (by rw [hreg, hpc]; rfl)
  | _ => simp [hpc, Pc.live] at hl

/-- The end of `my_exit`. -/
theorem Inv.next_freeIrq (h : Inv s) (hpc : s.pc = .freeIrq) (hm : Meets s (.next ok))
    (hst : s.next ok = some s') : Inv s' := by
  obtain ⟨hobj, hh⟩ := h.dead (by rw [hpc]; rfl)
  simp only [Meets, hpc] at hm
  simp only [State.next, hpc, if_pos hh, Option.some.injEq] at hst
  subst hst
  exact .of_dead rfl hobj hh (fun _ => hm) rfl

/-- What else happens while the tasklet is ready leaves it ready. -/
theorem Inv.of_frame (h : Inv s) (hobj : s.obj = .ready) (hpc : s'.pc = s.pc)
    (hobj' : s'.obj = s.obj) (hreg : s'.registered = s.registered) : Inv s' := by
  have hl : s.pc.live = true := by
    by_contra hl
    exact (h.dead (by simpa using hl)).1 hobj
  exact .of_live (hpc ▸ hl) (hobj'.trans hobj) (by rw [hreg, hpc]; exact h.registered)

/-- **A step that meets the condition** keeps the invariant. -/
theorem Inv.step {a : Act} (h : Inv s) (hm : Meets s a) (hst : module.step s a = some s') :
    Inv s' := by
  cases a with
  | next ok =>
    by_cases hpc : s.pc = .freeIrq
    · exact h.next_freeIrq hpc hm hst
    · cases hl : s.pc.live with
      | true => exact h.next_live hl hm hst
      | false => exact h.next_dead hl hpc hst
  | exit =>
    simp only [module, Option.ite_none_right_eq_some, Option.some.injEq] at hst
    obtain ⟨hpc, rfl⟩ := hst
    have hreg := h.registered
    rw [hpc] at hreg
    exact .of_live rfl (h.live (by rw [hpc]; rfl)) hreg
  | irq code =>
    simp only [module, Option.ite_none_right_eq_some, Option.some.injEq] at hst
    obtain ⟨-, rfl⟩ := hst
    exact h.of_frame (h.live hm) rfl rfl rfl
  | handler =>
    simp only [module, Option.ite_none_right_eq_some, Option.map_eq_some_iff] at hst
    obtain ⟨hobj, k, -, rfl⟩ := hst
    cases k <;> exact h.of_frame hobj rfl rfl rfl
  | softirq =>
    simp only [module, State.softirqStep, Option.ite_none_right_eq_some] at hst
    obtain ⟨hobj, hst⟩ := hst
    split at hst
    · obtain rfl := Option.some.inj hst
      exact h.of_frame hobj rfl rfl rfl
    · obtain ⟨-, hst⟩ := Option.ite_none_right_eq_some.mp hst
      obtain rfl := Option.some.inj hst
      exact h.of_frame hobj rfl rfl rfl

/-- An error exit of `my_init` after `tasklet_init` leaves the handler registered. -/
theorem Inv.not_safe_of_failed (h : Inv s) (harmed : s.pc.armed = true) (hpc : s'.pc = .failed)
    (hreg : s'.registered = s.registered) : ¬ Safe s' := by
  intro hsafe
  have hfree := (hsafe.ended (Or.inl hpc)).1
  rw [hreg, h.registered, harmed] at hfree
  exact absurd hfree (by decide)

/-- **A step that does not meet the condition** leads to an unsafe state at once. -/
theorem not_safe_of_not_meets {a : Act} (h : Inv s) (hm : ¬ Meets s a)
    (hst : module.step s a = some s') : ¬ Safe s' := by
  intro hsafe
  cases a with
  | next ok =>
    change s.next ok = some s' at hst
    simp only [Meets] at hm
    cases hpc : s.pc with
    | vmalloc =>
      simp only [hpc, Bool.not_eq_true] at hm
      simp only [State.next, hpc, hm, Option.some.injEq] at hst
      exact h.not_safe_of_failed (by rw [hpc]; rfl) (by simp [← hst]) (by simp [← hst]) hsafe
    | procCreate =>
      simp only [hpc, Bool.not_eq_true] at hm
      simp only [State.next, hpc, hm, Option.some.injEq] at hst
      exact h.not_safe_of_failed (by rw [hpc]; rfl) (by simp [← hst]) (by simp [← hst]) hsafe
    | procSymlink =>
      simp only [hpc, ← Bool.and_eq_true, Bool.not_eq_true] at hm
      simp only [State.next, hpc, hm, Option.some.injEq] at hst
      exact h.not_safe_of_failed (by rw [hpc]; rfl) (by simp [← hst]) (by simp [← hst]) hsafe
    | kfree =>
      simp only [hpc] at hm
      simp only [State.next, hpc, Option.some.injEq] at hst
      subst hst
      simpa using hsafe.ready hm
    | freeIrq =>
      simp only [hpc] at hm
      simp only [State.next, hpc, Option.ite_none_right_eq_some, Option.some.injEq] at hst
      obtain ⟨-, rfl⟩ := hst
      exact hm (hsafe.ended (Or.inr rfl)).2
    | _ => simp [hpc] at hm
  | exit => exact hm trivial
  | irq code =>
    simp only [module, Option.ite_none_right_eq_some, Option.some.injEq] at hst
    obtain ⟨-, rfl⟩ := hst
    exact (h.dead (by simpa [Meets] using hm)).1 (hsafe.ready (by simp))
  | handler => exact hm trivial
  | softirq => exact hm trivial

/-- Along every run the handler and the tasklet are safe exactly when every step meets the
condition. -/
theorem safe_iff (as : List Act) :
    module.StatesMeet Safe module.init as ↔ module.StepsMeet Meets module.init as :=
  (Machine.stepsMeet_iff_statesMeet (M := module) (fun _ h => Inv.safe h)
    (fun _ _ _ h hm hst => h.step hm hst)
    (fun _ _ _ h hm hst => not_safe_of_not_meets h hm hst) inv_init).symm

end Tasklet

end OsLabs
