/-
# What the works of the workqueue module print of the keys that are pressed

`my_irq_handler` stores each scancode in the `code` of both works and queues them; each work
function prints the `code` it finds.  Seen from one work the module is a `Slot`: the interrupt
is the sender, `code` the cell, the pending mark the mark, and the worker the receiver
(`slot1_step`, `slot2_step`).  The steps of `mywq_init` and `mywq_exit` do not touch it.

So the last code is never lost (`last_code_printed`), but a code that comes while a work is
still queued, sleeps or has not yet read replaces the one before it, and one that is read before
its interrupt has queued the work is printed twice (`codes_lost`).
-/
import OsLabs.Interrupts.Workqueue
import OsLabs.Lib.Slot

namespace OsLabs.Workqueue

open OsLabs

/-! ## 1. A work as a slot -/

/-- What the handler has still to do for the first work. -/
def sender1 : Option Handler → Option (Sender Nat)
  | some (.setCode1 code) => some (.store code)
  | some (.setCode2 _) => some .mark
  | some .queue1 => some .mark
  | _ => none

/-- What the handler has still to do for the second work. -/
def sender2 : Option Handler → Option (Sender Nat)
  | some (.setCode1 code) => some (.store code)
  | some (.setCode2 code) => some (.store code)
  | some .queue1 => some .mark
  | some .queue2 => some .mark
  | _ => none

/-- Whether the first worker has read the code that it will print. -/
def receiver1 : Fun1 → Receiver Nat
  | .printk _ code => .handling code
  | .index code => .handling code
  | _ => .reading

/-- Whether the second worker has read the code that it will print. -/
def receiver2 : Fun2 → Receiver Nat
  | .printk code => .handling code
  | _ => .reading

/-- The module as the first work sees it. -/
def State.slot1 (s : State) : Slot Nat where
  cell := s.work_1.code
  pending := s.work_1.pending
  sender := sender1 s.handler
  receiver := s.work_1.run.map receiver1
  sent := s.codes
  handled := s.printed1.map Prod.snd

/-- The module as the second work sees it. -/
def State.slot2 (s : State) : Slot Nat where
  cell := s.work_2.code
  pending := s.work_2.pending
  sender := sender2 s.handler
  receiver := s.work_2.run.map receiver2
  sent := s.codes
  handled := s.printed2

/-- A step of the slot: the interrupt that sends, another step, or none. -/
def SlotStep (x y : Slot Nat) (a : Act) : Prop :=
  (∃ code, a = .irq code ∧ x.step (.send code) = some y) ∨
    (∃ b, (∀ code, b ≠ .send code) ∧ x.step b = some y) ∨ y = x

variable {s s' : State} {a : Act}

theorem SlotStep.inv {x y : Slot Nat} (h : SlotStep x y a) (hx : x.Inv) : y.Inv := by
  rcases h with ⟨code, -, hst⟩ | ⟨b, -, hst⟩ | rfl
  · exact hx.step hst
  · exact hx.step hst
  · exact hx

theorem SlotStep.exact {x y : Slot Nat} (h : SlotStep x y a) (hx : x.Exact)
    (hirq : ∀ code, a = .irq code → x.Idle) : y.Exact := by
  rcases h with ⟨code, ha, hst⟩ | ⟨b, hb, hst⟩ | rfl
  · exact hx.step (fun _ _ => hirq code ha) hst
  · exact hx.step (fun v hv => absurd hv (hb v)) hst
  · exact hx

theorem Work.Idle.slot1 (h : s.work_1.Idle) : s.slot1.Idle :=
  ⟨h.1, by simp [State.slot1, h.2]⟩

theorem Work.Idle.slot2 (h : s.work_2.Idle) : s.slot2.Idle :=
  ⟨h.1, by simp [State.slot2, h.2]⟩

/-- The steps of `mywq_init` and `mywq_exit` leave both slots alone. -/
theorem next_slots {ok : Bool} (h : s.next ok = some s') :
    s'.slot1 = s.slot1 ∧ s'.slot2 = s.slot2 := by
  unfold State.next at h
  split at h <;> simp only [Option.ite_none_right_eq_some, Option.some.injEq, reduceCtorEq] at h
  -- the steps that wait and those that always go on, and then those that may fail
  all_goals
    first
    | (obtain ⟨-, rfl⟩ := h; exact ⟨rfl, rfl⟩)
    | (split at h <;> subst h <;> exact ⟨rfl, rfl⟩)

/-- **A step of the handler** stores the code in one work or queues one. -/
theorem handler_slots {k : Handler} (hk : s.handler = some k) (h : s.handlerStep k = some s') :
    SlotStep s.slot1 s'.slot1 .handler ∧ SlotStep s.slot2 s'.slot2 .handler := by
  cases k <;> simp only [State.handlerStep, Option.ite_none_right_eq_some, Option.some.injEq] at h
  case setCode1 code =>
    obtain ⟨-, rfl⟩ := h
    refine ⟨.inr (.inl ⟨.store, by simp, ?_⟩), .inr (.inr ?_)⟩
    · simp [Slot.step, State.slot1, hk, sender1]
    · simp [State.slot2, hk, sender2]
  case setCode2 code =>
    obtain ⟨-, rfl⟩ := h
    refine ⟨.inr (.inr ?_), .inr (.inl ⟨.store, by simp, ?_⟩)⟩
    · simp [State.slot1, hk, sender1]
    · simp [Slot.step, State.slot2, hk, sender2]
  case queue1 =>
    obtain ⟨-, rfl⟩ := h
    refine ⟨.inr (.inl ⟨.mark, by simp, ?_⟩), .inr (.inr ?_)⟩
    · simp [Slot.step, State.slot1, hk, sender1, Work.queue]
    · simp [State.slot2, hk, sender2]
  case queue2 =>
    obtain ⟨-, rfl⟩ := h
    refine ⟨.inr (.inr ?_), .inr (.inl ⟨.mark, by simp, ?_⟩)⟩
    · simp [State.slot1, hk, sender1]
    · simp [Slot.step, State.slot2, hk, sender2, Work.queue]
  case ret =>
    subst h
    exact ⟨.inr (.inr (by simp [State.slot1, hk, sender1])),
      .inr (.inr (by simp [State.slot2, hk, sender2]))⟩

/-- **A step of the first worker** takes the work, reads `code` for the name or for the number, or
prints. -/
theorem worker1_slots (h : s.worker1 = some s') :
    SlotStep s.slot1 s'.slot1 .worker1 ∧ s'.slot2 = s.slot2 := by
  simp only [State.worker1, Option.ite_none_right_eq_some] at h
  obtain ⟨-, h⟩ := h
  split at h
  · next hrun =>
    obtain ⟨w, hw, rfl⟩ := Option.map_eq_some_iff.mp h
    simp only [Work.start, Option.ite_none_right_eq_some, Option.some.injEq] at hw
    obtain ⟨hp, rfl⟩ := hw
    refine ⟨.inr (.inl ⟨.start, by simp, ?_⟩), rfl⟩
    simp [Slot.step, State.slot1, hrun, hp, receiver1]
  · next hrun =>
    obtain rfl := Option.some.inj h
    refine ⟨.inr (.inr ?_), rfl⟩
    by_cases hlt : s.work_1.code < ASCII_SIZE <;> simp [State.slot1, hrun, receiver1, hlt]
  · next hrun =>
    obtain rfl := Option.some.inj h
    exact ⟨.inr (.inr (by simp [State.slot1, hrun, receiver1])), rfl⟩
  · next name hrun =>
    obtain rfl := Option.some.inj h
    refine ⟨.inr (.inl ⟨.read, by simp, ?_⟩), rfl⟩
    simp [Slot.step, State.slot1, hrun, receiver1]
  · next code hrun =>
    obtain rfl := Option.some.inj h
    exact ⟨.inr (.inr (by simp [State.slot1, hrun, receiver1])), rfl⟩
  · next hrun =>
    obtain rfl := Option.some.inj h
    refine ⟨.inr (.inl ⟨.read, by simp, ?_⟩), rfl⟩
    simp [Slot.step, State.slot1, hrun, receiver1]
  · next name code hrun =>
    obtain rfl := Option.some.inj h
    refine ⟨.inr (.inl ⟨.handle, by simp, ?_⟩), rfl⟩
    simp [Slot.step, State.slot1, hrun, receiver1, Work.finish]

/-- The number is read before the index. -/
theorem numberFirst_slots (h : s.numberFirst = some s') :
    SlotStep s.slot1 s'.slot1 .numberFirst ∧ s'.slot2 = s.slot2 := by
  obtain ⟨hrun, rfl⟩ := numberFirst_cases h
  refine ⟨.inr (.inl ⟨.read, by simp, ?_⟩), rfl⟩
  simp [Slot.step, State.slot1, hrun, receiver1]

/-- **A step of the second worker** takes the work, ends its sleep, reads `code`, or prints. -/
theorem worker2_slots (h : s.worker2 = some s') :
    s'.slot1 = s.slot1 ∧ SlotStep s.slot2 s'.slot2 .worker2 := by
  simp only [State.worker2, Option.ite_none_right_eq_some] at h
  obtain ⟨-, h⟩ := h
  split at h
  · next hrun =>
    obtain ⟨w, hw, rfl⟩ := Option.map_eq_some_iff.mp h
    simp only [Work.start, Option.ite_none_right_eq_some, Option.some.injEq] at hw
    obtain ⟨hp, rfl⟩ := hw
    refine ⟨rfl, .inr (.inl ⟨.start, by simp, ?_⟩)⟩
    simp [Slot.step, State.slot2, hrun, hp, receiver2]
  · next hrun =>
    obtain rfl := Option.some.inj h
    exact ⟨rfl, .inr (.inr (by simp [State.slot2, hrun, receiver2]))⟩
  · next hrun =>
    obtain rfl := Option.some.inj h
    refine ⟨rfl, .inr (.inl ⟨.read, by simp, ?_⟩)⟩
    simp [Slot.step, State.slot2, hrun, receiver2]
  · next code hrun =>
    obtain rfl := Option.some.inj h
    refine ⟨rfl, .inr (.inl ⟨.handle, by simp, ?_⟩)⟩
    simp [Slot.step, State.slot2, hrun, receiver2, Work.finish]

/-- **Every step of the module is a step of both slots**, or none of theirs. -/
theorem slots_step (h : module.step s a = some s') :
    SlotStep s.slot1 s'.slot1 a ∧ SlotStep s.slot2 s'.slot2 a := by
  cases a with
  | next ok =>
    obtain ⟨h1, h2⟩ := next_slots h
    exact ⟨.inr (.inr h1), .inr (.inr h2)⟩
  | exit =>
    simp only [module, Option.ite_none_right_eq_some, Option.some.injEq] at h
    obtain ⟨-, rfl⟩ := h
    exact ⟨.inr (.inr rfl), .inr (.inr rfl)⟩
  | irq code =>
    simp only [module, Option.ite_none_right_eq_some, Option.some.injEq] at h
    obtain ⟨⟨-, hh⟩, rfl⟩ := h
    refine ⟨.inl ⟨code, rfl, ?_⟩, .inl ⟨code, rfl, ?_⟩⟩
    · simp [Slot.step, State.slot1, hh, sender1]
    · simp [Slot.step, State.slot2, hh, sender2]
  | handler =>
    obtain ⟨k, hk, hst⟩ := Option.bind_eq_some_iff.mp h
    exact handler_slots hk hst
  | worker1 =>
    obtain ⟨h1, h2⟩ := worker1_slots h
    exact ⟨h1, .inr (.inr h2)⟩
  | numberFirst =>
    obtain ⟨h1, h2⟩ := numberFirst_slots h
    exact ⟨h1, .inr (.inr h2)⟩
  | worker2 =>
    obtain ⟨h1, h2⟩ := worker2_slots h
    exact ⟨.inr (.inr h1), h2⟩

/-! ## 2. Whole runs -/

theorem reachable_slots (h : module.Reachable s) : s.slot1.Inv ∧ s.slot2.Inv := by
  have hfresh1 : start.slot1.Fresh := ⟨rfl, rfl, ⟨rfl, rfl⟩, rfl⟩
  have hfresh2 : start.slot2.Fresh := ⟨rfl, rfl, ⟨rfl, rfl⟩, rfl⟩
  refine Machine.reachable_rule (I := fun s : State => s.slot1.Inv ∧ s.slot2.Inv)
    ⟨hfresh1.inv, hfresh2.inv⟩ (fun s a s' hs hst => ?_) h
  obtain ⟨h1, h2⟩ := slots_step hst
  exact ⟨h1.inv hs.1, h2.inv hs.2⟩

/-- No handler is in progress, and neither work is pending or running: nothing is left to do. -/
theorem Quiet.slots (h : Quiet s) :
    (s.slot1.Idle ∧ s.slot1.sender = none) ∧ (s.slot2.Idle ∧ s.slot2.sender = none) := by
  refine ⟨⟨h.work_1.slot1, ?_⟩, ⟨h.work_2.slot2, ?_⟩⟩
  · simp [State.slot1, h.handler, sender1]
  · simp [State.slot2, h.handler, sender2]

/-- All of `mywq_init`. -/
def loading : List Act := List.replicate 10 (.next true)

/-- An interrupt and the whole handler. -/
def press (code : Nat) : List Act := .irq code :: List.replicate 5 .handler

/-- What makes a state quiet, the codes, and what the second work function has printed. -/
def State.rest (s : State) : Bool × List Nat × List Nat :=
  (s.handler.isNone && decide s.work_1.Idle && decide s.work_2.Idle, s.codes, s.printed2)

theorem quiet_of_run (as : List Act) {c l : List Nat}
    (h : (module.run module.init as).map State.rest = some (true, c, l)) :
    ∃ s, module.run module.init as = some s ∧ Quiet s ∧ s.codes = c ∧ s.printed2 = l := by
  obtain ⟨s, hrun, hrest⟩ := Option.map_eq_some_iff.mp h
  simp only [State.rest, Prod.mk.injEq, Bool.and_eq_true, Option.isNone_iff_eq_none,
    decide_eq_true_eq] at hrest
  obtain ⟨⟨⟨hh, h1⟩, h2⟩, hc, hl⟩ := hrest
  exact ⟨s, hrun, ⟨hh, h1, h2⟩, hc, hl⟩

/-- In every reachable state in which a key was pressed, no handler is in progress and neither
work is pending or running, the last code that each work function has printed is that of the
last interrupt. -/
theorem last_code_printed (h : module.Reachable s) (hq : Quiet s) {code : Nat}
    (hlast : s.codes.getLast? = some code) :
    (s.printed1.map Prod.snd).getLast? = some code ∧ s.printed2.getLast? = some code := by
  obtain ⟨h1, h2⟩ := reachable_slots h
  obtain ⟨⟨hidle1, hs1⟩, ⟨hidle2, hs2⟩⟩ := hq.slots
  exact ⟨h1.current.handled_getLast? hidle1 hs1 hlast,
    h2.current.handled_getLast? hidle2 hs2 hlast⟩

/-- The module is loaded, and a second key is pressed while the second work sleeps: its function
runs twice. -/
def sleepRun : List Act :=
  List.flatten [loading, press 30, List.replicate 2 .worker2, press 31,
    List.replicate 5 .worker1, List.replicate 6 .worker2]

theorem last_code_printed_sleep : ∃ s, module.Reachable s ∧ Quiet s ∧
    s.codes.getLast? = some 31 ∧
    (s.printed1.map Prod.snd).getLast? = some 31 ∧ s.printed2.getLast? = some 31 := by
  obtain ⟨s, hrun, hq, hv⟩ := quiet_of_run sleepRun (c := [30, 31]) (l := [31, 31])
    (by decide +kernel)
  have hlast : s.codes.getLast? = some 31 := by rw [hv.1]; rfl
  exact ⟨s, ⟨sleepRun, hrun⟩, hq, hlast, last_code_printed ⟨sleepRun, hrun⟩ hq hlast⟩

/-! ## 3. Codes that are lost -/

/-- Two keys are pressed before the works run. -/
def lostRun : List Act :=
  List.flatten [loading, press 30, press 31, List.replicate 5 .worker1, List.replicate 4 .worker2]

/-- **The first of two codes is lost**: neither work function prints it. -/
theorem codes_lost : ¬ ∀ s, module.Reachable s → Quiet s →
    s.printed1.map Prod.snd = s.codes ∧ s.printed2 = s.codes := by
  intro h
  obtain ⟨s, hrun, hq, hcodes, hprinted⟩ :=
    quiet_of_run lostRun (c := [30, 31]) (l := [31]) (by decide +kernel)
  have hall := (h s ⟨lostRun, hrun⟩ hq).2
  rw [hcodes, hprinted] at hall
  exact absurd hall (by decide)

/-- What a work function prints of the codes: some of them in order, where one may be missing or
come twice, not more than there are, and at last the last one. -/
structure Logged (codes printed : List Nat) : Prop where
  picked : ∃ k, Slot.Picks codes printed k
  length_le : printed.length ≤ codes.length
  last : ∀ code, codes.getLast? = some code → printed.getLast? = some code

/-- A key is pressed only when both works are idle. -/
def Alone (s : State) : Act → Prop
  | .irq _ => s.work_1.Idle ∧ s.work_2.Idle
  | _ => True

instance (s : State) : DecidablePred (Alone s)
  | .irq _ => inferInstanceAs (Decidable (_ ∧ _))
  | .next _ => isTrue trivial
  | .exit => isTrue trivial
  | .handler => isTrue trivial
  | .worker1 => isTrue trivial
  | .numberFirst => isTrue trivial
  | .worker2 => isTrue trivial

theorem logged_of_inv {x : Slot Nat} (h : x.Inv) (hidle : x.Idle) (hs : x.sender = none) :
    Logged x.sent x.handled where
  picked := h.selects.handled hidle
  length_le := h.counts.length_handled_le
  last _ hlast := h.current.handled_getLast? hidle hs hlast

/-- Keys that are pressed one at a time are printed one by one. -/
theorem exact_of_alone {as : List Act} (hrun : module.run module.init as = some s)
    (hal : module.StepsMeet Alone module.init as) : s.slot1.Exact ∧ s.slot2.Exact := by
  have hfresh1 : start.slot1.Fresh := ⟨rfl, rfl, ⟨rfl, rfl⟩, rfl⟩
  have hfresh2 : start.slot2.Fresh := ⟨rfl, rfl, ⟨rfl, rfl⟩, rfl⟩
  refine (Machine.statesMeet_of_stepsMeet (M := module) (P := Alone)
    (I := fun s : State => s.slot1.Exact ∧ s.slot2.Exact) (fun s a s' hs halone hst => ?_)
    ⟨hfresh1.exact, hfresh2.exact⟩ hal).last hrun
  obtain ⟨h1, h2⟩ := slots_step hst
  constructor
  · refine h1.exact hs.1 fun code ha => ?_
    subst ha
    exact halone.1.slot1
  · refine h2.exact hs.2 fun code ha => ?_
    subst ha
    exact halone.2.slot2

/-- At the end of every run that leaves nothing to do, each work function has printed a
selection of the codes in order, no longer than they are and with the last one last; and if each
key was pressed when both works were idle, all of them, each once. -/
theorem codes_logged {as : List Act} (hrun : module.run module.init as = some s)
    (hq : Quiet s) :
    Logged s.codes (s.printed1.map Prod.snd) ∧ Logged s.codes s.printed2 ∧
      (module.StepsMeet Alone module.init as →
        s.printed1.map Prod.snd = s.codes ∧ s.printed2 = s.codes) := by
  obtain ⟨h1, h2⟩ := reachable_slots ⟨as, hrun⟩
  obtain ⟨⟨hidle1, hs1⟩, ⟨hidle2, hs2⟩⟩ := hq.slots
  refine ⟨logged_of_inv h1 hidle1 hs1, logged_of_inv h2 hidle2 hs2, fun hal => ?_⟩
  obtain ⟨hex1, hex2⟩ := exact_of_alone hrun hal
  exact ⟨hex1.handled_eq hidle1 hs1, hex2.handled_eq hidle2 hs2⟩

/-- Two keys, each pressed when the works are idle. -/
def aloneRun : List Act :=
  List.flatten [loading, press 30, List.replicate 5 .worker1, List.replicate 4 .worker2,
    press 200, List.replicate 4 .worker1, List.replicate 4 .worker2]

theorem codes_logged_alone : ∃ s, module.run module.init aloneRun = some s ∧
    s.printed1.map Prod.snd = s.codes ∧ s.printed2 = s.codes ∧ s.codes = [30, 200] := by
  obtain ⟨s, hrun, hq, hcodes, -⟩ :=
    quiet_of_run aloneRun (c := [30, 200]) (l := [30, 200]) (by decide +kernel)
  obtain ⟨hp1, hp2⟩ := (codes_logged hrun hq).2.2 (by decide +kernel)
  exact ⟨s, hrun, hp1, hp2, hcodes⟩

end OsLabs.Workqueue
