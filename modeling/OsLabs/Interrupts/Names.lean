/-
# The names of the keys

`mywq_fun_1` reads `code` from the work three times: for the test that it is below the number of
names, and then for the index of the name and for the number behind the name, in either order.
`my_irq_handler` may store another code between two of these reads.

What a read finds is the last code that was stored before it.  The index is out of range, or the
name is that of another key than the number, exactly when one of the reads behind the test finds a
code that is not below the number of names, or the second of them another one than the first
(`key_names_iff`).
-/
import OsLabs.Interrupts.Workqueue

namespace OsLabs.Workqueue

open OsLabs

/-! ## 1. The condition -/

/-- A name that is printed is in the table, and is that of the code behind it. -/
def RightLine (name : Option Nat) (code : Nat) : Prop :=
  ∀ n, name = some n → n < ASCII_SIZE ∧ n = code

/-- **The table is used rightly**: the index of the name that has been looked up, and the lines
that are about to be printed or have been printed. -/
structure Named (s : State) : Prop where
  index : ∀ name, s.work_1.run = some (.number name) → name < ASCII_SIZE
  line : ∀ name code, s.work_1.run = some (.printk name code) → RightLine name code
  printed : ∀ l ∈ s.printed1, RightLine l.1 l.2

/-- What a read of the work function should find: for the index a code that is one, and at the
second of the two reads the code that the first has found. -/
def Expects (run : Option Fun1) (code : Nat) : Prop :=
  match run with
  | some .args => code < ASCII_SIZE
  | some (.number name) => code = name
  | some (.index number) => code < ASCII_SIZE ∧ code = number
  | _ => True

/-- The condition on a step: the last code that was stored before a read is as it should be.  The
number may be anything that is read first. -/
def Settled (s : State) : Act → Prop
  | .worker1 => Expects s.work_1.run s.work_1.code
  | _ => True

variable {s s' : State} {ok : Bool} {a : Act} {k : Handler}

/-! ## 2. The steps -/

/-- The step leaves alone what the first work function has read and printed. -/
structure SameLine (s s' : State) : Prop where
  run : s'.work_1.run = s.work_1.run
  printed : s'.printed1 = s.printed1

theorem SameLine.named_iff (h : SameLine s s') : Named s' ↔ Named s := by
  obtain ⟨hrun, hprinted⟩ := h
  constructor
  · intro hs
    exact ⟨hrun ▸ hs.index, hrun ▸ hs.line, hprinted ▸ hs.printed⟩
  · intro hs
    exact ⟨hrun.symm ▸ hs.index, hrun.symm ▸ hs.line, hprinted.symm ▸ hs.printed⟩

theorem next_sameLine (h : s.next ok = some s') : SameLine s s' := by
  unfold State.next at h
  split at h <;> simp only [Option.ite_none_right_eq_some, Option.some.injEq, reduceCtorEq] at h
  -- the steps that wait and those that always go on, and then those that may fail
  all_goals
    first
    | (obtain ⟨-, rfl⟩ := h; exact ⟨rfl, rfl⟩)
    | (split at h <;> subst h <;> exact ⟨rfl, rfl⟩)

theorem handlerStep_sameLine (h : s.handlerStep k = some s') : SameLine s s' := by
  cases k with
  | ret =>
    obtain rfl := Option.some.inj h
    exact ⟨rfl, rfl⟩
  | _ =>
    simp only [State.handlerStep, Option.ite_none_right_eq_some, Option.some.injEq] at h
    obtain ⟨-, rfl⟩ := h
    exact ⟨rfl, rfl⟩

theorem worker2_sameLine (h : s.worker2 = some s') : SameLine s s' := by
  simp only [State.worker2, Option.ite_none_right_eq_some] at h
  obtain ⟨-, h⟩ := h
  split at h
  · obtain ⟨w, -, rfl⟩ := Option.map_eq_some_iff.mp h
    exact ⟨rfl, rfl⟩
  all_goals
    obtain rfl := Option.some.inj h
    exact ⟨rfl, rfl⟩

/-- The work function has read nothing that it will print, and printed nothing more. -/
theorem Named.of_unread (h : Named s) (hindex : ∀ name, s'.work_1.run ≠ some (.number name))
    (hline : ∀ name code, s'.work_1.run ≠ some (.printk name code))
    (hprinted : s'.printed1 = s.printed1) : Named s' :=
  ⟨fun name hname => absurd hname (hindex name), fun name code hl => absurd hl (hline name code),
    hprinted ▸ h.printed⟩

/-- A line is about to be printed. -/
theorem Named.printk_iff (h : Named s) {name : Option Nat} {code : Nat}
    (hrun : s'.work_1.run = some (.printk name code)) (hprinted : s'.printed1 = s.printed1) :
    Named s' ↔ RightLine name code := by
  constructor
  · exact fun hs => hs.line name code hrun
  · intro hright
    refine ⟨fun n hn => absurd (hrun.symm.trans hn) (by simp), fun n c hl => ?_,
      hprinted ▸ h.printed⟩
    obtain ⟨rfl, rfl⟩ := Fun1.printk.inj (Option.some.inj (hrun.symm.trans hl))
    exact hright

/-- **The work function goes on** rightly exactly when its read finds what it should. -/
theorem Named.worker1_iff (h : Named s) (hst : s.worker1 = some s') :
    Named s' ↔ Expects s.work_1.run s.work_1.code := by
  simp only [State.worker1, Option.ite_none_right_eq_some] at hst
  obtain ⟨-, hst⟩ := hst
  split at hst
  · -- the work is taken from the queue
    rename_i hrun
    obtain ⟨w, hw, rfl⟩ := Option.map_eq_some_iff.mp hst
    simp only [Work.start, Option.ite_none_right_eq_some, Option.some.injEq] at hw
    obtain ⟨-, rfl⟩ := hw
    rw [hrun]
    exact iff_of_true (h.of_unread (by simp) (by simp) rfl) trivial
  · -- the test
    rename_i hrun
    obtain rfl := Option.some.inj hst
    rw [hrun]
    refine iff_of_true (h.of_unread (fun name => ?_) (fun name code => ?_) rfl) trivial
    · dsimp only
      split <;> simp
    · dsimp only
      split <;> simp
  · -- the index, before the number
    rename_i hrun
    obtain rfl := Option.some.inj hst
    rw [hrun]
    constructor
    · exact fun hs => hs.index _ rfl
    · intro hlt
      refine ⟨fun name hname => ?_, fun _ _ hl => absurd hl (by simp), h.printed⟩
      obtain rfl := Fun1.number.inj (Option.some.inj hname)
      exact hlt
  · -- the number, behind the index
    rename_i name hrun
    obtain rfl := Option.some.inj hst
    rw [hrun]
    refine Iff.trans (h.printk_iff rfl rfl) ?_
    have hlt := h.index name hrun
    constructor
    · exact fun hright => (hright name rfl).2.symm
    · intro hcode n hn
      obtain rfl := Option.some.inj hn
      exact ⟨hlt, hcode.symm⟩
  · -- the index, behind the number
    rename_i code hrun
    obtain rfl := Option.some.inj hst
    rw [hrun]
    refine Iff.trans (h.printk_iff rfl rfl) ?_
    constructor
    · exact fun hright => hright _ rfl
    · intro hboth n hn
      obtain rfl := Option.some.inj hn
      exact hboth
  · -- the number alone
    rename_i hrun
    obtain rfl := Option.some.inj hst
    rw [hrun]
    refine Iff.trans (h.printk_iff rfl rfl) ?_
    exact iff_of_true (fun n hn => absurd hn (by simp)) trivial
  · -- the line is printed
    rename_i name code hrun
    obtain rfl := Option.some.inj hst
    rw [hrun]
    refine iff_of_true ⟨fun _ hn => absurd hn (by simp [Work.finish]),
      fun _ _ hl => absurd hl (by simp [Work.finish]), fun l hl => ?_⟩ trivial
    rcases List.mem_append.mp hl with hl | hl
    · exact h.printed l hl
    · obtain rfl := List.mem_singleton.mp hl
      exact h.line name code hrun

/-- **One step**: the table is used rightly exactly when the read, if it is one, finds what it
should. -/
theorem Named.step_iff (h : Named s) (hst : module.step s a = some s') :
    Named s' ↔ Settled s a := by
  have hsame : SameLine s s' → (Named s' ↔ True) := fun hs =>
    iff_of_true (hs.named_iff.mpr h) trivial
  cases a with
  | next ok => exact hsame (next_sameLine hst)
  | exit =>
    simp only [module, Option.ite_none_right_eq_some, Option.some.injEq] at hst
    obtain ⟨-, rfl⟩ := hst
    exact hsame ⟨rfl, rfl⟩
  | irq code =>
    simp only [module, Option.ite_none_right_eq_some, Option.some.injEq] at hst
    obtain ⟨-, rfl⟩ := hst
    exact hsame ⟨rfl, rfl⟩
  | handler =>
    obtain ⟨k, -, hst⟩ := Option.bind_eq_some_iff.mp hst
    exact hsame (handlerStep_sameLine hst)
  | worker1 => exact h.worker1_iff hst
  | numberFirst =>
    obtain ⟨-, rfl⟩ := numberFirst_cases hst
    exact iff_of_true (h.of_unread (by simp) (by simp) rfl) trivial
  | worker2 => exact hsame (worker2_sameLine hst)

/-! ## 3. Whole runs -/

/-- **The table of names.**  Along every run, with any interrupts, every index is in the table and
every name is that of the number behind it exactly when each read finds what it should: the last
code that was stored before the index is read is below the number of names, and the last one that
was stored before the second of the two reads is the one that the first has found. -/
theorem key_names_iff (as : List Act) :
    module.StepsMeet Settled module.init as ↔ module.StatesMeet Named module.init as :=
  Machine.stepsMeet_iff_statesMeet_of_step (M := module) (I := fun _ => True)
    (fun _ _ _ _ _ => trivial) (fun _ _ _ _ h hst => h.step_iff hst) trivial
    ⟨fun _ h => absurd h (by simp [module, start]), fun _ _ h => absurd h (by simp [module, start]),
      fun _ h => absurd h (by simp [module, start])⟩

/-- A key is pressed, and released when the work function has made its test. -/
def releasedRun : List Act :=
  List.flatten [List.replicate 10 (.next true), .irq 30 :: List.replicate 5 .handler,
    List.replicate 2 .worker1, [.irq 158, .handler, .worker1]]

/-- **Outside the table**: the index is the code of the key's release. -/
theorem name_outside : ¬ ∀ as, (∀ code, .irq code ∈ as → code < 256) →
    module.StatesMeet Named module.init as := by
  intro h
  have hall := h releasedRun fun code hcode => by
    have hcode' : code = 30 ∨ code = 158 := by simpa [releasedRun] using hcode
    omega
  obtain ⟨s, hrun, hname⟩ : ∃ s, module.run module.init releasedRun = some s ∧
      s.work_1.run = some (.number 158) :=
    ⟨_, rfl, rfl⟩
  exact absurd ((hall.last hrun).index 158 hname) (by decide)

end OsLabs.Workqueue
