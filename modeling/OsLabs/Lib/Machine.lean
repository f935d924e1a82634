/-
# Labelled machines, their runs, and the rules this development proves runs with

A `Machine` is an initial state and a partial step function: `step s a = none` says that the
action `a` is not enabled at `s`.  All nondeterminism of a modelled system (the scheduler, the
order in which requests arrive, what a library call returns) sits in the choice of actions, so
a run is a list of actions and everything about runs is an induction over that list.

The rules, each used by name in the modules about the programs:

* `Machine.reachable_rule`: what holds initially and is preserved by every step holds of every
  reachable state;
* `Machine.statesMeet_of_stepsMeet` and `Machine.stepsMeet_iff_statesMeet`: the same along ONE
  run, for a property that only steps meeting a condition preserve, and its converse when a
  step outside the condition breaks the property at once (`stepsMeet_iff_statesMeet_of_step`
  when one step is an equivalence already);
* `Machine.stepsMeet_iff_count`: a condition that a run meets exactly when it has at most so many
  steps of a kind;
* `Machine.reaches_of_measure`: a goal can be reached from every state of an invariant if each
  state short of the goal can reach another state of the invariant at a smaller measure;
* `Machine.endsIn_of_measure`: every run ends, and ends well, if each step decreases a measure
  and a state without a next step is a good one;
* `Machine.Leads.trans`: whatever the actions are, the machine gets from one goal to the next.
-/
import Mathlib.Algebra.GroupWithZero.Nat
import Mathlib.Data.List.Basic
import Mathlib.Tactic.Common

namespace OsLabs

/-- The examples have one or two parties, named by the numerals of `Fin 1` and `Fin 2`. -/
instance neZero_one : NeZero (1 : Nat) := ⟨Nat.succ_ne_zero 0⟩

instance neZero_two : NeZero (2 : Nat) := ⟨Nat.succ_ne_zero 1⟩

/-- A labelled transition system given by an initial state and a partial step function. -/
structure Machine (σ α : Type) where
  init : σ
  step : σ → α → Option σ

namespace Machine

variable {σ α : Type} {M : Machine σ α}

/-! ## 1. Runs -/

/-- Perform the actions in order; `none` as soon as one of them is not enabled. -/
def run (M : Machine σ α) : σ → List α → Option σ
  | s, [] => some s
  | s, a :: as => (M.step s a).bind fun s' => M.run s' as

@[simp] theorem run_nil (s : σ) : M.run s [] = some s := rfl

theorem run_nil_eq_some {s t : σ} : M.run s [] = some t ↔ s = t := by
  rw [run_nil, Option.some.injEq]

theorem run_cons (s : σ) (a : α) (as : List α) :
    M.run s (a :: as) = (M.step s a).bind fun s' => M.run s' as := rfl

theorem run_cons_eq_some {s t : σ} {a : α} {as : List α} :
    M.run s (a :: as) = some t ↔ ∃ s', M.step s a = some s' ∧ M.run s' as = some t := by
  rw [run_cons, Option.bind_eq_some_iff]

theorem run_append (s : σ) (as bs : List α) :
    M.run s (as ++ bs) = (M.run s as).bind fun s' => M.run s' bs := by
  induction as generalizing s with
  | nil => rfl
  | cons a as ih =>
    simp only [List.cons_append, run_cons, Option.bind_assoc]
    exact congrArg _ (funext fun s' => ih s')

/-- `t` can be reached from `s` by some list of actions. -/
def Reaches (M : Machine σ α) (s t : σ) : Prop := ∃ as, M.run s as = some t

/-- `s` can be reached from the initial state. -/
def Reachable (M : Machine σ α) (s : σ) : Prop := M.Reaches M.init s

theorem Reaches.refl (s : σ) : M.Reaches s s := ⟨[], rfl⟩

theorem Reaches.step {s t : σ} {a : α} (h : M.step s a = some t) : M.Reaches s t :=
  ⟨[a], by rw [run_cons, h]; rfl⟩

theorem Reaches.trans {s t u : σ} (h : M.Reaches s t) (k : M.Reaches t u) : M.Reaches s u := by
  obtain ⟨as, has⟩ := h
  obtain ⟨bs, hbs⟩ := k
  exact ⟨as ++ bs, by rw [run_append, has]; exact hbs⟩

/-- Prefix one step. -/
theorem Reaches.head {s t u : σ} {a : α} (h : M.step s a = some t) (k : M.Reaches t u) :
    M.Reaches s u := (Reaches.step h).trans k

theorem Reachable.trans {s t : σ} (h : M.Reachable s) (k : M.Reaches s t) : M.Reachable t :=
  Reaches.trans h k

/-- A completed run, looked at through `f`. -/
theorem reachable_of_run_map {β : Type} {f : σ → β} {b : β} (as : List α)
    (h : (M.run M.init as).map f = some b) : ∃ s, M.Reachable s ∧ f s = b := by
  obtain ⟨s, hs, hb⟩ := Option.map_eq_some_iff.mp h
  exact ⟨s, ⟨as, hs⟩, hb⟩

/-! ## 2. The invariant rule -/

/-- A property preserved by every step is preserved by every run. -/
theorem run_rule {I : σ → Prop}
    (hstep : ∀ s a s', I s → M.step s a = some s' → I s') :
    ∀ (as : List α) (s t : σ), I s → M.run s as = some t → I t := by
  intro as
  induction as with
  | nil =>
    intro s t hs h
    exact run_nil_eq_some.mp h ▸ hs
  | cons a as ih =>
    intro s t hs h
    obtain ⟨s', hst, hrun⟩ := run_cons_eq_some.mp h
    exact ih s' t (hstep s a s' hs hst) hrun

theorem reaches_rule {I : σ → Prop}
    (hstep : ∀ s a s', I s → M.step s a = some s' → I s') {s t : σ} (hs : I s)
    (h : M.Reaches s t) : I t := by
  obtain ⟨as, has⟩ := h
  exact run_rule hstep as s t hs has

/-- **The invariant rule.** -/
theorem reachable_rule {I : σ → Prop} (hinit : I M.init)
    (hstep : ∀ s a s', I s → M.step s a = some s' → I s') {s : σ}
    (h : M.Reachable s) : I s :=
  reaches_rule hstep hinit h

/-! ## 3. Runs whose steps meet a condition -/

/-- Every step the run performs meets `P`. -/
def StepsMeet (M : Machine σ α) (P : σ → α → Prop) : σ → List α → Prop
  | _, [] => True
  | s, a :: as => ∀ s', M.step s a = some s' → P s a ∧ M.StepsMeet P s' as

instance decidableStepsMeet (M : Machine σ α) (P : σ → α → Prop) [∀ s a, Decidable (P s a)] :
    ∀ (s : σ) (as : List α), Decidable (M.StepsMeet P s as)
  | _, [] => isTrue trivial
  | s, a :: as =>
    have (s' : σ) := decidableStepsMeet M P s' as
    inferInstanceAs (Decidable (∀ s' ∈ M.step s a, P s a ∧ M.StepsMeet P s' as))

/-- Every state the run visits, its first and its last included, meets `Q`. -/
def StatesMeet (M : Machine σ α) (Q : σ → Prop) : σ → List α → Prop
  | s, [] => Q s
  | s, a :: as => Q s ∧ ∀ s', M.step s a = some s' → M.StatesMeet Q s' as

theorem StatesMeet.head {Q : σ → Prop} {s : σ} {as : List α} (h : M.StatesMeet Q s as) :
    Q s := by
  cases as with
  | nil => exact h
  | cons a as => exact h.1

theorem StatesMeet.mono {Q R : σ → Prop} (hQR : ∀ s, Q s → R s) :
    ∀ {as : List α} {s : σ}, M.StatesMeet Q s as → M.StatesMeet R s as := by
  intro as
  induction as with
  | nil =>
    intro s h
    exact hQR s h
  | cons a as ih =>
    intro s h
    exact ⟨hQR s h.1, fun s' hs' => ih (h.2 s' hs')⟩

theorem StatesMeet.last {Q : σ → Prop} :
    ∀ {as : List α} {s t : σ}, M.StatesMeet Q s as → M.run s as = some t → Q t := by
  intro as
  induction as with
  | nil =>
    intro s t h hrun
    exact run_nil_eq_some.mp hrun ▸ h
  | cons a as ih =>
    intro s t h hrun
    obtain ⟨s', hst, hrun'⟩ := run_cons_eq_some.mp hrun
    exact ih (h.2 s' hst) hrun'

/-- The states of a run and of one that goes on from its end. -/
theorem StatesMeet.append {Q : σ → Prop} :
    ∀ {as bs : List α} {s t : σ}, M.StatesMeet Q s as → M.run s as = some t →
      M.StatesMeet Q t bs → M.StatesMeet Q s (as ++ bs) := by
  intro as
  induction as with
  | nil =>
    intro bs s t _ hrun hbs
    exact run_nil_eq_some.mp hrun ▸ hbs
  | cons a as ih =>
    intro bs s t has hrun hbs
    obtain ⟨s', hst, hrun'⟩ := run_cons_eq_some.mp hrun
    refine ⟨has.1, fun r hr => ?_⟩
    obtain rfl : s' = r := Option.some.inj (hst.symm.trans hr)
    exact ih (has.2 s' hst) hrun' hbs

/-- **The invariant rule along one run.**  A property that the steps meeting `P` preserve
holds in every state of a run all of whose steps meet `P`. -/
theorem statesMeet_of_stepsMeet {P : σ → α → Prop} {I : σ → Prop}
    (hstep : ∀ s a s', I s → P s a → M.step s a = some s' → I s') :
    ∀ {as : List α} {s : σ}, I s → M.StepsMeet P s as → M.StatesMeet I s as := by
  intro as
  induction as with
  | nil =>
    intro s hs _
    exact hs
  | cons a as ih =>
    intro s hs h
    refine ⟨hs, fun s' hst => ?_⟩
    obtain ⟨hP, hrest⟩ := h s' hst
    exact ih (hstep s a s' hs hP hst) hrest

/-- A condition that every state of an invariant meets is met by all steps of a run. -/
theorem stepsMeet_of_inv {P : σ → α → Prop} {I : σ → Prop}
    (hstep : ∀ s a s', I s → M.step s a = some s' → I s' ∧ P s a) :
    ∀ {as : List α} {s : σ}, I s → M.StepsMeet P s as := by
  intro as
  induction as with
  | nil =>
    intro s _
    trivial
  | cons a as ih =>
    intro s hs s' hst
    obtain ⟨hs', hP⟩ := hstep s a s' hs hst
    exact ⟨hP, ih hs'⟩

/-- A property that no step meeting `P` brings about holds all along a run of such steps that
ends with it. -/
theorem StepsMeet.statesMeet_of_run {P : σ → α → Prop} {I R : σ → Prop}
    (hstep : ∀ s a s', I s → P s a → M.step s a = some s' → I s')
    (hback : ∀ s a s', I s → P s a → M.step s a = some s' → R s' → R s) :
    ∀ {as : List α} {s t : σ}, I s → M.StepsMeet P s as → M.run s as = some t → R t →
      M.StatesMeet (fun s => I s ∧ R s) s as := by
  intro as
  induction as with
  | nil =>
    intro s t hI _ hrun ht
    exact ⟨hI, run_nil_eq_some.mp hrun ▸ ht⟩
  | cons a as ih =>
    intro s t hI h hrun ht
    obtain ⟨s', hst, hrun'⟩ := run_cons_eq_some.mp hrun
    obtain ⟨hP, hsteps⟩ := h s' hst
    have hrest := ih (hstep s a s' hI hP hst) hsteps hrun' ht
    refine ⟨⟨hI, hback s a s' hI hP hst hrest.head.2⟩, fun r hr => ?_⟩
    obtain rfl : s' = r := Option.some.inj (hst.symm.trans hr)
    exact hrest

/-- The same for a property that no step from a state of an invariant brings about. -/
theorem statesMeet_of_run_of_inv {I R : σ → Prop}
    (hstep : ∀ s a s', I s → M.step s a = some s' → I s')
    (hback : ∀ s a s', I s → M.step s a = some s' → R s' → R s) {as : List α} {s t : σ}
    (hI : I s) (hrun : M.run s as = some t) (ht : R t) : M.StatesMeet R s as := by
  have hsteps : M.StepsMeet (fun _ _ => True) s as :=
    stepsMeet_of_inv (I := I) (fun s a s' hI hst => ⟨hstep s a s' hI hst, trivial⟩) hI
  exact (hsteps.statesMeet_of_run (fun s a s' hI _ => hstep s a s' hI)
    (fun s a s' hI _ => hback s a s' hI) hI hrun ht).mono fun _ h => h.2

/-- The same for a property that no step at all brings about. -/
theorem statesMeet_of_run {R : σ → Prop}
    (hback : ∀ s a s', M.step s a = some s' → R s' → R s) {as : List α} {s t : σ}
    (hrun : M.run s as = some t) (ht : R t) : R s ∧ M.StatesMeet R s as := by
  have h := statesMeet_of_run_of_inv (I := fun _ => True) (fun _ _ _ _ _ => trivial)
    (fun s a s' _ => hback s a s') trivial hrun ht
  exact ⟨h.head, h⟩

/-- **The exact condition along one run.**  If the steps meeting `P` preserve an invariant
that implies `Q`, and a step outside `P` leaves a state of the invariant for one without `Q`,
then a run stays in `Q` exactly when all its steps meet `P`. -/
theorem stepsMeet_iff_statesMeet {P : σ → α → Prop} {I Q : σ → Prop}
    (hQ : ∀ s, I s → Q s)
    (hstep : ∀ s a s', I s → P s a → M.step s a = some s' → I s')
    (hbad : ∀ s a s', I s → ¬ P s a → M.step s a = some s' → ¬ Q s') :
    ∀ {as : List α} {s : σ}, I s → (M.StepsMeet P s as ↔ M.StatesMeet Q s as) := by
  intro as s hs
  constructor
  · intro h
    exact (statesMeet_of_stepsMeet hstep hs h).mono hQ
  · intro h
    induction as generalizing s with
    | nil => trivial
    | cons a as ih =>
      intro s' hst
      have hP : P s a := by
        by_contra hP
        exact hbad s a s' hs hP hst (h.2 s' hst).head
      exact ⟨hP, ih (hstep s a s' hs hP hst) (h.2 s' hst)⟩

/-- The same for a property that a step from a state with it keeps exactly when it meets `P`. -/
theorem stepsMeet_iff_statesMeet_of_step {P : σ → α → Prop} {I Q : σ → Prop}
    (hI : ∀ s a s', I s → M.step s a = some s' → I s')
    (hstep : ∀ s a s', I s → Q s → M.step s a = some s' → (Q s' ↔ P s a))
    {as : List α} {s : σ} (hs : I s) (hQ : Q s) :
    M.StepsMeet P s as ↔ M.StatesMeet Q s as := by
  refine stepsMeet_iff_statesMeet (I := fun s => I s ∧ Q s) (fun _ h => h.2) ?_ ?_ ⟨hs, hQ⟩
  · rintro s a s' ⟨hs, hQ⟩ hP hst
    exact ⟨hI s a s' hs hst, (hstep s a s' hs hQ hst).mpr hP⟩
  · rintro s a s' ⟨hs, hQ⟩ hP hst hQ'
    exact hP ((hstep s a s' hs hQ hst).mp hQ')

theorem StepsMeet.append {P : σ → α → Prop} :
    ∀ {as bs : List α} {s t : σ}, M.StepsMeet P s as → M.run s as = some t →
      M.StepsMeet P t bs → M.StepsMeet P s (as ++ bs) := by
  intro as
  induction as with
  | nil =>
    intro bs s t _ hrun hbs
    exact run_nil_eq_some.mp hrun ▸ hbs
  | cons a as ih =>
    intro bs s t has hrun hbs
    obtain ⟨s', hst, hrun'⟩ := run_cons_eq_some.mp hrun
    intro r hr
    obtain rfl : s' = r := Option.some.inj (hst.symm.trans hr)
    obtain ⟨hP, hrest⟩ := has s' hst
    exact ⟨hP, ih hrest hrun' hbs⟩

/-- How many steps of the run are of the kind `p`. -/
def count (M : Machine σ α) (p : σ → α → Bool) : σ → List α → Nat
  | _, [] => 0
  | s, a :: as => (p s a).toNat + ((M.step s a).map fun s' => M.count p s' as).getD 0

/-- **Counting steps.**  If a state counts the steps of the kind `p`, and a step meets `P` exactly
when it is not one of these that finds the count at `n`, then all steps of a run meet `P` exactly
when at most `n` are counted by its end. -/
theorem stepsMeet_iff_count {p : σ → α → Bool} {P : σ → α → Prop} {I : σ → Prop} {m : σ → Nat}
    {n : Nat} (hle : ∀ s, I s → m s ≤ n)
    (hP : ∀ s a, I s → (P s a ↔ (p s a = true → m s < n)))
    (hstep : ∀ s a s', I s → P s a → M.step s a = some s' → I s' ∧ m s' = m s + (p s a).toNat) :
    ∀ (as : List α) (s t : σ), I s → M.run s as = some t →
      (M.StepsMeet P s as ↔ m s + M.count p s as ≤ n) := by
  intro as
  induction as with
  | nil =>
    intro s t hs _
    simpa [StepsMeet, count] using hle s hs
  | cons a as ih =>
    intro s t hs hrun
    obtain ⟨s', hst, hrun'⟩ := run_cons_eq_some.mp hrun
    have hone : P s a ↔ m s + (p s a).toNat ≤ n := by
      rw [hP s a hs]
      have hm := hle s hs
      cases p s a with
      | false => simpa using hm
      | true => exact ⟨fun h => h rfl, fun h _ => h⟩
    rw [count, hst, Option.map_some, Option.getD_some, ← Nat.add_assoc]
    constructor
    · intro h
      obtain ⟨hPa, hrest⟩ := h s' hst
      obtain ⟨hs', hm'⟩ := hstep s a s' hs hPa hst
      exact hm' ▸ (ih s' t hs' hrun').mp hrest
    · intro h r hr
      obtain rfl : s' = r := Option.some.inj (hst.symm.trans hr)
      have hPa := hone.mpr (Nat.le_trans (Nat.le_add_right _ _) h)
      obtain ⟨hs', hm'⟩ := hstep s a s' hs hPa hst
      exact ⟨hPa, (ih s' t hs' hrun').mpr (hm'.symm ▸ h)⟩

/-! ## 4. Reaching a goal -/

/-- **The progress rule.**  Short of the goal, a state of the invariant can always reach a
state of the invariant at a smaller measure; so the goal can be reached. -/
theorem reaches_of_measure {I G : σ → Prop} (m : σ → Nat)
    (h : ∀ s, I s → ¬ G s → ∃ t, M.Reaches s t ∧ I t ∧ m t < m s) :
    ∀ s, I s → ∃ t, M.Reaches s t ∧ I t ∧ G t := by
  intro s
  induction hn : m s using Nat.strongRecOn generalizing s with
  | _ n ih =>
    intro hs
    by_cases hg : G s
    · exact ⟨s, Reaches.refl s, hs, hg⟩
    · obtain ⟨t, hst, ht, hlt⟩ := h s hs hg
      obtain ⟨u, htu, hu, hgu⟩ := ih (m t) (hn ▸ hlt) t rfl ht
      exact ⟨u, hst.trans htu, hu, hgu⟩

/-! ## 5. Runs that end -/

/-- No action is enabled. -/
def Stuck (M : Machine σ α) (s : σ) : Prop := ∀ a, M.step s a = none

/-- Every run is finite, and one that cannot go on has ended in `Q`. -/
structure EndsIn (M : Machine σ α) (Q : σ → Prop) : Prop where
  finite : ∃ k, ∀ as t, M.run M.init as = some t → as.length ≤ k
  final : ∀ t, M.Reachable t → M.Stuck t → Q t

theorem EndsIn.mono {Q R : σ → Prop} (h : M.EndsIn Q) (hQR : ∀ s, Q s → R s) : M.EndsIn R :=
  ⟨h.finite, fun t ht hstuck => hQR t (h.final t ht hstuck)⟩

/-- A run takes no more steps than the measure it uses up. -/
theorem length_add_measure_le {I : σ → Prop} (m : σ → Nat)
    (hstep : ∀ s a s', I s → M.step s a = some s' → I s' ∧ m s' < m s) :
    ∀ (as : List α) (s t : σ), I s → M.run s as = some t → as.length + m t ≤ m s := by
  intro as
  induction as with
  | nil =>
    intro s t _ h
    simp [run_nil_eq_some.mp h]
  | cons a as ih =>
    intro s t hs h
    obtain ⟨s', hst, hrun⟩ := run_cons_eq_some.mp h
    obtain ⟨hs', hlt⟩ := hstep s a s' hs hst
    have hle := ih s' t hs' hrun
    rw [List.length_cons]
    omega

/-- **The termination rule.**  Every step from a state of the invariant decreases the measure,
and a state of the invariant without a next step meets `Q`. -/
theorem endsIn_of_measure {I Q : σ → Prop} (m : σ → Nat) (hinit : I M.init)
    (hstep : ∀ s a s', I s → M.step s a = some s' → I s' ∧ m s' < m s)
    (hstuck : ∀ s, I s → M.Stuck s → Q s) : M.EndsIn Q where
  finite := by
    refine ⟨m M.init, fun as t hrun => ?_⟩
    have hle := length_add_measure_le m hstep as M.init t hinit hrun
    omega
  final t ht hstk := by
    have hI : I t := reachable_rule hinit (fun s a s' hs h => (hstep s a s' hs h).1) ht
    exact hstuck t hI hstk

/-! ## 6. Goals that cannot be missed -/

/-- Every action is enabled until a state with `Q` is reached, and it is reached. -/
inductive Leads (M : Machine σ α) (Q : σ → Prop) : σ → Prop
  | here {s : σ} : Q s → Leads M Q s
  | next {s : σ} : (∀ a, M.step s a ≠ none) → (∀ a s', M.step s a = some s' → Leads M Q s') →
      Leads M Q s

theorem Leads.trans {Q R : σ → Prop} {s : σ} (h : M.Leads Q s)
    (hQR : ∀ t, Q t → M.Leads R t) : M.Leads R s := by
  induction h with
  | here hQ => exact hQR _ hQ
  | next hsome _ ih => exact .next hsome ih

/-- A step whose result does not depend on the action. -/
theorem Leads.step {Q : σ → Prop} {s t : σ} (hst : ∀ a, M.step s a = some t)
    (h : M.Leads Q t) : M.Leads Q s := by
  refine .next (fun a => by simp [hst a]) fun a s' hs' => ?_
  obtain rfl : t = s' := Option.some.inj ((hst a).symm.trans hs')
  exact h

theorem Leads.exists [Nonempty α] {Q : σ → Prop} {s : σ} (h : M.Leads Q s) : ∃ t, Q t := by
  induction h with
  | @here s hQ => exact ⟨s, hQ⟩
  | next hsome _ ih =>
    obtain ⟨a⟩ := ‹Nonempty α›
    obtain ⟨s', hst⟩ := Option.ne_none_iff_exists'.mp (hsome a)
    exact ih a s' hst

/-- A goal from which the machine gets to where a computation gets too, whatever that is. -/
theorem Leads.trans_ok [Nonempty α] {ε ρ : Type} {Q : σ → Prop} {R : ρ → σ → Prop}
    {e : Except ε ρ} {s : σ} (h : M.Leads Q s)
    (hQ : ∀ t, Q t → ∃ r, e = .ok r ∧ M.Leads (R r) t) : ∃ r, e = .ok r ∧ M.Leads (R r) s := by
  obtain ⟨t, ht⟩ := h.exists
  obtain ⟨r, he, -⟩ := hQ t ht
  refine ⟨r, he, h.trans fun u hu => ?_⟩
  obtain ⟨r', he', hu'⟩ := hQ u hu
  obtain rfl : r = r' := Except.ok.inj (he.symm.trans he')
  exact hu'

/-- If nothing can be done at the goal, a run that cannot go on has ended there. -/
theorem Leads.final [Nonempty α] {Q : σ → Prop} {s : σ} (h : M.Leads Q s)
    (hQ : ∀ u, Q u → M.Stuck u) {as : List α} {t : σ} (hrun : M.run s as = some t)
    (hstuck : M.Stuck t) : Q t := by
  induction h generalizing as with
  | @here s hs =>
    cases as with
    | nil => exact run_nil_eq_some.mp hrun ▸ hs
    | cons a as =>
      obtain ⟨s', hst, -⟩ := run_cons_eq_some.mp hrun
      exact absurd hst (by simp [hQ s hs a])
  | @next s hsome _ ih =>
    cases as with
    | nil =>
      obtain rfl := run_nil_eq_some.mp hrun
      obtain ⟨a⟩ := ‹Nonempty α›
      exact absurd (hstuck a) (hsome a)
    | cons a as =>
      obtain ⟨s', hst, hrun'⟩ := run_cons_eq_some.mp hrun
      exact ih a s' hst hrun'

end Machine

end OsLabs
