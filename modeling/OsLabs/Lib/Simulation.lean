/-
# Simulation between machines

A machine `M` is simulated by a machine `N` if its initial state is related to that of `N`, and
each of its steps is matched by a run of `N` that ends in a related state: one step, several, or
none where the step of `M` means nothing to `N`.  Then every run of `M` is matched
(`Simulates.run`), and what holds of the reachable states of `N` holds of those of `M`, as far as
the relation carries it (`Simulates.transfer`).  Where `N` matches only some of the actions, `M` is
restricted to these (`restrict`).

Two machines with the same actions bisimulate each other if each step of the one is the step of
the same action in the other; then they have the same runs (`Bisimulates.run_left`,
`Bisimulates.run_right`).
-/
import OsLabs.Lib.Machine

namespace OsLabs

namespace Machine

variable {σ τ α β : Type} {M : Machine σ α} {N : Machine τ β} {R : σ → τ → Prop}

structure Simulates (M : Machine σ α) (N : Machine τ β) (R : σ → τ → Prop) : Prop where
  init : R M.init N.init
  step : ∀ s a s' t, R s t → M.step s a = some s' → ∃ t', N.Reaches t t' ∧ R s' t'

/-- **Every run is matched**, step by step. -/
theorem Simulates.run (h : M.Simulates N R) :
    ∀ (as : List α) (s s' : σ) (t : τ), R s t → M.run s as = some s' →
      ∃ t', N.Reaches t t' ∧ R s' t' := by
  intro as
  induction as with
  | nil =>
    intro s s' t hR hrun
    exact ⟨t, Reaches.refl t, run_nil_eq_some.mp hrun ▸ hR⟩
  | cons a as ih =>
    intro s s' t hR hrun
    obtain ⟨u, hst, hrest⟩ := run_cons_eq_some.mp hrun
    obtain ⟨v, htv, hRv⟩ := h.step s a u t hR hst
    obtain ⟨t', hvt', hR'⟩ := ih u s' v hRv hrest
    exact ⟨t', htv.trans hvt', hR'⟩

theorem Simulates.reachable (h : M.Simulates N R) {s : σ} (hs : M.Reachable s) :
    ∃ t, N.Reachable t ∧ R s t := by
  obtain ⟨as, has⟩ := hs
  exact h.run as M.init s N.init h.init has

/-- **What is safe above is safe below.** -/
theorem Simulates.transfer {P : σ → Prop} {Q : τ → Prop} (h : M.Simulates N R)
    (hPQ : ∀ s t, R s t → Q t → P s) (hQ : ∀ t, N.Reachable t → Q t) {s : σ}
    (hs : M.Reachable s) : P s := by
  obtain ⟨t, ht, hR⟩ := h.reachable hs
  exact hPQ s t hR (hQ t ht)

/-- A step that is matched by a single one. -/
theorem Simulates.of_step {t t' : τ} {b : β} {Q : τ → Prop} (hst : N.step t b = some t')
    (hQ : Q t') : ∃ t', N.Reaches t t' ∧ Q t' :=
  ⟨t', Reaches.step hst, hQ⟩

/-- A step that means nothing to `N`. -/
theorem Simulates.of_stutter {t : τ} {Q : τ → Prop} (hQ : Q t) :
    ∃ t', N.Reaches t t' ∧ Q t' :=
  ⟨t, Reaches.refl t, hQ⟩

/-- The machine, with the actions that are `P` only. -/
def restrict (M : Machine σ α) (P : α → Prop) [DecidablePred P] : Machine σ α where
  init := M.init
  step s a := if P a then M.step s a else none

theorem restrict_step_eq_some {P : α → Prop} [DecidablePred P] {s s' : σ} {a : α} :
    (M.restrict P).step s a = some s' ↔ P a ∧ M.step s a = some s' :=
  Option.ite_none_right_eq_some

/-- A run whose actions are all `P`. -/
theorem run_restrict {P : α → Prop} [DecidablePred P] {as : List α} (h : ∀ a ∈ as, P a) (s : σ) :
    (M.restrict P).run s as = M.run s as := by
  induction as generalizing s with
  | nil => rfl
  | cons a as ih =>
    obtain ⟨ha, has⟩ := List.forall_mem_cons.mp h
    have hstep : (M.restrict P).step s a = M.step s a := if_pos ha
    rw [run_cons, run_cons, hstep]
    exact congrArg _ (funext fun s' => ih has s')

/-- The same actions, in related states. -/
structure Bisimulates (M : Machine σ α) (N : Machine τ α) (R : σ → τ → Prop) : Prop where
  init : R M.init N.init
  left : ∀ s a s' t, R s t → M.step s a = some s' → ∃ t', N.step t a = some t' ∧ R s' t'
  right : ∀ s a t' t, R s t → N.step t a = some t' → ∃ s', M.step s a = some s' ∧ R s' t'

variable {N' : Machine τ α}

theorem Bisimulates.symm (h : M.Bisimulates N' R) : N'.Bisimulates M fun t s => R s t where
  init := h.init
  left t a t' s := h.right s a t' t
  right t a s' s := h.left s a s' t

/-- **A run of the one is a run of the other.** -/
theorem Bisimulates.run_left (h : M.Bisimulates N' R) :
    ∀ (as : List α) (s s' : σ) (t : τ), R s t → M.run s as = some s' →
      ∃ t', N'.run t as = some t' ∧ R s' t' := by
  intro as
  induction as with
  | nil =>
    intro s s' t hR hrun
    exact ⟨t, rfl, run_nil_eq_some.mp hrun ▸ hR⟩
  | cons a as ih =>
    intro s s' t hR hrun
    obtain ⟨u, hst, hrest⟩ := run_cons_eq_some.mp hrun
    obtain ⟨v, htv, hRv⟩ := h.left s a u t hR hst
    obtain ⟨t', hvt', hR'⟩ := ih u s' v hRv hrest
    exact ⟨t', run_cons_eq_some.mpr ⟨v, htv, hvt'⟩, hR'⟩

theorem Bisimulates.run_right (h : M.Bisimulates N' R) (as : List α) (s : σ) (t t' : τ)
    (hR : R s t) (hrun : N'.run t as = some t') : ∃ s', M.run s as = some s' ∧ R s' t' :=
  h.symm.run_left as t t' s hR hrun

end Machine

end OsLabs
