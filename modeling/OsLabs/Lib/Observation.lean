/-
# What the caller of an operation can tell

A module with operations is a function from its state and a call to an answer and the next
state, or to an error that ends it.  All that a caller can learn of the state is the answers to
its later calls, so two states are `Alike` when every sequence of calls is answered alike.

* `alike_of_bisim`: a relation that each call keeps, with the same answer, relates only states
  that are alike;
* `Alike.next`: states that are alike stay so, and answer the next call alike.
-/
import Mathlib.Tactic.Common

namespace OsLabs.Observation

variable {σ α β ε : Type} {op : σ → α → Except ε (β × σ)}

/-- The answers to the calls in order; an error is the last. -/
def answers (op : σ → α → Except ε (β × σ)) : σ → List α → List (Except ε β)
  | _, [] => []
  | s, c :: cs =>
    match op s c with
    | .error e => [.error e]
    | .ok (a, s') => .ok a :: answers op s' cs

/-- No sequence of calls tells the two states apart. -/
def Alike (op : σ → α → Except ε (β × σ)) (s t : σ) : Prop :=
  ∀ cs, answers op s cs = answers op t cs

/-- The same outcome, with next states related by `R`. -/
inductive SameOutcome (R : σ → σ → Prop) : Except ε (β × σ) → Except ε (β × σ) → Prop
  | error (e : ε) : SameOutcome R (.error e) (.error e)
  | ok (a : β) {s t : σ} (h : R s t) : SameOutcome R (.ok (a, s)) (.ok (a, t))

theorem Alike.refl (s : σ) : Alike op s s := fun _ => rfl

theorem Alike.symm {s t : σ} (h : Alike op s t) : Alike op t s := fun cs => (h cs).symm

/-- **The rule of bisimulation.** -/
theorem alike_of_bisim {R : σ → σ → Prop}
    (hstep : ∀ s t c, R s t → SameOutcome R (op s c) (op t c)) {s t : σ} (h : R s t) :
    Alike op s t := by
  intro cs
  induction cs generalizing s t with
  | nil => rfl
  | cons c cs ih =>
    have hout := hstep s t c h
    unfold answers
    generalize op s c = x at hout ⊢
    generalize op t c = y at hout ⊢
    cases hout with
    | error e => rfl
    | ok a hR => exact congrArg _ (ih hR)

/-- **Alike states answer the next call alike**, and are alike afterwards. -/
theorem Alike.next {s t s' t' : σ} {c : α} {a b : β} (h : Alike op s t)
    (hs : op s c = .ok (a, s')) (ht : op t c = .ok (b, t')) : a = b ∧ Alike op s' t' := by
  have hcons : ∀ cs, answers op s (c :: cs) = .ok a :: answers op s' cs ∧
      answers op t (c :: cs) = .ok b :: answers op t' cs := by
    intro cs
    constructor
    · rw [answers, hs]
    · rw [answers, ht]
  constructor
  · have heq := h [c]
    rw [(hcons []).1, (hcons []).2] at heq
    exact Except.ok.inj (List.cons.inj heq).1
  · intro cs
    have heq := h (c :: cs)
    rw [(hcons cs).1, (hcons cs).2] at heq
    exact (List.cons.inj heq).2

end OsLabs.Observation
