/-
# Programs that create threads, join them and close what they used

`main` creates `n` threads one after the other, joins them in the same order and then closes the
streams or descriptors it gave them.  A thread runs once it is created; its steps come in any
order with those of the other threads and of `main`.

`Lawful` collects what a program has to show about single steps: an invariant, a measure that
the threads' steps use up, and that a thread can go on until it is done.  From it `Lawful.endsIn`
derives all there is to say about whole runs: they are finite, `main` returns, and what it
leaves is what the closes make of a state of the invariant in which all threads are done.
`reachable_of_threads` is the other way round: what the threads can get to by themselves is
closed in some run.
-/
import OsLabs.Lib.Machine
import Mathlib.Data.Fintype.Basic
import Mathlib.Logic.Relation

namespace OsLabs

/-- Threads over shared data `σ`: the step of a thread, whether it has returned, and what `main`
does for it after the joins. -/
structure ForkJoin (n : Nat) (σ : Type) where
  init : σ
  thread : Fin n → σ → Option σ
  done : Fin n → σ → Bool
  close : Fin n → σ → σ

namespace ForkJoin

/-- How far `main` has got, and the shared data. -/
structure State (σ : Type) where
  created : Nat
  joined : Nat
  closed : Nat
  data : σ

/-- A step of `main` or of a thread. -/
inductive Act (n : Nat)
  | main
  | thread (i : Fin n)
deriving DecidableEq, Repr

variable {n : Nat} {σ : Type} {P : ForkJoin n σ}

/-- `main`: create the threads, join them, close. -/
def mainStep (P : ForkJoin n σ) (s : State σ) : Option (State σ) :=
  if s.created < n then some { s with created := s.created + 1 }
  else if h : s.joined < n then
    if P.done ⟨s.joined, h⟩ s.data then some { s with joined := s.joined + 1 } else none
  else if h : s.closed < n then
    some { s with closed := s.closed + 1, data := P.close ⟨s.closed, h⟩ s.data }
  else none

def machine (P : ForkJoin n σ) : Machine (State σ) (Act n) where
  init := ⟨0, 0, 0, P.init⟩
  step s
    | .main => P.mainStep s
    | .thread i =>
      if i < s.created then (P.thread i s.data).map fun d => { s with data := d } else none

/-- The data after the first `k` closes. -/
def closeUpTo (P : ForkJoin n σ) : Nat → σ → σ
  | 0, d => d
  | k + 1, d =>
    if h : k < n then P.close ⟨k, h⟩ (P.closeUpTo k d) else P.closeUpTo k d

/-- What the steps of the threads have to meet. -/
structure Lawful (P : ForkJoin n σ) (I : σ → Prop) (m : σ → Nat) : Prop where
  init : I P.init
  step : ∀ {i d d'}, I d → P.thread i d = some d' → I d' ∧ m d' < m d
  enabled : ∀ {i d}, I d → P.done i d = false → ∃ d', P.thread i d = some d'
  ended : ∀ {i d}, P.done i d = true → P.thread i d = none
  stays : ∀ {i j d d'}, P.thread j d = some d' → P.done i d = true → P.done i d' = true
  close : ∀ {i j d}, P.done i (P.close j d) = P.done i d

variable {I : σ → Prop} {m : σ → Nat}

theorem Lawful.done_closeUpTo (h : P.Lawful I m) (i : Fin n) (k : Nat) (d : σ) :
    P.done i (P.closeUpTo k d) = P.done i d := by
  induction k with
  | zero => rfl
  | succ k ih =>
    rw [closeUpTo]
    split
    · rw [h.close, ih]
    · exact ih

/-- Where `main` is, and how its data comes from data of the threads. -/
structure Inv (P : ForkJoin n σ) (I : σ → Prop) (s : State σ) : Prop where
  created_le : s.created ≤ n
  joined_le : s.joined ≤ n
  closed_le : s.closed ≤ n
  all_created : 0 < s.joined → s.created = n
  all_joined : 0 < s.closed → s.joined = n
  data : ∃ d, I d ∧ (∀ i : Fin n, i < s.joined → P.done i d = true) ∧
    s.data = P.closeUpTo s.closed d

/-- What is left to do. -/
def measure (n : Nat) (m : σ → Nat) (s : State σ) : Nat :=
  (n - s.created) + (n - s.joined) + (n - s.closed) + (if s.closed = 0 then m s.data else 0)

theorem Lawful.inv_init (h : P.Lawful I m) : P.Inv I P.machine.init where
  created_le := Nat.zero_le n
  joined_le := Nat.zero_le n
  closed_le := Nat.zero_le n
  all_created hpos := absurd hpos (Nat.lt_irrefl 0)
  all_joined hpos := absurd hpos (Nat.lt_irrefl 0)
  data := ⟨P.init, h.init, fun _ hi => absurd hi (Nat.not_lt_zero _), rfl⟩

/-- **A step of `main`.** -/
theorem Lawful.main_step (h : P.Lawful I m) {s s' : State σ} (hs : P.Inv I s)
    (hst : P.mainStep s = some s') : P.Inv I s' ∧ measure n m s' < measure n m s := by
  obtain ⟨hc, hj, hcl, hac, haj, d, hd, hdone, hdata⟩ := hs
  unfold mainStep at hst
  split at hst
  · next hlt =>
    obtain rfl := Option.some.inj hst
    have hj0 : s.joined = 0 := by
      by_contra hne
      have := hac (by omega)
      omega
    have hcl0 : s.closed = 0 := by
      by_contra hne
      have := haj (by omega)
      omega
    refine ⟨⟨hlt, hj, hcl, fun hpos => ?_, haj, d, hd, hdone, hdata⟩, ?_⟩
    · exact absurd hpos (by simp only; omega)
    · simp only [measure]
      omega
  · next hcre =>
    split at hst
    · next hlt =>
      split at hst
      · next hdn =>
        obtain rfl := Option.some.inj hst
        have hcl0 : s.closed = 0 := by
          by_contra hne
          have := haj (by omega)
          omega
        refine ⟨⟨hc, hlt, hcl, fun _ => by simp only; omega, fun hpos => ?_, d, hd,
          fun i hi => ?_, hdata⟩, ?_⟩
        · exact absurd hpos (by simp only; omega)
        · rcases Nat.lt_succ_iff_lt_or_eq.mp hi with hlt' | heq
          · exact hdone i hlt'
          · obtain rfl : i = ⟨s.joined, hlt⟩ := Fin.ext heq
            rwa [hdata, h.done_closeUpTo] at hdn
        · simp only [measure]
          omega
      · exact absurd hst (by simp)
    · next hjoi =>
      split at hst
      · next hlt =>
        obtain rfl := Option.some.inj hst
        refine ⟨⟨hc, hj, hlt, hac, fun _ => by simp only; omega, d, hd, hdone, ?_⟩, ?_⟩
        · rw [closeUpTo, dif_pos hlt, hdata]
        · simp only [measure, Nat.succ_ne_zero, if_false]
          omega
      · exact absurd hst (by simp)

/-- **A step of a thread.** -/
theorem Lawful.thread_step (h : P.Lawful I m) {s : State σ} {i : Fin n} {d' : σ}
    (hs : P.Inv I s) (hst : P.thread i s.data = some d') :
    P.Inv I { s with data := d' } ∧ measure n m { s with data := d' } < measure n m s := by
  obtain ⟨hc, hj, hcl, hac, haj, d, hd, hdone, hdata⟩ := hs
  have hcl0 : s.closed = 0 := by
    -- after the first close all threads are done
    by_contra hne
    have hi : P.done i s.data = true := by
      rw [hdata, h.done_closeUpTo]
      exact hdone i (by rw [haj (by omega)]; exact i.isLt)
    rw [h.ended hi] at hst
    exact absurd hst (by simp)
  rw [hcl0] at hdata
  obtain rfl : s.data = d := hdata
  obtain ⟨hd', hlt⟩ := h.step hd hst
  refine ⟨⟨hc, hj, hcl, hac, haj, d', hd', fun j hj => h.stays hst (hdone j hj), ?_⟩, ?_⟩
  · simp only [hcl0]
    rfl
  · simp only [measure, hcl0, if_true]
    omega

/-- A state without a next step: `main` has returned. -/
theorem Lawful.returned_of_stuck (h : P.Lawful I m) {s : State σ} (hs : P.Inv I s)
    (hstuck : P.machine.Stuck s) : s.closed = n := by
  obtain ⟨hc, hj, hcl, hac, haj, d, hd, hdone, hdata⟩ := hs
  have hmain : P.mainStep s = none := hstuck .main
  unfold mainStep at hmain
  split at hmain
  · exact absurd hmain (by simp)
  split at hmain
  · next hcre hlt =>
    split at hmain
    · exact absurd hmain (by simp)
    · next hdn =>
      -- the thread `main` waits for can go on
      have hcl0 : s.closed = 0 := by
        by_contra hne
        have := haj (by omega)
        omega
      rw [hcl0] at hdata
      obtain rfl : s.data = d := hdata
      obtain ⟨d', hd'⟩ := h.enabled hd (Bool.eq_false_iff.mpr hdn)
      have hthr := hstuck (.thread ⟨s.joined, hlt⟩)
      simp only [machine, hd', Option.map_some] at hthr
      rw [if_pos (by omega)] at hthr
      exact absurd hthr (by simp)
  · split at hmain
    · exact absurd hmain (by simp)
    · omega

/-- **The fork-join rule.**  Every run is finite, and at its end `main` has returned and closed
what all the threads, being done, have left. -/
theorem Lawful.endsIn (h : P.Lawful I m) {Q : σ → Prop}
    (hQ : ∀ d, I d → (∀ i, P.done i d = true) → Q (P.closeUpTo n d)) :
    P.machine.EndsIn fun s => s.closed = n ∧ Q s.data := by
  refine Machine.endsIn_of_measure (I := P.Inv I) (measure n m) h.inv_init ?_ ?_
  · intro s a s' hs hst
    cases a with
    | main => exact h.main_step hs hst
    | thread i =>
      simp only [machine] at hst
      split at hst
      · obtain ⟨d', hd', rfl⟩ := Option.map_eq_some_iff.mp hst
        exact h.thread_step hs hd'
      · exact absurd hst (by simp)
  · intro s hs hstuck
    have hret := h.returned_of_stuck hs hstuck
    obtain ⟨hc, hj, hcl, hac, haj, d, hd, hdone, hdata⟩ := hs
    refine ⟨hret, ?_⟩
    rw [hdata, hret]
    refine hQ d hd fun i => ?_
    have hjn : s.joined = n := haj (by rw [hret]; exact Nat.zero_lt_of_lt i.isLt)
    exact hdone i (by rw [hjn]; exact i.isLt)

/-- A thread goes on. -/
def ThreadStep (P : ForkJoin n σ) (d d' : σ) : Prop := ∃ i, P.thread i d = some d'

theorem reaches_created (P : ForkJoin n σ) :
    P.machine.Reaches P.machine.init ⟨n, 0, 0, P.init⟩ := by
  have hcreate : ∀ k ≤ n, P.machine.Reaches P.machine.init ⟨k, 0, 0, P.init⟩ := by
    intro k
    induction k with
    | zero => exact fun _ => Machine.Reaches.refl _
    | succ k ih =>
      intro hk
      refine (ih (Nat.le_of_succ_le hk)).trans (Machine.Reaches.step (a := .main) ?_)
      simp only [machine, mainStep]
      rw [if_pos (Nat.lt_of_succ_le hk)]
  exact hcreate n (Nat.le_refl n)

theorem reaches_threads {d d' : σ} (h : Relation.ReflTransGen P.ThreadStep d d') :
    P.machine.Reaches ⟨n, 0, 0, d⟩ ⟨n, 0, 0, d'⟩ := by
  induction h with
  | refl => exact Machine.Reaches.refl _
  | tail _ hstep ih =>
    obtain ⟨i, hi⟩ := hstep
    refine ih.trans (Machine.Reaches.step (a := .thread i) ?_)
    simp only [machine, i.isLt, if_true, hi, Option.map_some]

theorem reaches_returned {d : σ} (hdone : ∀ i, P.done i d = true) :
    P.machine.Reaches ⟨n, 0, 0, d⟩ ⟨n, n, n, P.closeUpTo n d⟩ := by
  have hjoin : ∀ k ≤ n, P.machine.Reaches ⟨n, 0, 0, d⟩ ⟨n, k, 0, d⟩ := by
    intro k
    induction k with
    | zero => exact fun _ => Machine.Reaches.refl _
    | succ k ih =>
      intro hk
      refine (ih (Nat.le_of_succ_le hk)).trans (Machine.Reaches.step (a := .main) ?_)
      simp only [machine, mainStep, Nat.lt_irrefl, if_false, dif_pos (Nat.lt_of_succ_le hk), hdone,
        if_true]
  have hclose : ∀ k ≤ n, P.machine.Reaches ⟨n, n, 0, d⟩ ⟨n, n, k, P.closeUpTo k d⟩ := by
    intro k
    induction k with
    | zero => exact fun _ => Machine.Reaches.refl _
    | succ k ih =>
      intro hk
      refine (ih (Nat.le_of_succ_le hk)).trans (Machine.Reaches.step (a := .main) ?_)
      simp only [machine, mainStep, Nat.lt_irrefl, if_false, dif_pos (Nat.lt_of_succ_le hk),
        closeUpTo, dite_false]
  exact (hjoin n (Nat.le_refl n)).trans (hclose n (Nat.le_refl n))

/-- **What the threads can get to** is what `main` can close. -/
theorem reachable_of_threads {d : σ} (h : Relation.ReflTransGen P.ThreadStep P.init d)
    (hdone : ∀ i, P.done i d = true) :
    P.machine.Reachable ⟨n, n, n, P.closeUpTo n d⟩ :=
  (P.reaches_created.trans (reaches_threads h)).trans (reaches_returned hdone)

/-- Behind the last `close` nothing is left to do. -/
theorem Lawful.stuck_returned (h : P.Lawful I m) {d : σ} (hdone : ∀ i, P.done i d = true) :
    P.machine.Stuck ⟨n, n, n, P.closeUpTo n d⟩ := by
  intro a
  cases a with
  | main => simp [machine, mainStep]
  | thread i =>
    have hnone : P.thread i (P.closeUpTo n d) = none :=
      h.ended (by rw [h.done_closeUpTo, hdone])
    simp [machine, hnone]

end ForkJoin

end OsLabs
