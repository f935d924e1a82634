/-
# Circular lists, and the loop once around one

The members of a circular list are what `next` leads to from its head until it comes back there:
the orbit of a periodic point.  `members` lists them from the head on, each once (`nodup_members`,
`mem_members`).

`doWhile` is the loop `do body while ((x = next x) != head)`.  From the head it performs its body
for each member once, in order, and ends (`doWhile_eq`).
-/
import Mathlib.Dynamics.PeriodicPts.Defs

namespace OsLabs.Circle

open Function

variable {α β ε : Type} {next : α → α} {head x : α}

/-! ## 1. The members -/

/-- The members in order, from the head on. -/
noncomputable def members (next : α → α) (head : α) : List α :=
  (List.range (minimalPeriod next head)).map fun n => next^[n] head

theorem nodup_members : (members next head).Nodup := by
  have hnodup : (periodicOrbit next head).Nodup := nodup_periodicOrbit
  rw [periodicOrbit_def, Cycle.nodup_coe_iff] at hnodup
  exact hnodup

theorem mem_members (h : head ∈ periodicPts next) :
    x ∈ members next head ↔ ∃ n, next^[n] head = x := by
  rw [← mem_periodicOrbit_iff h, periodicOrbit_def, Cycle.mem_coe_iff, members]

theorem head?_members (h : head ∈ periodicPts next) :
    (members next head).head? = some head := by
  obtain ⟨p, hp⟩ := Nat.exists_eq_succ_of_ne_zero
    (Nat.ne_of_gt (minimalPeriod_pos_of_mem_periodicPts h))
  rw [members, hp, List.range_succ_eq_map]
  rfl

/-! ## 2. The loop -/

/-- What the body returns for each member, unless it fails for one; `none` if `fuel` iterations
are not enough. -/
def doWhile [DecidableEq α] (body : α → Except ε β) (next : α → α) (head : α) :
    Nat → α → Option (Except ε (List β))
  | 0, _ => none
  | fuel + 1, x =>
    match body x with
    | .error e => some (.error e)
    | .ok y =>
      if next x = head then some (.ok [y])
      else (doWhile body next head fuel (next x)).map fun r => r.map (y :: ·)

variable [DecidableEq α] {body : α → Except ε β} {fuel : Nat} {r : Except ε (List β)}

/-- More iterations change nothing. -/
theorem doWhile_mono (h : doWhile body next head fuel x = some r) (k : Nat) :
    doWhile body next head (fuel + k) x = some r := by
  induction fuel generalizing x r with
  | zero => exact absurd h (by simp [doWhile])
  | succ fuel ih =>
    rw [Nat.add_right_comm, doWhile]
    rw [doWhile] at h
    cases hbody : body x with
    | error e => rwa [hbody] at h
    | ok y =>
      simp only [hbody] at h ⊢
      split at h
      · rename_i hend
        rwa [if_pos hend]
      · rename_i hend
        obtain ⟨r', hr', hr⟩ := Option.map_eq_some_iff.mp h
        rw [if_neg hend, ih hr', Option.map_some, hr]

/-- From the `k`-th member on. -/
theorem doWhile_from {k j : Nat} (hk : minimalPeriod next head = k + j + 1) :
    doWhile body next head (j + 1) (next^[k] head) =
      some (((List.range' k (j + 1)).map fun n => next^[n] head).mapM body) := by
  induction j generalizing k with
  | zero =>
    have hback : next (next^[k] head) = head := by
      rw [← iterate_succ_apply' next k head]
      have hperiod := iterate_minimalPeriod (f := next) (x := head)
      rwa [hk] at hperiod
    rw [doWhile, List.range'_one, List.map_singleton, List.mapM_cons]
    cases body (next^[k] head) with
    | error e => rfl
    | ok y =>
      simp only [hback, if_true, List.mapM_nil]
      rfl
  | succ j ih =>
    have hgo : next (next^[k] head) ≠ head := by
      rw [← iterate_succ_apply' next k head]
      exact not_isPeriodicPt_of_pos_of_lt_minimalPeriod (Nat.succ_ne_zero k) (by omega)
    rw [doWhile, List.range'_succ, List.map_cons, List.mapM_cons]
    cases body (next^[k] head) with
    | error e => rfl
    | ok y =>
      have ih' := ih (k := k + 1) (by omega)
      rw [iterate_succ_apply'] at ih'
      simp only [if_neg hgo, ih', Option.map_some]
      cases ((List.range' (k + 1) (j + 1)).map fun n => next^[n] head).mapM body <;> rfl

/-- **Once around.**  With as many iterations as there are members, or more, the loop ends, and
has performed its body for each member in order. -/
theorem doWhile_eq (h : head ∈ periodicPts next) (hfuel : minimalPeriod next head ≤ fuel) :
    doWhile body next head fuel head = some ((members next head).mapM body) := by
  obtain ⟨p, hp⟩ := Nat.exists_eq_succ_of_ne_zero
    (Nat.ne_of_gt (minimalPeriod_pos_of_mem_periodicPts h))
  obtain ⟨k, rfl⟩ := Nat.exists_eq_add_of_le hfuel
  have hperiod : minimalPeriod next head = 0 + p + 1 := by omega
  have hloop : doWhile body next head (p + 1) (next^[0] head) = _ := doWhile_from hperiod
  rw [iterate_zero_apply, ← List.range_eq_range', ← Nat.succ_eq_add_one, ← hp] at hloop
  exact doWhile_mono hloop k

end OsLabs.Circle
