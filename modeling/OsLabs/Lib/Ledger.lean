/-
# Resources that are acquired and released

A log of acquisitions and releases is played from the set of resources held.  `play` refuses what
must not happen: acquiring what is held, releasing what is not, and releasing what something held
still needs, as the objects of a cache need the cache.

* `play_count`: in a log that is played, a resource is released as often as acquired, but for
  one that is held before or after;
* `play_acquireAll`, `play_releaseAll`: a list of resources acquired one after the other, and
  released in an order in which none is needed by a later one.
-/
import Mathlib.Data.Finset.Basic
import Mathlib.Data.Finset.Lattice.Lemmas
import Mathlib.Data.Finset.Dedup
import Mathlib.Tactic.Common

namespace OsLabs.Ledger

inductive Op (R : Type) where
  | acquire (r : R)
  | release (r : R)
deriving DecidableEq, Repr

variable {R : Type} [DecidableEq R] (needs : R → R → Prop) [DecidableRel needs]

/-- What is held behind the log, if nothing in it is refused. -/
def play : Finset R → List (Op R) → Option (Finset R)
  | held, [] => some held
  | held, .acquire r :: ops => if r ∈ held then none else play (insert r held) ops
  | held, .release r :: ops =>
    if r ∈ held ∧ ∀ r' ∈ held, ¬ needs r' r then play (held.erase r) ops else none

variable {needs} {held held' : Finset R} {ops : List (Op R)} {rs : List R}

theorem play_append (ops ops' : List (Op R)) (held : Finset R) :
    play needs held (ops ++ ops') = (play needs held ops).bind fun h => play needs h ops' := by
  induction ops generalizing held with
  | nil => rfl
  | cons op ops ih =>
    cases op with
    | acquire r =>
      rw [List.cons_append, play, play]
      split
      · rfl
      · exact ih _
    | release r =>
      rw [List.cons_append, play, play]
      split
      · exact ih _
      · rfl

/-- **Released as often as acquired**, but for what is held before or after. -/
theorem play_count (h : play needs held ops = some held') (r : R) :
    ops.count (.release r) + (if r ∈ held' then 1 else 0) =
      ops.count (.acquire r) + (if r ∈ held then 1 else 0) := by
  induction ops generalizing held with
  | nil =>
    rw [play, Option.some.injEq] at h
    rw [h, List.count_nil, List.count_nil]
  | cons op ops ih =>
    cases op with
    | acquire r' =>
      rw [play] at h
      split at h
      · exact absurd h (by simp)
      · rename_i hnot
        have ih' := ih h
        by_cases hr : r = r'
        · subst hr
          rw [if_pos (Finset.mem_insert_self r held)] at ih'
          rw [List.count_cons_of_ne (by simp), List.count_cons_self, if_neg hnot]
          omega
        · rw [List.count_cons_of_ne (by simp), List.count_cons_of_ne (by simp [Ne.symm hr])]
          simp only [Finset.mem_insert, hr, false_or] at ih'
          exact ih'
    | release r' =>
      rw [play] at h
      split at h
      · rename_i hheld
        have ih' := ih h
        by_cases hr : r = r'
        · subst hr
          rw [if_neg (Finset.notMem_erase r held)] at ih'
          rw [List.count_cons_self, List.count_cons_of_ne (by simp), if_pos hheld.1]
          omega
        · rw [List.count_cons_of_ne (by simp [Ne.symm hr]), List.count_cons_of_ne (by simp)]
          simp only [Finset.mem_erase, ne_eq, hr, not_false_eq_true, true_and] at ih'
          exact ih'
      · exact absurd h (by simp)

/-- What is acquired and gone in the end was released as often as acquired. -/
theorem play_balanced (h : play needs ∅ ops = some ∅) (r : R) :
    ops.count (.release r) = ops.count (.acquire r) := by
  have hcount := play_count h r
  rwa [if_neg (Finset.notMem_empty r)] at hcount

theorem play_acquireAll (hnd : rs.Nodup) (hnew : ∀ r ∈ rs, r ∉ held) :
    play needs held (rs.map .acquire) = some (held ∪ rs.toFinset) := by
  induction rs generalizing held with
  | nil => simp [play]
  | cons r rs ih =>
    obtain ⟨hr, hnd⟩ := List.nodup_cons.mp hnd
    obtain ⟨hrnew, hnew⟩ := List.forall_mem_cons.mp hnew
    have hnew' : ∀ r' ∈ rs, r' ∉ insert r held := by
      intro r' hr' hmem
      rcases Finset.mem_insert.mp hmem with rfl | hmem
      · exact hr hr'
      · exact hnew r' hr' hmem
    rw [List.map_cons, play, if_neg hrnew, ih hnd hnew', List.toFinset_cons,
      Finset.insert_union, Finset.union_insert]

/-- **Released in order**: none of them is needed by one that is released later, nor by what is
kept. -/
theorem play_releaseAll (hnd : rs.Nodup) (hnew : ∀ r ∈ rs, r ∉ held)
    (hself : ∀ r ∈ rs, ¬ needs r r) (hlater : rs.Pairwise fun r r' => ¬ needs r' r)
    (hkept : ∀ r ∈ rs, ∀ r' ∈ held, ¬ needs r' r) :
    play needs (held ∪ rs.toFinset) (rs.map .release) = some held := by
  induction rs with
  | nil => simp [play]
  | cons r rs ih =>
    obtain ⟨hr, hnd⟩ := List.nodup_cons.mp hnd
    obtain ⟨hrnew, hnew⟩ := List.forall_mem_cons.mp hnew
    obtain ⟨hrself, hself⟩ := List.forall_mem_cons.mp hself
    obtain ⟨hrlater, hlater⟩ := List.pairwise_cons.mp hlater
    obtain ⟨hrkept, hkept⟩ := List.forall_mem_cons.mp hkept
    have hfree : r ∈ held ∪ (r :: rs).toFinset ∧
        ∀ r' ∈ held ∪ (r :: rs).toFinset, ¬ needs r' r := by
      refine ⟨by simp, fun r' hr' => ?_⟩
      rw [Finset.mem_union, List.mem_toFinset, List.mem_cons] at hr'
      rcases hr' with hheld | rfl | hin
      · exact hrkept r' hheld
      · exact hrself
      · exact hrlater r' hin
    have herase : (held ∪ (r :: rs).toFinset).erase r = held ∪ rs.toFinset := by
      have hnot : r ∉ held ∪ rs.toFinset := by
        rw [Finset.mem_union, List.mem_toFinset, not_or]
        exact ⟨hrnew, hr⟩
      rw [List.toFinset_cons, Finset.union_insert, Finset.erase_insert hnot]
    rw [List.map_cons, play, if_pos hfree, herase, ih hnd hnew hself hlater hkept]

end OsLabs.Ledger
