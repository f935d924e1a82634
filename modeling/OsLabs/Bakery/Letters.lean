/-
# What the two bakery servers share

`3/proc/bakery1/bakery_server.c` and `3/proc/bakery2/bakery_server.c` declare the same arrays of
32 entries and the same cursor `c`, which `c++` and `if (c > 'z') c = 'a'` move through the
letters.  And both hand the slots of these arrays out by a counter that only grows: so the slots
held are below the counter, each held by one client (`Slots.Issued.step`).
-/
import Mathlib.Tactic.Common

namespace OsLabs.Bakery

/-- The length of every array of the servers. -/
def SLOTS : Nat := 32

/-- The code of the letter 'a', the initial value of `c`. -/
def letterA : Nat := 97

/-- The code of the letter 'z'. -/
def letterZ : Nat := 122

/-- The arrays of the servers, to name an access outside one of them. -/
inductive Arr
  | attr | thr | res | choosing | number
deriving DecidableEq, Repr

/-- The `k`-th letter of the cycle 'a', 'b', ..., 'z', 'a', ... -/
def letter (k : Nat) : Nat := letterA + k % 26

theorem letter_succ_wrap {k : Nat} (hk : letterZ < letter k + 1) : letterA = letter (k + 1) := by
  simp only [letter, letterA, letterZ] at hk ⊢
  omega

theorem letter_succ {k : Nat} (hk : ¬ letterZ < letter k + 1) : letter k + 1 = letter (k + 1) := by
  simp only [letter, letterA, letterZ] at hk ⊢
  omega

/-! ## Slots that a counter hands out -/

variable {ι : Type}

/-- Who holds which slot, the counter, and how often GET_NUMBER was executed for each client. -/
structure Slots (ι : Type) where
  holds : ι → Nat → Prop
  num : Nat
  executed : ι → Nat

/-- The slots held are below the counter, each held by one client, which has called. -/
structure Slots.Issued (a : Slots ι) : Prop where
  slot_lt : ∀ x k, a.holds x k → k < a.num
  distinct : ∀ x y k, a.holds x k → a.holds y k → x = y
  executed : ∀ x k, a.holds x k → 0 < a.executed x

/-- A step hands out the next slot, to `getter`, or no slot. -/
structure Slots.Step (a b : Slots ι) (getter : Option ι) : Prop where
  num : b.num = a.num + getter.isSome.toNat
  holds : ∀ x k, b.holds x k → a.holds x k ∨ getter = some x ∧ k = a.num
  executed : ∀ x, a.executed x ≤ b.executed x
  getter : ∀ x, getter = some x → 0 < b.executed x

/-- A step that hands out no slot. -/
theorem Slots.Step.of_none {a b : Slots ι} (hnum : b.num = a.num)
    (hholds : ∀ x k, b.holds x k → a.holds x k) (hex : ∀ x, a.executed x ≤ b.executed x) :
    a.Step b none where
  num := hnum
  holds x k hk := Or.inl (hholds x k hk)
  executed := hex
  getter := by simp

/-- **A slot that is handed out is nobody's.** -/
theorem Slots.Issued.step {a b : Slots ι} {getter : Option ι} (h : a.Issued)
    (hs : a.Step b getter) : b.Issued := by
  have hnew : ∀ z, ¬ a.holds z a.num := fun z hz => Nat.lt_irrefl _ (h.slot_lt z _ hz)
  refine ⟨fun x k hk => ?_, fun x y k hx hy => ?_, fun x k hk => ?_⟩
  · rw [hs.num]
    rcases hs.holds x k hk with hold | ⟨hg, rfl⟩
    · exact Nat.lt_add_right _ (h.slot_lt x k hold)
    · simp [hg]
  · rcases hs.holds x k hx with hold | ⟨hg, rfl⟩ <;> rcases hs.holds y _ hy with hold' | ⟨hg', hk⟩
    · exact h.distinct x y k hold hold'
    · exact absurd (hk ▸ hold) (hnew x)
    · exact absurd hold' (hnew y)
    · exact Option.some.inj (hg.symm.trans hg')
  · rcases hs.holds x k hk with hold | ⟨hg, -⟩
    · exact Nat.lt_of_lt_of_le (h.executed x k hold) (hs.executed x)
    · exact hs.getter x hg

end OsLabs.Bakery
