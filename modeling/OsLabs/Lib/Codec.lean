/-
# Codes of fixed width

A `Codec` writes a value as a number of bytes that is the same for all values, and reads it back.
Reading from a longer list takes the front of it and leaves the rest (`decode`), so codes can be
written one behind the other (`seq`), and a code of `β` is one of every `α` that `β` has room for
(`retract`): a reader may accept what no writer writes.

* `decode_append`: what was written is read back, whatever stands behind it;
* `decode_eq_some_iff`, `decode_eq_none_iff`: what is accepted, and what is not;
* `word32`: the four bytes of a 32-bit word, the highest first.
-/
import Mathlib.Algebra.GroupWithZero.Nat
import Mathlib.Data.List.Basic
import Mathlib.Tactic.Common

namespace OsLabs

structure Codec (α : Type) where
  width : Nat
  encode : α → List UInt8
  /-- the value of `width` bytes -/
  value : List UInt8 → α
  length_encode : ∀ a, (encode a).length = width
  value_encode : ∀ a, value (encode a) = a

namespace Codec

variable {α β : Type} (c : Codec α) (d : Codec β) {a : α} {bs front rest : List UInt8}

/-- Read a value off the front of a list. -/
def decode (bs : List UInt8) : Option (α × List UInt8) :=
  if c.width ≤ bs.length then some (c.value (bs.take c.width), bs.drop c.width) else none

/-! ## 1. Reading -/

theorem decode_of_length (h : front.length = c.width) (rest : List UInt8) :
    c.decode (front ++ rest) = some (c.value front, rest) := by
  rw [decode, if_pos (by rw [List.length_append, h]; exact Nat.le_add_right _ _), ← h,
    List.take_left, List.drop_left]

/-- **What was written is read back**, whatever stands behind it. -/
theorem decode_append (a : α) (rest : List UInt8) :
    c.decode (c.encode a ++ rest) = some (a, rest) := by
  rw [c.decode_of_length (c.length_encode a), c.value_encode]

theorem decode_encode (a : α) : c.decode (c.encode a) = some (a, []) := by
  rw [← c.decode_append a [], List.append_nil]

theorem decode_eq_some_iff : c.decode bs = some (a, rest) ↔
    ∃ front, bs = front ++ rest ∧ front.length = c.width ∧ c.value front = a := by
  constructor
  · intro h
    unfold decode at h
    split at h
    · rename_i hle
      rw [Option.some.injEq, Prod.mk.injEq] at h
      refine ⟨bs.take c.width, ?_, List.length_take_of_le hle, h.1⟩
      rw [← h.2, List.take_append_drop]
    · exact absurd h (by simp)
  · rintro ⟨front, rfl, hlen, rfl⟩
    exact c.decode_of_length hlen rest

/-- **Only what is too short is refused.** -/
theorem decode_eq_none_iff : c.decode bs = none ↔ bs.length < c.width := by
  unfold decode
  split
  · rename_i hle
    simp [Nat.not_lt.mpr hle]
  · rename_i hlt
    simp [Nat.lt_of_not_le hlt]

/-! ## 2. Putting codes together -/

/-- A value of the one and, behind it, a value of the other. -/
def seq : Codec (α × β) where
  width := c.width + d.width
  encode p := c.encode p.1 ++ d.encode p.2
  value bs := (c.value (bs.take c.width), d.value (bs.drop c.width))
  length_encode p := by rw [List.length_append, c.length_encode, d.length_encode]
  value_encode p := by
    rw [← c.length_encode p.1, List.take_left, List.drop_left, c.value_encode, d.value_encode]

/-- The code of `β`, of the values of `α` that `inj` makes values of `β`. -/
def retract (inj : β → α) (back : α → β) (h : ∀ b, back (inj b) = b) : Codec β where
  width := c.width
  encode b := c.encode (inj b)
  value bs := back (c.value bs)
  length_encode b := c.length_encode (inj b)
  value_encode b := by rw [c.value_encode, h]

theorem retract_decode {inj : β → α} {back : α → β} (h : ∀ b, back (inj b) = b)
    (bs : List UInt8) :
    (c.retract inj back h).decode bs = (c.decode bs).map fun p => (back p.1, p.2) := by
  unfold decode
  by_cases hle : c.width ≤ bs.length
  · have hle' : (c.retract inj back h).width ≤ bs.length := hle
    rw [if_pos hle, if_pos hle']
    rfl
  · have hle' : ¬ (c.retract inj back h).width ≤ bs.length := hle
    rw [if_neg hle, if_neg hle']
    rfl

/-- Reading one after the other: the second reads what the first has left. -/
theorem seq_decode (bs : List UInt8) : (c.seq d).decode bs =
    (c.decode bs).bind fun p => (d.decode p.2).map fun q => ((p.1, q.1), q.2) := by
  by_cases hc : c.width ≤ bs.length
  · have hd : (d.decode (bs.drop c.width)).isSome ↔ c.width + d.width ≤ bs.length := by
      rw [← Option.ne_none_iff_isSome, ne_eq, d.decode_eq_none_iff, List.length_drop]
      omega
    have hone : c.decode bs = some (c.value (bs.take c.width), bs.drop c.width) := if_pos hc
    rw [hone, Option.bind_some]
    by_cases hle : c.width + d.width ≤ bs.length
    · have hboth : (c.seq d).decode bs =
          some ((c.seq d).value (bs.take (c.width + d.width)), bs.drop (c.width + d.width)) :=
        if_pos hle
      have htwo : d.decode (bs.drop c.width) =
          some (d.value ((bs.drop c.width).take d.width), (bs.drop c.width).drop d.width) :=
        if_pos (by rw [List.length_drop]; omega)
      rw [hboth, htwo]
      simp only [seq, Option.map_some, List.drop_drop, List.take_take,
        Nat.min_eq_left (Nat.le_add_right _ _), List.drop_take, Nat.add_sub_cancel_left]
    · have hnone : d.decode (bs.drop c.width) = none := by
        rw [← Option.not_isSome_iff_eq_none, hd]
        exact hle
      rw [hnone, (c.seq d).decode_eq_none_iff.mpr (Nat.lt_of_not_le hle)]
      rfl
  · have hnone : c.decode bs = none := c.decode_eq_none_iff.mpr (Nat.lt_of_not_le hc)
    have hwidth : (c.seq d).width = c.width + d.width := rfl
    rw [hnone, Option.bind_none, decode_eq_none_iff, hwidth]
    omega

/-! ## 3. Words -/

/-- The four bytes of a word, the highest first. -/
def bytes32 (x : UInt32) : List UInt8 :=
  [.ofNat (x.toNat / 2 ^ 24), .ofNat (x.toNat / 2 ^ 16), .ofNat (x.toNat / 2 ^ 8),
    .ofNat x.toNat]

def ofBytes32 : List UInt8 → UInt32
  | [a, b, c, d] => .ofNat (a.toNat * 2 ^ 24 + b.toNat * 2 ^ 16 + c.toNat * 2 ^ 8 + d.toNat)
  | _ => 0

theorem ofBytes32_bytes32 (x : UInt32) : ofBytes32 (bytes32 x) = x := by
  have hx := x.toNat_lt
  apply UInt32.toNat_inj.mp
  simp only [bytes32, ofBytes32, UInt32.toNat_ofNat', UInt8.toNat_ofNat']
  omega

/-- Of four bytes every word comes from one choice only. -/
theorem bytes32_ofBytes32 (h : front.length = 4) : bytes32 (ofBytes32 front) = front := by
  obtain ⟨a, b, c, d, rfl⟩ := List.length_eq_four.mp h
  have ha := a.toNat_lt
  have hb := b.toNat_lt
  have hc := c.toNat_lt
  have hd := d.toNat_lt
  simp only [bytes32, ofBytes32, UInt32.toNat_ofNat', List.cons.injEq, ← UInt8.toNat_inj,
    UInt8.toNat_ofNat', and_true]
  omega

def word32 : Codec UInt32 where
  width := 4
  encode := bytes32
  value := ofBytes32
  length_encode _ := rfl
  value_encode := ofBytes32_bytes32

end Codec

end OsLabs
