/-
# Numbers in texts

How C library functions read a number from the bytes of a string: the longest run of digits of a
base (`digits`), and what stands behind it.  `kstrtoint` of the kernel wants the whole text to be
a number, with one newline behind it at most.

* `digits_append`: what the digits of a text tell about a longer text;
* `kstrtoint_append_iff`: when one more byte does not change the outcome of `kstrtoint`;
* `kstrtoint_decimalInt`: it reads back every `int` printed in decimal.
-/
import OsLabs.Lib.Buffer

namespace OsLabs

/-! ## 1. Digits -/

/-- The value of a digit of any base up to 16. -/
def digitVal (c : UInt8) : Option Nat :=
  if 48 ≤ c ∧ c ≤ 57 then some (c.toNat - 48)
  else if 97 ≤ c ∧ c ≤ 102 then some (c.toNat - 87)
  else if 65 ≤ c ∧ c ≤ 70 then some (c.toNat - 55)
  else none

/-- The value of a digit of the base. -/
def digitOf (base : Nat) (c : UInt8) : Option Nat := (digitVal c).filter (· < base)

/-- Go on reading digits behind some of value `acc`: the value of all, and what is left of the
text. -/
def digits (base : Nat) : Nat → List UInt8 → Nat × List UInt8
  | acc, [] => (acc, [])
  | acc, c :: cs =>
    match digitOf base c with
    | none => (acc, c :: cs)
    | some d => digits base (acc * base + d) cs

variable {base acc n : Nat} {s u v rest : List UInt8} {c : UInt8}

/-- **Behind a text that is all digits the reading goes on**, and elsewhere what follows the text
is not looked at. -/
theorem digits_append (base : Nat) (u v : List UInt8) (acc : Nat) :
    digits base acc (u ++ v) =
      if (digits base acc u).2 = [] then digits base (digits base acc u).1 v
      else ((digits base acc u).1, (digits base acc u).2 ++ v) := by
  induction u generalizing acc with
  | nil => rfl
  | cons c u ih =>
    rw [List.cons_append, digits, digits]
    cases digitOf base c with
    | none => rfl
    | some d => exact ih _

theorem digits_suffix (base : Nat) (s : List UInt8) (acc : Nat) : (digits base acc s).2 <:+ s := by
  induction s generalizing acc with
  | nil => exact List.suffix_refl _
  | cons c s ih =>
    rw [digits]
    cases digitOf base c with
    | none => exact List.suffix_refl _
    | some d => exact (ih _).trans (List.suffix_cons _ _)

/-- A byte that is no digit stays. -/
theorem mem_digits_of_not_digit (hc : digitOf base c = none) (hmem : c ∈ s) :
    (digits base acc s).2 ≠ [] := by
  induction s generalizing acc with
  | nil => exact absurd hmem List.not_mem_nil
  | cons x s ih =>
    rw [digits]
    cases hx : digitOf base x with
    | none => simp
    | some d =>
      rcases List.mem_cons.mp hmem with rfl | hin
      · exact absurd (hc.symm.trans hx) (by simp)
      · exact ih hin

theorem digitOf_newline (base : Nat) : digitOf base 10 = none := rfl

theorem digitOf_zero (h : 0 < base) : digitOf base 48 = some 0 := by
  simp [digitOf, digitVal, h]

theorem digitOf_eq_zero_iff : digitOf base c = some 0 ↔ 0 < base ∧ c = 48 := by
  constructor
  · intro h
    obtain ⟨hv, hlt⟩ : digitVal c = some 0 ∧ 0 < base := by simpa [digitOf] using h
    refine ⟨hlt, ?_⟩
    simp only [digitVal, UInt8.le_iff_toNat_le] at hv
    apply UInt8.toNat_inj.mp
    change c.toNat = 48
    have h48 : (48 : UInt8).toNat = 48 := rfl
    have h57 : (57 : UInt8).toNat = 57 := rfl
    have h97 : (97 : UInt8).toNat = 97 := rfl
    have h102 : (102 : UInt8).toNat = 102 := rfl
    have h65 : (65 : UInt8).toNat = 65 := rfl
    have h70 : (70 : UInt8).toNat = 70 := rfl
    rw [h48, h57, h97, h102, h65, h70] at hv
    split at hv
    · have := Option.some.inj hv
      omega
    split at hv
    · have := Option.some.inj hv
      omega
    split at hv
    · have := Option.some.inj hv
      omega
    · exact absurd hv (by simp)
  · rintro ⟨hlt, rfl⟩
    exact digitOf_zero hlt

/-! ## 2. `kstrtoint` -/

/-- The base of an unsigned number, from its prefix, and the text of its digits. -/
def fixupRadix : List UInt8 → Nat × List UInt8
  | 48 :: x :: c :: cs =>
    if (x = 120 ∨ x = 88) ∧ (digitOf 16 c).isSome then (16, c :: cs) else (8, 48 :: x :: c :: cs)
  | 48 :: cs => (8, 48 :: cs)
  | s => (10, s)

/-- `_kstrtoull` with base 0: at least one digit, and behind the digits at most one newline. -/
def kstrtoull (s : List UInt8) : Option Nat :=
  let (base, d) := fixupRadix s
  let (n, rest) := digits base 0 d
  if rest = d then none
  else if rest = [] ∨ rest = [10] then some n
  else none

/-- An `int` of the given sign and absolute value. -/
def toInt (negative : Bool) (n : Nat) : Option Int :=
  if negative then if n ≤ 2 ^ 31 then some (-(n : Int)) else none
  else if n < 2 ^ 31 then some n else none

/-- The sign of a number and the text behind it. -/
def signOf : List UInt8 → Bool × List UInt8
  | 45 :: cs => (true, cs)
  | 43 :: cs => (false, cs)
  | s => (false, s)

theorem signOf_of_ne {a : UInt8} (hm : a ≠ 45) (hp : a ≠ 43) (s : List UInt8) :
    signOf (a :: s) = (false, a :: s) := by
  unfold signOf
  split
  · rename_i heq
    exact absurd (List.cons.inj heq).1 hm
  · rename_i heq
    exact absurd (List.cons.inj heq).1 hp
  · rfl

/-- `kstrtoint(s, 0, &res)`: the number, when the function returns 0. -/
def kstrtoint (s : List UInt8) : Option Int :=
  (kstrtoull (signOf s).2).bind (toInt (signOf s).1)

theorem fixupRadix_of_ne {a : UInt8} (h : a ≠ 48) (s : List UInt8) :
    fixupRadix (a :: s) = (10, a :: s) := by
  unfold fixupRadix
  split
  · rename_i heq
    exact absurd (List.cons.inj heq).1 h
  · rename_i heq
    exact absurd (List.cons.inj heq).1 h
  · rfl

theorem fixupRadix_base (s : List UInt8) : 2 ≤ (fixupRadix s).1 := by
  unfold fixupRadix
  split
  · split <;> simp
  · simp
  · simp

/-- The prefix of a number does not depend on the byte behind it, unless it is what makes it a
prefix. -/
theorem fixupRadix_append (hne : u ≠ [])
    (hx : ¬ ((u = [48, 120] ∨ u = [48, 88]) ∧ (digitOf 16 c).isSome)) :
    fixupRadix (u ++ [c]) = ((fixupRadix u).1, (fixupRadix u).2 ++ [c]) := by
  match u with
  | [] => exact absurd rfl hne
  | a :: u =>
    by_cases ha : a = 48
    · subst ha
      match u with
      | [] => rfl
      | [x] =>
        have hcond : ¬ ((x = 120 ∨ x = 88) ∧ (digitOf 16 c).isSome) := by
          rintro ⟨rfl | rfl, hc⟩
          · exact hx ⟨Or.inl rfl, hc⟩
          · exact hx ⟨Or.inr rfl, hc⟩
        exact if_neg hcond
      | x :: d :: u =>
        by_cases hcond : (x = 120 ∨ x = 88) ∧ (digitOf 16 d).isSome
        · simp [fixupRadix, hcond]
        · simp only [List.cons_append, fixupRadix, if_neg hcond]
    · rw [List.cons_append, fixupRadix_of_ne ha, fixupRadix_of_ne ha, List.cons_append]

theorem fixupRadix_suffix (s : List UInt8) : (fixupRadix s).2 <:+ s := by
  unfold fixupRadix
  split
  · rename_i x c cs
    split
    · exact ⟨[48, x], rfl⟩
    · exact List.suffix_refl _
  · exact List.suffix_refl _
  · exact List.suffix_refl _

theorem kstrtoull_eq_some_iff : kstrtoull s = some n ↔
    ∃ rest, digits (fixupRadix s).1 0 (fixupRadix s).2 = (n, rest) ∧ rest ≠ (fixupRadix s).2 ∧
      (rest = [] ∨ rest = [10]) := by
  unfold kstrtoull
  obtain ⟨base, d⟩ := fixupRadix s
  simp only
  obtain ⟨m, rest⟩ := digits base 0 d
  simp only [Prod.mk.injEq]
  constructor
  · intro h
    split at h
    · exact absurd h (by simp)
    · rename_i hne
      split at h
      · rename_i hrest
        exact ⟨rest, ⟨Option.some.inj h, rfl⟩, hne, hrest⟩
      · exact absurd h (by simp)
  · rintro ⟨r, ⟨rfl, rfl⟩, hne, hrest⟩
    rw [if_neg hne, if_pos hrest]

/-- The last byte is that of every end of the text. -/
theorem getLast?_of_suffix (h : v <:+ s) (hne : v ≠ []) : s.getLast? = v.getLast? := by
  obtain ⟨p, rfl⟩ := h
  rw [List.getLast?_append, List.getLast?_eq_some_getLast hne, Option.some_or]

/-- A number has a text, and one that is more than the beginning of a prefix. -/
theorem kstrtoull_shape (h : kstrtoull s = some n) : s ≠ [] ∧ s ≠ [48, 120] ∧ s ≠ [48, 88] := by
  refine ⟨?_, ?_, ?_⟩
  · rintro rfl
    rw [show kstrtoull [] = none from rfl] at h
    exact absurd h (by simp)
  · rintro rfl
    rw [show kstrtoull [48, 120] = none from rfl] at h
    exact absurd h (by simp)
  · rintro rfl
    rw [show kstrtoull [48, 88] = none from rfl] at h
    exact absurd h (by simp)

/-- A number without a newline behind it is digits only. -/
theorem digits_of_kstrtoull (h : kstrtoull s = some n) (hlast : s.getLast? ≠ some 10) :
    digits (fixupRadix s).1 0 (fixupRadix s).2 = (n, []) := by
  obtain ⟨rest, hd, -, rfl | rfl⟩ := kstrtoull_eq_some_iff.mp h
  · exact hd
  · have hsuf := digits_suffix (fixupRadix s).1 (fixupRadix s).2 0
    rw [hd] at hsuf
    exact absurd (getLast?_of_suffix (hsuf.trans (fixupRadix_suffix s)) (by simp)) hlast

/-- The digits of a text with one more byte. -/
theorem digits_concat (base : Nat) (d : List UInt8) (c : UInt8) (hc : digitOf base c = none) :
    digits base 0 (d ++ [c]) = ((digits base 0 d).1, (digits base 0 d).2 ++ [c]) := by
  rw [digits_append]
  split
  · rename_i hnil
    rw [digits, hc, hnil]
    rfl
  · rfl

/-- **A newline behind a text** that does not end with one changes nothing. -/
theorem kstrtoull_append_newline (hlast : s.getLast? ≠ some 10) :
    kstrtoull (s ++ [10]) = kstrtoull s := by
  by_cases hne : s = []
  · rw [hne]
    rfl
  have hfix := fixupRadix_append (c := 10) hne (fun h => absurd h.2 (by simp [digitOf_newline]))
  have hcat := digits_concat (fixupRadix s).1 (fixupRadix s).2 10 (digitOf_newline _)
  have hr := digits_suffix (fixupRadix s).1 (fixupRadix s).2 0
  have hnot : (digits (fixupRadix s).1 0 (fixupRadix s).2).2 ≠ [10] := by
    intro h10
    rw [h10] at hr
    exact hlast (getLast?_of_suffix (hr.trans (fixupRadix_suffix s)) (by simp))
  refine Option.ext fun n => ?_
  rw [kstrtoull_eq_some_iff, kstrtoull_eq_some_iff, hfix]
  simp only [hcat, Prod.mk.injEq]
  constructor
  · rintro ⟨rest, ⟨hn, rfl⟩, hne, hnil | h10⟩
    · exact absurd hnil (by simp)
    · have hnil : (digits (fixupRadix s).1 0 (fixupRadix s).2).2 = [] := by simpa using h10
      refine ⟨[], Prod.ext hn hnil, ?_, Or.inl rfl⟩
      rw [hnil] at hne
      rintro h0
      exact hne (by rw [← h0])
  · rintro ⟨rest, hd, hne, hnil | h10⟩
    · rw [hd, hnil]
      refine ⟨[10], ⟨rfl, rfl⟩, ?_, Or.inr rfl⟩
      intro h
      exact hne (by rw [hnil]; simpa using h)
    · rw [hd] at hnot
      exact absurd h10 hnot

/-- **Behind a newline** it makes the text no number. -/
theorem kstrtoull_two_newlines (hlast : s.getLast? = some 10) : kstrtoull (s ++ [10]) = none := by
  cases h : kstrtoull (s ++ [10]) with
  | none => rfl
  | some n =>
    exfalso
    have hne : s ≠ [] := by
      rintro rfl
      exact absurd hlast (by simp)
    have hfix := fixupRadix_append (c := 10) hne
      (fun h => absurd h.2 (by simp [digitOf_newline]))
    have hcat := digits_concat (fixupRadix s).1 (fixupRadix s).2 10 (digitOf_newline _)
    obtain ⟨rest, hd, hrest, hend⟩ := kstrtoull_eq_some_iff.mp h
    rw [hfix] at hd hrest
    rw [hcat] at hd
    obtain ⟨-, rfl⟩ := Prod.mk.inj hd
    -- the digits of the text do not reach its end, as there is a newline
    have hnil : (digits (fixupRadix s).1 0 (fixupRadix s).2).2 = [] := by
      rcases hend with hnil | h10
      · exact absurd hnil (by simp)
      · simpa using h10
    have hdne : (fixupRadix s).2 ≠ [] := by
      intro h0
      exact hrest (by rw [hnil, h0])
    have hmem : (10 : UInt8) ∈ (fixupRadix s).2 := by
      rw [getLast?_of_suffix (fixupRadix_suffix s) hdne] at hlast
      exact List.mem_of_getLast? hlast
    exact mem_digits_of_not_digit (digitOf_newline _) hmem hnil

/-- **A number that is still one with a byte more** has got one digit more. -/
theorem kstrtoull_append (hc : c ≠ 10) {m : Nat} (hs : kstrtoull s = some n)
    (ht : kstrtoull (s ++ [c]) = some m) : s.getLast? ≠ some 10 ∧
      ∃ d, digitOf (fixupRadix s).1 c = some d ∧ m = n * (fixupRadix s).1 + d := by
  obtain ⟨hne, hx, hX⟩ := kstrtoull_shape hs
  have hfix := fixupRadix_append (c := c) hne (fun h => h.1.elim hx hX)
  obtain ⟨rest, hd, hdne, hend⟩ := kstrtoull_eq_some_iff.mp hs
  obtain ⟨rest', hd', -, hend'⟩ := kstrtoull_eq_some_iff.mp ht
  rw [hfix, digits_append, hd] at hd'
  rcases hend with rfl | rfl
  · rw [if_pos rfl, digits] at hd'
    cases hdig : digitOf (fixupRadix s).1 c with
    | none =>
      rw [hdig] at hd'
      obtain ⟨-, rfl⟩ := Prod.mk.inj hd'
      rcases hend' with hnil | h10
      · exact absurd hnil (by simp)
      · exact absurd (by simpa using h10) hc
    | some d =>
      rw [hdig] at hd'
      refine ⟨fun hlast => ?_, d, rfl, (Prod.mk.inj hd').1.symm⟩
      rw [getLast?_of_suffix (fixupRadix_suffix s) (Ne.symm hdne)] at hlast
      exact mem_digits_of_not_digit (digitOf_newline _) (List.mem_of_getLast? hlast)
        (congrArg Prod.snd hd)
  · rw [if_neg (by simp)] at hd'
    obtain ⟨-, rfl⟩ := Prod.mk.inj hd'
    rcases hend' with hnil | h10 <;> simp at *

/-- A zero with one zero more. -/
theorem kstrtoull_append_zero (hs : kstrtoull s = some 0) (hlast : s.getLast? ≠ some 10) :
    kstrtoull (s ++ [48]) = some 0 := by
  obtain ⟨hne, hx, hX⟩ := kstrtoull_shape hs
  have hfix := fixupRadix_append (c := 48) hne (fun h => h.1.elim hx hX)
  have hd := digits_of_kstrtoull hs hlast
  have hbase := fixupRadix_base s
  rw [kstrtoull_eq_some_iff, hfix]
  refine ⟨[], ?_, by simp, Or.inl rfl⟩
  rw [digits_append, hd, if_pos rfl, digits, digitOf_zero (by omega)]
  simp [digits]

/-! ## 3. `strtoul` -/

/-- What `isspace` accepts. -/
def isSpace (c : UInt8) : Bool := c == 32 || (9 ≤ c && c ≤ 13)

/-- The text behind a prefix `0x`. -/
def dropHexPrefix : List UInt8 → List UInt8
  | 48 :: x :: cs => if x = 120 ∨ x = 88 then cs else 48 :: x :: cs
  | s => s

/-- `strtoul(s, NULL, 16)`: the number at the beginning of the text, 0 if there is none, and the
largest `unsigned long` if it is too large. -/
def strtoul16 (s : List UInt8) : Nat :=
  let (negative, s) := signOf (s.dropWhile isSpace)
  let n := (digits 16 0 (dropHexPrefix s)).1
  if 2 ^ 64 ≤ n then 2 ^ 64 - 1 else if negative then (2 ^ 64 - n) % 2 ^ 64 else n

/-- The number that a text of hexadecimal digits is. -/
def hexValue (s : List UInt8) : Nat := (digits 16 0 s).1

/-- The text has only hexadecimal digits. -/
def IsHex (s : List UInt8) : Prop := ∀ c ∈ s, (digitOf 16 c).isSome

instance (s : List UInt8) : Decidable (IsHex s) :=
  List.decidableBAll (fun c => (digitOf 16 c).isSome = true) s

theorem digits_of_isHex (h : IsHex s) :
    digits 16 acc s = (acc * 16 ^ s.length + hexValue s, []) := by
  induction s generalizing acc with
  | nil => simp [digits, hexValue]
  | cons c s ih =>
    obtain ⟨hc, hs⟩ := List.forall_mem_cons.mp h
    obtain ⟨d, hd⟩ := Option.isSome_iff_exists.mp hc
    have hval : hexValue (c :: s) = d * 16 ^ s.length + hexValue s := by
      rw [hexValue, digits, hd]
      simp only [ih hs, Nat.zero_mul, Nat.zero_add]
    rw [digits, hd, hval]
    simp only [ih hs, List.length_cons, Nat.pow_succ, Prod.mk.injEq, and_true]
    rw [Nat.add_mul, Nat.mul_assoc, Nat.mul_comm 16, Nat.add_assoc]

theorem hexValue_append (hu : IsHex u) (hv : IsHex v) :
    hexValue (u ++ v) = hexValue u * 16 ^ v.length + hexValue v := by
  have hd : digits 16 0 u = (0 * 16 ^ u.length + hexValue u, []) := digits_of_isHex hu
  rw [Nat.zero_mul, Nat.zero_add] at hd
  have hc := digits_append 16 u v 0
  rw [hd, if_pos rfl, digits_of_isHex hv] at hc
  exact congrArg Prod.fst hc

theorem IsHex.not_mem (h : IsHex s) (hc : digitOf 16 c = none) : c ∉ s := by
  intro hmem
  have := h c hmem
  rw [hc] at this
  exact absurd this (by simp)

theorem digitVal_of_isSpace (h : isSpace c = true) : digitVal c = none := by
  have hn : c.toNat = 32 ∨ (9 ≤ c.toNat ∧ c.toNat ≤ 13) := by
    rw [isSpace, Bool.or_eq_true, Bool.and_eq_true, beq_iff_eq, decide_eq_true_eq,
      decide_eq_true_eq] at h
    rcases h with rfl | ⟨hlow, hhigh⟩
    · exact Or.inl rfl
    · exact Or.inr ⟨hlow, hhigh⟩
  simp only [digitVal, UInt8.le_iff_toNat_le, UInt8.toNat_ofNat]
  rw [if_neg (by omega), if_neg (by omega), if_neg (by omega)]

theorem IsHex.dropWhile (h : IsHex s) : s.dropWhile isSpace = s := by
  cases s with
  | nil => rfl
  | cons c s =>
    have hc := (List.forall_mem_cons.mp h).1
    refine List.dropWhile_cons_of_neg fun hsp => ?_
    rw [digitOf, digitVal_of_isSpace hsp] at hc
    exact absurd hc (by simp)

theorem IsHex.signOf (h : IsHex s) : signOf s = (false, s) := by
  cases s with
  | nil => rfl
  | cons c s =>
    have hc := (List.forall_mem_cons.mp h).1
    refine signOf_of_ne ?_ ?_ s
    · rintro rfl
      exact absurd hc (by decide)
    · rintro rfl
      exact absurd hc (by decide)

theorem IsHex.dropHexPrefix (h : IsHex s) : dropHexPrefix s = s := by
  unfold OsLabs.dropHexPrefix
  split
  · rename_i x cs
    have hx := h x (by simp)
    refine if_neg ?_
    rintro (rfl | rfl)
    · exact absurd hx (by decide)
    · exact absurd hx (by decide)
  · rfl

/-- **A number in hexadecimal** is read by `strtoul`, if it is an `unsigned long`. -/
theorem strtoul16_hex (h : IsHex s) (hlt : hexValue s < 2 ^ 64) : strtoul16 s = hexValue s := by
  have hsmall : ¬ 2 ^ 64 ≤ (digits 16 0 s).1 := Nat.not_le.mpr hlt
  rw [strtoul16, h.dropWhile, h.signOf]
  dsimp only
  rw [h.dropHexPrefix, if_neg hsmall]
  rfl

/-! ## 4. One more byte behind a text for `kstrtoint` -/

/-- The first byte decides about the sign, and what is behind the sign has the text's last byte
unless there is nothing. -/
theorem signOf_append (hne : u ≠ []) : (∀ v, signOf (u ++ v) = ((signOf u).1, (signOf u).2 ++ v)) ∧
    (u.getLast? = some 10 ↔ (signOf u).2.getLast? = some 10) := by
  match u with
  | [] => exact absurd rfl hne
  | a :: u =>
    by_cases hm : a = 45
    · subst hm
      refine ⟨fun v => rfl, ?_⟩
      cases u with
      | nil => decide
      | cons b u => rw [List.getLast?_cons_cons]; rfl
    by_cases hp : a = 43
    · subst hp
      refine ⟨fun v => rfl, ?_⟩
      cases u with
      | nil => decide
      | cons b u => rw [List.getLast?_cons_cons]; rfl
    · rw [signOf_of_ne hm hp]
      exact ⟨fun v => signOf_of_ne hm hp _, Iff.rfl⟩

theorem toInt_inj {b : Bool} {m : Nat} {i j : Int} (hi : toInt b n = some i)
    (hj : toInt b m = some j) : i = j ↔ n = m := by
  cases b with
  | false =>
    simp only [toInt, Bool.false_eq_true, if_false] at hi hj
    split at hi
    · split at hj
      · have := Option.some.inj hi
        have := Option.some.inj hj
        omega
      · exact absurd hj (by simp)
    · exact absurd hi (by simp)
  | true =>
    simp only [toInt, if_true] at hi hj
    split at hi
    · split at hj
      · have := Option.some.inj hi
        have := Option.some.inj hj
        omega
      · exact absurd hj (by simp)
    · exact absurd hi (by simp)

theorem toInt_zero (b : Bool) : toInt b 0 = some 0 := by
  cases b <;> rfl

theorem kstrtoint_append_newline (hlast : s.getLast? ≠ some 10) :
    kstrtoint (s ++ [10]) = kstrtoint s := by
  by_cases hne : s = []
  · rw [hne]
    rfl
  obtain ⟨happ, hiff⟩ := signOf_append hne
  rw [kstrtoint, kstrtoint, happ [10], kstrtoull_append_newline (fun h => hlast (hiff.mpr h))]

theorem kstrtoint_two_newlines (hlast : s.getLast? = some 10) : kstrtoint (s ++ [10]) = none := by
  have hne : s ≠ [] := by
    rintro rfl
    exact absurd hlast (by simp)
  obtain ⟨happ, hiff⟩ := signOf_append hne
  rw [kstrtoint, happ [10], kstrtoull_two_newlines (hiff.mp hlast)]
  rfl

/-- A byte that is no newline keeps the number only if it is one more zero behind a zero. -/
theorem kstrtoint_append_eq_some (hc : c ≠ 10) {i : Int} (hs : kstrtoint s = some i)
    (ht : kstrtoint (s ++ [c]) = some i) : c = 48 ∧ i = 0 ∧ s.getLast? ≠ some 10 := by
  have hne : s ≠ [] := by
    rintro rfl
    rw [show kstrtoint [] = none from rfl] at hs
    exact absurd hs (by simp)
  obtain ⟨happ, hiff⟩ := signOf_append hne
  rw [kstrtoint] at hs ht
  rw [happ [c]] at ht
  obtain ⟨n, hn, hi⟩ := Option.bind_eq_some_iff.mp hs
  obtain ⟨m, hm, hi'⟩ := Option.bind_eq_some_iff.mp ht
  obtain ⟨hlast, d, hd, hmn⟩ := kstrtoull_append hc hn hm
  have heq : n = m := (toInt_inj hi hi').mp rfl
  have hgrow := Nat.mul_le_mul_left n (fixupRadix_base (signOf s).2)
  have hn0 : n = 0 := by omega
  subst hn0
  have hd0 : d = 0 := by omega
  rw [hd0] at hd
  refine ⟨(digitOf_eq_zero_iff.mp hd).2, ?_, fun h => hlast (hiff.mp h)⟩
  rw [toInt_zero] at hi
  exact (Option.some.inj hi).symm

theorem kstrtoint_append_zero (hs : kstrtoint s = some 0) (hlast : s.getLast? ≠ some 10) :
    kstrtoint (s ++ [48]) = some 0 := by
  have hne : s ≠ [] := by
    rintro rfl
    rw [show kstrtoint [] = none from rfl] at hs
    exact absurd hs (by simp)
  obtain ⟨happ, hiff⟩ := signOf_append hne
  rw [kstrtoint] at hs ⊢
  rw [happ [48]]
  obtain ⟨n, hn, hi⟩ := Option.bind_eq_some_iff.mp hs
  have hn0 : n = 0 := (toInt_inj hi (toInt_zero _)).mp rfl
  subst hn0
  rw [kstrtoull_append_zero hn (fun h => hlast (hiff.mpr h))]
  exact toInt_zero _

/-- **When one more byte does not change the outcome**: it is a newline, but not the second one
behind a number; or it is another byte, and the text is no number with it nor without it, or is
a zero of one digit more with it. -/
theorem kstrtoint_append_iff (s : List UInt8) (c : UInt8) :
    kstrtoint s = kstrtoint (s ++ [c]) ↔
      (c = 10 ∧ ¬ (s.getLast? = some 10 ∧ (kstrtoint s).isSome)) ∨
      (c ≠ 10 ∧ ((kstrtoint s = none ∧ kstrtoint (s ++ [c]) = none) ∨
        (c = 48 ∧ kstrtoint s = some 0 ∧ s.getLast? ≠ some 10))) := by
  by_cases hc : c = 10
  · subst hc
    by_cases hlast : s.getLast? = some 10
    · rw [kstrtoint_two_newlines hlast]
      simp [hlast]
    · simp [kstrtoint_append_newline hlast, hlast]
  · simp only [hc, false_and, false_or, ne_eq, not_false_eq_true, true_and]
    constructor
    · intro heq
      cases hs : kstrtoint s with
      | none => exact Or.inl ⟨rfl, heq ▸ hs⟩
      | some i =>
        obtain ⟨h48, hi, hlast⟩ := kstrtoint_append_eq_some hc hs (heq ▸ hs)
        exact Or.inr ⟨h48, by rw [hi], hlast⟩
    · rintro (⟨hs, ht⟩ | ⟨rfl, hs, hlast⟩)
      · rw [hs, ht]
      · rw [hs, kstrtoint_append_zero hs hlast]

/-! ## 5. Numbers in decimal -/

/-- What `%d` prints of an `int`. -/
def decimalInt (p : Int) : List UInt8 := if p < 0 then 45 :: decimal p.natAbs else decimal p.natAbs

theorem digitOf_digitChar {d : Nat} (hd : d < 10) :
    digitOf 10 (UInt8.ofNat (Nat.digitChar d).toNat) = some d := by
  have : ∀ d < 10, digitOf 10 (UInt8.ofNat (Nat.digitChar d).toNat) = some d := by decide
  exact this d hd

/-- **The digits of a number in decimal** are read back. -/
theorem digits_decimal (n : Nat) : digits 10 0 (decimal n) = (n, []) := by
  induction n using Nat.strongRecOn with
  | _ n ih =>
    rcases Nat.lt_or_ge n 10 with hlt | hge
    · rw [decimal, Nat.toDigits_of_lt_base hlt, List.map_singleton, digits, digitOf_digitChar hlt]
      simp [digits]
    · have hmod : n % 10 < 10 := Nat.mod_lt n (by decide)
      have hdiv := ih (n / 10) (by omega)
      rw [decimal] at hdiv ⊢
      rw [Nat.toDigits_of_base_le (by decide) hge, List.map_append, List.map_singleton,
        digits_append, hdiv, if_pos rfl, digits, digitOf_digitChar hmod]
      simp only [digits, Prod.mk.injEq, and_true]
      omega

theorem decimalInt_no_newline (p : Int) : (10 : UInt8) ∉ decimalInt p := by
  have hdec : ∀ n, (10 : UInt8) ∉ decimal n := fun n hmem =>
    mem_digits_of_not_digit (digitOf_newline 10) hmem (congrArg Prod.snd (digits_decimal n))
  unfold decimalInt
  split
  · rw [List.mem_cons, not_or]
    exact ⟨by decide, hdec _⟩
  · exact hdec _

/-- A number that is not zero starts with a digit that is not zero. -/
theorem decimal_head {n : Nat} (hn : 0 < n) : ∃ c cs, decimal n = c :: cs ∧ c ≠ 48 ∧
    (digitOf 10 c).isSome := by
  induction n using Nat.strongRecOn with
  | _ n ih =>
    rcases Nat.lt_or_ge n 10 with hlt | hge
    · refine ⟨UInt8.ofNat (Nat.digitChar n).toNat, [], ?_, ?_, ?_⟩
      · rw [decimal, Nat.toDigits_of_lt_base hlt, List.map_singleton]
      · intro h48
        have hdig := digitOf_digitChar hlt
        rw [h48, digitOf_zero (by decide)] at hdig
        exact absurd (Option.some.inj hdig) (by omega)
      · rw [digitOf_digitChar hlt]
        rfl
    · obtain ⟨c, cs, hd, hc⟩ := ih (n / 10) (by omega) (by omega)
      rw [decimal] at hd ⊢
      refine ⟨c, cs ++ [UInt8.ofNat (Nat.digitChar (n % 10)).toNat], ?_, hc⟩
      rw [Nat.toDigits_of_base_le (by decide) hge, List.map_append, hd, List.map_singleton,
        List.cons_append]

theorem kstrtoull_decimal (n : Nat) : kstrtoull (decimal n) = some n := by
  rcases Nat.eq_zero_or_pos n with rfl | hpos
  · decide
  · obtain ⟨c, cs, hd, hc, -⟩ := decimal_head hpos
    rw [kstrtoull_eq_some_iff]
    have hdec := digits_decimal n
    rw [hd] at hdec ⊢
    rw [fixupRadix_of_ne hc]
    exact ⟨[], hdec, by simp, Or.inl rfl⟩

theorem signOf_decimal (n : Nat) : signOf (decimal n) = (false, decimal n) := by
  rcases Nat.eq_zero_or_pos n with rfl | hpos
  · decide
  · obtain ⟨c, cs, hd, -, hdig⟩ := decimal_head hpos
    rw [hd]
    refine signOf_of_ne ?_ ?_ cs
    · rintro rfl
      exact absurd hdig (by decide)
    · rintro rfl
      exact absurd hdig (by decide)

/-- **Every `int` printed in decimal is read back.** -/
theorem kstrtoint_decimalInt {p : Int} (hlow : -2 ^ 31 ≤ p) (hhigh : p < 2 ^ 31) :
    kstrtoint (decimalInt p) = some p := by
  unfold decimalInt
  split
  · rename_i hneg
    rw [kstrtoint, show signOf (45 :: decimal p.natAbs) = (true, decimal p.natAbs) from rfl,
      kstrtoull_decimal, Option.bind_some, toInt, if_pos rfl, if_pos (by omega)]
    congr 1
    omega
  · rw [kstrtoint, signOf_decimal, kstrtoull_decimal, Option.bind_some, toInt,
      if_neg (by simp), if_pos (by omega)]
    congr 1
    omega

end OsLabs
