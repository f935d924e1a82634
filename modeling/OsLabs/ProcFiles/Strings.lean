/-
# fortune: the strings in the pot

Whatever is written, the bytes of `cookiePot` below `writeInd` are strings one after the other,
each with its NUL, and `readInd` stands on a boundary between two of them (`Holds`).  A write of
bytes with NULs among them adds several strings (`exists_zstrings`), one that is refused or
faults adds none, and a read takes the string where it starts (`Holds.start_string`).
-/
import OsLabs.ProcFiles.Fortune

namespace OsLabs.Fortune

open Kernel

/-! ## 1. Boundaries between strings -/

/-- The stretch below a string boundary is not longer than the whole. -/
theorem length_zstrings_take_le (l : List (List UInt8)) (k : Nat) :
    (zstrings (l.take k)).length ≤ (zstrings l).length := by
  conv_rhs => rw [← List.take_append_drop k l, zstrings_append, List.length_append]
  exact Nat.le_add_right _ _

/-- Strings that are not none end with a NUL. -/
theorem zstrings_of_ne_nil {l : List (List UInt8)} (h : l ≠ []) :
    ∃ p, zstrings l = p ++ [0] := by
  rcases List.eq_nil_or_concat l with hnil | ⟨l', str, hl⟩
  · exact absurd hnil h
  · refine ⟨zstrings l' ++ str, ?_⟩
    rw [hl, List.concat_eq_append, zstrings_append, zstrings_singleton, List.append_assoc]

/-- **Any bytes with a NUL behind them are strings**, cut at the NULs. -/
theorem exists_zstrings (l : List UInt8) :
    ∃ m : List (List UInt8), l ++ [0] = zstrings m ∧ ∀ str ∈ m, (0 : UInt8) ∉ str := by
  induction l with
  | nil => exact ⟨[[]], rfl, by simp⟩
  | cons c l ih =>
    obtain ⟨m, hm, hnul⟩ := ih
    by_cases hc : c = 0
    · -- a NUL ends an empty string
      refine ⟨[] :: m, ?_, ?_⟩
      · rw [List.cons_append, hm, hc]
        rfl
      · simpa using hnul
    · cases m with
      | nil => exact absurd hm (by simp [zstrings])
      | cons str m =>
        refine ⟨(c :: str) :: m, ?_, ?_⟩
        · rw [List.cons_append, hm]
          rfl
        · rw [List.forall_mem_cons] at hnul ⊢
          rw [List.mem_cons, not_or]
          exact ⟨⟨Ne.symm hc, hnul.1⟩, hnul.2⟩

/-! ## 2. The strings of the pot -/

/-- **The page begins with the strings `l`**, and `readInd` stands before the one number `k`. -/
structure Holds (s : Pot) (l : List (List UInt8)) (k : Nat) : Prop where
  pot : ∃ rest, s.cookiePot.bytes = zstrings l ++ rest
  writeInd : s.writeInd = (zstrings l).length
  readInd : s.readInd = (zstrings (l.take k)).length
  le : k ≤ l.length
  noNul : ∀ str ∈ l, (0 : UInt8) ∉ str

variable {s : Pot} {l : List (List UInt8)} {k : Nat}

theorem holds_init : Holds Pot.init [] 0 where
  pot := ⟨_, rfl⟩
  writeInd := rfl
  readInd := rfl
  le := Nat.le_refl 0
  noNul _ h := absurd h (List.not_mem_nil)

theorem Holds.writeInd_le (h : Holds s l k) : s.writeInd ≤ PAGE_SIZE := by
  obtain ⟨rest, hb⟩ := h.pot
  have hlen := s.cookiePot.length_eq
  rw [hb, List.length_append] at hlen
  rw [h.writeInd]
  omega

theorem Holds.ne_nil (h : Holds s l k) (hw : s.writeInd ≠ 0) : l ≠ [] := by
  rintro rfl
  exact hw h.writeInd

/-- The strings keep the indices in order. -/
theorem Holds.indInv (h : Holds s l k) : IndInv s := by
  obtain ⟨rest, hb⟩ := h.pot
  have hw := h.writeInd
  refine ⟨by rw [h.readInd]; omega, ?_, h.writeInd_le, fun hpos => ?_⟩
  · rw [h.readInd, hw]
    exact Int.ofNat_le.mpr (length_zstrings_take_le _ _)
  · obtain ⟨p, hp⟩ := zstrings_of_ne_nil (h.ne_nil (by omega))
    have hind : (s.writeInd - 1).toNat = p.length := by
      rw [hw, hp, List.length_append, List.length_singleton]
      omega
    rw [hb, hp, hind, List.append_assoc, List.getElem?_append_right (Nat.le_refl _)]
    simp

/-- Bytes that a copy leaves from `writeInd` on are not part of the strings. -/
theorem Holds.fault (h : Holds s l k) {bytes : List UInt8} {pot : Buffer PAGE_SIZE}
    (hst : s.cookiePot.store s.writeInd bytes = .ok pot) :
    Holds { s with cookiePot := pot } l k := by
  obtain ⟨rest, hb⟩ := h.pot
  obtain ⟨⟨-, hle⟩, -⟩ := Buffer.bytes_of_store hst
  have hlen := s.cookiePot.length_eq
  rw [hb, List.length_append] at hlen
  have hw := h.writeInd
  obtain ⟨pot', hst', hb'⟩ := Buffer.store_after bytes hb hw (by omega)
  obtain rfl : pot = pot' := Except.ok.inj (hst.symm.trans hst')
  exact ⟨⟨_, by rw [hb', List.append_assoc]⟩, hw, h.readInd, h.le, h.noNul⟩

/-- **A write appends the strings of its bytes**, whose last one is made the NUL. -/
theorem Holds.append (h : Holds s l k) {bytes : List UInt8} {pot pot' : Buffer PAGE_SIZE}
    (hpos : 1 ≤ bytes.length) (hst : s.cookiePot.store s.writeInd bytes = .ok pot)
    (hst' : pot.store (s.writeInd + bytes.length - 1) [0] = .ok pot')
    {m : List (List UInt8)} (hm : bytes.dropLast ++ [0] = zstrings m)
    (hnul : ∀ str ∈ m, (0 : UInt8) ∉ str) :
    Holds { s with cookiePot := pot', writeInd := s.writeInd + bytes.length } (l ++ m) k := by
  obtain ⟨rest, hb⟩ := h.pot
  obtain ⟨⟨-, hle⟩, -⟩ := Buffer.bytes_of_store hst
  have hlen := s.cookiePot.length_eq
  rw [hb, List.length_append] at hlen
  have hw := h.writeInd
  obtain ⟨pot₁, hst₁, hb₁⟩ := Buffer.store_after bytes hb hw (by omega)
  obtain rfl : pot = pot₁ := Except.ok.inj (hst.symm.trans hst₁)
  obtain ⟨c, hc⟩ : ∃ c, bytes = bytes.dropLast ++ [c] := by
    have hne : bytes ≠ [] := fun h0 => by simp [h0] at hpos
    exact ⟨bytes.getLast hne, (List.dropLast_append_getLast hne).symm⟩
  have hb₂ : pot.bytes =
      (zstrings l ++ bytes.dropLast) ++ (c :: rest.drop bytes.length) := by
    have hsplit : zstrings l ++ bytes = (zstrings l ++ bytes.dropLast) ++ [c] := by
      rw [List.append_assoc, ← hc]
    rw [hb₁, hsplit, List.append_assoc]
    rfl
  have hind : s.writeInd + bytes.length - 1 = (zstrings l ++ bytes.dropLast).length := by
    simp only [List.length_append, List.length_dropLast, hw]
    omega
  obtain ⟨pot₂, hst₂, hb₃⟩ := Buffer.store_after [0] hb₂ hind (by simp)
  obtain rfl : pot' = pot₂ := Except.ok.inj (hst'.symm.trans hst₂)
  have hz : zstrings (l ++ m) = zstrings l ++ bytes.dropLast ++ [0] := by
    rw [zstrings_append, ← hm, List.append_assoc]
  refine ⟨⟨rest.drop bytes.length, ?_⟩, ?_, ?_, ?_, ?_⟩
  · rw [hb₃, hz]
    simp
  · rw [hz]
    simp only [List.length_append, List.length_dropLast, List.length_singleton, hw]
    omega
  · rw [List.take_append_of_le_length h.le]
    exact h.readInd
  · rw [List.length_append]
    exact Nat.le_add_right_of_le h.le
  · intro str hstr
    rcases List.mem_append.mp hstr with hin | hin
    · exact h.noNul str hin
    · exact hnul str hin

/-- A write of nothing stores the NUL that is there already. -/
theorem Holds.empty (h : Holds s l k) (hw : s.writeInd ≠ 0) {pot pot' : Buffer PAGE_SIZE}
    (hst : s.cookiePot.store s.writeInd [] = .ok pot)
    (hst' : pot.store (s.writeInd - 1) [0] = .ok pot') :
    Holds { s with cookiePot := pot' } l k := by
  have hf := h.fault hst
  obtain ⟨rest, hb⟩ := hf.pot
  obtain ⟨p, hp⟩ := zstrings_of_ne_nil (h.ne_nil hw)
  have hwr := h.writeInd
  rw [hp, List.length_append, List.length_singleton] at hwr
  have hb₁ : pot.bytes = p ++ (0 :: rest) := by
    rw [hb, hp, List.append_assoc]
    rfl
  obtain ⟨pot₁, hst₁, hb₂⟩ := Buffer.store_after [0] hb₁
    (show s.writeInd - 1 = p.length by omega) (by simp)
  obtain rfl : pot' = pot₁ := Except.ok.inj (hst'.symm.trans hst₁)
  refine ⟨⟨rest, ?_⟩, h.writeInd, h.readInd, h.le, h.noNul⟩
  rw [hb₂, hp]
  simp

/-- The string the next read takes: the one at the cursor, or the first again. -/
def position (k n : Nat) : Nat := if k = n then 0 else k

/-- **Where a read starts** there is a string of the pot. -/
theorem Holds.start_string (h : Holds s l k) (hw : s.writeInd ≠ 0) :
    ∃ str, l[position k l.length]? = some str ∧
      s.start = (zstrings (l.take (position k l.length))).length ∧
      s.cookiePot.cstring s.start = .ok str := by
  have hlen : 0 < l.length := List.length_pos_of_ne_nil (h.ne_nil hw)
  have hpos : position k l.length < l.length := by
    unfold position
    split
    · exact hlen
    · have := h.le
      omega
  have hwr := h.writeInd
  have hri := h.readInd
  have hstart : s.start = (zstrings (l.take (position k l.length))).length := by
    unfold Pot.start position
    by_cases hc : k = l.length
    · rw [hc, List.take_length, ← hwr] at hri
      rw [if_pos (by omega), if_pos hc]
      rfl
    · have hlt : k < l.length := Nat.lt_of_le_of_ne h.le hc
      have hmore := length_zstrings_take_succ (List.getElem?_eq_getElem hlt)
      have hle := length_zstrings_take_le l (k + 1)
      rw [if_neg (by omega), if_neg hc]
      exact hri
  have hget := List.getElem?_eq_getElem hpos
  refine ⟨_, hget, hstart, ?_⟩
  obtain ⟨rest, hb⟩ := h.pot
  rw [zstrings_eq hget, List.append_assoc, List.append_assoc, List.cons_append] at hb
  exact Buffer.cstring_after hb hstart (h.noNul _ (List.getElem_mem hpos))

/-- A read moves `readInd` behind the string it has taken. -/
theorem Holds.advance (h : Holds s l k) {str : List UInt8} {i : Nat} {tmpBuf : Buffer PAGE_SIZE}
    (hget : l[i]? = some str) {readInd : Int}
    (hri : readInd = (zstrings (l.take i)).length + (str.length + 1)) :
    Holds { s with tmpBuf := tmpBuf, readInd := readInd } l (i + 1) := by
  obtain ⟨hlt, -⟩ := List.getElem?_eq_some_iff.mp hget
  refine ⟨h.pot, h.writeInd, ?_, hlt, h.noNul⟩
  simp only [hri, length_zstrings_take_succ hget]
  omega

/-- A read that faults leaves `readInd` before the string. -/
theorem Holds.stay (h : Holds s l k) {i : Nat} {tmpBuf : Buffer PAGE_SIZE} (hi : i ≤ l.length)
    {readInd : Int} (hri : readInd = (zstrings (l.take i)).length) :
    Holds { s with tmpBuf := tmpBuf, readInd := readInd } l i :=
  ⟨h.pot, h.writeInd, hri, hi, h.noNul⟩

theorem position_le (k n : Nat) (h : k ≤ n) : position k n ≤ n := by
  unfold position
  split <;> omega

/-! ## 3. What the operations return -/

/-- **A write that is accepted** returns its length and appends its strings. -/
theorem Holds.write_accepted (h : Holds s l k) {buf : UserCopy} (hok : buf.ok = true)
    (hpos : 1 ≤ buf.len) (hle : s.writeInd + buf.len ≤ PAGE_SIZE) {m : List (List UInt8)}
    (hm : buf.bytes.dropLast ++ [0] = zstrings m) (hnul : ∀ str ∈ m, (0 : UInt8) ∉ str) :
    ∃ s', fortuneWrite s buf = .ok ((buf.len : Int), s') ∧ Holds s' (l ++ m) k := by
  have hfit : WriteFits s buf := ⟨by omega, fun h0 => by omega⟩
  obtain ⟨hlt, -⟩ | ⟨-, pot, hst, ⟨hok', -⟩ | ⟨-, pot', hst', hw⟩⟩ :=
    fortuneWrite_cases h.indInv hfit
  · omega
  · exact absurd hok' (by simp [hok])
  · exact ⟨_, hw, h.append hpos hst hst' hm hnul⟩

/-- **What a write returns and which strings it appends** depends on the strings of the pot only;
one that returns an error code appends none. -/
theorem write_outcome (l : List (List UInt8)) (buf : UserCopy) :
    (∀ s k, Holds s l k → ¬ WriteFits s buf) ∨
      ∃ ret m, (ret < 0 → m = []) ∧ ∀ s k, Holds s l k →
        ∃ s', fortuneWrite s buf = .ok (ret, s') ∧ Holds s' (l ++ m) k := by
  by_cases hfit : buf.len + (zstrings l).length ≠ PAGE_SIZE + 1 ∧
      (buf.len = 0 → (zstrings l).length ≠ 0)
  · right
    have hfits : ∀ s k, Holds s l k → WriteFits s buf := by
      intro s k h
      have hw := h.writeInd
      exact ⟨by omega, fun h0 => by have := hfit.2 h0; omega⟩
    by_cases hlt : PAGE_SIZE < (zstrings l).length + buf.len
    · -- it is refused
      refine ⟨-ENOSPC, [], fun _ => rfl, fun s k h => ?_⟩
      have hw := h.writeInd
      obtain ⟨-, hr⟩ | ⟨hle, -⟩ := fortuneWrite_cases h.indInv (hfits s k h)
      · exact ⟨s, hr, by rw [List.append_nil]; exact h⟩
      · omega
    cases hok : buf.ok with
    | false =>
      refine ⟨-EFAULT, [], fun _ => rfl, fun s k h => ?_⟩
      have hw := h.writeInd
      obtain ⟨hgt, -⟩ | ⟨-, pot, hst, ⟨-, hr⟩ | ⟨hok', -⟩⟩ :=
        fortuneWrite_cases h.indInv (hfits s k h)
      · omega
      · exact ⟨_, hr, by rw [List.append_nil]; exact h.fault hst⟩
      · exact absurd hok' (by simp [hok])
    | true =>
      rcases Nat.eq_zero_or_pos buf.len with h0 | hpos
      · refine ⟨(buf.len : Int), [], fun _ => rfl, fun s k h => ?_⟩
        have hw := h.writeInd
        obtain ⟨hgt, -⟩ | ⟨-, pot, hst, ⟨hok', -⟩ | ⟨-, pot', hst', hr⟩⟩ :=
          fortuneWrite_cases h.indInv (hfits s k h)
        · omega
        · exact absurd hok' (by simp [hok])
        · have hnil : buf.bytes = [] := List.length_eq_zero_iff.mp h0
          rw [hnil] at hst
          rw [h0, Int.natCast_zero, Int.add_zero] at hst' hr
          refine ⟨_, by rw [h0]; exact hr, ?_⟩
          rw [List.append_nil]
          exact h.empty ((hfits s k h).2 h0) hst hst'
      · obtain ⟨m, hm, hnul⟩ := exists_zstrings buf.bytes.dropLast
        refine ⟨(buf.len : Int), m, fun hneg => by omega, fun s k h => ?_⟩
        have hw := h.writeInd
        exact h.write_accepted hok hpos (by omega) hm hnul
  · left
    intro s k h hf
    have hw := h.writeInd
    exact hfit ⟨fun heq => hf.1 (by omega), fun h0 hz => hf.2 h0 (by omega)⟩

/-- What a read hands back that takes the string `str`. -/
def readReply (str : List UInt8) (fPos : Int) (ok : Bool) : Reply :=
  if ok = false then ⟨-EFAULT, [], fPos⟩
  else ⟨(str ++ [newline]).length, printed str, fPos + (str ++ [newline]).length⟩

/-- **What a read returns and where it leaves the cursor**: behind the string it has taken, or
before it when the copy fails. -/
theorem Holds.read_outcome (h : Holds s l k) (fPos : Int) (ok : Bool) :
    ((fPos > 0 ∨ l = []) ∧ fortuneRead s fPos ok = .ok (⟨0, [], fPos⟩, s)) ∨
      (¬ (fPos > 0 ∨ l = []) ∧ ∃ str s', l[position k l.length]? = some str ∧
        fortuneRead s fPos ok = .ok (readReply str fPos ok, s') ∧
        Holds s' l (position k l.length + if ok = false then 0 else 1)) := by
  have hempty : s.writeInd = 0 ↔ l = [] := by
    refine ⟨fun h0 => ?_, fun hnil => by rw [h.writeInd, hnil]; rfl⟩
    by_contra hne
    obtain ⟨p, hp⟩ := zstrings_of_ne_nil hne
    have hw := h.writeInd
    rw [hp, List.length_append, List.length_singleton] at hw
    omega
  rw [← hempty]
  obtain ⟨hend, hr⟩ | ⟨hend, str, tmpBuf, hstr, -, hr⟩ := fortuneRead_cases h.indInv fPos ok
  · exact Or.inl ⟨hend, hr⟩
  right
  obtain ⟨str', hget, hstart, hstr'⟩ := h.start_string fun h0 => hend (Or.inr h0)
  obtain rfl : str = str' := Except.ok.inj (hstr.symm.trans hstr')
  refine ⟨hend, str, ?_⟩
  cases ok with
  | false => exact ⟨_, hget, hr, h.stay (position_le _ _ h.le) hstart⟩
  | true =>
    refine ⟨_, hget, hr, h.advance hget ?_⟩
    rw [hstart, List.length_append, List.length_singleton]
    omega

/-! ## 4. Every run -/

/-- The pot of a module that is running consists of strings. -/
def Strings : Result Pot → Prop
  | .ok s => ∃ l k, Holds s l k
  | .error _ => True

theorem Holds.write (h : Holds s l k) {buf : UserCopy} {r : Int} {s' : Pot}
    (hw : fortuneWrite s buf = .ok (r, s')) : ∃ l', Holds s' l' k := by
  obtain hnot | ⟨ret, m, -, hout⟩ := write_outcome l buf
  · obtain ⟨i, hi⟩ := fortuneWrite_error h.indInv (hnot s k h)
    rw [hi] at hw
    exact absurd hw (by simp)
  · obtain ⟨s₁, hr, h₁⟩ := hout s k h
    obtain ⟨-, rfl⟩ := Prod.mk.inj (Except.ok.inj (hr.symm.trans hw))
    exact ⟨l ++ m, h₁⟩

theorem Holds.read (h : Holds s l k) {fPos : Int} {ok : Bool} {r : Reply} {s' : Pot}
    (hr : fortuneRead s fPos ok = .ok (r, s')) : ∃ k', Holds s' l k' := by
  obtain ⟨-, hr'⟩ | ⟨-, str, s₁, -, hr', h₁⟩ := h.read_outcome fPos ok
  · obtain ⟨-, rfl⟩ := Prod.mk.inj (Except.ok.inj (hr'.symm.trans hr))
    exact ⟨k, h⟩
  · obtain ⟨-, rfl⟩ := Prod.mk.inj (Except.ok.inj (hr'.symm.trans hr))
    exact ⟨_, h₁⟩

/-- **In every reachable state the pot consists of strings**, whatever was written. -/
theorem reachable_strings {r : Result Pot} (h : module.Reachable r) : Strings r := by
  refine Machine.reachable_rule (M := module) (I := Strings) ⟨[], 0, holds_init⟩
    (fun r c r' hr hst => ?_) h
  cases r with
  | error e => exact absurd hst (by simp [module])
  | ok s =>
    obtain ⟨l, k, hl⟩ := hr
    obtain rfl : s.call c = r' := Option.some.inj hst
    cases c with
    | write buf =>
      simp only [Pot.call]
      cases hw : fortuneWrite s buf with
      | error e => trivial
      | ok out =>
        obtain ⟨l', hl'⟩ := hl.write hw
        exact ⟨l', k, hl'⟩
    | read fPos ok =>
      simp only [Pot.call]
      cases hr : fortuneRead s fPos ok with
      | error e => trivial
      | ok out =>
        obtain ⟨k', hk'⟩ := hl.read hr
        exact ⟨l, k', hk'⟩

end OsLabs.Fortune
