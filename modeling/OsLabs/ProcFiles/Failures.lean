/-
# fortune: what a failed call leaves behind

A write that is refused or faults leaves at most bytes behind `writeInd`, where the next write
goes.  A read that faults leaves `readInd` where the string starts, and that is where it was,
unless it stood behind the last string: `fortuneRead` moves it back to the first before it knows
whether the copy succeeds.  To the next read that is the same place, but not to a write in
between, so the failed read can be told from no read as long as another string fits the page
(`alike_iff_unseen`).
-/
import OsLabs.ProcFiles.Strings
import OsLabs.Lib.Observation

namespace OsLabs.Fortune

open Kernel Observation

/-! ## 1. Calls and what they return -/

/-- What a call hands back. -/
inductive Outcome
  | wrote (ret : Int)
  | read (r : Reply)
deriving DecidableEq, Repr

/-- The value the function returns. -/
def Outcome.ret : Outcome → Int
  | .wrote ret => ret
  | .read r => r.ret

/-- The call, performed by the module. -/
def Call.perform (s : Pot) : Call → Result (Outcome × Pot)
  | .write buf => (fortuneWrite s buf).map fun (ret, s') => (.wrote ret, s')
  | .read fPos ok => (fortuneRead s fPos ok).map fun (r, s') => (.read r, s')

/-- The call returns an error code and leaves the module as `s'`. -/
def Fails (s : Pot) (c : Call) (s' : Pot) : Prop :=
  ∃ o, c.perform s = .ok (o, s') ∧ o.ret < 0

/-- The failed call can not be told from no call: it is not a read with the cursor behind the
last string, or what can still be written tells nothing, as there is no room, or only room for
an empty string behind empty strings. -/
def Unseen (s : Pot) : Call → Prop
  | .write _ => True
  | .read _ _ => s.readInd < s.writeInd ∨ s.writeInd = PAGE_SIZE ∨
      (s.writeInd = PAGE_SIZE - 1 ∧ ∀ c ∈ s.cookiePot.bytes.take (PAGE_SIZE - 1), c = 0)

variable {s s' t : Pot} {l : List (List UInt8)} {k j : Nat} {c : Call}

/-- The calls of `perform` are those of the module's runs. -/
theorem perform_call (s : Pot) (c : Call) : (c.perform s).map Prod.snd = s.call c := by
  cases c with
  | write buf =>
    simp only [Call.perform, Pot.call]
    cases fortuneWrite s buf <;> rfl
  | read fPos ok =>
    simp only [Call.perform, Pot.call]
    cases fortuneRead s fPos ok <;> rfl

/-! ## 2. Cursors that are told apart by nothing -/

/-- The cursors `k` and `j` over the strings `l` give the same answers: they are one, or on the
same string with the page full, or no string but empty ones can be told apart. -/
inductive SameCursor (l : List (List UInt8)) : Nat → Nat → Prop
  | same (k : Nat) : SameCursor l k k
  | full {k j : Nat} (hfull : (zstrings l).length = PAGE_SIZE)
      (hpos : position k l.length = position j l.length) : SameCursor l k j
  | oneLeft {k j : Nat} (hone : (zstrings l).length + 1 = PAGE_SIZE) (hnil : ∀ str ∈ l, str = [])
      (hpos : position k l.length = position j l.length) : SameCursor l k j
  | empties {k j : Nat} (hfull : (zstrings l).length = PAGE_SIZE) (hnil : ∀ str ∈ l, str = []) :
      SameCursor l k j

/-- Two modules with the same strings in the pot and cursors that are told apart by nothing. -/
def Twins (s t : Pot) : Prop := ∃ l k j, Holds s l k ∧ Holds t l j ∧ SameCursor l k j

/-- Strings that take one byte or none. -/
theorem zstrings_short {m : List (List UInt8)} (h : (zstrings m).length ≤ 1) :
    m = [] ∨ m = [[]] := by
  match m with
  | [] => exact Or.inl rfl
  | [str] =>
    right
    rw [zstrings_singleton, List.length_append, List.length_singleton] at h
    rw [List.length_eq_zero_iff.mp (by omega : str.length = 0)]
  | str :: str' :: m =>
    simp only [zstrings, List.flatMap_cons, List.length_append, List.length_singleton] at h
    omega

theorem length_zstrings_append_le (h : Holds s l k) : (zstrings l).length ≤ PAGE_SIZE := by
  have hw := h.writeInd
  have hle := h.writeInd_le
  omega

/-- **What a write appends keeps the cursors apart by nothing**, as there is room for little. -/
theorem SameCursor.append {m : List (List UInt8)} (h : SameCursor l k j)
    (hle : (zstrings (l ++ m)).length ≤ PAGE_SIZE) : SameCursor (l ++ m) k j := by
  rw [zstrings_append, List.length_append] at hle
  cases h with
  | same => exact .same _
  | full hfull hpos =>
    rcases zstrings_short (m := m) (by omega) with rfl | rfl
    · rw [List.append_nil]
      exact .full hfull hpos
    · simp only [zstrings_singleton, List.length_append, List.length_singleton] at hle
      omega
  | oneLeft hone hnil hpos =>
    rcases zstrings_short (m := m) (by omega) with rfl | rfl
    · rw [List.append_nil]
      exact .oneLeft hone hnil hpos
    · refine .empties ?_ ?_
      · rw [zstrings_append, List.length_append, ← hone]
        rfl
      · intro str hstr
        rcases List.mem_append.mp hstr with hin | hin
        · exact hnil str hin
        · exact List.mem_singleton.mp hin
  | empties hfull hnil =>
    rcases zstrings_short (m := m) (by omega) with rfl | rfl
    · rw [List.append_nil]
      exact .empties hfull hnil
    · simp only [zstrings_singleton, List.length_append, List.length_singleton] at hle
      omega

/-- **The strings two such cursors stand on are equal**, and behind them the cursors are still
told apart by nothing. -/
theorem SameCursor.read (h : SameCursor l k j) {str str' : List UInt8}
    (hs : l[position k l.length]? = some str) (ht : l[position j l.length]? = some str') (d : Nat) :
    str = str' ∧ SameCursor l (position k l.length + d) (position j l.length + d) := by
  have hpos : position k l.length = position j l.length →
      str = str' ∧ SameCursor l (position k l.length + d) (position j l.length + d) := by
    intro heq
    rw [heq] at hs ⊢
    exact ⟨Option.some.inj (hs.symm.trans ht), .same _⟩
  cases h with
  | same => exact hpos rfl
  | full _ heq => exact hpos heq
  | oneLeft _ _ heq => exact hpos heq
  | empties hfull hnil =>
    refine ⟨?_, .empties hfull hnil⟩
    rw [hnil str (List.mem_of_getElem? hs), hnil str' (List.mem_of_getElem? ht)]

/-- **Every call keeps them told apart by nothing.** -/
theorem Twins.perform (h : Twins s t) (c : Call) :
    SameOutcome Twins (c.perform s) (c.perform t) := by
  obtain ⟨l, k, j, hs, ht, hkj⟩ := h
  cases c with
  | write buf =>
    simp only [Call.perform]
    obtain hnot | ⟨ret, m, -, hout⟩ := write_outcome l buf
    · rw [fortuneWrite_overrun hs.indInv (hnot s k hs),
        fortuneWrite_overrun ht.indInv (hnot t j ht)]
      exact .error _
    · obtain ⟨s₁, hws, hs₁⟩ := hout s k hs
      obtain ⟨t₁, hwt, ht₁⟩ := hout t j ht
      rw [hws, hwt]
      exact .ok _ ⟨_, _, _, hs₁, ht₁, hkj.append (length_zstrings_append_le hs₁)⟩
  | read fPos ok =>
    simp only [Call.perform]
    obtain ⟨hend, hrs⟩ | ⟨hend, str, s₁, hgs, hrs, hs₁⟩ := hs.read_outcome fPos ok
    · obtain ⟨-, hrt⟩ | ⟨hend', -⟩ := ht.read_outcome fPos ok
      · rw [hrs, hrt]
        exact .ok _ ⟨l, k, j, hs, ht, hkj⟩
      · exact absurd hend hend'
    · obtain ⟨hend', -⟩ | ⟨-, str', t₁, hgt, hrt, ht₁⟩ := ht.read_outcome fPos ok
      · exact absurd hend' hend
      · obtain ⟨heq, hkj₁⟩ := hkj.read hgs hgt (if ok = false then 0 else 1)
        rw [hrs, hrt, heq]
        exact .ok _ ⟨l, _, _, hs₁, ht₁, hkj₁⟩

theorem Twins.alike (h : Twins s t) : Alike Call.perform s t :=
  alike_of_bisim (fun _ _ c h => h.perform c) h

/-! ## 3. Cursors that are told apart -/

/-- The first read of two modules that are alike takes equal strings. -/
theorem read_alike (hs : Holds s l k) (ht : Holds t l j) (h : Alike Call.perform s t)
    (hne : l ≠ []) : l[position k l.length]? = l[position j l.length]? ∧
      ∃ s₁ t₁, Holds s₁ l (position k l.length + 1) ∧ Holds t₁ l (position j l.length + 1) ∧
        Alike Call.perform s₁ t₁ := by
  have hidle : ¬ ((0 : Int) > 0 ∨ l = []) := by simpa using hne
  obtain ⟨hend, -⟩ | ⟨-, str, s₁, hgs, hrs, hs₁⟩ := hs.read_outcome 0 true
  · exact absurd hend hidle
  obtain ⟨hend, -⟩ | ⟨-, str', t₁, hgt, hrt, ht₁⟩ := ht.read_outcome 0 true
  · exact absurd hend hidle
  obtain ⟨heq, hnext⟩ := h.next (c := .read 0 true)
    (by simp only [Call.perform, hrs]; rfl) (by simp only [Call.perform, hrt]; rfl)
  -- what is printed of a string ends with one byte that is not the string's
  have hprinted : printed str = printed str' := congrArg Reply.data (Outcome.read.inj heq)
  have hstr : str = str' := by
    have := congrArg List.dropLast hprinted
    simpa [printed] using this
  exact ⟨by rw [hgs, hgt, hstr], s₁, t₁, hs₁, ht₁, hnext⟩

/-- Two modules that are alike are so after a write that is accepted. -/
theorem write_alike (hs : Holds s l k) (ht : Holds t l j) (h : Alike Call.perform s t)
    {str : List UInt8} (hnul : (0 : UInt8) ∉ str)
    (hle : (zstrings l).length + (str.length + 1) ≤ PAGE_SIZE) :
    ∃ s₁ t₁, Holds s₁ (l ++ [str]) k ∧ Holds t₁ (l ++ [str]) j ∧ Alike Call.perform s₁ t₁ := by
  have hlen : (UserCopy.of (str ++ [0])).len = str.length + 1 := by simp [UserCopy.len, UserCopy.of]
  have hm : (UserCopy.of (str ++ [0])).bytes.dropLast ++ [0] = zstrings [str] := by
    simp [UserCopy.of, zstrings]
  have hws := hs.writeInd
  have hwt := ht.writeInd
  obtain ⟨s₁, hrs, hs₁⟩ := hs.write_accepted rfl (by omega) (by omega) hm (by simpa using hnul)
  obtain ⟨t₁, hrt, ht₁⟩ := ht.write_accepted rfl (by omega) (by omega) hm (by simpa using hnul)
  obtain ⟨-, hnext⟩ := h.next (c := .write (.of (str ++ [0])))
    (by simp only [Call.perform, hrs]; rfl) (by simp only [Call.perform, hrt]; rfl)
  exact ⟨s₁, t₁, hs₁, ht₁, hnext⟩

/-- **What is written behind the last string tells a cursor there from one on the first**: if it
does not, it is the first string. -/
theorem written_eq_first (hs : Holds s l l.length) (ht : Holds t l 0)
    (h : Alike Call.perform s t) (hne : l ≠ []) (str : List UInt8) (hnul : (0 : UInt8) ∉ str)
    (hle : (zstrings l).length + (str.length + 1) ≤ PAGE_SIZE) :
    l[0]? = some str ∧ ∃ s₁ t₁, Holds s₁ (l ++ [str]) (l.length + 1) ∧
      Holds t₁ (l ++ [str]) 1 ∧ Alike Call.perform s₁ t₁ := by
  obtain ⟨s₁, t₁, hs₁, ht₁, h₁⟩ := write_alike hs ht h hnul hle
  have hpos : 0 < l.length := List.length_pos_of_ne_nil hne
  have hlast : position l.length (l ++ [str]).length = l.length := by
    rw [position, List.length_append, List.length_singleton, if_neg (by omega)]
  have hfirst : position 0 (l ++ [str]).length = 0 := by
    rw [position]
    split <;> rfl
  obtain ⟨heq, s₂, t₂, hs₂, ht₂, h₂⟩ := read_alike hs₁ ht₁ h₁ (by simp)
  rw [hlast, hfirst] at heq
  rw [hlast] at hs₂
  rw [hfirst] at ht₂
  refine ⟨?_, s₂, t₂, hs₂, ht₂, h₂⟩
  rw [List.getElem?_append_left hpos] at heq
  rw [← heq]
  simp

theorem position_of_lt {n : Nat} (h : k < n) : position k n = k := if_neg (Nat.ne_of_lt h)

/-- **Cursors one string apart** are told apart by the first string that is not empty. -/
theorem empties_of_shifted (h0 : l[0]? = some []) (hs : Holds s l l.length) (ht : Holds t l 1)
    (h : Alike Call.perform s t) : ∀ i, i < l.length → l[i]? = some [] ∧
      ∃ k s t, position k l.length = i ∧ Holds s l k ∧ Holds t l (i + 1) ∧
        Alike Call.perform s t := by
  intro i
  induction i with
  | zero =>
    intro _
    exact ⟨h0, l.length, s, t, if_pos rfl, hs, ht, h⟩
  | succ i ih =>
    intro hi
    obtain ⟨hget, k, s₁, t₁, hk, hs₁, ht₁, h₁⟩ := ih (by omega)
    obtain ⟨heq, s₂, t₂, hs₂, ht₂, h₂⟩ := read_alike hs₁ ht₁ h₁ (by rintro rfl; simp at hi)
    rw [hk, position_of_lt hi, hget] at heq
    rw [hk] at hs₂
    rw [position_of_lt hi] at ht₂
    exact ⟨heq.symm, i + 1, s₂, t₂, position_of_lt hi, hs₂, ht₂, h₂⟩

/-- Strings without a NUL inside take only NULs exactly when they are empty. -/
theorem zstrings_eq_zero_iff (hnul : ∀ str ∈ l, (0 : UInt8) ∉ str) :
    (∀ c ∈ zstrings l, c = 0) ↔ ∀ str ∈ l, str = [] := by
  constructor
  · intro h str hstr
    refine List.eq_nil_iff_forall_not_mem.mpr fun c hc => ?_
    have hmem : c ∈ zstrings l := List.mem_flatMap.mpr ⟨str, hstr, List.mem_append_left _ hc⟩
    exact hnul str hstr (h c hmem ▸ hc)
  · intro h c hc
    obtain ⟨str, hstr, hc⟩ := List.mem_flatMap.mp hc
    rw [h str hstr] at hc
    exact List.mem_singleton.mp hc

/-! ## 4. The failed call -/

/-- A call that fails is a write that keeps the strings and the cursor, or a read that moves a
cursor behind the last string to the first. -/
theorem Holds.fails (h : Holds s l k) (hf : Fails s c s') :
    (∃ buf, c = .write buf ∧ Holds s' l k) ∨
      (∃ fPos ok, c = .read fPos ok ∧ l ≠ [] ∧ Holds s' l (position k l.length)) := by
  obtain ⟨o, hc, hneg⟩ := hf
  cases c with
  | write buf =>
    left
    refine ⟨buf, rfl, ?_⟩
    simp only [Call.perform] at hc
    obtain hnot | ⟨ret, m, hm, hout⟩ := write_outcome l buf
    · rw [fortuneWrite_overrun h.indInv (hnot s k h)] at hc
      exact absurd hc (by simp [Except.map])
    · obtain ⟨s₁, hw, hs₁⟩ := hout s k h
      rw [hw] at hc
      obtain ⟨rfl, rfl⟩ := Prod.mk.inj (Except.ok.inj hc)
      rw [hm hneg, List.append_nil] at hs₁
      exact hs₁
  | read fPos ok =>
    right
    obtain ⟨-, hr⟩ | ⟨hend, str, s₁, -, hr, hs₁⟩ := h.read_outcome fPos ok
    · simp only [Call.perform, hr] at hc
      obtain ⟨rfl, -⟩ := Prod.mk.inj (Except.ok.inj hc)
      exact absurd hneg (by simp [Outcome.ret])
    · simp only [Call.perform, hr] at hc
      obtain ⟨rfl, rfl⟩ := Prod.mk.inj (Except.ok.inj hc)
      have hok : ok = false := by
        cases ok with
        | false => rfl
        | true =>
          simp only [Outcome.ret, readReply] at hneg
          simp at hneg
          omega
      rw [if_pos hok, Nat.add_zero] at hs₁
      exact ⟨fPos, ok, rfl, fun hnil => hend (Or.inr hnil), hs₁⟩

/-- The cursor stands behind the last string when `readInd` is `writeInd`. -/
theorem Holds.readInd_lt_iff (h : Holds s l k) : s.readInd < s.writeInd ↔ k ≠ l.length := by
  have hw := h.writeInd
  have hr := h.readInd
  constructor
  · rintro hlt rfl
    rw [List.take_length] at hr
    omega
  · intro hne
    have hlt : k < l.length := Nat.lt_of_le_of_ne h.le hne
    have hmore := length_zstrings_take_succ (List.getElem?_eq_getElem hlt)
    have hle := length_zstrings_take_le l (k + 1)
    omega

/-- The bytes below the last byte of the page, when the strings end there. -/
theorem Holds.take_eq (h : Holds s l k) (hone : s.writeInd = PAGE_SIZE - 1) :
    s.cookiePot.bytes.take (PAGE_SIZE - 1) = zstrings l := by
  obtain ⟨rest, hb⟩ := h.pot
  have hw := h.writeInd
  have hpage : PAGE_SIZE = 4096 := rfl
  rw [hb, show PAGE_SIZE - 1 = (zstrings l).length by omega, List.take_left]

/-- A cursor behind the last string and one on the first are told apart by nothing exactly when
there is no room for a string that tells. -/
theorem alike_first_iff (hs : Holds s l l.length) (ht : Holds t l 0) (hne : l ≠ []) :
    Alike Call.perform s t ↔ (zstrings l).length = PAGE_SIZE ∨
      ((zstrings l).length + 1 = PAGE_SIZE ∧ ∀ str ∈ l, str = []) := by
  have hpos : position l.length l.length = position 0 l.length := by
    rw [position, if_pos rfl, position]
    split <;> rfl
  constructor
  · intro h
    have hle := length_zstrings_append_le hs
    by_cases hfull : (zstrings l).length = PAGE_SIZE
    · exact Or.inl hfull
    right
    obtain ⟨hfirst, s₁, t₁, hs₁, ht₁, h₁⟩ := written_eq_first hs ht h hne []
      List.not_mem_nil (by rw [List.length_nil]; omega)
    have hone : (zstrings l).length + 1 = PAGE_SIZE := by
      -- with room for two bytes a string of one byte is the first string, which is empty
      by_contra hmore
      obtain ⟨hfirst', -⟩ := written_eq_first hs ht h hne [1] (by decide)
        (by rw [List.length_singleton]; omega)
      exact absurd (hfirst.symm.trans hfirst') (by simp)
    refine ⟨hone, fun str hstr => ?_⟩
    have hlen : (l ++ [([] : List UInt8)]).length = l.length + 1 := by simp
    obtain ⟨i, hi, hget⟩ := List.getElem_of_mem (List.mem_append_left [([] : List UInt8)] hstr)
    have hfirst' : (l ++ [[]])[0]? = some [] := by
      rw [List.getElem?_append_left (List.length_pos_of_ne_nil hne)]
      exact hfirst
    have hnil := (empties_of_shifted hfirst' (by rw [hlen]; exact hs₁) ht₁ h₁ i hi).1
    rw [List.getElem?_eq_getElem hi, hget] at hnil
    exact Option.some.inj hnil
  · rintro (hfull | ⟨hone, hnil⟩)
    · exact Twins.alike ⟨l, _, _, hs, ht, .full hfull hpos⟩
    · exact Twins.alike ⟨l, _, _, hs, ht, .oneLeft hone hnil hpos⟩

/-- **A failed call leaves no trace exactly when** it is not a read that moves the cursor, or
the page has no room left for a string that tells. -/
theorem alike_iff_unseen (h : Holds s l k) (hf : Fails s c s') :
    Alike Call.perform s s' ↔ Unseen s c := by
  have hw := h.writeInd
  have hpage : PAGE_SIZE = 4096 := rfl
  obtain ⟨buf, rfl, h'⟩ | ⟨fPos, ok, rfl, hne, h'⟩ := h.fails hf
  · exact iff_of_true (Twins.alike ⟨l, k, k, h, h', .same k⟩) trivial
  by_cases hk : k = l.length
  · have hlast : ¬ s.readInd < s.writeInd := fun hlt => h.readInd_lt_iff.mp hlt hk
    subst hk
    rw [position, if_pos rfl] at h'
    rw [alike_first_iff h h' hne, Unseen]
    constructor
    · rintro (hfull | ⟨hone, hnil⟩)
      · exact Or.inr (Or.inl (by omega))
      · refine Or.inr (Or.inr ⟨by omega, ?_⟩)
        rw [h.take_eq (by omega)]
        exact (zstrings_eq_zero_iff h.noNul).mpr hnil
    · rintro (hlt | hfull | ⟨hone, hzero⟩)
      · exact absurd hlt hlast
      · exact Or.inl (by omega)
      · rw [h.take_eq hone] at hzero
        exact Or.inr ⟨by omega, (zstrings_eq_zero_iff h.noNul).mp hzero⟩
  · rw [position, if_neg hk] at h'
    exact iff_of_true (Twins.alike ⟨l, k, k, h, h', .same k⟩) (Or.inl (h.readInd_lt_iff.mpr hk))

/-- The module after the string "a" has been written and read, and after a read that faults
then. -/
theorem reachable_readBack : ∃ s s', module.Reachable (.ok s) ∧ Fails s (.read 0 false) s' ∧
    Holds s [[97]] 1 ∧ Holds s' [[97]] 0 := by
  have hm : (UserCopy.of [97, 10]).bytes.dropLast ++ [0] = zstrings [[97]] := by decide
  obtain ⟨s₁, hw, hs₁⟩ := holds_init.write_accepted
    (show (UserCopy.of [97, 10]).ok = true from rfl) (by decide) (by decide) hm (by decide)
  have hidle : ¬ ((0 : Int) > 0 ∨ ([] ++ [[97]] : List (List UInt8)) = []) := by simp
  obtain ⟨hend, -⟩ | ⟨-, str, s₂, -, hr, hs₂⟩ := hs₁.read_outcome 0 true
  · exact absurd hend hidle
  obtain ⟨hend, -⟩ | ⟨-, str', s₃, hget, hr', hs₃⟩ := hs₂.read_outcome 0 false
  · exact absurd hend hidle
  refine ⟨s₂, s₃, ⟨[.write (.of [97, 10]), .read 0 true], ?_⟩,
    ⟨.read (readReply str' 0 false), ?_, ?_⟩, hs₂, hs₃⟩
  · have hstep₁ : module.step module.init (.write (.of [97, 10])) = some (.ok s₁) := by
      simp [module, Pot.call, hw, Except.map]
    have hstep₂ : module.step (.ok s₁) (.read 0 true) = some (.ok s₂) := by
      simp [module, Pot.call, hr, Except.map]
    rw [Machine.run_cons, hstep₁]
    exact Machine.run_cons_eq_some.mpr ⟨_, hstep₂, rfl⟩
  · simp only [Call.perform, hr']
    rfl
  · show (-EFAULT : Int) < 0
    decide

/-- **A failed read is seen**: with "a" read, the string "b" written next is what the next read
returns; after a read that faults that is "a" again. -/
theorem failed_read_seen : ¬ ∀ s c s', module.Reachable (.ok s) → Fails s c s' →
    ∀ cs, answers Call.perform s' cs = answers Call.perform s cs := by
  intro h
  obtain ⟨s, s', hs, hf, hl, hl'⟩ := reachable_readBack
  have halike : Alike Call.perform s s' := Alike.symm (h s _ s' hs hf)
  obtain ⟨hfirst, -⟩ := written_eq_first hl hl' halike (by simp) [98] (by decide)
    (by decide)
  exact absurd hfirst (by decide)

/-- **Failed calls of fortune.**  From every reachable state, the answers to all later sequences
of calls are those without the failed call exactly when it is not a read with the cursor behind
the last string, or nothing that tells can be written any more. -/
theorem failed_call_invisible_iff (h : module.Reachable (.ok s)) (hf : Fails s c s') :
    (∀ cs, answers Call.perform s' cs = answers Call.perform s cs) ↔ Unseen s c := by
  obtain ⟨l, k, hl⟩ := reachable_strings h
  rw [← alike_iff_unseen hl hf]
  exact ⟨fun h' => Alike.symm h', fun h' => Alike.symm h'⟩

/-- A read that faults behind the only string of the pot. -/
theorem failed_call_invisible_iff_readBack : ∃ s s', module.Reachable (.ok s) ∧
    Fails s (.read 0 false) s' ∧
    ((∀ cs, answers Call.perform s' cs = answers Call.perform s cs) ↔
      Unseen s (.read 0 false)) := by
  obtain ⟨s, s', hs, hf, -, -⟩ := reachable_readBack
  exact ⟨s, s', hs, hf, failed_call_invisible_iff hs hf⟩

end OsLabs.Fortune
