/-
# fortune: successive reads of one open file

`fortuneRead` does not look at the size of the user's buffer: the first `read` of an open file
copies a whole fortune and its newline, and every later one returns 0, as `*fPos` is no longer 0.
So the reads return one fortune, cut nowhere, exactly when the first buffer holds it
(`reads_iff`) and `tmpBuf` has room for its newline.

`copy_to_user` may fail when it goes beyond the user's buffer, and does not fail otherwise.
-/
import OsLabs.ProcFiles.Strings

namespace OsLabs.Fortune

open Kernel

/-! ## 1. Reads of one open file -/

/-- A call of `read`: the size of the user's buffer, and whether `copy_to_user` returns 0. -/
structure ReadCall where
  len : Nat
  ok : Bool
deriving DecidableEq, Repr

/-- The calls in order, from `*fPos` on: what each returns, and the module afterwards. -/
def reads (s : Pot) (fPos : Int) : List ReadCall → Result (List Reply × Pot)
  | [] => .ok ([], s)
  | c :: cs => do
    let (r, s') ← fortuneRead s fPos c.ok
    let (rs, t) ← reads s' r.fPos cs
    return (r :: rs, t)

/-- The string where the next read starts. -/
def Pot.fortune (s : Pot) : List UInt8 :=
  (s.cookiePot.bytes.drop s.start.toNat).takeWhile (· ≠ 0)

/-- `str` is one of the strings below `writeInd`. -/
def Stored (s : Pot) (str : List UInt8) : Prop :=
  ∃ l, s.cookiePot.bytes.take s.writeInd.toNat = zstrings l ∧ (∀ t ∈ l, (0 : UInt8) ∉ t) ∧ str ∈ l

/-- A copy that stays inside the user's buffer does not fail. -/
def CopyInside (s : Pot) (calls : List ReadCall) : Prop :=
  ∀ c ∈ calls, s.fortune.length + 1 ≤ c.len → c.ok = true

/-- The calls return `str` and a newline, piece by piece: each at most what its buffer holds, and
all that is returned until one returns 0 is the string and the newline. -/
structure ReadsFortune (str : List UInt8) (calls : List ReadCall) (replies : List Reply) :
    Prop where
  inside : List.Forall₂ (fun c r => 0 ≤ r.ret ∧ r.ret ≤ c.len ∧ r.data.length ≤ c.len) calls replies
  whole : ∀ pre r post, replies = pre ++ r :: post → (∀ x ∈ pre, x.ret ≠ 0) → r.ret = 0 →
    pre.flatMap Reply.data = str ++ [newline]

variable {s : Pot}

/-! ## 2. What the calls return -/

theorem fortune_of_cstring {str : List UInt8} (h : s.cookiePot.cstring s.start = .ok str) :
    s.fortune = str := by
  unfold Buffer.cstring at h
  split at h
  · exact Except.ok.inj h
  · exact absurd h (by simp)

/-- **What the next read takes is one of the stored strings.** -/
theorem Holds.stored_fortune {l : List (List UInt8)} {k : Nat} (h : Holds s l k)
    (hw : s.writeInd ≠ 0) : Stored s s.fortune := by
  obtain ⟨str, hget, -, hstr⟩ := h.start_string hw
  obtain ⟨rest, hb⟩ := h.pot
  refine ⟨l, ?_, h.noNul, ?_⟩
  · rw [h.writeInd, Int.toNat_natCast, hb, List.take_left]
  · rw [fortune_of_cstring hstr]
    exact List.mem_of_getElem? hget

theorem reads_cons {fPos : Int} {c : ReadCall} {cs : List ReadCall} {r : Reply} {s' t : Pot}
    {rs : List Reply} (h : fortuneRead s fPos c.ok = .ok (r, s'))
    (hrest : reads s' r.fPos cs = .ok (rs, t)) : reads s fPos (c :: cs) = .ok (r :: rs, t) := by
  simp [reads, h, hrest, bind, Except.bind, pure, Except.pure]

/-- The first of some calls that all return. -/
theorem reads_head {fPos : Int} {c : ReadCall} {cs : List ReadCall} {r : Reply} {s' t : Pot}
    {replies : List Reply} (h : fortuneRead s fPos c.ok = .ok (r, s'))
    (hall : reads s fPos (c :: cs) = .ok (replies, t)) : ∃ rs, replies = r :: rs := by
  cases hrest : reads s' r.fPos cs with
  | error e => simp [reads, h, hrest, bind, Except.bind] at hall
  | ok out =>
    obtain ⟨rfl, -⟩ := Prod.mk.inj (Except.ok.inj (hall.symm.trans (reads_cons h hrest)))
    exact ⟨out.1, rfl⟩

/-- The answer of a call at the end of the file. -/
def atEnd (fPos : Int) : Reply := ⟨0, [], fPos⟩

/-- The answer of a call that takes the fortune `str`. -/
def taken (str : List UInt8) : Reply := ⟨str.length + 1, printed str, str.length + 1⟩

/-- **Behind the first answer there is nothing more.** -/
theorem reads_end {fPos : Int} (hpos : fPos > 0) (calls : List ReadCall) :
    reads s fPos calls = .ok (calls.map fun _ => atEnd fPos, s) := by
  induction calls with
  | nil => rfl
  | cons c calls ih =>
    have hread : fortuneRead s fPos c.ok = .ok (atEnd fPos, s) := if_pos (.inl hpos)
    exact reads_cons hread ih

theorem inside_end {fPos : Int} (calls : List ReadCall) :
    List.Forall₂ (fun (c : ReadCall) (r : Reply) =>
      0 ≤ r.ret ∧ r.ret ≤ c.len ∧ r.data.length ≤ c.len) calls
      (calls.map fun _ => atEnd fPos) := by
  induction calls with
  | nil => exact .nil
  | cons c calls ih => exact .cons ⟨Int.le_refl 0, Int.natCast_nonneg _, Nat.zero_le _⟩ ih

/-- **The first call** takes the whole fortune, or fails. -/
theorem IndInv.first_read (h : IndInv s) (hw : s.writeInd ≠ 0) (ok : Bool) :
    ∃ s', fortuneRead s 0 ok =
      .ok (if ok = false then (⟨-EFAULT, [], 0⟩, s') else (taken s.fortune, s')) := by
  obtain ⟨hend, -⟩ | ⟨-, str, tmpBuf, hstr, -, hr⟩ := fortuneRead_cases h 0 ok
  · exact absurd hend (by simp [hw])
  · rw [fortune_of_cstring hstr]
    cases ok with
    | false => exact ⟨_, hr⟩
    | true =>
      have htaken : (⟨(str ++ [newline]).length, printed str, 0 + (str ++ [newline]).length⟩ :
          Reply) = taken str := by simp [taken]
      rw [htaken] at hr
      exact ⟨_, hr⟩

/-- The answers to the calls when the first one took the fortune: then one returns 0. -/
theorem whole_iff (str : List UInt8) (rest : List Reply) :
    (∀ pre r post, taken str :: atEnd (str.length + 1) :: rest = pre ++ r :: post →
      (∀ x ∈ pre, x.ret ≠ 0) → r.ret = 0 → pre.flatMap Reply.data = str ++ [newline]) ↔
      str.length + 2 ≤ PAGE_SIZE := by
  constructor
  · intro h
    have hwhole := h [taken str] (atEnd (str.length + 1)) rest rfl (by simp [taken]; omega) rfl
    by_contra hlong
    have hbyte : (0 : UInt8) = newline := by
      simpa [taken, printed, show ¬ str.length + 1 < PAGE_SIZE by omega] using hwhole
    exact absurd hbyte (by decide)
  · intro hpage pre r post hsplit hpre hr
    have hprinted : printed str = str ++ [newline] := by rw [printed, if_pos (by omega)]
    rcases pre with _ | ⟨x, _ | ⟨y, pre⟩⟩
    · -- the first answer is not 0
      obtain ⟨rfl, -⟩ := List.cons.inj hsplit
      simp only [taken] at hr
      omega
    · obtain ⟨rfl, -⟩ := List.cons.inj hsplit
      simpa [taken] using hprinted
    · -- and the second one is
      obtain ⟨-, htail⟩ := List.cons.inj hsplit
      obtain ⟨rfl, -⟩ := List.cons.inj htail
      exact absurd rfl (hpre (atEnd (str.length + 1)) (by simp))

/-- **The calls return one fortune exactly when the first buffer holds it and its newline**, and
`tmpBuf` does too, with its NUL. -/
theorem IndInv.reads_iff (h : IndInv s) (hw : s.writeInd ≠ 0) {c d : ReadCall}
    {rest : List ReadCall} (hcopy : CopyInside s (c :: d :: rest)) :
    (∃ replies t, reads s 0 (c :: d :: rest) = .ok (replies, t) ∧
        ReadsFortune s.fortune (c :: d :: rest) replies) ↔
      s.fortune.length + 1 ≤ c.len ∧ s.fortune.length + 2 ≤ PAGE_SIZE := by
  obtain ⟨s', hfirst⟩ := h.first_read hw c.ok
  -- the answers when the first call does not fail
  have hall : c.ok = true → reads s 0 (c :: d :: rest) =
      .ok (taken s.fortune :: (d :: rest).map fun _ => atEnd (s.fortune.length + 1), s') := by
    intro hok
    rw [if_neg (by simp [hok])] at hfirst
    exact reads_cons hfirst (reads_end (by simp only [taken]; omega) (d :: rest))
  constructor
  · rintro ⟨replies, t, hreads, hinside, hwhole⟩
    have hok : c.ok = true := by
      -- a call that fails returns a negative value
      by_contra hno
      rw [if_pos (by simpa using hno)] at hfirst
      obtain ⟨rs, rfl⟩ := reads_head hfirst hreads
      have hneg := (List.forall₂_cons.mp hinside).1.1
      exact absurd hneg (by decide)
    obtain ⟨rfl, -⟩ := Prod.mk.inj (Except.ok.inj (hreads.symm.trans (hall hok)))
    refine ⟨?_, (whole_iff s.fortune _).mp hwhole⟩
    have hle := (List.forall₂_cons.mp hinside).1.2.1
    simp only [taken] at hle
    omega
  · rintro ⟨hlen, hpage⟩
    refine ⟨_, s', hall (hcopy c List.mem_cons_self hlen), .cons ⟨?_, ?_, ?_⟩ (inside_end _),
      (whole_iff s.fortune _).mpr hpage⟩
    · simp only [taken]
      omega
    · simp only [taken]
      omega
    · simpa [taken, printed] using hlen

/-! ## 3. Every reachable state -/

theorem reachable_holds (h : module.Reachable (.ok s)) : ∃ l k, Holds s l k :=
  reachable_strings h

/-- The module after one write of a string without NULs. -/
theorem reachable_written (bytes : List UInt8) (hpos : 1 ≤ bytes.length)
    (hle : bytes.length ≤ PAGE_SIZE) (hnul : (0 : UInt8) ∉ bytes.dropLast) :
    ∃ s, module.Reachable (.ok s) ∧ s.writeInd ≠ 0 ∧ s.fortune = bytes.dropLast := by
  have hlen : (UserCopy.of bytes).len = bytes.length := rfl
  have hinit : Pot.init.writeInd = 0 := rfl
  have hfit : WriteFits Pot.init (.of bytes) := by
    constructor
    · rw [hinit, hlen]
      omega
    · intro h0
      rw [hlen] at h0
      omega
  obtain ⟨hgt, -⟩ | ⟨-, pot, hst, ⟨hok, -⟩ | ⟨-, pot', hst', hw⟩⟩ :=
    fortuneWrite_cases indInv_init hfit
  · rw [hinit, hlen] at hgt
    omega
  · exact absurd hok (by simp [UserCopy.of])
  have hholds := holds_init.append hpos hst hst' (m := [bytes.dropLast])
    (zstrings_singleton _).symm (by simpa using hnul)
  have hne : Pot.init.writeInd + bytes.length ≠ 0 := by omega
  refine ⟨{ Pot.init with cookiePot := pot', writeInd := Pot.init.writeInd + bytes.length },
    ⟨[.write (.of bytes)], ?_⟩, hne, ?_⟩
  · rw [Machine.run_cons]
    have hstep : module.step module.init (.write (.of bytes)) =
        some ((fortuneWrite Pot.init (.of bytes)).map Prod.snd) := rfl
    rw [hstep, hw]
    rfl
  · obtain ⟨str, hget, -, hstr⟩ := hholds.start_string hne
    obtain rfl : bytes.dropLast = str := by simpa [position] using hget
    exact fortune_of_cstring hstr

/-- **A buffer of one byte** is sent a fortune of two and its newline. -/
theorem short_buffer_overrun : ¬ ∀ s, module.Reachable (.ok s) → s.writeInd ≠ 0 →
    ∀ calls : List ReadCall, 2 ≤ calls.length → (∀ c ∈ calls, 1 ≤ c.len) → CopyInside s calls →
      ∃ str replies t, Stored s str ∧ reads s 0 calls = .ok (replies, t) ∧
        ReadsFortune str calls replies := by
  intro h
  obtain ⟨s, hs, hw, hfortune⟩ := reachable_written [97, 98, 10] (by decide) (by decide) (by decide)
  obtain ⟨str, replies, t, -, hreads, hread⟩ := h s hs hw [⟨1, true⟩, ⟨1, true⟩] (by decide)
    (by decide) (by simp [CopyInside])
  obtain ⟨l, k, hl⟩ := reachable_holds hs
  obtain ⟨s', hfirst⟩ := hl.indInv.first_read hw true
  obtain ⟨rs, rfl⟩ := reads_head (c := ⟨1, true⟩) hfirst hreads
  have hle := (List.forall₂_cons.mp hread.inside).1.2.1
  simp [taken, hfortune] at hle

/-- In every reachable state with a string in the pot, for every list of at least two read calls
of one open file: what the next read takes is a stored string, and each call returns at most
what its buffer holds and all of them the string and a newline exactly when the first buffer
holds both and they are shorter than a page. -/
theorem reads_fortune_iff (h : module.Reachable (.ok s)) (hw : s.writeInd ≠ 0) {c d : ReadCall}
    {rest : List ReadCall} (hcopy : CopyInside s (c :: d :: rest)) :
    Stored s s.fortune ∧
      ((∃ replies t, reads s 0 (c :: d :: rest) = .ok (replies, t) ∧
          ReadsFortune s.fortune (c :: d :: rest) replies) ↔
        s.fortune.length + 1 ≤ c.len ∧ s.fortune.length + 2 ≤ PAGE_SIZE) := by
  obtain ⟨l, k, hl⟩ := reachable_holds h
  exact ⟨hl.stored_fortune hw, hl.indInv.reads_iff hw hcopy⟩

/-- A fortune of two bytes, and buffers of 10 and of 1. -/
theorem reads_fortune_iff_two : ∃ s, module.Reachable (.ok s) ∧ s.writeInd ≠ 0 ∧
    CopyInside s [⟨10, true⟩, ⟨1, true⟩] ∧ Stored s s.fortune ∧
    ((∃ replies t, reads s 0 [⟨10, true⟩, ⟨1, true⟩] = .ok (replies, t) ∧
        ReadsFortune s.fortune [⟨10, true⟩, ⟨1, true⟩] replies) ↔
      s.fortune.length + 1 ≤ 10 ∧ s.fortune.length + 2 ≤ PAGE_SIZE) := by
  obtain ⟨s, hs, hw, -⟩ := reachable_written [97, 98, 10] (by decide) (by decide) (by decide)
  have hcopy : CopyInside s [⟨10, true⟩, ⟨1, true⟩] := by simp [CopyInside]
  exact ⟨s, hs, hw, hcopy, reads_fortune_iff hs hw hcopy⟩

end OsLabs.Fortune
