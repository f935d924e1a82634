/-
# fortune: a pot of strings in one page

`6/fortunka/fortune.c` keeps the fortunes written to `/proc/fortuneDir/fortuneFile` in
`cookiePot`, one after the other, each closed by a NUL that replaces its last byte, and reads
them back through `tmpBuf` in a cycle.  `writeInd` and `readInd` are the offsets of the next
write and the next read.

Every access is checked against the page; one outside is an error that names the buffer and the
first index outside, and ends the run.  `int` does not overflow before that happens.
-/
import OsLabs.ProcFiles.User
import OsLabs.Lib.Machine

namespace OsLabs.Fortune

open Kernel

/-- The buffers of the module, to name an access outside one of them. -/
inductive Arr
  | cookiePot | tmpBuf
deriving DecidableEq, Repr

abbrev Result (α : Type) : Type := Except (Arr × Int) α

/-- The globals of the module. -/
structure Pot where
  cookiePot : Buffer PAGE_SIZE
  tmpBuf : Buffer PAGE_SIZE
  readInd : Int
  writeInd : Int

/-- The module as `md_init` leaves it. -/
def Pot.init : Pot where
  cookiePot := Buffer.zero PAGE_SIZE
  tmpBuf := Buffer.zero PAGE_SIZE
  readInd := 0
  writeInd := 0

/-- `fortuneWrite`: the value it returns and the module afterwards. -/
def fortuneWrite (s : Pot) (buf : UserCopy) : Result (Int × Pot) :=
  if buf.len > room s.writeInd then .ok (-ENOSPC, s)
  else
    match s.cookiePot.store s.writeInd buf.bytes with
    | .error i => .error (.cookiePot, i)
    | .ok pot =>
      if buf.ok = false then .ok (-EFAULT, { s with cookiePot := pot })
      else
        let writeInd := s.writeInd + buf.len
        match pot.store (writeInd - 1) [0] with
        | .error i => .error (.cookiePot, i)
        | .ok pot => .ok (buf.len, { s with cookiePot := pot, writeInd := writeInd })

/-- What a read hands back: the value it returns, the bytes it copied to the user and `*fPos`. -/
structure Reply where
  ret : Int
  data : List UInt8
  fPos : Int
deriving DecidableEq, Repr

/-- The code of '\n'. -/
def newline : UInt8 := 10

/-- `fortuneRead`; `ok` says whether `copy_to_user` returns 0.  The size `len` of the user's
buffer is a parameter that the function does not look at. -/
def fortuneRead (s : Pot) (fPos : Int) (ok : Bool) : Result (Reply × Pot) :=
  if fPos > 0 ∨ s.writeInd = 0 then .ok (⟨0, [], fPos⟩, s)
  else
    let readInd := if s.readInd ≥ s.writeInd then 0 else s.readInd
    match s.cookiePot.cstring readInd with
    | .error i => .error (.cookiePot, i)
    | .ok str =>
      let (out, readLen) := snprintf PAGE_SIZE (str ++ [newline])
      match s.tmpBuf.store 0 out with
      | .error i => .error (.tmpBuf, i)
      | .ok tmpBuf =>
        match tmpBuf.load 0 readLen with
        | .error i => .error (.tmpBuf, i)
        | .ok data =>
          if ok = false then
            .ok (⟨-EFAULT, [], fPos⟩, { s with tmpBuf := tmpBuf, readInd := readInd })
          else
            .ok (⟨readLen, data, fPos + readLen⟩,
              { s with tmpBuf := tmpBuf, readInd := readInd + readLen })

/-- A call of one of the two operations. -/
inductive Call
  | write (buf : UserCopy)
  | read (fPos : Int) (ok : Bool)

/-- The module after a call. -/
def Pot.call (s : Pot) : Call → Result Pot
  | .write buf => (fortuneWrite s buf).map Prod.snd
  | .read fPos ok => (fortuneRead s fPos ok).map Prod.snd

/-- The module from its loading on; an access outside a buffer is the end of the run. -/
def module : Machine (Result Pot) Call where
  init := .ok Pot.init
  step
    | .ok s, c => some (s.call c)
    | .error _, _ => none

/-! ## 1. The indices -/

/-- `readInd` and `writeInd` are in order, and the byte below `writeInd` is a NUL. -/
structure IndInv (s : Pot) : Prop where
  readInd_nonneg : 0 ≤ s.readInd
  read_le_write : s.readInd ≤ s.writeInd
  writeInd_le : s.writeInd ≤ PAGE_SIZE
  nul : 0 < s.writeInd → s.cookiePot.bytes[(s.writeInd - 1).toNat]? = some 0

/-- The write neither takes one byte more than there is left, nor is it an empty write into an
empty pot. -/
def WriteFits (s : Pot) (buf : UserCopy) : Prop :=
  (buf.len : Int) ≠ PAGE_SIZE - s.writeInd + 1 ∧ (buf.len = 0 → s.writeInd ≠ 0)

variable {s s' : Pot} {buf : UserCopy} {fPos : Int} {ok : Bool}

theorem indInv_init : IndInv Pot.init :=
  ⟨Int.le_refl 0, Int.le_refl 0, by decide, fun h => absurd h (Int.lt_irrefl 0)⟩

/-- **What a write does that stays inside the page**: it is refused, it faults and changes only
bytes from `writeInd` on, or it appends its bytes and closes them with a NUL. -/
theorem fortuneWrite_cases (h : IndInv s) (hfit : WriteFits s buf) :
    ((PAGE_SIZE : Int) < s.writeInd + buf.len ∧ fortuneWrite s buf = .ok (-ENOSPC, s)) ∨
      (s.writeInd + buf.len ≤ PAGE_SIZE ∧ ∃ pot, s.cookiePot.store s.writeInd buf.bytes = .ok pot ∧
        ((buf.ok = false ∧ fortuneWrite s buf = .ok (-EFAULT, { s with cookiePot := pot })) ∨
          (buf.ok = true ∧ ∃ pot', pot.store (s.writeInd + buf.len - 1) [0] = .ok pot' ∧
            fortuneWrite s buf = .ok ((buf.len : Int),
              { s with cookiePot := pot', writeInd := s.writeInd + buf.len })))) := by
  have hw : 0 ≤ s.writeInd := Int.le_trans h.readInd_nonneg h.read_le_write
  have hroom := room_eq hw h.writeInd_le
  obtain ⟨hne, hzero⟩ := hfit
  by_cases hlt : (PAGE_SIZE : Int) < s.writeInd + buf.len
  · left
    refine ⟨hlt, ?_⟩
    rw [fortuneWrite, if_pos (by omega)]
  · right
    have hle : s.writeInd + buf.len ≤ PAGE_SIZE := Int.not_lt.mp hlt
    obtain ⟨pot, hst, -⟩ := Buffer.store_eq_ok s.cookiePot s.writeInd buf.bytes hw hle
    refine ⟨hle, pot, hst, ?_⟩
    cases hok : buf.ok with
    | false =>
      left
      refine ⟨rfl, ?_⟩
      rw [fortuneWrite, if_neg (by omega), hst]
      simp [hok]
    | true =>
      right
      have hpos : 0 ≤ s.writeInd + buf.len - 1 := by
        rcases Nat.eq_zero_or_pos buf.len with h0 | hpos
        · have := hzero h0
          omega
        · omega
      obtain ⟨pot', hst', -⟩ := Buffer.store_eq_ok pot (s.writeInd + buf.len - 1) [0] hpos
        (by rw [List.length_singleton]; omega)
      refine ⟨rfl, pot', hst', ?_⟩
      rw [fortuneWrite, if_neg (by omega), hst]
      simp [hok, hst']

/-- **A write that does not fit** goes outside the page, and where it does depends only on its
size. -/
theorem fortuneWrite_overrun (h : IndInv s) (hfit : ¬ WriteFits s buf) :
    fortuneWrite s buf = .error (.cookiePot, if buf.len = 0 then -1 else (PAGE_SIZE : Int)) := by
  have hw : 0 ≤ s.writeInd := Int.le_trans h.readInd_nonneg h.read_le_write
  have hw' := h.writeInd_le
  have hroom := room_eq hw hw'
  rcases not_and_or.mp hfit with hlen | hempty
  · -- one byte too many passes the test, and the copy ends behind the page
    rw [not_not] at hlen
    have hst := Buffer.store_eq_error s.cookiePot s.writeInd buf.bytes
      (fun hin => by have hle : s.writeInd + buf.len ≤ PAGE_SIZE := hin.2; omega)
    have hout : Buffer.outside PAGE_SIZE s.writeInd = PAGE_SIZE := by
      rw [Buffer.outside, if_neg (by omega), Int.max_eq_right hw']
    rw [fortuneWrite, if_neg (by omega), hst, if_neg (by omega), hout]
  · -- nothing is copied, and the NUL goes below the page
    obtain ⟨h0, hw0⟩ := Classical.not_imp.mp hempty
    rw [not_not] at hw0
    obtain ⟨pot, hst, -⟩ := Buffer.store_eq_ok s.cookiePot s.writeInd buf.bytes hw
      (by have hlen : buf.bytes.length = 0 := h0; omega)
    have hst' := Buffer.store_eq_error pot (s.writeInd + buf.len - 1) [0]
      (fun hin => by omega)
    have hout : Buffer.outside PAGE_SIZE (s.writeInd + buf.len - 1) = -1 := by
      rw [hw0, h0]
      rfl
    rw [fortuneWrite, if_neg (by omega), hst, if_pos h0]
    simp [UserCopy.ok_of_len h0, hst', hout]

theorem fortuneWrite_error (h : IndInv s) (hfit : ¬ WriteFits s buf) :
    ∃ i, fortuneWrite s buf = .error (.cookiePot, i) :=
  ⟨_, fortuneWrite_overrun h hfit⟩

/-- Where the next read starts. -/
def Pot.start (s : Pot) : Int := if s.readInd ≥ s.writeInd then 0 else s.readInd

theorem IndInv.start_lt (h : IndInv s) (hw : s.writeInd ≠ 0) :
    0 ≤ s.start ∧ s.start < s.writeInd := by
  have h1 := h.readInd_nonneg
  have h2 := h.read_le_write
  unfold Pot.start
  split <;> omega

/-- What a read copies to the user: the string and a newline, or, when `snprintf` has no room for
the newline, the NUL that stands in its place. -/
def printed (str : List UInt8) : List UInt8 :=
  str ++ [if str.length + 1 < PAGE_SIZE then newline else 0]

/-- **What a read does**: nothing at the end of the file or on an empty pot; else it prints the
string at `start`, which ends below `writeInd`, into `tmpBuf` and copies it from there. -/
theorem fortuneRead_cases (h : IndInv s) (fPos : Int) (ok : Bool) :
    ((fPos > 0 ∨ s.writeInd = 0) ∧ fortuneRead s fPos ok = .ok (⟨0, [], fPos⟩, s)) ∨
      (¬ (fPos > 0 ∨ s.writeInd = 0) ∧ ∃ str tmpBuf,
        s.cookiePot.cstring s.start = .ok str ∧ s.start + str.length + 1 ≤ s.writeInd ∧
        fortuneRead s fPos ok = .ok (
          if ok = false then (⟨-EFAULT, [], fPos⟩, { s with tmpBuf := tmpBuf, readInd := s.start })
          else (⟨(str ++ [newline]).length, printed str, fPos + (str ++ [newline]).length⟩,
            { s with tmpBuf := tmpBuf, readInd := s.start + (str ++ [newline]).length }))) := by
  by_cases hend : fPos > 0 ∨ s.writeInd = 0
  · exact Or.inl ⟨hend, if_pos hend⟩
  right
  have hw : s.writeInd ≠ 0 := fun h0 => hend (Or.inr h0)
  obtain ⟨hs0, hs⟩ := h.start_lt hw
  have hle := h.writeInd_le
  obtain ⟨str, hstr, hlen⟩ := Buffer.cstring_of_nul s.cookiePot (j := (s.writeInd - 1).toNat)
    hs0 (by omega) (h.nul (by omega))
  have hout : (snprintf PAGE_SIZE (str ++ [newline])).1.length ≤ PAGE_SIZE := length_snprintf_le _ _
  obtain ⟨tmpBuf, hst, hbytes⟩ := Buffer.store_eq_ok s.tmpBuf 0
    (snprintf PAGE_SIZE (str ++ [newline])).1 (Int.le_refl 0) (by omega)
  have hreadLen : (snprintf PAGE_SIZE (str ++ [newline])).2 = (str ++ [newline]).length := rfl
  have hload : tmpBuf.load 0 (str ++ [newline]).length = .ok (printed str) := by
    have hone : ((str ++ [newline]).length : Nat) = (printed str).length := by simp [printed]
    obtain ⟨q, hq⟩ : ∃ q, tmpBuf.bytes = printed str ++ q := by
      by_cases hshort : str.length + 1 < PAGE_SIZE
      · rw [snprintf_of_lt PAGE_SIZE (str ++ [newline]) (by simpa using hshort)] at hbytes
        refine ⟨[0] ++ s.tmpBuf.bytes.drop ((str ++ [newline]).length + 1), ?_⟩
        simpa [printed, hshort] using hbytes
      · -- the string and its NUL fill the page
        have hlen' : PAGE_SIZE - 1 = str.length := by omega
        have hcut : (snprintf PAGE_SIZE (str ++ [newline])).1 = str ++ [0] := by
          rw [snprintf, if_neg (by decide), hlen', List.take_left]
        rw [hcut] at hbytes
        refine ⟨s.tmpBuf.bytes.drop (str.length + 1), ?_⟩
        simpa [printed, hshort] using hbytes
    rw [hone]
    exact Buffer.load_zero hq
  refine ⟨hend, str, tmpBuf, hstr, by omega, ?_⟩
  have hstart : (if s.readInd ≥ s.writeInd then 0 else s.readInd) = s.start := rfl
  rw [fortuneRead, if_neg hend, hstart]
  simp only [hstr, hst, hreadLen, hload]
  cases ok <;> rfl

/-! ## 2. Whole runs -/

/-- The module is running and its indices are in order. -/
def InBounds : Result Pot → Prop
  | .ok s => 0 ≤ s.readInd ∧ s.readInd ≤ s.writeInd ∧ s.writeInd ≤ PAGE_SIZE
  | .error _ => False

/-- The call is not a write that goes outside the page. -/
def CallFits : Result Pot → Call → Prop
  | .ok s, .write buf => WriteFits s buf
  | _, _ => True

/-- The module is running and the invariant holds. -/
def Running : Result Pot → Prop
  | .ok s => IndInv s
  | .error _ => False

theorem IndInv.write (h : IndInv s) (hfit : WriteFits s buf) :
    ∃ r s', fortuneWrite s buf = .ok (r, s') ∧ IndInv s' := by
  obtain ⟨-, hw⟩ | ⟨hle, pot, hst, ⟨-, hw⟩ | ⟨-, pot', hst', hw⟩⟩ := fortuneWrite_cases h hfit
  · exact ⟨_, s, hw, h⟩
  · refine ⟨_, _, hw, h.readInd_nonneg, h.read_le_write, h.writeInd_le, fun hpos => ?_⟩
    have hkeep := Buffer.store_getElem?_of_lt hst (i := (s.writeInd - 1).toNat)
      (by simp only at hpos; omega)
    exact hkeep.trans (h.nul hpos)
  · have hr := h.read_le_write
    refine ⟨_, _, hw, h.readInd_nonneg, by simp only; omega, hle, fun _ => ?_⟩
    exact Buffer.store_getElem?_self hst'

theorem IndInv.read (h : IndInv s) (fPos : Int) (ok : Bool) :
    ∃ r s', fortuneRead s fPos ok = .ok (r, s') ∧ IndInv s' := by
  obtain ⟨-, hr⟩ | ⟨hend, str, tmpBuf, -, hlen, hr⟩ := fortuneRead_cases h fPos ok
  · exact ⟨_, s, hr, h⟩
  · obtain ⟨hs0, hs⟩ := h.start_lt fun h0 => hend (Or.inr h0)
    cases ok with
    | false => exact ⟨_, _, hr, hs0, Int.le_of_lt hs, h.writeInd_le, h.nul⟩
    | true =>
      refine ⟨_, _, hr, ?_, ?_, h.writeInd_le, h.nul⟩
      · simp only [List.length_append, List.length_singleton]
        omega
      · simp only [List.length_append, List.length_singleton]
        omega

/-- **A call that fits keeps the indices in order.** -/
theorem Running.step {r r' : Result Pot} {c : Call} (h : Running r) (hfit : CallFits r c)
    (hst : module.step r c = some r') : Running r' := by
  cases r with
  | error e => exact absurd h id
  | ok s =>
    obtain rfl : s.call c = r' := Option.some.inj hst
    cases c with
    | write buf =>
      obtain ⟨v, s', hw, hi⟩ := IndInv.write h hfit
      simpa [Pot.call, hw, Except.map, Running] using hi
    | read fPos ok =>
      obtain ⟨v, s', hr, hi⟩ := IndInv.read h fPos ok
      simpa [Pot.call, hr, Except.map, Running] using hi

/-- A call that does not fit is the end of the run. -/
theorem not_inBounds_of_not_fits {r r' : Result Pot} {c : Call} (h : Running r)
    (hfit : ¬ CallFits r c) (hst : module.step r c = some r') : ¬ InBounds r' := by
  cases r with
  | error e => exact absurd h id
  | ok s =>
    obtain rfl : s.call c = r' := Option.some.inj hst
    cases c with
    | write buf =>
      obtain ⟨i, hi⟩ := fortuneWrite_error h hfit
      simp [Pot.call, hi, Except.map, InBounds]
    | read fPos ok => exact absurd trivial hfit

theorem Running.inBounds : ∀ r : Result Pot, Running r → InBounds r
  | .ok _, h => ⟨h.readInd_nonneg, h.read_le_write, h.writeInd_le⟩
  | .error _, h => h

/-- Along every run of calls from the loading of the module, the accesses stay inside the
buffers and the indices in order exactly when every write fits. -/
theorem inBounds_iff_fits (cs : List Call) :
    module.StatesMeet InBounds module.init cs ↔ module.StepsMeet CallFits module.init cs := by
  have hinit : Running module.init := indInv_init
  exact (Machine.stepsMeet_iff_statesMeet (M := module) Running.inBounds
    (fun _ _ _ h hfit hst => h.step hfit hst)
    (fun _ _ _ h hfit hst => not_inBounds_of_not_fits h hfit hst) hinit).symm

end OsLabs.Fortune
