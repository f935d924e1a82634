/-
# single_file: one string in one page, and the bounds of both modules

`6/seq_files/single_file.c` keeps the text last written to its file in `cookie_buf`, for
`ct_seq_show` to parse.  `ct_seq_write` is `fortuneWrite` without the index: `write_index` is
set to 0 once, so every write starts at the beginning of the page, and the terminating NUL goes
to `len - 1`, an index computed in `size_t`.

Section 2 puts the two modules together (`inBounds_iff_fits`).
-/
import OsLabs.ProcFiles.Fortune

namespace OsLabs.SingleFile

open Kernel

/-- The buffer of the module, to name an access outside it. -/
inductive Arr
  | cookieBuf
deriving DecidableEq, Repr

abbrev Result (α : Type) : Type := Except (Arr × Int) α

/-- The globals of the module that the operations use. -/
structure File where
  cookieBuf : Buffer PAGE_SIZE
  writeIndex : Nat

/-- The module as `ct_init` leaves it. -/
def File.init : File where
  cookieBuf := Buffer.zero PAGE_SIZE
  writeIndex := 0

/-- `len - 1` in `size_t`. -/
def lastIndex (len : Nat) : Nat := (len + 2 ^ 64 - 1) % 2 ^ 64

/-- `ct_seq_write`: the value it returns and the module afterwards. -/
def ctSeqWrite (s : File) (buf : UserCopy) : Result (Int × File) :=
  if buf.len > room s.writeIndex then .ok (-ENOSPC, s)
  else
    match s.cookieBuf.store s.writeIndex buf.bytes with
    | .error i => .error (.cookieBuf, i)
    | .ok cookieBuf =>
      if buf.ok = false then .ok (-EFAULT, { s with cookieBuf := cookieBuf })
      else
        match cookieBuf.store (lastIndex buf.len) [0] with
        | .error i => .error (.cookieBuf, i)
        | .ok cookieBuf => .ok (buf.len, { s with cookieBuf := cookieBuf })

/-- The module from its loading on; an access outside the buffer is the end of the run. -/
def module : Machine (Result File) UserCopy where
  init := .ok File.init
  step
    | .ok s, buf => some ((ctSeqWrite s buf).map Prod.snd)
    | .error _, _ => none

/-! ## 1. The bounds of the buffer -/

/-- The write neither takes one byte more than the page, nor is it empty. -/
def WriteFits (buf : UserCopy) : Prop := buf.len ≠ PAGE_SIZE + 1 ∧ buf.len ≠ 0

/-- The module is running. -/
def InBounds : Result File → Prop
  | .ok _ => True
  | .error _ => False

/-- The module is running, and writes start at the beginning of the page. -/
def Running : Result File → Prop
  | .ok s => s.writeIndex = 0
  | .error _ => False

variable {s : File} {buf : UserCopy}

theorem room_zero : room (0 : Nat) = PAGE_SIZE + 1 := by decide

theorem lastIndex_eq (h : buf.len ≠ 0) (hle : buf.len ≤ PAGE_SIZE) :
    lastIndex buf.len = buf.len - 1 := by
  unfold lastIndex PAGE_SIZE at *
  omega

/-- **A write that fits** is refused, faults, or replaces the beginning of the page. -/
theorem ctSeqWrite_cases (h : s.writeIndex = 0) (hfit : WriteFits buf) :
    (PAGE_SIZE < buf.len ∧ ctSeqWrite s buf = .ok (-ENOSPC, s)) ∨
      (buf.len ≤ PAGE_SIZE ∧ ∃ b, s.cookieBuf.store 0 buf.bytes = .ok b ∧
        ((buf.ok = false ∧ ctSeqWrite s buf = .ok (-EFAULT, { s with cookieBuf := b })) ∨
          (buf.ok = true ∧ ∃ b', b.store ((buf.len - 1 : Nat) : Int) [0] = .ok b' ∧
            ctSeqWrite s buf = .ok ((buf.len : Int), { s with cookieBuf := b' })))) := by
  obtain ⟨hne, hzero⟩ := hfit
  have hroom : room s.writeIndex = PAGE_SIZE + 1 := by rw [h, room_zero]
  by_cases hlt : PAGE_SIZE < buf.len
  · left
    refine ⟨hlt, ?_⟩
    rw [ctSeqWrite, if_pos (by omega)]
  · right
    have hle : buf.len ≤ PAGE_SIZE := Nat.not_lt.mp hlt
    have hrange : (0 : Int) + buf.bytes.length ≤ PAGE_SIZE := by
      have hlen : buf.bytes.length = buf.len := rfl
      omega
    obtain ⟨b, hst, -⟩ := Buffer.store_eq_ok s.cookieBuf 0 buf.bytes (Int.le_refl 0) hrange
    refine ⟨hle, b, hst, ?_⟩
    cases hok : buf.ok with
    | false =>
      left
      refine ⟨rfl, ?_⟩
      rw [ctSeqWrite, if_neg (by omega), h, Int.natCast_zero, hst]
      simp [hok]
    | true =>
      right
      obtain ⟨b', hst', -⟩ := Buffer.store_eq_ok b ((buf.len - 1 : Nat) : Int) [0]
        (by omega) (by rw [List.length_singleton]; omega)
      refine ⟨rfl, b', hst', ?_⟩
      rw [ctSeqWrite, if_neg (by omega), h, Int.natCast_zero, hst]
      simp [hok, lastIndex_eq hzero hle, hst']

/-- A write that does not fit goes outside the page. -/
theorem ctSeqWrite_error (h : s.writeIndex = 0) (hfit : ¬ WriteFits buf) :
    ∃ i, ctSeqWrite s buf = .error (.cookieBuf, i) := by
  have hroom : room s.writeIndex = PAGE_SIZE + 1 := by rw [h, room_zero]
  have hlen : buf.bytes.length = buf.len := rfl
  by_cases hlong : buf.len = PAGE_SIZE + 1
  · have hst := Buffer.store_eq_error s.cookieBuf 0 buf.bytes
      (fun hin => by omega)
    refine ⟨Buffer.outside PAGE_SIZE 0, ?_⟩
    rw [ctSeqWrite, if_neg (by omega), h, Int.natCast_zero, hst]
  · -- the NUL of an empty write goes to the last index that `size_t` has
    have h0 : buf.len = 0 := by
      by_contra hne
      exact hfit ⟨hlong, hne⟩
    obtain ⟨b, hst, -⟩ := Buffer.store_eq_ok s.cookieBuf 0 buf.bytes
      (Int.le_refl 0) (by omega)
    have hst' := Buffer.store_eq_error b (lastIndex 0) [0]
      (fun hin => by
        have hle := hin.2
        rw [List.length_singleton] at hle
        exact absurd hle (by decide))
    refine ⟨Buffer.outside PAGE_SIZE (lastIndex 0), ?_⟩
    rw [ctSeqWrite, if_neg (by omega), h, Int.natCast_zero, hst]
    simp [UserCopy.ok_of_len h0, h0, hst']

theorem Running.step {r r' : Result File} (h : Running r) (hfit : WriteFits buf)
    (hst : module.step r buf = some r') : Running r' := by
  cases r with
  | error e => exact absurd h id
  | ok s =>
    obtain rfl := Option.some.inj hst
    obtain ⟨-, hw⟩ | ⟨-, b, -, ⟨-, hw⟩ | ⟨-, b', -, hw⟩⟩ := ctSeqWrite_cases h hfit <;>
      simpa [hw, Except.map, Running] using h

theorem not_inBounds_of_not_fits {r r' : Result File} (h : Running r) (hfit : ¬ WriteFits buf)
    (hst : module.step r buf = some r') : ¬ InBounds r' := by
  cases r with
  | error e => exact absurd h id
  | ok s =>
    obtain rfl := Option.some.inj hst
    obtain ⟨i, hi⟩ := ctSeqWrite_error h hfit
    simp [hi, Except.map, InBounds]

theorem Running.inBounds : ∀ r : Result File, Running r → InBounds r
  | .ok _, _ => trivial
  | .error _, h => h

/-- Along every run of writes the accesses stay inside the buffer exactly when every write
fits. -/
theorem inBounds_iff_fits (bufs : List UserCopy) :
    module.StatesMeet InBounds module.init bufs ↔
      module.StepsMeet (fun _ buf => WriteFits buf) module.init bufs := by
  have hinit : Running module.init := rfl
  exact (Machine.stepsMeet_iff_statesMeet (M := module) Running.inBounds
    (fun _ _ _ h hfit hst => h.step hfit hst)
    (fun _ _ _ h hfit hst => not_inBounds_of_not_fits h hfit hst) hinit).symm

end OsLabs.SingleFile

/-! ## 2. Both modules -/

namespace OsLabs.Kernel

/-- **The bounds of the kernel buffers.**  Along every run of each module from its loading on,
every access is inside its buffer, and the indices of fortune are in order, exactly when no
write is one byte longer than what is left of the page, and none is empty (in fortune: while
the pot is empty). -/
theorem buffers_inBounds_iff (cs : List Fortune.Call) (bufs : List UserCopy) :
    (Fortune.module.StatesMeet Fortune.InBounds Fortune.module.init cs ↔
      Fortune.module.StepsMeet Fortune.CallFits Fortune.module.init cs) ∧
    (SingleFile.module.StatesMeet SingleFile.InBounds SingleFile.module.init bufs ↔
      SingleFile.module.StepsMeet (fun _ buf => SingleFile.WriteFits buf)
        SingleFile.module.init bufs) :=
  ⟨Fortune.inBounds_iff_fits cs, SingleFile.inBounds_iff_fits bufs⟩

/-- A write of one byte more than the page. -/
def tooLong : UserCopy := .of (List.replicate (PAGE_SIZE + 1) 120)

/-- **Both tests let a byte too many through**: one write to the empty buffer suffices. -/
theorem buffers_overrun :
    (¬ ∀ cs, Fortune.module.StatesMeet Fortune.InBounds Fortune.module.init cs) ∧
    ¬ ∀ bufs, SingleFile.module.StatesMeet SingleFile.InBounds SingleFile.module.init bufs := by
  have hlen : tooLong.len = PAGE_SIZE + 1 := List.length_replicate
  constructor
  · intro h
    have hmeet := (Fortune.inBounds_iff_fits _).mp (h [.write tooLong])
    obtain ⟨hfit, -⟩ := hmeet _ rfl
    exact hfit.1 (by rw [hlen]; decide)
  · intro h
    have hmeet := (SingleFile.inBounds_iff_fits _).mp (h [tooLong])
    obtain ⟨hfit, -⟩ := hmeet _ rfl
    exact hfit.1 hlen

end OsLabs.Kernel
