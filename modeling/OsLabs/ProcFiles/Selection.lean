/-
# single_file: which process is shown

`ct_seq_show` parses the string in `cookie_buf` with `kstrtoint` and prints the process of that
number, or says that there is none or that the string is no number.  Two things come between
the text written and that string: the NUL of `ct_seq_write` goes to `len - 1` and takes the
place of the last byte, whether or not that is a newline (`selection_iff`), and the copy goes to
the live buffer, so that one that faults has already replaced what it has copied
(`selection_kept_iff`).
-/
import OsLabs.ProcFiles.SingleFile
import OsLabs.Lib.Numeral
import Mathlib.Data.List.Induction

namespace OsLabs.SingleFile

open Kernel

/-! ## 1. `ct_seq_show` -/

/-- The fields of a `task_struct` that are printed. -/
structure Task where
  comm : List UInt8
  pid : Int
  parentComm : List UInt8
  parentPid : Int
  state : Int
  onCpu : Int
  flags : Int
  prio : Int
  policy : Int
  exitState : Int
  exitCode : Int
  inExecve : Int
  utime : Int
deriving DecidableEq, Repr

/-- An argument of `seq_printf`. -/
inductive Arg
  | str (s : List UInt8)
  | num (n : Int)
deriving DecidableEq, Repr

/-- A call of `seq_printf`. -/
structure SeqPrintf where
  fmt : String
  args : List Arg
deriving DecidableEq, Repr

def mustBeInteger (str : List UInt8) : SeqPrintf := ⟨"%s: pid must be an integer\n", [.str str]⟩

def noSuchTask (pid : Int) : SeqPrintf := ⟨"%d: no such task\n", [.num pid]⟩

def taskInfo (pid : Int) (task : Task) : SeqPrintf where
  fmt := "%d:\ncomm - %s\npid - %d\nparent comm - %s\nppid - %d\nstate - %d\non_cpu - %d\n" ++
    "flags - %x\nprio - %d\npolicy - %d\nexit_state - %d\nexit_code - %d\nin_execve - %x\n" ++
    "utime - %llu\n"
  args := [.num pid, .str task.comm, .num task.pid, .str task.parentComm, .num task.parentPid,
    .num task.state, .num task.onCpu, .num task.flags, .num task.prio, .num task.policy,
    .num task.exitState, .num task.exitCode, .num task.inExecve, .num task.utime]

/-- `ct_seq_show`, where `tasks` is what `get_pid_task` finds. -/
def ctSeqShow (tasks : Int → Option Task) (s : File) : Result SeqPrintf :=
  match s.cookieBuf.cstring 0 with
  | .error i => .error (.cookieBuf, i)
  | .ok str =>
    match kstrtoint str with
    | none => .ok (mustBeInteger str)
    | some pid =>
      match tasks pid with
      | none => .ok (noSuchTask pid)
      | some task => .ok (taskInfo pid task)

/-- **What is shown is about `pid`**: the process of that number, or that there is none; and
with no number given, that the pid must be an integer. -/
def Reports (tasks : Int → Option Task) (s : File) : Option Int → Prop
  | none => ∃ str, ctSeqShow tasks s = .ok (mustBeInteger str)
  | some pid => ctSeqShow tasks s = .ok ((tasks pid).elim (noSuchTask pid) (taskInfo pid))

variable {s s' : File} {buf : UserCopy} {str : List UInt8} {tasks : Int → Option Task}

/-- What is shown tells the number that was parsed. -/
theorem reports_iff (hs : s.cookieBuf.cstring 0 = .ok str) (pid : Option Int) :
    Reports tasks s pid ↔ kstrtoint str = pid := by
  have hshow : ∀ p, (tasks p).elim (noSuchTask p) (taskInfo p) =
      match tasks p with
      | none => noSuchTask p
      | some task => taskInfo p task := by
    intro p
    cases tasks p <;> rfl
  -- the first argument is the text or the number
  have hhead : ∀ p, ((tasks p).elim (noSuchTask p) (taskInfo p)).args.head? =
      some (.num p) := by
    intro p
    cases tasks p <;> rfl
  cases hk : kstrtoint str with
  | none =>
    have hout : ctSeqShow tasks s = .ok (mustBeInteger str) := by
      simp only [ctSeqShow, hs, hk]
    cases pid with
    | none => exact iff_of_true ⟨str, hout⟩ rfl
    | some p =>
      refine iff_of_false (fun h => ?_) (by simp)
      have heq := congrArg (fun o => o.args.head?) (Except.ok.inj (hout.symm.trans h))
      rw [hhead] at heq
      exact absurd heq (by simp [mustBeInteger])
  | some q =>
    have hout : ctSeqShow tasks s = .ok ((tasks q).elim (noSuchTask q) (taskInfo q)) := by
      simp only [ctSeqShow, hs, hk]
      cases tasks q <;> rfl
    cases pid with
    | none =>
      refine iff_of_false ?_ (by simp)
      rintro ⟨text, h⟩
      have heq := congrArg (fun o => o.args.head?) (Except.ok.inj (hout.symm.trans h))
      rw [hhead] at heq
      exact absurd heq (by simp [mustBeInteger])
    | some p =>
      constructor
      · intro h
        have heq := congrArg (fun o => o.args.head?) (Except.ok.inj (hout.symm.trans h))
        rw [hhead, hhead] at heq
        simpa using heq
      · intro h
        obtain rfl := Option.some.inj h
        exact hout

/-! ## 2. The string in the buffer -/

/-- The string that a write leaves whose copy succeeds: its bytes but the last. -/
def stored (buf : UserCopy) : List UInt8 := buf.bytes.dropLast.takeWhile (· ≠ 0)

/-- The string that a copy leaves which fails. -/
def copied (buf : UserCopy) : List UInt8 := buf.bytes.takeWhile (· ≠ 0)

/-- A copy that fails has copied some of the bytes and zeroed the rest. -/
def Zeroed (buf : UserCopy) : Prop :=
  buf.ok = false → ∃ pre n, 0 < n ∧ buf.bytes = pre ++ List.replicate n 0

/-- The string in the buffer after a write, where `str` was in it before. -/
def nextText (str : List UInt8) (buf : UserCopy) : List UInt8 :=
  if PAGE_SIZE < buf.len then str else if buf.ok = true then stored buf else copied buf

theorem store_front {b b' : Buffer PAGE_SIZE} {src : List UInt8} (h : b.store 0 src = .ok b') :
    b'.bytes = src ++ b.bytes.drop src.length := by
  obtain ⟨-, hb⟩ := Buffer.bytes_of_store h
  simpa using hb

/-- **A write that is accepted** leaves its bytes but the last. -/
theorem ctSeqWrite_accepted (h : s.writeIndex = 0) (hpos : buf.len ≠ 0) (hle : buf.len ≤ PAGE_SIZE)
    (hok : buf.ok = true) : ∃ s', ctSeqWrite s buf = .ok ((buf.len : Int), s') ∧
      s'.writeIndex = 0 ∧ s'.cookieBuf.cstring 0 = .ok (stored buf) := by
  have hlen : buf.bytes.length = buf.len := rfl
  obtain ⟨hlt, -⟩ | ⟨-, b, hst, ⟨hok', -⟩ | ⟨-, b', hst', hw⟩⟩ :=
    ctSeqWrite_cases h ⟨by omega, hpos⟩
  · omega
  · exact absurd hok' (by simp [hok])
  refine ⟨_, hw, h, ?_⟩
  have hne : buf.bytes ≠ [] := fun h0 => hpos (by rw [← hlen, h0]; rfl)
  have hb : b.bytes = buf.bytes.dropLast ++
      (buf.bytes.getLast hne :: s.cookieBuf.bytes.drop buf.bytes.length) := by
    rw [List.append_cons, List.dropLast_append_getLast hne]
    exact store_front hst
  have hoff : ((buf.len - 1 : Nat) : Int) = buf.bytes.dropLast.length := by
    rw [List.length_dropLast, hlen]
  obtain ⟨b₂, hst₂, hb₂⟩ := Buffer.store_after [0] hb hoff (by simp)
  obtain rfl : b' = b₂ := Except.ok.inj (hst'.symm.trans hst₂)
  refine Buffer.cstring_zero_of_append (q := s.cookieBuf.bytes.drop buf.bytes.length) ?_
  rw [hb₂]
  simp

/-- **A write that faults** leaves what it has copied. -/
theorem ctSeqWrite_faulted (h : s.writeIndex = 0) (hpos : buf.len ≠ 0) (hle : buf.len ≤ PAGE_SIZE)
    (hok : buf.ok = false) (hz : Zeroed buf) : ∃ s', ctSeqWrite s buf = .ok (-EFAULT, s') ∧
      s'.writeIndex = 0 ∧ s'.cookieBuf.cstring 0 = .ok (copied buf) := by
  obtain ⟨hlt, -⟩ | ⟨-, b, hst, ⟨-, hw⟩ | ⟨hok', -⟩⟩ := ctSeqWrite_cases h ⟨by omega, hpos⟩
  · omega
  · refine ⟨_, hw, h, ?_⟩
    obtain ⟨pre, n, hn, hbytes⟩ := hz hok
    have hmem : (0 : UInt8) ∈ buf.bytes := by
      rw [hbytes]
      exact List.mem_append_right _ (List.mem_replicate.mpr ⟨by omega, rfl⟩)
    obtain ⟨hno, hfront⟩ := Buffer.takeWhile_eq_iff.mp ⟨hmem, rfl⟩
    rw [Buffer.cstring_zero, store_front hst, if_pos (List.mem_append_left _ hmem)]
    congr 1
    exact (Buffer.takeWhile_eq_iff.mpr ⟨hno, hfront.trans (List.prefix_append _ _)⟩).2
  · exact absurd hok' (by simp [hok])

/-- **What a write returns and which string it leaves.** -/
theorem ctSeqWrite_text (h : s.writeIndex = 0) (hfit : WriteFits buf) (hz : Zeroed buf)
    (hs : s.cookieBuf.cstring 0 = .ok str) :
    ∃ r s', ctSeqWrite s buf = .ok (r, s') ∧ s'.writeIndex = 0 ∧
      s'.cookieBuf.cstring 0 = .ok (nextText str buf) ∧
      (r = buf.len ↔ buf.len ≤ PAGE_SIZE ∧ buf.ok = true) := by
  have henospc : ENOSPC = 28 := rfl
  have hefault : EFAULT = 14 := rfl
  by_cases hle : buf.len ≤ PAGE_SIZE
  · cases hok : buf.ok with
    | true =>
      obtain ⟨s', hw, h', hs'⟩ := ctSeqWrite_accepted h hfit.2 hle hok
      refine ⟨_, s', hw, h', ?_, by simp [hle]⟩
      rw [nextText, if_neg (by omega), if_pos hok]
      exact hs'
    | false =>
      obtain ⟨s', hw, h', hs'⟩ := ctSeqWrite_faulted h hfit.2 hle hok hz
      refine ⟨_, s', hw, h', ?_, iff_of_false (by omega) (by simp)⟩
      rw [nextText, if_neg (by omega), if_neg (by simp [hok])]
      exact hs'
  · obtain ⟨hlt, hw⟩ | ⟨hle', -⟩ := ctSeqWrite_cases h hfit
    · exact ⟨_, s, hw, h, by rw [nextText, if_pos hlt]; exact hs, by omega⟩
    · exact absurd hle' hle

/-! ## 3. The text written and the text parsed -/

/-- The code of '\n'. -/
def newline : UInt8 := 10

/-- The last byte of the text says nothing: it is a newline, but not the second one behind a
number; or it is another byte, and the text is no number, neither with it nor without it, or it
is one more zero behind a zero. -/
def LastByteIdle (t : List UInt8) : Prop :=
  ∃ u c, t = u ++ [c] ∧
    ((c = newline ∧ ¬ (u.getLast? = some newline ∧ (kstrtoint u).isSome)) ∨
      (c ≠ newline ∧ ((kstrtoint u = none ∧ kstrtoint t = none) ∨
        (c = 48 ∧ kstrtoint u = some 0 ∧ u.getLast? ≠ some newline))))

theorem lastByteIdle_concat (u : List UInt8) (c : UInt8) :
    LastByteIdle (u ++ [c]) ↔ kstrtoint u = kstrtoint (u ++ [c]) := by
  rw [kstrtoint_append_iff]
  constructor
  · rintro ⟨u', c', heq, h⟩
    obtain ⟨rfl, hc⟩ := List.append_inj' heq rfl
    obtain rfl := (List.cons.inj hc).1
    exact h
  · intro h
    exact ⟨u, c, rfl, h⟩

/-- Every state that is reached writes to the front of the page. -/
theorem reachable_writeIndex {r : Result File} (h : module.Reachable r) :
    ∀ s, r = .ok s → s.writeIndex = 0 := by
  refine Machine.reachable_rule (M := module) (I := fun r => ∀ s, r = .ok s → s.writeIndex = 0)
    ?_ (fun r buf r' hr hst => ?_) h
  · rintro s hs
    obtain rfl := Except.ok.inj hs
    rfl
  · rintro s' rfl
    cases r with
    | error e => exact absurd hst (by simp [module])
    | ok s =>
      have hw := Option.some.inj hst
      by_cases hfit : WriteFits buf
      · exact Running.step (r := .ok s) (hr s rfl) hfit hst
      · obtain ⟨i, hi⟩ := ctSeqWrite_error (hr s rfl) hfit
        rw [hi] at hw
        exact absurd hw (by simp [Except.map])

/-- **What is parsed after a text has been written** is the text but its last byte. -/
theorem written_text (h : module.Reachable (.ok s)) {t : List UInt8} (hnul : (0 : UInt8) ∉ t)
    (hpos : 1 ≤ t.length) (hle : t.length ≤ PAGE_SIZE - 1) :
    ∃ s', ctSeqWrite s (.of t) = .ok ((t.length : Int), s') ∧
      s'.cookieBuf.cstring 0 = .ok t.dropLast := by
  have hlen : (UserCopy.of t).len = t.length := rfl
  have hok : (UserCopy.of t).ok = true := rfl
  obtain ⟨s', hw, -, hs'⟩ := ctSeqWrite_accepted (reachable_writeIndex h s rfl) (by omega)
    (by omega) hok
  refine ⟨s', hw, ?_⟩
  rw [hs', stored]
  exact congrArg _ (Buffer.takeWhile_of_no_nul fun h0 =>
    hnul ((List.dropLast_sublist t).subset h0))

/-- A number in decimal has no newline at its end, and the number without its last digit is
another. -/
theorem decimalInt_lastByte {p : Int} (hlow : -2 ^ 31 ≤ p) (hhigh : p < 2 ^ 31) :
    LastByteIdle (decimalInt p ++ [newline]) ∧ ¬ LastByteIdle (decimalInt p) := by
  have hp := kstrtoint_decimalInt hlow hhigh
  have hlast : (decimalInt p).getLast? ≠ some newline :=
    fun h => decimalInt_no_newline p (List.mem_of_getLast? h)
  constructor
  · rw [lastByteIdle_concat]
    exact (kstrtoint_append_newline hlast).symm
  · rintro ⟨u, c, heq, ⟨rfl, -⟩ | ⟨-, ⟨-, hnone⟩ | ⟨rfl, hzero, hu⟩⟩⟩
    · exact hlast (by rw [heq]; simp)
    · rw [hp] at hnone
      exact absurd hnone (by simp)
    · -- the number is 0, and its text has no zero to lose
      have hp0 := kstrtoint_append_zero hzero hu
      rw [← heq, hp] at hp0
      obtain rfl := Option.some.inj hp0
      have hnil : u = [] := by
        have hlen := congrArg List.length heq
        rw [List.length_append, show (decimalInt 0).length = 1 from rfl] at hlen
        exact List.length_eq_zero_iff.mp (by simpa using hlen)
      rw [hnil, show kstrtoint [] = none from rfl] at hzero
      exact absurd hzero (by simp)

/-- **The text written and the process shown.**  When a text without NULs has been written, after
any run of writes, what is shown is about the number that `kstrtoint` gives for the text exactly
when its last byte says nothing.  So a number in decimal is shown when it is written with a
newline, and never when it is written without one. -/
theorem selection_iff (tasks : Int → Option Task) :
    (∀ (s : File) (t : List UInt8), module.Reachable (.ok s) → (0 : UInt8) ∉ t → 1 ≤ t.length →
      t.length ≤ PAGE_SIZE - 1 → ∃ s', ctSeqWrite s (.of t) = .ok ((t.length : Int), s') ∧
        (Reports tasks s' (kstrtoint t) ↔ LastByteIdle t)) ∧
    ∀ p : Int, -2 ^ 31 ≤ p → p < 2 ^ 31 → kstrtoint (decimalInt p) = some p ∧
      LastByteIdle (decimalInt p ++ [newline]) ∧ ¬ LastByteIdle (decimalInt p) := by
  constructor
  · intro s t h hnul hpos hle
    obtain ⟨s', hw, hs'⟩ := written_text h hnul hpos hle
    refine ⟨s', hw, ?_⟩
    have hne : t ≠ [] := List.length_pos_iff.mp hpos
    have hsplit := List.dropLast_append_getLast hne
    rw [reports_iff hs', ← hsplit, lastByteIdle_concat, hsplit]
  · intro p hlow hhigh
    exact ⟨kstrtoint_decimalInt hlow hhigh, decimalInt_lastByte hlow hhigh⟩

/-- **The last digit is lost**: after "12", without a newline, process 1 is shown. -/
theorem last_digit_lost : ¬ ∀ (tasks : Int → Option Task) (s : File) (t : List UInt8),
    module.Reachable (.ok s) → (0 : UInt8) ∉ t → 1 ≤ t.length → t.length ≤ PAGE_SIZE - 1 →
    ∃ s', ctSeqWrite s (.of t) = .ok ((t.length : Int), s') ∧
      Reports tasks s' (kstrtoint t) := by
  intro h
  have hinit : module.Reachable (.ok File.init) := ⟨[], rfl⟩
  obtain ⟨s₁, hw₁, hrep⟩ := h (fun _ => none) File.init [49, 50] hinit (by decide) (by decide)
    (by decide)
  obtain ⟨s₂, hw₂, hs₂⟩ := written_text hinit (t := [49, 50]) (by decide) (by decide) (by decide)
  obtain ⟨-, rfl⟩ := Prod.mk.inj (Except.ok.inj (hw₁.symm.trans hw₂))
  exact absurd ((reports_iff hs₂ _).mp hrep) (by decide)

/-! ## 4. Sequences of writes -/

/-- The writes in order: what each returns, and the module afterwards. -/
def writes (s : File) : List UserCopy → Result (List Int × File)
  | [] => .ok ([], s)
  | buf :: bufs => do
    let (r, s') ← ctSeqWrite s buf
    let (rs, t) ← writes s' bufs
    return (r :: rs, t)

/-- The string stored by the last write that returned its length, given what the writes
returned. -/
def lastReturned (bufs : List UserCopy) (rs : List Int) : List UInt8 :=
  match ((bufs.zip rs).filter fun c => c.2 = c.1.len).getLast? with
  | none => []
  | some c => stored c.1

/-- The string stored by the last write that fits the page and whose copy succeeds. -/
def lastStored (bufs : List UserCopy) : List UInt8 :=
  match (bufs.filter fun buf => buf.len ≤ PAGE_SIZE ∧ buf.ok = true).getLast? with
  | none => []
  | some buf => stored buf

/-- The last write that was not refused copied its bytes; or what it copied before it failed is
the string that was stored last. -/
def Intact (bufs : List UserCopy) : Prop :=
  ∀ buf, (bufs.filter fun buf => buf.len ≤ PAGE_SIZE).getLast? = some buf →
    buf.ok = true ∨ copied buf = lastStored bufs

theorem writes_concat {bufs : List UserCopy} {rs : List Int} {r : Int} {s t t' : File}
    (h : writes s bufs = .ok (rs, t)) (hw : ctSeqWrite t buf = .ok (r, t')) :
    writes s (bufs ++ [buf]) = .ok (rs ++ [r], t') := by
  induction bufs generalizing s rs with
  | nil =>
    obtain ⟨rfl, rfl⟩ := Prod.mk.inj (Except.ok.inj h)
    simp [writes, hw, bind, Except.bind, pure, Except.pure]
  | cons b bufs ih =>
    rw [List.cons_append, writes]
    rw [writes] at h
    cases hb : ctSeqWrite s b with
    | error e =>
      rw [hb] at h
      exact absurd h (by simp [bind, Except.bind])
    | ok out =>
      obtain ⟨r₁, s₁⟩ := out
      rw [hb] at h
      cases hrest : writes s₁ bufs with
      | error e => simp [hrest, bind, Except.bind] at h
      | ok out =>
        obtain ⟨rs₁, t₁⟩ := out
        simp only [hrest, bind, Except.bind, pure, Except.pure, Except.ok.injEq,
          Prod.mk.injEq] at h
        obtain ⟨rfl, rfl⟩ := h
        simp [ih hrest, bind, Except.bind, pure, Except.pure]

/-- **What a sequence of writes leaves**: the string of the last one that was not refused. -/
theorem writes_text {bufs : List UserCopy} (h : ∀ buf ∈ bufs, WriteFits buf ∧ Zeroed buf) :
    ∃ rs t, writes File.init bufs = .ok (rs, t) ∧ rs.length = bufs.length ∧ t.writeIndex = 0 ∧
      t.cookieBuf.cstring 0 = .ok (bufs.foldl nextText []) ∧
      lastReturned bufs rs = lastStored bufs := by
  induction bufs using List.reverseRecOn with
  | nil => exact ⟨[], File.init, rfl, rfl, rfl, by decide, rfl⟩
  | append_singleton bufs buf ih =>
    obtain ⟨hbufs, hbuf⟩ := List.forall_mem_append.mp h
    obtain ⟨hfit, hz⟩ := hbuf buf (List.mem_singleton_self _)
    obtain ⟨rs, t, hrun, hlen, hi, htext, hlast⟩ := ih hbufs
    obtain ⟨r, t', hw, hi', htext', hr⟩ := ctSeqWrite_text hi hfit hz htext
    refine ⟨rs ++ [r], t', writes_concat hrun hw, by simp [hlen], hi', ?_, ?_⟩
    · rw [List.foldl_append]
      exact htext'
    · rw [lastReturned, lastStored, List.zip_append hlen.symm, List.filter_append,
        List.filter_append]
      by_cases hacc : buf.len ≤ PAGE_SIZE ∧ buf.ok = true
      · simp [hr.mpr hacc, hacc]
      · have hne : ¬ r = buf.len := fun heq => hacc (hr.mp heq)
        simpa [hne, hacc, lastReturned, lastStored] using hlast

/-- **The string that a sequence of writes leaves is the one stored last** exactly when it is
intact. -/
theorem foldl_nextText_eq_iff (bufs : List UserCopy) :
    bufs.foldl nextText [] = lastStored bufs ↔ Intact bufs := by
  induction bufs using List.reverseRecOn with
  | nil => simp [lastStored, Intact]
  | append_singleton bufs buf ih =>
    rw [List.foldl_append, List.foldl_cons, List.foldl_nil, nextText]
    by_cases hlt : PAGE_SIZE < buf.len
    · -- it is refused and changes neither
      have hle : ¬ buf.len ≤ PAGE_SIZE := by omega
      rw [if_pos hlt]
      have hstored : lastStored (bufs ++ [buf]) = lastStored bufs := by simp [lastStored, hle]
      rw [hstored, ih, Intact, Intact, hstored]
      simp [hle]
    · have hle : buf.len ≤ PAGE_SIZE := Nat.not_lt.mp hlt
      have hlast : ((bufs ++ [buf]).filter fun b => b.len ≤ PAGE_SIZE).getLast? = some buf := by
        simp [hle]
      rw [if_neg hlt, Intact, hlast]
      cases hok : buf.ok with
      | true =>
        have hstored : lastStored (bufs ++ [buf]) = stored buf := by simp [lastStored, hle, hok]
        rw [if_pos rfl, hstored]
        refine iff_of_true rfl fun b hb => ?_
        obtain rfl := Option.some.inj hb
        exact Or.inl hok
      | false =>
        rw [if_neg (by simp)]
        constructor
        · intro h b hb
          obtain rfl := Option.some.inj hb
          exact Or.inr h
        · intro h
          rcases h buf rfl with hb | hb
          · exact absurd hb (by simp [hok])
          · exact hb

/-- **What failed writes leave.**  After every sequence of writes that stay inside the page, the
string that `ct_seq_show` parses is the one stored by the last write that returned its length
exactly when no write that failed has copied another string over it since. -/
theorem selection_kept_iff (bufs : List UserCopy) (h : ∀ buf ∈ bufs, WriteFits buf ∧ Zeroed buf) :
    ∃ rs t, writes File.init bufs = .ok (rs, t) ∧
      (t.cookieBuf.cstring 0 = .ok (lastReturned bufs rs) ↔ Intact bufs) := by
  obtain ⟨rs, t, hrun, -, -, htext, hlast⟩ := writes_text h
  refine ⟨rs, t, hrun, ?_⟩
  rw [htext, hlast, Except.ok.injEq]
  exact foldl_nextText_eq_iff bufs

/-- "12" with a newline, and a write of three bytes of which one is copied. -/
def partialCopy : List UserCopy :=
  [.of [49, 50, 10], ⟨[55, 0, 0], false, by simp⟩]

theorem partialCopy_fits : ∀ buf ∈ partialCopy, WriteFits buf ∧ Zeroed buf := by
  intro buf hbuf
  rcases List.mem_cons.mp hbuf with rfl | hbuf
  · exact ⟨by simp [WriteFits, UserCopy.len, UserCopy.of, PAGE_SIZE],
      fun h => absurd h (by simp [UserCopy.of])⟩
  · obtain rfl := List.mem_singleton.mp hbuf
    exact ⟨by simp [WriteFits, UserCopy.len, PAGE_SIZE], fun _ => ⟨[55], 2, by decide, rfl⟩⟩

theorem selection_kept_iff_partialCopy : ∃ rs t, writes File.init partialCopy = .ok (rs, t) ∧
    (t.cookieBuf.cstring 0 = .ok (lastReturned partialCopy rs) ↔ Intact partialCopy) :=
  selection_kept_iff partialCopy partialCopy_fits

/-- **A failed write selects another process**: after the write that faults process 7 is
selected, not 12. -/
theorem failed_write_selects : ¬ ∀ bufs : List UserCopy,
    (∀ buf ∈ bufs, WriteFits buf ∧ Zeroed buf) →
    ∃ rs t, writes File.init bufs = .ok (rs, t) ∧
      t.cookieBuf.cstring 0 = .ok (lastReturned bufs rs) := by
  intro h
  obtain ⟨rs, t, hrun, htext⟩ := h partialCopy partialCopy_fits
  obtain ⟨rs', t', hrun', -, -, htext', hlast⟩ := writes_text partialCopy_fits
  obtain ⟨rfl, rfl⟩ := Prod.mk.inj (Except.ok.inj (hrun.symm.trans hrun'))
  have heq := Except.ok.inj (htext'.symm.trans htext)
  rw [hlast] at heq
  exact absurd heq (by decide)

end OsLabs.SingleFile
