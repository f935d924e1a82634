/-
# Two streams over one descriptor: 1_thread.c and 1.c

Both programs of `8/open_file/src` make two streams from one descriptor with `fdopen`, so the
streams share an offset and keep a buffer each.  In `1_thread.c` a thread reads each stream until
`fscanf` no longer returns 1; in `1.c` one loop reads a character from the first stream and one
from the second, as long as one of them returned 1.  `pthread_create` and `pthread_join` succeed.

The steps of the threads are the model of both: every step of `1.c` is one of them, or none
(`Main.step_cases`).  So what they keep (`Inv`) holds of both programs.
-/
import OsLabs.Lib.ForkJoin
import OsLabs.Lib.OpenFile
import Mathlib.Logic.Function.Basic
import Mathlib.Data.List.Perm.Basic
import Mathlib.Data.List.Sigma

namespace OsLabs.SharedRead

variable {α : Type}

/-! ## 1. The programs -/

/-- The next step of `thread_start`: `fscanf`, `fprintf` of the character it has stored, or none
after the loop. -/
inductive Pc (α : Type)
  | fscanf
  | fprintf (c : α)
  | returned
deriving DecidableEq, Repr

/-- A thread and its stream. -/
structure Reader (α : Type) where
  fs : InStream α
  pc : Pc α

/-- The description that the streams share, the threads, and what has been printed: the number
of the thread and the character. -/
structure State (α : Type) where
  fd : OpenFile
  reader : Fin 2 → Reader α
  stdout : List (Fin 2 × α)

/-- After `fdopen` and `setvbuf`. -/
def start : State α := ⟨OpenFile.opened false, fun _ => ⟨⟨[], false⟩, .fscanf⟩, []⟩

/-- A step of `thread_start` in thread `i`, with buffers of `B` bytes. -/
def thread (file : List α) (B : Nat) (i : Fin 2) (s : State α) : Option (State α) :=
  match (s.reader i).pc with
  | .fscanf =>
    match (s.reader i).fs.fscanf B file s.fd with
    | .refill fd fs =>
      some { s with fd := fd, reader := Function.update s.reader i ⟨fs, .fscanf⟩ }
    | .char c fs => some { s with reader := Function.update s.reader i ⟨fs, .fprintf c⟩ }
    | .eof => some { s with reader := Function.update s.reader i ⟨(s.reader i).fs, .returned⟩ }
  | .fprintf c =>
    some { s with reader := Function.update s.reader i ⟨(s.reader i).fs, .fscanf⟩,
                  stdout := s.stdout ++ [(i, c)] }
  | .returned => none

/-- The threads of `1_thread.c`; its `main` closes nothing. -/
def threads (file : List α) (B : Nat) : ForkJoin 2 (State α) where
  init := start
  thread := thread file B
  done i s := match (s.reader i).pc with
    | .returned => true
    | _ => false
  close _ s := s

/-- The next step of the `main` of `1.c`. -/
inductive MainPc (α : Type)
  | loop
  | fscanf (i : Fin 2)
  | fprintf (i : Fin 2) (c : α)
  | returned
deriving DecidableEq, Repr

/-- `1.c`: the streams and their flags (`fs1` is number 0). -/
structure Main (α : Type) where
  fd : OpenFile
  fs : Fin 2 → InStream α
  flag : Fin 2 → Bool
  pc : MainPc α
  stdout : List (Fin 2 × α)

/-- The next statement after the one for stream `i`. -/
def MainPc.after : Fin 2 → MainPc α
  | 0 => .fscanf 1
  | 1 => .loop

/-- A step of the `main` of `1.c`. -/
def Main.step (file : List α) (B : Nat) (s : Main α) : Option (Main α) :=
  match s.pc with
  | .loop => some { s with pc := if s.flag 0 || s.flag 1 then .fscanf 0 else .returned }
  | .fscanf i =>
    match (s.fs i).fscanf B file s.fd with
    | .refill fd fs => some { s with fd := fd, fs := Function.update s.fs i fs }
    | .char c fs =>
      some { s with fs := Function.update s.fs i fs, flag := Function.update s.flag i true,
                    pc := .fprintf i c }
    | .eof => some { s with flag := Function.update s.flag i false, pc := .after i }
  | .fprintf i c => some { s with stdout := s.stdout ++ [(i, c)], pc := .after i }
  | .returned => none

/-- `1.c`, which has one step at a time. -/
def main (file : List α) (B : Nat) : Machine (Main α) Unit where
  init := ⟨OpenFile.opened false, fun _ => ⟨[], false⟩, fun _ => true, .loop, []⟩
  step s _ := s.step file B

/-! ## 2. What the threads keep -/

/-- The character a thread is about to print. -/
def Pc.hand : Pc α → List α
  | .fprintf c => [c]
  | _ => []

/-- What reader `i` has printed. -/
def printed (stdout : List (Fin 2 × α)) (i : Fin 2) : List α :=
  (stdout.filter fun x => x.1 = i).map Prod.snd

/-- What reader `i` has got from the file: printed, in hand, and in its buffer. -/
def State.held (s : State α) (i : Fin 2) : List α :=
  printed s.stdout i ++ (s.reader i).pc.hand ++ (s.reader i).fs.buffer

/-- What lies before the offset is divided between the readers, each part in the file's order,
and the marks and returns mean that there is nothing after it. -/
structure Inv (file : List α) (s : State α) : Prop where
  divided : (s.held 0 ++ s.held 1).Perm (file.take s.fd.offset)
  ordered : ∀ i, (s.held i).Sublist (file.take s.fd.offset)
  eof : ∀ i, (s.reader i).fs.eof = true → file.length ≤ s.fd.offset
  returned : ∀ i, (s.reader i).pc = .returned →
    (s.reader i).fs.eof = true ∧ (s.reader i).fs.buffer = []

@[simp] theorem printed_nil (i : Fin 2) : printed ([] : List (Fin 2 × α)) i = [] := rfl

theorem printed_append_self (stdout : List (Fin 2 × α)) (i : Fin 2) (c : α) :
    printed (stdout ++ [(i, c)]) i = printed stdout i ++ [c] := by
  simp [printed]

theorem printed_append_other (stdout : List (Fin 2 × α)) {i j : Fin 2} (h : i ≠ j) (c : α) :
    printed (stdout ++ [(i, c)]) j = printed stdout j := by
  simp [printed, h]

/-- All that is printed is printed by one of the two. -/
theorem printed_perm : ∀ stdout : List (Fin 2 × α),
    (printed stdout 0 ++ printed stdout 1).Perm (stdout.map Prod.snd) := by
  intro stdout
  induction stdout with
  | nil => exact List.Perm.refl _
  | cons p rest ih =>
    obtain ⟨i, c⟩ := p
    obtain rfl | rfl : i = 0 ∨ i = 1 := by omega
    · simpa [printed] using ih
    · have hcons : printed ((1, c) :: rest) 0 ++ printed ((1, c) :: rest) 1 =
          printed rest 0 ++ c :: printed rest 1 := by simp [printed]
      rw [hcons, List.map_cons]
      exact List.perm_middle.trans (ih.cons c)

/-! ## 3. The steps of the threads -/

variable {file : List α} {B : Nat} {i : Fin 2} {s s' : State α}

/-- Thread `i` goes on as `r`. -/
def State.set (s : State α) (i : Fin 2) (r : Reader α) : Fin 2 → Reader α :=
  Function.update s.reader i r

/-- **What a step of a thread does**: it moves a stretch of the file into an empty buffer, a
character from the buffer into its hand, or one from its hand to the output; or it returns at
the end of the file. -/
theorem thread_cases (h : thread file B i s = some s') :
    ((s.reader i).pc = .fscanf ∧ (s.reader i).fs.buffer = [] ∧ (s.reader i).fs.eof = false ∧
      s' = ⟨(s.fd.read file B).2, s.set i ⟨⟨(s.fd.read file B).1,
        (s.fd.read file B).1.isEmpty⟩, .fscanf⟩, s.stdout⟩) ∨
    (∃ c buffer, (s.reader i).pc = .fscanf ∧ (s.reader i).fs.buffer = c :: buffer ∧
      s' = ⟨s.fd, s.set i ⟨⟨buffer, (s.reader i).fs.eof⟩, .fprintf c⟩, s.stdout⟩) ∨
    ((s.reader i).pc = .fscanf ∧ (s.reader i).fs.buffer = [] ∧ (s.reader i).fs.eof = true ∧
      s' = ⟨s.fd, s.set i ⟨(s.reader i).fs, .returned⟩, s.stdout⟩) ∨
    (∃ c, (s.reader i).pc = .fprintf c ∧
      s' = ⟨s.fd, s.set i ⟨(s.reader i).fs, .fscanf⟩, s.stdout ++ [(i, c)]⟩) := by
  unfold thread at h
  cases hpc : (s.reader i).pc with
  | returned => simp [hpc] at h
  | fprintf c =>
    simp only [hpc, Option.some.injEq] at h
    exact .inr (.inr (.inr ⟨c, rfl, h.symm⟩))
  | fscanf =>
    simp only [hpc, InStream.fscanf] at h
    cases hbuf : (s.reader i).fs.buffer with
    | cons c buffer =>
      simp only [hbuf, Option.some.injEq] at h
      exact .inr (.inl ⟨c, buffer, rfl, rfl, h.symm⟩)
    | nil =>
      cases heof : (s.reader i).fs.eof with
      | false =>
        simp only [hbuf, heof, Bool.false_eq_true, if_false, Option.some.injEq] at h
        exact .inl ⟨rfl, rfl, rfl, h.symm⟩
      | true =>
        simp only [hbuf, heof, if_true, Option.some.injEq] at h
        exact .inr (.inr (.inl ⟨rfl, rfl, rfl, h.symm⟩))

theorem thread_refill {fd : OpenFile} {fs : InStream α} (hpc : (s.reader i).pc = .fscanf)
    (h : (s.reader i).fs.fscanf B file s.fd = .refill fd fs) :
    thread file B i s = some ⟨fd, s.set i ⟨fs, .fscanf⟩, s.stdout⟩ := by
  simp only [thread, hpc, h, State.set]

theorem thread_char {c : α} {fs : InStream α} (hpc : (s.reader i).pc = .fscanf)
    (h : (s.reader i).fs.fscanf B file s.fd = .char c fs) :
    thread file B i s = some ⟨s.fd, s.set i ⟨fs, .fprintf c⟩, s.stdout⟩ := by
  simp only [thread, hpc, h, State.set]

theorem thread_eof (hpc : (s.reader i).pc = .fscanf)
    (h : (s.reader i).fs.fscanf B file s.fd = .eof) :
    thread file B i s = some ⟨s.fd, s.set i ⟨(s.reader i).fs, .returned⟩, s.stdout⟩ := by
  simp only [thread, hpc, h, State.set]

theorem thread_fprintf {c : α} (hpc : (s.reader i).pc = .fprintf c) :
    thread file B i s =
      some ⟨s.fd, s.set i ⟨(s.reader i).fs, .fscanf⟩, s.stdout ++ [(i, c)]⟩ := by
  simp only [thread, hpc, State.set]

theorem inv_start : Inv file start where
  divided := by simp [State.held, start, Pc.hand, OpenFile.opened]
  ordered i := by simp [State.held, start, Pc.hand]
  eof i h := absurd h (by simp [start])
  returned i h := absurd h (by simp [start])

@[simp] theorem set_self (s : State α) (i : Fin 2) (r : Reader α) : s.set i r i = r :=
  Function.update_self ..

theorem set_of_ne {j : Fin 2} (s : State α) (r : Reader α) (h : j ≠ i) :
    s.set i r j = s.reader j := Function.update_of_ne h ..

/-- **A step that moves nothing out of the file**: one reader's part stays as it is. -/
theorem Inv.move (h : Inv file s) {r : Reader α} {stdout : List (Fin 2 × α)}
    (hout : ∀ j, j ≠ i → printed stdout j = printed s.stdout j)
    (hheld : printed stdout i ++ r.pc.hand ++ r.fs.buffer = s.held i)
    (heof : r.fs.eof = (s.reader i).fs.eof)
    (hret : r.pc = .returned → r.fs.eof = true ∧ r.fs.buffer = []) :
    Inv file ⟨s.fd, s.set i r, stdout⟩ := by
  have hsame : ∀ j, State.held ⟨s.fd, s.set i r, stdout⟩ j = s.held j := by
    intro j
    by_cases hj : j = i
    · subst hj
      simpa [State.held] using hheld
    · simp [State.held, set_of_ne s r hj, hout j hj]
  constructor
  · rw [hsame, hsame]
    exact h.divided
  · intro j
    rw [hsame]
    exact h.ordered j
  · intro j hj
    by_cases hji : j = i
    · subst hji
      simp only [set_self, heof] at hj
      exact h.eof j hj
    · simp only [set_of_ne s r hji] at hj
      exact h.eof j hj
  · intro j hj
    by_cases hji : j = i
    · subst hji
      simp only [set_self] at hj ⊢
      exact hret hj
    · simp only [set_of_ne s r hji] at hj ⊢
      exact h.returned j hj

/-- **A refill** gives one reader the next stretch of the file. -/
theorem Inv.refill (h : Inv file s) (hB : 0 < B) (hpc : (s.reader i).pc = .fscanf)
    (hbuf : (s.reader i).fs.buffer = []) :
    Inv file ⟨(s.fd.read file B).2, s.set i ⟨⟨(s.fd.read file B).1,
      (s.fd.read file B).1.isEmpty⟩, .fscanf⟩, s.stdout⟩ := by
  set r : Reader α := ⟨⟨(s.fd.read file B).1, (s.fd.read file B).1.isEmpty⟩, .fscanf⟩ with hr
  set s' : State α := ⟨(s.fd.read file B).2, s.set i r, s.stdout⟩ with hs'
  have htake : file.take s'.fd.offset = file.take s.fd.offset ++ (s.fd.read file B).1 :=
    OpenFile.take_read s.fd file B
  have hself : s'.held i = s.held i ++ (s.fd.read file B).1 := by
    simp [State.held, hs', hr, hpc, hbuf, Pc.hand]
  have hother : ∀ j, j ≠ i → s'.held j = s.held j := fun j hj => by
    simp [State.held, hs', set_of_ne s r hj]
  have hle : s.fd.offset ≤ s'.fd.offset := Nat.le_add_right _ _
  constructor
  · rw [htake]
    refine List.Perm.trans ?_ (h.divided.append_right _)
    obtain rfl | rfl : i = 0 ∨ i = 1 := by omega
    · rw [hself, hother 1 (by decide), List.append_assoc, List.append_assoc]
      exact List.perm_append_comm.append_left _
    · rw [hself, hother 0 (by decide), List.append_assoc]
  · intro j
    rw [htake]
    by_cases hj : j = i
    · subst hj
      rw [hself]
      exact (h.ordered j).append (List.Sublist.refl _)
    · rw [hother j hj]
      exact (h.ordered j).trans (List.sublist_append_left _ _)
  · intro j hj
    refine Nat.le_trans ?_ hle
    by_cases hji : j = i
    · subst hji
      have hnil : (s.fd.read file B).1 = [] := by simpa [hs', hr] using hj
      exact OpenFile.length_le_of_read_nil hB hnil
    · simp only [hs', set_of_ne s r hji] at hj
      exact h.eof j hj
  · intro j hj
    by_cases hji : j = i
    · subst hji
      simp [hs', hr] at hj
    · simp only [hs', set_of_ne s r hji] at hj ⊢
      exact h.returned j hj

/-- **Every step of a thread keeps the division.** -/
theorem Inv.step (h : Inv file s) (hB : 0 < B) (hst : thread file B i s = some s') :
    Inv file s' := by
  obtain ⟨hpc, hbuf, -, rfl⟩ | ⟨c, buffer, hpc, hbuf, rfl⟩ | ⟨hpc, hbuf, heof, rfl⟩ |
    ⟨c, hpc, rfl⟩ := thread_cases hst
  · exact h.refill hB hpc hbuf
  · refine h.move (fun _ _ => rfl) ?_ rfl fun hret => absurd hret (by simp)
    simp [State.held, hpc, hbuf, Pc.hand]
  · refine h.move (fun _ _ => rfl) ?_ rfl fun _ => ⟨heof, hbuf⟩
    simp [State.held, hpc, Pc.hand]
  · refine h.move (fun j hj => printed_append_other _ (Ne.symm hj) c) ?_ rfl
      fun hret => absurd hret (by simp)
    simp [State.held, hpc, Pc.hand, printed_append_self]

/-! ## 4. The threads end -/

/-- The steps a reader has still to make for what it has got, and to see the end and return. -/
def Reader.load (r : Reader α) : Nat :=
  2 * r.fs.buffer.length + r.pc.hand.length + (if r.fs.eof then 0 else 1) +
    (match r.pc with
      | .returned => 0
      | _ => 1)

/-- A byte takes at most three steps: into a buffer, into a hand, to the output. -/
def State.load (file : List α) (s : State α) : Nat :=
  3 * (file.length - s.fd.offset) + ((s.reader 0).load + (s.reader 1).load)

theorem load_set (s : State α) (i : Fin 2) (r : Reader α) :
    ((s.set i r 0).load + (s.set i r 1).load) + (s.reader i).load =
      ((s.reader 0).load + (s.reader 1).load) + r.load := by
  obtain rfl | rfl : i = 0 ∨ i = 1 := by omega
  · rw [set_self, set_of_ne s r (by decide)]
    omega
  · rw [set_self, set_of_ne s r (by decide)]
    omega

/-- **Every step of a thread uses up load.** -/
theorem load_step (hst : thread file B i s = some s') : s'.load file < s.load file := by
  obtain ⟨hpc, hbuf, heof, rfl⟩ | ⟨c, buffer, hpc, hbuf, rfl⟩ | ⟨hpc, hbuf, heof, rfl⟩ |
    ⟨c, hpc, rfl⟩ := thread_cases hst
  · have hload := load_set s i
      ⟨⟨(s.fd.read file B).1, (s.fd.read file B).1.isEmpty⟩, .fscanf⟩
    have hle := OpenFile.length_read_le s.fd file B
    simp only [State.load, OpenFile.offset_read]
    simp only [Reader.load, hpc, hbuf, heof, Pc.hand, List.length_nil, Bool.false_eq_true,
      if_false] at hload ⊢
    cases hdata : (s.fd.read file B).1 with
    | nil =>
      simp only [hdata, List.isEmpty_nil, List.length_nil, if_true] at hload ⊢
      omega
    | cons c rest =>
      simp only [hdata, List.isEmpty_cons, List.length_cons, Bool.false_eq_true,
        if_false] at hload hle ⊢
      omega
  · have hload := load_set s i ⟨⟨buffer, (s.reader i).fs.eof⟩, .fprintf c⟩
    simp only [State.load]
    simp only [Reader.load, hpc, hbuf, Pc.hand, List.length_cons, List.length_nil] at hload ⊢
    omega
  · have hload := load_set s i ⟨(s.reader i).fs, .returned⟩
    simp only [State.load]
    simp only [Reader.load, hpc, Pc.hand, List.length_nil] at hload ⊢
    omega
  · have hload := load_set s i ⟨(s.reader i).fs, .fscanf⟩
    simp only [State.load]
    simp only [Reader.load, hpc, Pc.hand, List.length_cons, List.length_nil] at hload ⊢
    omega

/-- A thread that has not returned can go on. -/
theorem thread_enabled (h : (s.reader i).pc ≠ .returned) : ∃ s', thread file B i s = some s' := by
  unfold thread
  cases hpc : (s.reader i).pc with
  | returned => exact absurd hpc h
  | fprintf c => exact ⟨_, rfl⟩
  | fscanf =>
    cases hscan : (s.reader i).fs.fscanf B file s.fd with
    | refill fd fs => exact ⟨_, rfl⟩
    | char c fs => exact ⟨_, rfl⟩
    | eof => exact ⟨_, rfl⟩

theorem done_eq_true : (threads file B).done i s = true ↔ (s.reader i).pc = .returned := by
  simp only [threads]
  cases (s.reader i).pc <;> simp

theorem threads_lawful (hB : 0 < B) :
    (threads file B).Lawful (Inv file) (State.load file) where
  init := inv_start
  step hs hst := ⟨hs.step hB hst, load_step hst⟩
  enabled _ hdone := thread_enabled fun hret => by
    rw [done_eq_true.mpr hret] at hdone
    exact absurd hdone (by simp)
  ended hdone := by
    simp only [threads, thread, done_eq_true.mp hdone]
  stays {i j s s'} hst hdone := by
    rw [done_eq_true] at hdone ⊢
    by_cases hij : i = j
    · subst hij
      simp [threads, thread, hdone] at hst
    · have hother : s'.reader i = s.reader i := by
        obtain ⟨-, -, -, rfl⟩ | ⟨_, _, -, -, rfl⟩ | ⟨-, -, -, rfl⟩ | ⟨_, -, rfl⟩ :=
          thread_cases hst <;> exact set_of_ne s _ hij
      rw [hother]
      exact hdone
  close := rfl

/-! ## 5. The output -/

/-- The output is the bytes of the file, and each reader has printed its part in order. -/
def Splits (file : List α) (stdout : List (Fin 2 × α)) : Prop :=
  (stdout.map Prod.snd).Perm file ∧ ∀ i, (printed stdout i).Sublist file

/-- **When both readers have returned**, the whole file is printed. -/
theorem Inv.splits (h : Inv file s) (hret : ∀ i, (s.reader i).pc = .returned) :
    Splits file s.stdout := by
  have hheld : ∀ i, s.held i = printed s.stdout i := fun i => by
    simp [State.held, hret i, (h.returned i (hret i)).2, Pc.hand]
  have hall : file.take s.fd.offset = file :=
    List.take_of_length_le (h.eof 0 (h.returned 0 (hret 0)).1)
  refine ⟨?_, fun i => ?_⟩
  · have hdiv := h.divided
    rw [hheld, hheld, hall] at hdiv
    exact (printed_perm s.stdout).symm.trans hdiv
  · have hord := h.ordered i
    rw [hheld, hall] at hord
    exact hord

/-- **The threads split the file**, whatever the order of their steps. -/
theorem threads_endsIn (file : List α) (hB : 0 < B) :
    (threads file B).machine.EndsIn fun s => s.closed = 2 ∧ Splits file s.data.stdout :=
  (threads_lawful hB).endsIn (Q := fun d => Splits file d.stdout) fun _ hs hdone =>
    hs.splits fun i => done_eq_true.mp (hdone i)

/-! ## 6. 1.c takes steps of the threads -/

namespace Main

variable {s s' : Main α}

/-- A reader of `1.c` as a thread: the one whose character is about to be printed, one that has
returned EOF, or one that reads on. -/
def threadPc (s : Main α) (i : Fin 2) : Pc α :=
  match s.pc with
  | .fprintf j c => if j = i then .fprintf c else if s.flag i then .fscanf else .returned
  | _ => if s.flag i then .fscanf else .returned

def toThreads (s : Main α) : State α := ⟨s.fd, fun i => ⟨s.fs i, s.threadPc i⟩, s.stdout⟩

/-- What the loop keeps. -/
structure LoopInv (file : List α) (s : Main α) : Prop where
  inv : Inv file s.toThreads
  prints : ∀ i c, s.pc = .fprintf i c → s.flag i = true
  returned : s.pc = .returned → ∀ i, s.flag i = false

/-- How far the round of the loop is from its end; a step that moves a byte pays for the next
steps that move none. -/
def rank (s : Main α) : Nat :=
  match s.pc with
  | .loop => if s.flag 0 || s.flag 1 then 4 else 1
  | .fscanf 0 => 3
  | .fscanf 1 => if s.flag 0 then 5 else 2
  | .fprintf _ _ => 0
  | .returned => 0

theorem rank_le (s : Main α) : s.rank ≤ 5 := by
  unfold rank
  split <;> (try split) <;> omega

theorem threadPc_of_ne {i : Fin 2} (h : ∀ c, s.pc ≠ .fprintf i c) :
    s.threadPc i = if s.flag i then .fscanf else .returned := by
  unfold threadPc
  split
  · next j c hpc =>
    have hji : j ≠ i := fun hji => h c (hji ▸ hpc)
    rw [if_neg hji]
  · rfl

/-- The readers of `1.c` after a step for reader `i`. -/
theorem toThreads_eq {i : Fin 2} {r : Reader α} (hfs : ∀ j, j ≠ i → s'.fs j = s.fs j)
    (hpc : ∀ j, j ≠ i → s'.threadPc j = s.threadPc j) (hr : r = ⟨s'.fs i, s'.threadPc i⟩) :
    s'.toThreads = ⟨s'.fd, s.toThreads.set i r, s'.stdout⟩ := by
  have hreader : s'.toThreads.reader = s.toThreads.set i r := by
    funext j
    by_cases hj : j = i
    · subst hj
      rw [set_self, hr]
      rfl
    · rw [set_of_ne _ _ hj]
      simp [toThreads, hfs j hj, hpc j hj]
  rw [← hreader]
  rfl

theorem threadPc_after {i j : Fin 2} (h : s.pc = .after j) :
    s.threadPc i = if s.flag i then .fscanf else .returned := by
  refine threadPc_of_ne fun c hc => ?_
  rw [h] at hc
  obtain rfl | rfl : j = 0 ∨ j = 1 := by omega
  · exact absurd hc (by simp [MainPc.after])
  · exact absurd hc (by simp [MainPc.after])

theorem threadPc_fscanf {i j : Fin 2} (h : s.pc = .fscanf j) :
    s.threadPc i = if s.flag i then .fscanf else .returned :=
  threadPc_of_ne fun c hc => by
    rw [h] at hc
    exact absurd hc (by simp)

/-- **Every step of `1.c` is a step of one of the threads**, or moves nothing and brings the
round nearer to its end. -/
theorem step_cases (h : LoopInv file s) (hst : s.step file B = some s') :
    (∃ i, thread file B i s.toThreads = some s'.toThreads) ∨
      (s'.toThreads = s.toThreads ∧ s'.rank < s.rank) := by
  unfold step at hst
  cases hpc : s.pc with
  | returned => simp [hpc] at hst
  | loop =>
    simp only [hpc, Option.some.injEq] at hst
    subst hst
    right
    constructor
    · unfold toThreads threadPc
      simp only [hpc]
      cases s.flag 0 || s.flag 1 <;> rfl
    · simp only [rank, hpc]
      cases hflag : s.flag 0 || s.flag 1 <;> simp
  | fprintf i c =>
    simp only [hpc, Option.some.injEq] at hst
    left
    have hnow : s.threadPc i = .fprintf c := by simp [threadPc, hpc]
    have hafter : s'.pc = .after i := by rw [← hst]
    have heq : s'.toThreads =
        ⟨s.fd, s.toThreads.set i ⟨s.fs i, .fscanf⟩, s.stdout ++ [(i, c)]⟩ := by
      rw [toThreads_eq (s := s) (i := i) (r := ⟨s.fs i, .fscanf⟩)]
      · rw [← hst]
      · intro j _
        rw [← hst]
      · intro j hj
        rw [threadPc_after hafter, threadPc_of_ne, ← hst]
        intro c' hc'
        rw [hpc] at hc'
        exact hj (MainPc.fprintf.inj hc').1.symm
      · rw [threadPc_after hafter, ← hst]
        simp [h.prints i c hpc]
    exact ⟨i, by rw [heq]; exact thread_fprintf hnow⟩
  | fscanf i =>
    have hnow : ∀ j, s.threadPc j = if s.flag j then .fscanf else .returned := fun j =>
      threadPc_fscanf hpc
    have hreading : s.flag i = true → s.threadPc i = .fscanf := fun hflag => by
      rw [hnow, if_pos hflag]
    -- a stream whose flag is down has seen the end of the file, and `fscanf` returns EOF again
    have hflag : (s.fs i).fscanf B file s.fd ≠ .eof → s.flag i = true := fun hne => by
      by_contra hdown
      obtain ⟨heof, hbuf⟩ := h.inv.returned i (by simp [toThreads, hnow, hdown])
      exact hne (by simp only [toThreads] at heof hbuf; simp [InStream.fscanf, heof, hbuf])
    simp only [hpc] at hst
    cases hscan : (s.fs i).fscanf B file s.fd with
    | refill fd fs =>
      simp only [hscan, Option.some.injEq] at hst
      left
      have hpc' : s'.pc = .fscanf i := by rw [← hst, ← hpc]
      have heq : s'.toThreads = ⟨fd, s.toThreads.set i ⟨fs, .fscanf⟩, s.stdout⟩ := by
        rw [toThreads_eq (s := s) (i := i) (r := ⟨fs, .fscanf⟩)]
        · rw [← hst]
        · intro j hj
          simp [← hst, Function.update_of_ne hj]
        · intro j _
          rw [threadPc_fscanf hpc', hnow, ← hst]
        · rw [threadPc_fscanf hpc', ← hst]
          simp [hflag (by simp [hscan])]
      exact ⟨i, by rw [heq]; exact thread_refill (hreading (hflag (by simp [hscan]))) hscan⟩
    | char c fs =>
      simp only [hscan, Option.some.injEq] at hst
      left
      have heq : s'.toThreads = ⟨s.fd, s.toThreads.set i ⟨fs, .fprintf c⟩, s.stdout⟩ := by
        rw [toThreads_eq (s := s) (i := i) (r := ⟨fs, .fprintf c⟩)]
        · rw [← hst]
        · intro j hj
          simp [← hst, Function.update_of_ne hj]
        · intro j hj
          rw [hnow, ← hst]
          simp [threadPc, Ne.symm hj, Function.update_of_ne hj]
        · simp [← hst, threadPc]
      exact ⟨i, by rw [heq]; exact thread_char (hreading (hflag (by simp [hscan]))) hscan⟩
    | eof =>
      simp only [hscan, Option.some.injEq] at hst
      have hpc' : s'.pc = .after i := by rw [← hst]
      have heq : s'.toThreads = ⟨s.fd, s.toThreads.set i ⟨s.fs i, .returned⟩, s.stdout⟩ := by
        rw [toThreads_eq (s := s) (i := i) (r := ⟨s.fs i, .returned⟩)]
        · rw [← hst]
        · intro j _
          rw [← hst]
        · intro j hj
          rw [threadPc_after hpc', hnow, ← hst]
          simp [Function.update_of_ne hj]
        · rw [threadPc_after hpc', ← hst]
          simp
      by_cases hup : s.flag i = true
      · left
        exact ⟨i, by rw [heq]; exact thread_eof (hreading hup) hscan⟩
      · right
        have hsame : s.toThreads.reader i = ⟨s.fs i, .returned⟩ := by simp [toThreads, hnow, hup]
        constructor
        · rw [heq, State.set, ← hsame, Function.update_eq_self]
          rfl
        · obtain rfl | rfl : i = 0 ∨ i = 1 := by omega
          · simp [← hst, rank, MainPc.after, hpc]
          · cases hflag0 : s.flag 0 <;> simp [← hst, rank, MainPc.after, hpc, hflag0]

/-! ## 7. 1.c ends -/

theorem after_cases (i : Fin 2) :
    (MainPc.after i : MainPc α) = .fscanf 1 ∨ (MainPc.after i : MainPc α) = .loop := by
  obtain rfl | rfl : i = 0 ∨ i = 1 := by omega
  · exact .inl rfl
  · exact .inr rfl

/-- Where a step of `1.c` goes: it returns with both flags down, and prints with one up. -/
theorem pc_cases (hst : s.step file B = some s') :
    (s'.pc = .returned ∧ ∀ i, s'.flag i = false) ∨
      (∃ i c, s'.pc = .fprintf i c ∧ s'.flag i = true) ∨ (∃ i, s'.pc = .fscanf i) ∨
      s'.pc = .loop := by
  unfold step at hst
  split at hst
  · obtain rfl := Option.some.inj hst
    cases hflag : s.flag 0 || s.flag 1 with
    | true => exact .inr (.inr (.inl ⟨0, rfl⟩))
    | false =>
      rw [Bool.or_eq_false_iff] at hflag
      refine .inl ⟨rfl, fun i => ?_⟩
      obtain rfl | rfl : i = 0 ∨ i = 1 := by omega
      · exact hflag.1
      · exact hflag.2
  · next i hpc =>
    split at hst
    · obtain rfl := Option.some.inj hst
      exact .inr (.inr (.inl ⟨i, hpc⟩))
    · next c fs _ =>
      obtain rfl := Option.some.inj hst
      exact .inr (.inl ⟨i, c, rfl, Function.update_self ..⟩)
    · obtain rfl := Option.some.inj hst
      exact .inr (.inr ((after_cases i).imp (fun h => ⟨1, h⟩) id))
  · next i c _ =>
    obtain rfl := Option.some.inj hst
    exact .inr (.inr ((after_cases i).imp (fun h => ⟨1, h⟩) id))
  · exact absurd hst (by simp)

theorem LoopInv.step (h : LoopInv file s) (hB : 0 < B) (hst : s.step file B = some s') :
    LoopInv file s' := by
  have hinv : Inv file s'.toThreads := by
    rcases step_cases h hst with ⟨i, hthr⟩ | ⟨heq, -⟩
    · exact h.inv.step hB hthr
    · rw [heq]
      exact h.inv
  rcases pc_cases hst with ⟨hpc, hflag⟩ | ⟨i, c, hpc, hflag⟩ | ⟨i, hpc⟩ | hpc
  · exact ⟨hinv, fun i c hc => absurd (hpc.symm.trans hc) (by simp), fun _ => hflag⟩
  · refine ⟨hinv, fun j c' hc => ?_, fun hret => absurd (hpc.symm.trans hret) (by simp)⟩
    obtain ⟨rfl, -⟩ := MainPc.fprintf.inj (hpc.symm.trans hc)
    exact hflag
  · exact ⟨hinv, fun i c hc => absurd (hpc.symm.trans hc) (by simp),
      fun hret => absurd (hpc.symm.trans hret) (by simp)⟩
  · exact ⟨hinv, fun i c hc => absurd (hpc.symm.trans hc) (by simp),
      fun hret => absurd (hpc.symm.trans hret) (by simp)⟩

/-- The steps that move a byte, each with the steps of the round that it pays for. -/
def load (file : List α) (s : Main α) : Nat := 6 * s.toThreads.load file + s.rank

theorem load_step (h : LoopInv file s) (hst : s.step file B = some s') :
    s'.load file < s.load file := by
  have hle := s'.rank_le
  unfold load
  rcases step_cases h hst with ⟨i, hthr⟩ | ⟨heq, hlt⟩
  · have hlt := SharedRead.load_step hthr
    omega
  · rw [heq]
    omega

theorem enabled (h : s.pc ≠ .returned) : ∃ s', s.step file B = some s' := by
  unfold step
  cases hpc : s.pc with
  | returned => exact absurd hpc h
  | loop => exact ⟨_, rfl⟩
  | fprintf i c => exact ⟨_, rfl⟩
  | fscanf i =>
    cases hscan : (s.fs i).fscanf B file s.fd with
    | refill fd fs =>
      simp only [hscan]
      exact ⟨_, rfl⟩
    | char c fs =>
      simp only [hscan]
      exact ⟨_, rfl⟩
    | eof =>
      simp only [hscan]
      exact ⟨_, rfl⟩

theorem loopInv_init : LoopInv file (main file B).init where
  inv := inv_start
  prints i c h := absurd h (by simp [main])
  returned h := absurd h (by simp [main])

end Main

/-- **The alternating loop splits the file too.** -/
theorem main_endsIn (file : List α) (hB : 0 < B) :
    (main file B).EndsIn fun s => s.pc = .returned ∧ Splits file s.stdout := by
  refine Machine.endsIn_of_measure (I := Main.LoopInv file) (Main.load file) Main.loopInv_init
    (fun s _ s' hs hst => ⟨hs.step hB hst, Main.load_step hs hst⟩) fun s hs hstuck => ?_
  have hret : s.pc = .returned := by
    by_contra hne
    obtain ⟨s', hst⟩ : ∃ s', s.step file B = some s' := Main.enabled hne
    have hnone : s.step file B = none := hstuck ()
    rw [hst] at hnone
    exact absurd hnone (by simp)
  refine ⟨hret, hs.inv.splits (s := s.toThreads) fun i => ?_⟩
  have hdown := hs.returned hret i
  have hpc : s.threadPc i = .returned := by
    rw [Main.threadPc_of_ne (by simp [hret]), hdown]
    rfl
  exact hpc

/-! ## 8. Every position of the file -/

/-- What is printed of a file whose bytes come with their positions: each position once, by one
reader and with the byte that stands there, and by each reader in increasing order. -/
structure EachByteOnce (content : List UInt8) (stdout : List (Fin 2 × (UInt8 × Nat))) : Prop where
  once : ∀ p (h : p < content.length), ∃ i,
    stdout.filter (fun x => x.2.2 = p) = [(i, (content[p], p))]
  inFile : ∀ x ∈ stdout, x.2.2 < content.length
  increasing : ∀ i, ((printed stdout i).map Prod.snd).Pairwise (· < ·)

variable {content : List UInt8} {stdout : List (Fin 2 × (UInt8 × Nat))}

/-- One byte stands at each position. -/
theorem filter_zipIdx_perm (p : Nat) (h : p < content.length) :
    (content.zipIdx.filter fun x => x.2 = p).Perm [(content[p], p)] := by
  have hnodup : content.zipIdx.Nodup := (List.nodup_zipIdx_map_snd content).of_map
  refine (List.perm_ext_iff_of_nodup (hnodup.filter _) (List.nodup_singleton _)).mpr ?_
  rintro ⟨c, q⟩
  rw [List.mem_filter, List.mem_zipIdx_iff_getElem?, List.mem_singleton, decide_eq_true_iff,
    Prod.mk.injEq]
  constructor
  · rintro ⟨hc, rfl⟩
    rw [List.getElem?_eq_getElem h, Option.some.injEq] at hc
    exact ⟨hc.symm, rfl⟩
  · rintro ⟨rfl, rfl⟩
    exact ⟨List.getElem?_eq_getElem h, rfl⟩

theorem Splits.eachByteOnce (h : Splits content.zipIdx stdout) : EachByteOnce content stdout := by
  obtain ⟨hperm, hsub⟩ := h
  constructor
  · intro p hp
    have hfilter : (stdout.filter fun x => x.2.2 = p).map Prod.snd =
        (stdout.map Prod.snd).filter fun x => x.2 = p := by
      rw [List.filter_map]
      rfl
    have hone : ((stdout.filter fun x => x.2.2 = p).map Prod.snd).Perm [(content[p], p)] := by
      rw [hfilter]
      exact (hperm.filter _).trans (filter_zipIdx_perm p hp)
    obtain ⟨⟨i, x⟩, hlist, hx⟩ := List.map_eq_singleton_iff.mp (List.perm_singleton.mp hone)
    obtain rfl : x = (content[p], p) := hx
    exact ⟨i, hlist⟩
  · intro x hx
    have hmem : x.2 ∈ content.zipIdx := hperm.mem_iff.mp (List.mem_map_of_mem hx)
    simpa using List.snd_lt_of_mem_zipIdx hmem
  · intro i
    have hrange : (content.zipIdx.map Prod.snd).Pairwise (· < ·) := by
      rw [List.zipIdx_map_snd]
      exact List.pairwise_lt_range'
    exact hrange.sublist ((hsub i).map Prod.snd)

/-- Whatever the file and the capacity of the buffers, both programs end, and when they end each
byte of the file has been printed by exactly one of the two readers, in increasing order. -/
theorem streams_split_file (content : List UInt8) {B : Nat} (hB : 0 < B) :
    ((threads content.zipIdx B).machine.EndsIn fun s =>
      s.closed = 2 ∧ EachByteOnce content s.data.stdout) ∧
    (main content.zipIdx B).EndsIn fun s =>
      s.pc = .returned ∧ EachByteOnce content s.stdout :=
  ⟨(threads_endsIn content.zipIdx hB).mono fun _ h => ⟨h.1, h.2.eachByteOnce⟩,
    (main_endsIn content.zipIdx hB).mono fun _ h => ⟨h.1, h.2.eachByteOnce⟩⟩

/-- A file of three bytes and buffers of two. -/
theorem streams_split_file_three :
    0 < 2 ∧ ((threads [97, 98, 99].zipIdx 2).machine.EndsIn fun s =>
      s.closed = 2 ∧ EachByteOnce [97, 98, 99] s.data.stdout) ∧
    (main [97, 98, 99].zipIdx 2).EndsIn fun s =>
      s.pc = .returned ∧ EachByteOnce [97, 98, 99] s.stdout :=
  ⟨by decide, streams_split_file [97, 98, 99] (by decide)⟩

end OsLabs.SharedRead
