/-
# Two descriptors of one file: 2_thread.c and 2.c

Both programs of `8/open_file/src` open `alphabet.txt` twice, so each descriptor has an offset of
its own.  In `2_thread.c` a thread reads each descriptor a byte at a time, for as long as `read`
does not return 0, and writes what it has read; in `2.c` one loop reads a byte from the first and
one from the second, as long as both returned 1.  `pthread_create` and `pthread_join` succeed;
`open` may fail, and a `read` from the descriptor -1 returns -1.

Each thread writes the whole file, and the two copies of it interleave in any way there is
(`copies_interleave`).  But to the loop of a thread -1 is not the end: where `open` has failed it
writes what `c` happens to hold, again and again.
-/
import OsLabs.Files.SharedRead

namespace OsLabs.Copies

open SharedRead (printed printed_append_self printed_append_other)

variable {α : Type}

/-! ## 1. The programs -/

/-- `read(fd, &c, 1)`: the result, the byte stored in `c`, and the description behind it. -/
def readByte (file : List α) : Option OpenFile → Int × Option α × Option OpenFile
  | none => (-1, none, none)
  | some fd => (((fd.read file 1).1.length : Int), (fd.read file 1).1.head?, (fd.read file 1).2)

/-- The next step of `thread_start`: `read`, `write`, or none after the loop. -/
inductive Pc
  | read
  | write
  | returned
deriving DecidableEq, Repr

/-- A thread: its descriptor (`none` if `open` failed), its `c`, and where it is. -/
structure Copier (α : Type) where
  fd : Option OpenFile
  c : α
  pc : Pc

/-- The threads, and what has been written: the number of the thread and the byte. -/
structure State (α : Type) where
  copier : Fin 2 → Copier α
  stdout : List (Fin 2 × α)

/-- What `open` returns, if it succeeds or not. -/
def opened (ok : Bool) : Option OpenFile := if ok then some (OpenFile.opened false) else none

/-- A step of `thread_start` in thread `i`. -/
def thread (file : List α) (i : Fin 2) (s : State α) : Option (State α) :=
  let t := s.copier i
  match t.pc with
  | .read =>
    let r := readByte file t.fd
    some ⟨Function.update s.copier i
      ⟨r.2.2, r.2.1.getD t.c, if r.1 ≠ 0 then .write else .returned⟩, s.stdout⟩
  | .write =>
    some ⟨Function.update s.copier i { t with pc := .read }, s.stdout ++ [(i, t.c)]⟩
  | .returned => none

/-- `2_thread.c`: which of the two calls of `open` succeed, and what `c` holds at first. -/
def threads (file : List α) (ok : Fin 2 → Bool) (junk : Fin 2 → α) : ForkJoin 2 (State α) where
  init := ⟨fun i => ⟨opened (ok i), junk i, .read⟩, []⟩
  thread := thread file
  done i s := match (s.copier i).pc with
    | .returned => true
    | _ => false
  close _ s := s

/-- The next statement of the `main` of `2.c`. -/
inductive MainPc
  | loop
  | read (i : Fin 2)
  | write (i : Fin 2)
  | returned
deriving DecidableEq, Repr

/-- `2.c`: the descriptors, the flags, and `c`. -/
structure Main (α : Type) where
  fd : Fin 2 → Option OpenFile
  flag : Fin 2 → Int
  c : α
  pc : MainPc
  stdout : List (Fin 2 × α)

def Main.step (file : List α) (s : Main α) : Option (Main α) :=
  match s.pc with
  | .loop => some { s with pc := if s.flag 0 = 1 ∧ s.flag 1 = 1 then .read 0 else .returned }
  | .read i =>
    let r := readByte file (s.fd i)
    some { s with fd := Function.update s.fd i r.2.2, flag := Function.update s.flag i r.1
                  c := r.2.1.getD s.c, pc := if r.1 = 1 then .write i else .loop }
  | .write i =>
    some { s with stdout := s.stdout ++ [(i, s.c)], pc := if i = 0 then .read 1 else .loop }
  | .returned => none

/-- `2.c`, which has one step at a time. -/
def main (file : List α) (ok : Fin 2 → Bool) (junk : α) : Machine (Main α) Unit where
  init := ⟨fun i => opened (ok i), fun _ => 1, junk, .loop, []⟩
  step s _ := s.step file

/-! ## 2. One read -/

variable {file : List α} {fd : OpenFile} {i : Fin 2} {s s' : State α} {out : List (Fin 2 × α)}
  {t t' : ForkJoin.State (State α)}

theorem readByte_of_lt (h : fd.offset < file.length) :
    readByte file (some fd) =
      (1, some file[fd.offset], some { fd with offset := fd.offset + 1 }) := by
  have hdata : (fd.read file 1).1 = [file[fd.offset]] := by
    simp only [OpenFile.read]
    rw [List.drop_eq_getElem_cons h, List.take_succ_cons, List.take_zero]
  have hfd : (fd.read file 1).2 = { fd with offset := fd.offset + 1 } := by
    rw [OpenFile.read] at hdata ⊢
    simp only at hdata ⊢
    rw [hdata, List.length_singleton]
  simp [readByte, hdata, hfd]

theorem readByte_of_le (h : file.length ≤ fd.offset) :
    readByte file (some fd) = (0, none, some fd) := by
  have hdata : (fd.read file 1).1 = [] := by
    simp only [OpenFile.read]
    rw [List.drop_eq_nil_of_le h, List.take_nil]
  have hfd : (fd.read file 1).2 = fd := by
    rw [OpenFile.read] at hdata ⊢
    simp only at hdata ⊢
    rw [hdata, List.length_nil, Nat.add_zero]
  simp [readByte, hdata, hfd]

/-! ## 3. Threads whose descriptors are open -/

/-- What the thread has read and not yet written. -/
def Copier.hand (t : Copier α) : List α := if t.pc = .write then [t.c] else []

/-- A thread that has written `out`: with what it has in hand that is the file up to its offset,
and it returns at the end. -/
def Copying (file : List α) (t : Copier α) (out : List α) : Prop :=
  ∃ fd, t.fd = some fd ∧ out ++ t.hand = file.take fd.offset ∧
    (t.pc = .returned → file.length ≤ fd.offset)

def Inv (file : List α) (s : State α) : Prop :=
  ∀ i, Copying file (s.copier i) (printed s.stdout i)

/-- What is left to do for a thread. -/
def Copier.load (file : List α) (t : Copier α) : Nat :=
  let rest := file.length - (t.fd.map (·.offset)).getD 0
  match t.pc with
  | .read => 2 * rest + 1
  | .write => 2 * rest + 2
  | .returned => 0

def State.load (file : List α) (s : State α) : Nat :=
  (s.copier 0).load file + (s.copier 1).load file

/-- Thread `i` goes on as `t`. -/
def State.set (s : State α) (i : Fin 2) (t : Copier α) : Fin 2 → Copier α :=
  Function.update s.copier i t

@[simp] theorem set_self (s : State α) (i : Fin 2) (t : Copier α) : s.set i t i = t :=
  Function.update_self ..

theorem set_of_ne (s : State α) {i j : Fin 2} (t : Copier α) (h : j ≠ i) :
    s.set i t j = s.copier j := Function.update_of_ne h ..

/-- **What a step of an open thread does**: it reads a byte, finds the end of the file, or writes
what it has read. -/
theorem thread_cases {fd : OpenFile} (hfd : (s.copier i).fd = some fd)
    (h : thread file i s = some s') :
    (∃ hlt : fd.offset < file.length, (s.copier i).pc = .read ∧
      s' = ⟨s.set i ⟨some { fd with offset := fd.offset + 1 }, file[fd.offset], .write⟩,
        s.stdout⟩) ∨
    (file.length ≤ fd.offset ∧ (s.copier i).pc = .read ∧
      s' = ⟨s.set i ⟨some fd, (s.copier i).c, .returned⟩, s.stdout⟩) ∨
    ((s.copier i).pc = .write ∧
      s' = ⟨s.set i ⟨some fd, (s.copier i).c, .read⟩, s.stdout ++ [(i, (s.copier i).c)]⟩) := by
  cases hpc : (s.copier i).pc with
  | read =>
    simp only [thread, hpc, hfd, Option.some.injEq] at h
    rcases Nat.lt_or_ge fd.offset file.length with hlt | hge
    · rw [readByte_of_lt hlt] at h
      exact Or.inl ⟨hlt, rfl, h.symm⟩
    · rw [readByte_of_le hge] at h
      exact Or.inr (Or.inl ⟨hge, rfl, h.symm⟩)
  | write =>
    simp only [thread, hpc, hfd, Option.some.injEq] at h
    exact Or.inr (Or.inr ⟨rfl, h.symm⟩)
  | returned => simp [thread, hpc] at h

/-- What holds of the thread that goes on, and of the other one, holds of both. -/
theorem Inv.set (h : Inv file s) {t : Copier α} {stdout : List (Fin 2 × α)}
    (ht : Copying file t (printed stdout i))
    (hother : ∀ j, j ≠ i → printed stdout j = printed s.stdout j) :
    Inv file ⟨s.set i t, stdout⟩ := by
  intro j
  by_cases hji : j = i
  · subst hji
    simpa using ht
  · simp only [set_of_ne s t hji, hother j hji]
    exact h j

theorem load_set (file : List α) (s : State α) (i : Fin 2) (t : Copier α)
    (stdout : List (Fin 2 × α)) : State.load file ⟨s.set i t, stdout⟩ + (s.copier i).load file =
      s.load file + t.load file := by
  simp only [State.load]
  obtain rfl | rfl : i = 0 ∨ i = 1 := by omega
  · rw [set_self, set_of_ne s t (by decide)]
    omega
  · rw [set_self, set_of_ne s t (by decide)]
    omega

/-- **A step of a thread** keeps what is said about them, and leaves less to do. -/
theorem Inv.step (h : Inv file s) (hst : thread file i s = some s') :
    Inv file s' ∧ s'.load file < s.load file := by
  obtain ⟨fd, hfd, hheld, -⟩ := h i
  rcases thread_cases hfd hst with ⟨hlt, hpc, rfl⟩ | ⟨hge, hpc, rfl⟩ | ⟨hpc, rfl⟩
  · have hall : printed s.stdout i = file.take fd.offset := by
      simpa [Copier.hand, hpc] using hheld
    refine ⟨h.set ⟨_, rfl, ?_, by simp⟩ fun _ _ => rfl, ?_⟩
    · rw [hall, Copier.hand, if_pos rfl]
      exact List.take_append_getElem hlt
    · have hsum := load_set file s i
        ⟨some { fd with offset := fd.offset + 1 }, file[fd.offset], .write⟩ s.stdout
      simp only [Copier.load, hpc, hfd, Option.map_some, Option.getD_some] at hsum
      omega
  · have hall : printed s.stdout i = file.take fd.offset := by
      simpa [Copier.hand, hpc] using hheld
    refine ⟨h.set ⟨fd, rfl, ?_, fun _ => hge⟩ fun _ _ => rfl, ?_⟩
    · simpa [Copier.hand] using hall
    · have hsum := load_set file s i ⟨some fd, (s.copier i).c, .returned⟩ s.stdout
      simp only [Copier.load, hpc, hfd] at hsum
      omega
  · have hall : printed s.stdout i ++ [(s.copier i).c] = file.take fd.offset := by
      simpa [Copier.hand, hpc] using hheld
    refine ⟨h.set ⟨fd, rfl, ?_, by simp⟩ fun j hj => printed_append_other _ (Ne.symm hj) _, ?_⟩
    · simpa [Copier.hand, printed_append_self] using hall
    · have hsum := load_set file s i ⟨some fd, (s.copier i).c, .read⟩
        (s.stdout ++ [(i, (s.copier i).c)])
      simp only [Copier.load, hpc, hfd, Option.map_some, Option.getD_some] at hsum
      omega

variable {ok : Fin 2 → Bool} {junk : Fin 2 → α}

theorem inv_init (hok : ∀ i, ok i = true) : Inv file (threads file ok junk).init := by
  intro i
  exact ⟨OpenFile.opened false, by simp [threads, opened, hok], by
    simp [threads, Copier.hand, OpenFile.opened], by simp [threads]⟩

theorem done_iff : (threads file ok junk).done i s = true ↔ (s.copier i).pc = .returned := by
  simp only [threads]
  cases (s.copier i).pc <;> simp

theorem thread_enabled (file : List α) (h : (s.copier i).pc ≠ .returned) :
    ∃ s', thread file i s = some s' := by
  cases hpc : (s.copier i).pc with
  | read => simp [thread, hpc]
  | write => simp [thread, hpc]
  | returned => exact absurd hpc h

theorem threads_lawful (hok : ∀ i, ok i = true) :
    (threads file ok junk).Lawful (Inv file) (State.load file) where
  init := inv_init hok
  step h hst := h.step hst
  enabled _ hdone := thread_enabled file fun hpc => by
    rw [done_iff.mpr hpc] at hdone
    exact absurd hdone (by simp)
  ended {i d} hdone := by
    have hpc : (d.copier i).pc = .returned := done_iff.mp hdone
    change thread file i d = none
    simp only [thread, hpc]
  stays {i j d d'} hst hdone := by
    rw [done_iff] at hdone ⊢
    by_cases hij : i = j
    · subst hij
      have hnone : thread file i d = none := by simp only [thread, hdone]
      exact absurd (hnone.symm.trans hst) (by simp)
    · have hsame : d'.copier i = d.copier i := by
        change thread file j d = some d' at hst
        cases hpc : (d.copier j).pc <;> simp only [thread, hpc, Option.some.injEq,
          reduceCtorEq] at hst <;> rw [← hst] <;> exact Function.update_of_ne hij _ _
      rw [hsame, hdone]
  close := rfl

/-- **Both threads write the whole file.** -/
theorem threads_endsIn (hok : ∀ i, ok i = true) :
    (threads file ok junk).machine.EndsIn fun s =>
      s.closed = 2 ∧ ∀ i, printed s.data.stdout i = file := by
  refine (threads_lawful hok).endsIn (Q := fun d => ∀ i, printed d.stdout i = file)
    fun d hd hdone i => ?_
  obtain ⟨fd, -, hheld, hret⟩ := hd i
  have hpc := done_iff.mp (hdone i)
  rwa [Copier.hand, if_neg (by simp [hpc]), List.append_nil,
    List.take_of_length_le (hret hpc)] at hheld

/-! ## 4. Every interleaving -/

/-- What has been written is the beginning of an interleaving, and both threads are at `read`. -/
structure At (file : List α) (s : State α) (out : List (Fin 2 × α)) : Prop where
  stdout : s.stdout = out
  fd : ∀ i, (s.copier i).fd = some ⟨(printed out i).length, false⟩
  pc : ∀ i, (s.copier i).pc = .read

/-- **A thread reads its next byte and writes it.** -/
theorem At.next (h : At file s out) {c : α} (hc : file[(printed out i).length]? = some c) :
    ∃ s₁ s₂, thread file i s = some s₁ ∧ thread file i s₁ = some s₂ ∧
      At file s₂ (out ++ [(i, c)]) := by
  obtain ⟨hlt, hget⟩ := List.getElem?_eq_some_iff.mp hc
  set fd : OpenFile := ⟨(printed out i).length, false⟩ with hfd
  set t : Copier α := ⟨some { fd with offset := fd.offset + 1 }, c, .write⟩ with ht
  have hread : readByte file (some fd) = (1, some c, t.fd) := by
    rw [readByte_of_lt hlt, hget]
  refine ⟨⟨s.set i t, s.stdout⟩, ⟨s.set i { t with pc := .read }, s.stdout ++ [(i, c)]⟩, ?_, ?_, ?_⟩
  · simp only [thread, h.pc, h.fd]
    rw [hread]
    rfl
  · simp only [thread, set_self, ht]
    simp [State.set]
  · refine ⟨by rw [h.stdout], fun j => ?_, fun j => ?_⟩
    · rcases eq_or_ne j i with rfl | hji
      · simp [ht, hfd, printed_append_self]
      · simp only [set_of_ne s _ hji, h.fd, printed_append_other _ (Ne.symm hji)]
    · rcases eq_or_ne j i with rfl | hji
      · simp
      · simp only [set_of_ne s _ hji, h.pc]

/-- **The threads write in any order**, each its own file in the order of the file. -/
theorem At.reaches (ok : Fin 2 → Bool) (junk : Fin 2 → α) :
    ∀ (rest : List (Fin 2 × α)) (out : List (Fin 2 × α)) (s : State α), At file s out →
      (∀ i, printed (out ++ rest) i <+: file) →
      ∃ t, Relation.ReflTransGen (threads file ok junk).ThreadStep s t ∧
        At file t (out ++ rest) := by
  intro rest
  induction rest with
  | nil =>
    intro out s h _
    exact ⟨s, .refl, by rwa [List.append_nil]⟩
  | cons x rest ih =>
    intro out s h hpre
    obtain ⟨i, c⟩ := x
    have hcons : out ++ (i, c) :: rest = (out ++ [(i, c)]) ++ rest := by simp
    have hc : file[(printed out i).length]? = some c := by
      obtain ⟨tail, htail⟩ := hpre i
      have hsplit : file = printed out i ++ c :: (printed rest i ++ tail) := by
        rw [← htail]
        simp [SharedRead.printed]
      rw [hsplit, List.getElem?_append_right (Nat.le_refl _), Nat.sub_self,
        List.getElem?_cons_zero]
    obtain ⟨s₁, s₂, h₁, h₂, hat⟩ := h.next hc
    obtain ⟨t, ht, hatt⟩ := ih (out ++ [(i, c)]) s₂ hat (by rwa [← hcons])
    exact ⟨t, .head ⟨i, h₁⟩ (.head ⟨i, h₂⟩ ht), by rwa [hcons]⟩

/-- At the end of the file a thread returns. -/
theorem thread_end {fd : OpenFile} (hfd : (s.copier i).fd = some fd)
    (hpc : (s.copier i).pc = .read) (hend : file.length ≤ fd.offset) :
    thread file i s = some ⟨s.set i ⟨some fd, (s.copier i).c, .returned⟩, s.stdout⟩ := by
  simp only [thread, hpc, hfd]
  rw [readByte_of_le hend]
  rfl

/-- **Every interleaving of two copies is written** by some schedule of the threads. -/
theorem threads_write (hok : ∀ i, ok i = true) (hout : ∀ i, printed out i = file) :
    ∃ s, (threads file ok junk).machine.Reachable s ∧ s.closed = 2 ∧ s.data.stdout = out := by
  have hstart : At file (threads file ok junk).init [] :=
    ⟨rfl, by simp [threads, opened, hok, OpenFile.opened], by simp [threads]⟩
  obtain ⟨s, hs, hat⟩ := hstart.reaches ok junk out [] _ (by simp [hout])
  rw [List.nil_append] at hat
  have hend : ∀ i, file.length ≤ (printed out i).length := fun i => by rw [hout]
  set t₀ : Copier α := ⟨some ⟨(printed out 0).length, false⟩, (s.copier 0).c, .returned⟩ with ht₀
  set s₀ : State α := ⟨s.set 0 t₀, s.stdout⟩ with hs₀
  have h₀ : thread file 0 s = some s₀ := thread_end (hat.fd 0) (hat.pc 0) (hend 0)
  have hone : s₀.copier 1 = s.copier 1 := set_of_ne s (i := 0) (j := 1) t₀ (by decide)
  have h₁ := thread_end (s := s₀) (i := 1) (by rw [hone, hat.fd]) (by rw [hone, hat.pc]) (hend 1)
  have hthreads := (hs.tail ⟨0, h₀⟩).tail ⟨1, h₁⟩
  refine ⟨_, ForkJoin.reachable_of_threads hthreads fun i => done_iff.mpr ?_, rfl, ?_⟩
  · obtain rfl | rfl : i = 0 ∨ i = 1 := by omega
    · have hzero : ∀ t, s₀.set 1 t 0 = s₀.copier 0 := fun t =>
        set_of_ne s₀ (i := 1) (j := 0) t (by decide)
      simp only [hzero]
      simp [hs₀, ht₀]
    · simp
  · exact hat.stdout

/-! ## 5. Where `open` has failed -/

/-- The thread without a descriptor has not returned, so `main` waits for it or for one before
it. -/
structure Endless (i : Fin 2) (s : ForkJoin.State (State α)) : Prop where
  fd : (s.data.copier i).fd = none
  pc : (s.data.copier i).pc ≠ .returned
  joined : s.joined ≤ i
  closed : s.closed = 0

theorem Endless.step (h : Endless i t) {a : ForkJoin.Act 2}
    (hst : (threads file ok junk).machine.step t a = some t') : Endless i t' := by
  cases a with
  | main =>
    simp only [ForkJoin.machine, ForkJoin.mainStep] at hst
    split at hst
    · exact Option.some.inj hst ▸ ⟨h.fd, h.pc, h.joined, h.closed⟩
    split at hst
    · split at hst
      · rename_i hlt hdone
        -- the thread joined is another one
        have hne : (⟨t.joined, hlt⟩ : Fin 2) ≠ i := by
          rintro rfl
          exact h.pc (done_iff.mp hdone)
        have hjoined : t.joined + 1 ≤ i := by
          have hle := h.joined
          have hval : t.joined ≠ i.val := fun heq => hne (Fin.ext heq)
          omega
        exact Option.some.inj hst ▸ ⟨h.fd, h.pc, hjoined, h.closed⟩
      · exact absurd hst (by simp)
    · rename_i hlt
      exact absurd h.joined (by omega)
  | thread j =>
    simp only [ForkJoin.machine] at hst
    split at hst
    · obtain ⟨d, hd, rfl⟩ := Option.map_eq_some_iff.mp hst
      change thread file j t.data = some d at hd
      rcases eq_or_ne i j with rfl | hij
      · cases hpc : (t.data.copier i).pc with
        | read =>
          simp only [thread, hpc, h.fd, Option.some.injEq] at hd
          subst hd
          exact ⟨by simp [readByte], by simp [readByte], h.joined, h.closed⟩
        | write =>
          simp only [thread, hpc, Option.some.injEq] at hd
          subst hd
          exact ⟨by simp [h.fd], by simp, h.joined, h.closed⟩
        | returned => exact absurd hpc h.pc
      · have hsame : d.copier i = t.data.copier i := by
          cases hpc : (t.data.copier j).pc <;> simp only [thread, hpc, Option.some.injEq,
            reduceCtorEq] at hd <;> rw [← hd] <;> exact Function.update_of_ne hij _ _
        exact ⟨by rw [hsame, h.fd], by rw [hsame]; exact h.pc, h.joined, h.closed⟩
    · exact absurd hst (by simp)

/-- A program with such a thread can always go on. -/
theorem Endless.not_stuck (h : Endless i t) : ¬ (threads file ok junk).machine.Stuck t := by
  intro hstuck
  have hmain := hstuck .main
  simp only [ForkJoin.machine, ForkJoin.mainStep] at hmain
  split at hmain
  · exact absurd hmain (by simp)
  · rename_i hcreated
    obtain ⟨d, hd⟩ := thread_enabled file h.pc
    have hthread := hstuck (.thread i)
    have hd' : (threads file ok junk).thread i t.data = some d := hd
    simp only [ForkJoin.machine] at hthread
    rw [if_pos (by omega), hd'] at hthread
    exact absurd hthread (by simp)

theorem endless_init (hi : ok i = false) : Endless i (threads file ok junk).machine.init where
  fd := by simp [ForkJoin.machine, threads, opened, hi]
  pc := by simp [ForkJoin.machine, threads]
  joined := Nat.zero_le _
  closed := rfl

theorem reachable_endless (hi : ok i = false) (ht : (threads file ok junk).machine.Reachable t) :
    Endless i t :=
  Machine.reachable_rule (M := (threads file ok junk).machine) (endless_init hi)
    (fun _ _ _ h hst => h.step hst) ht

/-! ## 6. The loop of `2.c` -/

namespace Main

variable {m m' : Main α} {k : Nat} {b : α} {Q : Main α → Prop}

/-- The loop is about to begin again, `k` bytes have been read from each descriptor, and both
`read`s have returned 1. -/
structure AtLoop (file : List α) (m : Main α) (k : Nat) : Prop where
  pc : m.pc = .loop
  flag : ∀ i, m.flag i = 1
  fd : ∀ i, m.fd i = some ⟨k, false⟩
  stdout : m.stdout = (file.take k).flatMap fun c => [(0, c), (1, c)]

theorem leads_step {junk : α} (hst : m.step file = some m')
    (h : (main file ok junk).Leads Q m') : (main file ok junk).Leads Q m :=
  .step (fun _ => hst) h

/-- A test of the flags that goes on, or does not. -/
theorem step_loop (hpc : m.pc = .loop) : m.step file =
    some { m with pc := if m.flag 0 = 1 ∧ m.flag 1 = 1 then .read 0 else .returned } := by
  rw [step, hpc]

theorem step_read {i : Fin 2} (hpc : m.pc = .read i) {n : Int} {c : Option α}
    {fd : Option OpenFile} (hread : readByte file (m.fd i) = (n, c, fd)) : m.step file =
      some { m with fd := Function.update m.fd i fd, flag := Function.update m.flag i n
                    c := c.getD m.c, pc := if n = 1 then .write i else .loop } := by
  simp only [step, hpc, hread]

theorem step_write {i : Fin 2} (hpc : m.pc = .write i) : m.step file =
    some { m with stdout := m.stdout ++ [(i, m.c)], pc := if i = 0 then .read 1 else .loop } := by
  rw [step, hpc]

/-- **One round of the loop**: a byte from the first descriptor, and the same from the second. -/
theorem AtLoop.round {junk : α} (h : AtLoop file m k) (hk : k < file.length)
    (hnext : ∀ m', AtLoop file m' (k + 1) → (main file ok junk).Leads Q m') :
    (main file ok junk).Leads Q m := by
  have hread : ∀ i, readByte file (m.fd i) = (1, some file[k], some ⟨k + 1, false⟩) := fun i => by
    rw [h.fd i]
    exact readByte_of_lt hk
  refine leads_step (step_loop h.pc) ?_
  rw [if_pos ⟨h.flag 0, h.flag 1⟩]
  refine leads_step (step_read rfl (hread 0)) (leads_step (step_write rfl) ?_)
  have hone : Function.update m.fd 0 (some ⟨k + 1, false⟩) 1 = m.fd 1 :=
    Function.update_of_ne (by decide) ..
  refine leads_step (step_read rfl (by rw [← hread 1, ← hone])) (leads_step (step_write rfl) ?_)
  refine hnext _ ⟨rfl, fun i => ?_, fun i => ?_, ?_⟩
  · obtain rfl | rfl : i = 0 ∨ i = 1 := by omega
    · simp
    · simp
  · obtain rfl | rfl : i = 0 ∨ i = 1 := by omega
    · simp
    · simp
  · rw [List.take_succ_eq_append_getElem hk, List.flatMap_append]
    simp [h.stdout]

/-- A `read` that did not return 1 ends the loop. -/
theorem leads_end {junk : α} {i : Fin 2} (hpc : m.pc = .loop) (hflag : m.flag i ≠ 1)
    (hQ : Q { m with pc := .returned }) : (main file ok junk).Leads Q m := by
  refine leads_step (step_loop hpc) (.here ?_)
  have hno : ¬ (m.flag 0 = 1 ∧ m.flag 1 = 1) := by
    rintro ⟨h0, h1⟩
    obtain rfl | rfl : i = 0 ∨ i = 1 := by omega
    · exact hflag h0
    · exact hflag h1
  rwa [if_neg hno]

/-- A first `read` of the round that does not return 1. -/
theorem leads_stop {junk : α} {n : Int} {fd : Option OpenFile} (hpc : m.pc = .loop)
    (hflag : ∀ i, m.flag i = 1) (hread : readByte file (m.fd 0) = (n, none, fd)) (hn : n ≠ 1)
    (hQ : ∀ m', m'.pc = .returned → m'.stdout = m.stdout → Q m') :
    (main file ok junk).Leads Q m := by
  refine leads_step (step_loop hpc) ?_
  rw [if_pos ⟨hflag 0, hflag 1⟩]
  refine leads_step (step_read rfl hread) ?_
  rw [if_neg hn]
  exact leads_end (i := 0) rfl (by simpa using hn) (hQ _ rfl rfl)

end Main

/-- What `2.c` writes. -/
def doubled (file : List α) (ok : Fin 2 → Bool) : List (Fin 2 × α) :=
  if ok 0 then
    if ok 1 then file.flatMap fun c => [(0, c), (1, c)] else (file.take 1).map fun c => (0, c)
  else []

/-- The rounds that are left, when both descriptors are open. -/
theorem main_rounds {junk : α} : ∀ (n k : Nat) (m : Main α), k + n = file.length →
    Main.AtLoop file m k →
    (main file ok junk).Leads
      (fun m => m.pc = .returned ∧ m.stdout = file.flatMap fun c => [(0, c), (1, c)]) m := by
  intro n
  induction n with
  | zero =>
    intro k m hk h
    have hread : readByte file (m.fd 0) = (0, none, some ⟨k, false⟩) := by
      rw [h.fd 0]
      exact readByte_of_le (by simp only; omega)
    refine Main.leads_stop h.pc h.flag hread (by decide) fun m' hpc hout => ⟨hpc, ?_⟩
    rw [hout, h.stdout, List.take_of_length_le (by omega)]
  | succ n ih =>
    intro k m hk h
    exact h.round (by omega) fun m' h' => ih (k + 1) m' (by omega) h'

/-- **`2.c` writes every byte twice**, as long as both descriptors are open. -/
theorem main_leads (file : List α) (ok : Fin 2 → Bool) (junk : α) :
    (main file ok junk).Leads (fun m => m.pc = .returned ∧ m.stdout = doubled file ok)
      (main file ok junk).init := by
  cases h0 : ok 0 with
  | false =>
    have hread : readByte file ((main file ok junk).init.fd 0) = (-1, none, none) := by
      simp [main, opened, h0, readByte]
    refine Main.leads_stop rfl (fun _ => rfl) hread (by decide) fun m' hpc hout => ⟨hpc, ?_⟩
    rw [hout, doubled, if_neg (by simp [h0])]
    rfl
  | true =>
    have hfd : (main file ok junk).init.fd 0 = some ⟨0, false⟩ := by
      simp [main, opened, h0, OpenFile.opened]
    cases h1 : ok 1 with
    | true =>
      have hdoubled : doubled file ok = file.flatMap fun c => [(0, c), (1, c)] := by
        rw [doubled, if_pos h0, if_pos h1]
      rw [hdoubled]
      refine main_rounds file.length 0 _ (by omega) ⟨rfl, fun _ => rfl, fun i => ?_, rfl⟩
      obtain rfl | rfl : i = 0 ∨ i = 1 := by omega
      · exact hfd
      · simp [main, opened, h1, OpenFile.opened]
    | false =>
      have hdoubled : doubled file ok = (file.take 1).map fun c => (0, c) := by
        rw [doubled, if_pos h0, if_neg (by simp [h1])]
      rw [hdoubled]
      cases file with
      | nil =>
        have hread : readByte ([] : List α) ((main ([] : List α) ok junk).init.fd 0) =
            ((0, none, some ⟨0, false⟩) : Int × Option α × Option OpenFile) := by
          rw [hfd]
          exact readByte_of_le (Nat.le_refl 0)
        exact Main.leads_stop rfl (fun _ => rfl) hread (by decide) fun m' hpc hout => ⟨hpc, hout⟩
      | cons c rest =>
        have hread : readByte (c :: rest) ((main (c :: rest) ok junk).init.fd 0) =
            (1, some c, some ⟨1, false⟩) := by
          rw [hfd]
          exact readByte_of_lt (Nat.zero_lt_succ _)
        refine Main.leads_step (Main.step_loop rfl) ?_
        rw [if_pos ⟨rfl, rfl⟩]
        refine Main.leads_step (Main.step_read rfl hread) (Main.leads_step (Main.step_write rfl) ?_)
        -- the second `read` has no descriptor
        have hread : readByte (c :: rest) (opened (ok 1)) =
            ((-1, none, none) : Int × Option α × Option OpenFile) := by
          simp [opened, h1, readByte]
        have hone : Function.update (main (c :: rest) ok junk).init.fd 0 (some ⟨1, false⟩) 1 =
            opened (ok 1) := Function.update_of_ne (by decide) ..
        refine Main.leads_step (Main.step_read rfl (by rw [← hread, ← hone])) ?_
        exact Main.leads_end (i := 1) rfl (by simp) ⟨rfl, rfl⟩

/-- **The two copies.**  If the file was opened twice, every run of the threads ends with each of
them having written the whole file, and the two copies may interleave in any way.  If one of the
two calls of `open` has failed, no run ends. -/
theorem copies_interleave (file : List α) (ok : Fin 2 → Bool) (junk : Fin 2 → α) :
    ((∀ i, ok i = true) →
      ((threads file ok junk).machine.EndsIn fun s =>
        s.closed = 2 ∧ ∀ i, printed s.data.stdout i = file) ∧
      ∀ out, (∀ i, printed out i = file) →
        ∃ s, (threads file ok junk).machine.Reachable s ∧ s.closed = 2 ∧ s.data.stdout = out) ∧
    ((∃ i, ok i = false) → ∀ s, (threads file ok junk).machine.Reachable s →
      s.closed = 0 ∧ ¬ (threads file ok junk).machine.Stuck s) := by
  refine ⟨fun hok => ⟨threads_endsIn hok, fun out hout => threads_write hok hout⟩, ?_⟩
  rintro ⟨i, hi⟩ s hs
  have h := reachable_endless hi hs
  exact ⟨h.closed, h.not_stuck⟩

/-- **The loop always ends**: it writes every byte twice if both calls of `open` succeed, no byte
if the first has failed, and the first byte once if the second has.  What it writes with two
descriptors, some schedule of the threads writes too. -/
theorem loop_doubles (file : List α) (ok : Fin 2 → Bool) (junk : α) :
    (main file ok junk).Leads (fun m => m.pc = .returned ∧ m.stdout = doubled file ok)
        (main file ok junk).init ∧
      ((∀ i, ok i = true) → ∀ junk' : Fin 2 → α,
        ∃ s, (threads file ok junk').machine.Reachable s ∧ s.closed = 2 ∧
          s.data.stdout = doubled file ok) := by
  refine ⟨main_leads file ok junk, fun hok junk' => threads_write hok fun i => ?_⟩
  rw [doubled, if_pos (hok 0), if_pos (hok 1)]
  induction file with
  | nil => rfl
  | cons c file ih =>
    obtain rfl | rfl : i = 0 ∨ i = 1 := by omega
    · simpa [SharedRead.printed] using ih
    · simpa [SharedRead.printed] using ih

end OsLabs.Copies
