/-
# Two threads that write the alphabet: 2_1_thread.c, 2_1.c and 3_thread.c

In `8/open_file/src/2_1_thread.c` and `3_thread.c` thread `i` runs through the letters 'a' to 'z'
and puts those with `c % 2 == i` into the same file `q.txt`: with `write` through a descriptor of
its own opened with O_APPEND, or with `fprintf` through a stream of its own, opened with "w" by
the one and with "a" by the other.  `2_1.c` writes them in one loop through two descriptors.
The file exists, and opening it, `pthread_create` and `pthread_join` succeed.  `PRINT_STAT` only
reads the status of the file and is left out.

What the threads put depends on nothing but the order of their steps, and whatever that order is
each puts its letters in increasing order (`Puts`).  So what the programs leave in the file is
what a list of puts with that property leaves (`writers_endsIn`).
-/
import OsLabs.Lib.ForkJoin
import OsLabs.Lib.OpenFile
import Mathlib.Logic.Function.Basic
import Mathlib.Data.List.Perm.Basic

namespace OsLabs.Writers

/-! ## 1. The loop of a thread -/

/-- 'a' -/
def first : UInt8 := 97

/-- 'z' -/
def last : UInt8 := 122

/-- `c % 2 == targ->i` -/
def own (i : Fin 2) (c : UInt8) : Bool := (c % 2).toNat == i.val

/-- The next step of `thread_start`: the test of the loop and of `c`, the output of `c`, or none
after the loop. -/
inductive Pc
  | loop (c : UInt8)
  | put (c : UInt8)
  | returned
deriving DecidableEq, Repr

/-- The two threads, and what they write to. -/
structure State (σ : Type) where
  pc : Fin 2 → Pc
  out : σ

variable {σ : Type}

/-- The loop goes on, with `c` if it is the thread's letter, or ends. -/
def test (i : Fin 2) (c : UInt8) : Pc :=
  if c ≤ last then if own i c then .put c else .loop (c + 1) else .returned

/-- A step of `thread_start` in thread `i`. -/
def thread (put : Fin 2 → UInt8 → σ → σ) (i : Fin 2) (s : State σ) : Option (State σ) :=
  match s.pc i with
  | .loop c => some ⟨Function.update s.pc i (test i c), s.out⟩
  | .put c => some ⟨Function.update s.pc i (.loop (c + 1)), put i c s.out⟩
  | .returned => none

/-- A program whose threads put their letters with `put`, and whose `main` closes with `close`. -/
def writers (out : σ) (put : Fin 2 → UInt8 → σ → σ) (close : Fin 2 → σ → σ) :
    ForkJoin 2 (State σ) where
  init := ⟨fun _ => .loop first, out⟩
  thread := thread put
  done i s := s.pc i = .returned
  close i s := { s with out := close i s.out }

/-! ## 2. What the threads put -/

/-- The letters from `c` to 'z'. -/
def lettersFrom (c : UInt8) : List UInt8 :=
  (List.range' c.toNat (last.toNat + 1 - c.toNat)).map UInt8.ofNat

/-- 'a' to 'z'. -/
def alphabet : List UInt8 := lettersFrom first

/-- The letters of thread `i`, in order. -/
def letters (i : Fin 2) : List UInt8 := alphabet.filter (own i)

example : letters 0 = [98, 100, 102, 104, 106, 108, 110, 112, 114, 116, 118, 120, 122] := by
  decide

/-- The thread that puts `c`. -/
def owner (c : UInt8) : Fin 2 := if own 0 c then 0 else 1

/-- The puts of a list of letters, each by its thread. -/
def putAll (put : Fin 2 → UInt8 → σ → σ) (trace : List UInt8) (out : σ) : σ :=
  trace.foldl (fun out c => put (owner c) c out) out

/-- Each thread has put its letters, in order. -/
def Puts (trace : List UInt8) : Prop := ∀ i, trace.filter (own i) = letters i

theorem putAll_concat (put : Fin 2 → UInt8 → σ → σ) (trace : List UInt8) (c : UInt8) (out : σ) :
    putAll put (trace ++ [c]) out = put (owner c) c (putAll put trace out) := by
  simp [putAll]

theorem lettersFrom_of_le {c : UInt8} (h : c ≤ last) :
    lettersFrom c = c :: lettersFrom (c + 1) := by
  have hle : c.toNat ≤ 122 := h
  have hlast : last.toNat = 122 := rfl
  have hsucc : (c + 1).toNat = c.toNat + 1 := by
    rw [UInt8.toNat_add]
    exact Nat.mod_eq_of_lt (by simp; omega)
  obtain ⟨n, hn⟩ : ∃ n, last.toNat + 1 - c.toNat = n + 1 := ⟨last.toNat - c.toNat, by omega⟩
  have hn' : last.toNat + 1 - (c + 1).toNat = n := by omega
  rw [lettersFrom, lettersFrom, hn, hn', List.range'_succ, List.map_cons, hsucc,
    UInt8.ofNat_toNat]

theorem lettersFrom_of_lt {c : UInt8} (h : ¬ c ≤ last) : lettersFrom c = [] := by
  have hlt : last.toNat < c.toNat := Nat.lt_of_not_le h
  rw [lettersFrom, Nat.sub_eq_zero_of_le hlt]
  rfl

theorem own_zero (c : UInt8) : own 0 c = !own 1 c := by
  have hmod : (c % 2).toNat = c.toNat % 2 := by rw [UInt8.toNat_mod]; rfl
  rcases Nat.mod_two_eq_zero_or_one c.toNat with h | h <;> simp [own, hmod, h]

theorem own_owner (c : UInt8) (i : Fin 2) : own i c = true ↔ owner c = i := by
  have h := own_zero c
  obtain rfl | rfl : i = 0 ∨ i = 1 := by omega
  · cases h0 : own 0 c <;> simp [owner, h0]
  · cases h1 : own 1 c <;> simp [owner, h, h1]

theorem owner_of_mem_letters {c : UInt8} {i : Fin 2} (h : c ∈ letters i) : owner c = i :=
  (own_owner c i).mp (List.mem_filter.mp h).2

theorem filter_own_perm (l : List UInt8) : (l.filter (own 0) ++ l.filter (own 1)).Perm l := by
  have hnot : own 1 = fun c => !own 0 c := funext fun c => by rw [own_zero, Bool.not_not]
  rw [hnot]
  exact List.filter_append_perm (own 0) l

/-- The letters of both threads are the alphabet. -/
theorem alphabet_split : (letters 0 ++ letters 1).Perm alphabet := filter_own_perm alphabet

/-- **The puts are an interleaving of the alphabet.** -/
theorem Puts.perm {trace : List UInt8} (h : Puts trace) : trace.Perm alphabet := by
  refine (filter_own_perm trace).symm.trans ?_
  rw [h 0, h 1]
  exact alphabet_split

/-! ## 3. What the threads keep -/

/-- The letters that thread `i` has still to put. -/
def Pc.todo (i : Fin 2) : Pc → List UInt8
  | .loop c => (lettersFrom c).filter (own i)
  | .put c => c :: (lettersFrom (c + 1)).filter (own i)
  | .returned => []

/-- How long the thread has still to run. -/
def Pc.rank : Pc → Nat
  | .loop c => 2 * (256 - c.toNat) + 1
  | .put c => 2 * (256 - c.toNat)
  | .returned => 0

/-- The output is that of some puts, and those of each thread together with what it has to do
are its letters. -/
structure Inv (put : Fin 2 → UInt8 → σ → σ) (out : σ) (s : State σ) : Prop where
  trace : ∃ trace, s.out = putAll put trace out ∧
    ∀ i, trace.filter (own i) ++ (s.pc i).todo i = letters i
  puts : ∀ i c, s.pc i = .put c → c ≤ last ∧ own i c = true

def measure (s : State σ) : Nat := (s.pc 0).rank + (s.pc 1).rank

variable {put : Fin 2 → UInt8 → σ → σ} {close : Fin 2 → σ → σ} {out : σ} {s s' : State σ}
  {i : Fin 2}

theorem inv_init : Inv put out (writers out put close).init where
  trace := ⟨[], rfl, fun _ => rfl⟩
  puts _ _ h := absurd h (by simp [writers])

/-- A step of the loop that puts nothing. -/
theorem Inv.move (h : Inv put out s) {pc : Pc} (htodo : pc.todo i = (s.pc i).todo i)
    (hput : ∀ c, pc = .put c → c ≤ last ∧ own i c = true) :
    Inv put out ⟨Function.update s.pc i pc, s.out⟩ := by
  obtain ⟨trace, hout, hdone⟩ := h.trace
  refine ⟨⟨trace, hout, fun j => ?_⟩, fun j c hc => ?_⟩
  · by_cases hj : j = i
    · subst hj
      simp only [Function.update_self, htodo]
      exact hdone j
    · simp only [Function.update_of_ne hj]
      exact hdone j
  · by_cases hj : j = i
    · subst hj
      simp only [Function.update_self] at hc
      exact hput c hc
    · simp only [Function.update_of_ne hj] at hc
      exact h.puts j c hc

/-- A put. -/
theorem Inv.put_step (h : Inv put out s) {c : UInt8} (hpc : s.pc i = .put c) :
    Inv put out ⟨Function.update s.pc i (.loop (c + 1)), put i c s.out⟩ := by
  obtain ⟨trace, hout, hdone⟩ := h.trace
  have hown := (h.puts i c hpc).2
  refine ⟨⟨trace ++ [c], ?_, fun j => ?_⟩, fun j c' hc => ?_⟩
  · rw [putAll_concat, ← hout, (own_owner c i).mp hown]
  · have hj := hdone j
    by_cases hji : j = i
    · subst hji
      rw [hpc, Pc.todo] at hj
      simp only [Function.update_self, Pc.todo]
      rw [← hj, List.filter_append]
      simp [hown]
    · have hother : own j c = false := by
        rw [Bool.eq_false_iff, Ne, own_owner, (own_owner c i).mp hown]
        exact Ne.symm hji
      simp only [Function.update_of_ne hji]
      rw [← hj, List.filter_append]
      simp [hother]
  · by_cases hji : j = i
    · subst hji
      simp at hc
    · simp only [Function.update_of_ne hji] at hc
      exact h.puts j c' hc

theorem measure_update (s : State σ) (i : Fin 2) (pc : Pc) (o : σ) :
    measure ⟨Function.update s.pc i pc, o⟩ + (s.pc i).rank = measure s + pc.rank := by
  obtain rfl | rfl : i = 0 ∨ i = 1 := by omega
  · have hne : (1 : Fin 2) ≠ 0 := by decide
    simp only [measure, Function.update_self, Function.update_of_ne hne]
    omega
  · have hne : (0 : Fin 2) ≠ 1 := by decide
    simp only [measure, Function.update_self, Function.update_of_ne hne]
    omega

theorem rank_next {c : UInt8} (h : c ≤ last) : (Pc.loop (c + 1)).rank < (Pc.put c).rank := by
  have hle : c.toNat ≤ 122 := h
  have hsucc : (c + 1).toNat = c.toNat + 1 := by
    rw [UInt8.toNat_add]
    exact Nat.mod_eq_of_lt (by simp; omega)
  simp only [Pc.rank, hsucc]
  omega

/-- **Every step of a thread** keeps the invariant and brings the threads nearer to their end. -/
theorem Inv.step (h : Inv put out s) (hst : thread put i s = some s') :
    Inv put out s' ∧ measure s' < measure s := by
  unfold thread at hst
  cases hpc : s.pc i with
  | returned => simp [hpc] at hst
  | put c =>
    simp only [hpc, Option.some.injEq] at hst
    subst hst
    have hrank := measure_update s i (.loop (c + 1)) (put i c s.out)
    have hlt := rank_next (h.puts i c hpc).1
    rw [hpc] at hrank
    exact ⟨h.put_step hpc, by omega⟩
  | loop c =>
    simp only [hpc, Option.some.injEq] at hst
    subst hst
    have hrank : ∀ pc : Pc, pc.rank < (Pc.loop c).rank →
        measure (⟨Function.update s.pc i pc, s.out⟩ : State σ) < measure s := fun pc hlt => by
      have hrank := measure_update s i pc s.out
      rw [hpc] at hrank
      omega
    unfold test
    by_cases hle : c ≤ last
    · rw [if_pos hle]
      by_cases hown : own i c = true
      · rw [if_pos hown]
        refine ⟨h.move ?_ fun c' hc' => ?_, hrank _ (Nat.lt_succ_self _)⟩
        · rw [hpc, Pc.todo, Pc.todo, lettersFrom_of_le hle, List.filter_cons_of_pos hown]
        · obtain rfl := Pc.put.inj hc'
          exact ⟨hle, hown⟩
      · rw [if_neg hown]
        refine ⟨h.move ?_ fun c' hc' => absurd hc' (by simp),
          hrank _ (Nat.lt_succ_of_lt (rank_next hle))⟩
        rw [hpc, Pc.todo, Pc.todo, lettersFrom_of_le hle, List.filter_cons_of_neg hown]
    · rw [if_neg hle]
      refine ⟨h.move ?_ fun c' hc' => absurd hc' (by simp), hrank _ (Nat.succ_pos _)⟩
      rw [hpc, Pc.todo, Pc.todo, lettersFrom_of_lt hle]
      rfl

theorem writers_lawful : (writers out put close).Lawful (Inv put out) measure where
  init := inv_init
  step hs hst := hs.step hst
  enabled {i s} _ hdone := by
    simp only [writers, decide_eq_false_iff_not] at hdone
    simp only [writers, thread]
    cases hpc : s.pc i with
    | returned => exact absurd hpc hdone
    | put c => exact ⟨_, rfl⟩
    | loop c => exact ⟨_, rfl⟩
  ended {i s} hdone := by
    simp only [writers, decide_eq_true_eq] at hdone
    simp only [writers, thread, hdone]
  stays {i j s s'} hst hdone := by
    simp only [writers, decide_eq_true_eq] at hdone ⊢
    have hij : i ≠ j := by
      rintro rfl
      simp [writers, thread, hdone] at hst
    simp only [writers, thread] at hst
    split at hst
    · obtain rfl := Option.some.inj hst
      simpa [Function.update_of_ne hij] using hdone
    · obtain rfl := Option.some.inj hst
      simpa [Function.update_of_ne hij] using hdone
    · exact absurd hst (by simp)
  close := rfl

/-- **What the programs leave.**  The threads end, and `main` closes what puts that are an
interleaving of the two threads' letters have left. -/
theorem writers_endsIn {Q : σ → Prop}
    (hQ : ∀ trace, Puts trace → Q (close 1 (close 0 (putAll put trace out)))) :
    (writers out put close).machine.EndsIn fun s => s.closed = 2 ∧ Q s.data.out := by
  refine writers_lawful.endsIn (Q := fun s => Q s.out) fun s hs hdone => ?_
  obtain ⟨trace, hout, htrace⟩ := hs.trace
  have hputs : Puts trace := fun i => by
    have hret : s.pc i = .returned := of_decide_eq_true (hdone i)
    have hall := htrace i
    rwa [hret, Pc.todo, List.append_nil] at hall
  have hleft := hQ trace hputs
  rw [← hout] at hleft
  exact hleft

/-! ## 4. 2_1_thread.c and 2_1.c: descriptors opened with O_APPEND -/

/-- `q.txt`, and the descriptions behind `fd[0]` and `fd[1]`. -/
structure Appending where
  file : List UInt8
  fd : Fin 2 → OpenFile

/-- `open("q.txt", O_RDWR | O_APPEND)`, twice. -/
def Appending.start (content : List UInt8) : Appending :=
  ⟨content, fun _ => OpenFile.opened true⟩

/-- `write(fd[i], &c, 1)` -/
def Appending.write (i : Fin 2) (c : UInt8) (s : Appending) : Appending :=
  ⟨((s.fd i).write 0 s.file [c]).1, Function.update s.fd i ((s.fd i).write 0 s.file [c]).2⟩

/-- `2_1_thread.c`; closing a descriptor writes nothing. -/
def appendThreads (content : List UInt8) : ForkJoin 2 (State Appending) :=
  writers (Appending.start content) Appending.write fun _ s => s

/-- `main` of `2_1.c`: the loop, and what it writes to; `fd1` is number 0. -/
structure AppendMain where
  pc : Pc
  out : Appending

def AppendMain.step (s : AppendMain) : Option AppendMain :=
  match s.pc with
  | .loop c => some { s with pc := if c ≤ last then .put c else .returned }
  | .put c => some ⟨.loop (c + 1), s.out.write (if c % 2 ≠ 0 then 0 else 1) c⟩
  | .returned => none

/-- `2_1.c`, which has one step at a time. -/
def appendMain (content : List UInt8) : Machine AppendMain Unit where
  init := ⟨.loop first, Appending.start content⟩
  step s _ := s.step

/-- Both descriptions append. -/
def Appending.Appends (s : Appending) : Prop := ∀ i, (s.fd i).append = true

/-- **A write adds its letter at the end**, through whichever descriptor. -/
theorem Appending.file_write {s : Appending} (h : s.Appends) (i : Fin 2) (c : UInt8) :
    (s.write i c).file = s.file ++ [c] := OpenFile.write_append 0 s.file [c] (h i)

theorem Appending.appends_write {s : Appending} (h : s.Appends) (i : Fin 2) (c : UInt8) :
    (s.write i c).Appends := by
  intro j
  by_cases hj : j = i
  · subst hj
    simpa [Appending.write] using h j
  · simpa [Appending.write, Function.update_of_ne hj] using h j

theorem Appending.appends_start (content : List UInt8) : (Appending.start content).Appends :=
  fun _ => rfl

/-- The file after some writes. -/
theorem Appending.putAll_write (trace : List UInt8) : ∀ {s : Appending}, s.Appends →
    (putAll Appending.write trace s).file = s.file ++ trace := by
  induction trace with
  | nil =>
    intro s _
    simp [putAll]
  | cons c trace ih =>
    intro s h
    have hrest := ih (Appending.appends_write h (owner c) c)
    rw [Appending.file_write h, List.append_assoc] at hrest
    exact hrest

/-- What `2_1.c` has written and has still to write is the alphabet. -/
structure AppendMain.Inv (content : List UInt8) (s : AppendMain) : Prop where
  appends : s.out.Appends
  file : s.out.file ++ (match s.pc with
    | .loop c => lettersFrom c
    | .put c => c :: lettersFrom (c + 1)
    | .returned => []) = content ++ alphabet
  put_le : ∀ c, s.pc = .put c → c ≤ last

theorem AppendMain.Inv.step {content : List UInt8} {s s' : AppendMain} (h : s.Inv content)
    (hst : s.step = some s') : s'.Inv content ∧ s'.pc.rank < s.pc.rank := by
  have hfile := h.file
  unfold AppendMain.step at hst
  cases hpc : s.pc with
  | returned => simp [hpc] at hst
  | loop c =>
    simp only [hpc, Option.some.injEq] at hst hfile
    subst hst
    by_cases hle : c ≤ last
    · simp only [if_pos hle]
      refine ⟨⟨h.appends, ?_, fun c' hc' => (Pc.put.inj hc') ▸ hle⟩, Nat.lt_succ_self _⟩
      rw [← hfile, lettersFrom_of_le hle]
    · simp only [if_neg hle]
      refine ⟨⟨h.appends, ?_, fun c' hc' => absurd hc' (by simp)⟩, Nat.succ_pos _⟩
      rw [← hfile, lettersFrom_of_lt hle]
  | put c =>
    simp only [hpc, Option.some.injEq] at hst hfile
    subst hst
    refine ⟨⟨Appending.appends_write h.appends _ c, ?_, fun c' hc' => absurd hc' (by simp)⟩,
      rank_next (h.put_le c hpc)⟩
    simp only [Appending.file_write h.appends]
    rw [← hfile, List.append_assoc]
    rfl

/-- The loop of `2_1.c` ends with the alphabet behind what was in the file. -/
theorem appendMain_endsIn (content : List UInt8) :
    (appendMain content).EndsIn fun s => s.pc = .returned ∧ s.out.file = content ++ alphabet := by
  refine Machine.endsIn_of_measure (I := AppendMain.Inv content) (fun s => s.pc.rank)
    ⟨Appending.appends_start content, rfl, fun c hc => absurd hc (by simp [appendMain])⟩
    (fun s _ s' hs hst => hs.step hst) fun s hs hstuck => ?_
  have hnone : s.step = none := hstuck ()
  have hfile := hs.file
  unfold AppendMain.step at hnone
  cases hpc : s.pc with
  | loop c => simp [hpc] at hnone
  | put c => simp [hpc] at hnone
  | returned =>
    rw [hpc] at hfile
    exact ⟨rfl, (List.append_nil _).symm.trans hfile⟩

/-- Whatever the order of the steps of `2_1_thread.c`, it ends, and leaves what was in the file
followed by every letter once, those of each thread in order; `2_1.c` ends, and leaves what was
in the file followed by the alphabet in order. -/
theorem append_loses_nothing (content : List UInt8) :
    ((appendThreads content).machine.EndsIn fun s => s.closed = 2 ∧
      ∃ rest, s.data.out.file = content ++ rest ∧ rest.Perm alphabet ∧
        ∀ i, rest.filter (own i) = letters i) ∧
    (appendMain content).EndsIn fun s =>
      s.pc = .returned ∧ s.out.file = content ++ alphabet :=
  ⟨writers_endsIn (Q := fun s : Appending => ∃ rest, s.file = content ++ rest ∧ rest.Perm alphabet ∧
        ∀ i, rest.filter (own i) = letters i) fun trace htrace =>
      ⟨trace, Appending.putAll_write trace (Appending.appends_start content), htrace.perm, htrace⟩,
    appendMain_endsIn content⟩

/-! ## 5. 3_thread.c: streams opened with "w" and "a" -/

/-- `q.txt`, and the streams `fs[0]` and `fs[1]`. -/
structure Streams where
  file : List UInt8
  fs : Fin 2 → OutStream UInt8

/-- `fopen("q.txt", "w")` and then `fopen("q.txt", "a")`. -/
def Streams.start (content : List UInt8) : Streams :=
  let w := OutStream.fopen false content
  let a := OutStream.fopen true w.1
  ⟨a.1, fun i => if i = 0 then w.2 else a.2⟩

/-- `fprintf(fs[i], "%c", c)` with buffers of `B` bytes. -/
def Streams.fprintf (B : Nat) (i : Fin 2) (c : UInt8) (s : Streams) : Streams :=
  ⟨((s.fs i).fprintf 0 B s.file c).1, Function.update s.fs i ((s.fs i).fprintf 0 B s.file c).2⟩

/-- `fclose(fs[i])` -/
def Streams.fclose (i : Fin 2) (s : Streams) : Streams :=
  ⟨((s.fs i).fclose 0 s.file).1, Function.update s.fs i ((s.fs i).fclose 0 s.file).2⟩

theorem Streams.fs_fprintf_of_ne (B : Nat) {i j : Fin 2} (h : j ≠ i) (c : UInt8) (s : Streams) :
    (s.fprintf B i c).fs j = s.fs j := Function.update_of_ne h _ _

theorem Streams.fs_fclose_of_ne {i j : Fin 2} (h : j ≠ i) (s : Streams) :
    (s.fclose i).fs j = s.fs j := Function.update_of_ne h _ _

/-- `3_thread.c` -/
def streamThreads (content : List UInt8) (B : Nat) : ForkJoin 2 (State Streams) :=
  writers (Streams.start content) (Streams.fprintf B) Streams.fclose

/-- **While the buffers have room nothing is written.** -/
theorem Streams.putAll_fprintf (content : List UInt8) (B : Nat) (trace : List UInt8)
    (h : ∀ i, (trace.filter (own i)).length ≤ B) :
    putAll (Streams.fprintf B) trace (Streams.start content) =
      ⟨[], fun i => ⟨OpenFile.opened (i = 1), trace.filter (own i)⟩⟩ := by
  induction trace using List.reverseRecOn with
  | nil =>
    simp only [putAll, List.foldl_nil, Streams.start, OutStream.fopen, Streams.mk.injEq]
    refine ⟨rfl, funext fun i => ?_⟩
    obtain rfl | rfl : i = 0 ∨ i = 1 := by omega
    · rfl
    · rfl
  | append_singleton trace c ih =>
    have hlen : ∀ i, (trace.filter (own i)).length ≤ B := fun i => by
      have hi := h i
      rw [List.filter_append, List.length_append] at hi
      omega
    have hown : own (owner c) c = true := (own_owner c (owner c)).mpr rfl
    have hroom : (trace.filter (own (owner c))).length < B := by
      have hi := h (owner c)
      rw [List.filter_append, List.filter_cons_of_pos hown] at hi
      simpa [Nat.succ_le_iff] using hi
    rw [putAll_concat, ih hlen, Streams.fprintf, OutStream.fprintf_of_lt 0 [] c hroom]
    simp only [Streams.mk.injEq, true_and]
    funext i
    by_cases hi : i = owner c
    · subst hi
      simp [List.filter_append, hown]
    · have hother : own i c = false := by
        rw [Bool.eq_false_iff, Ne, own_owner]
        exact Ne.symm hi
      simp [Function.update_of_ne hi, List.filter_append, hother]

/-- **What `main` closes**: the letters of thread 0 are written to the empty file, and those of
thread 1 after them. -/
theorem Streams.file_fclose (buffer : Fin 2 → List UInt8) :
    (Streams.fclose 1 (Streams.fclose 0
      ⟨[], fun i => ⟨OpenFile.opened (i = 1), buffer i⟩⟩)).file = buffer 0 ++ buffer 1 := by
  have h0 : (Streams.fclose 0 ⟨[], fun i => ⟨OpenFile.opened (i = 1), buffer i⟩⟩).file =
      buffer 0 := OutStream.fclose_empty 0 rfl rfl
  rw [Streams.fclose, h0]
  exact OutStream.fclose_append 0 (buffer 0) rfl

/-- Whatever the file, the capacity of buffers that hold all that a thread prints, and the order
of the steps of `3_thread.c`: it ends, and leaves the letters of thread 0 in order followed by
those of thread 1 in order, which are all the letters once. -/
theorem streams_schedule_independent (content : List UInt8) {B : Nat}
    (hB : ∀ i, (letters i).length < B) :
    (streamThreads content B).machine.EndsIn fun s => s.closed = 2 ∧
      s.data.out.file = letters 0 ++ letters 1 ∧ s.data.out.file.Perm alphabet := by
  refine writers_endsIn
    (Q := fun s : Streams => s.file = letters 0 ++ letters 1 ∧ s.file.Perm alphabet)
    fun trace htrace => ?_
  have hfile : (Streams.fclose 1 (Streams.fclose 0
      (putAll (Streams.fprintf B) trace (Streams.start content)))).file =
      letters 0 ++ letters 1 := by
    rw [Streams.putAll_fprintf content B trace fun i => by
        rw [htrace i]
        exact Nat.le_of_lt (hB i),
      Streams.file_fclose, htrace 0, htrace 1]
  refine ⟨hfile, ?_⟩
  rw [hfile]
  exact alphabet_split

/-- Buffers of a block. -/
theorem streams_schedule_independent_block :
    (∀ i, (letters i).length < 4096) ∧
    (streamThreads [120, 121] 4096).machine.EndsIn fun s => s.closed = 2 ∧
      s.data.out.file = letters 0 ++ letters 1 ∧ s.data.out.file.Perm alphabet :=
  ⟨by decide, streams_schedule_independent [120, 121] (by decide)⟩

end OsLabs.Writers
