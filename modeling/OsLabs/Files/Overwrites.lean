/-
# Which files can be left, and what is lost

`writers_endsIn` says that what the two threads leave comes from an interleaving of their letters;
here is the converse, that every interleaving is put by some schedule (`writers_reaches`).  So the
files that `2_1_thread.c` can leave are known exactly (`append_files_iff`), and `3_thread.c` leaves
every letter in all its runs only if a buffer has room for the letters of one thread
(`streams_complete_iff`): otherwise the stream opened with "w" may write over what the one opened
with "a" has written.

`3.c` opens the file twice with "w".  Whatever the buffers, the second stream writes over all of
the first (`second_stream_wins`).
-/
import OsLabs.Files.Writers

namespace OsLabs.Writers

open OsLabs

/-! ## 1. Every interleaving -/

section Interleavings

variable {σ : Type} (out : σ) (put : Fin 2 → UInt8 → σ → σ) (close : Fin 2 → σ → σ) {s : State σ}
  {i : Fin 2} {c d : UInt8} {rest trace : List UInt8}

/-- A thread passes over the letters of the other one. -/
theorem reaches_own : ∀ (l : List UInt8) (d : UInt8) (s : State σ), lettersFrom d = l →
    s.pc i = .loop d → ∃ e,
      Relation.ReflTransGen (writers out put close).ThreadStep s
        ⟨Function.update s.pc i (.loop e), s.out⟩ ∧
      (lettersFrom e).filter (own i) = l.filter (own i) ∧ (e ≤ last → own i e = true) := by
  intro l
  induction l with
  | nil =>
    intro d s hl hpc
    refine ⟨d, by rw [← hpc, Function.update_eq_self], by rw [hl], fun hle => ?_⟩
    rw [lettersFrom_of_le hle] at hl
    exact absurd hl (by simp)
  | cons x l ih =>
    intro d s hl hpc
    have hle : d ≤ last := by
      by_contra hlt
      rw [lettersFrom_of_lt hlt] at hl
      exact absurd hl (by simp)
    by_cases hown : own i d = true
    · exact ⟨d, by rw [← hpc, Function.update_eq_self], by rw [hl], fun _ => hown⟩
    · rw [lettersFrom_of_le hle] at hl
      obtain ⟨rfl, htail⟩ := List.cons.inj hl
      obtain ⟨e, hreach, hfilter, hlast⟩ :=
        ih (d + 1) ⟨Function.update s.pc i (.loop (d + 1)), s.out⟩ htail (by simp)
      rw [Function.update_idem] at hreach
      refine ⟨e, .head ⟨i, ?_⟩ hreach, by rw [hfilter, List.filter_cons_of_neg hown], hlast⟩
      simp [writers, thread, hpc, test, hle, hown]

/-- A thread in its loop comes to its next letter, and puts it. -/
theorem reaches_put (hpc : s.pc i = .loop d) (hnext : (lettersFrom d).filter (own i) = c :: rest) :
    Relation.ReflTransGen (writers out put close).ThreadStep s
        ⟨Function.update s.pc i (.loop (c + 1)), put i c s.out⟩ ∧
      (lettersFrom (c + 1)).filter (own i) = rest := by
  obtain ⟨e, hreach, hfilter, hown⟩ := reaches_own out put close _ d s rfl hpc
  rw [hnext] at hfilter
  have hle : e ≤ last := by
    by_contra hlt
    rw [lettersFrom_of_lt hlt] at hfilter
    exact absurd hfilter (by simp)
  rw [lettersFrom_of_le hle, List.filter_cons_of_pos (hown hle)] at hfilter
  obtain ⟨rfl, hrest⟩ := List.cons.inj hfilter
  refine ⟨(hreach.tail (c := ⟨Function.update s.pc i (.put e), s.out⟩) ⟨i, ?_⟩).tail ⟨i, ?_⟩, hrest⟩
  · simp [writers, thread, test, hle, hown hle]
  · simp [writers, thread]

/-- A thread without a letter left returns. -/
theorem reaches_end (hpc : s.pc i = .loop d) (hnone : (lettersFrom d).filter (own i) = []) :
    Relation.ReflTransGen (writers out put close).ThreadStep s
      ⟨Function.update s.pc i .returned, s.out⟩ := by
  obtain ⟨e, hreach, hfilter, hown⟩ := reaches_own out put close _ d s rfl hpc
  rw [hnone] at hfilter
  have hlt : ¬ e ≤ last := fun hle => by
    rw [lettersFrom_of_le hle, List.filter_cons_of_pos (hown hle)] at hfilter
    exact absurd hfilter (by simp)
  refine hreach.tail ⟨i, ?_⟩
  simp [writers, thread, test, hlt]

/-- The letters of `trace` have been put, and both threads are in their loops. -/
structure Stands (s : State σ) (trace : List UInt8) : Prop where
  out : s.out = putAll put trace out
  todo : ∀ i, ∃ d, s.pc i = .loop d ∧
    trace.filter (own i) ++ (lettersFrom d).filter (own i) = letters i

/-- **Any letter that is a thread's next** can be the next that is put. -/
theorem stands_reaches : ∀ (rest : List UInt8) {trace : List UInt8} {s : State σ},
    Stands out put s trace → Puts (trace ++ rest) →
      ∃ t, Relation.ReflTransGen (writers out put close).ThreadStep s t ∧
        Stands out put t (trace ++ rest) := by
  intro rest
  induction rest with
  | nil =>
    intro trace s h _
    exact ⟨s, .refl, by rwa [List.append_nil]⟩
  | cons c rest ih =>
    intro trace s h hputs
    have hcons : trace ++ c :: rest = (trace ++ [c]) ++ rest := by simp
    have hown : own (owner c) c = true := (own_owner c (owner c)).mpr rfl
    obtain ⟨d, hpc, htodo⟩ := h.todo (owner c)
    have hnext : (lettersFrom d).filter (own (owner c)) = c :: rest.filter (own (owner c)) := by
      have hall := hputs (owner c)
      rw [List.filter_append, List.filter_cons_of_pos hown, ← htodo] at hall
      exact (List.append_cancel_left hall).symm
    obtain ⟨hput, hleft⟩ := reaches_put out put close hpc hnext
    have hstands : Stands out put
        ⟨Function.update s.pc (owner c) (.loop (c + 1)), put (owner c) c s.out⟩ (trace ++ [c]) := by
      refine ⟨by rw [putAll_concat, ← h.out], fun j => ?_⟩
      by_cases hj : j = owner c
      · subst hj
        refine ⟨c + 1, by simp, ?_⟩
        rw [hleft, List.filter_append, ← htodo, hnext]
        simp [hown]
      · obtain ⟨e, he, hdone⟩ := h.todo j
        refine ⟨e, by simpa [Function.update_of_ne hj] using he, ?_⟩
        have hother : own j c = false := by
          rw [Bool.eq_false_iff, Ne, own_owner]
          exact Ne.symm hj
        rw [← hdone, List.filter_append]
        simp [hother]
    obtain ⟨t, ht, hlast⟩ := ih hstands (by rwa [← hcons])
    exact ⟨t, hput.trans ht, by rwa [hcons]⟩

/-- **Every interleaving of the letters** is put by some schedule of the threads. -/
theorem writers_reaches (htrace : Puts trace) : ∃ s, (writers out put close).machine.Reachable s ∧
    (writers out put close).machine.Stuck s ∧
      s.data.out = close 1 (close 0 (putAll put trace out)) := by
  have hstart : Stands out put (writers out put close).init [] :=
    ⟨rfl, fun i => ⟨first, rfl, rfl⟩⟩
  obtain ⟨s, hs, hat⟩ := stands_reaches out put close trace hstart htrace
  rw [List.nil_append] at hat
  have hnone : ∀ i, ∃ d, s.pc i = .loop d ∧ (lettersFrom d).filter (own i) = [] := fun i => by
    obtain ⟨d, hpc, hall⟩ := hat.todo i
    rw [htrace i] at hall
    exact ⟨d, hpc, List.append_cancel_left (hall.trans (List.append_nil _).symm)⟩
  obtain ⟨d₀, hpc₀, hnone₀⟩ := hnone 0
  obtain ⟨d₁, hpc₁, hnone₁⟩ := hnone 1
  have h₀ := reaches_end out put close hpc₀ hnone₀
  have h₁ := reaches_end out put close (s := ⟨Function.update s.pc 0 .returned, s.out⟩) (i := 1)
    (by simpa using hpc₁) hnone₁
  have hdone : ∀ i, (writers out put close).done i
      ⟨Function.update (Function.update s.pc 0 .returned) 1 .returned, s.out⟩ = true := by
    intro i
    obtain rfl | rfl : i = 0 ∨ i = 1 := by omega
    · simp [writers]
    · simp [writers]
  have hlawful : (writers out put close).Lawful (Inv put out) measure := writers_lawful
  refine ⟨_, ForkJoin.reachable_of_threads ((hs.trans h₀).trans h₁) hdone,
    hlawful.stuck_returned hdone, ?_⟩
  rw [← hat.out]
  rfl

end Interleavings

/-- **The files that `2_1_thread.c` can leave** are what was there with any interleaving of the
letters behind it. -/
theorem append_files_iff (content file : List UInt8) :
    (∃ s, (appendThreads content).machine.Reachable s ∧ (appendThreads content).machine.Stuck s ∧
        s.data.out.file = file) ↔ ∃ trace, Puts trace ∧ file = content ++ trace := by
  have hfile : ∀ trace, (putAll Appending.write trace (Appending.start content)).file =
      content ++ trace := fun trace =>
    Appending.putAll_write trace (Appending.appends_start content)
  constructor
  · rintro ⟨s, hs, hstuck, rfl⟩
    have hends : (appendThreads content).machine.EndsIn fun s => s.closed = 2 ∧
        ∃ trace, Puts trace ∧ s.data.out.file = content ++ trace :=
      writers_endsIn (Q := fun s : Appending => ∃ trace, Puts trace ∧ s.file = content ++ trace)
        fun trace htrace => ⟨trace, htrace, hfile trace⟩
    exact (hends.final s hs hstuck).2
  · rintro ⟨trace, htrace, rfl⟩
    obtain ⟨s, hs, hstuck, hout⟩ := writers_reaches (Appending.start content) Appending.write
      (fun _ s => s) htrace
    exact ⟨s, hs, hstuck, by rw [hout, hfile]⟩

/-! ## 2. How large the buffers of 3_thread.c have to be -/

theorem puts_second_first : Puts (letters 1 ++ letters 0) := by
  intro i
  obtain rfl | rfl : i = 0 ∨ i = 1 := by omega
  · decide
  · decide

/-- Thread 1 runs alone: what it has printed is in the file or in its buffer. -/
theorem Streams.putAll_second (content : List UInt8) {B : Nat} (hB : 0 < B) (trace : List UInt8)
    (h : ∀ c ∈ trace, owner c = 1) :
    ∃ s, putAll (Streams.fprintf B) trace (Streams.start content) = s ∧
      s.fs 0 = ⟨OpenFile.opened false, []⟩ ∧ (s.fs 1).fd.append = true ∧
      (s.fs 1).buffer.length ≤ B ∧ s.file ++ (s.fs 1).buffer = trace := by
  induction trace using List.reverseRecOn with
  | nil => exact ⟨_, rfl, rfl, rfl, Nat.zero_le _, rfl⟩
  | append_singleton trace c ih =>
    obtain ⟨s, hs, h0, happend, -, htrace⟩ := ih fun x hx => h x (List.mem_append_left _ hx)
    obtain ⟨hfile, happend'⟩ := OutStream.fprintf_append 0 B s.file c happend
    refine ⟨s.fprintf B 1 c, ?_, ?_, ?_, ?_, ?_⟩
    · rw [putAll_concat, hs, h c (by simp)]
    · rw [Streams.fs_fprintf_of_ne B (by decide), h0]
    · simpa [Streams.fprintf] using happend'
    · simpa [Streams.fprintf] using OutStream.length_buffer_fprintf 0 hB s.file c
    · simpa [Streams.fprintf, htrace] using hfile

/-- Thread 0 runs alone: it writes no further than it has printed. -/
theorem Streams.putAll_first {B n : Nat} (trace : List UInt8) (h : ∀ c ∈ trace, owner c = 0)
    {s : Streams} (happend : (s.fs 0).fd.append = false) (hfile : s.file.length ≤ n)
    (htell : (s.fs 0).tell + trace.length ≤ n) :
    ∃ t, putAll (Streams.fprintf B) trace s = t ∧ t.fs 1 = s.fs 1 ∧
      (t.fs 0).fd.append = false ∧ t.file.length ≤ n ∧ (t.fs 0).tell ≤ n := by
  induction trace generalizing s with
  | nil => exact ⟨s, rfl, rfl, happend, hfile, htell⟩
  | cons c trace ih =>
    obtain ⟨hlen, hnext, happend'⟩ := OutStream.fprintf_tell 0 B s.file c happend
    rw [List.length_cons] at htell
    have hstep : putAll (Streams.fprintf B) (c :: trace) s =
        putAll (Streams.fprintf B) trace (s.fprintf B 0 c) := by
      rw [← h c List.mem_cons_self]
      rfl
    obtain ⟨t, ht, h1, hrest⟩ := ih (fun x hx => h x (List.mem_cons_of_mem _ hx))
      (s := s.fprintf B 0 c) (by simpa [Streams.fprintf] using happend')
      (Nat.le_trans hlen (max_le hfile (by omega))) (by simp [Streams.fprintf, hnext]; omega)
    refine ⟨t, hstep.trans ht, ?_, hrest⟩
    rw [h1, Streams.fs_fprintf_of_ne B (by decide)]

/-- **Letters are lost**: thread 1 has had to write before thread 0 writes its first letter, and
what it wrote is written over. -/
theorem length_second_first (content : List UInt8) {B : Nat} (hpos : 0 < B) (hB : B < 13) :
    (Streams.fclose 1 (Streams.fclose 0 (putAll (Streams.fprintf B) (letters 1 ++ letters 0)
      (Streams.start content)))).file.length < 26 := by
  have hlength : ∀ i, (letters i).length = 13 := by decide
  obtain ⟨s, hs, h0, happend, hroom, htrace⟩ := Streams.putAll_second content hpos (letters 1)
    fun _ => owner_of_mem_letters
  have hfile : s.file.length + (s.fs 1).buffer.length = 13 := by
    rw [← List.length_append, htrace, hlength]
  obtain ⟨t, ht, h1, hfirst, hlen, htell⟩ := Streams.putAll_first (B := B) (n := 13) (letters 0)
    (fun _ => owner_of_mem_letters) (s := s) (by rw [h0]; rfl) (by omega) (by rw [h0, hlength]; rfl)
  have hboth : putAll (Streams.fprintf B) (letters 1 ++ letters 0) (Streams.start content) = t := by
    rw [← ht, ← hs, putAll, List.foldl_append]
    rfl
  have hclosed : (Streams.fclose 0 t).file.length ≤ 13 :=
    Nat.le_trans (OutStream.length_fclose_le 0 t.file hfirst) (max_le hlen htell)
  have hsecond : (Streams.fclose 0 t).fs 1 = s.fs 1 := by
    rw [Streams.fs_fclose_of_ne (by decide), h1]
  have hlast : (Streams.fclose 1 (Streams.fclose 0 t)).file =
      (Streams.fclose 0 t).file ++ (s.fs 1).buffer := by
    rw [← hsecond]
    exact OutStream.fclose_append 0 _ (by rw [hsecond]; exact happend)
  rw [hboth, hlast, List.length_append]
  omega

/-- **The file is complete in every run** of `3_thread.c` exactly if a buffer has room for the
letters of one thread. -/
theorem streams_complete_iff (content : List UInt8) {B : Nat} (hpos : 0 < B) :
    (∀ s, (streamThreads content B).machine.Reachable s →
        (streamThreads content B).machine.Stuck s → s.data.out.file.Perm alphabet) ↔ 13 ≤ B := by
  constructor
  · intro h
    by_contra hB
    obtain ⟨s, hs, hstuck, hout⟩ := writers_reaches (Streams.start content) (Streams.fprintf B)
      Streams.fclose puts_second_first
    have hlen := (h s hs hstuck).length_eq
    rw [hout] at hlen
    have hlt := length_second_first content hpos (Nat.lt_of_not_le hB)
    rw [hlen] at hlt
    exact absurd hlt (by decide)
  · intro hB s hs hstuck
    have hletters : ∀ i, (letters i).length ≤ B := by
      intro i
      obtain rfl | rfl : i = 0 ∨ i = 1 := by omega
      · exact hB
      · exact hB
    have hends : (streamThreads content B).machine.EndsIn fun s =>
        s.closed = 2 ∧ s.data.out.file.Perm alphabet := by
      refine writers_endsIn (Q := fun s : Streams => s.file.Perm alphabet) fun trace htrace => ?_
      rw [Streams.putAll_fprintf content B trace fun i => by rw [htrace i]; exact hletters i,
        Streams.file_fclose, htrace 0, htrace 1]
      exact alphabet_split
    exact (hends.final s hs hstuck).2

/-- Buffers one byte too small for the letters of a thread. -/
theorem streams_complete_iff_twelve : ¬ ∀ s, (streamThreads [] 12).machine.Reachable s →
    (streamThreads [] 12).machine.Stuck s → s.data.out.file.Perm alphabet := fun h =>
  absurd ((streams_complete_iff [] (by decide)).mp h) (by decide)

/-! ## 3. 3.c: two streams opened with "w" -/

/-- The file with the streams `fs1` and `fs2`, which are number 0 and 1, and the sizes that
`PRINT_STAT` has printed. -/
structure TwoStreams where
  streams : Streams
  sizes : List Nat

namespace TwoStreams

/-- `PRINT_STAT` -/
def stat (s : TwoStreams) : TwoStreams := { s with sizes := s.sizes ++ [s.streams.file.length] }

/-- `fopen("q.txt", "w")`, twice. -/
def opened (content : List UInt8) : TwoStreams :=
  let w := OutStream.fopen false content
  let w' := OutStream.fopen false w.1
  ⟨⟨w'.1, fun i => if i = 0 then w.2 else w'.2⟩, [w.1.length, w'.1.length]⟩

/-- The body of the loop. -/
def letter (B : Nat) (s : TwoStreams) (c : UInt8) : TwoStreams :=
  { s with streams := s.streams.fprintf B (if c % 2 ≠ 0 then 0 else 1) c }.stat

def fclose (i : Fin 2) (s : TwoStreams) : TwoStreams :=
  { s with streams := s.streams.fclose i }.stat

/-- `main` of `3.c` -/
def main (content : List UInt8) (B : Nat) : TwoStreams :=
  (((lettersFrom first).foldl (letter B) (opened content)).fclose 0).fclose 1

end TwoStreams

/-- What was printed to both streams is as long, and the same stretch of it has been written, that
of the second stream last. -/
structure Lockstep (u v : List UInt8) (q : Nat) (s : Streams) : Prop where
  length : u.length = v.length
  le : q ≤ v.length
  file : s.file = v.take q
  fs1 : s.fs 0 = ⟨⟨q, false⟩, u.drop q⟩
  fs2 : s.fs 1 = ⟨⟨q, false⟩, v.drop q⟩

variable {u v : List UInt8} {q : Nat} {s : Streams}

/-- **Both streams write what they hold**, and only what the second has written is left. -/
theorem Lockstep.flush (h : Lockstep u v q s) {x y : List UInt8} (hlen : x.length = y.length) :
    let w := (⟨⟨q, false⟩, u.drop q ++ x⟩ : OutStream UInt8).flush 0 s.file
    let w' := (⟨⟨q, false⟩, v.drop q ++ y⟩ : OutStream UInt8).flush 0 w.1
    w'.1 = v ++ y ∧ w.2 = ⟨⟨v.length + y.length, false⟩, []⟩ ∧
      w'.2 = ⟨⟨v.length + y.length, false⟩, []⟩ := by
  have hlength := h.length
  have htake : q = (v.take q).length := (List.length_take_of_le h.le).symm
  have hdrop : (u.drop q ++ x).length = (v.drop q ++ y).length := by simp [hlength, hlen]
  have hfirst : (⟨q, false⟩ : OpenFile).write 0 (v.take q ++ []) (u.drop q ++ x) =
      (v.take q ++ (u.drop q ++ x), ⟨(v.take q).length + (u.drop q ++ x).length, false⟩) :=
    OpenFile.write_over 0 rfl htake (Nat.zero_le _)
  have hsecond : (⟨q, false⟩ : OpenFile).write 0 (v.take q ++ (u.drop q ++ x)) (v.drop q ++ y) =
      (v.take q ++ (v.drop q ++ y), ⟨(v.take q).length + (v.drop q ++ y).length, false⟩) :=
    OpenFile.write_over 0 rfl htake (Nat.le_of_eq hdrop)
  have hall : v.take q ++ (v.drop q ++ y) = v ++ y := by
    rw [← List.append_assoc, List.take_append_drop]
  have hend : (v.take q).length + (v.drop q ++ y).length = v.length + y.length := by
    rw [← List.length_append, hall, List.length_append]
  rw [List.append_nil] at hfirst
  simp only [OutStream.flush, h.file, hfirst, hsecond, hall, hdrop, hend, and_self]

/-- A letter for each stream. -/
theorem Lockstep.pair (h : Lockstep u v q s) (B : Nat) (a b : UInt8) :
    ∃ q', Lockstep (u ++ [a]) (v ++ [b]) q' ((s.fprintf B 0 a).fprintf B 1 b) := by
  have hq := h.le
  have hlength := h.length
  have hne : (1 : Fin 2) ≠ 0 := by decide
  have hne' : (0 : Fin 2) ≠ 1 := by decide
  by_cases hlt : (u.drop q).length < B
  · -- both buffers have room
    have hlt' : (v.drop q).length < B := by simpa [hlength] using hlt
    have hfirst : ∀ file, (⟨⟨q, false⟩, u.drop q⟩ : OutStream UInt8).fprintf 0 B file a =
        (file, ⟨⟨q, false⟩, u.drop q ++ [a]⟩) :=
      fun file => OutStream.fprintf_of_lt 0 file a hlt
    have hsecond : ∀ file, (⟨⟨q, false⟩, v.drop q⟩ : OutStream UInt8).fprintf 0 B file b =
        (file, ⟨⟨q, false⟩, v.drop q ++ [b]⟩) :=
      fun file => OutStream.fprintf_of_lt 0 file b hlt'
    refine ⟨q, by simp [hlength], by rw [List.length_append]; omega, ?_, ?_, ?_⟩
    · simp only [Streams.fprintf, h.fs1, h.fs2, Function.update_of_ne hne, hfirst, hsecond, h.file]
      rw [List.take_append_of_le_length hq]
    · simp only [Streams.fprintf, h.fs1, Function.update_of_ne hne', Function.update_self, hfirst]
      rw [List.drop_append_of_le_length (hlength ▸ hq)]
    · simp only [Streams.fprintf, h.fs2, Function.update_of_ne hne, Function.update_self, hsecond]
      rw [List.drop_append_of_le_length hq]
  · -- both are full, and the letters are the first of the next block
    obtain ⟨hfile, hw, hw'⟩ := h.flush (x := []) (y := []) rfl
    simp only [List.append_nil, List.length_nil, Nat.add_zero] at hfile hw hw'
    have hle : B ≤ (u.drop q).length := Nat.le_of_not_lt hlt
    have hle' : B ≤ (v.drop q).length := by simpa [hlength] using hle
    have hfirst : ∀ file, (⟨⟨q, false⟩, u.drop q⟩ : OutStream UInt8).fprintf 0 B file a =
        ((OutStream.flush 0 ⟨⟨q, false⟩, u.drop q⟩ file).1,
          { (OutStream.flush 0 ⟨⟨q, false⟩, u.drop q⟩ file).2 with buffer := [a] }) :=
      fun file => OutStream.fprintf_of_le 0 file a hle
    have hsecond : ∀ file, (⟨⟨q, false⟩, v.drop q⟩ : OutStream UInt8).fprintf 0 B file b =
        ((OutStream.flush 0 ⟨⟨q, false⟩, v.drop q⟩ file).1,
          { (OutStream.flush 0 ⟨⟨q, false⟩, v.drop q⟩ file).2 with buffer := [b] }) :=
      fun file => OutStream.fprintf_of_le 0 file b hle'
    refine ⟨v.length, by simp [hlength], by simp, ?_, ?_, ?_⟩
    · simp only [Streams.fprintf, h.fs1, h.fs2, Function.update_of_ne hne, hfirst, hsecond, hfile]
      rw [List.take_left]
    · simp only [Streams.fprintf, h.fs1, Function.update_of_ne hne', Function.update_self, hfirst,
        hw]
      rw [List.drop_left' hlength]
    · simp only [Streams.fprintf, h.fs1, h.fs2, Function.update_of_ne hne, Function.update_self,
        hfirst, hsecond, hw']
      rw [List.drop_left]

/-- **The closes**: what the second stream has still to write comes last. -/
theorem Lockstep.close (h : Lockstep u v q s) : ((s.fclose 0).fclose 1).file = v := by
  have hne : (1 : Fin 2) ≠ 0 := by decide
  obtain ⟨hfile, -, -⟩ := h.flush (x := []) (y := []) rfl
  have hlength := h.length
  simp only [List.append_nil] at hfile
  by_cases hnil : v.drop q = []
  · have hnil' : u.drop q = [] := by
      rw [List.drop_eq_nil_iff] at hnil ⊢
      omega
    simp only [Streams.fclose, h.fs1, h.fs2, Function.update_of_ne hne, OutStream.fclose, hnil,
      hnil', if_true, h.file]
    exact List.take_of_length_le (List.drop_eq_nil_iff.mp hnil)
  · have hnil' : u.drop q ≠ [] := by
      rw [List.drop_eq_nil_iff] at hnil
      rw [Ne, List.drop_eq_nil_iff]
      omega
    simp only [Streams.fclose, h.fs1, h.fs2, Function.update_of_ne hne, OutStream.fclose, hnil,
      hnil', if_false, hfile]

theorem Streams.length_le_fprintf (B : Nat) (i : Fin 2) (c : UInt8) (s : Streams) :
    s.file.length ≤ (s.fprintf B i c).file.length := by
  simp only [Streams.fprintf, OutStream.fprintf]
  split
  · exact Nat.le_refl _
  · exact OutStream.length_le_flush 0 _ _

theorem Streams.length_le_fclose (i : Fin 2) (s : Streams) :
    s.file.length ≤ (s.fclose i).file.length := by
  simp only [Streams.fclose, OutStream.fclose]
  split
  · exact Nat.le_refl _
  · exact OutStream.length_le_flush 0 _ _

namespace TwoStreams

/-- The sizes printed do not decrease, and the last of them is that of the file. -/
structure Grows (s : TwoStreams) : Prop where
  sorted : s.sizes.Pairwise (· ≤ ·)
  last : s.sizes.getLast? = some s.streams.file.length

theorem grows_stat {s : TwoStreams} (h : s.Grows) {streams : Streams}
    (hle : s.streams.file.length ≤ streams.file.length) :
    ({ s with streams := streams } : TwoStreams).stat.Grows := by
  refine ⟨List.pairwise_append.mpr ⟨h.sorted, List.pairwise_singleton _ _, ?_⟩, by simp [stat]⟩
  intro x hx y hy
  rw [List.mem_singleton.mp hy]
  obtain ⟨l, n, hl⟩ : ∃ l n, s.sizes = l ++ [n] := by
    refine ⟨s.sizes.dropLast, _, (List.dropLast_append_getLast (List.ne_nil_of_mem hx)).symm⟩
  have hlast := h.last
  have hsorted := h.sorted
  rw [hl] at hlast hsorted hx
  simp only [List.getLast?_append, List.getLast?_singleton, Option.some_or,
    Option.some.injEq] at hlast
  rw [List.pairwise_append] at hsorted
  rcases List.mem_append.mp hx with hmem | hmem
  · exact le_trans (hsorted.2.2 x hmem n (by simp)) (hlast ▸ hle)
  · rw [List.mem_singleton.mp hmem]
    exact hlast ▸ hle

theorem grows_letter (B : Nat) {s : TwoStreams} (c : UInt8) (h : s.Grows) :
    (s.letter B c).Grows :=
  grows_stat h (Streams.length_le_fprintf B _ c s.streams)

theorem grows_fclose (i : Fin 2) {s : TwoStreams} (h : s.Grows) : (s.fclose i).Grows :=
  grows_stat h (Streams.length_le_fclose i s.streams)

theorem grows_opened (content : List UInt8) : (opened content).Grows :=
  ⟨by simp [opened, OutStream.fopen], rfl⟩

theorem grows_loop (B : Nat) (l : List UInt8) {s : TwoStreams} (h : s.Grows) :
    (l.foldl (letter B) s).Grows := by
  induction l generalizing s with
  | nil => exact h
  | cons c l ih => exact ih (grows_letter B c h)

/-- **The loop keeps the streams in step** every two letters. -/
theorem lockstep_loop (B : Nat) (pairs : List (UInt8 × UInt8))
    (hpairs : ∀ p ∈ pairs, p.1 % 2 ≠ 0 ∧ p.2 % 2 = 0) {u v : List UInt8} {q : Nat}
    {s : TwoStreams} (h : Lockstep u v q s.streams) :
    ∃ q', Lockstep (u ++ pairs.map Prod.fst) (v ++ pairs.map Prod.snd) q'
      ((pairs.flatMap fun p => [p.1, p.2]).foldl (letter B) s).streams := by
  induction pairs generalizing u v q s with
  | nil => exact ⟨q, by simpa using h⟩
  | cons p pairs ih =>
    obtain ⟨hodd, heven⟩ := hpairs p (by simp)
    obtain ⟨q', hpair⟩ := h.pair B p.1 p.2
    have hletters : ((s.letter B p.1).letter B p.2).streams =
        (s.streams.fprintf B 0 p.1).fprintf B 1 p.2 := by
      simp [letter, stat, hodd, heven]
    obtain ⟨q'', hall⟩ := ih (fun r hr => hpairs r (by simp [hr])) (hletters ▸ hpair)
    exact ⟨q'', by simpa using hall⟩

end TwoStreams

theorem odd_of_mem {c : UInt8} (h : c ∈ letters 1) : c % 2 ≠ 0 := by
  have hown : own 1 c = true := (List.mem_filter.mp h).2
  intro heven
  rw [own, heven] at hown
  exact absurd hown (by decide)

theorem even_of_mem {c : UInt8} (h : c ∈ letters 0) : c % 2 = 0 := by
  have hown : own 0 c = true := (List.mem_filter.mp h).2
  rw [own, beq_iff_eq] at hown
  exact UInt8.toNat_inj.mp hown

/-- The letters of the alphabet take turns. -/
theorem alphabet_pairs :
    lettersFrom first = ((letters 1).zip (letters 0)).flatMap fun p => [p.1, p.2] := by decide

/-- **The second stream writes over all of the first**: whatever the buffers hold, `3.c` leaves
the letters of `fs2`, half of the alphabet, and the sizes it prints do not decrease. -/
theorem second_stream_wins (content : List UInt8) (B : Nat) :
    (TwoStreams.main content B).streams.file = letters 0 ∧
      (TwoStreams.main content B).sizes.Pairwise (· ≤ ·) ∧
        (TwoStreams.main content B).sizes.getLast? = some 13 := by
  have hstart : Lockstep [] [] 0 (TwoStreams.opened content).streams :=
    ⟨rfl, Nat.le_refl 0, rfl, rfl, rfl⟩
  have hpairs : ∀ p ∈ (letters 1).zip (letters 0), p.1 % 2 ≠ 0 ∧ p.2 % 2 = 0 := fun p hp =>
    ⟨odd_of_mem (List.of_mem_zip hp).1, even_of_mem (List.of_mem_zip hp).2⟩
  obtain ⟨q, hloop⟩ := TwoStreams.lockstep_loop B _ hpairs hstart
  have hsnd : ((letters 1).zip (letters 0)).map Prod.snd = letters 0 := by decide
  rw [← alphabet_pairs, List.nil_append, List.nil_append, hsnd] at hloop
  have hfile : (TwoStreams.main content B).streams.file = letters 0 := hloop.close
  have hgrows : (TwoStreams.main content B).Grows :=
    TwoStreams.grows_fclose 1 (TwoStreams.grows_fclose 0
      (TwoStreams.grows_loop B _ (TwoStreams.grows_opened content)))
  refine ⟨hfile, hgrows.sorted, ?_⟩
  rw [hgrows.last, hfile]
  rfl

end OsLabs.Writers
