/-
# Open file descriptions and stdio streams over them

An open file description has an offset of its own; several descriptors, or several streams, may
share one.  A `read` takes what follows the offset and a `write` goes to the offset, or to the
end of the file if the description was opened with O_APPEND; both are atomic.

A stream keeps a private buffer.  An input stream refills it by one `read` when it is empty, and
one that has seen the end of the file does not read again.  An output stream flushes it by one
`write` when a byte finds it full and when it is closed.

The bytes are of any type, so that a byte can be followed through the buffers by a mark on it.
-/
import Mathlib.Data.List.Basic
import Mathlib.Tactic.Common

namespace OsLabs

variable {α : Type}

/-- An open file description. -/
structure OpenFile where
  offset : Nat
  append : Bool
deriving DecidableEq, Repr

namespace OpenFile

/-- `open` with O_APPEND or without. -/
def opened (append : Bool) : OpenFile := ⟨0, append⟩

/-- `read(fd, buf, n)`: the bytes read, and the description after it. -/
def read (fd : OpenFile) (file : List α) (n : Nat) : List α × OpenFile :=
  let data := (file.drop fd.offset).take n
  (data, { fd with offset := fd.offset + data.length })

/-- Where a `write` begins. -/
def position (fd : OpenFile) (file : List α) : Nat := if fd.append then file.length else fd.offset

/-- `write(fd, data, n)`: the file and the description after it; `zero` fills a hole. -/
def write (zero : α) (fd : OpenFile) (file data : List α) : List α × OpenFile :=
  let pos := fd.position file
  (file.take pos ++ List.replicate (pos - file.length) zero ++ data ++
      file.drop (pos + data.length),
    { fd with offset := pos + data.length })

/-! ## 1. Reads -/

/-- **A read moves a stretch of the file from behind the offset to before it.** -/
theorem take_read (fd : OpenFile) (file : List α) (n : Nat) :
    file.take (fd.read file n).2.offset = file.take fd.offset ++ (fd.read file n).1 := by
  have hlen : ((file.drop fd.offset).take n).length = min n (file.length - fd.offset) := by
    rw [List.length_take, List.length_drop]
  have htake : (file.drop fd.offset).take n =
      (file.drop fd.offset).take ((file.drop fd.offset).take n).length := by
    rw [hlen, ← List.length_drop, ← List.take_take, List.take_length]
  calc file.take (fd.offset + ((file.drop fd.offset).take n).length)
      = file.take fd.offset ++
          (file.drop fd.offset).take ((file.drop fd.offset).take n).length := List.take_add
    _ = file.take fd.offset ++ (file.drop fd.offset).take n := by rw [← htake]

/-- A read of nothing was made at the end of the file. -/
theorem length_le_of_read_nil {fd : OpenFile} {file : List α} {n : Nat} (hn : 0 < n)
    (h : (fd.read file n).1 = []) : file.length ≤ fd.offset := by
  have hlen := congrArg List.length h
  simp only [read, List.length_take, List.length_drop, List.length_nil] at hlen
  omega

theorem offset_read (fd : OpenFile) (file : List α) (n : Nat) :
    (fd.read file n).2.offset = fd.offset + (fd.read file n).1.length := rfl

theorem length_read_le (fd : OpenFile) (file : List α) (n : Nat) :
    (fd.read file n).1.length ≤ file.length - fd.offset := by
  simp only [read, List.length_take, List.length_drop]
  omega

/-! ## 2. Writes -/

/-- **A write with O_APPEND adds to the end**, wherever the offset is. -/
theorem write_append (zero : α) {fd : OpenFile} (file data : List α) (h : fd.append = true) :
    (fd.write zero file data).1 = file ++ data := by
  simp only [write, position, h, if_true, List.take_length, Nat.sub_self, List.replicate_zero,
    List.append_nil]
  rw [List.drop_eq_nil_of_le (by omega), List.append_nil]

/-- A write at the start of an empty file. -/
theorem write_empty (zero : α) {fd : OpenFile} (data : List α) (h : fd.append = false)
    (hoff : fd.offset = 0) : (fd.write zero [] data).1 = data := by
  simp [write, position, h, hoff]

/-- A write makes the file as long as it reaches. -/
theorem length_write (zero : α) (fd : OpenFile) (file data : List α) :
    (fd.write zero file data).1.length = max file.length (fd.position file + data.length) := by
  simp only [write, List.length_append, List.length_take, List.length_replicate, List.length_drop]
  omega

/-- A write over all that stands behind the offset. -/
theorem write_over (zero : α) {fd : OpenFile} {p x data : List α} (h : fd.append = false)
    (hoff : fd.offset = p.length) (hle : x.length ≤ data.length) :
    fd.write zero (p ++ x) data = (p ++ data, { fd with offset := p.length + data.length }) := by
  simp only [write, position, h, hoff, Bool.false_eq_true, if_false, List.take_left,
    List.length_append, Nat.sub_eq_zero_of_le (Nat.le_add_right p.length x.length),
    List.replicate_zero, List.append_nil, Prod.mk.injEq, and_true]
  rw [List.drop_eq_nil_of_le (by rw [List.length_append]; omega), List.append_nil]

@[simp] theorem append_write (zero : α) (fd : OpenFile) (file data : List α) :
    (fd.write zero file data).2.append = fd.append := rfl

end OpenFile

/-! ## 3. Streams -/

/-- A stream opened for reading: what is left in its buffer, and its end-of-file mark. -/
structure InStream (α : Type) where
  buffer : List α
  eof : Bool
deriving DecidableEq, Repr

/-- What one step of `fscanf(fs, "%c", &c)` does: refill the buffer, store a character and
return 1, or return EOF. -/
inductive Scanned (α : Type)
  | refill (fd : OpenFile) (fs : InStream α)
  | char (c : α) (fs : InStream α)
  | eof

/-- The next step of `fscanf(fs, "%c", &c)` on a stream with a buffer of `B` bytes. -/
def InStream.fscanf (B : Nat) (file : List α) (fd : OpenFile) (fs : InStream α) : Scanned α :=
  match fs.buffer with
  | c :: buffer => .char c { fs with buffer := buffer }
  | [] =>
    if fs.eof then .eof
    else .refill (fd.read file B).2
      { buffer := (fd.read file B).1, eof := (fd.read file B).1.isEmpty }

/-- A stream opened for writing. -/
structure OutStream (α : Type) where
  fd : OpenFile
  buffer : List α
deriving DecidableEq, Repr

namespace OutStream

/-- `fopen` with "a" or "w", the latter of which empties the file: the file and the stream. -/
def fopen (append : Bool) (file : List α) : List α × OutStream α :=
  (if append then file else [], ⟨OpenFile.opened append, []⟩)

/-- One `write` of the whole buffer: the file and the stream after it. -/
def flush (zero : α) (fs : OutStream α) (file : List α) : List α × OutStream α :=
  ((fs.fd.write zero file fs.buffer).1,
    { fd := (fs.fd.write zero file fs.buffer).2, buffer := [] })

/-- `fprintf(fs, "%c", c)` on a stream with a buffer of `B` bytes: if it is full, it is flushed. -/
def fprintf (zero : α) (B : Nat) (fs : OutStream α) (file : List α) (c : α) :
    List α × OutStream α :=
  if fs.buffer.length < B then (file, { fs with buffer := fs.buffer ++ [c] })
  else ((fs.flush zero file).1, { (fs.flush zero file).2 with buffer := [c] })

/-- `fclose`: what is buffered is written. -/
def fclose (zero : α) (fs : OutStream α) (file : List α) : List α × OutStream α :=
  if fs.buffer = [] then (file, fs) else fs.flush zero file

/-- **A character for which there is room stays in the buffer.** -/
theorem fprintf_of_lt (zero : α) {B : Nat} {fs : OutStream α} (file : List α) (c : α)
    (h : fs.buffer.length < B) :
    fs.fprintf zero B file c = (file, { fs with buffer := fs.buffer ++ [c] }) := if_pos h

/-- A character that finds the buffer full. -/
theorem fprintf_of_le (zero : α) {B : Nat} {fs : OutStream α} (file : List α) (c : α)
    (h : B ≤ fs.buffer.length) : fs.fprintf zero B file c =
      ((fs.flush zero file).1, { (fs.flush zero file).2 with buffer := [c] }) :=
  if_neg (Nat.not_lt.mpr h)

/-- A file never gets shorter. -/
theorem length_le_flush (zero : α) (fs : OutStream α) (file : List α) :
    file.length ≤ (fs.flush zero file).1.length := by
  rw [flush, OpenFile.length_write]
  exact Nat.le_max_left _ _

/-- A buffer holds no more than it has room for. -/
theorem length_buffer_fprintf (zero : α) {B : Nat} (hB : 0 < B) {fs : OutStream α} (file : List α)
    (c : α) : (fs.fprintf zero B file c).2.buffer.length ≤ B := by
  rcases Nat.lt_or_ge fs.buffer.length B with hlt | hge
  · rw [fprintf_of_lt zero file c hlt, List.length_append, List.length_singleton]
    exact hlt
  · rw [fprintf_of_le zero file c hge, List.length_singleton]
    exact hB

/-- **What a stream that appends has printed** is at the end of the file or in the buffer. -/
theorem fprintf_append (zero : α) (B : Nat) {fs : OutStream α} (file : List α) (c : α)
    (h : fs.fd.append = true) :
    (fs.fprintf zero B file c).1 ++ (fs.fprintf zero B file c).2.buffer =
        file ++ fs.buffer ++ [c] ∧ (fs.fprintf zero B file c).2.fd.append = true := by
  rcases Nat.lt_or_ge fs.buffer.length B with hlt | hge
  · rw [fprintf_of_lt zero file c hlt]
    exact ⟨(List.append_assoc _ _ _).symm, h⟩
  · rw [fprintf_of_le zero file c hge]
    exact ⟨congrArg (· ++ [c]) (OpenFile.write_append zero file fs.buffer h), h⟩

/-- Where the next byte of a stream that does not append will stand. -/
def tell (fs : OutStream α) : Nat := fs.fd.offset + fs.buffer.length

theorem length_flush (zero : α) {fs : OutStream α} (file : List α) (h : fs.fd.append = false) :
    (fs.flush zero file).1.length = max file.length fs.tell := by
  simp only [flush, OpenFile.length_write, OpenFile.position, h, Bool.false_eq_true, if_false, tell]

/-- **A stream that does not append** writes no further than to where its next byte will stand. -/
theorem fprintf_tell (zero : α) (B : Nat) {fs : OutStream α} (file : List α) (c : α)
    (h : fs.fd.append = false) :
    (fs.fprintf zero B file c).1.length ≤ max file.length fs.tell ∧
      (fs.fprintf zero B file c).2.tell = fs.tell + 1 ∧
      (fs.fprintf zero B file c).2.fd.append = false := by
  rcases Nat.lt_or_ge fs.buffer.length B with hlt | hge
  · rw [fprintf_of_lt zero file c hlt]
    exact ⟨Nat.le_max_left _ _, by simp [tell, Nat.add_assoc], h⟩
  · rw [fprintf_of_le zero file c hge]
    refine ⟨Nat.le_of_eq (length_flush zero file h), ?_, h⟩
    simp [tell, flush, OpenFile.write, OpenFile.position, h]

/-- Closing a stream that does not append. -/
theorem length_fclose_le (zero : α) {fs : OutStream α} (file : List α) (h : fs.fd.append = false) :
    (fs.fclose zero file).1.length ≤ max file.length fs.tell := by
  unfold fclose
  split
  · exact Nat.le_max_left _ _
  · exact Nat.le_of_eq (length_flush zero file h)

/-- **Closing a stream that appends** adds its buffer to the file. -/
theorem fclose_append (zero : α) {fs : OutStream α} (file : List α) (h : fs.fd.append = true) :
    (fs.fclose zero file).1 = file ++ fs.buffer := by
  unfold fclose
  split
  · next hnil => rw [hnil, List.append_nil]
  · exact OpenFile.write_append zero file fs.buffer h

/-- Closing a stream that has written nothing yet to an empty file. -/
theorem fclose_empty (zero : α) {fs : OutStream α} (h : fs.fd.append = false)
    (hoff : fs.fd.offset = 0) : (fs.fclose zero []).1 = fs.buffer := by
  unfold fclose
  split
  · next hnil => exact hnil.symm
  · exact OpenFile.write_empty zero fs.buffer h hoff

end OutStream

end OsLabs
