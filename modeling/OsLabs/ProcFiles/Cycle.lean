/-
# fortune refines a list with a cyclic cursor

What the pot is for: a list of strings, to which a write appends, and a cursor that a read moves
to the next string, from behind the last back to the first.  There is no length stored with a
string, so that `readInd` stays on a boundary is a fact about the NULs in `cookiePot`: the page
begins with the strings of the list, each with its NUL (`Stores.pot`), and the two indices are
the lengths of such lists.
-/
import OsLabs.ProcFiles.Strings

namespace OsLabs.Fortune

open Kernel

/-! ## 1. The list and its cursor -/

/-- The strings written so far and the position of the cursor among them. -/
structure Cycle where
  strings : List (List UInt8)
  cursor : Nat
deriving DecidableEq, Repr

def Cycle.empty : Cycle := ⟨[], 0⟩

/-- A write appends its string. -/
def Cycle.write (a : Cycle) (str : List UInt8) : Cycle := { a with strings := a.strings ++ [str] }

/-- The cursor, moved to the first string if it stands behind the last. -/
def Cycle.position (a : Cycle) : Nat := if a.cursor = a.strings.length then 0 else a.cursor

/-- A read returns the string at the cursor and moves the cursor behind it; on the empty list
it returns nothing. -/
def Cycle.read (a : Cycle) : Option (List UInt8) × Cycle :=
  match a.strings[a.position]? with
  | none => (none, a)
  | some str => (some str, { a with cursor := a.position + 1 })

/-- What is written while the cursor stands behind the last string is read next. -/
theorem Cycle.read_write {a : Cycle} (h : a.cursor = a.strings.length) (str : List UInt8) :
    ((a.write str).read).1 = some str := by
  have hpos : (a.write str).position = a.strings.length := by
    rw [Cycle.position, if_neg]
    · exact h
    · simp [Cycle.write, h]
  have hget : (a.write str).strings[(a.write str).position]? = some str := by
    rw [hpos]
    simp [Cycle.write]
  rw [Cycle.read, hget]

/-! ## 2. The operations of the module, in sequence -/

/-- A write of some bytes, or a read of a freshly opened file into a buffer that is large
enough. -/
inductive Op
  | write (bytes : List UInt8)
  | read
deriving DecidableEq, Repr

/-- What an operation returns: the value and the bytes copied to the user. -/
abbrev Answer : Type := Int × List UInt8

/-- A string, read. -/
def readOut (str : List UInt8) : Answer := ((str ++ [newline]).length, str ++ [newline])

/-- The operation, performed by the module. -/
def Op.perform (s : Pot) : Op → Result (Answer × Pot)
  | .write bytes => (fortuneWrite s (.of bytes)).map fun (ret, s') => ((ret, []), s')
  | .read => (fortuneRead s 0 true).map fun (r, s') => ((r.ret, r.data), s')

/-- The operation, performed on the list. -/
def Op.model (a : Cycle) : Op → Answer × Cycle
  | .write bytes => ((bytes.length, []), a.write bytes.dropLast)
  | .read =>
    match a.read with
    | (none, a') => ((0, []), a')
    | (some str, a') => (readOut str, a')

/-- The operations in order, performed by the module: what each returns, and the module. -/
def perform : Pot → List Op → Result (List Answer × Pot)
  | s, [] => .ok ([], s)
  | s, op :: ops => do
    let (x, s') ← op.perform s
    let (xs, t) ← perform s' ops
    return (x :: xs, t)

/-- The operations in order, performed on the list. -/
def model : Cycle → List Op → List Answer × Cycle
  | a, [] => ([], a)
  | a, op :: ops => ((op.model a).1 :: (model (op.model a).2 ops).1, (model (op.model a).2 ops).2)

/-- The number of bytes an operation writes. -/
def Op.written : Op → Nat
  | .write bytes => bytes.length
  | .read => 0

/-- A write has a byte to lose, leaves room for the newline in `tmpBuf`, and has no NUL among
the bytes it keeps. -/
def Op.Plain : Op → Prop
  | .write bytes => 1 ≤ bytes.length ∧ bytes.length ≤ PAGE_SIZE - 1 ∧ (0 : UInt8) ∉ bytes.dropLast
  | .read => True

/-! ## 3. The relation -/

/-- **The module stores the list `a`.** -/
structure Stores (s : Pot) (a : Cycle) : Prop where
  pot : ∃ rest, s.cookiePot.bytes = zstrings a.strings ++ rest
  writeInd : s.writeInd = (zstrings a.strings).length
  readInd : s.readInd = (zstrings (a.strings.take a.cursor)).length
  cursor_le : a.cursor ≤ a.strings.length
  plain : ∀ str ∈ a.strings, (0 : UInt8) ∉ str ∧ str.length + 1 < PAGE_SIZE

variable {s : Pot} {a : Cycle}

theorem stores_init : Stores Pot.init Cycle.empty := by
  refine ⟨⟨_, rfl⟩, rfl, rfl, Nat.le_refl 0, ?_⟩
  simp [Cycle.empty]

/-- The strings of the list are those of the pot. -/
theorem Stores.holds (h : Stores s a) : Holds s a.strings a.cursor :=
  ⟨h.pot, h.writeInd, h.readInd, h.cursor_le, fun str hstr => (h.plain str hstr).1⟩

theorem Holds.stores (h : Holds s a.strings a.cursor)
    (hshort : ∀ str ∈ a.strings, str.length + 1 < PAGE_SIZE) : Stores s a :=
  ⟨h.pot, h.writeInd, h.readInd, h.le, fun str hstr => ⟨h.noNul str hstr, hshort str hstr⟩⟩

/-- **A write appends.**  With room for its bytes it is accepted, and the module stores the list
with the string at its end. -/
theorem Stores.write (h : Stores s a) {bytes : List UInt8} (hop : (Op.write bytes).Plain)
    (hroom : s.writeInd + bytes.length ≤ PAGE_SIZE) :
    ∃ s', (Op.write bytes).perform s = .ok ((bytes.length, []), s') ∧
      Stores s' (a.write bytes.dropLast) ∧ s'.writeInd = s.writeInd + bytes.length := by
  obtain ⟨hpos, hshort, hnul⟩ := hop
  have hfit : WriteFits s (.of bytes) := by
    refine ⟨?_, fun h0 => ?_⟩
    · simp only [UserCopy.len, UserCopy.of]
      omega
    · simp only [UserCopy.len, UserCopy.of] at h0
      omega
  obtain ⟨hgt, -⟩ | ⟨-, pot, hst, ⟨hok, -⟩ | ⟨-, pot', hst', hw⟩⟩ :=
    fortuneWrite_cases h.holds.indInv hfit
  · exact absurd hroom (Int.not_le.mpr hgt)
  · simp [UserCopy.of] at hok
  -- the bytes but the last are one string, and its NUL replaces the last
  have hm : bytes.dropLast ++ [0] = zstrings [bytes.dropLast] := (zstrings_singleton _).symm
  refine ⟨_, by rw [Op.perform, hw]; rfl, Holds.stores (h.holds.append hpos hst hst' hm ?_) ?_, rfl⟩
  · simpa using hnul
  · intro str hstr
    rcases List.mem_append.mp hstr with hin | hin
    · exact (h.plain str hin).2
    · rw [List.mem_singleton.mp hin, List.length_dropLast]
      have hpage : PAGE_SIZE = 4096 := rfl
      omega

/-- **A read follows the cursor.** -/
theorem Stores.read (h : Stores s a) : ∃ s', Op.read.perform s = .ok ((Op.read.model a).1, s') ∧
    Stores s' (Op.read.model a).2 ∧ s'.writeInd = s.writeInd := by
  obtain ⟨hend, hr⟩ | ⟨hend, str, tmpBuf, hstr, -, hr⟩ :=
    fortuneRead_cases h.holds.indInv 0 true
  · -- the pot is empty, and so is the list
    have hnil : a.strings = [] := by
      by_contra hne
      obtain ⟨p, hp⟩ := zstrings_of_ne_nil hne
      have hw := h.writeInd
      rw [hp, List.length_append, List.length_singleton] at hw
      omega
    have hread : a.read = (none, a) := by simp [Cycle.read, hnil]
    refine ⟨s, ?_, ?_, rfl⟩
    · simp [Op.perform, hr, Op.model, hread, Except.map]
    · simpa [Op.model, hread] using h
  · obtain ⟨str', hget, hstart, hstr'⟩ := h.holds.start_string fun h0 => hend (Or.inr h0)
    obtain rfl : str = str' := Except.ok.inj (hstr.symm.trans hstr')
    have hget : a.strings[a.position]? = some str := hget
    have hshort := (h.plain str (List.mem_of_getElem? hget)).2
    have hread : a.read = (some str, { a with cursor := a.position + 1 }) := by
      rw [Cycle.read, hget]
    refine ⟨{ s with tmpBuf := tmpBuf, readInd := s.start + (str ++ [newline]).length },
      ?_, ?_, rfl⟩
    · simp [Op.perform, hr, Op.model, hread, Except.map, printed, hshort, readOut]
    · have hmodel : (Op.read.model a).2 = { a with cursor := a.position + 1 } := by
        rw [Op.model, hread]
      rw [hmodel]
      refine Holds.stores (h.holds.advance hget ?_) fun str hstr => (h.plain str hstr).2
      rw [hstart, List.length_append, List.length_singleton]
      rfl

/-! ## 4. Every sequence of operations -/

/-- **The refinement.**  Let the module store the list `a`, and let plain operations be given
whose writes fit the page.  Then the module accepts them all, answers what the list answers,
and stores the list afterwards. -/
theorem Stores.perform : ∀ {ops : List Op} {s : Pot} {a : Cycle}, Stores s a →
    (∀ op ∈ ops, op.Plain) → s.writeInd + (ops.map Op.written).sum ≤ PAGE_SIZE →
    ∃ t, perform s ops = .ok ((model a ops).1, t) ∧ Stores t (model a ops).2 := by
  intro ops
  induction ops with
  | nil =>
    intro s a h _ _
    exact ⟨s, rfl, h⟩
  | cons op ops ih =>
    intro s a h hplain hroom
    obtain ⟨hop, hops⟩ := List.forall_mem_cons.mp hplain
    rw [List.map_cons, List.sum_cons] at hroom
    obtain ⟨s', hs', h', hw⟩ : ∃ s', op.perform s = .ok ((op.model a).1, s') ∧
        Stores s' (op.model a).2 ∧ s'.writeInd = s.writeInd + op.written := by
      cases op with
      | write bytes => exact h.write hop (by simp only [Op.written] at hroom; omega)
      | read =>
        obtain ⟨s', hs', h', hw⟩ := h.read
        exact ⟨s', hs', h', by simpa [Op.written] using hw⟩
    obtain ⟨t, ht, hst⟩ := ih h' hops (by omega)
    exact ⟨t, by simp [Fortune.perform, hs', ht, model, bind, Except.bind, pure, Except.pure], hst⟩

theorem model_append (a : Cycle) (ops ops' : List Op) :
    model a (ops ++ ops') =
      ((model a ops).1 ++ (model (model a ops).2 ops').1, (model (model a ops).2 ops').2) := by
  induction ops generalizing a with
  | nil => rfl
  | cons op ops ih =>
    rw [List.cons_append, model, ih]
    rfl

/-- **The fortune pot is a list with a cyclic cursor.**  From the loading of the module on, every
sequence of writes that fit the page and reads of freshly opened files returns what it returns
on the list, where a write appends its bytes but the last, a read returns the string at the
cursor and a newline, and the cursor runs through the list in a cycle; and what is written while
the cursor stands behind the last string is what the next read returns. -/
theorem fortune_refines_cycle (ops : List Op) (hplain : ∀ op ∈ ops, op.Plain)
    (hroom : (ops.map Op.written).sum ≤ PAGE_SIZE) :
    (∃ t, perform Pot.init ops = .ok ((model Cycle.empty ops).1, t) ∧
      Stores t (model Cycle.empty ops).2) ∧
    ∀ bytes : List UInt8, (Op.write bytes).Plain →
      (ops.map Op.written).sum + bytes.length ≤ PAGE_SIZE →
      (model Cycle.empty ops).2.cursor = (model Cycle.empty ops).2.strings.length →
      ∃ t, perform Pot.init (ops ++ [.write bytes, .read]) =
        .ok ((model Cycle.empty ops).1 ++
          [((bytes.length : Int), []), readOut bytes.dropLast], t) := by
  have h0 : Pot.init.writeInd = 0 := rfl
  refine ⟨stores_init.perform hplain (by omega), fun bytes hbytes hfit hc => ?_⟩
  have hplain' : ∀ op ∈ ops ++ [.write bytes, .read], op.Plain := by
    intro op hop
    rcases List.mem_append.mp hop with hin | hin
    · exact hplain op hin
    · rcases List.mem_cons.mp hin with rfl | hin
      · exact hbytes
      · rw [List.mem_singleton.mp hin]
        trivial
  obtain ⟨t, ht, -⟩ := stores_init.perform hplain' (by
    rw [List.map_append, List.sum_append]
    simp only [List.map_cons, List.map_nil, List.sum_cons, List.sum_nil, Op.written]
    omega)
  refine ⟨t, ?_⟩
  rw [ht, model_append]
  set a := (model Cycle.empty ops).2
  have hread : (a.write bytes.dropLast).read.1 = some bytes.dropLast := Cycle.read_write hc _
  have hanswer : (Op.read.model (a.write bytes.dropLast)).1 = readOut bytes.dropLast := by
    unfold Op.model
    cases hr : (a.write bytes.dropLast).read with
    | mk out a' =>
      obtain rfl : out = some bytes.dropLast := by rw [← hread, hr]
      rfl
  have hwrite : (Op.write bytes).model a = (((bytes.length : Int), []), a.write bytes.dropLast) :=
    rfl
  simp only [model, hwrite, hanswer]

/-- The strings of a.sh, and one read more than there are strings. -/
theorem fortune_refines_cycle_three : ∃ t, perform Pot.init
    [.write [97, 97, 97, 10], .write [98, 98, 98, 10], .read, .read, .read] =
      .ok ([(4, []), (4, []), (4, [97, 97, 97, 10]), (4, [98, 98, 98, 10]),
        (4, [97, 97, 97, 10])], t) := by
  obtain ⟨⟨t, ht, -⟩, -⟩ := fortune_refines_cycle
    [.write [97, 97, 97, 10], .write [98, 98, 98, 10], .read, .read, .read]
    (by simp [Op.Plain, PAGE_SIZE]) (by decide)
  exact ⟨t, ht⟩

end OsLabs.Fortune
