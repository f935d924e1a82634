/-
# seq_file: many readers

Every process that opens `/proc/seq_dir/seq_file` gets a `struct seq_file` of its own, with an
index and a session, but the cells of all of them come from one `kmalloc`.  Here any number of
files is opened, read and released, and the calls of their sessions interleave in any order; a
session may be broken off at any point, `kmalloc` may fail, and a `seek` may come between two.

To a reader the others are not there (`readers_apart`): with the cells left out, a file is a
cursor that only its own calls move (`readers_cursors`).  Every cell that was ever allocated has
been freed once, or belongs to one open session, or is lost, which is one for each time that
`next` has returned `NULL`.
-/
import OsLabs.Lib.Simulation
import OsLabs.ProcFiles.SeqCells
import Mathlib.Data.List.Nodup
import Mathlib.Logic.Function.Basic

namespace OsLabs.SeqFile

/-! ## 1. The files -/

/-- A `struct seq_file`. -/
structure Seq where
  index : Int
  phase : Phase
deriving DecidableEq, Repr

inductive Event
  | opens (i : Nat)
  | calls (i : Nat) (a : Call)
  | releases (i : Nat)
deriving DecidableEq, Repr

def Event.file : Event → Nat
  | .opens i => i
  | .calls i _ => i
  | .releases i => i

/-- The files that are open, the cells of all of them, those that have been passed to `kfree`, and
those with which `next` has returned `NULL`. -/
structure Readers where
  files : Nat → Option Seq
  heap : Heap
  freed : List Nat
  ended : List Nat

/-- The cell that a session is left without: `next` has returned `NULL`. -/
def lost (before after : Phase) : List Nat :=
  if after = .got none true then before.last.toList else []

namespace Readers

def init : Readers := ⟨fun _ => none, .empty, [], []⟩

/-- What a session of the file `f` works on. -/
def view (s : Readers) (f : Seq) : Sessions := ⟨f.index, s.heap, f.phase, s.freed⟩

/-- The file `i`, which was `f`, is as in `t`. -/
def put (s : Readers) (i : Nat) (f : Seq) (t : Sessions) : Readers :=
  { files := Function.update s.files i (some ⟨t.index, t.phase⟩)
    heap := t.heap
    freed := t.freed
    ended := s.ended ++ lost f.phase t.phase }

/-- The calls of a file are those of its sessions; it is released between two of them. -/
def step (limit : Int32) (s : Readers) : Event → Option (Except Fault Readers)
  | .opens i =>
    match s.files i with
    | none => some (.ok { s with files := Function.update s.files i (some ⟨0, .idle⟩) })
    | some _ => none
  | .calls i a =>
    match s.files i with
    | none => none
    | some f => ((s.view f).step limit a).map fun r => r.map fun t => s.put i f t
  | .releases i =>
    match s.files i with
    | none => none
    | some f =>
      if f.phase = .idle then some (.ok { s with files := Function.update s.files i none })
      else none

end Readers

def readers (limit : Int32) : Machine (Except Fault Readers) Event where
  init := .ok Readers.init
  step
    | .ok s, e => s.step limit e
    | .error _, _ => none

/-! ## 2. Cursors -/

/-- A phase without the cell. -/
inductive Stage
  | idle
  | got (cell byNext : Bool)
  | shown (position : Int)
deriving DecidableEq, Repr

/-- What a reader sees: the index, and what the last call has given. -/
structure Cursor where
  index : Int
  stage : Stage
deriving DecidableEq, Repr

def Phase.stage : Phase → Stage
  | .idle => .idle
  | .got v byNext => .got v.isSome byNext
  | .shown _ position => .shown position

def Seq.cursor (f : Seq) : Cursor := ⟨f.index, f.phase.stage⟩

/-- The calls, as what they mean: there are no cells, and nothing can go wrong. -/
def Cursor.step (limit : Int32) (c : Cursor) (a : Call) : Option Cursor :=
  match a, c.stage with
  | .callStart kmalloc, .idle =>
    some { c with stage := .got (kmalloc && decide (c.index < limit.toInt)) false }
  | .callShow, .got true _ => some { c with stage := .shown c.index }
  | .callNext, .shown _ =>
    some ⟨c.index + 1, .got (decide (c.index + 1 < limit.toInt)) true⟩
  | .callStop, .got _ _ => some { c with stage := .idle }
  | .callStop, .shown _ => some { c with stage := .idle }
  | .seek pos, .idle => some { c with index := pos.toInt }
  | _, _ => none

/-- What an event does to its file. -/
def Event.step (limit : Int32) (c : Option Cursor) : Event → Option (Option Cursor)
  | .opens _ =>
    match c with
    | none => some (some ⟨0, .idle⟩)
    | some _ => none
  | .calls _ a => c.bind fun c => (c.step limit a).map some
  | .releases _ => c.bind fun c => if c.stage = .idle then some none else none

/-- A cursor for each file that is open, moved by its own events only. -/
def cursors (limit : Int32) : Machine (Nat → Option Cursor) Event where
  init := fun _ => none
  step c e := (e.step limit (c e.file)).map fun x => Function.update c e.file x

def Readers.cursors (s : Readers) : Nat → Option Cursor := fun i => (s.files i).map Seq.cursor

/-! ## 3. The cells -/

/-- The session of the file `i` has the cell `v`. -/
def Readers.Holds (s : Readers) (i v : Nat) : Prop :=
  ∃ f, s.files i = some f ∧ f.phase.last = some v

/-- The account of every cell, as each of the sessions sees it. -/
structure Accounts (limit : Int32) (s : Readers) : Prop where
  account : ∀ i f, s.files i = some f → Account limit (s.view f)
  balance : ∀ v, s.freed.count v + (s.heap.cells v).isSome.toNat =
    if v < s.heap.fresh then 1 else 0
  alone : ∀ i j v, s.Holds i v → s.Holds j v → i = j
  there : ∀ v, s.heap.cells v ≠ none ↔ (∃ i, s.Holds i v) ∨ v ∈ s.ended
  ended : s.ended.Nodup
  given_up : ∀ v ∈ s.ended, ∀ i, ¬ s.Holds i v

variable {limit : Int32} {s : Readers} {f : Seq} {t u : Sessions} {i j v w : Nat} {a : Call}

theorem accounts_init (limit : Int32) : Accounts limit .init where
  account i f h := by simp [Readers.init] at h
  balance v := by simp [Readers.init, Heap.empty]
  alone i j v h := by simp [Readers.Holds, Readers.init] at h
  there v := by simp [Readers.Holds, Readers.init, Heap.empty]
  ended := List.nodup_nil
  given_up v h := by simp [Readers.init] at h

/-- What a call does to the cells, and which one is lost. -/
inductive Effect (t u : Sessions) : List Nat → Prop
  | keep : u.phase.last = t.phase.last →
      (∀ v, u.heap.cells v ≠ none ↔ t.heap.cells v ≠ none) → Effect t u []
  | start : t.phase.last = none → u.phase.last = some t.heap.fresh →
      (∀ v, u.heap.cells v ≠ none ↔ v = t.heap.fresh ∨ t.heap.cells v ≠ none) → Effect t u []
  | lose {v : Nat} : t.phase.last = some v → u.phase.last = none →
      (∀ w, u.heap.cells w ≠ none ↔ t.heap.cells w ≠ none) → Effect t u [v]
  | stop {v : Nat} : t.phase.last = some v → u.phase.last = none →
      (∀ w, u.heap.cells w ≠ none ↔ w ≠ v ∧ t.heap.cells w ≠ none) → Effect t u []

theorem effect_of_moves (ht : Account limit t) (hm : Moves limit t a u) :
    Effect t u (lost t.phase u.phase) := by
  cases hm with
  | seek hidle =>
    rw [lost, if_neg (by simp [hidle])]
    exact .keep rfl fun v => Iff.rfl
  | null hidle =>
    rw [lost, if_neg (by simp)]
    exact .keep (by simp [hidle]) fun v => Iff.rfl
  | start hidle hlt =>
    rw [lost, if_neg (by simp)]
    refine .start (by simp [hidle]) rfl fun v => ?_
    change (t.heap.store _ _).cells v ≠ none ↔ _
    rw [store_cells]
    by_cases hv : v = t.heap.fresh
    · simp [hv]
    · simp [hv]
  | shows hlast =>
    rw [lost, if_neg (by simp)]
    exact .keep hlast.symm fun v => Iff.rfl
  | @next w hlast =>
    obtain ⟨hcell, -⟩ := ht.last w hlast
    have hcells : ∀ v, (t.heap.store w (some (t.index + 1))).cells v ≠ none ↔
        t.heap.cells v ≠ none := by
      intro v
      rw [← Option.isSome_iff_ne_none, isSome_store hcell, Option.isSome_iff_ne_none]
    by_cases hnext : t.index + 1 < limit.toInt
    · rw [if_pos hnext, lost, if_neg (by simp)]
      exact .keep hlast.symm hcells
    · rw [if_neg hnext, lost, if_pos rfl, hlast]
      exact .lose hlast rfl hcells
  | stopNull hlast =>
    rw [lost, if_neg (by simp)]
    exact .keep hlast.symm fun v => Iff.rfl
  | @stop w hlast =>
    rw [lost, if_neg (by simp)]
    refine .stop hlast rfl fun v => ?_
    change (t.heap.store w none).cells v ≠ none ↔ _
    rw [store_cells]
    by_cases hv : v = w
    · simp [hv]
    · simp [hv]

/-- **The cells of others are not touched.** -/
theorem cells_of_moves (hm : Moves limit t a u) (hnew : w < t.heap.fresh)
    (hother : t.phase.last ≠ some w) : u.heap.cells w = t.heap.cells w := by
  have hne : ∀ {v}, t.phase.last = some v → w ≠ v := by
    rintro v hlast rfl
    exact hother hlast
  cases hm with
  | seek hidle => rfl
  | null hidle => rfl
  | start hidle hlt => exact if_neg (Nat.ne_of_lt hnew)
  | shows hlast => rfl
  | next hlast => exact if_neg (hne hlast)
  | stopNull hlast => rfl
  | stop hlast => exact if_neg (hne hlast)

/-! ## 4. One event -/

theorem holds_put_self : (s.put i f u).Holds i v ↔ u.phase.last = some v := by
  simp [Readers.Holds, Readers.put]

theorem files_put_of_ne (hj : j ≠ i) : (s.put i f u).files j = s.files j :=
  Function.update_of_ne hj _ _

theorem holds_put_of_ne (hj : j ≠ i) : (s.put i f u).Holds j v ↔ s.Holds j v := by
  simp only [Readers.Holds, files_put_of_ne hj]

/-- A cell that a session has was allocated before. -/
theorem Accounts.holds_lt (hs : Accounts limit s) (h : s.Holds i v) : v < s.heap.fresh := by
  obtain ⟨g, hg, hlast⟩ := h
  obtain ⟨hcell, -⟩ := (hs.account i g hg).last v hlast
  have hne : s.heap.cells v ≠ none := by
    change s.heap.cells v = _ at hcell
    rw [hcell]
    simp
  exact ((hs.account i g hg).held hne).1

/-- A call makes no session of two. -/
theorem Accounts.put_alone (hs : Accounts limit s) (hf : s.files i = some f) {l : List Nat}
    (he : Effect (s.view f) u l) (hv : u.phase.last = some v) (hj : j ≠ i) : ¬ s.Holds j v := by
  intro hheld
  cases he with
  | keep hlast _ => exact hj (hs.alone j i v hheld ⟨f, hf, hlast.symm.trans hv⟩)
  | start _ hlast _ =>
    obtain rfl := Option.some.inj (hlast.symm.trans hv)
    exact absurd (hs.holds_lt hheld) (Nat.lt_irrefl _)
  | lose _ hlast _ => exact absurd (hlast.symm.trans hv) (by simp)
  | stop _ hlast _ => exact absurd (hlast.symm.trans hv) (by simp)

theorem Accounts.put_there (hs : Accounts limit s) (hf : s.files i = some f) {l : List Nat}
    (he : Effect (s.view f) u l) (v : Nat) :
    u.heap.cells v ≠ none ↔
      (u.phase.last = some v ∨ ∃ j, j ≠ i ∧ s.Holds j v) ∨ v ∈ s.ended ++ l := by
  have hthere := hs.there v
  have hsplit : (∃ j, s.Holds j v) ↔ f.phase.last = some v ∨ ∃ j, j ≠ i ∧ s.Holds j v := by
    constructor
    · rintro ⟨j, hj⟩
      by_cases hji : j = i
      · subst hji
        obtain ⟨g, hg, hlast⟩ := hj
        obtain rfl := Option.some.inj (hf.symm.trans hg)
        exact .inl hlast
      · exact .inr ⟨j, hji, hj⟩
    · rintro (hlast | ⟨j, -, hj⟩)
      · exact ⟨i, f, hf, hlast⟩
      · exact ⟨j, hj⟩
  rw [hsplit] at hthere
  cases he with
  | keep hlast hcells =>
    rw [hcells, hlast, List.append_nil]
    exact hthere
  | start hnone hlast hcells =>
    change f.phase.last = none at hnone
    rw [hnone] at hthere
    rw [hcells, hlast, List.append_nil, Option.some.injEq, eq_comm]
    change (_ ∨ s.heap.cells v ≠ none) ↔ _
    rw [hthere]
    simp [or_assoc]
  | @lose w hlast hnone hcells =>
    change f.phase.last = some w at hlast
    rw [hlast] at hthere
    rw [hcells, hnone, List.mem_append, List.mem_singleton]
    change s.heap.cells v ≠ none ↔ _
    rw [hthere, Option.some.injEq]
    constructor
    · rintro ((rfl | hj) | hv)
      · exact .inr (.inr rfl)
      · exact .inl (.inr hj)
      · exact .inr (.inl hv)
    · rintro ((h | hj) | hv | rfl)
      · exact absurd h (by simp)
      · exact .inl (.inr hj)
      · exact .inr hv
      · exact .inl (.inl rfl)
  | @stop w hlast hnone hcells =>
    change f.phase.last = some w at hlast
    rw [hlast] at hthere
    rw [hcells, hnone, List.append_nil]
    change _ ∧ s.heap.cells v ≠ none ↔ _
    rw [hthere, Option.some.injEq]
    constructor
    · rintro ⟨hne, ((rfl | hj) | hv)⟩
      · exact absurd rfl hne
      · exact .inl (.inr hj)
      · exact .inr hv
    · rintro ((h | ⟨j, hji, hj⟩) | hv)
      · exact absurd h (by simp)
      · refine ⟨?_, .inl (.inr ⟨j, hji, hj⟩)⟩
        rintro rfl
        exact hji (hs.alone j i v hj ⟨f, hf, hlast⟩)
      · refine ⟨?_, .inr hv⟩
        rintro rfl
        exact hs.given_up v hv i ⟨f, hf, hlast⟩

theorem holds_put (h : (s.put i f u).Holds j v) :
    (j = i ∧ u.phase.last = some v) ∨ (j ≠ i ∧ s.Holds j v) := by
  by_cases hji : j = i
  · subst hji
    exact .inl ⟨rfl, holds_put_self.mp h⟩
  · exact .inr ⟨hji, (holds_put_of_ne hji).mp h⟩

/-- What is lost is lost once, and belongs to no session. -/
theorem Accounts.put_ended (hs : Accounts limit s) (hf : s.files i = some f) {l : List Nat}
    (he : Effect (s.view f) u l) :
    (s.ended ++ l).Nodup ∧ ∀ v ∈ s.ended ++ l, ∀ j, ¬ (s.put i f u).Holds j v := by
  have hlt : ∀ v ∈ s.ended, v < s.heap.fresh := fun v hv =>
    ((hs.account i f hf).held ((hs.there v).mpr (.inr hv))).1
  have hold : ∀ v ∈ s.ended, ∀ j, ¬ (s.put i f u).Holds j v := by
    intro v hv j hj
    rcases holds_put hj with ⟨rfl, hlast⟩ | ⟨-, hj⟩
    · cases he with
      | keep hkept _ => exact hs.given_up v hv j ⟨f, hf, hkept.symm.trans hlast⟩
      | start _ hnew _ =>
        obtain rfl := Option.some.inj (hnew.symm.trans hlast)
        exact absurd (hlt _ hv) (Nat.lt_irrefl _)
      | lose _ hnone _ => exact absurd (hnone.symm.trans hlast) (by simp)
      | stop _ hnone _ => exact absurd (hnone.symm.trans hlast) (by simp)
    · exact hs.given_up v hv j hj
  cases he with
  | @lose w hlast hnone _ =>
    have hw : w ∉ s.ended := fun hw => hs.given_up w hw i ⟨f, hf, hlast⟩
    refine ⟨List.nodup_append'.mpr ⟨hs.ended, List.nodup_singleton w, by simpa using hw⟩, ?_⟩
    intro v hv j hj
    rcases List.mem_append.mp hv with hv | hv
    · exact hold v hv j hj
    · obtain rfl := List.mem_singleton.mp hv
      rcases holds_put hj with ⟨rfl, hagain⟩ | ⟨hji, hj⟩
      · exact absurd (hnone.symm.trans hagain) (by simp)
      · exact hji (hs.alone j i v hj ⟨f, hf, hlast⟩)
  | _ =>
    rw [List.append_nil]
    exact ⟨hs.ended, hold⟩

/-- The accounts of the other files. -/
theorem Accounts.put_account (hs : Accounts limit s) (hf : s.files i = some f)
    (hm : Moves limit (s.view f) a u) {g : Seq} (hg : (s.put i f u).files j = some g) :
    Account limit ((s.put i f u).view g) := by
  have hmover := (hs.account i f hf).step hm
  by_cases hji : j = i
  · subst hji
    obtain rfl : ⟨u.index, u.phase⟩ = g := by simpa [Readers.put] using hg
    exact hmover
  · have hg' : s.files j = some g := (files_put_of_ne hji).symm.trans hg
    have hother := hs.account j g hg'
    refine ⟨hmover.balance, fun v hv => ?_, hother.index⟩
    have hheld : s.Holds j v := ⟨g, hg', hv⟩
    have hcells : u.heap.cells v = s.heap.cells v :=
      cells_of_moves hm (hs.holds_lt hheld) fun hlast =>
        hji (hs.alone j i v hheld ⟨f, hf, hlast⟩)
    obtain ⟨hcell, hlt⟩ := hother.last v hv
    exact ⟨hcells.trans hcell, hlt⟩

/-- **A call** keeps the accounts. -/
theorem Accounts.put (hs : Accounts limit s) (hf : s.files i = some f)
    (hm : Moves limit (s.view f) a u) : Accounts limit (s.put i f u) := by
  have he := effect_of_moves (hs.account i f hf) hm
  obtain ⟨hended, hgiven⟩ := hs.put_ended hf he
  refine ⟨fun j g hg => hs.put_account hf hm hg, ((hs.account i f hf).step hm).balance,
    fun j k v hj hk => ?_, fun v => (hs.put_there hf he v).trans (or_congr ⟨?_, ?_⟩ Iff.rfl),
    hended, hgiven⟩
  · rcases holds_put hj with ⟨rfl, hlast⟩ | ⟨hji, hj'⟩
    · rcases holds_put hk with ⟨rfl, -⟩ | ⟨hki, hk'⟩
      · rfl
      · exact absurd hk' (hs.put_alone hf he hlast hki)
    · rcases holds_put hk with ⟨rfl, hlast⟩ | ⟨hki, hk'⟩
      · exact absurd hj' (hs.put_alone hf he hlast hji)
      · exact hs.alone j k v hj' hk'
  · rintro (hlast | ⟨j, hji, hj⟩)
    · exact ⟨i, holds_put_self.mpr hlast⟩
    · exact ⟨j, (holds_put_of_ne hji).mpr hj⟩
  · rintro ⟨j, hj⟩
    rcases holds_put hj with ⟨rfl, hlast⟩ | ⟨hji, hj⟩
    · exact .inl hlast
    · exact .inr ⟨j, hji, hj⟩

/-- A file is opened or released. -/
theorem Accounts.file (hs : Accounts limit s) (hbefore : ∀ v, ¬ s.Holds i v) (x : Option Seq)
    (hx : ∀ g, x = some g → g = ⟨0, .idle⟩) :
    Accounts limit { s with files := Function.update s.files i x } := by
  have hholds : ∀ j v, ({ s with files := Function.update s.files i x } : Readers).Holds j v ↔
      s.Holds j v := by
    intro j v
    by_cases hji : j = i
    · subst hji
      refine iff_of_false ?_ (hbefore v)
      rintro ⟨g, hg, hlast⟩
      obtain rfl := hx g (by simpa using hg)
      exact absurd hlast (by simp)
    · simp only [Readers.Holds, Function.update_of_ne hji]
  refine ⟨fun j g hg => ?_, hs.balance, fun j k v hj hk => ?_, fun v => ?_, hs.ended,
    fun v hv j hj => hs.given_up v hv j ((hholds j v).mp hj)⟩
  · by_cases hji : j = i
    · subst hji
      obtain rfl := hx g (by simpa using hg)
      exact ⟨hs.balance, fun v hv => absurd hv (by simp [Readers.view]), by simp [Readers.view]⟩
    · simp only [Function.update_of_ne hji] at hg
      exact hs.account j g hg
  · exact hs.alone j k v ((hholds j v).mp hj) ((hholds k v).mp hk)
  · simp only [hholds]
    exact hs.there v

/-! ## 5. Readers and cursors -/

def Sessions.cursor (t : Sessions) : Cursor := ⟨t.index, t.phase.stage⟩

/-- **A call does what it means.** -/
theorem cursor_step (ht : Account limit t) (a : Call) :
    (t.step limit a).map (fun r => r.toOption.map Sessions.cursor) =
      (t.cursor.step limit a).map some := by
  obtain ⟨index, heap, phase, freed⟩ := t
  cases phase with
  | idle =>
    cases a with
    | callStart kmalloc =>
      cases kmalloc with
      | false => rfl
      | true =>
        simp only [Sessions.step, ctSeqStart, Sessions.cursor, Cursor.step, Phase.stage]
        by_cases hlt : index < limit.toInt
        · simp [Except.toOption, Sessions.cursor, Phase.stage, hlt, Int.not_le.mpr hlt]
        · simp [Except.toOption, Sessions.cursor, Phase.stage, hlt, Int.not_lt.mp hlt]
    | _ => rfl
  | got v byNext =>
    cases v with
    | none => cases a <;> rfl
    | some v =>
      have hload := load_eq (ht.last v rfl).1
      cases a with
      | callShow =>
        simp only [Sessions.step, ctSeqShow, hload]
        rfl
      | callStop =>
        simp only [Sessions.step, Sessions.endSession, ctSeqStop, hload]
        rfl
      | _ => rfl
  | shown v position =>
    cases a with
    | callNext =>
      simp only [Sessions.step, next_eq ht rfl, Sessions.cursor, Cursor.step, Phase.stage]
      by_cases hlt : index + 1 < limit.toInt
      · simp [Except.map, Except.toOption, Sessions.cursor, Phase.stage, hlt]
      · simp [Except.map, Except.toOption, Sessions.cursor, Phase.stage, hlt]
    | callStop =>
      simp only [Sessions.step, Sessions.endSession, ctSeqStop, load_eq (ht.last v rfl).1]
      rfl
    | _ => rfl

/-- No fault so far, the accounts are right, and the cursors are those of the files. -/
def Corresponds (limit : Int32) (r : Except Fault Readers) (c : Nat → Option Cursor) : Prop :=
  ∃ s, r = .ok s ∧ Accounts limit s ∧ c = s.cursors

theorem cursors_update (x : Option Seq) :
    ({ s with files := Function.update s.files i x } : Readers).cursors =
      Function.update s.cursors i (x.map Seq.cursor) := by
  funext j
  by_cases hji : j = i
  · subst hji
    simp [Readers.cursors]
  · simp [Readers.cursors, Function.update_of_ne hji]

/-- **One event**: the files and the cursors make the same step, or neither does. -/
theorem event_step (hs : Accounts limit s) (e : Event) :
    (s.step limit e = none ∧ (cursors limit).step s.cursors e = none) ∨
      ∃ s', s.step limit e = some (.ok s') ∧ Accounts limit s' ∧
        (cursors limit).step s.cursors e = some s'.cursors := by
  cases e with
  | opens i =>
    cases hf : s.files i with
    | none =>
      refine .inr ⟨{ s with files := Function.update s.files i (some ⟨0, .idle⟩) }, ?_, ?_, ?_⟩
      · simp only [Readers.step, hf]
      · refine hs.file (fun v hv => ?_) _ fun g hg => (Option.some.inj hg).symm
        obtain ⟨g, hg, -⟩ := hv
        exact absurd (hf.symm.trans hg) (by simp)
      · rw [cursors_update]
        simp only [cursors, Event.step, Event.file, Readers.cursors, hf, Option.map_none]
        rfl
    | some f => exact .inl ⟨by simp [Readers.step, hf],
        by simp [cursors, Event.step, Event.file, Readers.cursors, hf]⟩
  | calls i a =>
    cases hf : s.files i with
    | none => exact .inl ⟨by simp [Readers.step, hf],
        by simp [cursors, Event.step, Event.file, Readers.cursors, hf]⟩
    | some f =>
      have hview := hs.account i f hf
      have hcursor := cursor_step hview a
      have hview_cursor : (s.view f).cursor = f.cursor := rfl
      rw [hview_cursor] at hcursor
      cases hstep : (s.view f).step limit a with
      | none =>
        rw [hstep] at hcursor
        refine .inl ⟨by simp [Readers.step, hf, hstep], ?_⟩
        have hnone : f.cursor.step limit a = none := by simpa using hcursor.symm
        simp [cursors, Event.step, Event.file, Readers.cursors, hf, hnone]
      | some r =>
        obtain ⟨u, rfl, hm⟩ := moves_of_step hview hstep
        rw [hstep] at hcursor
        have hsome : f.cursor.step limit a = some u.cursor := by
          simpa [Except.toOption] using hcursor.symm
        refine .inr ⟨s.put i f u, by simp [Readers.step, hf, hstep, Except.map], hs.put hf hm, ?_⟩
        have hput : (s.put i f u).cursors = Function.update s.cursors i (some u.cursor) :=
          cursors_update (s := ⟨s.files, u.heap, u.freed, s.ended ++ lost f.phase u.phase⟩) _
        rw [hput]
        simp [cursors, Event.step, Event.file, Readers.cursors, hf, hsome]
  | releases i =>
    cases hf : s.files i with
    | none => exact .inl ⟨by simp [Readers.step, hf],
        by simp [cursors, Event.step, Event.file, Readers.cursors, hf]⟩
    | some f =>
      have hidle : f.cursor.stage = .idle ↔ f.phase = .idle := by
        cases hp : f.phase <;> simp [Seq.cursor, Phase.stage, hp]
      by_cases hp : f.phase = .idle
      · refine .inr ⟨{ s with files := Function.update s.files i none }, ?_, ?_, ?_⟩
        · simp [Readers.step, hf, hp]
        · refine hs.file (fun v hv => ?_) _ fun g hg => absurd hg (by simp)
          obtain ⟨g, hg, hlast⟩ := hv
          obtain rfl := Option.some.inj (hf.symm.trans hg)
          rw [hp] at hlast
          exact absurd hlast (by simp)
        · rw [cursors_update]
          simp [cursors, Event.step, Event.file, Readers.cursors, hf, hidle, hp]
      · exact .inl ⟨by simp [Readers.step, hf, hp],
          by simp [cursors, Event.step, Event.file, Readers.cursors, hf, hidle, hp]⟩

/-- **The files are the cursors**, whatever the cells are. -/
theorem readers_cursors (limit : Int32) :
    (readers limit).Bisimulates (cursors limit) (Corresponds limit) where
  init := ⟨.init, rfl, accounts_init limit, rfl⟩
  left := by
    rintro r e r' c ⟨s, rfl, hs, rfl⟩ hstep
    rcases event_step hs e with ⟨hnone, -⟩ | ⟨s', hsome, hs', hc⟩
    · exact absurd (hnone.symm.trans hstep) (by simp)
    · obtain rfl := Option.some.inj (hsome.symm.trans hstep)
      exact ⟨_, hc, s', rfl, hs', rfl⟩
  right := by
    rintro r e c' c ⟨s, rfl, hs, rfl⟩ hstep
    rcases event_step hs e with ⟨-, hnone⟩ | ⟨s', hsome, hs', hc⟩
    · exact absurd (hnone.symm.trans hstep) (by simp)
    · obtain rfl := Option.some.inj (hc.symm.trans hstep)
      exact ⟨_, hsome, s', rfl, hs', rfl⟩

/-! ## 6. Alone -/

/-- The events of the file `i`. -/
def own (i : Nat) (es : List Event) : List Event := es.filter fun e => e.file = i

/-- A cursor moves as if the others were not there. -/
theorem cursors_own (i : Nat) : ∀ (es : List Event) {c d c' : Nat → Option Cursor},
    c i = d i → (cursors limit).run c es = some c' →
      ∃ d', (cursors limit).run d (own i es) = some d' ∧ d' i = c' i := by
  intro es
  induction es with
  | nil =>
    intro c d c' h hrun
    exact ⟨d, rfl, by rw [← h, Machine.run_nil_eq_some.mp hrun]⟩
  | cons e es ih =>
    intro c d c' h hrun
    obtain ⟨c₁, hstep, hrest⟩ := Machine.run_cons_eq_some.mp hrun
    obtain ⟨x, hx, rfl⟩ := Option.map_eq_some_iff.mp hstep
    by_cases hi : e.file = i
    · obtain ⟨d', hd', hlast⟩ := ih (d := Function.update d e.file x) (by simp [hi]) hrest
      refine ⟨d', ?_, hlast⟩
      rw [own, List.filter_cons_of_pos (by simpa using hi)]
      refine Machine.run_cons_eq_some.mpr ⟨_, ?_, hd'⟩
      rw [hi, h, ← hi] at hx
      exact Option.map_eq_some_iff.mpr ⟨x, hx, rfl⟩
    · rw [own, List.filter_cons_of_neg (by simpa using hi)]
      exact ih (by rw [Function.update_of_ne (Ne.symm hi), h]) hrest

/-- Every cell that was allocated has been freed, is lost, or is that of one session. -/
structure Divided (s : Readers) : Prop where
  freed : s.freed.Nodup
  ended : s.ended.Nodup
  disjoint : s.freed.Disjoint s.ended
  all : ∀ v, v < s.heap.fresh ↔ v ∈ s.freed ∨ v ∈ s.ended ∨ ∃ i, s.Holds i v
  held : ∀ i j v, s.Holds i v → s.Holds j v → i = j ∧ v ∉ s.freed ∧ v ∉ s.ended
  unreleased : ∀ v, v ∈ s.heap.unreleased ↔ v ∈ s.ended ∨ ∃ i, s.Holds i v

theorem Accounts.divided (hs : Accounts limit s) : Divided s := by
  have hthere : ∀ v, s.heap.cells v ≠ none → s.freed.count v = 0 ∧ v < s.heap.fresh := by
    intro v hv
    have hbalance := hs.balance v
    rw [Option.isSome_iff_ne_none.mpr hv, Bool.toNat_true] at hbalance
    split at hbalance <;> omega
  have hgone : ∀ v, s.heap.cells v ≠ none → v ∉ s.freed := fun v hv =>
    List.count_eq_zero.mp (hthere v hv).1
  refine ⟨List.nodup_iff_count_le_one.mpr fun v => ?_, hs.ended, fun v hv hv' => ?_,
    fun v => ?_, fun i j v hi hj => ?_, fun v => ?_⟩
  · have hbalance := hs.balance v
    split at hbalance <;> omega
  · exact hgone v ((hs.there v).mpr (.inr hv')) hv
  · constructor
    · intro hlt
      have hbalance := hs.balance v
      rw [if_pos hlt] at hbalance
      by_cases hcell : s.heap.cells v = none
      · rw [hcell, Option.isSome_none, Bool.toNat_false] at hbalance
        exact .inl (List.count_pos_iff.mp (by omega))
      · exact .inr ((hs.there v).mp hcell).symm
    · rintro (hv | hv)
      · have hbalance := hs.balance v
        have hcount := List.count_pos_iff.mpr hv
        split at hbalance
        · assumption
        · omega
      · exact (hthere v ((hs.there v).mpr hv.symm)).2
  · exact ⟨hs.alone i j v hi hj, hgone v ((hs.there v).mpr (.inl ⟨i, hi⟩)),
      fun hv => hs.given_up v hv i hi⟩
  · exact (hs.there v).trans or_comm

/-- **Readers do not notice each other.**  For every limit and every run: no cell is used or freed
that is not allocated; the events of any one of the files, without those of all the others, are a
run too, and leave that file with the same index and at the same point; and every cell that was
allocated has been freed once, is that of one session, or is lost, one each time that `next` has
returned `NULL`. -/
theorem readers_apart (limit : Int32) (es : List Event) (r : Except Fault Readers)
    (hrun : (readers limit).run (.ok .init) es = some r) :
    ∃ s, r = .ok s ∧ Divided s ∧
      ∀ i, ∃ t, (readers limit).run (.ok .init) (own i es) = some (.ok t) ∧
        (t.files i).map Seq.cursor = (s.files i).map Seq.cursor := by
  have hbisim := readers_cursors limit
  obtain ⟨c, hc, s, rfl, hs, rfl⟩ := hbisim.run_left es _ r _ hbisim.init hrun
  refine ⟨s, rfl, hs.divided, fun i => ?_⟩
  obtain ⟨d, hd, hlast⟩ := cursors_own i es rfl hc
  obtain ⟨r', hr', t, rfl, -, rfl⟩ := hbisim.run_right (own i es) _ _ d hbisim.init hd
  exact ⟨t, hr', hlast⟩

/-- Two readers of one position: the first reads to the end, and its cell is lost; the second is
broken off. -/
theorem readers_apart_two : ∃ s, (readers 1).run (.ok .init)
      [.opens 0, .calls 0 (.callStart true), .opens 1, .calls 1 (.callStart true),
        .calls 0 .callShow, .calls 1 .callShow, .calls 0 .callNext, .calls 1 .callStop,
        .calls 0 .callStop, .releases 0] = some (.ok s) ∧
    s.freed = [1] ∧ s.ended = [0] ∧ Divided s := by
  obtain ⟨s, hs, hdivided, -⟩ := readers_apart 1
    [.opens 0, .calls 0 (.callStart true), .opens 1, .calls 1 (.callStart true),
      .calls 0 .callShow, .calls 1 .callShow, .calls 0 .callNext, .calls 1 .callStop,
      .calls 0 .callStop, .releases 0] _ rfl
  obtain rfl := Except.ok.inj hs
  exact ⟨_, rfl, rfl, rfl, hdivided⟩

end OsLabs.SeqFile
