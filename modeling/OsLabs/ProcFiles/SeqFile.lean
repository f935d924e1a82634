/-
# seq_file: the iterator

`6/seq_files/seq_file.c` gives the kernel's `seq_read` four functions to go through the positions
below `limit`.  The position is kept twice, in the index of `seq_read` and in a cell that
`ct_seq_start` allocates and `ct_seq_next` counts up.

`seq_read` calls them in sessions: `start`, then `show` and `next` in turn; it stops when it gets
`NULL`, or behind any `next`, or behind a `show` whose record does not fit into its buffer and is
thrown away.  However it does so, the records that it keeps are those of the positions in order,
each once (`positions_once`).

`kmalloc` succeeds.  Of a record only the position is modelled.
-/
import OsLabs.Lib.Machine
import Mathlib.Algebra.Group.Int.Defs
import Mathlib.Data.List.Range

namespace OsLabs.SeqFile

/-! ## 1. The four functions -/

/-- The cells that `kmalloc` has returned: what is in those that have not been freed, and the
next one. -/
structure Heap where
  cells : Nat → Option Int
  fresh : Nat

/-- A cell that is used or freed and not allocated. -/
structure Fault where
  cell : Nat
deriving DecidableEq, Repr

namespace Heap

def empty : Heap := ⟨fun _ => none, 0⟩

def store (v : Nat) (x : Option Int) (h : Heap) : Heap :=
  { h with cells := fun w => if w = v then x else h.cells w }

def load (v : Nat) (h : Heap) : Except Fault Int :=
  match h.cells v with
  | some x => .ok x
  | none => .error ⟨v⟩

end Heap

/-- A `loff_t`. -/
def loff (x : Int) : Int := x.bmod (2 ^ 64)

def ctSeqStart (limit : Int32) (pos : Int) (h : Heap) : Option Nat × Heap :=
  if pos ≥ limit.toInt then (none, h)
  else (some h.fresh, { h.store h.fresh (some pos) with fresh := h.fresh + 1 })

/-- The position that is printed. -/
def ctSeqShow (v : Nat) (h : Heap) : Except Fault Int := h.load v

/-- What it returns, and the index and the cell. -/
def ctSeqNext (limit : Int32) (v : Nat) (h : Heap) : Except Fault (Option Nat × Int × Heap) := do
  let spos ← h.load v
  let pos := loff (spos + 1)
  return (if pos ≥ limit.toInt then none else some v, pos, h.store v (some pos))

/-- `kfree`, which does nothing for `NULL`. -/
def ctSeqStop (v : Option Nat) (h : Heap) : Except Fault Heap :=
  match v with
  | none => .ok h
  | some v => do
    let _ ← h.load v
    return h.store v none

/-! ## 2. The sessions of `seq_read` -/

/-- Where a session is: between two sessions; with what `start` or `next` has returned, and which
of them it was; or behind `show`, which has printed a position. -/
inductive Phase
  | idle
  | got (v : Option Nat) (byNext : Bool)
  | shown (v : Nat) (position : Int)
deriving DecidableEq, Repr

/-- `callStop` at the end of a session; `discard` where the record just shown does not fit: it is
thrown away, and `stop` called. -/
inductive Action
  | callStart
  | callShow
  | callNext
  | callStop
  | discard
deriving DecidableEq, Repr

/-- The index of `seq_read`, the cells, and the positions of the records kept so far. -/
structure Reading where
  index : Int
  heap : Heap
  phase : Phase
  retained : List Int

namespace Reading

def init : Reading := ⟨0, .empty, .idle, []⟩

def endSession (s : Reading) (v : Option Nat) : Except Fault Reading :=
  (ctSeqStop v s.heap).map fun heap => { s with heap := heap, phase := .idle }

/-- What `seq_read` does next, if it may do so. -/
def step (limit : Int32) (s : Reading) (a : Action) : Option (Except Fault Reading) :=
  match a, s.phase with
  | .callStart, .idle =>
    let r := ctSeqStart limit s.index s.heap
    some (.ok { s with heap := r.2, phase := .got r.1 false })
  | .callShow, .got (some v) _ =>
    some ((ctSeqShow v s.heap).map fun position => { s with phase := .shown v position })
  | .callNext, .shown v position =>
    some ((ctSeqNext limit v s.heap).map fun r =>
      { index := r.2.1, heap := r.2.2, phase := .got r.1 true,
        retained := s.retained ++ [position] })
  | .callStop, .got none _ => some (s.endSession none)
  | .callStop, .got (some v) true => some (s.endSession (some v))
  | .discard, .shown v _ => some (s.endSession (some v))
  | _, _ => none

end Reading

/-- The file being read from its opening on; a fault is the end of the run. -/
def iterator (limit : Int32) : Machine (Except Fault Reading) Action where
  init := .ok Reading.init
  step
    | .ok s, a => s.step limit a
    | .error _, _ => none

/-! ## 3. The two positions agree -/

/-- The positions below `n`. -/
def positions (n : Nat) : List Int := (List.range n).map fun i : Nat => (i : Int)

variable {limit : Int32} {s : Reading} {h : Heap} {v n : Nat} {x : Int} {a : Action}

/-- In every phase: the index is the number of the records kept, which are those before it, and
the cell that the session has, if any, holds the index. -/
structure Inv (limit : Int32) (n : Nat) (s : Reading) : Prop where
  index : s.index = n
  le_limit : n ≤ limit.toInt.toNat
  retained : s.retained = positions n
  phase : match s.phase with
    | .idle => True
    | .got none _ => n = limit.toInt.toNat
    | .got (some v) _ => s.heap.cells v = some s.index ∧ s.index < limit.toInt
    | .shown v position =>
      s.heap.cells v = some s.index ∧ s.index < limit.toInt ∧ position = s.index

theorem load_eq (hc : h.cells v = some x) : h.load v = .ok x := by
  rw [Heap.load, hc]

theorem endSession_eq (hc : s.heap.cells v = some x) :
    s.endSession (some v) = .ok { s with heap := s.heap.store v none, phase := .idle } := by
  rw [Reading.endSession, ctSeqStop, load_eq hc]
  rfl

theorem positions_succ (n : Nat) : positions (n + 1) = positions n ++ [(n : Int)] := by
  rw [positions, List.range_succ, List.map_append]
  rfl

theorem length_positions (n : Nat) : (positions n).length = n := by
  rw [positions, List.length_map, List.length_range]

/-- The next position is still a `loff_t`. -/
theorem loff_succ (hn : (n : Int) < limit.toInt) :
    loff ((n : Int) + 1) = ((n + 1 : Nat) : Int) := by
  have hlimit := limit.toInt_lt
  rw [loff, Int.bmod_eq_of_le (by omega) (by omega)]
  omega

/-- **`next`** counts the cell and the index up together. -/
theorem ctSeqNext_eq (hc : h.cells v = some (n : Int)) (hn : (n : Int) < limit.toInt) :
    ctSeqNext limit v h = .ok (if ((n + 1 : Nat) : Int) ≥ limit.toInt then none else some v,
      ((n + 1 : Nat) : Int), h.store v (some ((n + 1 : Nat) : Int))) := by
  rw [ctSeqNext, load_eq hc, ← loff_succ hn]
  rfl

theorem inv_init (limit : Int32) : Inv limit 0 Reading.init :=
  ⟨rfl, Nat.zero_le _, rfl, trivial⟩

/-- **One step**: it meets no fault, and it keeps a record exactly when it is `next`. -/
theorem inv_step (hs : Inv limit n s) {r : Except Fault Reading}
    (hstep : s.step limit a = some r) :
    ∃ s' n', r = .ok s' ∧ Inv limit n' s' ∧ n' = n + if a = .callNext then 1 else 0 := by
  have hphase := hs.phase
  have hindex := hs.index
  unfold Reading.step at hstep
  split at hstep
  · -- `start` returns `NULL` behind the last position
    rename_i hidle
    obtain rfl := Option.some.inj hstep
    refine ⟨_, n, rfl, ⟨hindex, hs.le_limit, hs.retained, ?_⟩, rfl⟩
    rcases Int.lt_or_le s.index limit.toInt with hlt | hge
    · rw [ctSeqStart, if_neg (by omega)]
      exact ⟨if_pos rfl, hlt⟩
    · rw [ctSeqStart, if_pos hge]
      have hle := hs.le_limit
      simp only
      omega
  · rename_i v byNext hgot
    rw [hgot] at hphase
    obtain rfl := Option.some.inj hstep
    obtain ⟨hcell, hlt⟩ := hphase
    refine ⟨{ s with phase := .shown v s.index }, n, ?_, ?_, rfl⟩
    · rw [ctSeqShow, load_eq hcell]
      rfl
    · exact ⟨hindex, hs.le_limit, hs.retained, hcell, hlt, rfl⟩
  · rename_i v position hshown
    rw [hshown] at hphase
    obtain rfl := Option.some.inj hstep
    obtain ⟨hcell, hlt, rfl⟩ := hphase
    rw [hindex] at hcell hlt
    refine ⟨_, n + 1, by rw [ctSeqNext_eq hcell hlt]; rfl, ⟨rfl, by omega, ?_, ?_⟩, rfl⟩
    · rw [positions_succ, hs.retained, hindex]
    · rcases Int.lt_or_le ((n + 1 : Nat) : Int) limit.toInt with hnext | hend
      · rw [if_neg (by omega)]
        exact ⟨if_pos rfl, hnext⟩
      · rw [if_pos hend]
        simp only
        omega
  · obtain rfl := Option.some.inj hstep
    exact ⟨_, n, rfl, ⟨hindex, hs.le_limit, hs.retained, trivial⟩, rfl⟩
  · rename_i v hgot
    rw [hgot] at hphase
    obtain rfl := Option.some.inj hstep
    exact ⟨_, n, endSession_eq hphase.1, ⟨hindex, hs.le_limit, hs.retained, trivial⟩, rfl⟩
  · rename_i v position hshown
    rw [hshown] at hphase
    obtain rfl := Option.some.inj hstep
    exact ⟨_, n, endSession_eq hphase.1, ⟨hindex, hs.le_limit, hs.retained, trivial⟩, rfl⟩
  · exact absurd hstep (by simp)

/-- **A run** keeps as many records as it calls `next`. -/
theorem inv_run (as : List Action) {r : Except Fault Reading} (hs : Inv limit n s)
    (hrun : (iterator limit).run (.ok s) as = some r) :
    ∃ s', r = .ok s' ∧ Inv limit (n + as.count .callNext) s' := by
  induction as generalizing n s with
  | nil =>
    rw [Machine.run_nil_eq_some] at hrun
    exact ⟨s, hrun.symm, hs⟩
  | cons a as ih =>
    obtain ⟨r₁, hstep, hrest⟩ := Machine.run_cons_eq_some.mp hrun
    obtain ⟨s₁, n₁, rfl, hs₁, hn₁⟩ := inv_step hs hstep
    obtain ⟨s', hr, hs'⟩ := ih hs₁ hrest
    refine ⟨s', hr, ?_⟩
    have hcount : n + (a :: as).count .callNext = n₁ + as.count .callNext := by
      rw [List.count_cons, hn₁]
      simp only [beq_iff_eq]
      omega
    rw [hcount]
    exact hs'

/-! ## 4. Every position once -/

/-- All records have been kept, and `start` returns `NULL`. -/
def Complete (limit : Int32) (s : Reading) : Prop :=
  s.retained = positions limit.toInt.toNat ∧ (ctSeqStart limit s.index s.heap).1 = none

theorem start_null_iff (hs : Inv limit n s) :
    (ctSeqStart limit s.index s.heap).1 = none ↔ n = limit.toInt.toNat := by
  have hle := hs.le_limit
  rw [ctSeqStart, hs.index]
  split
  · rename_i hge
    exact ⟨fun _ => by omega, fun _ => rfl⟩
  · rename_i hlt
    exact ⟨fun hnull => absurd hnull (by simp), fun heq => absurd heq (by omega)⟩

theorem complete_of_eq (hs : Inv limit n s) (hn : n = limit.toInt.toNat) : Complete limit s :=
  ⟨by rw [hs.retained, hn], (start_null_iff hs).mpr hn⟩

/-- How far the end is: first the positions to come, then the phase. -/
def distance (limit : Int32) (s : Reading) : Nat :=
  4 * (limit.toInt - s.index).toNat +
    match s.phase with
    | .idle => 2
    | .got _ _ => 1
    | .shown _ _ => 0

/-- A step towards the end. -/
theorem step_towards (hs : Inv limit n s) (hn : n ≠ limit.toInt.toNat) :
    ∃ a s' n', s.step limit a = some (.ok s') ∧ Inv limit n' s' ∧
      distance limit s' < distance limit s := by
  have hphase := hs.phase
  have hindex := hs.index
  have hlt : (n : Int) < limit.toInt := by
    have hle := hs.le_limit
    omega
  cases hp : s.phase with
  | idle =>
    have hstep : s.step limit .callStart = some (.ok { s with
        heap := (ctSeqStart limit s.index s.heap).2
        phase := .got (ctSeqStart limit s.index s.heap).1 false }) := by
      simp only [Reading.step, hp]
    obtain ⟨s', n', hok, hs', -⟩ := inv_step hs hstep
    refine ⟨.callStart, _, n', hstep, Except.ok.inj hok ▸ hs', ?_⟩
    simp only [distance, hp]
    omega
  | got v byNext =>
    rw [hp] at hphase
    cases v with
    | none => exact absurd hphase hn
    | some v =>
      have hstep : s.step limit .callShow =
          some (.ok { s with phase := .shown v s.index }) := by
        simp only [Reading.step, hp, ctSeqShow, load_eq hphase.1]
        rfl
      obtain ⟨s', n', hok, hs', -⟩ := inv_step hs hstep
      refine ⟨.callShow, _, n', hstep, Except.ok.inj hok ▸ hs', ?_⟩
      simp only [distance, hp]
      omega
  | shown v position =>
    rw [hp] at hphase
    obtain ⟨hcell, -, -⟩ := hphase
    rw [hindex] at hcell
    obtain ⟨s', hstep, hnext⟩ : ∃ s', s.step limit .callNext = some (.ok s') ∧
        ∃ w, s'.phase = .got w true := by
      simp only [Reading.step, hp, ctSeqNext_eq hcell hlt]
      exact ⟨_, rfl, _, rfl⟩
    obtain ⟨w, hw⟩ := hnext
    obtain ⟨s'', n', hok, hs', hn'⟩ := inv_step hs hstep
    obtain rfl := Except.ok.inj hok
    refine ⟨.callNext, s', n', hstep, hs', ?_⟩
    have hindex' := hs'.index
    rw [if_pos rfl] at hn'
    simp only [distance, hp, hw, hindex, hindex', hn']
    omega

theorem reaches_complete (hs : Inv limit n s) :
    ∃ t, (iterator limit).Reaches (.ok s) (.ok t) ∧ Complete limit t := by
  have hmeasure := Machine.reaches_of_measure (M := iterator limit)
    (I := fun r => ∃ s n, r = .ok s ∧ Inv limit n s)
    (G := fun r => ∃ t, r = .ok t ∧ Complete limit t)
    (fun r => match r with
      | .ok s => distance limit s
      | .error _ => 0) ?_ (.ok s) ⟨s, n, rfl, hs⟩
  · obtain ⟨r, hreaches, -, t, rfl, ht⟩ := hmeasure
    exact ⟨t, hreaches, ht⟩
  · rintro r ⟨s, n, rfl, hs⟩ hnot
    have hn : n ≠ limit.toInt.toNat := fun hn => hnot ⟨s, rfl, complete_of_eq hs hn⟩
    obtain ⟨a, s', n', hstep, hs', hlt⟩ := step_towards hs hn
    exact ⟨.ok s', .step hstep, ⟨s', n', rfl, hs'⟩, hlt⟩

/-- **Every position once.**  For every limit, in every run: the run meets no fault; the records
kept are those of the first positions, one for each call of `next`; `start` returns `NULL`
exactly when they are all positions below the limit; and this end can be reached. -/
theorem positions_once (limit : Int32) (as : List Action) (r : Except Fault Reading)
    (hrun : (iterator limit).run (.ok .init) as = some r) :
    ∃ s, r = .ok s ∧ s.retained = positions (as.count .callNext) ∧
      as.count .callNext ≤ limit.toInt.toNat ∧
      ((ctSeqStart limit s.index s.heap).1 = none ↔
        s.retained = positions limit.toInt.toNat) ∧
      ∃ t, (iterator limit).Reaches r (.ok t) ∧ Complete limit t := by
  obtain ⟨s, rfl, hs⟩ := inv_run as (inv_init limit) hrun
  rw [Nat.zero_add] at hs
  refine ⟨s, rfl, hs.retained, hs.le_limit, (start_null_iff hs).trans ?_, reaches_complete hs⟩
  rw [hs.retained]
  refine ⟨fun h => by rw [h], fun h => ?_⟩
  have hlength := congrArg List.length h
  rwa [length_positions, length_positions] at hlength

/-- Two positions in three sessions: the first is broken off behind a record that does not fit,
the second behind its first record. -/
theorem positions_once_two : ∃ r s, (iterator 2).run (.ok .init)
      [.callStart, .callShow, .discard, .callStart, .callShow, .callNext, .callStop,
        .callStart, .callShow, .callNext, .callStop] = some r ∧
    r = .ok s ∧ s.retained = positions 2 := by
  obtain ⟨r, hr⟩ := Option.isSome_iff_exists.mp (show ((iterator 2).run (.ok .init)
    [.callStart, .callShow, .discard, .callStart, .callShow, .callNext, .callStop,
      .callStart, .callShow, .callNext, .callStop]).isSome = true by decide)
  obtain ⟨s, hs, hretained, -⟩ := positions_once 2 _ r hr
  exact ⟨r, s, hr, hs, hretained⟩

end OsLabs.SeqFile
