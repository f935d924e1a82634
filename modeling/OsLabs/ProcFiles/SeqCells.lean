/-
# seq_file: the cells of the iterator

`ct_seq_start` allocates a cell for each session, and `ct_seq_stop` frees what it is called with.
That is `NULL` when the session has come to its end, and the cell is lost: `ct_seq_next` returns
`NULL` behind the last position and does not free the cell itself.

Here a session may be broken off at any point, a `seek` may come between two sessions, and
`kmalloc` may fail.  No cell is ever used or freed when it is not allocated; every cell is freed
exactly when no session calls `next` at the last position (`cells_released_iff`).
-/
import OsLabs.ProcFiles.SeqFile
import Mathlib.Data.Set.Basic

namespace OsLabs.SeqFile

/-! ## 1. The sessions -/

/-- The calls of a session, and a `seek` between two sessions. -/
inductive Call
  | callStart (kmalloc : Bool)
  | callShow
  | callNext
  | callStop
  | seek (pos : Int64)
deriving DecidableEq, Repr

/-- The index, the cells, and those that have been passed to `kfree`. -/
structure Sessions where
  index : Int
  heap : Heap
  phase : Phase
  freed : List Nat

/-- The cells that have not been released. -/
def Heap.unreleased (h : Heap) : Set Nat := {v | h.cells v ≠ none}

/-- The pointer that the session will call `stop` with. -/
def Phase.last : Phase → Option Nat
  | .idle => none
  | .got v _ => v
  | .shown v _ => some v

namespace Sessions

def init : Sessions := ⟨0, .empty, .idle, []⟩

def endSession (s : Sessions) (v : Option Nat) : Except Fault Sessions :=
  (ctSeqStop v s.heap).map fun heap =>
    { s with heap := heap, phase := .idle, freed := s.freed ++ v.toList }

/-- `start`, then `show` and `next` in turn, and `stop` with the last pointer. -/
def step (limit : Int32) (s : Sessions) (a : Call) : Option (Except Fault Sessions) :=
  match a, s.phase with
  | .callStart kmalloc, .idle =>
    let r := if kmalloc then ctSeqStart limit s.index s.heap else (none, s.heap)
    some (.ok { s with heap := r.2, phase := .got r.1 false })
  | .callShow, .got (some v) _ =>
    some ((ctSeqShow v s.heap).map fun position => { s with phase := .shown v position })
  | .callNext, .shown v _ =>
    some ((ctSeqNext limit v s.heap).map fun r =>
      { s with index := r.2.1, heap := r.2.2, phase := .got r.1 true })
  | .callStop, .got v _ => some (s.endSession v)
  | .callStop, .shown v _ => some (s.endSession (some v))
  | .seek pos, .idle => some (.ok { s with index := pos.toInt })
  | _, _ => none

end Sessions

/-- The file being read from its opening on. -/
def sessions (limit : Int32) : Machine (Except Fault Sessions) Call where
  init := .ok Sessions.init
  step
    | .ok s, a => s.step limit a
    | .error _, _ => none

/-- `next` is not called at the last position. -/
def BeforeLast (limit : Int32) : Except Fault Sessions → Call → Prop
  | .ok s, .callNext => s.index + 1 < limit.toInt
  | _, _ => True

instance (limit : Int32) : ∀ r a, Decidable (BeforeLast limit r a)
  | .ok _, .callNext => inferInstanceAs (Decidable (_ < _))
  | .ok _, .callStart _ => isTrue trivial
  | .ok _, .callShow => isTrue trivial
  | .ok _, .callStop => isTrue trivial
  | .ok _, .seek _ => isTrue trivial
  | .error _, _ => isTrue trivial

/-- **The cells are released**: each one was freed once, and behind every `stop` none is left. -/
structure Released (limit : Int32) (as : List Call) (s : Sessions) : Prop where
  once : ∀ v < s.heap.fresh, s.freed.count v = 1
  stopped : (sessions limit).StatesMeet
    (fun r => ∀ s, r = .ok s → s.phase = .idle → s.heap.unreleased = ∅) (.ok .init) as

/-! ## 2. The account of a cell -/

/-- Every cell that was allocated has been freed or is there; the session's cell is there, and
holds the index. -/
structure Account (limit : Int32) (s : Sessions) : Prop where
  balance : ∀ v, s.freed.count v + (s.heap.cells v).isSome.toNat =
    if v < s.heap.fresh then 1 else 0
  last : ∀ v, s.phase.last = some v →
    s.heap.cells v = some s.index ∧ s.index < limit.toInt
  index : -2 ^ 63 ≤ s.index

/-- No cell is there but the session's. -/
def Clean (s : Sessions) : Prop := ∀ v, s.heap.cells v ≠ none → s.phase.last = some v

variable {limit : Int32} {s s' : Sessions} {a : Call} {v : Nat} {x : Option Int} {h : Heap}

theorem store_cells (w : Nat) : (h.store v x).cells w = if w = v then x else h.cells w := rfl

/-- What a cell holds is changed, and it stays allocated. -/
theorem isSome_store {y z : Int} (hcell : h.cells v = some y) (w : Nat) :
    ((h.store v (some z)).cells w).isSome = (h.cells w).isSome := by
  rw [store_cells]
  by_cases hw : w = v
  · rw [if_pos hw, hw, hcell]
    rfl
  · rw [if_neg hw]

@[simp] theorem last_idle : Phase.idle.last = none := rfl

@[simp] theorem last_got (w : Option Nat) (byNext : Bool) : (Phase.got w byNext).last = w := rfl

@[simp] theorem last_shown (p : Int) : (Phase.shown v p).last = some v := rfl

theorem account_init (limit : Int32) : Account limit .init where
  balance v := by simp [Sessions.init, Heap.empty]
  last v hv := by simp [Sessions.init] at hv
  index := by simp [Sessions.init]

theorem clean_init : Clean .init := fun _ hv => absurd rfl hv

/-- A cell that has not been allocated yet is not there. -/
theorem Account.fresh (hs : Account limit s) (hv : s.heap.fresh ≤ v) :
    s.heap.cells v = none ∧ s.freed.count v = 0 := by
  have hbalance := hs.balance v
  rw [if_neg (Nat.not_lt.mpr hv)] at hbalance
  constructor
  · cases hcell : s.heap.cells v with
    | none => rfl
    | some x =>
      rw [hcell] at hbalance
      simp at hbalance
  · omega

/-- A cell that is there has not been freed. -/
theorem Account.held (hs : Account limit s) (hv : s.heap.cells v ≠ none) :
    v < s.heap.fresh ∧ s.freed.count v = 0 := by
  have hbalance := hs.balance v
  rw [Option.isSome_iff_ne_none.mpr hv, Bool.toNat_true] at hbalance
  split at hbalance
  · rename_i hlt
    exact ⟨hlt, by omega⟩
  · omega

/-- **`next`** counts the index and the cell up; behind the last position it returns `NULL`. -/
theorem next_eq (hs : Account limit s) (hv : s.phase.last = some v) :
    ctSeqNext limit v s.heap =
      .ok (if s.index + 1 < limit.toInt then some v else none, s.index + 1,
        s.heap.store v (some (s.index + 1))) := by
  obtain ⟨hcell, hlt⟩ := hs.last v hv
  have hlimit := limit.toInt_lt
  have hindex := hs.index
  have hloff : loff (s.index + 1) = s.index + 1 := by
    rw [loff, Int.bmod_eq_of_le (by omega) (by omega)]
  rw [ctSeqNext, load_eq hcell]
  simp only [bind, Except.bind, pure, Except.pure, hloff]
  by_cases hend : s.index + 1 < limit.toInt
  · rw [if_pos hend, if_neg (by omega)]
  · rw [if_neg hend, if_pos (by omega)]

/-- **What a step can do**: it meets no fault. -/
inductive Moves (limit : Int32) (s : Sessions) : Call → Sessions → Prop
  | seek {pos : Int64} : s.phase = .idle → Moves limit s (.seek pos) { s with index := pos.toInt }
  | null {kmalloc : Bool} : s.phase = .idle →
      Moves limit s (.callStart kmalloc) { s with phase := .got none false }
  | start {kmalloc : Bool} : s.phase = .idle → s.index < limit.toInt →
      Moves limit s (.callStart kmalloc) { s with
        heap := { s.heap.store s.heap.fresh (some s.index) with fresh := s.heap.fresh + 1 }
        phase := .got (some s.heap.fresh) false }
  | shows {v : Nat} : s.phase.last = some v →
      Moves limit s .callShow { s with phase := .shown v s.index }
  | next {v : Nat} : s.phase.last = some v →
      Moves limit s .callNext { s with
        index := s.index + 1
        heap := s.heap.store v (some (s.index + 1))
        phase := .got (if s.index + 1 < limit.toInt then some v else none) true }
  | stopNull : s.phase.last = none → Moves limit s .callStop { s with phase := .idle }
  | stop {v : Nat} : s.phase.last = some v →
      Moves limit s .callStop { s with
        heap := s.heap.store v none
        phase := .idle
        freed := s.freed ++ [v] }

theorem stop_moves (hs : Account limit s) {r : Except Fault Sessions}
    (hr : s.endSession s.phase.last = r) : ∃ s', r = .ok s' ∧ Moves limit s .callStop s' := by
  cases hlast : s.phase.last with
  | none =>
    rw [hlast] at hr
    refine ⟨_, ?_, .stopNull hlast⟩
    rw [← hr, Sessions.endSession, ctSeqStop, Option.toList_none, List.append_nil]
    rfl
  | some v =>
    rw [hlast] at hr
    refine ⟨_, ?_, .stop hlast⟩
    rw [← hr, Sessions.endSession, ctSeqStop, load_eq (hs.last v hlast).1]
    rfl

theorem moves_of_step (hs : Account limit s) {r : Except Fault Sessions}
    (hstep : s.step limit a = some r) : ∃ s', r = .ok s' ∧ Moves limit s a s' := by
  unfold Sessions.step at hstep
  split at hstep
  · rename_i kmalloc hidle
    obtain rfl := Option.some.inj hstep
    refine ⟨_, rfl, ?_⟩
    by_cases hstart : kmalloc = true ∧ s.index < limit.toInt
    · rw [if_pos hstart.1, ctSeqStart, if_neg (by omega)]
      exact .start hidle hstart.2
    · have hnull : (if kmalloc then ctSeqStart limit s.index s.heap else (none, s.heap)) =
          (none, s.heap) := by
        cases kmalloc with
        | false => rfl
        | true => rw [if_pos rfl, ctSeqStart, if_pos (by simpa using hstart)]
      rw [hnull]
      exact .null hidle
  · rename_i v byNext hgot
    obtain rfl := Option.some.inj hstep
    have hlast : s.phase.last = some v := by rw [hgot]; rfl
    refine ⟨_, ?_, .shows hlast⟩
    rw [ctSeqShow, load_eq (hs.last v hlast).1]
    rfl
  · rename_i v position hshown
    obtain rfl := Option.some.inj hstep
    have hlast : s.phase.last = some v := by rw [hshown]; rfl
    exact ⟨_, by rw [next_eq hs hlast]; rfl, .next hlast⟩
  · rename_i v byNext hgot
    exact stop_moves hs (by rw [hgot]; exact Option.some.inj hstep)
  · rename_i v position hshown
    exact stop_moves hs (by rw [hshown]; exact Option.some.inj hstep)
  · rename_i pos hidle
    obtain rfl := Option.some.inj hstep
    exact ⟨_, rfl, .seek hidle⟩
  · exact absurd hstep (by simp)

/-! ## 3. One step -/

theorem Account.step (hs : Account limit s) (hm : Moves limit s a s') : Account limit s' := by
  cases hm with
  | @seek pos hidle =>
    refine ⟨hs.balance, fun v hv => ?_, Int64.le_toInt pos⟩
    rw [hidle] at hv
    exact absurd hv (by simp)
  | null hidle => exact ⟨hs.balance, fun v hv => absurd hv (by simp), hs.index⟩
  | start hidle hlt =>
    refine ⟨fun v => ?_, fun v hv => ?_, hs.index⟩
    · have hbalance := hs.balance v
      simp only [store_cells]
      rcases Nat.lt_trichotomy v s.heap.fresh with hv | rfl | hv
      · rw [if_neg (Nat.ne_of_lt hv), hbalance, if_pos hv, if_pos (by omega)]
      · rw [(hs.fresh (Nat.le_refl _)).2, if_pos rfl, if_pos (Nat.lt_succ_self _)]
        rfl
      · rw [if_neg (Nat.ne_of_gt hv), hbalance, if_neg (by omega), if_neg (by omega)]
    · obtain rfl := Option.some.inj hv
      exact ⟨by simp [store_cells], hlt⟩
  | shows hlast => exact ⟨hs.balance, fun v hv => hs.last v (hlast.trans hv), hs.index⟩
  | @next w hlast =>
    obtain ⟨hcell, hlt⟩ := hs.last w hlast
    have hindex := hs.index
    refine ⟨fun v => ?_, fun v hv => ?_, by simp only; omega⟩
    · change _ + ((s.heap.store w _).cells v).isSome.toNat = if v < s.heap.fresh then 1 else 0
      rw [isSome_store hcell]
      exact hs.balance v
    · rw [last_got] at hv
      split at hv
      · rename_i hnext
        obtain rfl := Option.some.inj hv
        exact ⟨by simp [store_cells], hnext⟩
      · exact absurd hv (by simp)
  | stopNull hlast => exact ⟨hs.balance, fun v hv => absurd hv (by simp), hs.index⟩
  | @stop w hlast =>
    obtain ⟨hcell, -⟩ := hs.last w hlast
    refine ⟨fun v => ?_, fun v hv => absurd hv (by simp), hs.index⟩
    have hbalance := hs.balance v
    change (s.freed ++ [w]).count v + ((s.heap.store w none).cells v).isSome.toNat =
      if v < s.heap.fresh then 1 else 0
    rw [store_cells, List.count_append]
    by_cases hv : v = w
    · subst hv
      rw [hcell] at hbalance
      simpa using hbalance
    · rw [if_neg hv, List.count_singleton, if_neg (by simpa using Ne.symm hv), Nat.add_zero]
      exact hbalance

/-- **A cell is lost** exactly where `next` returns `NULL`; one that is lost stays so. -/
theorem clean_step (hs : Account limit s) (hm : Moves limit s a s') :
    Clean s' ↔ Clean s ∧ BeforeLast limit (.ok s) a := by
  cases hm with
  | seek hidle => exact ⟨fun h => ⟨h, trivial⟩, fun h => h.1⟩
  | null hidle =>
    refine ⟨fun h => ⟨fun v hv => absurd (h v hv) (by simp), trivial⟩, ?_⟩
    rintro ⟨h, -⟩ v hv
    have hlast := h v hv
    rw [hidle] at hlast
    exact absurd hlast (by simp)
  | start hidle hlt =>
    constructor
    · refine fun h => ⟨fun v hv => ?_, trivial⟩
      have hlt := (hs.held hv).1
      have hlast := h v (by simpa [store_cells, Nat.ne_of_lt hlt] using hv)
      obtain rfl := Option.some.inj hlast
      exact absurd hlt (Nat.lt_irrefl _)
    · rintro ⟨h, -⟩ v hv
      by_cases heq : v = s.heap.fresh
      · rw [heq]
        rfl
      · have hlast := h v (by simpa [store_cells, heq] using hv)
        rw [hidle] at hlast
        exact absurd hlast (by simp)
  | shows hlast =>
    simp only [Clean, BeforeLast, last_shown, hlast, and_true]
  | @next w hlast =>
    obtain ⟨hcell, -⟩ := hs.last w hlast
    have hcells : ∀ v, (s.heap.store w (some (s.index + 1))).cells v ≠ none ↔
        s.heap.cells v ≠ none := by
      intro v
      rw [← Option.isSome_iff_ne_none, isSome_store hcell, Option.isSome_iff_ne_none]
    simp only [Clean, BeforeLast, last_got, hcells, hlast]
    by_cases hnext : s.index + 1 < limit.toInt
    · rw [if_pos hnext]
      exact ⟨fun h => ⟨h, hnext⟩, fun h => h.1⟩
    · rw [if_neg hnext]
      refine ⟨fun h => absurd (h w (by rw [hcell]; simp)) (by simp), fun h => absurd h.2 hnext⟩
  | stopNull hlast =>
    simp only [Clean, BeforeLast, last_idle, hlast, and_true]
  | @stop w hlast =>
    simp only [Clean, BeforeLast, last_idle, store_cells, hlast, and_true]
    constructor
    · intro h v hv
      by_cases heq : v = w
      · rw [heq]
      · exact absurd (h v (by rwa [if_neg heq])) (by simp)
    · intro h v hv
      split at hv
      · exact absurd rfl hv
      · rename_i hne
        exact absurd (Option.some.inj (h v hv)).symm hne

/-! ## 4. The reads that keep whole records -/

/-- The call that an action of `seq_read` makes. -/
def Action.call : Action → Call
  | .callStart => .callStart true
  | .callShow => .callShow
  | .callNext => .callNext
  | .callStop => .callStop
  | .discard => .callStop

/-- The same index, cells and phase; or the same fault. -/
def Agrees : Except Fault Reading → Except Fault Sessions → Prop
  | .ok s, .ok t => s.index = t.index ∧ s.heap = t.heap ∧ s.phase = t.phase
  | .error e, .error e' => e = e'
  | _, _ => False

theorem agrees_endSession {s : Reading} {t : Sessions} (hindex : s.index = t.index)
    (hheap : s.heap = t.heap) (v : Option Nat) : Agrees (s.endSession v) (t.endSession v) := by
  rw [Reading.endSession, Sessions.endSession, hheap]
  cases ctSeqStop v t.heap with
  | error e => rfl
  | ok heap => exact ⟨hindex, rfl, rfl⟩

theorem agrees_step {s : Reading} {t : Sessions} {a : Action} {r : Except Fault Reading}
    (h : Agrees (.ok s) (.ok t)) (hstep : s.step limit a = some r) :
    ∃ q, t.step limit a.call = some q ∧ Agrees r q := by
  obtain ⟨hindex, hheap, hphase⟩ := h
  unfold Reading.step at hstep
  split at hstep
  · rename_i hidle
    obtain rfl := Option.some.inj hstep
    rw [hphase] at hidle
    simp only [Action.call, Sessions.step, hidle, if_true]
    exact ⟨_, rfl, hindex, by rw [hindex, hheap], by rw [hindex, hheap]⟩
  · rename_i v byNext hgot
    obtain rfl := Option.some.inj hstep
    rw [hphase] at hgot
    simp only [Action.call, Sessions.step, hgot, hheap]
    refine ⟨_, rfl, ?_⟩
    cases ctSeqShow v t.heap with
    | error e => rfl
    | ok position => exact ⟨hindex, rfl, rfl⟩
  · rename_i v position hshown
    obtain rfl := Option.some.inj hstep
    rw [hphase] at hshown
    simp only [Action.call, Sessions.step, hshown, hheap]
    refine ⟨_, rfl, ?_⟩
    cases ctSeqNext limit v t.heap with
    | error e => rfl
    | ok out => exact ⟨rfl, rfl, rfl⟩
  · rename_i byNext hgot
    obtain rfl := Option.some.inj hstep
    rw [hphase] at hgot
    simp only [Action.call, Sessions.step, hgot]
    exact ⟨_, rfl, agrees_endSession hindex hheap none⟩
  · rename_i v hgot
    obtain rfl := Option.some.inj hstep
    rw [hphase] at hgot
    simp only [Action.call, Sessions.step, hgot]
    exact ⟨_, rfl, agrees_endSession hindex hheap (some v)⟩
  · rename_i v position hshown
    obtain rfl := Option.some.inj hstep
    rw [hphase] at hshown
    simp only [Action.call, Sessions.step, hshown]
    exact ⟨_, rfl, agrees_endSession hindex hheap (some v)⟩
  · exact absurd hstep (by simp)

/-- **The runs of `iterator` are runs of `sessions`**, with the same cells. -/
theorem agrees_run : ∀ {as : List Action} {r r' : Except Fault Reading} {q : Except Fault Sessions},
    Agrees r q → (iterator limit).run r as = some r' →
    ∃ q', (sessions limit).run q (as.map Action.call) = some q' ∧ Agrees r' q' := by
  intro as
  induction as with
  | nil =>
    intro r r' q h hrun
    exact ⟨q, rfl, Machine.run_nil_eq_some.mp hrun ▸ h⟩
  | cons a as ih =>
    intro r r' q h hrun
    obtain ⟨r₁, hst, hrest⟩ := Machine.run_cons_eq_some.mp hrun
    cases r with
    | error e => exact absurd hst (by simp [iterator])
    | ok s =>
      cases q with
      | error e => exact h.elim
      | ok t =>
        obtain ⟨q₁, hq₁, hagrees⟩ := agrees_step h hst
        obtain ⟨q', hq', hend⟩ := ih hagrees hrest
        exact ⟨q', Machine.run_cons_eq_some.mpr ⟨q₁, hq₁, hq'⟩, hend⟩

/-! ## 5. Whole runs -/

/-- No fault so far, and the account of every cell is right. -/
def Accounted (limit : Int32) (r : Except Fault Sessions) : Prop :=
  ∃ s, r = .ok s ∧ Account limit s

/-- No fault so far, and no cell lost. -/
def NoneLost (r : Except Fault Sessions) : Prop := ∃ s, r = .ok s ∧ Clean s

variable {r r' : Except Fault Sessions} {as : List Call}

theorem accounted_init (limit : Int32) : Accounted limit (sessions limit).init :=
  ⟨_, rfl, account_init limit⟩

theorem Accounted.moves (hr : Accounted limit r) (hstep : (sessions limit).step r a = some r') :
    ∃ s s', r = .ok s ∧ r' = .ok s' ∧ Account limit s ∧ Moves limit s a s' := by
  obtain ⟨s, rfl, hs⟩ := hr
  obtain ⟨s', hr', hm⟩ := moves_of_step hs hstep
  exact ⟨s, s', rfl, hr', hs, hm⟩

theorem Accounted.step (hr : Accounted limit r) (hstep : (sessions limit).step r a = some r') :
    Accounted limit r' := by
  obtain ⟨s, s', rfl, rfl, hs, hm⟩ := hr.moves hstep
  exact ⟨s', rfl, hs.step hm⟩

theorem Accounted.noneLost_step (hr : Accounted limit r)
    (hstep : (sessions limit).step r a = some r') :
    NoneLost r' ↔ NoneLost r ∧ BeforeLast limit r a := by
  obtain ⟨s, s', rfl, rfl, hs, hm⟩ := hr.moves hstep
  have hok : ∀ s : Sessions, NoneLost (.ok s) ↔ Clean s := by
    intro s
    refine ⟨?_, fun h => ⟨s, rfl, h⟩⟩
    rintro ⟨t, ht, hclean⟩
    obtain rfl := Except.ok.inj ht
    exact hclean
  rw [hok, hok]
  exact clean_step hs hm

/-- **Cells are lost along a run** exactly where `next` is called at the last position. -/
theorem noneLost_iff (limit : Int32) (as : List Call) :
    (sessions limit).StatesMeet NoneLost (.ok .init) as ↔
      (sessions limit).StepsMeet (BeforeLast limit) (.ok .init) as := by
  refine (Machine.stepsMeet_iff_statesMeet_of_step (M := sessions limit)
    (fun _ _ _ hr hstep => hr.step hstep) (fun r a r' hr hnone hstep => ?_)
    (accounted_init limit) ⟨_, rfl, clean_init⟩).symm
  rw [hr.noneLost_step hstep]
  exact ⟨fun h => h.2, fun h => ⟨hnone, h⟩⟩

/-- Between two sessions nothing is left of the cells if none is lost. -/
theorem Clean.unreleased (hs : Clean s) (hidle : s.phase = .idle) : s.heap.unreleased = ∅ := by
  refine Set.eq_empty_of_forall_notMem fun v hv => ?_
  have hlast := hs v hv
  rw [hidle] at hlast
  exact absurd hlast (by simp)

theorem clean_of_unreleased (h : s.heap.unreleased = ∅) : Clean s := by
  intro v hv
  have hmem : v ∈ s.heap.unreleased := hv
  rw [h] at hmem
  exact absurd hmem (Set.notMem_empty v)

/-- A run that ends without a lost cell has lost none. -/
theorem noneLost_of_run (hrun : (sessions limit).run (.ok .init) as = some r)
    (hr : NoneLost r) : (sessions limit).StatesMeet NoneLost (.ok .init) as :=
  Machine.statesMeet_of_run_of_inv (M := sessions limit) (I := Accounted limit)
    (fun _ _ _ hr hstep => hr.step hstep)
    (fun _ _ _ hr hstep hnone => ((hr.noneLost_step hstep).mp hnone).1)
    (accounted_init limit) hrun hr

theorem released_of_noneLost (hs : Account limit s) (hidle : s.phase = .idle)
    (hrun : (sessions limit).run (.ok .init) as = some (.ok s))
    (h : (sessions limit).StatesMeet NoneLost (.ok .init) as) : Released limit as s := by
  have hempty : ∀ r, NoneLost r → ∀ s, r = .ok s → s.phase = .idle → s.heap.unreleased = ∅ := by
    rintro r ⟨t, rfl, hclean⟩ s hts
    obtain rfl := Except.ok.inj hts
    exact hclean.unreleased
  refine ⟨fun v hv => ?_, h.mono hempty⟩
  have hnone : s.heap.cells v = none := by
    by_contra hne
    have hmem : v ∈ s.heap.unreleased := hne
    rw [hempty _ (h.last hrun) s rfl hidle] at hmem
    exact hmem
  have hbalance := hs.balance v
  rwa [hnone, if_pos hv] at hbalance

/-- **The cells of the iterator.**  For every limit and every run: no cell is used or freed that
is not allocated, and none is freed twice.  If the run ends behind a session, every cell has been
freed once, and none was left behind any `stop`, exactly when `next` was never called at the last
position. -/
theorem cells_released_iff (limit : Int32) (as : List Call) (r : Except Fault Sessions)
    (hrun : (sessions limit).run (.ok .init) as = some r) :
    ∃ s, r = .ok s ∧ (∀ v, s.freed.count v ≤ 1) ∧
      (s.phase = .idle → (Released limit as s ↔
        (sessions limit).StepsMeet (BeforeLast limit) (.ok .init) as)) := by
  obtain ⟨s, rfl, hs⟩ : Accounted limit r :=
    Machine.run_rule (fun _ _ _ hr hstep => Accounted.step hr hstep) as _ _
      (accounted_init limit) hrun
  refine ⟨s, rfl, fun v => ?_, fun hidle => ?_⟩
  · have hbalance := hs.balance v
    split at hbalance <;> omega
  · rw [← noneLost_iff]
    constructor
    · intro h
      have hempty := h.stopped.last hrun s rfl hidle
      exact noneLost_of_run hrun ⟨s, rfl, clean_of_unreleased hempty⟩
    · exact released_of_noneLost hs hidle hrun

/-- Two sessions that are broken off in time, the second behind its first position. -/
theorem cells_released_iff_two : ∃ s, (sessions 2).run (.ok .init)
      [.callStart true, .callShow, .callStop, .callStart true, .callShow, .callNext,
        .callStop] = some (.ok s) ∧ s.freed = [0, 1] ∧
    Released 2 [.callStart true, .callShow, .callStop, .callStart true, .callShow, .callNext,
      .callStop] s := by
  obtain ⟨s, hs, -, hiff⟩ := cells_released_iff 2 [.callStart true, .callShow, .callStop,
    .callStart true, .callShow, .callNext, .callStop] _ rfl
  obtain rfl := Except.ok.inj hs
  exact ⟨_, rfl, rfl, (hiff rfl).mpr (by decide)⟩

/-- **The cell of a full read is lost**: one position, read to its end. -/
theorem cell_lost : ¬ ∀ (limit : Int32) (as : List Call) (s : Sessions), 0 ≤ limit →
    (sessions limit).run (.ok .init) as = some (.ok s) → s.phase = .idle →
    Released limit as s := by
  intro h
  have hreleased := h 1 [.callStart true, .callShow, .callNext, .callStop] _ (by decide) rfl rfl
  exact absurd (hreleased.once 0 (by decide)) (by decide)

end OsLabs.SeqFile
