/-
# A slot: one cell and a mark between a sender and a receiver

A sender stores each value in the same cell and then raises a mark.  A receiver that finds the
mark clears it, reads the cell and handles what it has read; only then does it look at the mark
again.  Sender and receiver take their steps in any order.

Three facts about every reachable state, each an invariant of the steps:

* the last value is not lost: when nothing is left to do it is the last one handled
  (`Current`, `handled_getLast?`);
* what is handled is a selection of what was sent, in order, in which a value may be missing or
  come twice (`Selects`), and it is not longer (`length_handled_le`);
* nothing is missing and nothing comes twice if each value is sent when nothing is left to do
  (`Exact`).
-/
import Mathlib.Data.List.Basic
import Mathlib.Tactic.Common

namespace OsLabs

/-- What the sender has still to do: store the value and raise the mark, or raise it. -/
inductive Sender (α : Type)
  | store (v : α)
  | mark
deriving DecidableEq, Repr

/-- What the receiver has still to do: read the cell, or handle what it has read. -/
inductive Receiver (α : Type)
  | reading
  | handling (v : α)
deriving DecidableEq, Repr

/-- The cell, the mark, the two parties, and the values sent and handled so far. -/
structure Slot (α : Type) where
  cell : α
  pending : Bool
  sender : Option (Sender α)
  receiver : Option (Receiver α)
  sent : List α
  handled : List α

namespace Slot

/-- A step. -/
inductive Act (α : Type)
  | send (v : α)
  | store
  | mark
  | start
  | read
  | handle

variable {α : Type}

def step (s : Slot α) : Act α → Option (Slot α)
  | .send v =>
    match s.sender with
    | none => some { s with sender := some (.store v), sent := s.sent ++ [v] }
    | _ => none
  | .store =>
    match s.sender with
    | some (.store v) => some { s with cell := v, sender := some .mark }
    | _ => none
  | .mark =>
    match s.sender with
    | some .mark => some { s with pending := true, sender := none }
    | _ => none
  | .start =>
    match s.pending, s.receiver with
    | true, none => some { s with pending := false, receiver := some .reading }
    | _, _ => none
  | .read =>
    match s.receiver with
    | some .reading => some { s with receiver := some (.handling s.cell) }
    | _ => none
  | .handle =>
    match s.receiver with
    | some (.handling v) => some { s with handled := s.handled ++ [v], receiver := none }
    | _ => none

/-- The mark is down and the receiver has nothing to do. -/
def Idle (s : Slot α) : Prop := s.pending = false ∧ s.receiver = none

variable {s s' : Slot α} {a : Act α}

/-- **The steps**, each with what it finds. -/
theorem step_cases (h : s.step a = some s') :
    (∃ v, a = .send v ∧ s.sender = none ∧
      s' = { s with sender := some (.store v), sent := s.sent ++ [v] }) ∨
    (∃ v, s.sender = some (.store v) ∧ s' = { s with cell := v, sender := some .mark }) ∨
    (s.sender = some .mark ∧ s' = { s with pending := true, sender := none }) ∨
    (s.pending = true ∧ s.receiver = none ∧
      s' = { s with pending := false, receiver := some .reading }) ∨
    (s.receiver = some .reading ∧ s' = { s with receiver := some (.handling s.cell) }) ∨
    (∃ v, s.receiver = some (.handling v) ∧
      s' = { s with handled := s.handled ++ [v], receiver := none }) := by
  cases a with
  | send v =>
    simp only [step] at h
    split at h
    · next hs => exact .inl ⟨v, rfl, hs, (Option.some.inj h).symm⟩
    · exact absurd h (by simp)
  | store =>
    simp only [step] at h
    split at h
    · next v hs => exact .inr (.inl ⟨v, hs, (Option.some.inj h).symm⟩)
    · exact absurd h (by simp)
  | mark =>
    simp only [step] at h
    split at h
    · next hs => exact .inr (.inr (.inl ⟨hs, (Option.some.inj h).symm⟩))
    · exact absurd h (by simp)
  | start =>
    simp only [step] at h
    split at h
    · next hp hr => exact .inr (.inr (.inr (.inl ⟨hp, hr, (Option.some.inj h).symm⟩)))
    · exact absurd h (by simp)
  | read =>
    simp only [step] at h
    split at h
    · next hr => exact .inr (.inr (.inr (.inr (.inl ⟨hr, (Option.some.inj h).symm⟩))))
    · exact absurd h (by simp)
  | handle =>
    simp only [step] at h
    split at h
    · next v hr => exact .inr (.inr (.inr (.inr (.inr ⟨v, hr, (Option.some.inj h).symm⟩))))
    · exact absurd h (by simp)

/-! ## 1. The last value -/

/-- The value `v` is on its way: the mark is up, the receiver is about to read or has read it,
or it is the last one handled. -/
def Due (s : Slot α) (v : α) : Prop :=
  s.pending = true ∨ s.receiver = some .reading ∨ s.receiver = some (.handling v) ∨
    (s.receiver = none ∧ s.handled.getLast? = some v)

/-- Where the last value sent is. -/
structure Current (s : Slot α) : Prop where
  storing : ∀ v, s.sender = some (.store v) → s.sent.getLast? = some v
  stored : ∀ v, s.sent.getLast? = some v → (∀ w, s.sender ≠ some (.store w)) → s.cell = v
  due : ∀ v, s.sent.getLast? = some v → s.sender = none → s.Due v

theorem Current.step (h : s.Current) (hst : s.step a = some s') : s'.Current := by
  obtain ⟨v, -, hs, rfl⟩ | ⟨v, hs, rfl⟩ | ⟨hs, rfl⟩ | ⟨hp, hr, rfl⟩ | ⟨hr, rfl⟩ | ⟨v, hr, rfl⟩ :=
    step_cases hst
  · -- send
    refine ⟨fun w hw => ?_, fun w _ hw => absurd rfl (hw v), fun w _ hw => absurd hw (by simp)⟩
    obtain rfl : v = w := by simpa using hw
    simp
  · -- store
    have hlast := h.storing v hs
    refine ⟨fun w hw => absurd hw (by simp), fun w hw _ => ?_, fun w _ hw => absurd hw (by simp)⟩
    exact Option.some.inj (hlast.symm.trans hw)
  · -- mark
    refine ⟨fun w hw => absurd hw (by simp), fun w hw _ => ?_, fun w _ _ => .inl rfl⟩
    exact h.stored w hw (by simp [hs])
  · -- start
    exact ⟨h.storing, h.stored, fun w _ _ => .inr (.inl rfl)⟩
  · -- read
    refine ⟨h.storing, h.stored, fun w hw hnone => ?_⟩
    have hcell : s.cell = w := h.stored w hw (by simp [show s.sender = none from hnone])
    exact .inr (.inr (.inl (by rw [hcell])))
  · -- handle
    refine ⟨h.storing, h.stored, fun w hw hnone => ?_⟩
    rcases h.due w hw hnone with hp | hread | hhand | ⟨hno, -⟩
    · exact .inl hp
    · exact absurd (hr.symm.trans hread) (by simp)
    · obtain rfl : v = w := by simpa using hr.symm.trans hhand
      exact .inr (.inr (.inr ⟨rfl, by simp⟩))
    · exact absurd (hr.symm.trans hno) (by simp)

/-- **Nothing left to do: the last value sent is the last one handled.** -/
theorem Current.handled_getLast? (h : s.Current) (hidle : s.Idle) (hs : s.sender = none) {v : α}
    (hv : s.sent.getLast? = some v) : s.handled.getLast? = some v := by
  rcases h.due v hv hs with hp | hread | hhand | ⟨-, hlast⟩
  · exact absurd (hidle.1.symm.trans hp) (by simp)
  · exact absurd (hidle.2.symm.trans hread) (by simp)
  · exact absurd (hidle.2.symm.trans hhand) (by simp)
  · exact hlast

/-! ## 2. A selection of what was sent -/

/-- `l` consists of values of `sent`, taken at places that do not go back and not beyond `k`. -/
def Picks (sent l : List α) (k : Nat) : Prop :=
  ∃ idx : List Nat, idx.Pairwise (· ≤ ·) ∧ (∀ i ∈ idx, i ≤ k) ∧
    l.map some = idx.map fun i => sent[i]?

theorem Picks.nil (sent : List α) (k : Nat) : Picks sent [] k :=
  ⟨[], List.Pairwise.nil, by simp, rfl⟩

/-- Take what stands at `k`. -/
theorem Picks.concat {sent l : List α} {k : Nat} {v : α} (h : Picks sent l k)
    (hv : sent[k]? = some v) : Picks sent (l ++ [v]) k := by
  obtain ⟨idx, hmono, hle, hl⟩ := h
  refine ⟨idx ++ [k], ?_, ?_, ?_⟩
  · rw [List.pairwise_append]
    refine ⟨hmono, List.pairwise_singleton _ _, fun i hi j hj => ?_⟩
    rw [List.mem_singleton] at hj
    exact hj ▸ hle i hi
  · intro i hi
    rcases List.mem_append.mp hi with hi | hi
    · exact hle i hi
    · exact Nat.le_of_eq (List.mem_singleton.mp hi)
  · rw [List.map_append, List.map_append, hl, List.map_singleton, List.map_singleton, hv]

/-- More values are sent. -/
theorem Picks.send {sent l : List α} {k : Nat} (h : Picks sent l k) (hk : k < sent.length)
    (v : α) : Picks (sent ++ [v]) l k := by
  obtain ⟨idx, hmono, hle, hl⟩ := h
  refine ⟨idx, hmono, hle, ?_⟩
  rw [hl]
  refine List.map_congr_left fun i hi => ?_
  have hik := hle i hi
  rw [List.getElem?_append_left (by omega)]

theorem Picks.mono {sent l : List α} {k k' : Nat} (h : Picks sent l k) (hk : k ≤ k') :
    Picks sent l k' := by
  obtain ⟨idx, hmono, hle, hl⟩ := h
  exact ⟨idx, hmono, fun i hi => Nat.le_trans (hle i hi) hk, hl⟩

/-- The values read, the last of which may still be in hand. -/
def taken (s : Slot α) : List α :=
  s.handled ++ (match s.receiver with
    | some (.handling v) => [v]
    | _ => [])

/-- What was read is a selection of what was sent, up to the value in the cell; or nothing has
been stored yet. -/
def Selects (s : Slot α) : Prop :=
  (s.handled = [] ∧ s.Idle ∧ s.sender ≠ some .mark) ∨
    ∃ k, s.sent[k]? = some s.cell ∧ Picks s.sent s.taken k

theorem Selects.step (h : s.Selects) (hcur : s.Current) (hst : s.step a = some s') :
    s'.Selects := by
  obtain ⟨v, -, hs, rfl⟩ | ⟨v, hs, rfl⟩ | ⟨hs, rfl⟩ | ⟨hp, hr, rfl⟩ | ⟨hr, rfl⟩ | ⟨v, hr, rfl⟩ :=
    step_cases hst
  · -- send
    rcases h with ⟨hnil, hidle, -⟩ | ⟨k, hk, hpicks⟩
    · exact .inl ⟨hnil, hidle, by simp⟩
    · have hlt : k < s.sent.length := (List.getElem?_eq_some_iff.mp hk).1
      refine .inr ⟨k, ?_, hpicks.send hlt v⟩
      rw [List.getElem?_append_left hlt]
      exact hk
  · -- store: the cell holds the last value
    have hlast := hcur.storing v hs
    rw [List.getLast?_eq_getElem?] at hlast
    refine .inr ⟨s.sent.length - 1, hlast, ?_⟩
    rcases h with ⟨hnil, hidle, -⟩ | ⟨k, hk, hpicks⟩
    · have htaken : s.taken = [] := by simp [taken, hnil, hidle.2]
      have hsame : taken { s with cell := v, sender := some .mark } = s.taken := rfl
      rw [hsame, htaken]
      exact Picks.nil _ _
    · have hlt : k < s.sent.length := (List.getElem?_eq_some_iff.mp hk).1
      exact hpicks.mono (by omega)
  · -- mark
    rcases h with ⟨-, -, hne⟩ | hk
    · exact absurd hs hne
    · exact .inr hk
  · -- start
    rcases h with ⟨-, hidle, -⟩ | ⟨k, hk, hpicks⟩
    · exact absurd (hidle.1.symm.trans hp) (by simp)
    · refine .inr ⟨k, hk, ?_⟩
      simpa [taken, hr] using hpicks
  · -- read
    rcases h with ⟨-, hidle, -⟩ | ⟨k, hk, hpicks⟩
    · exact absurd (hidle.2.symm.trans hr) (by simp)
    · refine .inr ⟨k, hk, ?_⟩
      have hhandled : Picks s.sent s.handled k := by simpa [taken, hr] using hpicks
      exact hhandled.concat hk
  · -- handle
    rcases h with ⟨-, hidle, -⟩ | ⟨k, hk, hpicks⟩
    · exact absurd (hidle.2.symm.trans hr) (by simp)
    · refine .inr ⟨k, hk, ?_⟩
      simpa [taken, hr] using hpicks

/-- **Nothing left to do: what is handled is a selection of what was sent.** -/
theorem Selects.handled (h : s.Selects) (hidle : s.Idle) : ∃ k, Picks s.sent s.handled k := by
  rcases h with ⟨hnil, -, -⟩ | ⟨k, -, hpicks⟩
  · exact ⟨0, hnil ▸ Picks.nil _ _⟩
  · refine ⟨k, ?_⟩
    simpa [taken, hidle.2] using hpicks

/-- The values handled and those that may still be are not more than those sent. -/
def Counts (s : Slot α) : Prop :=
  s.handled.length + s.receiver.isSome.toNat + s.pending.toNat + s.sender.isSome.toNat ≤
    s.sent.length

theorem Counts.step (h : s.Counts) (hst : s.step a = some s') : s'.Counts := by
  unfold Counts at h ⊢
  obtain ⟨v, -, hs, rfl⟩ | ⟨v, hs, rfl⟩ | ⟨hs, rfl⟩ | ⟨hp, hr, rfl⟩ | ⟨hr, rfl⟩ | ⟨v, hr, rfl⟩ :=
    step_cases hst
  · simp only [hs, Option.isSome_none, Option.isSome_some, Bool.toNat_false, Bool.toNat_true,
      List.length_append, List.length_singleton] at h ⊢
    omega
  · simpa [hs] using h
  · have hle : s.pending.toNat ≤ 1 := Bool.toNat_le _
    simp only [hs, Option.isSome_none, Option.isSome_some, Bool.toNat_false,
      Bool.toNat_true] at h ⊢
    omega
  · simp only [hp, hr, Option.isSome_none, Option.isSome_some, Bool.toNat_false,
      Bool.toNat_true] at h ⊢
    omega
  · simpa [hr] using h
  · simp only [hr, Option.isSome_none, Option.isSome_some, Bool.toNat_false, Bool.toNat_true,
      List.length_append, List.length_singleton] at h ⊢
    omega

theorem Counts.length_handled_le (h : s.Counts) : s.handled.length ≤ s.sent.length := by
  unfold Counts at h
  omega

/-! ## 3. One value at a time -/

/-- The value that was sent and is not handled yet. -/
def outstanding (s : Slot α) : List α :=
  match s.sender, s.pending, s.receiver with
  | some (.store v), _, _ => [v]
  | some .mark, _, _ => [s.cell]
  | none, true, _ => [s.cell]
  | none, false, some .reading => [s.cell]
  | none, false, some (.handling v) => [v]
  | none, false, none => []

/-- Every value is handled once, in order, and the two parties take turns. -/
structure Exact (s : Slot α) : Prop where
  all : s.handled ++ s.outstanding = s.sent
  turns : s.sender ≠ none → s.Idle
  once : s.pending = true → s.receiver = none

/-- While the receiver is at work, there is nothing else under way. -/
theorem Exact.alone (h : s.Exact) (hr : s.receiver ≠ none) :
    s.sender = none ∧ s.pending = false := by
  constructor
  · by_contra hne
    exact hr (h.turns hne).2
  · by_contra hne
    exact hr (h.once (by simpa using hne))

/-- **A step keeps that**, unless it sends while something is left to do. -/
theorem Exact.step (h : s.Exact) (hsend : ∀ v, a = .send v → s.Idle)
    (hst : s.step a = some s') : s'.Exact := by
  have hall := h.all
  have hturns := h.turns
  have honce := h.once
  obtain ⟨v, ha, hs, rfl⟩ | ⟨v, hs, rfl⟩ | ⟨hs, rfl⟩ | ⟨hp, hr, rfl⟩ | ⟨hr, rfl⟩ | ⟨v, hr, rfl⟩ :=
    step_cases hst
  · -- send
    have hidle := hsend v ha
    have hdone : s.handled = s.sent := by simpa [outstanding, hs, hidle.1, hidle.2] using hall
    refine ⟨?_, fun _ => hidle, honce⟩
    simp [outstanding, hdone]
  · -- store
    have hidle := hturns (by simp [hs])
    exact ⟨by simpa [outstanding, hs] using hall, fun _ => hidle, honce⟩
  · -- mark
    have hidle := hturns (by simp [hs])
    exact ⟨by simpa [outstanding, hs] using hall, fun hne => absurd rfl hne, fun _ => hidle.2⟩
  · -- start
    have hs : s.sender = none := by
      by_contra hne
      exact absurd ((hturns hne).1.symm.trans hp) (by simp)
    exact ⟨by simpa [outstanding, hs, hp] using hall, fun hne => absurd hs hne,
      fun hne => absurd hne (by simp)⟩
  · -- read
    obtain ⟨hs, hp⟩ := h.alone (by simp [hr])
    exact ⟨by simpa [outstanding, hs, hp, hr] using hall, fun hne => absurd hs hne,
      fun hne => absurd (hp.symm.trans hne) (by simp)⟩
  · -- handle
    obtain ⟨hs, hp⟩ := h.alone (by simp [hr])
    exact ⟨by simpa [outstanding, hs, hp, hr] using hall, fun hne => absurd hs hne,
      fun hne => absurd (hp.symm.trans hne) (by simp)⟩

theorem Exact.handled_eq (h : s.Exact) (hidle : s.Idle) (hs : s.sender = none) :
    s.handled = s.sent := by
  have hall := h.all
  simpa [outstanding, hs, hidle.1, hidle.2] using hall

/-! ## 4. A fresh slot -/

/-- Nothing sent and nothing to do. -/
def Fresh (s : Slot α) : Prop := s.sent = [] ∧ s.handled = [] ∧ s.Idle ∧ s.sender = none

/-- What every step keeps. -/
structure Inv (s : Slot α) : Prop where
  current : s.Current
  selects : s.Selects
  counts : s.Counts

theorem Fresh.inv (h : s.Fresh) : s.Inv := by
  obtain ⟨hsent, hhandled, hidle, hs⟩ := h
  refine ⟨⟨fun v hv => ?_, fun v hv _ => ?_, fun v hv _ => ?_⟩, .inl ⟨hhandled, hidle, ?_⟩, ?_⟩
  · exact absurd (hs.symm.trans hv) (by simp)
  · simp [hsent] at hv
  · simp [hsent] at hv
  · simp [hs]
  · simp [Counts, hsent, hhandled, hidle.1, hidle.2, hs]

theorem Fresh.exact (h : s.Fresh) : s.Exact := by
  obtain ⟨hsent, hhandled, hidle, hs⟩ := h
  refine ⟨?_, fun hne => absurd hs hne, fun _ => hidle.2⟩
  simp [outstanding, hsent, hhandled, hidle.1, hidle.2, hs]

theorem Inv.step (h : s.Inv) (hst : s.step a = some s') : s'.Inv :=
  ⟨h.current.step hst, h.selects.step h.current hst, h.counts.step hst⟩

end Slot

end OsLabs
