/-
# bakery1: the ticket order

The invariant behind every statement about the bakery1 server.  The slots below `num` are the
ones handed out; a slot is TICKETED once `get_number_1_svc` stored its number, and CLEARED once
its thread has executed `number[i] = 0`.  The invariant says

* a ticketed slot holds a nonzero number exactly until it is cleared;
* live numbers strictly increase with the slot, although each was computed as the maximum of
  reads that race with threads clearing their slots (`ScanOk`);
* a thread that has left the iteration `j` of its loop with `j` below its own slot found that
  slot cleared (`ThreadOk.passed`).

The delicate read is the second one in `if (number[i] > max) max = number[i]`.  The slot can be
cleared between the two, and then `max` FALLS to 0.  That is harmless because slots are
cleared in slot order: when slot `i` is cleared, every slot below it is, so nothing scanned so
far is live any more.
-/
import Mathlib.Data.Fintype.Card
import OsLabs.Bakery1.Model

namespace OsLabs.Bakery1

open Bakery

variable {ι : Type}

/-! ## 1. Slots and their phases -/

/-- The thread of slot `i` has executed `number[i] = 0`. -/
def Cleared (s : State ι) (i : Nat) : Prop := ∃ t, s.thr i = some t ∧ t.pc = .done

/-- `number[ind]` has not been stored yet. -/
def GetPc.early : GetPc → Bool
  | .choose | .test _ | .assign _ | .store => true
  | .argNum | .unchoose | .reply => false

/-- The slot whose number is being computed. -/
def Dispatcher.issuing : Dispatcher ι → Option Nat
  | .getNumber _ ind _ pc => if pc.early then some ind else none
  | _ => none

/-- The number of slot `i` has been stored. -/
def Ticketed (s : State ι) (i : Nat) : Prop := i < s.num ∧ s.disp.issuing ≠ some i

/-- How far the thread's loop over `j` has come: every `j` below it has been left. -/
def Thread.passed (t : Thread) : Nat :=
  match t.pc with
  | .entry => 0
  | .choosing | .nonzero | .less | .lessThan _ | .equal | .equalTo _ => t.j
  | _ => SLOTS

/-- What the operands already read say about the thread of slot `k` at iteration `j`. -/
def PcOk (number : Nat → Nat) (k j : Nat) : Pc → Prop
  | .lessThan a => j < k → a < number k
  | .equal | .equalTo _ => k ≤ j
  | _ => True

/-- What holds of the thread of slot `k`. -/
structure ThreadOk (s : State ι) (k : Nat) (t : Thread) : Prop where
  pid : (s.res k).pid = k
  ticketed : Ticketed s k
  i_eq : t.pc ≠ .entry → t.i = k
  j_lt : t.j < SLOTS
  passed : ∀ i < k, i < t.passed → Cleared s i
  pcOk : PcOk s.number k t.j t.pc

/-- What the scan has established: nothing live among the slots already read exceeds `max`. -/
def ScanOk (number : Nat → Nat) (ind max : Nat) : GetPc → Prop
  | .test i => i < SLOTS ∧ ∀ m < i, number m ≤ max
  | .assign i => i < SLOTS ∧ i < ind ∧ ∀ m < i, number m ≤ max
  | .store => ∀ m < SLOTS, number m ≤ max
  | _ => True

/-- What holds of the call the dispatcher is in. -/
def DispOk (s : State ι) : Dispatcher ι → Prop
  | .idle => True
  | .getNumber x ind max pc =>
    ind + 1 = s.num ∧ s.client x = .fresh ∧ s.thr ind = none ∧ ScanOk s.number ind max pc
  | .wait x pid num pc => s.client x = .ticket pid num ∧ (pc = .create → (s.res pid).pid = pid)
  | .service x pid num _ => s.client x = .waiting pid num

/-- What holds of a client that received its last reply. -/
def ClientOk (s : State ι) : Client → Prop
  | .fresh => True
  | .ticket pid _ => Ticketed s pid ∧ s.thr pid = none
  | .waiting pid _ => (s.thr pid).isSome
  | .served pid _ _ => Cleared s pid

/-- The client whose GET_NUMBER is in progress, and its slot. -/
def Dispatcher.issues : Dispatcher ι → Option (ι × Nat)
  | .getNumber x ind _ _ => some (x, ind)
  | _ => none

/-- The slot a client was told. -/
def Client.slot : Client → Option Nat
  | .fresh => none
  | .ticket pid _ | .waiting pid _ | .served pid _ _ => some pid

/-- Slot `k` was handed out to client `x`. -/
def Holds (s : State ι) (x : ι) (k : Nat) : Prop :=
  (s.client x).slot = some k ∨ (s.client x = .fresh ∧ s.disp.issues = some (x, k))

/-- **The invariant.** -/
structure Inv (s : State ι) : Prop where
  fault : s.fault = none
  num_le : s.num ≤ SLOTS
  unissued : ∀ i, s.num ≤ i → s.number i = 0 ∧ s.thr i = none
  issuing : ∀ i, s.disp.issuing = some i → s.number i = 0
  live : ∀ i, Ticketed s i → (s.number i = 0 ↔ Cleared s i)
  increasing : ∀ i j, i < j → s.number i ≠ 0 → s.number j ≠ 0 → s.number i < s.number j
  thread : ∀ k t, s.thr k = some t → ThreadOk s k t
  disp : DispOk s s.disp
  client : ∀ x, ClientOk s (s.client x)
  slot_lt : ∀ x k, Holds s x k → k < s.num
  distinct : ∀ x y k, Holds s x k → Holds s y k → x = y
  covered : ∀ k < s.num, ∃ x, Holds s x k

/-! ## 2. First consequences -/

variable {s s' : State ι} {i j k : Nat} {t t' : Thread}

@[simp] theorem access_of_lt (s s' : State ι) (arr : Arr) (hi : i < SLOTS) :
    s.access arr i s' = s' := if_pos hi

theorem Inv.ticketed_of_ne (h : Inv s) (hi : s.number i ≠ 0) : Ticketed s i := by
  refine ⟨?_, fun hiss => hi (h.issuing i hiss)⟩
  by_contra hlt
  exact hi (h.unissued i (Nat.le_of_not_lt hlt)).1

theorem Inv.dispOk (h : Inv s) {d : Dispatcher ι} (hd : s.disp = d) : DispOk s d := hd ▸ h.disp

theorem Inv.clientOk (h : Inv s) {x : ι} {cl : Client} (hx : s.client x = cl) : ClientOk s cl :=
  hx ▸ h.client x

/-- The slot being issued is the last one. -/
theorem Inv.issuing_eq (h : Inv s) (hi : s.disp.issuing = some i) : i + 1 = s.num := by
  have hd := h.disp
  cases hdisp : s.disp with
  | getNumber x ind max pc =>
    rw [hdisp] at hi hd
    simp only [Dispatcher.issuing, Option.ite_none_right_eq_some, Option.some.injEq] at hi
    exact hi.2 ▸ hd.1
  | _ => simp [hdisp, Dispatcher.issuing] at hi

/-- Slots below a ticketed slot are ticketed. -/
theorem Inv.ticketed_below (h : Inv s) (hk : Ticketed s k) (hik : i < k) : Ticketed s i := by
  refine ⟨Nat.lt_trans hik hk.1, fun hiss => ?_⟩
  have h1 := h.issuing_eq hiss
  have h2 := hk.1
  omega

theorem Inv.slot_lt_slots (h : Inv s) (hk : Ticketed s k) : k < SLOTS :=
  Nat.lt_of_lt_of_le hk.1 h.num_le

theorem not_cleared (hk : s.thr k = some t) (ht : t.pc ≠ .done) : ¬ Cleared s k := by
  rintro ⟨u, hu, hd⟩
  rw [hk, Option.some.injEq] at hu
  exact ht (hu ▸ hd)

/-- The number of a thread that has not cleared it is live. -/
theorem Inv.number_ne (h : Inv s) (hk : s.thr k = some t) (ht : t.pc ≠ .done) :
    s.number k ≠ 0 := fun h0 =>
  not_cleared hk ht ((h.live k (h.thread k t hk).ticketed).mp h0)

/-- **Slots are cleared in slot order.** -/
theorem Inv.cleared_below (h : Inv s) (hk : Cleared s k) (hik : i < k) : Cleared s i := by
  obtain ⟨t, ht, hd⟩ := hk
  have hok := h.thread k t ht
  have hlt := h.slot_lt_slots hok.ticketed
  exact hok.passed i hik (by simp only [Thread.passed, hd]; omega)

/-- A live number below another slot's live number is smaller. -/
theorem Inv.number_lt (h : Inv s) (hk : s.thr k = some t) (ht : t.pc ≠ .done) (hjk : j < k) :
    s.number j < s.number k := by
  have hne := h.number_ne hk ht
  rcases Nat.eq_zero_or_pos (s.number j) with h0 | hpos
  · omega
  · exact h.increasing j k hjk (by omega) hne

/-! ## 3. What a change of state leaves alone -/

theorem ThreadOk.mono (h : ThreadOk s k t) (hpid : (s'.res k).pid = (s.res k).pid)
    (htick : Ticketed s k → Ticketed s' k) (hcl : ∀ i, Cleared s i → Cleared s' i)
    (hnum : s'.number k = s.number k) : ThreadOk s' k t := by
  refine ⟨hpid.trans h.pid, htick h.ticketed, h.i_eq, h.j_lt,
    fun i hi hp => hcl i (h.passed i hi hp), ?_⟩
  have hpc := h.pcOk
  cases hpcs : t.pc with
  | lessThan a => rw [hpcs] at hpc; exact fun hjk => hnum ▸ hpc hjk
  | _ => rw [hpcs] at hpc; exact hpc

theorem ClientOk.mono {cl : Client} (h : ClientOk s cl)
    (htick : ∀ i, Ticketed s i → Ticketed s' i) (hthr : ∀ i, s'.thr i = none ↔ s.thr i = none)
    (hcl : ∀ i, Cleared s i → Cleared s' i) : ClientOk s' cl := by
  cases cl with
  | fresh => trivial
  | ticket pid num => exact ⟨htick pid h.1, (hthr pid).mpr h.2⟩
  | waiting pid num =>
    simp only [ClientOk, Option.isSome_iff_ne_none, ne_eq, hthr] at h ⊢
    exact h
  | served pid num res => exact hcl pid h

theorem ScanOk.mono {number number' : Nat → Nat} {ind max : Nat} {pc : GetPc}
    (h : ScanOk number ind max pc) (hle : ∀ m, number' m ≤ number m) :
    ScanOk number' ind max pc := by
  cases pc with
  | test i => exact ⟨h.1, fun m hm => Nat.le_trans (hle m) (h.2 m hm)⟩
  | assign i => exact ⟨h.1, h.2.1, fun m hm => Nat.le_trans (hle m) (h.2.2 m hm)⟩
  | store => exact fun m hm => Nat.le_trans (hle m) (h m hm)
  | _ => trivial

theorem DispOk.mono {d : Dispatcher ι} (h : DispOk s d) (hnum : s'.num = s.num)
    (hclient : s'.client = s.client) (hthr : ∀ i, s'.thr i = none ↔ s.thr i = none)
    (hle : ∀ m, s'.number m ≤ s.number m) (hpid : ∀ m, (s'.res m).pid = (s.res m).pid) :
    DispOk s' d := by
  cases d with
  | idle => trivial
  | getNumber x ind max pc =>
    obtain ⟨h1, h2, h3, h4⟩ := h
    exact ⟨h1.trans hnum.symm, hclient ▸ h2, (hthr ind).mpr h3, h4.mono hle⟩
  | wait x pid num pc => exact ⟨hclient ▸ h.1, fun hc => (hpid pid).trans (h.2 hc)⟩
  | service x pid num pc => exact (congrFun hclient x).trans h

/-- The invariant reads neither `choosing`, nor `c`, nor the printed lines, nor the letters
in `res`. -/
theorem Inv.of_eq (h : Inv s) (hnum : s'.num = s.num) (hnumber : s'.number = s.number)
    (hthr : s'.thr = s.thr) (hdisp : s'.disp = s.disp) (hclient : s'.client = s.client)
    (hfault : s'.fault = s.fault) (hpid : ∀ k, (s'.res k).pid = (s.res k).pid) : Inv s' := by
  have hcl : ∀ i, Cleared s' i ↔ Cleared s i := fun i => by simp only [Cleared, hthr]
  have hti : ∀ i, Ticketed s' i ↔ Ticketed s i := fun i => by simp only [Ticketed, hnum, hdisp]
  have hh : ∀ x k, Holds s' x k ↔ Holds s x k := fun x k => by simp only [Holds, hclient, hdisp]
  have hnone : ∀ i, s'.thr i = none ↔ s.thr i = none := fun i => by rw [hthr]
  refine ⟨?_, ?_, ?_, ?_, ?_, ?_, ?_, ?_, ?_, ?_, ?_, ?_⟩
  · exact hfault.trans h.fault
  · exact hnum ▸ h.num_le
  · simpa only [hnum, hnumber, hthr] using h.unissued
  · simpa only [hdisp, hnumber] using h.issuing
  · simpa only [hti, hcl, hnumber] using h.live
  · simpa only [hnumber] using h.increasing
  · intro k t ht
    exact (h.thread k t (hthr ▸ ht)).mono (hpid k) (hti k).mpr (fun i => (hcl i).mpr)
      (congrFun hnumber k)
  · rw [hdisp]
    exact h.disp.mono hnum hclient hnone (fun m => Nat.le_of_eq (congrFun hnumber m)) hpid
  · intro x
    rw [hclient]
    exact (h.client x).mono (fun i => (hti i).mpr) hnone (fun i => (hcl i).mpr)
  · simpa only [hh, hnum] using h.slot_lt
  · simpa only [hh] using h.distinct
  · simpa only [hh, hnum] using h.covered

/-! ## 4. Steps of a thread -/

theorem cleared_setThread (hk : s.thr k = some t) (ht : t.pc ≠ .done) (ht' : t'.pc ≠ .done) :
    Cleared (s.setThread k t') i ↔ Cleared s i := by
  unfold Cleared State.setThread
  by_cases hik : i = k
  · subst hik
    simp [hk, ht, ht']
  · simp [hik]

theorem setThread_eq_none (hk : s.thr k = some t) :
    (s.setThread k t').thr i = none ↔ s.thr i = none := by
  by_cases hik : i = k
  · subst hik
    simp [State.setThread, hk]
  · simp [State.setThread, hik]

/-- A thread moves on inside its function, short of its end. -/
theorem Inv.setThread (h : Inv s) (hk : s.thr k = some t) (ht : t.pc ≠ .done)
    (ht' : t'.pc ≠ .done) (hok : ThreadOk s k t') : Inv (s.setThread k t') := by
  have hcl : ∀ i, Cleared (s.setThread k t') i ↔ Cleared s i := fun i =>
    cleared_setThread hk ht ht'
  have hnone : ∀ i, (s.setThread k t').thr i = none ↔ s.thr i = none := fun i =>
    setThread_eq_none hk
  refine ⟨h.fault, h.num_le, ?_, h.issuing, ?_, h.increasing, ?_, ?_, ?_, h.slot_lt,
    h.distinct, h.covered⟩
  · exact fun i hi => ⟨(h.unissued i hi).1, (hnone i).mpr (h.unissued i hi).2⟩
  · exact fun i hi => (h.live i hi).trans (hcl i).symm
  · intro m u hu
    have hok' : ThreadOk s m u := by
      by_cases hmk : m = k
      · subst hmk
        have hu' : t' = u := by simpa [State.setThread] using hu
        exact hu' ▸ hok
      · exact h.thread m u (by simpa [State.setThread, hmk] using hu)
    exact hok'.mono rfl id (fun i => (hcl i).mpr) rfl
  · exact h.disp.mono rfl rfl hnone (fun _ => Nat.le_refl _) fun _ => rfl
  · exact fun x => (h.client x).mono (fun _ => id) hnone fun i => (hcl i).mpr

/-- Leaving iteration `j` of the loop: what has to be known is that `j`, when it is a slot
below the thread's own, is cleared. -/
theorem ThreadOk.next (hok : ThreadOk s k t) (hpc : t.pc ≠ .entry) (hj : t.passed = t.j)
    (hk : k < SLOTS) (hc : t.j < k → Cleared s t.j) :
    ThreadOk s k t.next ∧ t.next.pc ≠ .done := by
  have hpass : ∀ i < k, i < t.j + 1 → Cleared s i := by
    intro i hik hi
    rcases Nat.lt_or_ge i t.j with hlt | hge
    · exact hok.passed i hik (hj ▸ hlt)
    · have : i = t.j := by omega
      subst this
      exact hc hik
  unfold Thread.next
  split
  · rename_i hlt
    exact ⟨⟨hok.pid, hok.ticketed, fun _ => hok.i_eq hpc, hlt, hpass, trivial⟩, by simp⟩
  · rename_i hge
    have hjl := hok.j_lt
    exact ⟨⟨hok.pid, hok.ticketed, fun _ => hok.i_eq hpc, hjl,
      fun i hik _ => hpass i hik (by omega), trivial⟩, by simp⟩

/-- The thread executes `number[i] = 0`: its slot is the lowest live one, so the order of the
others is untouched. -/
theorem Inv.clear (h : Inv s) (hk : s.thr k = some t) (hpc : t.pc = .clear) :
    Inv ({ s with number := Function.update s.number k 0 }.setThread k
      { t with i := k, pc := .done }) := by
  have hok := h.thread k t hk
  set s' := ({ s with number := Function.update s.number k 0 }.setThread k
    { t with i := k, pc := .done }) with hs'
  have hnum : ∀ i, s'.number i = if i = k then 0 else s.number i := fun i => by
    simp [hs', State.setThread, Function.update_apply]
  have hle : ∀ i, s'.number i ≤ s.number i := fun i => by rw [hnum]; split <;> omega
  have hthr : ∀ i, i ≠ k → s'.thr i = s.thr i := fun i hi => by simp [hs', State.setThread, hi]
  have hthrk : s'.thr k = some { t with i := k, pc := .done } := by simp [hs', State.setThread]
  have hcl : ∀ i, Cleared s' i ↔ i = k ∨ Cleared s i := by
    intro i
    by_cases hik : i = k
    · subst hik
      simp [Cleared, hthrk]
    · simp [Cleared, hthr i hik, hik]
  have hmono : ∀ i, Cleared s i → Cleared s' i := fun i hi => (hcl i).mpr (Or.inr hi)
  have hnone : ∀ i, s'.thr i = none ↔ s.thr i = none := fun i =>
    setThread_eq_none (s := { s with number := Function.update s.number k 0 }) hk
  refine ⟨h.fault, h.num_le, ?_, ?_, ?_, ?_, ?_, ?_, ?_, h.slot_lt, h.distinct, h.covered⟩
  · intro i hi
    have hu := h.unissued i hi
    exact ⟨Nat.eq_zero_of_le_zero (hu.1 ▸ hle i), (hnone i).mpr hu.2⟩
  · exact fun i hi => Nat.eq_zero_of_le_zero (h.issuing i hi ▸ hle i)
  · intro i hi
    rw [hnum, hcl]
    by_cases hik : i = k
    · simp [hik]
    · simpa [hik] using h.live i hi
  · intro i j hij hi hj
    have hik : i ≠ k := fun e => hi (by rw [hnum, if_pos e])
    have hjk : j ≠ k := fun e => hj (by rw [hnum, if_pos e])
    rw [hnum, if_neg hik] at hi ⊢
    rw [hnum, if_neg hjk] at hj ⊢
    exact h.increasing i j hij hi hj
  · intro m u hu
    by_cases hmk : m = k
    · subst hmk
      rw [hthrk, Option.some.injEq] at hu
      subst hu
      refine ⟨hok.pid, hok.ticketed, fun _ => rfl, hok.j_lt, fun i hi _ => hmono i ?_, trivial⟩
      exact hok.passed i hi (by
        have := h.slot_lt_slots hok.ticketed
        simp only [Thread.passed, hpc]
        omega)
    · exact (h.thread m u (hthr m hmk ▸ hu)).mono rfl id hmono (by rw [hnum, if_neg hmk])
  · exact h.disp.mono rfl rfl hnone hle fun _ => rfl
  · exact fun x => (h.client x).mono (fun _ => id) hnone hmono

/-- **A thread's step keeps the invariant.** -/
theorem Inv.threadStep (h : Inv s) (hk : s.thr k = some t)
    (hst : threadStep s k t = some s') : Inv s' := by
  have hok := h.thread k t hk
  have hkl : k < SLOTS := h.slot_lt_slots hok.ticketed
  obtain ⟨hpid, htick, hi, hj, hpass, hpc⟩ := id hok
  cases hpcs : t.pc with
  | entry =>
    simp only [Bakery1.threadStep, hpcs, access_of_lt _ _ _ hkl, Option.some.injEq] at hst
    subst hst
    refine h.setThread hk (by simp [hpcs]) (by simp) ⟨hpid, htick, fun _ => hpid, ?_, ?_, trivial⟩
    · exact Nat.zero_lt_of_lt hkl
    · exact fun i _ hi0 => absurd hi0 (Nat.not_lt_zero i)
  | choosing =>
    simp only [Bakery1.threadStep, hpcs, access_of_lt _ _ _ hj, Option.some.injEq] at hst
    subst hst
    have hti := hi (by simp [hpcs])
    refine h.setThread hk (by simp [hpcs]) (by simp only; split <;> simp) ?_
    simp only [Thread.passed, hpcs] at hpass
    split <;> exact ⟨hpid, htick, fun _ => hti, hj, hpass, trivial⟩
  | nonzero =>
    simp only [Bakery1.threadStep, hpcs, access_of_lt _ _ _ hj, Option.some.injEq] at hst
    subst hst
    have hti := hi (by simp [hpcs])
    split
    · refine h.setThread hk (by simp [hpcs]) (by simp) ⟨hpid, htick, fun _ => hti, hj, ?_, trivial⟩
      simpa only [Thread.passed, hpcs] using hpass
    · -- the only way past a lower slot: its number is 0, so it is cleared
      rename_i h0
      have hnext := hok.next (by simp [hpcs]) (by simp [Thread.passed, hpcs]) hkl
        (fun hjk => (h.live _ (h.ticketed_below htick hjk)).mp (by simpa using h0))
      exact h.setThread hk (by simp [hpcs]) hnext.2 hnext.1
  | less =>
    simp only [Bakery1.threadStep, hpcs, access_of_lt _ _ _ hj, Option.some.injEq] at hst
    subst hst
    have hti := hi (by simp [hpcs])
    refine h.setThread hk (by simp [hpcs]) (by simp) ⟨hpid, htick, fun _ => hti, hj, ?_, ?_⟩
    · simpa only [Thread.passed, hpcs] using hpass
    · exact fun hjk => h.number_lt hk (by simp [hpcs]) hjk
  | lessThan a =>
    have hti := hi (by simp [hpcs])
    rw [hpcs] at hpc
    simp only [Bakery1.threadStep, hpcs, hti, access_of_lt _ _ _ hkl, Option.some.injEq] at hst
    subst hst
    simp only [Thread.passed, hpcs] at hpass
    split
    · exact h.setThread hk (by simp [hpcs]) (by simp)
        ⟨hpid, htick, fun _ => rfl, hj, hpass, trivial⟩
    · rename_i hge
      refine h.setThread hk (by simp [hpcs]) (by simp) ⟨hpid, htick, fun _ => rfl, hj, hpass, ?_⟩
      exact Nat.le_of_not_lt fun hjk => hge (hpc hjk)
  | equal =>
    have hti := hi (by simp [hpcs])
    rw [hpcs] at hpc
    simp only [Bakery1.threadStep, hpcs, access_of_lt _ _ _ hj, Option.some.injEq] at hst
    subst hst
    refine h.setThread hk (by simp [hpcs]) (by simp) ⟨hpid, htick, fun _ => hti, hj, ?_, hpc⟩
    simpa only [Thread.passed, hpcs] using hpass
  | equalTo a =>
    have hti := hi (by simp [hpcs])
    rw [hpcs] at hpc
    simp only [Bakery1.threadStep, hpcs, hti, access_of_lt _ _ _ hkl, Option.some.injEq] at hst
    subst hst
    split
    · rename_i hlt
      exact absurd hlt.2 (Nat.not_lt.mpr hpc)
    · have hnext := hok.next (by simp [hpcs]) (by simp [Thread.passed, hpcs]) hkl
        (fun hjk => absurd hjk (Nat.not_lt.mpr hpc))
      exact h.setThread hk (by simp [hpcs]) hnext.2 hnext.1
  | take =>
    simp only [Bakery1.threadStep, hpcs, Option.some.injEq] at hst
    subst hst
    simp only [Thread.passed, hpcs] at hpass
    exact h.setThread hk (by simp [hpcs]) (by simp)
      ⟨hpid, htick, fun _ => hi (by simp [hpcs]), hj, hpass, trivial⟩
  | bump v =>
    simp only [Bakery1.threadStep, hpcs, Option.some.injEq] at hst
    subst hst
    simp only [Thread.passed, hpcs] at hpass
    have h' : Inv { s with c := v + 1 } := h.of_eq rfl rfl rfl rfl rfl rfl fun _ => rfl
    exact h'.setThread hk (by simp [hpcs]) (by simp)
      ⟨hpid, htick, fun _ => hi (by simp [hpcs]), hj, hpass, trivial⟩
  | hand v =>
    simp only [Bakery1.threadStep, hpcs, access_of_lt _ _ _ hkl, Option.some.injEq] at hst
    subst hst
    simp only [Thread.passed, hpcs] at hpass
    have hres : ∀ m, (Function.update s.res k { s.res k with res := v } m).pid = (s.res m).pid := by
      intro m
      by_cases hmk : m = k
      · subst hmk; simp
      · simp [hmk]
    have h' : Inv { s with res := Function.update s.res k { s.res k with res := v } } :=
      h.of_eq rfl rfl rfl rfl rfl rfl hres
    exact h'.setThread hk (by simp [hpcs]) (by simp)
      ⟨(hres k).trans hpid, htick, fun _ => hi (by simp [hpcs]), hj, hpass, trivial⟩
  | test =>
    simp only [Bakery1.threadStep, hpcs, Option.some.injEq] at hst
    subst hst
    simp only [Thread.passed, hpcs] at hpass
    refine h.setThread hk (by simp [hpcs]) (by simp only; split <;> simp) ?_
    split <;> exact ⟨hpid, htick, fun _ => hi (by simp [hpcs]), hj, hpass, trivial⟩
  | wrap =>
    simp only [Bakery1.threadStep, hpcs, Option.some.injEq] at hst
    subst hst
    simp only [Thread.passed, hpcs] at hpass
    have h' : Inv { s with c := letterA } := h.of_eq rfl rfl rfl rfl rfl rfl fun _ => rfl
    exact h'.setThread hk (by simp [hpcs]) (by simp)
      ⟨hpid, htick, fun _ => hi (by simp [hpcs]), hj, hpass, trivial⟩
  | print =>
    simp only [Bakery1.threadStep, hpcs, access_of_lt _ _ _ hkl, Option.some.injEq] at hst
    subst hst
    simp only [Thread.passed, hpcs] at hpass
    have h' : Inv { s with printed := s.printed ++
        [((s.res k).pid, (s.res k).num, (s.res k).res)] } :=
      h.of_eq rfl rfl rfl rfl rfl rfl fun _ => rfl
    exact h'.setThread hk (by simp [hpcs]) (by simp)
      ⟨hpid, htick, fun _ => hi (by simp [hpcs]), hj, hpass, trivial⟩
  | clear =>
    have hti := hi (by simp [hpcs])
    simp only [Bakery1.threadStep, hpcs, hti, access_of_lt _ _ _ hkl, Option.some.injEq] at hst
    subst hst
    exact h.clear hk hpcs
  | done => simp [Bakery1.threadStep, hpcs] at hst

/-! ## 5. Steps of the dispatcher -/

/-- The dispatcher moves on inside a call. -/
theorem Inv.setDisp (h : Inv s) {d : Dispatcher ι} (hiss : d.issuing = s.disp.issuing)
    (hx : d.issues = s.disp.issues) (hd : DispOk s d) : Inv { s with disp := d } := by
  have hti : ∀ i, Ticketed { s with disp := d } i ↔ Ticketed s i := fun i => by
    simp only [Ticketed, hiss]
  have hh : ∀ x k, Holds { s with disp := d } x k ↔ Holds s x k := fun x k => by
    simp only [Holds, hx]
  refine ⟨h.fault, h.num_le, h.unissued, ?_, ?_, h.increasing, ?_, ?_, ?_, ?_, ?_, ?_⟩
  · exact fun i hi => h.issuing i (hiss ▸ hi)
  · exact fun i hi => h.live i ((hti i).mp hi)
  · exact fun k t ht => (h.thread k t ht).mono rfl (hti k).mpr (fun _ => id) rfl
  · exact hd.mono rfl rfl (fun _ => Iff.rfl) (fun _ => Nat.le_refl _) fun _ => rfl
  · exact fun x => (h.client x).mono (fun i => (hti i).mpr) (fun _ => Iff.rfl) fun _ => id
  · exact fun x k hk => h.slot_lt x k ((hh x k).mp hk)
  · exact fun x y k hx hy => h.distinct x y k ((hh x k).mp hx) ((hh y k).mp hy)
  · exact fun k hk => (h.covered k hk).imp fun x => (hh x k).mpr

/-- A slot is handed out: `int ind = num++`. -/
theorem Inv.issue (h : Inv s) (hidle : s.disp = .idle) {x : ι} (hx : s.client x = .fresh)
    (hnum : s.num < SLOTS) :
    Inv { s with num := s.num + 1, disp := .getNumber x s.num 0 .choose } := by
  set s' : State ι := { s with num := s.num + 1, disp := .getNumber x s.num 0 .choose } with hs'
  have hti : ∀ i, Ticketed s' i ↔ Ticketed s i := by
    intro i
    simp only [Ticketed, hs', hidle, Dispatcher.issuing, GetPc.early, if_true, ne_eq,
      Option.some.injEq, reduceCtorEq, not_false_eq_true, and_true]
    omega
  have hh : ∀ y k, Holds s' y k ↔ Holds s y k ∨ (y = x ∧ k = s.num) := by
    intro y k
    simp only [Holds, hs', hidle, Dispatcher.issues, reduceCtorEq, and_false, or_false,
      Option.some.injEq, Prod.mk.injEq]
    constructor
    · rintro (hy | ⟨-, rfl, rfl⟩)
      · exact Or.inl hy
      · exact Or.inr ⟨rfl, rfl⟩
    · rintro (hy | ⟨rfl, rfl⟩)
      · exact Or.inl hy
      · exact Or.inr ⟨hx, rfl, rfl⟩
  have hu := h.unissued s.num (Nat.le_refl _)
  refine ⟨h.fault, hnum, ?_, ?_, ?_, h.increasing, ?_, ?_, ?_, ?_, ?_, ?_⟩
  · exact fun i hi => h.unissued i (by simp only [hs'] at hi; omega)
  · intro i hi
    simp only [hs', Dispatcher.issuing, GetPc.early, if_true, Option.some.injEq] at hi
    exact hi ▸ hu.1
  · exact fun i hi => h.live i ((hti i).mp hi)
  · exact fun k t ht => (h.thread k t ht).mono rfl (hti k).mpr (fun _ => id) rfl
  · exact ⟨rfl, hx, hu.2, trivial⟩
  · exact fun y => (h.client y).mono (fun i => (hti i).mpr) (fun _ => Iff.rfl) fun _ => id
  · intro y k hk
    simp only [hs']
    rcases (hh y k).mp hk with hy | ⟨-, rfl⟩
    · have := h.slot_lt y k hy
      omega
    · omega
  · intro y z k hy hz
    rcases (hh y k).mp hy with hy' | ⟨hyx, hyk⟩ <;> rcases (hh z k).mp hz with hz' | ⟨hzx, hzk⟩
    · exact h.distinct y z k hy' hz'
    · exact absurd (h.slot_lt y k hy') (by omega)
    · exact absurd (h.slot_lt z k hz') (by omega)
    · exact hyx.trans hzx.symm
  · intro k hk
    simp only [hs'] at hk
    rcases Nat.lt_or_ge k s.num with hlt | hge
    · exact (h.covered k hlt).imp fun y hy => (hh y k).mpr (Or.inl hy)
    · exact ⟨x, (hh x k).mpr (Or.inr ⟨rfl, by omega⟩)⟩

/-- The scan reads `number[i]` and finds it no larger than `max`, or larger and goes on to the
assignment. -/
theorem scanNext_ok {number : Nat → Nat} {ind max i : Nat}
    (h : ∀ m < i + 1, number m ≤ max) (hi : i < SLOTS) :
    ScanOk number ind max (scanNext (i + 1)) := by
  unfold scanNext
  split
  · rename_i hlt
    exact ⟨hlt, h⟩
  · exact fun m hm => h m (by omega)

theorem scanNext_early (i : Nat) : (scanNext i).early = true := by
  unfold scanNext
  split <;> rfl

/-- **The maximum may fall, and that is harmless.**  After `max = number[i]` nothing among the
slots up to `i` exceeds `max`: if the slot is still live, its number exceeds those below it; if
it was cleared since the comparison, so were all the slots below it. -/
theorem Inv.scan_assign (h : Inv s) {ind i : Nat} (hind : ind + 1 = s.num)
    (hiss : s.disp.issuing = some ind) (hi : i < ind) :
    ∀ m < i + 1, s.number m ≤ s.number i := by
  intro m hm
  rcases Nat.lt_or_ge m i with hlt | hge
  · rcases Nat.eq_zero_or_pos (s.number m) with h0 | hpos
    · omega
    · have htick : Ticketed s i := ⟨by omega, fun he => by
        rw [hiss, Option.some.injEq] at he
        omega⟩
      have hne : s.number i ≠ 0 := fun h0 => by
        have hcl := h.cleared_below ((h.live i htick).mp h0) hlt
        have := (h.live m (h.ticketed_below htick hlt)).mpr hcl
        omega
      exact Nat.le_of_lt (h.increasing m i hlt (by omega) hne)
  · have : m = i := by omega
    exact this ▸ Nat.le_refl _

/-- `number[ind] = max + 1`: the new number exceeds every live one. -/
theorem Inv.store (h : Inv s) {x : ι} {ind max : Nat}
    (hdisp : s.disp = .getNumber x ind max .store) :
    Inv { s with number := Function.update s.number ind (max + 1)
                 disp := .getNumber x ind max .argNum } := by
  obtain ⟨hind, hx, hthr, hmax⟩ := h.dispOk hdisp
  have hiss : s.disp.issuing = some ind := by simp [hdisp, Dispatcher.issuing, GetPc.early]
  have h0 : s.number ind = 0 := h.issuing ind hiss
  set s' : State ι := { s with number := Function.update s.number ind (max + 1)
                               disp := .getNumber x ind max .argNum } with hs'
  have hnum : ∀ i, s'.number i = if i = ind then max + 1 else s.number i := fun i => by
    simp [hs', Function.update_apply]
  have hti : ∀ i, Ticketed s' i ↔ i = ind ∨ Ticketed s i := by
    intro i
    have hl : s'.disp.issuing = none := by simp [hs', Dispatcher.issuing, GetPc.early]
    simp only [Ticketed, hl, hiss, ne_eq, reduceCtorEq, not_false_eq_true, and_true,
      Option.some.injEq]
    simp only [hs']
    omega
  have hh : ∀ y k, Holds s' y k ↔ Holds s y k := fun y k => by
    simp only [Holds, hs', hdisp, Dispatcher.issues]
  have hle : ∀ i, i ≠ ind → s.number i ≤ max := by
    intro i hi
    rcases Nat.lt_or_ge i s.num with hlt | hge
    · exact hmax i (Nat.lt_of_lt_of_le hlt h.num_le)
    · rw [(h.unissued i hge).1]
      exact Nat.zero_le _
  refine ⟨h.fault, h.num_le, ?_, ?_, ?_, ?_, ?_, ?_, ?_, ?_, ?_, ?_⟩
  · intro i hi
    have hne : i ≠ ind := by simp only [hs'] at hi; omega
    rw [hnum, if_neg hne]
    exact h.unissued i hi
  · intro i hi
    simp [hs', Dispatcher.issuing, GetPc.early] at hi
  · intro i hi
    rw [hnum]
    by_cases hne : i = ind
    · subst hne
      simp [Cleared, hs', hthr]
    · rw [if_neg hne]
      exact h.live i (((hti i).mp hi).resolve_left hne)
  · intro i j hij hi hj
    rw [hnum] at hi hj ⊢
    rw [hnum]
    by_cases hje : j = ind
    · have hie : i ≠ ind := by omega
      rw [if_pos hje, if_neg hie]
      exact Nat.lt_succ_of_le (hle i hie)
    · rw [if_neg hje] at hj ⊢
      have hjt := (h.ticketed_of_ne hj).1
      have hie : i ≠ ind := by omega
      rw [if_neg hie] at hi ⊢
      exact h.increasing i j hij hi hj
  · intro k t ht
    have hne : k ≠ ind := by
      rintro rfl
      rw [hthr] at ht
      simp at ht
    exact (h.thread k t ht).mono rfl (fun hk => (hti k).mpr (Or.inr hk)) (fun _ => id)
      (by rw [hnum, if_neg hne])
  · exact ⟨hind, hx, hthr, trivial⟩
  · exact fun y => (h.client y).mono (fun i hi => (hti i).mpr (Or.inr hi)) (fun _ => Iff.rfl)
      fun _ => id
  · exact fun y k hk => h.slot_lt y k ((hh y k).mp hk)
  · exact fun y z k hy hz => h.distinct y z k ((hh y k).mp hy) ((hh z k).mp hz)
  · exact fun k hk => (h.covered k hk).imp fun y => (hh y k).mpr

section Answers

variable [DecidableEq ι]

/-- The dispatcher answers client `x`, who then holds the slot it held before. -/
theorem Inv.answer (h : Inv s) {x : ι} {cl : Client} (hiss : s.disp.issuing = none)
    (hother : ∀ y k, y ≠ x → s.disp.issues ≠ some (y, k)) (hcl : cl ≠ .fresh)
    (hslot : ∀ k, cl.slot = some k ↔ Holds s x k) (hok : ClientOk s cl) :
    Inv ({ s with disp := .idle }.setClient x cl) := by
  set s' := ({ s with disp := .idle }.setClient x cl) with hs'
  have hx : s'.client x = cl := by simp [hs', State.setClient]
  have hne : ∀ y, y ≠ x → s'.client y = s.client y := fun y hy => by
    simp [hs', State.setClient, hy]
  have hti : ∀ i, Ticketed s' i ↔ Ticketed s i := fun i => by
    simp only [Ticketed, hiss]
    simp [hs', State.setClient, Dispatcher.issuing]
  have hh : ∀ y k, Holds s' y k ↔ Holds s y k := by
    intro y k
    by_cases hy : y = x
    · subst hy
      rw [← hslot]
      simp [Holds, hx, hcl]
    · have hi : s'.disp.issues = none := by simp [hs', State.setClient, Dispatcher.issues]
      simp [Holds, hne y hy, hi, hother y k hy]
  refine ⟨h.fault, h.num_le, h.unissued, ?_, ?_, h.increasing, ?_, trivial, ?_, ?_, ?_, ?_⟩
  · intro i hi
    simp [hs', State.setClient, Dispatcher.issuing] at hi
  · exact fun i hi => h.live i ((hti i).mp hi)
  · exact fun k t ht => (h.thread k t ht).mono rfl (hti k).mpr (fun _ => id) rfl
  · intro y
    have hoky : ClientOk s (s'.client y) := by
      by_cases hy : y = x
      · subst hy
        exact hx ▸ hok
      · exact (hne y hy).symm ▸ h.client y
    exact hoky.mono (fun i => (hti i).mpr) (fun _ => Iff.rfl) fun _ => id
  · exact fun y k hk => h.slot_lt y k ((hh y k).mp hk)
  · exact fun y z k hy hz => h.distinct y z k ((hh y k).mp hy) ((hh z k).mp hz)
  · exact fun k hk => (h.covered k hk).imp fun y => (hh y k).mpr

/-- `pthread_create` and the reply to BAKERY_WAIT. -/
theorem Inv.create (h : Inv s) {x : ι} {pid num : Nat} (hdisp : s.disp = .wait x pid num .create) :
    Inv (({ s with disp := .idle }.setThread pid ⟨0, 0, .entry⟩).setClient x
      (.waiting pid num)) := by
  obtain ⟨hx, hpid⟩ := h.dispOk hdisp
  have hpid := hpid rfl
  obtain ⟨htick, hthr⟩ := h.clientOk hx
  set s' := (({ s with disp := .idle }.setThread pid ⟨0, 0, .entry⟩).setClient x
    (.waiting pid num)) with hs'
  have hcx : s'.client x = .waiting pid num := by simp [hs', State.setClient]
  have hcy : ∀ y, y ≠ x → s'.client y = s.client y := fun y hy => by
    simp [hs', State.setClient, State.setThread, hy]
  have htp : s'.thr pid = some ⟨0, 0, .entry⟩ := by simp [hs', State.setClient, State.setThread]
  have hti : ∀ i, i ≠ pid → s'.thr i = s.thr i := fun i hi => by
    simp [hs', State.setClient, State.setThread, hi]
  have hcl : ∀ i, Cleared s' i ↔ Cleared s i := by
    intro i
    by_cases hi : i = pid
    · subst hi
      simp [Cleared, htp, hthr]
    · simp [Cleared, hti i hi]
  have htk : ∀ i, Ticketed s' i ↔ Ticketed s i := fun i => by
    simp [Ticketed, hs', State.setClient, State.setThread, hdisp, Dispatcher.issuing]
  have hh : ∀ y k, Holds s' y k ↔ Holds s y k := by
    intro y k
    have hi : s'.disp.issues = none := by
      simp [hs', State.setClient, State.setThread, Dispatcher.issues]
    have hi' : s.disp.issues = none := by simp [hdisp, Dispatcher.issues]
    by_cases hy : y = x
    · subst hy
      simp [Holds, hcx, hx, Client.slot]
    · simp [Holds, hcy y hy, hi, hi']
  have hholds : Holds s x pid := Or.inl (by simp [hx, Client.slot])
  have hplt : pid < s.num := htick.1
  refine ⟨h.fault, h.num_le, ?_, ?_, ?_, h.increasing, ?_, trivial, ?_, ?_, ?_, ?_⟩
  · intro i hi
    have hi' : s.num ≤ i := hi
    have hne : i ≠ pid := by omega
    exact ⟨(h.unissued i hi').1, (hti i hne).trans (h.unissued i hi').2⟩
  · intro i hi
    simp [hs', State.setClient, State.setThread, Dispatcher.issuing] at hi
  · exact fun i hi => (h.live i ((htk i).mp hi)).trans (hcl i).symm
  · intro k t ht
    by_cases hk : k = pid
    · subst hk
      rw [htp, Option.some.injEq] at ht
      subst ht
      exact ⟨hpid, (htk k).mpr htick, fun hc => absurd rfl hc, by decide,
        fun i _ hi => absurd hi (Nat.not_lt_zero i), trivial⟩
    · exact (h.thread k t (hti k hk ▸ ht)).mono rfl (htk k).mpr (fun i => (hcl i).mpr) rfl
  · intro y
    by_cases hy : y = x
    · subst hy
      rw [hcx]
      simp [ClientOk, htp]
    · rw [hcy y hy]
      have hc := h.client y
      cases hcs : s.client y with
      | fresh => trivial
      | ticket p n =>
        rw [hcs] at hc
        have hne : p ≠ pid := by
          rintro rfl
          exact hy (h.distinct y x p (Or.inl (by simp [hcs, Client.slot])) hholds)
        exact ⟨(htk p).mpr hc.1, (hti p hne).trans hc.2⟩
      | waiting p n =>
        rw [hcs] at hc
        by_cases hp : p = pid
        · subst hp
          simp [ClientOk, htp]
        · simpa only [ClientOk, hti p hp] using hc
      | served p n r => rw [hcs] at hc; exact (hcl p).mpr hc
  · exact fun y k hk => h.slot_lt y k ((hh y k).mp hk)
  · exact fun y z k hy hz => h.distinct y z k ((hh y k).mp hy) ((hh z k).mp hz)
  · exact fun k hk => (h.covered k hk).imp fun y => (hh y k).mpr

/-- A step of `get_number_1_svc` keeps the invariant. -/
theorem Inv.getNumberStep (h : Inv s) {x : ι} {ind max : Nat} {pc : GetPc}
    (hdisp : s.disp = .getNumber x ind max pc) : Inv (getNumberStep s x ind max pc) := by
  have hd : DispOk s (.getNumber x ind max pc) := hdisp ▸ h.disp
  obtain ⟨hind, hx, hthr, hscan⟩ := id hd
  have hl : ind < SLOTS := by have := h.num_le; omega
  have early : ∀ (max' : Nat) (pc' : GetPc), pc.early = true → pc'.early = true →
      ScanOk s.number ind max' pc' → Inv { s with disp := .getNumber x ind max' pc' } := by
    intro max' pc' hpc hpc' hs
    exact h.setDisp (by simp [hdisp, Dispatcher.issuing, hpc, hpc'])
      (by simp [hdisp, Dispatcher.issues]) ⟨hind, hx, hthr, hs⟩
  cases pc with
  | choose =>
    simp only [Bakery1.getNumberStep, access_of_lt _ _ _ hl]
    have h' := early max (scanNext 0) rfl (scanNext_early 0) ⟨by decide, fun m hm => by omega⟩
    exact h'.of_eq rfl rfl rfl rfl rfl rfl fun _ => rfl
  | test i =>
    simp only [Bakery1.getNumberStep, access_of_lt _ _ _ hscan.1]
    split
    · rename_i hgt
      have hne : s.number i ≠ 0 := by omega
      have htick := h.ticketed_of_ne hne
      have hi : i ≠ ind := fun he => htick.2 (by
        rw [hdisp, he]
        simp [Dispatcher.issuing, GetPc.early])
      exact early max (.assign i) rfl rfl ⟨hscan.1, by have := htick.1; omega, hscan.2⟩
    · rename_i hle
      refine early max (scanNext (i + 1)) rfl (scanNext_early _) (scanNext_ok ?_ hscan.1)
      intro m hm
      rcases Nat.lt_or_ge m i with hlt | hge
      · exact hscan.2 m hlt
      · have : m = i := by omega
        exact this ▸ Nat.le_of_not_lt hle
  | assign i =>
    simp only [Bakery1.getNumberStep, access_of_lt _ _ _ hscan.1]
    exact early (s.number i) (scanNext (i + 1)) rfl (scanNext_early _)
      (scanNext_ok (h.scan_assign hind (by simp [hdisp, Dispatcher.issuing, GetPc.early])
        hscan.2.1) hscan.1)
  | store =>
    simp only [Bakery1.getNumberStep, access_of_lt _ _ _ hl]
    exact h.store hdisp
  | argNum =>
    simp only [Bakery1.getNumberStep, access_of_lt _ _ _ hl]
    exact h.setDisp (by simp [hdisp, Dispatcher.issuing, GetPc.early])
      (by simp [hdisp, Dispatcher.issues]) ⟨hind, hx, hthr, trivial⟩
  | unchoose =>
    simp only [Bakery1.getNumberStep, access_of_lt _ _ _ hl]
    have h' : Inv { s with disp := .getNumber x ind max .reply } :=
      h.setDisp (by simp [hdisp, Dispatcher.issuing, GetPc.early])
        (by simp [hdisp, Dispatcher.issues]) ⟨hind, hx, hthr, trivial⟩
    exact h'.of_eq rfl rfl rfl rfl rfl rfl fun _ => rfl
  | reply =>
    simp only [Bakery1.getNumberStep, access_of_lt _ _ _ hl]
    have hiss : s.disp.issuing = none := by simp [hdisp, Dispatcher.issuing, GetPc.early]
    refine h.answer hiss ?_ (by simp) ?_ ⟨⟨by omega, by simp [hiss]⟩, hthr⟩
    · intro y k hy
      simp [hdisp, Dispatcher.issues, Ne.symm hy]
    · intro k
      simp [Holds, hx, Client.slot, hdisp, Dispatcher.issues]

/-- A step of `bakery_wait_1_svc` keeps the invariant. -/
theorem Inv.waitStep (h : Inv s) {x : ι} {pid num : Nat} {pc : WaitPc}
    (hdisp : s.disp = .wait x pid num pc) : Inv (waitStep s x pid num pc) := by
  obtain ⟨hx, hpid⟩ := h.dispOk hdisp
  obtain ⟨htick, hthr⟩ := h.clientOk hx
  have hl : pid < SLOTS := h.slot_lt_slots htick
  cases pc with
  | attrInit =>
    simp only [Bakery1.waitStep, access_of_lt _ _ _ hl]
    exact h.setDisp (by simp [hdisp, Dispatcher.issuing]) (by simp [hdisp, Dispatcher.issues])
      ⟨hx, by simp⟩
  | args =>
    simp only [Bakery1.waitStep, access_of_lt _ _ _ hl]
    -- only `res[pid].pid` changes, and no thread reads it yet
    set s' : State ι :=
      { s with res := Function.update s.res pid { s.res pid with pid := pid, num := num }
               disp := .wait x pid num .create } with hs'
    have hres : ∀ m, m ≠ pid → s'.res m = s.res m := fun m hm => by simp [hs', hm]
    have hti : ∀ i, Ticketed s' i ↔ Ticketed s i := fun i => by
      simp [Ticketed, hs', hdisp, Dispatcher.issuing]
    have hh : ∀ y k, Holds s' y k ↔ Holds s y k := fun y k => by
      simp [Holds, hs', hdisp, Dispatcher.issues]
    refine ⟨h.fault, h.num_le, h.unissued, ?_, ?_, h.increasing, ?_, ?_, ?_, ?_, ?_, ?_⟩
    · intro i hi
      simp [hs', Dispatcher.issuing] at hi
    · exact fun i hi => h.live i ((hti i).mp hi)
    · intro k t ht
      have hne : k ≠ pid := by
        rintro rfl
        rw [hthr] at ht
        simp at ht
      exact (h.thread k t ht).mono (by rw [hres k hne]) (hti k).mpr (fun _ => id) rfl
    · exact ⟨hx, fun _ => by simp [hs']⟩
    · exact fun y => (h.client y).mono (fun i => (hti i).mpr) (fun _ => Iff.rfl) fun _ => id
    · exact fun y k hk => h.slot_lt y k ((hh y k).mp hk)
    · exact fun y z k hy hz => h.distinct y z k ((hh y k).mp hy) ((hh z k).mp hz)
    · exact fun k hk => (h.covered k hk).imp fun y => (hh y k).mpr
  | create =>
    simp only [Bakery1.waitStep, access_of_lt _ _ _ hl]
    exact h.create hdisp

/-- A step of `bakery_service_1_svc` keeps the invariant. -/
theorem Inv.serviceStep (h : Inv s) {x : ι} {pid num : Nat} {pc : ServicePc}
    (hdisp : s.disp = .service x pid num pc) (hst : serviceStep s x pid num pc = some s') :
    Inv s' := by
  have hx : s.client x = .waiting pid num := h.dispOk hdisp
  have hsome : (s.thr pid).isSome := h.clientOk hx
  obtain ⟨t, ht⟩ := Option.isSome_iff_exists.mp hsome
  have hl : pid < SLOTS := h.slot_lt_slots (h.thread pid t ht).ticketed
  cases pc with
  | attrDestroy =>
    simp only [Bakery1.serviceStep, access_of_lt _ _ _ hl, Option.some.injEq] at hst
    subst hst
    exact h.setDisp (by simp [hdisp, Dispatcher.issuing]) (by simp [hdisp, Dispatcher.issues]) hx
  | join =>
    obtain ⟨i, j, pc⟩ := t
    cases pc <;>
      simp only [Bakery1.serviceStep, ht, access_of_lt _ _ _ hl, Option.some.injEq,
        reduceCtorEq] at hst
    subst hst
    refine h.answer (by simp [hdisp, Dispatcher.issuing]) ?_ (by simp) ?_ ⟨_, ht, rfl⟩
    · intro y k _
      simp [hdisp, Dispatcher.issues]
    · intro k
      simp [Holds, hx, Client.slot]

end Answers

/-! ## 6. The step, and the run -/

section Run

variable [DecidableEq ι]

/-- The step hands out no slot beyond the last. -/
def Fits (s : State ι) : Action ι → Prop
  | .request x => s.client x = .fresh → s.num < SLOTS
  | _ => True

/-- **Every step keeps the invariant**, as long as it hands out a slot that exists. -/
theorem Inv.step (h : Inv s) {a : Action ι} (hfit : Fits s a) (hst : step s a = some s') :
    Inv s' := by
  simp only [Bakery1.step, h.fault, Option.isSome_none, Bool.false_eq_true, if_false] at hst
  cases a with
  | request x =>
    simp only [request] at hst
    split at hst
    · rename_i hidle hx
      rw [Option.some.injEq] at hst
      exact hst ▸ h.issue hidle hx (hfit hx)
    · rename_i pid num hidle hx
      rw [Option.some.injEq] at hst
      exact hst ▸ h.setDisp (by simp [hidle, Dispatcher.issuing])
        (by simp [hidle, Dispatcher.issues]) ⟨hx, by simp⟩
    · rename_i pid num hidle hx
      rw [Option.some.injEq] at hst
      exact hst ▸ h.setDisp (by simp [hidle, Dispatcher.issuing])
        (by simp [hidle, Dispatcher.issues]) hx
    · simp at hst
  | server =>
    simp only [serverStep] at hst
    split at hst
    · simp at hst
    · rename_i hdisp
      rw [Option.some.injEq] at hst
      exact hst ▸ h.getNumberStep hdisp
    · rename_i hdisp
      rw [Option.some.injEq] at hst
      exact hst ▸ h.waitStep hdisp
    · rename_i hdisp
      exact h.serviceStep hdisp hst
  | thread k =>
    obtain ⟨t, ht, hst⟩ := Option.bind_eq_some_iff.mp hst
    exact h.threadStep ht hst

/-- With at most 32 clients every slot that is handed out exists: the clients holding the slots
below `num` are distinct, and the one asking holds none. -/
theorem Inv.fits [Fintype ι] (h : Inv s) (hcard : Fintype.card ι ≤ SLOTS) {a : Action ι}
    (hst : Bakery1.step s a = some s') : Fits s a := by
  cases a with
  | request x =>
    intro hx
    have hidle : s.disp = .idle := by
      cases hd : s.disp with
      | idle => rfl
      | _ => simp [Bakery1.step, h.fault, request, hd] at hst
    choose holder hholder using fun k : Fin s.num => h.covered k k.2
    have hinj : Function.Injective holder := by
      intro k m hkm
      have hk := hholder k
      have hm := hholder m
      rw [← hkm] at hm
      have hslot : (s.client (holder k)).slot = some k.1 := by
        simpa [Holds, hidle, Dispatcher.issues] using hk
      have hslot' : (s.client (holder k)).slot = some m.1 := by
        simpa [Holds, hidle, Dispatcher.issues] using hm
      exact Fin.ext (Option.some.inj (hslot.symm.trans hslot'))
    have hnot : x ∉ Set.range holder := by
      rintro ⟨k, rfl⟩
      have hk := hholder k
      simp [Holds, hx, Client.slot, hidle, Dispatcher.issues] at hk
    have hlt := Fintype.card_lt_of_injective_of_notMem holder hinj hnot
    rw [Fintype.card_fin] at hlt
    omega
  | server => trivial
  | thread k => trivial

end Run

theorem inv_init : Inv (init ι) := by
  have hno : ∀ (x : ι) (k : Nat), ¬ Holds (init ι) x k := fun x k => by
    simp [Holds, init, Client.slot, Dispatcher.issues]
  refine ⟨rfl, Nat.zero_le _, fun _ _ => ⟨rfl, rfl⟩, ?_, ?_, ?_, ?_, trivial, fun _ => trivial,
    ?_, ?_, ?_⟩
  · intro i hi
    simp [init, Dispatcher.issuing] at hi
  · exact fun i hi => absurd hi.1 (Nat.not_lt_zero i)
  · exact fun i j _ hi => absurd rfl hi
  · intro k t ht
    simp [init] at ht
  · exact fun x k hk => absurd hk (hno x k)
  · exact fun x y k hk => absurd hk (hno x k)
  · exact fun k hk => absurd hk (Nat.not_lt_zero k)

/-- **Every reachable state meets the invariant**, for any set of at most 32 clients. -/
theorem reachable_inv [DecidableEq ι] [Fintype ι] (hcard : Fintype.card ι ≤ SLOTS)
    (h : (server ι).Reachable s) : Inv s :=
  Machine.reachable_rule (M := server ι) inv_init
    (fun _ _ _ hi hst => hi.step (hi.fits hcard hst) hst) h

end OsLabs.Bakery1
