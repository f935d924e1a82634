/-
# bakery1: mutual exclusion and first come, first served

Two consequences of the ticket order (`Invariant.lean`) and one more invariant.

* `mutual_exclusion`: a thread that has left its loop found every lower slot cleared, so two of
  them would each have cleared the other.
* `CursorInv`: the cursor `c` stands at the letter of the lowest slot that is not cleared, or
  is on its way to the next one inside that slot's thread.  The thread of no other slot touches
  it, so slot `k` takes the `k`-th letter of the cycle and hands it to its client
  (`first_come_first_served`).
-/
import OsLabs.Bakery1.Invariant

namespace OsLabs.Bakery1

open Bakery

variable {ι : Type} {s s' : State ι} {i j k m : Nat} {t t' : Thread}

/-! ## 1. Mutual exclusion -/

/-- The thread has left its loop over `j` and has not executed `number[i] = 0` yet. -/
def Thread.inCritical (t : Thread) : Bool :=
  match t.pc with
  | .take | .bump _ | .hand _ | .test | .wrap | .print | .clear => true
  | _ => false

theorem Thread.passed_of_inCritical (ht : t.inCritical = true) :
    t.passed = SLOTS ∧ t.pc ≠ .done := by
  cases hpc : t.pc <;> simp_all [Thread.inCritical, Thread.passed]

/-- A thread in its critical section found every lower slot cleared. -/
theorem Inv.cleared_of_inCritical (h : Inv s) (hk : s.thr k = some t)
    (ht : t.inCritical = true) (hik : i < k) : Cleared s i := by
  have hok := h.thread k t hk
  have hlt := h.slot_lt_slots hok.ticketed
  exact hok.passed i hik (by rw [(Thread.passed_of_inCritical ht).1]; omega)

theorem Inv.inCritical_unique (h : Inv s) (hk : s.thr k = some t) (hm : s.thr m = some t')
    (ht : t.inCritical = true) (ht' : t'.inCritical = true) : k = m := by
  rcases Nat.lt_trichotomy k m with hlt | heq | hgt
  · exact absurd (h.cleared_of_inCritical hm ht' hlt)
      (not_cleared hk (Thread.passed_of_inCritical ht).2)
  · exact heq
  · exact absurd (h.cleared_of_inCritical hk ht hgt)
      (not_cleared hm (Thread.passed_of_inCritical ht').2)

/-- The thread of slot `k` is in its critical section. -/
def InCritical (s : State ι) (k : Nat) : Prop := ∃ t, s.thr k = some t ∧ t.inCritical = true

/-- **Mutual exclusion.**  In every reachable state at most one `bakery_service` thread is
between leaving its loop and executing `number[i] = 0`. -/
theorem mutual_exclusion [DecidableEq ι] [Fintype ι] (hcard : Fintype.card ι ≤ 32)
    (h : (server ι).Reachable s) : {k | InCritical s k}.Subsingleton := by
  rintro k ⟨t, hk, ht⟩ m ⟨t', hm, ht'⟩
  exact (reachable_inv hcard h).inCritical_unique hk hm ht ht'

/-- The requests and steps that take client 0, alone with another client, to the point where
its thread reads `c`: GET_NUMBER, BAKERY_WAIT, and 32 iterations of the loop. -/
def firstEntry : List (Action (Fin 2)) :=
  .request 0 :: List.replicate 37 .server ++ .request 0 :: List.replicate 3 .server ++
    List.replicate 69 (.thread 0)

theorem mutual_exclusion_first :
    ∃ s, (server (Fin 2)).Reachable s ∧ InCritical s 0 ∧ {k | InCritical s k}.Subsingleton := by
  obtain ⟨s, hs, ht⟩ := Machine.reachable_of_run_map (M := server (Fin 2))
    (f := fun s => s.thr 0) (b := some ⟨0, 31, .take⟩) firstEntry (by decide +kernel)
  exact ⟨s, hs, ⟨_, ht, rfl⟩, mutual_exclusion (by decide) hs⟩

/-! ## 2. The cursor -/

/-- Where the cursor stands while `k` is the lowest slot that is not cleared. -/
def CursorOk (s : State ι) (k : Nat) : Prop :=
  match s.thr k with
  | none => s.c = letter k
  | some t =>
    match t.pc with
    | .bump v => v = letter k ∧ s.c = letter k
    | .hand v => v = letter k ∧ s.c = letter k + 1
    | .test => s.c = letter k + 1 ∧ (s.res k).res = letter k
    | .wrap => letterZ < letter k + 1 ∧ (s.res k).res = letter k
    | .print | .clear => s.c = letter (k + 1) ∧ (s.res k).res = letter k
    | _ => s.c = letter k

/-- The slot the lines printed so far end at. -/
def Printed (s : State ι) (i : Nat) : Prop := ∃ t, s.thr i = some t ∧ (t.pc = .clear ∨ t.pc = .done)

/-- The lowest slot that is not cleared. -/
def Lowest (s : State ι) (k : Nat) : Prop := (∀ i < k, Cleared s i) ∧ ¬ Cleared s k

structure CursorInv (s : State ι) : Prop where
  cursor : ∀ k, Lowest s k → CursorOk s k
  taken : ∀ k, Cleared s k → (s.res k).res = letter k
  served : ∀ x pid num r, s.client x = .served pid num r → r = letter pid
  printed : ∃ n, s.printed.map (fun l => (l.1, l.2.2)) =
    (List.range n).map (fun k => (k, letter k)) ∧ ∀ i, Printed s i ↔ i < n

theorem Lowest.unique (hk : Lowest s k) (hm : Lowest s m) : k = m := by
  rcases Nat.lt_trichotomy k m with hlt | heq | hgt
  · exact absurd (hm.1 k hlt) hk.2
  · exact heq
  · exact absurd (hk.1 m hgt) hm.2

theorem Inv.lowest_of_inCritical (h : Inv s) (hk : s.thr k = some t)
    (ht : t.inCritical = true) : Lowest s k :=
  ⟨fun _ hi => h.cleared_of_inCritical hk ht hi,
    not_cleared hk (Thread.passed_of_inCritical ht).2⟩

/-- A step that neither moves the cursor nor clears a slot nor prints. -/
theorem CursorInv.of_frame (h : CursorInv s) (hcl : ∀ i, Cleared s' i ↔ Cleared s i)
    (hcur : ∀ k, CursorOk s k → CursorOk s' k) (hres : ∀ k, (s'.res k).res = (s.res k).res)
    (hprinted : s'.printed = s.printed) (hpr : ∀ i, Printed s' i ↔ Printed s i)
    (hserved : ∀ x pid num r, s'.client x = .served pid num r → r = letter pid) :
    CursorInv s' := by
  refine ⟨fun k hk => hcur k (h.cursor k ?_), fun k hk => ?_, hserved, ?_⟩
  · exact ⟨fun i hi => (hcl i).mp (hk.1 i hi), fun hc => hk.2 ((hcl k).mpr hc)⟩
  · exact (hres k).trans (h.taken k ((hcl k).mp hk))
  · obtain ⟨n, hn, hi⟩ := h.printed
    exact ⟨n, hprinted ▸ hn, fun i => (hpr i).trans (hi i)⟩

/-! ## 3. Steps of a thread -/

/-- A thread moves on inside its loop, up to the read of `c`: nothing the cursor depends on
changes. -/
theorem CursorInv.setThread (h : CursorInv s) (hk : s.thr k = some t)
    (ht : t.inCritical = false) (hd : t.pc ≠ .done)
    (ht' : t'.inCritical = false ∨ t'.pc = .take) (hd' : t'.pc ≠ .done) :
    CursorInv (s.setThread k t') := by
  refine h.of_frame (fun i => cleared_setThread hk hd hd') ?_ (fun _ => rfl) rfl ?_ h.served
  · intro m hm
    by_cases hmk : m = k
    · subst hmk
      have hc : s.c = letter m := by
        cases hpc : t.pc <;> simp_all [CursorOk, Thread.inCritical]
      cases hpc : t'.pc <;> simp_all [CursorOk, State.setThread, Thread.inCritical]
    · simpa [CursorOk, State.setThread, hmk] using hm
  · intro i
    by_cases hik : i = k
    · subst hik
      cases hpc : t.pc <;> cases hpc' : t'.pc <;>
        simp_all [Printed, State.setThread, Thread.inCritical]
    · simp [Printed, State.setThread, hik]

/-- A step inside the critical section: the thread's own slot is the lowest one, so the cursor
has to be looked at for no other. -/
theorem CursorInv.critical (h : CursorInv s) (hlow : Lowest s k)
    (hcl : ∀ i, Cleared s' i ↔ Cleared s i) (hok : CursorOk s' k)
    (hres : ∀ m, m ≠ k → (s'.res m).res = (s.res m).res) (hclient : s'.client = s.client)
    (hprinted : ∃ n, s'.printed.map (fun l => (l.1, l.2.2)) =
      (List.range n).map (fun k => (k, letter k)) ∧ ∀ i, Printed s' i ↔ i < n) :
    CursorInv s' := by
  refine ⟨fun m hm => ?_, fun m hm => ?_, fun x pid num r hx => ?_, hprinted⟩
  · have hm' : Lowest s m := ⟨fun i hi => (hcl i).mp (hm.1 i hi), fun hc => hm.2 ((hcl m).mpr hc)⟩
    exact hm'.unique hlow ▸ hok
  · have hm' := (hcl m).mp hm
    rw [hres m fun e => hlow.2 (e ▸ hm')]
    exact h.taken m hm'
  · exact h.served x pid num r (hclient ▸ hx)

/-- The same, for the steps of the section that do not print. -/
theorem CursorInv.critical_setThread (h : CursorInv s) {r : State ι} (hlow : Lowest s k)
    (hk : s.thr k = some t) (hd : t.pc ≠ .clear ∧ t.pc ≠ .done)
    (hd' : t'.pc ≠ .clear ∧ t'.pc ≠ .done) (hthr : r.thr = s.thr)
    (hok : CursorOk (r.setThread k t') k)
    (hres : ∀ m, m ≠ k → (r.res m).res = (s.res m).res) (hclient : r.client = s.client)
    (hprinted : r.printed = s.printed) : CursorInv (r.setThread k t') := by
  have hr : r.thr k = some t := hthr ▸ hk
  refine h.critical hlow (fun i => ?_) hok hres hclient ?_
  · rw [cleared_setThread hr hd.2 hd'.2]
    simp only [Cleared, hthr]
  · obtain ⟨n, hn, hi⟩ := h.printed
    refine ⟨n, ?_, fun i => ?_⟩
    · exact (congrArg _ hprinted).trans hn
    · rw [← hi]
      rcases eq_or_ne i k with rfl | hik
      · simp [Printed, State.setThread, hk, hd, hd']
      · simp [Printed, State.setThread, hik, hthr]

/-- The thread prints its line: it is the line of the slot after those printed already. -/
theorem CursorInv.print (h : CursorInv s) (hi : Inv s) (hk : s.thr k = some t)
    (hpc : t.pc = .print) :
    CursorInv ({ s with printed := s.printed ++
      [((s.res k).pid, (s.res k).num, (s.res k).res)] }.setThread k { t with pc := .clear }) := by
  have hcrit : t.inCritical = true := by simp [Thread.inCritical, hpc]
  have hlow := hi.lowest_of_inCritical hk hcrit
  have hcur : s.c = letter (k + 1) ∧ (s.res k).res = letter k := by
    have := h.cursor k hlow
    simpa only [CursorOk, hk, hpc] using this
  obtain ⟨n, hn, hpr⟩ := h.printed
  have hnk : n = k := by
    have h1 : ¬ k < n := by
      rw [← hpr k]
      rintro ⟨u, hu, hup⟩
      rw [hk, Option.some.injEq] at hu
      simp [← hu, hpc] at hup
    have h2 : ∀ i < k, i < n := by
      intro i hik
      obtain ⟨u, hu, hd⟩ := hlow.1 i hik
      exact (hpr i).mp ⟨u, hu, Or.inr hd⟩
    rcases Nat.eq_zero_or_pos k with rfl | hpos
    · omega
    · have := h2 (k - 1) (by omega)
      omega
  subst hnk
  set r : State ι := { s with printed := s.printed ++
    [((s.res n).pid, (s.res n).num, (s.res n).res)] } with hr
  have hcl : ∀ i, Cleared (r.setThread n { t with pc := .clear }) i ↔ Cleared s i := fun i =>
    cleared_setThread (s := r) hk (by simp [hpc]) (by simp)
  refine h.critical hlow hcl ?_ (fun _ _ => rfl) rfl ⟨n + 1, ?_, fun i => ?_⟩
  · simpa [CursorOk, State.setThread] using hcur
  · simp only [hr, State.setThread, List.map_append, hn, List.map_cons, List.map_nil,
      List.range_succ, (hi.thread n t hk).pid, hcur.2]
  · rcases eq_or_ne i n with rfl | hin
    · simp [Printed, State.setThread]
    · have hold : Printed (r.setThread n { t with pc := .clear }) i ↔ Printed s i := by
        simp [Printed, hr, State.setThread, hin]
      rw [hold, hpr]
      omega

/-- The thread clears its slot: the next one is the lowest now, and its thread, if there is
one, is still in its loop. -/
theorem CursorInv.clear (h : CursorInv s) (hi : Inv s) (hk : s.thr k = some t)
    (hpc : t.pc = .clear) :
    CursorInv ({ s with number := Function.update s.number k 0 }.setThread k
      { t with i := k, pc := .done }) := by
  have hcrit : t.inCritical = true := by simp [Thread.inCritical, hpc]
  have hlow := hi.lowest_of_inCritical hk hcrit
  have hcur : s.c = letter (k + 1) ∧ (s.res k).res = letter k := by
    have := h.cursor k hlow
    simpa only [CursorOk, hk, hpc] using this
  set s' := ({ s with number := Function.update s.number k 0 }.setThread k
    { t with i := k, pc := .done }) with hs'
  have hthr : ∀ i, i ≠ k → s'.thr i = s.thr i := fun i hik => by simp [hs', State.setThread, hik]
  have hthrk : s'.thr k = some { t with i := k, pc := .done } := by simp [hs', State.setThread]
  have hck : Cleared s' k := ⟨_, hthrk, rfl⟩
  have hcne : ∀ i, i ≠ k → (Cleared s' i ↔ Cleared s i) := fun i hik => by
    simp only [Cleared, hthr i hik]
  refine ⟨fun m hm => ?_, fun m hm => ?_, h.served, ?_⟩
  · have hmk : m = k + 1 := by
      have h1 : ¬ m ≤ k := by
        intro hle
        rcases Nat.lt_or_eq_of_le hle with hlt | rfl
        · exact hm.2 ((hcne m (by omega)).mpr (hlow.1 m hlt))
        · exact hm.2 hck
      have h2 : ¬ k + 1 < m := by
        intro hlt
        have hc := (hcne (k + 1) (by omega)).mp (hm.1 (k + 1) hlt)
        exact hlow.2 (hi.cleared_below hc (by omega))
      omega
    subst hmk
    have hc : s'.c = letter (k + 1) := hcur.1
    cases hu : s.thr (k + 1) with
    | none => simp [CursorOk, hthr (k + 1) (by omega), hu, hc]
    | some u =>
      have hncrit : u.inCritical = false := by
        by_contra hne
        exact hlow.2 (hi.cleared_of_inCritical hu (by simpa using hne) (by omega))
      simp only [CursorOk, hthr (k + 1) (by omega), hu]
      cases hup : u.pc <;> simp_all [Thread.inCritical]
  · rcases eq_or_ne m k with rfl | hmk
    · exact hcur.2
    · exact h.taken m ((hcne m hmk).mp hm)
  · obtain ⟨n, hn, hpr⟩ := h.printed
    refine ⟨n, hn, fun i => ?_⟩
    rw [← hpr i]
    rcases eq_or_ne i k with rfl | hik
    · simp [Printed, hthrk, hk, hpc]
    · simp [Printed, hthr i hik]

/-- **A thread's step keeps the cursor in place.** -/
theorem CursorInv.threadStep (h : CursorInv s) (hi : Inv s) (hk : s.thr k = some t)
    (hst : threadStep s k t = some s') : CursorInv s' := by
  have hok := hi.thread k t hk
  have hkl : k < SLOTS := hi.slot_lt_slots hok.ticketed
  have hj := hok.j_lt
  have hnext : t.next.inCritical = false ∨ t.next.pc = .take := by
    unfold Thread.next
    split
    · exact Or.inl rfl
    · exact Or.inr rfl
  have hnd : t.next.pc ≠ .done := by
    unfold Thread.next
    split <;> simp
  cases hpcs : t.pc with
  | take =>
    have hlow := hi.lowest_of_inCritical hk (by simp [Thread.inCritical, hpcs])
    have hcur := h.cursor k hlow
    simp only [CursorOk, hk, hpcs] at hcur
    simp only [Bakery1.threadStep, hpcs, Option.some.injEq] at hst
    subst hst
    refine h.critical_setThread hlow hk (by simp [hpcs]) (by simp) rfl ?_ (fun _ _ => rfl) rfl rfl
    simp [CursorOk, State.setThread, hcur]
  | bump v =>
    have hlow := hi.lowest_of_inCritical hk (by simp [Thread.inCritical, hpcs])
    have hcur := h.cursor k hlow
    simp only [CursorOk, hk, hpcs] at hcur
    simp only [Bakery1.threadStep, hpcs, Option.some.injEq] at hst
    subst hst
    refine h.critical_setThread hlow hk (by simp [hpcs]) (by simp) rfl ?_ (fun _ _ => rfl) rfl rfl
    simp [CursorOk, State.setThread, hcur]
  | hand v =>
    have hlow := hi.lowest_of_inCritical hk (by simp [Thread.inCritical, hpcs])
    have hcur := h.cursor k hlow
    simp only [CursorOk, hk, hpcs] at hcur
    simp only [Bakery1.threadStep, hpcs, access_of_lt _ _ _ hkl, Option.some.injEq] at hst
    subst hst
    refine h.critical_setThread hlow hk (by simp [hpcs]) (by simp) rfl ?_ (fun m hm => ?_) rfl rfl
    · simp [CursorOk, State.setThread, hcur]
    · simp [hm]
  | test =>
    have hlow := hi.lowest_of_inCritical hk (by simp [Thread.inCritical, hpcs])
    have hcur := h.cursor k hlow
    simp only [CursorOk, hk, hpcs] at hcur
    simp only [Bakery1.threadStep, hpcs, Option.some.injEq] at hst
    subst hst
    refine h.critical_setThread hlow hk (by simp [hpcs]) (by split <;> simp) rfl ?_
      (fun _ _ => rfl) rfl rfl
    split
    · rename_i hgt
      simpa [CursorOk, State.setThread, hcur.2, hcur.1] using hgt
    · rename_i hle
      rw [hcur.1] at hle
      simp [CursorOk, State.setThread, hcur, letter_succ hle]
  | wrap =>
    have hlow := hi.lowest_of_inCritical hk (by simp [Thread.inCritical, hpcs])
    have hcur := h.cursor k hlow
    simp only [CursorOk, hk, hpcs] at hcur
    simp only [Bakery1.threadStep, hpcs, Option.some.injEq] at hst
    subst hst
    refine h.critical_setThread hlow hk (by simp [hpcs]) (by simp) rfl ?_ (fun _ _ => rfl) rfl rfl
    simp [CursorOk, State.setThread, hcur, ← letter_succ_wrap hcur.1]
  | print =>
    simp only [Bakery1.threadStep, hpcs, access_of_lt _ _ _ hkl, Option.some.injEq] at hst
    exact hst ▸ h.print hi hk hpcs
  | clear =>
    have hti := hok.i_eq (by simp [hpcs])
    simp only [Bakery1.threadStep, hpcs, hti, access_of_lt _ _ _ hkl, Option.some.injEq] at hst
    exact hst ▸ h.clear hi hk hpcs
  | done => simp [Bakery1.threadStep, hpcs] at hst
  | entry =>
    simp only [Bakery1.threadStep, hpcs, access_of_lt _ _ _ hkl, Option.some.injEq] at hst
    exact hst ▸ h.setThread hk (by simp [Thread.inCritical, hpcs]) (by simp [hpcs])
      (Or.inl rfl) (by simp)
  | choosing =>
    simp only [Bakery1.threadStep, hpcs, access_of_lt _ _ _ hj, Option.some.injEq] at hst
    subst hst
    refine h.setThread hk (by simp [Thread.inCritical, hpcs]) (by simp [hpcs]) (Or.inl ?_) ?_
    · split <;> rfl
    · split <;> simp
  | nonzero =>
    simp only [Bakery1.threadStep, hpcs, access_of_lt _ _ _ hj, Option.some.injEq] at hst
    subst hst
    split
    · exact h.setThread hk (by simp [Thread.inCritical, hpcs]) (by simp [hpcs]) (Or.inl rfl)
        (by simp)
    · exact h.setThread hk (by simp [Thread.inCritical, hpcs]) (by simp [hpcs]) hnext hnd
  | less =>
    simp only [Bakery1.threadStep, hpcs, access_of_lt _ _ _ hj, Option.some.injEq] at hst
    exact hst ▸ h.setThread hk (by simp [Thread.inCritical, hpcs]) (by simp [hpcs])
      (Or.inl rfl) (by simp)
  | lessThan a =>
    have hti := hok.i_eq (by simp [hpcs])
    simp only [Bakery1.threadStep, hpcs, hti, access_of_lt _ _ _ hkl, Option.some.injEq] at hst
    subst hst
    refine h.setThread hk (by simp [Thread.inCritical, hpcs]) (by simp [hpcs]) (Or.inl ?_) ?_
    · split <;> rfl
    · split <;> simp
  | equal =>
    simp only [Bakery1.threadStep, hpcs, access_of_lt _ _ _ hj, Option.some.injEq] at hst
    exact hst ▸ h.setThread hk (by simp [Thread.inCritical, hpcs]) (by simp [hpcs])
      (Or.inl rfl) (by simp)
  | equalTo a =>
    have hti := hok.i_eq (by simp [hpcs])
    simp only [Bakery1.threadStep, hpcs, hti, access_of_lt _ _ _ hkl, Option.some.injEq] at hst
    subst hst
    split
    · exact h.setThread hk (by simp [Thread.inCritical, hpcs]) (by simp [hpcs]) (Or.inl rfl)
        (by simp)
    · exact h.setThread hk (by simp [Thread.inCritical, hpcs]) (by simp [hpcs]) hnext hnd

/-! ## 4. Steps of the dispatcher -/

theorem CursorInv.of_eq (h : CursorInv s) (hthr : s'.thr = s.thr) (hc : s'.c = s.c)
    (hres : ∀ k, (s'.res k).res = (s.res k).res) (hprinted : s'.printed = s.printed)
    (hserved : ∀ x pid num r, s'.client x = .served pid num r → r = letter pid) :
    CursorInv s' := by
  refine h.of_frame (fun i => ?_) (fun k hk => ?_) hres hprinted (fun i => ?_) hserved
  · simp only [Cleared, hthr]
  · simp only [CursorOk, hthr, hc, hres] at hk ⊢
    exact hk
  · simp only [Printed, hthr]

/-- A thread is created: it has not come near the cursor. -/
theorem CursorInv.spawn (h : CursorInv s) {r : State ι} {pid : Nat} (hnone : s.thr pid = none)
    (hthr : r.thr = Function.update s.thr pid (some ⟨0, 0, .entry⟩)) (hc : r.c = s.c)
    (hres : r.res = s.res) (hprinted : r.printed = s.printed)
    (hserved : ∀ x p n v, r.client x = .served p n v → v = letter p) : CursorInv r := by
  have hat : r.thr pid = some ⟨0, 0, .entry⟩ := by rw [hthr, Function.update_self]
  have hoff : ∀ i, i ≠ pid → r.thr i = s.thr i := fun i hi => by
    rw [hthr, Function.update_of_ne hi]
  refine h.of_frame (fun i => ?_) (fun k hk => ?_) (fun k => by rw [hres]) hprinted (fun i => ?_)
    hserved
  · rcases eq_or_ne i pid with rfl | hi
    · simp [Cleared, hat, hnone]
    · simp only [Cleared, hoff i hi]
  · rcases eq_or_ne k pid with rfl | hkp
    · simp only [CursorOk, hnone] at hk
      simpa only [CursorOk, hat, hc] using hk
    · simpa only [CursorOk, hoff k hkp, hc, hres] using hk
  · rcases eq_or_ne i pid with rfl | hi
    · simp [Printed, hat, hnone]
    · simp only [Printed, hoff i hi]

section Run

variable [DecidableEq ι]

/-- A reply other than the one that carries a letter. -/
theorem CursorInv.served_setClient (h : CursorInv s) {x : ι} {cl : Client}
    (hcl : ∀ pid num r, cl = .served pid num r → r = letter pid) :
    ∀ y pid num r, (s.setClient x cl).client y = .served pid num r → r = letter pid := by
  intro y pid num r hy
  rcases eq_or_ne y x with rfl | hyx
  · exact hcl pid num r (by simpa [State.setClient] using hy)
  · exact h.served y pid num r (by simpa [State.setClient, hyx] using hy)

/-- **Every step keeps the cursor in place.** -/
theorem CursorInv.step (h : CursorInv s) (hi : Inv s) {a : Action ι}
    (hst : step s a = some s') : CursorInv s' := by
  simp only [Bakery1.step, hi.fault, Option.isSome_none, Bool.false_eq_true, if_false] at hst
  cases a with
  | request x =>
    simp only [request] at hst
    split at hst <;> simp only [Option.some.injEq, reduceCtorEq] at hst
    all_goals exact hst ▸ h.of_eq rfl rfl (fun _ => rfl) rfl h.served
  | server =>
    simp only [serverStep] at hst
    split at hst
    · simp at hst
    · rename_i x ind max pc hdisp
      obtain ⟨hind, hx, hthr, hscan⟩ := hi.dispOk hdisp
      have hl : ind < SLOTS := by have := hi.num_le; omega
      rw [Option.some.injEq] at hst
      subst hst
      cases pc with
      | test i =>
        simp only [getNumberStep, access_of_lt _ _ _ hscan.1]
        exact h.of_eq rfl rfl (fun _ => rfl) rfl h.served
      | assign i =>
        simp only [getNumberStep, access_of_lt _ _ _ hscan.1]
        exact h.of_eq rfl rfl (fun _ => rfl) rfl h.served
      | reply =>
        simp only [getNumberStep, access_of_lt _ _ _ hl]
        exact h.of_eq rfl rfl (fun _ => rfl) rfl (h.served_setClient (by simp))
      | _ =>
        simp only [getNumberStep, access_of_lt _ _ _ hl]
        exact h.of_eq rfl rfl (fun _ => rfl) rfl h.served
    · rename_i x pid num pc hdisp
      obtain ⟨hx, -⟩ := hi.dispOk hdisp
      obtain ⟨htick, hthr⟩ := hi.clientOk hx
      have hl : pid < SLOTS := hi.slot_lt_slots htick
      rw [Option.some.injEq] at hst
      subst hst
      cases pc with
      | attrInit =>
        simp only [waitStep, access_of_lt _ _ _ hl]
        exact h.of_eq rfl rfl (fun _ => rfl) rfl h.served
      | args =>
        simp only [waitStep, access_of_lt _ _ _ hl]
        refine h.of_eq rfl rfl (fun k => ?_) rfl h.served
        rcases eq_or_ne k pid with rfl | hk
        · simp
        · simp [hk]
      | create =>
        simp only [waitStep, access_of_lt _ _ _ hl]
        exact h.spawn hthr rfl rfl rfl rfl (h.served_setClient (by simp))
    · rename_i x pid num pc hdisp
      have hx : s.client x = .waiting pid num := hi.dispOk hdisp
      have hsome : (s.thr pid).isSome := hi.clientOk hx
      obtain ⟨⟨i, j, tpc⟩, ht⟩ := Option.isSome_iff_exists.mp hsome
      have hl : pid < SLOTS := hi.slot_lt_slots (hi.thread pid _ ht).ticketed
      cases pc with
      | attrDestroy =>
        simp only [serviceStep, access_of_lt _ _ _ hl, Option.some.injEq] at hst
        exact hst ▸ h.of_eq rfl rfl (fun _ => rfl) rfl h.served
      | join =>
        cases tpc <;>
          simp only [serviceStep, ht, access_of_lt _ _ _ hl, Option.some.injEq,
            reduceCtorEq] at hst
        subst hst
        -- the reply carries what the joined thread left in `res[pid]`
        have hletter := h.taken pid ⟨_, ht, rfl⟩
        refine h.of_eq rfl rfl (fun _ => rfl) rfl (h.served_setClient ?_)
        simp only [Client.served.injEq]
        rintro p n r ⟨rfl, -, rfl⟩
        exact hletter
  | thread k =>
    obtain ⟨t, ht, hst⟩ := Option.bind_eq_some_iff.mp hst
    exact h.threadStep hi ht hst

end Run

theorem cursorInv_init : CursorInv (init ι) := by
  refine ⟨fun k hk => ?_, fun k hk => ?_, fun x pid num r hx => ?_, 0, rfl, fun i => ?_⟩
  · have h0 : k = 0 := by
      by_contra hne
      obtain ⟨t, ht, -⟩ := hk.1 0 (Nat.pos_of_ne_zero hne)
      simp [init] at ht
    subst h0
    simp [CursorOk, init, letter]
  · obtain ⟨t, ht, -⟩ := hk
    simp [init] at ht
  · simp [init] at hx
  · simp [Printed, init]

theorem reachable_cursorInv [DecidableEq ι] [Fintype ι] (hcard : Fintype.card ι ≤ SLOTS)
    (h : (server ι).Reachable s) : CursorInv s :=
  (Machine.reachable_rule (M := server ι) (I := fun s => Inv s ∧ CursorInv s)
    ⟨inv_init, cursorInv_init⟩
    (fun _ _ _ hi hst => ⟨hi.1.step (hi.1.fits hcard hst) hst, hi.2.step hi.1 hst⟩) h).2

/-! ## 5. First come, first served -/

/-- The thread has read `c` for its own letter. -/
def Thread.hasTaken (t : Thread) : Bool :=
  match t.pc with
  | .bump _ | .hand _ | .test | .wrap | .print | .clear | .done => true
  | _ => false

/-- **First come, first served.**  In every reachable state: a thread that is at its
`targ->res = c++` or past it found every lower slot cleared, with that slot's letter taken; the
letters printed so far are those of the slots 0, 1, 2, ... in this order; the letter in the
reply to the client of slot `k` is the `k`-th of the cycle; and no two clients are answered for
one slot. -/
theorem first_come_first_served [DecidableEq ι] [Fintype ι] (hcard : Fintype.card ι ≤ 32)
    (h : (server ι).Reachable s) :
    (∀ k t, s.thr k = some t → t.pc = .take ∨ t.hasTaken = true →
      ∀ i < k, Cleared s i ∧ s.number i = 0 ∧ (s.res i).res = letter i) ∧
    (∃ n, s.printed.map (fun l => (l.1, l.2.2)) = (List.range n).map fun k => (k, letter k)) ∧
    (∀ x k num r, s.client x = .served k num r → r = letter k) ∧
    (∀ x y k num num' r r', s.client x = .served k num r → s.client y = .served k num' r' →
      x = y) := by
  have hi := reachable_inv hcard h
  have hc := reachable_cursorInv hcard h
  refine ⟨fun k t hk ht i hik => ?_, ?_, hc.served, fun x y k _ _ _ _ hx hy => ?_⟩
  · have hok := hi.thread k t hk
    have hlt := hi.slot_lt_slots hok.ticketed
    have hpass : t.passed = SLOTS := by
      cases hpc : t.pc <;> simp_all [Thread.hasTaken, Thread.passed]
    have hcl : Cleared s i := hok.passed i hik (by omega)
    exact ⟨hcl, (hi.live i (hi.ticketed_below hok.ticketed hik)).mpr hcl, hc.taken i hcl⟩
  · obtain ⟨n, hn, -⟩ := hc.printed
    exact ⟨n, hn⟩
  · exact hi.distinct x y k (Or.inl (by simp [hx, Client.slot]))
      (Or.inl (by simp [hy, Client.slot]))

theorem first_come_first_served_first :
    ∃ s, (server (Fin 2)).Reachable s ∧ s.client 0 = .served 0 1 (letter 0) := by
  obtain ⟨s, hs, ht⟩ := Machine.reachable_of_run_map (M := server (Fin 2))
    (f := fun s => s.client 0) (b := .served 0 1 97)
    (firstEntry ++ List.replicate 6 (.thread 0) ++ .request 0 :: List.replicate 2 .server)
    (by decide +kernel)
  refine ⟨s, hs, ?_⟩
  rw [← (first_come_first_served (by decide) hs).2.2.1 0 0 1 97 ht]
  exact ht

end OsLabs.Bakery1
