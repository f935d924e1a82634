/-
# bakery1: when the server can get stuck

`bakery_service_1_svc` joins the client's thread inside the only dispatcher thread, and that
thread waits for every lower ticket to be cleared.  If a lower ticket belongs to a client whose
BAKERY_WAIT has not been handled, its thread does not exist, and the dispatcher that would have
to create it is blocked: nobody moves again (`Stuck`).

This is the only way to get stuck.  `PunctualService` is the condition on the order of the
requests: BAKERY_SERVICE for a slot is taken up only after BAKERY_WAIT was handled for every
lower slot.  `servable_iff_punctual`: in a run all clients can be served from every state
exactly when all steps meet the condition.

The proof that they can is a schedule.  A thread whose lower slots are cleared finishes when it
runs alone (`threadRank`), so the threads up to the joined one finish in slot order; the
dispatcher then finishes its call; and between calls the client to go on with is one without a
ticket, else one without a thread, else any.
-/
import Mathlib.Algebra.BigOperators.Group.Finset.Basic
import Mathlib.Algebra.Order.BigOperators.Group.Finset
import OsLabs.Bakery1.Order

namespace OsLabs.Bakery1

open Bakery

variable {ι : Type} {s s' : State ι} {i j k m : Nat} {t t' : Thread}

/-! ## 1. `choosing`, and joins that can succeed -/

/-- The entry of `choosing` that is set. -/
def Dispatcher.chooses : Dispatcher ι → Option Nat
  | .getNumber _ ind _ pc =>
    match pc with
    | .choose | .reply => none
    | _ => some ind
  | _ => none

/-- The call in progress, if it is a BAKERY_SERVICE, is for a slot below which every thread has
been created. -/
def Joinable (s : State ι) : Prop :=
  ∀ x pid num pc, s.disp = .service x pid num pc → ∀ i < pid, (s.thr i).isSome

/-- What holds as long as every BAKERY_SERVICE is punctual. -/
structure Good (s : State ι) : Prop where
  inv : Inv s
  choosing : ∀ j, s.choosing j ≠ 0 → s.disp.chooses = some j
  joinable : Joinable s

/-- The step does not take up a BAKERY_SERVICE before BAKERY_WAIT was handled for every lower
slot. -/
def PunctualService (s : State ι) : Action ι → Prop
  | .request x => ∀ pid num, s.client x = .waiting pid num → ∀ i < pid, (s.thr i).isSome
  | _ => True

/-- Every client can still receive its letter. -/
def Servable [DecidableEq ι] (s : State ι) : Prop :=
  ∃ t, (server ι).Reaches s t ∧ ∀ x, ∃ pid num r, t.client x = .served pid num r

section Steps

variable [DecidableEq ι]

theorem reaches_step {a : Action ι} (h : step s a = some s') : (server ι).Reaches s s' :=
  Machine.Reaches.step (M := server ι) h

theorem step_request (h : s.fault = none) (x : ι) : step s (.request x) = request s x := by
  simp [step, h]

theorem step_server (h : s.fault = none) : step s .server = serverStep s := by
  simp [step, h]

theorem step_thread (h : s.fault = none) (hk : s.thr k = some t) :
    step s (.thread k) = threadStep s k t := by
  simp [step, h, hk]

/-- What a step of thread `k` leaves alone. -/
structure ThreadFrame (k : Nat) (s s' : State ι) : Prop where
  disp : s'.disp = s.disp
  client : s'.client = s.client
  choosing : s'.choosing = s.choosing
  thr : ∀ m, m ≠ k → s'.thr m = s.thr m
  some : (s'.thr k).isSome

omit [DecidableEq ι] in
theorem ThreadFrame.isSome (h : ThreadFrame k s s') (hm : (s.thr m).isSome) :
    (s'.thr m).isSome := by
  rcases eq_or_ne m k with rfl | hmk
  · exact h.some
  · exact h.thr m hmk ▸ hm

omit [DecidableEq ι] in
theorem threadFrame_of_threadStep (h : Inv s) (hk : s.thr k = some t)
    (hst : threadStep s k t = some s') : ThreadFrame k s s' := by
  have hok := h.thread k t hk
  have hkl : k < SLOTS := h.slot_lt_slots hok.ticketed
  have hj := hok.j_lt
  have hset : ∀ (r : State ι) (u : Thread), r.disp = s.disp → r.client = s.client →
      r.choosing = s.choosing → r.thr = s.thr → ThreadFrame k s (r.setThread k u) := by
    intro r u h1 h2 h3 h4
    exact ⟨h1, h2, h3, fun m hm => by simp [State.setThread, hm, h4], by simp [State.setThread]⟩
  cases hpc : t.pc <;> simp only [threadStep, hpc, Option.some.injEq, reduceCtorEq] at hst
  case lessThan | equalTo | clear =>
    rw [hok.i_eq (by simp [hpc]), access_of_lt _ _ _ hkl] at hst
    exact hst ▸ hset _ _ rfl rfl rfl rfl
  case take | bump | test | wrap => exact hst ▸ hset _ _ rfl rfl rfl rfl
  case entry | hand | print =>
    rw [access_of_lt _ _ _ hkl] at hst
    exact hst ▸ hset _ _ rfl rfl rfl rfl
  case choosing | nonzero | less | equal =>
    rw [access_of_lt _ _ _ hj] at hst
    exact hst ▸ hset _ _ rfl rfl rfl rfl

theorem waitStep_choosing (s : State ι) (x : ι) (pid num : Nat) (pc : WaitPc) :
    (waitStep s x pid num pc).choosing = s.choosing := by
  cases pc <;> simp only [waitStep, State.access] <;> split <;> rfl

theorem serviceStep_choosing {x : ι} {pid num : Nat} {pc : ServicePc}
    (h : serviceStep s x pid num pc = some s') : s'.choosing = s.choosing := by
  cases pc with
  | attrDestroy =>
    simp only [serviceStep, State.access, Option.some.injEq] at h
    subst h
    split <;> rfl
  | join =>
    simp only [serviceStep, State.access] at h
    split at h
    · rw [Option.some.injEq] at h
      subst h
      split <;> rfl
    · simp at h

/-- While `get_number_1_svc` runs, `choosing` can be set for its slot alone. -/
theorem getNumberStep_choosing (hi : Inv s) {x : ι} {ind max : Nat} {pc : GetPc}
    (hdisp : s.disp = .getNumber x ind max pc)
    (h : ∀ j, s.choosing j ≠ 0 → s.disp.chooses = some j) :
    ∀ j, (getNumberStep s x ind max pc).choosing j ≠ 0 →
      (getNumberStep s x ind max pc).disp.chooses = some j := by
  obtain ⟨hind, hx, hthr, hscan⟩ := hi.dispOk hdisp
  have hl : ind < SLOTS := by have := hi.num_le; omega
  have hzero : ∀ j, j ≠ ind → s.choosing j = 0 := by
    intro j hj
    by_contra hne
    have hch := h j hne
    rw [hdisp] at hch
    cases pc <;> simp [Dispatcher.chooses, Ne.symm hj] at hch
  have hslot : ∀ j, s.choosing j ≠ 0 → j = ind := fun j hj => by
    by_contra hne
    exact hj (hzero j hne)
  have hscan' : ∀ i y max', (Dispatcher.getNumber y ind max' (scanNext i) :
      Dispatcher ι).chooses = some ind := by
    intro i y max'
    unfold scanNext
    split <;> rfl
  intro j hj
  cases pc with
  | choose =>
    simp only [getNumberStep, access_of_lt _ _ _ hl] at hj ⊢
    rcases eq_or_ne j ind with rfl | hne
    · exact hscan' _ _ _
    · exact absurd (hzero j hne) (by simpa [hne] using hj)
  | test i =>
    simp only [getNumberStep, access_of_lt _ _ _ hscan.1] at hj ⊢
    split
    · simp [Dispatcher.chooses, hslot j hj]
    · exact hslot j hj ▸ hscan' (i + 1) x max
  | assign i =>
    simp only [getNumberStep, access_of_lt _ _ _ hscan.1] at hj ⊢
    exact hslot j hj ▸ hscan' (i + 1) x (s.number i)
  | store =>
    simp only [getNumberStep, access_of_lt _ _ _ hl] at hj ⊢
    simpa [hdisp, Dispatcher.chooses] using h j hj
  | argNum =>
    simp only [getNumberStep, access_of_lt _ _ _ hl] at hj ⊢
    simpa [hdisp, Dispatcher.chooses] using h j hj
  | unchoose =>
    simp only [getNumberStep, access_of_lt _ _ _ hl] at hj
    rcases eq_or_ne j ind with rfl | hne
    · simp at hj
    · exact absurd (hzero j hne) (by simpa [hne] using hj)
  | reply =>
    simp only [getNumberStep, access_of_lt _ _ _ hl] at hj
    have hch := h j hj
    simp [hdisp, Dispatcher.chooses] at hch

/-- `choosing` is written by `get_number_1_svc` alone. -/
theorem choosing_step (hi : Inv s) (h : ∀ j, s.choosing j ≠ 0 → s.disp.chooses = some j)
    {a : Action ι} (hst : step s a = some s') :
    ∀ j, s'.choosing j ≠ 0 → s'.disp.chooses = some j := by
  cases a with
  | request x =>
    have hnone : ∀ j, s.choosing j ≠ 0 → s.disp ≠ .idle := by
      intro j hj hd
      have hch := h j hj
      simp [hd, Dispatcher.chooses] at hch
    rw [step_request hi.fault, request] at hst
    intro j hj
    split at hst <;> simp only [Option.some.injEq, reduceCtorEq] at hst <;> subst hst <;>
      exact absurd ‹s.disp = .idle› (hnone j hj)
  | server =>
    rw [step_server hi.fault] at hst
    simp only [serverStep] at hst
    split at hst
    · simp at hst
    · rename_i x ind max pc hdisp
      rw [Option.some.injEq] at hst
      exact hst ▸ getNumberStep_choosing hi hdisp h
    · rename_i x pid num pc hdisp
      rw [Option.some.injEq] at hst
      subst hst
      intro j hj
      rw [waitStep_choosing] at hj
      have hch := h j hj
      simp [hdisp, Dispatcher.chooses] at hch
    · rename_i x pid num pc hdisp
      intro j hj
      rw [serviceStep_choosing hst] at hj
      have hch := h j hj
      simp [hdisp, Dispatcher.chooses] at hch
  | thread k =>
    simp only [step, hi.fault, Option.isSome_none, Bool.false_eq_true, if_false] at hst
    obtain ⟨t, ht, hst⟩ := Option.bind_eq_some_iff.mp hst
    have hf := threadFrame_of_threadStep hi ht hst
    rw [hf.choosing, hf.disp]
    exact h

/-- The dispatcher never forgets a thread, and comes to a BAKERY_SERVICE only by a request. -/
theorem serverStep_frame (h : serverStep s = some s') :
    (∀ m, (s.thr m).isSome → (s'.thr m).isSome) ∧
      ∀ x pid num pc, s'.disp = .service x pid num pc → ∃ pc', s.disp = .service x pid num pc' := by
  simp only [serverStep] at h
  split at h
  · simp at h
  · rename_i x ind max pc hdisp
    rw [Option.some.injEq] at h
    subst h
    cases pc <;> simp only [getNumberStep, State.access] <;> split <;>
      simp [State.setClient, hdisp]
  · rename_i x pid num pc hdisp
    rw [Option.some.injEq] at h
    subst h
    cases pc with
    | attrInit => simp only [waitStep, State.access]; split <;> simp [hdisp]
    | args => simp only [waitStep, State.access]; split <;> simp [hdisp]
    | create =>
      simp only [waitStep, State.access]
      split
      · refine ⟨fun m hm => ?_, by simp [State.setClient, State.setThread]⟩
        rcases eq_or_ne m pid with rfl | hne
        · simp [State.setClient, State.setThread]
        · simpa [State.setClient, State.setThread, hne] using hm
      · simp [hdisp]
  · rename_i x pid num pc hdisp
    cases pc with
    | attrDestroy =>
      simp only [serviceStep, State.access, Option.some.injEq] at h
      subst h
      split
      · exact ⟨fun _ => id, fun y p n pc h => ⟨.attrDestroy, by
          simp only [Dispatcher.service.injEq] at h
          obtain ⟨rfl, rfl, rfl, -⟩ := h
          exact hdisp⟩⟩
      · exact ⟨fun _ => id, fun y p n pc h => ⟨pc, h⟩⟩
    | join =>
      simp only [serviceStep, State.access] at h
      split at h
      · rw [Option.some.injEq] at h
        subst h
        split
        · exact ⟨fun _ => id, by simp [State.setClient]⟩
        · exact ⟨fun _ => id, fun y p n pc h => ⟨pc, h⟩⟩
      · simp at h

/-- Created threads are never forgotten. -/
theorem isSome_step (hi : Inv s) {a : Action ι} (hst : step s a = some s')
    (hm : (s.thr m).isSome) : (s'.thr m).isSome := by
  cases a with
  | request x =>
    rw [step_request hi.fault, request] at hst
    split at hst <;> simp only [Option.some.injEq, reduceCtorEq] at hst <;> exact hst ▸ hm
  | server =>
    rw [step_server hi.fault] at hst
    exact (serverStep_frame hst).1 m hm
  | thread k =>
    simp only [step, hi.fault, Option.isSome_none, Bool.false_eq_true, if_false] at hst
    obtain ⟨t, ht, hst⟩ := Option.bind_eq_some_iff.mp hst
    exact (threadFrame_of_threadStep hi ht hst).isSome hm

theorem joinable_step (hi : Inv s) (h : Joinable s) {a : Action ι} (hp : PunctualService s a)
    (hst : step s a = some s') : Joinable s' := by
  intro y p n q hd i hip
  refine isSome_step hi hst ?_
  cases a with
  | request x =>
    rw [step_request hi.fault, request] at hst
    split at hst <;> simp only [Option.some.injEq, reduceCtorEq] at hst <;> subst hst
    · simp at hd
    · simp at hd
    · rename_i pid num hidle hx
      simp only [Dispatcher.service.injEq] at hd
      obtain ⟨-, rfl, -⟩ := hd
      exact hp pid num hx i hip
  | server =>
    rw [step_server hi.fault] at hst
    obtain ⟨q', hq⟩ := (serverStep_frame hst).2 y p n q hd
    exact h y p n q' hq i hip
  | thread k =>
    simp only [step, hi.fault, Option.isSome_none, Bool.false_eq_true, if_false] at hst
    obtain ⟨t, ht, hst⟩ := Option.bind_eq_some_iff.mp hst
    have hf := threadFrame_of_threadStep hi ht hst
    exact h y p n q (hf.disp ▸ hd) i hip

/-- **A punctual step keeps the server good.** -/
theorem Good.step (h : Good s) {a : Action ι} (hfit : Fits s a) (hp : PunctualService s a)
    (hst : step s a = some s') : Good s' :=
  ⟨h.inv.step hfit hst, choosing_step h.inv h.choosing hst,
    joinable_step h.inv h.joinable hp hst⟩

/-! ## 2. One thread, running alone -/

/-- How many accesses are left of iteration `j`, at most. -/
def iterRank (number : Nat → Nat) (k j : Nat) : Pc → Nat
  | .choosing => 14
  | .nonzero => 10
  | .less => if number j < number k then 12 else 9
  | .lessThan a => if a < number k then 11 else 8
  | .equal => 7
  | .equalTo a => if a = number k ∧ j < k then 11 else 6
  | _ => 0

/-- How many accesses are left to the thread of slot `k`, at most, while every lower slot is
cleared and nothing else moves. -/
def threadRank (s : State ι) (k : Nat) (t : Thread) : Nat :=
  match t.pc with
  | .entry => 20 * (SLOTS + 2)
  | .take => 7
  | .bump _ => 6
  | .hand _ => 5
  | .test => 4
  | .wrap => 3
  | .print => 2
  | .clear => 1
  | .done => 0
  | pc => 20 * (SLOTS - t.j) + iterRank s.number k t.j pc

omit [DecidableEq ι] in
theorem threadRank_next {B : Nat} (r : State ι) (hj : t.j < SLOTS)
    (hB : 20 * (SLOTS - t.j) + 6 ≤ B) : threadRank r k t.next < B := by
  unfold Thread.next
  split
  · simp only [threadRank, iterRank]
    omega
  · simp only [threadRank]
    omega

/-- **A thread whose lower slots are cleared is never held up.**  A lower slot holds 0 now, so
the thread leaves it at the next look; a higher live slot holds a larger number. -/
theorem thread_progress (h : Good s) (hk : s.thr k = some t) (hd : t.pc ≠ .done)
    (hlow : ∀ i < k, Cleared s i) (hch : s.disp.chooses = none) :
    ∃ s' t', step s (.thread k) = some s' ∧ s'.thr k = some t' ∧
      threadRank s' k t' < threadRank s k t := by
  have hi := h.inv
  have hok := hi.thread k t hk
  have hkl : k < SLOTS := hi.slot_lt_slots hok.ticketed
  have hj := hok.j_lt
  have hzero : ∀ i < k, s.number i = 0 := fun i hik =>
    (hi.live i (hi.ticketed_below hok.ticketed hik)).mpr (hlow i hik)
  have hkne := hi.number_ne hk hd
  have habove : ∀ j, s.number j ≠ 0 → s.number k ≤ s.number j := by
    intro j hne
    rcases Nat.lt_trichotomy j k with hlt | rfl | hgt
    · exact absurd (hzero j hlt) hne
    · exact Nat.le_refl _
    · exact Nat.le_of_lt (hi.increasing k j hgt hkne hne)
  have hset : ∀ (r : State ι) (u : Thread), threadStep s k t = some (r.setThread k u) →
      threadRank r k u < threadRank s k t →
      ∃ s' t', step s (.thread k) = some s' ∧ s'.thr k = some t' ∧
        threadRank s' k t' < threadRank s k t := by
    intro r u hst hr
    exact ⟨_, u, (step_thread hi.fault hk).trans hst, by simp [State.setThread], hr⟩
  cases hpc : t.pc with
  | done => exact absurd hpc hd
  | entry =>
    refine hset s _ (by rw [threadStep, hpc]; simp only [access_of_lt _ _ _ hkl]; rfl) ?_
    simp only [threadRank, iterRank, hpc, SLOTS]
    omega
  | choosing =>
    have hc : s.choosing t.j = 0 := by
      by_contra hne
      have := h.choosing t.j hne
      simp [hch] at this
    refine hset s { t with pc := .nonzero } ?_ ?_
    · simp [threadStep, hpc, access_of_lt _ _ _ hj, hc]
    · simp [threadRank, iterRank, hpc]
  | nonzero =>
    by_cases h0 : s.number t.j = 0
    · refine hset s t.next (by simp [threadStep, hpc, access_of_lt _ _ _ hj, h0]) ?_
      refine threadRank_next s hj ?_
      simp only [threadRank, iterRank, hpc]
      omega
    · have hle := habove t.j h0
      refine hset s { t with pc := .less } (by simp [threadStep, hpc, access_of_lt _ _ _ hj, h0]) ?_
      simp only [threadRank, iterRank, hpc, if_neg (Nat.not_lt.mpr hle)]
      omega
  | less =>
    refine hset s { t with pc := .lessThan (s.number t.j) }
      (by simp [threadStep, hpc, access_of_lt _ _ _ hj]) ?_
    simp only [threadRank, iterRank, hpc]
    split <;> omega
  | lessThan a =>
    have hti := hok.i_eq (by simp [hpc])
    refine hset s { t with pc := if a < s.number k then .nonzero else .equal }
      (by simp [threadStep, hpc, hti, access_of_lt _ _ _ hkl]) ?_
    split
    · rename_i hlt
      simp only [threadRank, iterRank, hpc, if_pos hlt]
      omega
    · rename_i hge
      simp only [threadRank, iterRank, hpc, if_neg hge]
      omega
  | equal =>
    refine hset s { t with pc := .equalTo (s.number t.j) }
      (by simp [threadStep, hpc, access_of_lt _ _ _ hj]) ?_
    have hne : ¬ (s.number t.j = s.number k ∧ t.j < k) := by
      rintro ⟨heq, hlt⟩
      exact hkne (heq ▸ hzero t.j hlt)
    simp only [threadRank, iterRank, hpc, if_neg hne]
    omega
  | equalTo a =>
    have hti := hok.i_eq (by simp [hpc])
    by_cases hback : a = s.number k ∧ t.j < k
    · refine hset s { t with pc := .nonzero }
        (by simp [threadStep, hpc, hti, access_of_lt _ _ _ hkl, hback]) ?_
      simp only [threadRank, iterRank, hpc, if_pos hback]
      omega
    · refine hset s t.next (by simp only [threadStep, hpc, hti, access_of_lt _ _ _ hkl,
        if_neg hback]) ?_
      refine threadRank_next s hj ?_
      simp only [threadRank, iterRank, hpc, if_neg hback]
      omega
  | take =>
    refine hset s _ (by simp only [threadStep, hpc]; rfl) ?_
    simp [threadRank, hpc]
  | bump v =>
    refine hset _ _ (by simp only [threadStep, hpc]; rfl) ?_
    simp [threadRank, hpc]
  | hand v =>
    refine hset _ _ (by simp only [threadStep, hpc, access_of_lt _ _ _ hkl]; rfl) ?_
    simp [threadRank, hpc]
  | test =>
    refine hset s _ (by simp only [threadStep, hpc]; rfl) ?_
    split <;> simp [threadRank, hpc]
  | wrap =>
    refine hset _ _ (by simp only [threadStep, hpc]; rfl) ?_
    simp [threadRank, hpc]
  | print =>
    refine hset _ _ (by simp only [threadStep, hpc, access_of_lt _ _ _ hkl]; rfl) ?_
    simp [threadRank, hpc]
  | clear =>
    have hti := hok.i_eq (by simp [hpc])
    refine hset _ _ (by simp only [threadStep, hpc, hti, access_of_lt _ _ _ hkl]; rfl) ?_
    simp [threadRank, hpc]

omit [DecidableEq ι] in
theorem ThreadFrame.trans {r : State ι} (h : ThreadFrame k s s') (h' : ThreadFrame k s' r) :
    ThreadFrame k s r :=
  ⟨h'.disp.trans h.disp, h'.client.trans h.client, h'.choosing.trans h.choosing,
    fun m hm => (h'.thr m hm).trans (h.thr m hm), h'.some⟩

/-- Run alone, a thread whose lower slots are cleared clears its own. -/
theorem clear_thread (h : Good s)
    (hk : (s.thr k).isSome) (hlow : ∀ i < k, Cleared s i) (hch : s.disp.chooses = none) :
    ∃ s', (server ι).Reaches s s' ∧ Good s' ∧ Cleared s' k ∧ ThreadFrame k s s' := by
  obtain ⟨r, hr, ⟨hg, hf⟩, hcl⟩ := Machine.reaches_of_measure (M := server ι)
    (I := fun r => Good r ∧ ThreadFrame k s r)
    (G := fun r => Cleared r k) (fun r => (r.thr k).elim 0 (threadRank r k))
    (fun r ⟨hg, hf⟩ hnc => by
      obtain ⟨t, ht⟩ := Option.isSome_iff_exists.mp hf.some
      have hd : t.pc ≠ .done := fun hd => hnc ⟨t, ht, hd⟩
      have hlow' : ∀ i < k, Cleared r i := fun i hik => by
        obtain ⟨u, hu, hud⟩ := hlow i hik
        exact ⟨u, (hf.thr i (by omega)).trans hu, hud⟩
      obtain ⟨r', t', hst, ht', hlt⟩ := thread_progress hg ht hd hlow' (hf.disp ▸ hch)
      have hf' := threadFrame_of_threadStep hg.inv ht ((step_thread hg.inv.fault ht).symm.trans hst)
      exact ⟨r', reaches_step hst, ⟨hg.step (a := .thread k) trivial trivial hst, hf.trans hf'⟩, by
        simpa [ht, ht'] using hlt⟩)
    s ⟨h, rfl, rfl, rfl, fun _ _ => rfl, hk⟩
  exact ⟨r, hr, hg, hcl, hf⟩

/-- The threads of the lowest `n` slots, all created, clear them in slot order. -/
theorem clear_threads (h : Good s)
    (hch : s.disp.chooses = none) :
    ∀ n, (∀ i < n, (s.thr i).isSome) →
      ∃ s', (server ι).Reaches s s' ∧ Good s' ∧ (∀ i < n, Cleared s' i) ∧ s'.disp = s.disp ∧
        s'.client = s.client ∧ ∀ m, (s.thr m).isSome → (s'.thr m).isSome := by
  intro n
  induction n with
  | zero =>
    intro _
    exact ⟨s, Machine.Reaches.refl s, h, fun _ hi => absurd hi (Nat.not_lt_zero _), rfl, rfl,
      fun _ => id⟩
  | succ n ih =>
    intro hn
    obtain ⟨r, hr, hg, hcl, hd, hc, hm⟩ := ih fun i hi => hn i (Nat.lt_succ_of_lt hi)
    obtain ⟨r', hr', hg', hcl', hf⟩ :=
      clear_thread hg (hm n (hn n (Nat.lt_succ_self n))) hcl (hd ▸ hch)
    refine ⟨r', hr.trans hr', hg', fun i hi => ?_, hf.disp.trans hd, hf.client.trans hc,
      fun m hsome => hf.isSome (hm m hsome)⟩
    rcases Nat.lt_or_eq_of_le (Nat.le_of_lt_succ hi) with hlt | rfl
    · obtain ⟨u, hu, hud⟩ := hcl i hlt
      exact ⟨u, (hf.thr i (by omega)).trans hu, hud⟩
    · exact hcl'

/-! ## 3. One call, to its reply -/

/-- How many accesses of `get_number_1_svc` are left before the last, at most. -/
def getRank : GetPc → Nat
  | .choose => 2 * SLOTS + 4
  | .test i => 2 * (SLOTS - i) + 3
  | .assign i => 2 * (SLOTS - i) + 2
  | .store => 3
  | .argNum => 2
  | .unchoose => 1
  | .reply => 0

theorem getRank_scanNext (hi : i < SLOTS) : getRank (scanNext (i + 1)) < 2 * (SLOTS - i) + 2 := by
  unfold scanNext
  split
  · simp only [getRank]
    omega
  · simp only [getRank]
    omega

/-- `get_number_1_svc` runs to its reply by itself. -/
theorem finish_getNumber (h : Good s) {x : ι}
    {ind max : Nat} {pc : GetPc} (hdisp : s.disp = .getNumber x ind max pc) :
    ∃ s' num, (server ι).Reaches s s' ∧ Good s' ∧ s'.disp = .idle ∧
      s'.client = Function.update s.client x (.ticket ind num) ∧ s'.thr = s.thr := by
  obtain ⟨r, hr, ⟨hg, hc, ht, max', pc', hd⟩, hgoal⟩ :=
    Machine.reaches_of_measure (M := server ι)
      (I := fun r => Good r ∧ r.client = s.client ∧ r.thr = s.thr ∧
        ∃ max' pc', r.disp = .getNumber x ind max' pc')
      (G := fun r => ∃ max', r.disp = .getNumber x ind max' .reply)
      (fun r => match r.disp with
        | .getNumber _ _ _ pc => getRank pc
        | _ => 0)
      (fun r ⟨hg, hc, ht, max', pc', hd⟩ hng => by
        obtain ⟨hind, hx, hthr, hscan⟩ := hg.inv.dispOk hd
        have hl : ind < SLOTS := by have := hg.inv.num_le; omega
        have hst : step r .server = some (getNumberStep r x ind max' pc') := by
          rw [step_server hg.inv.fault, serverStep, hd]
        refine ⟨_, reaches_step hst, ⟨hg.step (a := .server) trivial trivial hst, ?_⟩, ?_⟩
        · cases pc' with
          | reply => exact absurd ⟨max', hd⟩ hng
          | test i =>
            simp only [getNumberStep, access_of_lt _ _ _ hscan.1]
            exact ⟨hc, ht, _, _, rfl⟩
          | assign i =>
            simp only [getNumberStep, access_of_lt _ _ _ hscan.1]
            exact ⟨hc, ht, _, _, rfl⟩
          | _ =>
            simp only [getNumberStep, access_of_lt _ _ _ hl]
            exact ⟨hc, ht, _, _, rfl⟩
        · cases pc' with
          | reply => exact absurd ⟨max', hd⟩ hng
          | test i =>
            have hlt := getRank_scanNext hscan.1
            simp only [getNumberStep, access_of_lt _ _ _ hscan.1, hd]
            split
            · exact Nat.lt_succ_self _
            · exact Nat.lt_succ_of_lt hlt
          | assign i =>
            have hlt := getRank_scanNext hscan.1
            simp only [getNumberStep, access_of_lt _ _ _ hscan.1, hd]
            exact hlt
          | choose =>
            simp only [getNumberStep, access_of_lt _ _ _ hl, hd]
            decide
          | _ =>
            simp only [getNumberStep, access_of_lt _ _ _ hl, hd, getRank]
            decide)
      s ⟨h, rfl, rfl, max, pc, hdisp⟩
  obtain ⟨max'', hrep⟩ := hgoal
  obtain ⟨hind, -, -, -⟩ := hg.inv.dispOk hrep
  have hl : ind < SLOTS := by have := hg.inv.num_le; omega
  have hst : step r .server =
      some ({ r with disp := .idle }.setClient x (.ticket ind (r.number ind))) := by
    rw [step_server hg.inv.fault, serverStep, hrep]
    simp only [getNumberStep, access_of_lt _ _ _ hl]
  exact ⟨_, r.number ind, hr.trans (reaches_step hst),
    hg.step (a := .server) trivial trivial hst, rfl, by simp [State.setClient, hc], ht⟩

/-- `bakery_wait_1_svc` runs to its reply by itself. -/
theorem finish_wait (h : Good s) {x : ι}
    {pid num : Nat} {pc : WaitPc} (hdisp : s.disp = .wait x pid num pc) :
    ∃ s', (server ι).Reaches s s' ∧ Good s' ∧ s'.disp = .idle ∧
      s'.client = Function.update s.client x (.waiting pid num) := by
  have one : ∀ (r : State ι) (pc : WaitPc), Good r → r.disp = .wait x pid num pc →
      step r .server = some (waitStep r x pid num pc) ∧ pid < SLOTS := by
    intro r pc hg hd
    obtain ⟨hx, -⟩ := hg.inv.dispOk hd
    obtain ⟨htick, -⟩ := hg.inv.clientOk hx
    exact ⟨by rw [step_server hg.inv.fault, serverStep, hd], hg.inv.slot_lt_slots htick⟩
  -- from each position the rest of the handler is one, two or three steps
  have create : ∀ r : State ι, Good r → r.disp = .wait x pid num .create →
      r.client = s.client → ∃ s', (server ι).Reaches r s' ∧ Good s' ∧ s'.disp = .idle ∧
        s'.client = Function.update s.client x (.waiting pid num) := by
    intro r hg hd hc
    obtain ⟨hst, hl⟩ := one r .create hg hd
    simp only [waitStep, access_of_lt _ _ _ hl] at hst
    exact ⟨_, reaches_step hst, hg.step (a := .server) trivial trivial hst, rfl,
      by simp [State.setClient, State.setThread, hc]⟩
  have args : ∀ r : State ι, Good r → r.disp = .wait x pid num .args →
      r.client = s.client → ∃ s', (server ι).Reaches r s' ∧ Good s' ∧ s'.disp = .idle ∧
        s'.client = Function.update s.client x (.waiting pid num) := by
    intro r hg hd hc
    obtain ⟨hst, hl⟩ := one r .args hg hd
    simp only [waitStep, access_of_lt _ _ _ hl] at hst
    obtain ⟨s', hr, hrest⟩ := create _ (hg.step (a := .server) trivial trivial hst) rfl hc
    exact ⟨s', (reaches_step hst).trans hr, hrest⟩
  cases pc with
  | attrInit =>
    obtain ⟨hst, hl⟩ := one s .attrInit h hdisp
    simp only [waitStep, access_of_lt _ _ _ hl] at hst
    obtain ⟨s', hr, hrest⟩ := args _ (h.step (a := .server) trivial trivial hst) rfl rfl
    exact ⟨s', (reaches_step hst).trans hr, hrest⟩
  | args => exact args s h hdisp rfl
  | create => exact create s h hdisp rfl

/-- `bakery_service_1_svc` gets its thread joined: every thread up to it exists, so they all
finish. -/
theorem finish_service (h : Good s) {x : ι}
    {pid num : Nat} {pc : ServicePc} (hdisp : s.disp = .service x pid num pc) :
    ∃ s' res, (server ι).Reaches s s' ∧ Good s' ∧ s'.disp = .idle ∧
      s'.client = Function.update s.client x (.served pid num res) := by
  have facts : ∀ (r : State ι) (pc : ServicePc), Good r → r.disp = .service x pid num pc →
      (r.thr pid).isSome ∧ pid < SLOTS := by
    intro r pc hg hd
    have hx : r.client x = .waiting pid num := hg.inv.dispOk hd
    have hsome : (r.thr pid).isSome := hg.inv.clientOk hx
    obtain ⟨t, ht⟩ := Option.isSome_iff_exists.mp hsome
    exact ⟨hsome, hg.inv.slot_lt_slots (hg.inv.thread pid t ht).ticketed⟩
  have join : ∀ r : State ι, Good r → r.disp = .service x pid num .join →
      r.client = s.client → ∃ s' res, (server ι).Reaches r s' ∧ Good s' ∧ s'.disp = .idle ∧
        s'.client = Function.update s.client x (.served pid num res) := by
    intro r hg hd hc
    obtain ⟨hsome, hl⟩ := facts r .join hg hd
    have hall : ∀ i < pid + 1, (r.thr i).isSome := by
      intro i hi
      rcases Nat.lt_or_eq_of_le (Nat.le_of_lt_succ hi) with hlt | rfl
      · exact hg.joinable x pid num .join hd i hlt
      · exact hsome
    obtain ⟨r', hr, hg', hcl, hd', hc', -⟩ :=
      clear_threads hg (by simp [hd, Dispatcher.chooses]) (pid + 1) hall
    obtain ⟨⟨i, j, pc⟩, ht, hpc⟩ := hcl pid (Nat.lt_succ_self pid)
    simp only at hpc
    subst hpc
    have hst : step r' .server =
        some ({ r' with disp := .idle }.setClient x (.served pid num (r'.res pid).res)) := by
      rw [step_server hg'.inv.fault, serverStep, hd', hd]
      simp only [serviceStep, ht, access_of_lt _ _ _ hl]
    exact ⟨_, _, hr.trans (reaches_step hst), hg'.step (a := .server) trivial trivial hst, rfl,
      by simp [State.setClient, hc', hc]; rfl⟩
  cases pc with
  | attrDestroy =>
    obtain ⟨-, hl⟩ := facts s .attrDestroy h hdisp
    have hst : step s .server = some { s with disp := .service x pid num .join } := by
      rw [step_server h.inv.fault, serverStep, hdisp]
      simp only [serviceStep, access_of_lt _ _ _ hl]
    obtain ⟨s', res, hr, hrest⟩ := join _ (h.step (a := .server) trivial trivial hst) rfl rfl
    exact ⟨s', res, (reaches_step hst).trans hr, hrest⟩
  | join => exact join s h hdisp rfl

/-! ## 4. Every client, to its letter -/

/-- The number of replies a client still waits for. -/
def Client.calls : Client → Nat
  | .fresh => 3
  | .ticket _ _ => 2
  | .waiting _ _ => 1
  | .served _ _ _ => 0

theorem calls_update [Fintype ι] {f : ι → Client} {x : ι} {cl : Client}
    (h : cl.calls < (f x).calls) :
    ∑ y, (Function.update f x cl y).calls < ∑ y, (f y).calls := by
  refine Finset.sum_lt_sum (fun y _ => ?_) ⟨x, Finset.mem_univ x, by simpa using h⟩
  rcases eq_or_ne y x with rfl | hyx
  · simpa using Nat.le_of_lt h
  · simp [hyx]

/-- **A call in progress gets its reply.** -/
theorem finish_call [Fintype ι] (h : Good s) (hbusy : s.disp ≠ .idle) :
    ∃ s', (server ι).Reaches s s' ∧ Good s' ∧
      ∑ y, (s'.client y).calls < ∑ y, (s.client y).calls := by
  cases hdisp : s.disp with
  | idle => exact absurd hdisp hbusy
  | getNumber x ind max pc =>
    obtain ⟨s', num, hr, hg, -, hc, -⟩ := finish_getNumber h hdisp
    obtain ⟨-, hx, -, -⟩ := h.inv.dispOk hdisp
    exact ⟨s', hr, hg, hc ▸ calls_update (by simp [hx, Client.calls])⟩
  | wait x pid num pc =>
    obtain ⟨s', hr, hg, -, hc⟩ := finish_wait h hdisp
    obtain ⟨hx, -⟩ := h.inv.dispOk hdisp
    exact ⟨s', hr, hg, hc ▸ calls_update (by simp [hx, Client.calls])⟩
  | service x pid num pc =>
    obtain ⟨s', res, hr, hg, -, hc⟩ := finish_service h hdisp
    have hx : s.client x = .waiting pid num := h.inv.dispOk hdisp
    exact ⟨s', hr, hg, hc ▸ calls_update (by simp [hx, Client.calls])⟩

/-- **Between calls there is a client to go on with**: one without a ticket, else one without
a thread; and when every client has its thread, BAKERY_SERVICE is punctual for any. -/
theorem next_client [Fintype ι] (h : Good s) (hidle : s.disp = .idle)
    (hns : ¬ ∀ x, ∃ pid num r, s.client x = .served pid num r) :
    ∃ x s', PunctualService s (.request x) ∧ step s (.request x) = some s' ∧
      s'.disp ≠ .idle ∧ s'.client = s.client := by
  by_cases hf : ∃ x, s.client x = .fresh
  · obtain ⟨x, hx⟩ := hf
    exact ⟨x, { s with num := s.num + 1, disp := .getNumber x s.num 0 .choose },
      fun pid num hw => by simp [hx] at hw,
      by rw [step_request h.inv.fault, request, hidle, hx], by simp, rfl⟩
  by_cases ht : ∃ x pid num, s.client x = .ticket pid num
  · obtain ⟨x, pid, num, hx⟩ := ht
    exact ⟨x, { s with disp := .wait x pid num .attrInit }, fun pid num hw => by simp [hx] at hw,
      by rw [step_request h.inv.fault, request, hidle, hx], by simp, rfl⟩
  · rw [not_forall] at hns
    obtain ⟨x, hx⟩ := hns
    obtain ⟨pid, num, hw⟩ : ∃ pid num, s.client x = .waiting pid num := by
      cases hc : s.client x with
      | fresh => exact absurd ⟨x, hc⟩ hf
      | ticket pid num => exact absurd ⟨x, pid, num, hc⟩ ht
      | waiting pid num => exact ⟨pid, num, rfl⟩
      | served pid num r => exact absurd ⟨pid, num, r, hc⟩ hx
    refine ⟨x, { s with disp := .service x pid num .attrDestroy }, fun p n hp i hi => ?_,
      by rw [step_request h.inv.fault, request, hidle, hw], by simp, rfl⟩
    have hlt : i < s.num := by
      have := h.inv.slot_lt x p (Or.inl (by simp [hp, Client.slot]))
      omega
    obtain ⟨y, hy⟩ := h.inv.covered i hlt
    simp only [Holds, hidle, Dispatcher.issues, reduceCtorEq, and_false, or_false] at hy
    have hok := h.inv.client y
    cases hc : s.client y with
    | fresh => exact absurd ⟨y, hc⟩ hf
    | ticket q n => exact absurd ⟨y, q, n, hc⟩ ht
    | waiting q n =>
      rw [hc] at hok hy
      simp only [Client.slot, Option.some.injEq] at hy
      exact hy ▸ hok
    | served q n r =>
      rw [hc] at hok hy
      simp only [Client.slot, Option.some.injEq] at hy
      obtain ⟨t, ht, -⟩ := hok
      simp [← hy, ht]

/-- **From a good state every client can be served.** -/
theorem Good.servable [Fintype ι] (hcard : Fintype.card ι ≤ SLOTS) (h : Good s) : Servable s := by
  obtain ⟨t, hr, -, hall⟩ := Machine.reaches_of_measure (M := server ι) (I := Good)
    (G := fun r => ∀ x, ∃ pid num v, r.client x = .served pid num v)
    (fun r => ∑ y, (r.client y).calls)
    (fun r hg hns => by
      by_cases hidle : r.disp = .idle
      · obtain ⟨x, r₁, hp, hst, hbusy, hc⟩ := next_client hg hidle hns
        obtain ⟨r₂, hr, hg₂, hlt⟩ := finish_call (hg.step (hg.inv.fits hcard hst) hp hst) hbusy
        exact ⟨r₂, (reaches_step hst).trans hr, hg₂, hc ▸ hlt⟩
      · exact finish_call hg hidle)
    s h
  exact ⟨t, hr, hall⟩

/-- **One client after the other.**  Between calls, when everyone who called has its letter, the
next client can make its three calls and be served. -/
theorem serve_next (h : Good s) (hidle : s.disp = .idle) (hnum : s.num < SLOTS) {x : ι}
    (hx : s.client x = .fresh)
    (hserved : ∀ y, s.client y ≠ .fresh → ∃ pid num res, s.client y = .served pid num res) :
    ∃ s' pid num res, (server ι).Reaches s s' ∧ Good s' ∧ s'.disp = .idle ∧
      s'.client = Function.update s.client x (.served pid num res) := by
  -- GET_NUMBER
  have hst : step s (.request x) =
      some { s with num := s.num + 1, disp := .getNumber x s.num 0 .choose } := by
    rw [step_request h.inv.fault, request, hidle, hx]
  have hg := h.step (a := .request x) (fun _ => hnum) (fun pid num hw => by simp [hx] at hw) hst
  obtain ⟨s₁, n₁, hr₁, hg₁, hd₁, hc₁, -⟩ := finish_getNumber hg rfl
  have hx₁ : s₁.client x = .ticket s.num n₁ := by simp [hc₁]
  -- BAKERY_WAIT
  have hst₁ : step s₁ (.request x) = some { s₁ with disp := .wait x s.num n₁ .attrInit } := by
    rw [step_request hg₁.inv.fault, request, hd₁, hx₁]
  have hgw := hg₁.step (a := .request x) (fun hf => by simp [hx₁] at hf)
    (fun pid num hw => by simp [hx₁] at hw) hst₁
  obtain ⟨s₂, hr₂, hg₂, hd₂, hc₂⟩ := finish_wait hgw rfl
  have hx₂ : s₂.client x = .waiting s.num n₁ := by simp [hc₂]
  -- BAKERY_SERVICE: every lower slot is some served client's, so it has its thread
  have hpunctual : PunctualService s₂ (.request x) := by
    intro pid num hw i hi
    obtain ⟨rfl, -⟩ : s.num = pid ∧ n₁ = num := by simpa [hx₂] using hw
    have hlt : s.num < s₂.num := hg₂.inv.slot_lt x s.num (Or.inl (by simp [hx₂, Client.slot]))
    obtain ⟨y, hy⟩ := hg₂.inv.covered i (Nat.lt_trans hi hlt)
    have hslot : (s₂.client y).slot = some i := by
      simpa [Holds, hd₂, Dispatcher.issues] using hy
    have hyx : y ≠ x := by
      rintro rfl
      simp only [hx₂, Client.slot, Option.some.injEq] at hslot
      omega
    have hsame : s₂.client y = s.client y := by simp [hc₂, hc₁, hyx]
    have hyf : s.client y ≠ .fresh := fun hf => by simp [hsame, hf, Client.slot] at hslot
    obtain ⟨q, m, v, hv⟩ := hserved y hyf
    obtain rfl : q = i := by simpa [hsame, hv, Client.slot] using hslot
    obtain ⟨t, ht, -⟩ := hg₂.inv.clientOk (hsame.trans hv)
    simp [ht]
  have hst₂ : step s₂ (.request x) = some { s₂ with disp := .service x s.num n₁ .attrDestroy } := by
    rw [step_request hg₂.inv.fault, request, hd₂, hx₂]
  have hgs := hg₂.step (a := .request x) (fun hf => by simp [hx₂] at hf) hpunctual hst₂
  obtain ⟨s₃, res, hr₃, hg₃, hd₃, hc₃⟩ := finish_service hgs rfl
  refine ⟨s₃, s.num, n₁, res, ?_, hg₃, hd₃, by simp [hc₃, hc₂, hc₁]⟩
  exact ((reaches_step hst).trans hr₁).trans
    (((reaches_step hst₁).trans hr₂).trans ((reaches_step hst₂).trans hr₃))

/-! ## 5. Stuck -/

/-- The dispatcher is in BAKERY_SERVICE for slot `pid`, and a lower slot has no thread. -/
def Stuck (s : State ι) : Prop :=
  ∃ x pid num pc i, s.disp = .service x pid num pc ∧ i < pid ∧ s.thr i = none

/-- **Stuck is for ever**: the join needs the thread of slot `pid` to end, hence the lower slot
cleared, hence its thread created, which only the dispatcher can do. -/
theorem stuck_step (hi : Inv s) (h : Stuck s) {a : Action ι} (hst : step s a = some s') :
    Stuck s' ∧ s'.client = s.client := by
  obtain ⟨x, pid, num, pc, i, hd, hip, hnone⟩ := h
  cases a with
  | request y => simp [step_request hi.fault, request, hd] at hst
  | server =>
    rw [step_server hi.fault, serverStep, hd] at hst
    have hx : s.client x = .waiting pid num := hi.dispOk hd
    have hsome : (s.thr pid).isSome := hi.clientOk hx
    obtain ⟨⟨u, v, tpc⟩, ht⟩ := Option.isSome_iff_exists.mp hsome
    have hl : pid < SLOTS := hi.slot_lt_slots (hi.thread pid _ ht).ticketed
    cases pc with
    | attrDestroy =>
      simp only [serviceStep, access_of_lt _ _ _ hl, Option.some.injEq] at hst
      exact hst ▸ ⟨⟨x, pid, num, .join, i, rfl, hip, hnone⟩, rfl⟩
    | join =>
      cases tpc <;> simp only [serviceStep, ht, reduceCtorEq] at hst
      obtain ⟨w, hw, -⟩ := hi.cleared_below ⟨_, ht, rfl⟩ hip
      simp [hnone] at hw
  | thread k =>
    simp only [step, hi.fault, Option.isSome_none, Bool.false_eq_true, if_false] at hst
    obtain ⟨t, ht, hst⟩ := Option.bind_eq_some_iff.mp hst
    have hf := threadFrame_of_threadStep hi ht hst
    have hik : i ≠ k := by
      rintro rfl
      simp [hnone] at ht
    exact ⟨⟨x, pid, num, pc, i, hf.disp.trans hd, hip, (hf.thr i hik).trans hnone⟩, hf.client⟩

theorem Stuck.not_servable [Fintype ι] (hcard : Fintype.card ι ≤ SLOTS) (hi : Inv s)
    (h : Stuck s) : ¬ Servable s := by
  rintro ⟨r, hr, hall⟩
  obtain ⟨x, pid, num, pc, i, hd, -, -⟩ := id h
  have hx : s.client x = .waiting pid num := hi.dispOk hd
  have hsame : Inv r ∧ Stuck r ∧ r.client = s.client :=
    Machine.reaches_rule (M := server ι) (I := fun r => Inv r ∧ Stuck r ∧ r.client = s.client)
      (fun _ _ _ hI hst =>
        ⟨hI.1.step (hI.1.fits hcard hst) hst, (stuck_step hI.1 hI.2.1 hst).1,
          (stuck_step hI.1 hI.2.1 hst).2.trans hI.2.2⟩) ⟨hi, h, rfl⟩ hr
  obtain ⟨p, n, v, hserved⟩ := hall x
  rw [hsame.2.2, hx] at hserved
  simp at hserved

/-- A BAKERY_SERVICE taken up too early leaves the server stuck. -/
theorem stuck_of_not_punctual (hi : Inv s) {a : Action ι} (hp : ¬ PunctualService s a)
    (hst : step s a = some s') : Stuck s' := by
  cases a with
  | server => exact absurd trivial hp
  | thread k => exact absurd trivial hp
  | request x =>
    simp only [PunctualService, not_forall, Bool.not_eq_true, Option.isSome_eq_false_iff,
      Option.isNone_iff_eq_none] at hp
    obtain ⟨pid, num, hx, i, hip, hnone⟩ := hp
    rw [step_request hi.fault, request, hx] at hst
    cases hd : s.disp <;> simp only [hd, Option.some.injEq, reduceCtorEq] at hst
    exact hst ▸ ⟨x, pid, num, .attrDestroy, i, rfl, hip, hnone⟩

omit [DecidableEq ι] in
theorem good_init : Good (init ι) :=
  ⟨inv_init, fun j hj => absurd rfl hj, fun x pid num pc hd => by simp [init] at hd⟩

/-- **When the server gets stuck.**  In a run of any set of at most 32 clients, every client
can still be served from every state the run visits exactly when no BAKERY_SERVICE of the run
is taken up before BAKERY_WAIT was handled for every lower slot. -/
theorem servable_iff_punctual [Fintype ι] (hcard : Fintype.card ι ≤ 32) (as : List (Action ι)) :
    (server ι).StepsMeet PunctualService (init ι) as ↔
      (server ι).StatesMeet Servable (init ι) as :=
  Machine.stepsMeet_iff_statesMeet (M := server ι) (I := Good)
    (fun _ hg => hg.servable hcard)
    (fun _ _ _ hg hp hst => hg.step (hg.inv.fits hcard hst) hp hst)
    (fun _ _ _ hg hp hst => (stuck_of_not_punctual hg.inv hp hst).not_servable hcard
      (hg.inv.step (hg.inv.fits hcard hst) hst))
    good_init

end Steps

/-- Two clients draw their numbers, client 1 calls BAKERY_WAIT and then BAKERY_SERVICE. -/
def earlyService : List (Action (Fin 2)) :=
  .request 0 :: List.replicate 37 .server ++ .request 1 :: List.replicate 38 .server ++
    .request 1 :: List.replicate 3 .server ++ [.request 1]

/-- Client 0 has its number and no thread; the dispatcher is in client 1's BAKERY_SERVICE. -/
theorem earlyService_stuck :
    ∃ s, (server (Fin 2)).run (init (Fin 2)) earlyService = some s ∧ Stuck s := by
  have hrun : ((server (Fin 2)).run (init (Fin 2)) earlyService).map
      (fun s => (s.disp, s.thr 0)) = some (.service 1 1 2 .attrDestroy, none) := by
    decide +kernel
  obtain ⟨s, hs, hst⟩ := Option.map_eq_some_iff.mp hrun
  simp only [Prod.mk.injEq] at hst
  exact ⟨s, hs, 1, 1, 2, .attrDestroy, 0, hst.1, by decide, hst.2⟩

theorem servable_iff_punctual_early :
    ¬ (server (Fin 2)).StepsMeet PunctualService (init (Fin 2)) earlyService := by
  obtain ⟨s, hs, hstuck⟩ := earlyService_stuck
  rw [servable_iff_punctual (by decide)]
  exact fun h => hstuck.not_servable (by decide) (reachable_inv (by decide) ⟨_, hs⟩) (h.last hs)

/-- **The server can deadlock.**  Not every reachable state lets every client be served. -/
theorem early_service_deadlocks :
    ¬ ∀ s, (server (Fin 2)).Reachable s → Servable s := by
  obtain ⟨s, hs, hstuck⟩ := earlyService_stuck
  intro h
  exact hstuck.not_servable (by decide) (reachable_inv (by decide) ⟨_, hs⟩) (h s ⟨_, hs⟩)

end OsLabs.Bakery1
