/-
# The slots of both servers are used up

`get_number_1_svc` takes the slot `num++` in both servers, and nothing ever takes a slot back.
So the slots a server hands out are 0, 1, 2, ..., one for each execution of GET_NUMBER, and the
33rd execution over the whole life of the server gets slot 32, which no array has, however few
clients are in progress at that moment (`slotsOk_iff_executions`).

Both servers are called over a network that resends requests; to each the same description of
slots applies (`Slots`), with its own account of where a slot is on its way.
-/
import Mathlib.Data.Set.Card
import OsLabs.Bakery1.Udp
import OsLabs.Bakery2.Retransmit

namespace OsLabs.Bakery

variable {ι : Type}

/-! ## 1. Slots that are in order -/

/-- The client has a slot, and has not been served. -/
def Slots.InProgress (a : Slots ι) (served : ι → Prop) (x : ι) : Prop :=
  (∃ k, a.holds x k) ∧ ¬ served x

/-- Every slot handed out exists, and none is the slot of another client in progress. -/
structure Slots.Ok (a : Slots ι) (served : ι → Prop) : Prop where
  slot_lt : ∀ x k, a.holds x k → k < 32
  apart : ∀ x y k, a.holds x k → a.holds y k → a.InProgress served y → x = y

theorem Slots.Issued.ok {a : Slots ι} (h : a.Issued) (hle : a.num ≤ SLOTS) (served : ι → Prop) :
    a.Ok served :=
  ⟨fun x k hk => Nat.lt_of_lt_of_le (h.slot_lt x k hk) hle,
    fun x y k hx hy _ => h.distinct x y k hx hy⟩

/-- A client for which GET_NUMBER was never executed is not in progress. -/
theorem Slots.Issued.not_inProgress {a : Slots ι} (h : a.Issued) {x : ι} (hx : a.executed x = 0)
    (served : ι → Prop) : ¬ a.InProgress served x := by
  rintro ⟨⟨k, hk⟩, -⟩
  have hpos := h.executed x k hk
  omega

/-- Of 33 clients, at most 32 are in progress when one is not. -/
theorem inProgress_le {P : Fin 33 → Prop} {x : Fin 33} (h : ¬ P x) : {y | P y}.ncard ≤ 32 := by
  have hne : {y | P y} ≠ Set.univ := fun he => h (Set.eq_univ_iff_forall.mp he x)
  have hlt := Set.ncard_lt_card hne
  rw [Nat.card_eq_fintype_card, Fintype.card_fin] at hlt
  omega

/-- The clients other than client 32. -/
def firstClients : List (Fin 33) := (List.finRange 33).take 32

end OsLabs.Bakery

/-! ## 2. bakery1 -/

namespace OsLabs.Bakery1

open Bakery

variable {ι : Type} {n n' : Udp ι} {e : Event ι}

/-- The client was told its letter. -/
def Udp.Served (n : Udp ι) (x : ι) : Prop :=
  ∃ pid num res, n.client x = some (.served pid num res)

/-- The slots are in order, and no access was outside its array. -/
structure SlotsOk (n : Udp ι) : Prop where
  fault : n.srv.fault = none
  slots : n.slots.Ok n.Served

/-- The step executes GET_NUMBER. -/
def Udp.executes (n : Udp ι) (e : Event ι) : Bool := (n.getter e).isSome

variable [DecidableEq ι]

/-- A GET_NUMBER that gets a slot beyond the last one. -/
theorem not_slotsOk_of_not_fits (hfit : ¬ n.Fits e) (hst : n.step e = some n') : ¬ SlotsOk n' := by
  simp only [Udp.Fits, Classical.not_imp, Option.isSome_iff_exists] at hfit
  obtain ⟨⟨x, hx⟩, hnum⟩ := hfit
  cases e with
  | take i =>
    simp only [Udp.getter, Option.map_eq_some_iff, Option.filter_eq_some_iff,
      decide_eq_true_eq] at hx
    obtain ⟨m, ⟨hi, hfresh⟩, rfl⟩ := hx
    unfold Udp.step at hst
    split at hst
    · exact absurd hst (by simp)
    simp only [Udp.take, hi, Option.bind_some, Option.map_eq_some_iff] at hst
    obtain ⟨srv, hreq, rfl⟩ := hst
    intro hok
    obtain ⟨-, ⟨-, rfl⟩ | ⟨pid, d, -, hne, -⟩⟩ := Udp.request_cases hreq
    · exact hnum (hok.slots.slot_lt m.client n.srv.num (Or.inl rfl))
    · exact hne (by simpa [State.setClient] using hfresh)
  | _ => simp [Udp.getter] at hx

/-- In a run of bakery1 the slots are in order exactly when GET_NUMBER is executed at most 32
times. -/
theorem slotsOk_iff {as : List (Event ι)} {t : Udp ι}
    (hrun : (udp ι).run (Udp.init ι) as = some t) :
    (udp ι).StatesMeet SlotsOk (Udp.init ι) as ↔
      (udp ι).count Udp.executes (Udp.init ι) as ≤ 32 := by
  have hstep : ∀ n e n', n.Inv → n.Fits e → (udp ι).step n e = some n' → Udp.Inv n' :=
    fun n e n' hi hfit hst => hi.moves (hi.step hfit hst)
  have hcount := Machine.stepsMeet_iff_count (M := udp ι) (p := Udp.executes) (P := Udp.Fits)
    (I := Udp.Inv) (m := fun n => n.srv.num) (n := 32) (fun n hi => hi.bounded.num_le)
    (fun n e _ => Iff.rfl)
    (fun n e n' hi hfit hst => ⟨hstep n e n' hi hfit hst, (hi.step hfit hst).slots.num⟩)
    as (Udp.init ι) t Udp.inv_init hrun
  have hzero : (Udp.init ι).srv.num = 0 := rfl
  rw [hzero, Nat.zero_add] at hcount
  rw [← hcount]
  exact (Machine.stepsMeet_iff_statesMeet (M := udp ι)
    (fun n hi => ⟨hi.bounded.fault, hi.issued.ok hi.bounded.num_le n.Served⟩) hstep
    (fun n e n' _ hfit hst => not_slotsOk_of_not_fits hfit hst) Udp.inv_init).symm

end OsLabs.Bakery1

/-! ## 3. bakery2 -/

namespace OsLabs.Bakery2

open Bakery

variable {ι : Type} {s s' : Net ι} {e : Event ι}

/-- Slot `k` was handed out to client `x`: a reply or a request names it, or the client was told. -/
def Net.Holds (s : Net ι) (x : ι) (k : Nat) : Prop :=
  (∃ m ∈ s.replies, m.client = x ∧ m.proc = .getNumber ∧ m.arg.pid = k) ∨
    (∃ m ∈ s.requests, m.client = x ∧ m.proc = .bakeryService ∧ m.arg.pid = k) ∨
    (s.client x).told = some k

def Net.slots (s : Net ι) : Slots ι := ⟨s.Holds, s.srv.num, fun x => s.executed x .getNumber⟩

/-- The client was told its letter. -/
def Net.Served (s : Net ι) (x : ι) : Prop := ∃ pid num res, s.client x = .done pid num res

/-- The slots are in order, and no access was outside its array. -/
structure SlotsOk (s : Net ι) : Prop where
  fault : s.fault = none
  slots : s.slots.Ok s.Served

/-- The client for which the step executes GET_NUMBER. -/
def Net.getter (s : Net ι) : Event ι → Option ι
  | .execute i _ => (s.requests[i]?.filter fun m => m.proc = .getNumber).map Message.client
  | _ => none

/-- The step executes GET_NUMBER. -/
def Net.executes (s : Net ι) (e : Event ι) : Bool := (s.getter e).isSome

/-- GET_NUMBER finds a slot that exists. -/
def Net.Fits (s : Net ι) (e : Event ι) : Prop := s.executes e = true → s.srv.num < SLOTS

/-- The slots held were handed out, and exist. -/
structure SlotInv (s : Net ι) : Prop where
  fault : s.fault = none
  num_le : s.srv.num ≤ SLOTS
  issued : s.slots.Issued

theorem slotInv_init : SlotInv (Net.init ι) := by
  have hno : ∀ x k, ¬ (Net.init ι).Holds x k := fun x k => by
    simp [Net.Holds, Net.init, Client.told]
  exact ⟨rfl, Nat.zero_le _, fun x k hk => absurd hk (hno x k),
    fun x y k hk => absurd hk (hno x k), fun x k hk => absurd hk (hno x k)⟩

theorem Net.Holds.of_reply {m : Message ι} (hm : m ∈ s.replies) (hp : m.proc = .getNumber) :
    s.Holds m.client m.arg.pid := Or.inl ⟨m, hm, rfl, hp, rfl⟩

theorem Net.Holds.of_request {m : Message ι} (hm : m ∈ s.requests) (hp : m.proc = .bakeryService) :
    s.Holds m.client m.arg.pid := Or.inr (Or.inl ⟨m, hm, rfl, hp, rfl⟩)

theorem Net.Holds.of_client {x : ι} {k : Nat} (hx : (s.client x).told = some k) : s.Holds x k :=
  Or.inr (Or.inr hx)

/-- What any step does to the slots. -/
structure Moves (s s' : Net ι) (e : Event ι) : Prop where
  fault : s'.fault = none
  num_le : s'.srv.num ≤ SLOTS
  slots : s.slots.Step s'.slots (s.getter e)

theorem SlotInv.moves (h : SlotInv s) (hm : Moves s s' e) : SlotInv s' :=
  ⟨hm.fault, hm.num_le, h.issued.step hm.slots⟩

/-- A step that leaves the server alone, and names no slot to anybody who did not have it. -/
theorem SlotInv.moves_of_srv (h : SlotInv s) (hsrv : s'.srv = s.srv)
    (hex : s'.executed = s.executed) (hf : s'.fault = s.fault) (hg : s.getter e = none)
    (hreply : ∀ m ∈ s'.replies, m ∈ s.replies)
    (hreq : ∀ m ∈ s'.requests, m.proc = .bakeryService → s.Holds m.client m.arg.pid)
    (htold : ∀ x k, (s'.client x).told = some k → s.Holds x k) : Moves s s' e := by
  refine ⟨hf.trans h.fault, hsrv ▸ h.num_le, ?_⟩
  rw [hg]
  refine .of_none (congrArg Server.num hsrv) ?_ fun x => Nat.le_of_eq (by simp [Net.slots, hex])
  rintro x k (⟨m, hm, rfl, hp, rfl⟩ | ⟨m, hm, rfl, hp, rfl⟩ | hx)
  · exact .of_reply (hreply m hm) hp
  · exact hreq m hm hp
  · exact htold x k hx

variable [DecidableEq ι]

theorem SlotInv.moves_send (h : SlotInv s) {x : ι} (hst : send s x = some s') :
    Moves s s' (.send x) := by
  have htold : ∀ y k, (s.client y).told = some k → s.Holds y k := fun y k => .of_client
  have hset : ∀ {cl : Client} {k y}, (∀ k, cl.told = some k → (s.client x).told = some k) →
      (Function.update s.client x cl y).told = some k → s.Holds y k := by
    intro cl k y hcl hy
    rcases eq_or_ne y x with rfl | hyx
    · exact .of_client (hcl k (by simpa using hy))
    · exact .of_client (by simpa [hyx] using hy)
  have hadd : ∀ {r : Net ι} {m : Message ι}, r.requests = s.requests →
      (m.proc = .bakeryService → s.Holds m.client m.arg.pid) →
      ∀ p ∈ r.requests ++ [m], p.proc = .bakeryService → s.Holds p.client p.arg.pid := by
    intro r m hr hm p hp hproc
    rcases List.mem_append.mp hp with hp | hp
    · exact .of_request (hr ▸ hp) hproc
    · obtain rfl := List.mem_singleton.mp hp
      exact hm hproc
  cases hx : s.client x with
  | fresh =>
    simp only [send, hx, Option.some.injEq] at hst
    subst hst
    exact h.moves_of_srv rfl rfl rfl rfl (fun _ => id) (hadd (r := s) rfl (by simp))
      fun y k => hset (by simp [Client.told])
  | asking =>
    simp only [send, hx, Option.some.injEq] at hst
    subst hst
    exact h.moves_of_srv rfl rfl rfl rfl (fun _ => id) (hadd (r := s) rfl (by simp))
      fun y k => htold y k
  | ticket pid num =>
    simp only [send, hx, Option.some.injEq] at hst
    subst hst
    exact h.moves_of_srv rfl rfl rfl rfl (fun _ => id)
      (hadd (r := s) rfl fun _ => .of_client (by simp [hx, Client.told]))
      fun y k => hset (by simp [hx, Client.told])
  | serving pid num =>
    simp only [send, hx, Option.some.injEq] at hst
    subst hst
    exact h.moves_of_srv rfl rfl rfl rfl (fun _ => id)
      (hadd (r := s) rfl fun _ => .of_client (by simp [hx, Client.told])) fun y k => htold y k
  | done pid num res => simp [send, hx] at hst
  | failed => simp [send, hx] at hst

theorem SlotInv.moves_execute (h : SlotInv s) {clock : Nat → Int} {i fuel : Nat}
    (hfit : s.Fits (.execute i fuel)) (hst : execute clock s i fuel = some s') :
    Moves s s' (.execute i fuel) := by
  obtain ⟨m, hi, hst⟩ := Option.bind_eq_some_iff.mp hst
  obtain ⟨out, hout, rfl⟩ := Option.map_eq_some_iff.mp hst
  have hreq : m ∈ s.requests := List.mem_of_getElem? hi
  have herase : ∀ p ∈ s.requests.eraseIdx i, p.proc = .bakeryService →
      s.Holds p.client p.arg.pid := fun p hp => .of_request (List.mem_of_mem_eraseIdx hp)
  have hle : ∀ x, s.executed x .getNumber ≤ s.count m x .getNumber := fun x => by
    rw [count_apply]
    exact Nat.le_add_right _ _
  cases hm : m.proc with
  | getNumber =>
    have hg : s.getter (.execute i fuel) = some m.client := by
      simp [Net.getter, hi, Option.filter, hm]
    have hlt : s.srv.num < SLOTS := hfit (by simp [Net.executes, hg])
    rw [handle, hm, getNumber1Svc_of_lt hlt, Option.some.injEq] at hout
    subst hout
    refine ⟨h.fault, hlt, by simp [hg, Net.slots], ?_, hle, ?_⟩
    · rintro x k (⟨p, hp, rfl, hproc, rfl⟩ | ⟨p, hp, rfl, hproc, rfl⟩ | hx)
      · rcases List.mem_append.mp hp with hp | hp
        · exact Or.inl (.of_reply hp hproc)
        · obtain rfl := List.mem_singleton.mp hp
          exact Or.inr ⟨hg, rfl⟩
      · exact Or.inl (herase p hp hproc)
      · exact Or.inl (.of_client hx)
    · intro x hx
      obtain rfl := Option.some.inj (hg.symm.trans hx)
      simp [Net.slots, count_apply, hm]
  | bakeryService =>
    have hg : s.getter (.execute i fuel) = none := by simp [Net.getter, hi, Option.filter, hm]
    rw [handle, hm] at hout
    cases out with
    | error e =>
      have hpid := h.issued.slot_lt _ _ (Net.Holds.of_request hreq hm)
      exact absurd (Nat.lt_of_lt_of_le hpid h.num_le) (bakeryService1Svc_error hout).1
    | ok out =>
      obtain ⟨r, srv⟩ := out
      obtain ⟨tick, -, -, rfl⟩ := bakeryService1Svc_eq_some hout
      refine ⟨h.fault, h.num_le, ?_⟩
      rw [hg]
      refine .of_none rfl ?_ hle
      rintro x k (⟨p, hp, rfl, hproc, rfl⟩ | ⟨p, hp, rfl, hproc, rfl⟩ | hx)
      · rcases List.mem_append.mp hp with hp | hp
        · exact .of_reply hp hproc
        · obtain rfl := List.mem_singleton.mp hp
          exact absurd hproc (by simp)
      · exact herase p hp hproc
      · exact .of_client hx

/-- A client knows of a slot what it knew before, or what the reply names. -/
theorem told_receive {cl : Client} {proc : Proc} {r : BAKERY} {k : Nat}
    (h : (receive cl proc r).told = some k) :
    cl.told = some k ∨ proc = .getNumber ∧ r.pid = k := by
  cases cl <;> cases proc <;> simp_all [receive, Client.told]

/-- **Every step that finds a slot** names it to nobody but the client that GET_NUMBER is executed
for. -/
theorem SlotInv.step (h : SlotInv s) {clock : Nat → Int} (hfit : s.Fits e)
    (hst : netStep clock s e = some s') : Moves s s' e := by
  have hreq : ∀ m ∈ s.requests, m.proc = .bakeryService → s.Holds m.client m.arg.pid :=
    fun m hm hp => .of_request hm hp
  have htold : ∀ x k, (s.client x).told = some k → s.Holds x k := fun x k => .of_client
  unfold netStep at hst
  split at hst
  · exact absurd hst (by simp)
  cases e with
  | send x => exact h.moves_send hst
  | execute i fuel => exact h.moves_execute hfit hst
  | deliver i =>
    obtain ⟨m, hi, rfl⟩ := Option.map_eq_some_iff.mp hst
    refine h.moves_of_srv rfl rfl rfl rfl (fun p => List.mem_of_mem_eraseIdx) hreq ?_
    intro x k hx
    rcases eq_or_ne x m.client with rfl | hxm
    · rcases told_receive (by simpa using hx) with hx | ⟨hp, rfl⟩
      · exact .of_client hx
      · exact .of_reply (List.mem_of_getElem? hi) hp
    · exact .of_client (by simpa [hxm] using hx)
  | loseRequest i =>
    obtain ⟨m, -, rfl⟩ := Option.map_eq_some_iff.mp hst
    exact h.moves_of_srv rfl rfl rfl rfl (fun _ => id)
      (fun p hp => hreq p (List.mem_of_mem_eraseIdx hp)) htold
  | loseReply i =>
    obtain ⟨m, -, rfl⟩ := Option.map_eq_some_iff.mp hst
    exact h.moves_of_srv rfl rfl rfl rfl (fun p => List.mem_of_mem_eraseIdx) hreq htold
  | expire x =>
    have hfail : Moves s { s with client := Function.update s.client x .failed } (.expire x) := by
      refine h.moves_of_srv rfl rfl rfl rfl (fun _ => id) hreq fun y k hy => ?_
      rcases eq_or_ne y x with rfl | hyx
      · simp [Client.told] at hy
      · exact .of_client (by simpa [hyx] using hy)
    simp only [expire] at hst
    split at hst <;> simp only [Option.some.injEq, reduceCtorEq] at hst <;> exact hst ▸ hfail

/-- A GET_NUMBER that finds no slot. -/
theorem not_slotsOk_of_not_fits {clock : Nat → Int} (hfit : ¬ s.Fits e)
    (hst : netStep clock s e = some s') : ¬ SlotsOk s' := by
  simp only [Net.Fits, Net.executes, Classical.not_imp, Option.isSome_iff_exists] at hfit
  obtain ⟨⟨x, hx⟩, hnum⟩ := hfit
  cases e with
  | execute i fuel =>
    simp only [Net.getter, Option.map_eq_some_iff, Option.filter_eq_some_iff,
      decide_eq_true_eq] at hx
    obtain ⟨m, ⟨hi, hm⟩, rfl⟩ := hx
    unfold netStep at hst
    split at hst
    · exact absurd hst (by simp)
    simp only [execute, hi, Option.bind_some, handle, hm, getNumber1Svc_of_ge hnum,
      Option.map_some, Option.some.injEq] at hst
    subst hst
    exact fun hok => by simpa using hok.fault
  | _ => simp [Net.getter] at hx

/-- Every GET_NUMBER of a run finds a slot exactly when there are at most 32. -/
theorem stepsMeet_fits_iff {clock : Nat → Int} {as : List (Event ι)} {t : Net ι}
    (hrun : (network ι clock).run (Net.init ι) as = some t) :
    (network ι clock).StepsMeet Net.Fits (Net.init ι) as ↔
      (network ι clock).count Net.executes (Net.init ι) as ≤ 32 := by
  have hcount := Machine.stepsMeet_iff_count (M := network ι clock) (p := Net.executes)
    (P := Net.Fits) (I := SlotInv) (m := fun s => s.srv.num) (n := 32) (fun s hi => hi.num_le)
    (fun s e _ => Iff.rfl)
    (fun s e s' hi hfit hst => ⟨hi.moves (hi.step hfit hst), (hi.step hfit hst).slots.num⟩)
    as (Net.init ι) t slotInv_init hrun
  have hzero : (Net.init ι).srv.num = 0 := rfl
  rwa [hzero, Nat.zero_add] at hcount

/-- In a run of bakery2 the slots are in order exactly when GET_NUMBER is executed at most 32
times. -/
theorem slotsOk_iff {clock : Nat → Int} {as : List (Event ι)} {t : Net ι}
    (hrun : (network ι clock).run (Net.init ι) as = some t) :
    (network ι clock).StatesMeet SlotsOk (Net.init ι) as ↔
      (network ι clock).count Net.executes (Net.init ι) as ≤ 32 := by
  rw [← stepsMeet_fits_iff hrun]
  exact (Machine.stepsMeet_iff_statesMeet (M := network ι clock)
    (fun s hi => ⟨hi.fault, hi.issued.ok hi.num_le s.Served⟩)
    (fun s e s' hi hfit hst => hi.moves (hi.step hfit hst))
    (fun s e s' _ hfit hst => not_slotsOk_of_not_fits hfit hst) slotInv_init).symm

end OsLabs.Bakery2

/-! ## 4. Calls that are made once -/

namespace OsLabs.Bakery1

open Bakery

variable {ι : Type} {s s' t : State ι} {n : Udp ι}

/-- Nothing is on its way, and the clients know what they know in the server's model. -/
structure Direct (s : State ι) (n : Udp ι) : Prop where
  srv : n.srv = s
  client : ∀ x, n.client x = some (s.client x)
  requests : n.requests = []
  replies : n.replies = []
  executed : ∀ x, s.client x = .fresh → (∀ k, s.disp.holder ≠ some (x, k)) → n.executed x = 0
  exited : n.exited = false
  fits : n.Inv

variable [DecidableEq ι]

theorem setClient_client (s : State ι) (x : ι) : s.setClient x (s.client x) = s := by
  rw [State.setClient, Function.update_eq_self]

/-- The step is enabled, and finds its slot if it executes GET_NUMBER. -/
theorem Direct.one (h : Direct s n) {e : Event ι} {n' : Udp ι}
    (hfit : n.Fits e) (hst : n.step e = some n') :
    (udp ι).run n [e] = some n' ∧ (udp ι).StepsMeet Udp.Fits n [e] ∧ n'.Inv :=
  ⟨Machine.run_cons_eq_some.mpr ⟨n', hst, rfl⟩, fun _ _ => ⟨hfit, trivial⟩,
    h.fits.moves (h.fits.step hfit hst)⟩

/-- **A call that is made once** is a request that is executed once. -/
theorem Direct.request (h : Direct s n) (hi : Inv s) {x : ι} (hfit : Fits s (.request x))
    (hst : request s x = some s') : ∃ es n', (udp ι).run n es = some n' ∧
      (udp ι).StepsMeet Udp.Fits n es ∧ Direct s' n' := by
  have hgo : ¬ (n.srv.fault.isSome ∨ n.exited = true) := by simp [h.srv, hi.fault, h.exited]
  obtain ⟨hidle, hcases⟩ := Udp.request_cases hst
  set n₁ : Udp ι := { n with requests := [⟨x, s.client x⟩] } with hn₁
  have hsend : n.step (.send x) = some n₁ := by
    refine (if_neg hgo).trans ?_
    cases hx : s.client x with
    | served pid num res => simp [Bakery1.request, hidle, hx] at hst
    | _ => simp only [Udp.send, h.client x, hx, h.requests, List.nil_append, hn₁]
  obtain ⟨hrun, hsteps, hfits⟩ := h.one (fun hg => absurd hg (by simp [Udp.getter])) hsend
  have htake : n₁.take 0 = some { n₁ with
      srv := s', requests := []
      executed := if s.client x = .fresh then Function.update n.executed x (n.executed x + 1)
        else n.executed } := by
    simp only [Udp.take, hn₁, List.getElem?_cons_zero, Option.bind_some, h.srv, setClient_client,
      hst, Option.map_some, List.eraseIdx_cons_zero]
  have hfit₁ : n₁.Fits (.take 0) := by
    intro hg
    have hx : s.client x = .fresh := by
      by_contra hx
      simp [Udp.getter, hn₁, Option.filter, hx] at hg
    exact h.srv ▸ hfit hx
  have hst₁ := (if_neg hgo : n₁.step (.take 0) = _).trans htake
  have hclient : s'.client = s.client := by
    obtain ⟨-, rfl⟩ | ⟨pid, d, -, -, -, -, rfl⟩ := hcases <;> rfl
  refine ⟨[.send x, .take 0], _, Machine.run_cons_eq_some.mpr ⟨n₁, hsend,
    Machine.run_cons_eq_some.mpr ⟨_, hst₁, rfl⟩⟩, ?_, ?_⟩
  · intro r hr
    obtain rfl := Option.some.inj (hsend.symm.trans hr)
    exact ⟨fun hg => absurd hg (by simp [Udp.getter]), fun _ _ => ⟨hfit₁, trivial⟩⟩
  · refine ⟨rfl, fun y => hclient ▸ h.client y, rfl, h.replies, fun y hy hd => ?_, h.exited,
      hfits.moves (hfits.step hfit₁ hst₁)⟩
    rw [hclient] at hy
    have hzero : n.executed y = 0 := h.executed y hy (by simp [hidle, Dispatcher.holder])
    obtain ⟨hx, rfl⟩ | ⟨pid, d, -, hx, -, -, rfl⟩ := hcases
    · have hyx : y ≠ x := by
        rintro rfl
        exact hd _ rfl
      simp [hx, hyx, hzero]
    · simp [hx, hzero]

/-- **A step of the dispatcher**, and the reply, which arrives at once. -/
theorem Direct.server (h : Direct s n) (hi : Inv s) (hst : serverStep s = some s') :
    ∃ es n', (udp ι).run n es = some n' ∧ (udp ι).StepsMeet Udp.Fits n es ∧ Direct s' n' := by
  have hgo : ¬ (n.srv.fault.isSome ∨ n.exited = true) := by simp [h.srv, hi.fault, h.exited]
  have hb : Bounded s := h.srv ▸ h.fits.bounded
  obtain ⟨hb', -, hdisp⟩ := hb.serverStep hst
  set n₁ : Udp ι := { n with
    srv := s', orphans := n.orphans ++ s.overwritten
    replies := if s'.disp = .idle then s.disp.client.toList.map fun x => ⟨x, s'.client x⟩
      else [] } with hn₁
  have hst₁ : n.step .server = some n₁ := by
    refine (if_neg hgo).trans ?_
    simp only [Udp.serve, h.srv, hst, Option.map_some, h.replies, List.nil_append, hn₁]
  have hfit : n.Fits .server := fun hg => absurd hg (by simp [Udp.getter])
  obtain ⟨hrun, hsteps, hfits⟩ := h.one hfit hst₁
  rcases hdisp with ⟨hbusy, hholder, hclient⟩ | ⟨hidle, x, cl, hanswers, hclient⟩
  · refine ⟨[.server], n₁, hrun, hsteps, rfl, fun y => hclient ▸ h.client y, h.requests,
      if_neg hbusy, fun y hy hd => ?_, h.exited, hfits⟩
    exact h.executed y (hclient ▸ hy) (hholder ▸ hd)
  · obtain ⟨hx, k, hholder, hslot⟩ := hanswers.holder
    have hreplies : n₁.replies = [⟨x, cl⟩] := by
      simp [hn₁, hidle, hx, hclient]
    have hreceive : (s.client x).receive cl = cl := by
      generalize hd : s.disp = d at hanswers
      have hok := hi.dispOk hd
      cases hanswers with
      | getNumber ind max pc num => rw [hok.2.1]; rfl
      | wait pid num pc => rw [hok.1]; rfl
      | service pid num pc res => rw [show s.client x = .waiting pid num from hok]; rfl
    have hdeliver : n₁.deliver 0 = some { n₁ with
        replies := [], client := Function.update n.client x (some cl) } := by
      simp only [Udp.deliver, hreplies, List.getElem?_cons_zero, Option.map_some,
        List.eraseIdx_cons_zero]
      simp only [hn₁, h.client x, Option.map_some, hreceive]
    have hgo₁ : ¬ (n₁.srv.fault.isSome ∨ n₁.exited = true) := by
      simp [hn₁, hb'.fault, h.exited]
    have hst₂ := (if_neg hgo₁ : n₁.step (.deliver 0) = _).trans hdeliver
    have hfit₁ : n₁.Fits (.deliver 0) := fun hg => absurd hg (by simp [Udp.getter])
    refine ⟨[.server, .deliver 0], _, Machine.run_cons_eq_some.mpr ⟨n₁, hst₁,
      Machine.run_cons_eq_some.mpr ⟨_, hst₂, rfl⟩⟩, ?_, ?_⟩
    · intro r hr
      obtain rfl := Option.some.inj (hst₁.symm.trans hr)
      exact ⟨hfit, fun _ _ => ⟨hfit₁, trivial⟩⟩
    · refine ⟨rfl, fun y => ?_, h.requests, rfl, fun y hy hd => ?_, h.exited,
        hfits.moves (hfits.step hfit₁ hst₂)⟩
      · rcases eq_or_ne y x with rfl | hyx
        · simp [hclient]
        · simp [hclient, hyx, h.client y]
      · have hyx : y ≠ x := by
          rintro rfl
          rw [hclient, Function.update_self] at hy
          rw [hy] at hslot
          exact absurd hslot (by simp [Client.slot])
        refine h.executed y (by simpa [hclient, hyx] using hy) fun m hm => hyx ?_
        rw [hholder, Option.some.injEq, Prod.mk.injEq] at hm
        exact hm.1.symm

/-- **What the server does for calls made once, it does over the network.** -/
theorem Direct.step (h : Direct s n) (hi : Inv s) {a : Action ι} (hfit : Fits s a)
    (hst : step s a = some s') : ∃ es n', (udp ι).run n es = some n' ∧
      (udp ι).StepsMeet Udp.Fits n es ∧ Direct s' n' := by
  cases a with
  | request x =>
    rw [step_request hi.fault] at hst
    exact h.request hi hfit hst
  | server =>
    rw [step_server hi.fault] at hst
    exact h.server hi hst
  | thread k =>
    have hgo : ¬ (n.srv.fault.isSome ∨ n.exited = true) := by simp [h.srv, hi.fault, h.exited]
    simp only [Bakery1.step, hi.fault, Option.isSome_none, Bool.false_eq_true, if_false] at hst
    have hst₁ : n.step (.thread k) = some { n with srv := s' } := by
      refine (if_neg hgo).trans ?_
      simp only [h.srv, hst, Option.map_some]
    obtain ⟨t, ht, hst⟩ := Option.bind_eq_some_iff.mp hst
    have hb : Bounded s := h.srv ▸ h.fits.bounded
    obtain ⟨-, hd, -, hclient, -⟩ := hb.threadStep (hb.thread k t ht) hst
    obtain ⟨hrun, hsteps, hfits⟩ := h.one (fun hg => absurd hg (by simp [Udp.getter])) hst₁
    refine ⟨[.thread k], _, hrun, hsteps, rfl, fun y => hclient ▸ h.client y, h.requests,
      h.replies, fun y hy hk => h.executed y (hclient ▸ hy) (hd ▸ hk), h.exited, hfits⟩

/-- The number of slots handed out never decreases. -/
theorem num_le_step {a : Action ι} (hst : step s a = some s') : s.num ≤ s'.num := by
  have hacc : ∀ (arr : Arr) (i : Nat) (r : State ι), r.num = s.num →
      (s.access arr i r).num = s.num := by
    intro arr i r hr
    unfold State.access
    split
    · exact hr
    · rfl
  unfold step at hst
  split at hst
  · exact absurd hst (by simp)
  cases a with
  | request x =>
    obtain ⟨-, ⟨-, rfl⟩ | ⟨pid, d, -, -, -, -, rfl⟩⟩ := Udp.request_cases hst
    · exact Nat.le_succ _
    · exact Nat.le_refl _
  | server =>
    simp only [serverStep] at hst
    split at hst
    · exact absurd hst (by simp)
    · rename_i pc _
      rw [Option.some.injEq] at hst
      subst hst
      cases pc <;> refine Nat.le_of_eq (hacc _ _ _ ?_).symm <;> rfl
    · rename_i pc _
      rw [Option.some.injEq] at hst
      subst hst
      cases pc <;> refine Nat.le_of_eq (hacc _ _ _ ?_).symm <;> rfl
    · rename_i pc _
      cases pc <;> simp only [serviceStep] at hst
      · rw [Option.some.injEq] at hst
        subst hst
        refine Nat.le_of_eq (hacc _ _ _ ?_).symm
        rfl
      · split at hst <;> simp only [Option.some.injEq, reduceCtorEq] at hst
        subst hst
        refine Nat.le_of_eq (hacc _ _ _ ?_).symm
        rfl
  | thread k =>
    obtain ⟨t, -, hst⟩ := Option.bind_eq_some_iff.mp hst
    unfold threadStep at hst
    split at hst <;> simp only [Option.some.injEq, reduceCtorEq] at hst <;> subst hst <;>
      first
        | exact Nat.le_refl _
        | (refine Nat.le_of_eq (hacc _ _ _ ?_).symm; rfl)

/-- The same for runs that hand out no more slots than there are. -/
theorem Direct.run : ∀ (as : List (Action ι)) (s : State ι) (n : Udp ι), Direct s n → Inv s →
    (Bakery1.server ι).run s as = some t → t.num ≤ SLOTS → ∃ es n', (udp ι).run n es = some n' ∧
      (udp ι).StepsMeet Udp.Fits n es ∧ Direct t n' := by
  intro as
  induction as with
  | nil =>
    intro s n h _ hrun _
    exact ⟨[], n, rfl, trivial, Machine.run_nil_eq_some.mp hrun ▸ h⟩
  | cons a as ih =>
    intro s n h hi hrun hle
    obtain ⟨s', hst, hrun'⟩ := Machine.run_cons_eq_some.mp hrun
    have hnum : s'.num ≤ t.num := Machine.run_rule (M := Bakery1.server ι)
      (I := fun r => s'.num ≤ r.num) (fun r a r' hr hst => Nat.le_trans hr (num_le_step hst))
      as s' t (Nat.le_refl _) hrun'
    have hfit : Fits s a := by
      cases a with
      | request x =>
        intro hx
        have hst : Bakery1.step s (.request x) = some s' := hst
        rw [step_request hi.fault] at hst
        obtain ⟨-, ⟨-, rfl⟩ | ⟨pid, d, -, hne, -⟩⟩ := Udp.request_cases hst
        · exact Nat.lt_of_lt_of_le (Nat.lt_succ_self _) (Nat.le_trans hnum hle)
        · exact absurd hx hne
      | server => trivial
      | thread k => trivial
    obtain ⟨es, n', hes, hsteps, h'⟩ := h.step hi hfit hst
    obtain ⟨es', n'', hes', hsteps', h''⟩ := ih s' n' h' (hi.step hfit hst) hrun' hle
    exact ⟨es ++ es', n'', by rw [Machine.run_append, hes]; exact hes',
      hsteps.append hes hsteps', h''⟩

omit [DecidableEq ι] in
theorem direct_init : Direct (init ι) (Udp.init ι) :=
  ⟨rfl, fun _ => rfl, rfl, rfl, fun _ _ _ => rfl, rfl, Udp.inv_init⟩

/-! ## 5. The 33rd client -/

omit [DecidableEq ι] in
/-- There are as many slots handed out as clients that hold one. -/
theorem Inv.card_eq (h : Inv s) {F : Finset ι} (hF : ∀ x, x ∈ F ↔ ∃ k, Holds s x k) :
    F.card = s.num := by
  choose! slot hslot using fun x (hx : x ∈ F) => (hF x).mp hx
  have hunique : ∀ x k m, Holds s x k → Holds s x m → k = m := by
    rintro x k m (hk | ⟨hf, hk⟩) (hm | ⟨hf', hm⟩)
    · exact Option.some.inj (hk.symm.trans hm)
    · simp [hf', Client.slot] at hk
    · simp [hf, Client.slot] at hm
    · exact congrArg Prod.snd (Option.some.inj (hk.symm.trans hm))
  have hbij : Set.BijOn slot F (Finset.range s.num) := by
    refine ⟨fun x hx => ?_, fun x hx y hy hxy => ?_, fun k hk => ?_⟩
    · simpa using h.slot_lt x _ (hslot x hx)
    · exact h.distinct x y _ (hslot x hx) (hxy ▸ hslot y hy)
    · obtain ⟨x, hx⟩ := h.covered k (by simpa using hk)
      have hxF : x ∈ F := (hF x).mpr ⟨k, hx⟩
      exact ⟨x, hxF, hunique x _ _ (hslot x hxF) hx⟩
  rw [← Finset.card_range s.num]
  exact Finset.card_nbij slot hbij.mapsTo hbij.injOn hbij.surjOn

/-- Any 32 clients can be served one after the other, before any other client calls. -/
theorem serve_all : ∀ xs : List ι, xs.Nodup → xs.length ≤ SLOTS →
    ∃ s, (server ι).Reachable s ∧ Good s ∧ s.disp = .idle ∧ s.num = xs.length ∧
      (∀ x ∈ xs, ∃ pid num res, s.client x = .served pid num res) ∧
      ∀ x, x ∉ xs → s.client x = .fresh := by
  intro xs
  induction xs with
  | nil =>
    intro _ _
    exact ⟨init ι, Machine.Reaches.refl _, good_init, rfl, rfl, by simp, fun _ _ => rfl⟩
  | cons x xs ih =>
    intro hnd hlen
    obtain ⟨hx, hnd'⟩ := List.nodup_cons.mp hnd
    obtain ⟨s, hs, hg, hd, hnum, hserved, hfresh⟩ := ih hnd' (Nat.le_of_succ_le hlen)
    have hout : ∀ y, s.client y ≠ .fresh ↔ y ∈ xs := fun y => by
      refine ⟨fun hy => by_contra fun hn => hy (hfresh y hn), fun hy => ?_⟩
      obtain ⟨pid, num, res, hv⟩ := hserved y hy
      simp [hv]
    obtain ⟨t, pid, num, res, hr, hg', hd', hc⟩ := serve_next hg hd
      (hnum ▸ Nat.lt_of_succ_le hlen) (hfresh x hx) fun y hy => hserved y ((hout y).mp hy)
    have hserved' : ∀ y ∈ x :: xs, ∃ pid num res, t.client y = .served pid num res := by
      intro y hy
      rcases eq_or_ne y x with rfl | hyx
      · exact ⟨pid, num, res, by simp [hc]⟩
      · simpa [hc, hyx] using hserved y (List.mem_of_ne_of_mem hyx hy)
    have hfresh' : ∀ y, y ∉ x :: xs → t.client y = .fresh := by
      intro y hy
      obtain ⟨hyx, hyxs⟩ := not_or.mp (mt List.mem_cons.mpr hy)
      simpa [hc, hyx] using hfresh y hyxs
    have hcard : (x :: xs).toFinset.card = t.num := hg'.inv.card_eq fun y => by
      have hidle : ∀ k, t.disp.issues ≠ some (y, k) := fun k => by simp [hd', Dispatcher.issues]
      by_cases hy : y ∈ x :: xs
      · obtain ⟨p, m, v, hv⟩ := hserved' y hy
        exact ⟨fun _ => ⟨p, Or.inl (by rw [hv]; rfl)⟩, fun _ => List.mem_toFinset.mpr hy⟩
      · refine ⟨fun hin => absurd (List.mem_toFinset.mp hin) hy, ?_⟩
        rintro ⟨k, hk | ⟨-, hk⟩⟩
        · exact absurd hk (by simp [hfresh' y hy, Client.slot])
        · exact absurd hk (hidle k)
    rw [List.toFinset_card_of_nodup hnd] at hcard
    exact ⟨t, hs.trans hr, hg', hd', hcard.symm, hserved', hfresh'⟩

/-- The first 32 clients are served one after the other; then client 32 calls. -/
theorem lastClient_run : ∃ as t, (udp (Fin 33)).run (Udp.init (Fin 33)) as = some t ∧
    (udp (Fin 33)).StatesMeet (fun n => {x | n.slots.InProgress n.Served x}.ncard ≤ 32)
      (Udp.init (Fin 33)) as ∧
    ¬ (udp (Fin 33)).StatesMeet SlotsOk (Udp.init (Fin 33)) as := by
  obtain ⟨s, ⟨as, has⟩, hg, hd, hnum, hserved, hfresh⟩ :=
    serve_all firstClients (by decide) (by decide)
  have hnum : s.num = 32 := hnum.trans (by decide)
  have hlast : s.client 32 = .fresh := hfresh 32 (by decide)
  obtain ⟨es, n, hes, hsteps, h⟩ :=
    Direct.run as _ _ direct_init inv_init has (by rw [hnum]; decide)
  have hzero : n.executed 32 = 0 := h.executed 32 hlast (by simp [hd, Dispatcher.holder])
  obtain ⟨pid, num, res, hfirst⟩ := hserved 0 (by decide)
  have hserved₀ : n.Served 0 := ⟨pid, num, res, (h.client 0).trans (congrArg some hfirst)⟩
  have hbefore := hsteps.statesMeet_of_run (I := Udp.Inv) (R := fun n => n.executed 32 = 0)
    (fun n e n' hi hfit hst => hi.moves (hi.step hfit hst))
    (fun n e n' hi hfit hst hz => Nat.le_zero.mp (hz ▸ (hi.step hfit hst).slots.executed 32))
    Udp.inv_init hes hzero
  set n₁ : Udp (Fin 33) := { n with requests := [⟨32, .fresh⟩] } with hn₁
  have hgo : ¬ (n.srv.fault.isSome ∨ n.exited = true) := by
    simp [h.srv, hg.inv.fault, h.exited]
  have hsend : n.step (.send 32) = some n₁ := by
    refine (if_neg hgo).trans ?_
    simp only [Udp.send, h.client 32, hlast, h.requests, List.nil_append, hn₁]
  set n₂ : Udp (Fin 33) := { n₁ with
    srv := { s with num := s.num + 1, disp := .getNumber 32 s.num 0 .choose }, requests := []
    executed := Function.update n.executed 32 1 } with hn₂
  have htake : n₁.step (.take 0) = some n₂ := by
    refine (if_neg hgo).trans ?_
    have hself : n.srv.setClient 32 .fresh = s := by rw [h.srv, ← hlast, setClient_client]
    simp only [Udp.take, hn₁, List.getElem?_cons_zero, Option.bind_some, hself, request, hd,
      hlast, Option.map_some, if_true, List.eraseIdx_cons_zero, hzero, hn₂]
  have hrun : (udp (Fin 33)).run (Udp.init (Fin 33)) (es ++ [.send 32, .take 0]) = some n₂ := by
    rw [Machine.run_append, hes]
    exact Machine.run_cons_eq_some.mpr ⟨n₁, hsend, Machine.run_cons_eq_some.mpr ⟨n₂, htake, rfl⟩⟩
  refine ⟨es ++ [.send 32, .take 0], n₂, hrun, ?_, fun hok => ?_⟩
  · have hle : ∀ m : Udp (Fin 33), m.Served 0 →
        {x | m.slots.InProgress m.Served x}.ncard ≤ 32 :=
      fun m hm => inProgress_le (x := 0) fun hp => hp.2 hm
    refine (hbefore.mono fun m hm => inProgress_le (hm.1.issued.not_inProgress hm.2 _)).append
      hes ⟨hle n hserved₀, fun r hr => ?_⟩
    obtain rfl := Option.some.inj (hsend.symm.trans hr)
    refine ⟨hle n₁ hserved₀, fun r hr => ?_⟩
    obtain rfl := Option.some.inj (htake.symm.trans hr)
    exact hle n₂ hserved₀
  · have hholds : n₂.Holds 32 32 := Or.inl (by simp [hn₂, Dispatcher.holder, hnum])
    exact absurd ((hok.last hrun).slots.slot_lt 32 32 hholds) (Nat.lt_irrefl 32)

end OsLabs.Bakery1

namespace OsLabs.Bakery2

open Bakery

/-- The first 32 clients take their tickets, client 0 is served, then client 32 calls. -/
def firstCalls : List (Event (Fin 33)) :=
  firstClients.flatMap (fun x => [.send x, .execute 0 1, .deliver 0]) ++
    [.send 0, .execute 0 1, .deliver 0, .send 32]

theorem lastCall_run :
    ∃ t, (network (Fin 33) secondClock).run (Net.init (Fin 33)) (firstCalls ++ [.execute 0 1]) =
        some t ∧
      (network (Fin 33) secondClock).StatesMeet
        (fun s => {x | s.slots.InProgress s.Served x}.ncard ≤ 32) (Net.init (Fin 33))
        (firstCalls ++ [.execute 0 1]) ∧
      ¬ (network (Fin 33) secondClock).StatesMeet SlotsOk (Net.init (Fin 33))
        (firstCalls ++ [.execute 0 1]) := by
  have hrun : ((network (Fin 33) secondClock).run (Net.init (Fin 33)) firstCalls).map
      (fun s => (s.executed 32 .getNumber, s.client 0, s.requests, s.srv.num, s.fault.isSome)) =
        some (0, .done 0 1 97, [⟨32, .getNumber, ⟨0, 0, 0⟩⟩], 32, false) := by
    decide +kernel
  obtain ⟨s, hs, h⟩ := Option.map_eq_some_iff.mp hrun
  simp only [Prod.mk.injEq] at h
  obtain ⟨hzero, hfirst, hreq, hnum, hfault⟩ := h
  set s' : Net (Fin 33) := { s with
    executed := s.count ⟨32, .getNumber, ⟨0, 0, 0⟩⟩, fault := some (.choosing, 32) } with hs'
  have hst : netStep secondClock s (.execute 0 1) = some s' := by
    have hgo : ¬ s.fault.isSome := by simp [hfault]
    refine (if_neg hgo).trans ?_
    have hge : ¬ s.srv.num < SLOTS := by rw [hnum]; decide
    simp only [execute, hreq, List.getElem?_cons_zero, Option.bind_some, handle,
      getNumber1Svc_of_ge hge, Option.map_some, hnum, hs']
  have hrun' : (network (Fin 33) secondClock).run (Net.init (Fin 33))
      (firstCalls ++ [.execute 0 1]) = some s' := by
    rw [Machine.run_append, hs]
    exact Machine.run_cons_eq_some.mpr ⟨s', hst, rfl⟩
  refine ⟨s', hrun', ?_, fun hok => absurd (hok.last hrun').fault (by simp [hs'])⟩
  have hsteps := (stepsMeet_fits_iff hs).mpr (by decide +kernel)
  have hbefore := hsteps.statesMeet_of_run (I := SlotInv)
    (R := fun s => s.executed 32 .getNumber = 0)
    (fun s e s' hi hfit hst => hi.moves (hi.step hfit hst))
    (fun s e s' _ _ hst hz => Nat.le_zero.mp (hz ▸ executed_le hst 32 .getNumber))
    slotInv_init hs hzero
  have hle : ∀ r : Net (Fin 33), r.Served 0 → {x | r.slots.InProgress r.Served x}.ncard ≤ 32 :=
    fun r hr => inProgress_le (x := 0) fun hp => hp.2 hr
  refine (hbefore.mono fun r hr => inProgress_le (hr.1.issued.not_inProgress hr.2 _)).append
    hs ⟨hle s ⟨0, 1, 97, hfirst⟩, fun r hr => ?_⟩
  obtain rfl := Option.some.inj (hst.symm.trans hr)
  exact hle s' ⟨0, 1, 97, hfirst⟩

end OsLabs.Bakery2

/-! ## 6. Both servers -/

namespace OsLabs.Bakery

/-- **How long the slots last.**  Along every run of either server, over a network that resends
and loses, whatever the clients in progress, the slots handed out exist and are not the slots of
others in progress, and every access is within its array, exactly when GET_NUMBER is executed at
most 32 times over the whole run. -/
theorem slotsOk_iff_executions {ι : Type} [DecidableEq ι] (clock : Nat → Int) :
    (∀ as t, (Bakery1.udp ι).run (Bakery1.Udp.init ι) as = some t →
      ((Bakery1.udp ι).StatesMeet Bakery1.SlotsOk (Bakery1.Udp.init ι) as ↔
        (Bakery1.udp ι).count Bakery1.Udp.executes (Bakery1.Udp.init ι) as ≤ 32)) ∧
    (∀ as t, (Bakery2.network ι clock).run (Bakery2.Net.init ι) as = some t →
      ((Bakery2.network ι clock).StatesMeet Bakery2.SlotsOk (Bakery2.Net.init ι) as ↔
        (Bakery2.network ι clock).count Bakery2.Net.executes (Bakery2.Net.init ι) as ≤ 32)) :=
  ⟨fun _ _ hrun => Bakery1.slotsOk_iff hrun, fun _ _ hrun => Bakery2.slotsOk_iff hrun⟩

theorem slotsOk_iff_executions_lastCall :
    ¬ (Bakery2.network (Fin 33) Bakery2.secondClock).count Bakery2.Net.executes
        (Bakery2.Net.init (Fin 33)) (Bakery2.firstCalls ++ [.execute 0 1]) ≤ 32 ∧
      ∃ as, ¬ (Bakery1.udp (Fin 33)).count Bakery1.Udp.executes
        (Bakery1.Udp.init (Fin 33)) as ≤ 32 := by
  obtain ⟨as, s, has, -, hbad⟩ := Bakery1.lastClient_run
  obtain ⟨t, ht, -, hbad'⟩ := Bakery2.lastCall_run
  obtain ⟨h₁, h₂⟩ := @slotsOk_iff_executions (Fin 33) _ Bakery2.secondClock
  exact ⟨fun hle => hbad' ((h₂ _ t ht).mpr hle), as, fun hle => hbad ((h₁ as s has).mpr hle)⟩

/-- **The slots run out.**  In neither server are the slots in order along every run that never
has more than 32 clients in progress. -/
theorem slots_run_out :
    (¬ ∀ as t, (Bakery1.udp (Fin 33)).run (Bakery1.Udp.init (Fin 33)) as = some t →
      (Bakery1.udp (Fin 33)).StatesMeet
        (fun n => {x | n.slots.InProgress n.Served x}.ncard ≤ 32) (Bakery1.Udp.init (Fin 33)) as →
      (Bakery1.udp (Fin 33)).StatesMeet Bakery1.SlotsOk (Bakery1.Udp.init (Fin 33)) as) ∧
    (¬ ∀ as t, (Bakery2.network (Fin 33) Bakery2.secondClock).run
        (Bakery2.Net.init (Fin 33)) as = some t →
      (Bakery2.network (Fin 33) Bakery2.secondClock).StatesMeet
        (fun s => {x | s.slots.InProgress s.Served x}.ncard ≤ 32) (Bakery2.Net.init (Fin 33)) as →
      (Bakery2.network (Fin 33) Bakery2.secondClock).StatesMeet Bakery2.SlotsOk
        (Bakery2.Net.init (Fin 33)) as) := by
  constructor
  · intro h
    obtain ⟨as, t, hrun, hle, hbad⟩ := Bakery1.lastClient_run
    exact hbad (h as t hrun hle)
  · intro h
    obtain ⟨t, hrun, hle, hbad⟩ := Bakery2.lastCall_run
    exact hbad (h _ t hrun hle)

end OsLabs.Bakery
