/-
# bakery2: the order in which letters are handed out

The waiting loop of `bakery_service_1_svc` gives each slot that goes first one second of
processor time (`flag`), and the one thread of the server changes no slot meanwhile.  So a client
that asks for service before one with a smaller ticket is served before it, after a second
(`turns_giveUp`, `early_service`).

The live tickets ascend with their slots, as each is larger than all live ones.  So the letters
come in the order of the tickets exactly as long as no call of BAKERY_SERVICE finds a smaller
ticket (`inOrder_iff_inTurn`).
-/
import Mathlib.Data.Int.ConditionallyCompleteOrder
import Mathlib.Order.ConditionallyCompleteLattice.Basic
import Mathlib.Tactic.Common
import OsLabs.Bakery2.Calls

namespace OsLabs.Bakery2

open Bakery

/-! ## 1. The waiting loop -/

section Wait

variable {clock : Nat → Int} {s : Server} {argp : BAKERY} {j fuel : Nat} {tStart : Int}

/-- What one iteration of the loop over `j` did: its slot, the number of its reading `t_start`,
the readings made by the time it was left, and `flag` there. -/
structure Turn where
  slot : Nat
  start : Nat
  stop : Nat
  flag : Bool
deriving DecidableEq, Repr

/-- The body of the loop, as `waitSlot` has it, with what it did. -/
def turn (clock : Nat → Int) (fuel : Nat) (s : Server) (argp : BAKERY) (tick j : Nat) :
    Option Turn :=
  if s.choosing j ≠ 0 then none
  else (waitTurn clock s argp j (clock tick) fuel (tick + 1) true).map fun r => ⟨j, tick, r.1, r.2⟩

/-- The iterations for the slots of a list, each from where the one before was left. -/
def turns (clock : Nat → Int) (fuel : Nat) (s : Server) (argp : BAKERY) :
    Nat → List Nat → Option (List Turn)
  | _, [] => some []
  | tick, j :: js => (turn clock fuel s argp tick j).bind fun t =>
      (turns clock fuel s argp t.stop js).map (t :: ·)

/-- The readings made by the time that the last iteration was left. -/
def lastStop (tick : Nat) (ts : List Turn) : Nat := ts.foldl (fun _ t => t.stop) tick

/-- **The loop of the handler** consists of these iterations. -/
theorem foldlM_waitSlot (tick : Nat) (js : List Nat) :
    js.foldlM (waitSlot clock fuel s argp) tick =
      (turns clock fuel s argp tick js).map (lastStop tick) := by
  induction js generalizing tick with
  | nil => rfl
  | cons j js ih =>
    have hslot : waitSlot clock fuel s argp tick j =
        (turn clock fuel s argp tick j).map Turn.stop := by
      unfold waitSlot turn
      split
      · rfl
      · rw [Option.map_map]
        rfl
    rw [List.foldlM_cons, hslot, turns]
    cases turn clock fuel s argp tick j with
    | none => rfl
    | some t =>
      simp only [Option.map_some, Option.bind_some, Option.map_map, bind, ih]
      rfl

/-- The iteration gave up on its slot, a second or more after it had read `t_start`. -/
structure Turn.GaveUp (clock : Nat → Int) (t : Turn) : Prop where
  flag : t.flag = false
  second : CLOCKS_PER_SEC ≤ clock (t.stop - 1) - clock t.start

/-- The iteration left its slot at once. -/
structure Turn.WentOn (t : Turn) : Prop where
  flag : t.flag = true
  stop : t.stop = t.start + 1

/-- **A slot that goes first keeps its turn until the second is over**, as nothing changes the
slots while the handler runs. -/
theorem waitTurn_first (hfirst : goesFirst s argp j) : ∀ {fuel tick tick' : Nat} {flag : Bool},
    waitTurn clock s argp j tStart fuel tick true = some (tick', flag) →
      flag = false ∧ ∃ t, tick ≤ t ∧ tick' = t + 1 ∧
        (clock t - tStart).tdiv CLOCKS_PER_SEC ≠ 0
  | fuel + 1, tick, tick', flag, h => by
    rw [waitTurn, if_pos ⟨rfl, hfirst⟩] at h
    by_cases hsec : (clock tick - tStart).tdiv CLOCKS_PER_SEC ≠ 0
    · -- the flag is down, and the loop ends
      rw [if_pos hsec] at h
      cases fuel with
      | zero => exact absurd h (by simp [waitTurn])
      | succ fuel =>
        rw [waitTurn, if_neg (by simp)] at h
        obtain ⟨rfl, rfl⟩ := Prod.mk.inj (Option.some.inj h)
        exact ⟨rfl, tick, Nat.le_refl _, rfl, hsec⟩
    · rw [if_neg hsec] at h
      obtain ⟨hflag, t, hle, heq, ht⟩ := waitTurn_first hfirst h
      exact ⟨hflag, t, by omega, heq, ht⟩

theorem second_of_tdiv {d : Int} (hnonneg : 0 ≤ d) (h : d.tdiv CLOCKS_PER_SEC ≠ 0) :
    CLOCKS_PER_SEC ≤ d := by
  by_contra hlt
  refine h ?_
  exact Int.tdiv_eq_zero_of_lt hnonneg (by omega)

/-- **One iteration** gives up on a slot that goes first, and goes on from any other. -/
theorem turn_cases (hclock : Monotone clock) {tick : Nat} {t : Turn}
    (h : turn clock fuel s argp tick j = some t) :
    t.slot = j ∧ t.start = tick ∧ (goesFirst s argp j → t.GaveUp clock) ∧
      (¬ goesFirst s argp j → t.WentOn) := by
  unfold turn at h
  split at h
  · exact absurd h (by simp)
  · obtain ⟨⟨tick', flag⟩, hturn, rfl⟩ := Option.map_eq_some_iff.mp h
    refine ⟨rfl, rfl, fun hfirst => ?_, fun hfirst => ?_⟩
    · obtain ⟨rfl, t, htick, rfl, hdiv⟩ := waitTurn_first hfirst hturn
      have hmono := hclock (show tick ≤ t by omega)
      exact ⟨rfl, second_of_tdiv (by simp only [Nat.add_sub_cancel]; omega) hdiv⟩
    · cases fuel with
      | zero => exact absurd hturn (by simp [waitTurn])
      | succ fuel =>
        rw [waitTurn, if_neg (fun hc => hfirst hc.2)] at hturn
        obtain ⟨rfl, rfl⟩ := Prod.mk.inj (Option.some.inj hturn)
        exact ⟨rfl, rfl⟩

/-- **The loop over the slots** has one iteration for each, which gives up on it exactly if it
goes first. -/
theorem turns_giveUp (hclock : Monotone clock) : ∀ {js : List Nat} {tick : Nat} {ts : List Turn},
    turns clock fuel s argp tick js = some ts → ts.map Turn.slot = js ∧
      ∀ t ∈ ts, (goesFirst s argp t.slot → t.GaveUp clock) ∧
        (¬ goesFirst s argp t.slot → t.WentOn) := by
  intro js
  induction js with
  | nil =>
    intro tick ts h
    obtain rfl : [] = ts := Option.some.inj h
    exact ⟨rfl, by simp⟩
  | cons j js ih =>
    intro tick ts h
    rw [turns] at h
    obtain ⟨t, ht, h⟩ := Option.bind_eq_some_iff.mp h
    obtain ⟨ts, hts, rfl⟩ := Option.map_eq_some_iff.mp h
    obtain ⟨rfl, -, hfirst⟩ := turn_cases hclock ht
    obtain ⟨hslots, hall⟩ := ih hts
    exact ⟨by rw [List.map_cons, hslots], List.forall_mem_cons.mpr ⟨hfirst, hall⟩⟩

/-- The iterations of a call of BAKERY_SERVICE that leaves the server `s'`. -/
structure Iterations (clock : Nat → Int) (fuel : Nat) (s : Server) (argp : BAKERY) (s' : Server)
    (ts : List Turn) : Prop where
  eq : turns clock fuel s argp s.tick (List.range SLOTS) = some ts
  last : lastStop s.tick ts = s'.tick

/-- Every call that returns has made its iterations. -/
theorem bakeryService1Svc_iterations {s' : Server} {r : BAKERY}
    (h : bakeryService1Svc clock fuel s argp = some (.ok (r, s'))) :
    ∃ ts, Iterations clock fuel s argp s' ts := by
  obtain ⟨tick, htick, h⟩ := Option.map_eq_some_iff.mp h
  rw [foldlM_waitSlot] at htick
  obtain ⟨ts, hts, hlast⟩ := Option.map_eq_some_iff.mp htick
  refine ⟨ts, hts, ?_⟩
  by_cases hl : argp.pid < SLOTS
  · rw [if_pos hl, Except.ok.injEq, Prod.mk.injEq] at h
    rw [hlast, ← h.2]
  · rw [if_neg hl] at h
    exact absurd h (by simp)

end Wait

/-! ## 2. The tickets -/

theorem le_foldl_scan (number : Nat → Nat) : ∀ (l : List Nat) (m : Nat),
    m ≤ l.foldl (fun max i => if number i > max then number i else max) m ∧
      ∀ i ∈ l, number i ≤
        l.foldl (fun max i => if number i > max then number i else max) m := by
  intro l
  induction l with
  | nil =>
    intro m
    exact ⟨Nat.le_refl _, by simp⟩
  | cons i l ih =>
    intro m
    rw [List.foldl_cons]
    obtain ⟨hm, hl⟩ := ih (if number i > m then number i else m)
    refine ⟨Nat.le_trans ?_ hm, fun k hk => ?_⟩
    · split <;> omega
    · rcases List.mem_cons.mp hk with rfl | hk
      · refine Nat.le_trans ?_ hm
        split <;> omega
      · exact hl k hk

/-- **A new ticket is larger than every live one.** -/
theorem le_scan {number : Nat → Nat} {j : Nat} (hj : j < SLOTS) : number j ≤ scan number :=
  (le_foldl_scan number (List.range SLOTS) 0).2 j (List.mem_range.mpr hj)

section Order

variable {ι : Type} {clock : Nat → Int} {s s' : Calls ι} {a : Call ι}

/-- The next slot, the slots and the clients: each ticket is in its slot, no two clients have one
slot, and the live tickets ascend. -/
structure TicketInv (next : Nat) (number : Nat → Nat) (client : ι → Caller) : Prop where
  next_le : next ≤ SLOTS
  ticket : ∀ x pid num, client x = .ticket pid num → pid < next ∧ number pid = num ∧ num ≠ 0
  unique : ∀ x y pid num num', client x = .ticket pid num → client y = .ticket pid num' → x = y
  unissued : ∀ j, next ≤ j → number j = 0
  ascending : ∀ j k, j < k → number j ≠ 0 → number k ≠ 0 → number j < number k

def Calls.Tickets (s : Calls ι) : Prop := TicketInv s.srv.num s.srv.number s.client

theorem tickets_init : (Calls.init ι).Tickets where
  next_le := Nat.zero_le _
  ticket _ _ _ h := absurd h (by simp [Calls.init])
  unique _ _ _ _ _ h := absurd h (by simp [Calls.init])
  unissued _ _ := rfl
  ascending _ _ _ h := absurd rfl h

variable [DecidableEq ι] {next : Nat} {number : Nat → Nat} {client : ι → Caller}

/-- A GET_NUMBER, while there are slots. -/
theorem TicketInv.getNumber (h : TicketInv next number client) {x : ι} (hnext : next < SLOTS) :
    TicketInv (next + 1) (Function.update number next (scan number + 1))
      (Function.update client x (.ticket next (scan number + 1))) := by
  have holder : ∀ y pid num, y ≠ x → client y = .ticket pid num → pid ≠ next :=
    fun y pid num _ hy => by
      have := (h.ticket y pid num hy).1
      omega
  constructor
  · exact hnext
  · intro y pid num hy
    by_cases hyx : y = x
    · subst hyx
      rw [Function.update_self, Caller.ticket.injEq] at hy
      obtain ⟨rfl, rfl⟩ := hy
      exact ⟨Nat.lt_succ_self _, Function.update_self .., Nat.succ_ne_zero _⟩
    · rw [Function.update_of_ne hyx] at hy
      obtain ⟨hlt, heq, hne⟩ := h.ticket y pid num hy
      refine ⟨Nat.lt_succ_of_lt hlt, ?_, hne⟩
      rw [Function.update_of_ne (holder y pid num hyx hy)]
      exact heq
  · intro y z pid num num' hy hz
    by_cases hyx : y = x
    · by_cases hzx : z = x
      · rw [hyx, hzx]
      · subst hyx
        rw [Function.update_self, Caller.ticket.injEq] at hy
        rw [Function.update_of_ne hzx] at hz
        exact absurd hy.1.symm (holder z pid num' hzx hz)
    · rw [Function.update_of_ne hyx] at hy
      by_cases hzx : z = x
      · subst hzx
        rw [Function.update_self, Caller.ticket.injEq] at hz
        exact absurd hz.1.symm (holder y pid num hyx hy)
      · rw [Function.update_of_ne hzx] at hz
        exact h.unique y z pid num num' hy hz
  · intro j hj
    rw [Function.update_of_ne (by omega)]
    exact h.unissued j (by omega)
  · intro j k hjk hj hk
    by_cases hkn : k = next
    · -- the new ticket is the largest
      subst hkn
      rw [Function.update_self, Function.update_of_ne (by omega)]
      exact Nat.lt_succ_of_le (le_scan (by omega))
    · rw [Function.update_of_ne hkn] at hk ⊢
      have hkl : k < next := by
        by_contra hge
        exact hk (h.unissued k (by omega))
      rw [Function.update_of_ne (by omega)] at hj ⊢
      exact h.ascending j k hjk hj hk

/-- A BAKERY_SERVICE. -/
theorem TicketInv.service (h : TicketInv next number client) {x : ι} {pid num r : Nat}
    (hx : client x = .ticket pid num) :
    TicketInv next (Function.update number pid 0)
      (Function.update client x (.served pid num r)) := by
  have holds : ∀ y pid' num', Function.update client x (.served pid num r) y = .ticket pid' num' →
      y ≠ x ∧ client y = .ticket pid' num' := fun y pid' num' hy => by
    by_cases hyx : y = x
    · subst hyx
      rw [Function.update_self] at hy
      exact absurd hy (by simp)
    · rw [Function.update_of_ne hyx] at hy
      exact ⟨hyx, hy⟩
  have hlive : ∀ j, Function.update number pid 0 j ≠ 0 →
      Function.update number pid 0 j = number j := fun j hj => by
    have hne : j ≠ pid := by
      rintro rfl
      exact hj (Function.update_self ..)
    exact Function.update_of_ne hne ..
  constructor
  · exact h.next_le
  · intro y pid' num' hy
    obtain ⟨hyx, hy⟩ := holds y pid' num' hy
    obtain ⟨hlt, heq, hne⟩ := h.ticket y pid' num' hy
    refine ⟨hlt, ?_, hne⟩
    rw [Function.update_of_ne ?_]
    · exact heq
    · intro hpid
      exact hyx (h.unique y x pid num' num (hpid ▸ hy) hx)
  · intro y z pid' num' num'' hy hz
    exact h.unique y z pid' num' num'' (holds y _ _ hy).2 (holds z _ _ hz).2
  · intro j hj
    by_cases hjp : j = pid
    · subst hjp
      exact Function.update_self ..
    · rw [Function.update_of_ne hjp]
      exact h.unissued j hj
  · intro j k hjk hj hk
    have hascending := h.ascending j k hjk (by rwa [← hlive j hj]) (by rwa [← hlive k hk])
    rw [hlive j hj, hlive k hk]
    exact hascending

theorem Calls.Tickets.step (h : s.Tickets) (hst : callStep clock s a = some s') : s'.Tickets := by
  obtain ⟨-, ⟨-, hlt, rfl⟩ | ⟨-, -, rfl⟩ | ⟨pid, num, hx, ⟨-, tick, rfl⟩ | ⟨-, rfl⟩⟩⟩ :=
    callStep_cases hst
  · exact TicketInv.getNumber h hlt
  · exact h
  · exact TicketInv.service h hx
  · exact h

/-! ## 3. Letters in the order of the tickets -/

/-- A BAKERY_SERVICE call finds no live ticket that is lexicographically smaller than its own. -/
def InTurn (s : Calls ι) (a : Call ι) : Prop :=
  match s.client a.client with
  | .ticket pid num => ∀ j < SLOTS, ¬ goesFirst s.srv ⟨num, pid, 0⟩ j
  | _ => True

/-- A BAKERY_SERVICE call has one iteration for each slot, in order; the one for a smaller ticket
has given up on it a second or more after its own `t_start`, and any other has gone on at once. -/
def Waits (clock : Nat → Int) (s : Calls ι) (a : Call ι) : Prop :=
  match s.client a.client with
  | .ticket pid num => ∀ s', callStep clock s a = some s' → ∃ ts,
      Iterations clock a.fuel s.srv ⟨num, pid, 0⟩ s'.srv ts ∧ ts.map Turn.slot = List.range SLOTS ∧
        ∀ t ∈ ts, (goesFirst s.srv ⟨num, pid, 0⟩ t.slot → t.GaveUp clock) ∧
          (¬ goesFirst s.srv ⟨num, pid, 0⟩ t.slot → t.WentOn)
  | _ => True

/-- The letters handed out so far went to the first slots, in order. -/
def InOrder (s : Calls ι) : Prop :=
  s.srv.printed.map Prod.fst = List.range s.srv.printed.length

/-- **Every call waits for the smaller tickets.** -/
theorem Calls.Tickets.waits (h : s.Tickets) (hclock : Monotone clock) : Waits clock s a := by
  unfold Waits
  split
  · next pid num hx =>
    intro s' hst
    have hpid : pid < SLOTS := Nat.lt_of_lt_of_le (h.ticket _ _ _ hx).1 h.next_le
    unfold callStep at hst
    split at hst
    · exact absurd hst (by simp)
    · simp only [hx] at hst
      obtain ⟨out, hout, rfl⟩ := Option.map_eq_some_iff.mp hst
      cases out with
      | error e => exact absurd hpid (bakeryService1Svc_error hout).1
      | ok out =>
        obtain ⟨r, srv⟩ := out
        obtain ⟨ts, hts⟩ := bakeryService1Svc_iterations hout
        exact ⟨ts, hts, turns_giveUp hclock hts.eq⟩
  · trivial

/-- What is served: the slots below the number of letters, and no other. -/
structure OrderInv (s : Calls ι) : Prop where
  tickets : s.Tickets
  inOrder : InOrder s
  printed_le : s.srv.printed.length ≤ s.srv.num
  served : ∀ j, j < s.srv.printed.length → s.srv.number j = 0
  unserved : ∀ j, s.srv.printed.length ≤ j → j < s.srv.num → s.srv.number j ≠ 0

omit [DecidableEq ι] in
theorem orderInv_init : OrderInv (Calls.init ι) where
  tickets := tickets_init
  inOrder := rfl
  printed_le := Nat.le_refl _
  served _ _ := rfl
  unserved _ _ hj := absurd hj (Nat.not_lt_zero _)

omit [DecidableEq ι] in
/-- **A ticket is in turn exactly when its slot is the first that is not served.** -/
theorem OrderInv.inTurn_iff (h : OrderInv s) {x : ι} {pid num : Nat}
    (hx : s.client x = .ticket pid num) :
    (∀ j < SLOTS, ¬ goesFirst s.srv ⟨num, pid, 0⟩ j) ↔ pid = s.srv.printed.length := by
  obtain ⟨hlt, heq, hne⟩ := h.tickets.ticket x pid num hx
  have hnum := h.tickets.next_le
  have hle : s.srv.printed.length ≤ pid := by
    by_contra hgt
    exact hne (heq.symm.trans (h.served pid (by omega)))
  constructor
  · intro hturn
    by_contra hpid
    -- the first slot that is not served is smaller
    have hlive := h.unserved s.srv.printed.length (Nat.le_refl _) (by omega)
    refine hturn s.srv.printed.length (by omega) ⟨hlive, .inl ?_⟩
    rw [← heq]
    exact h.tickets.ascending _ pid (by omega) hlive (by rwa [heq])
  · rintro hpid j hj ⟨hlive, hsmall⟩
    have hjp : j < pid := by
      rcases hsmall with hless | ⟨-, hjp⟩
      · by_contra hge
        have hpj : pid < j := by
          by_contra hle'
          obtain rfl : j = pid := by omega
          simp only [heq] at hless
          omega
        have hascending := h.tickets.ascending pid j hpj (by rwa [heq]) hlive
        simp only [← heq] at hless
        omega
      · exact hjp
    exact hlive (h.served j (by omega))

/-- **A step that is in turn** keeps the order. -/
theorem OrderInv.step (h : OrderInv s) (hturn : InTurn s a)
    (hst : callStep clock s a = some s') : OrderInv s' := by
  have htickets := h.tickets.step hst
  have hle := h.printed_le
  obtain ⟨-, ⟨-, hlt, rfl⟩ | ⟨-, -, rfl⟩ | ⟨pid, num, hx, ⟨-, tick, rfl⟩ | ⟨-, rfl⟩⟩⟩ :=
    callStep_cases hst
  · refine ⟨htickets, h.inOrder, Nat.le_succ_of_le hle, fun j hj => ?_, fun j hlen hj => ?_⟩
    · have hne : j ≠ s.srv.num := by
        simp only at hj
        omega
      simp only [Function.update_of_ne hne]
      exact h.served j hj
    · by_cases hnew : j = s.srv.num
      · subst hnew
        simp
      · simp only [Function.update_of_ne hnew]
        simp only at hj
        exact h.unserved j hlen (by omega)
  · exact ⟨htickets, h.inOrder, hle, h.served, h.unserved⟩
  · simp only [InTurn, hx] at hturn
    have hpid := (h.inTurn_iff hx).mp hturn
    have hlt := (h.tickets.ticket _ _ _ hx).1
    refine ⟨htickets, ?_, ?_, fun j hj => ?_, fun j hlen hj => ?_⟩
    · have hord := h.inOrder
      unfold InOrder at hord ⊢
      simp only [List.map_append, List.map_singleton, List.length_append, List.length_singleton]
      rw [hord, List.range_succ, hpid]
    · simp only [List.length_append, List.length_singleton]
      omega
    · simp only [List.length_append, List.length_singleton] at hj
      by_cases hjp : j = pid
      · subst hjp
        exact Function.update_self ..
      · simp only [Function.update_of_ne hjp]
        exact h.served j (by omega)
    · simp only [List.length_append, List.length_singleton] at hlen
      have hjp : j ≠ pid := by omega
      simp only [Function.update_of_ne hjp]
      exact h.unserved j (by omega) hj
  · exact ⟨htickets, h.inOrder, hle, h.served, h.unserved⟩

/-- **A step that is not in turn** gives a letter to a slot before a smaller one has its own. -/
theorem OrderInv.not_inOrder (h : OrderInv s) (hturn : ¬ InTurn s a)
    (hst : callStep clock s a = some s') : ¬ InOrder s' := by
  obtain ⟨-, ⟨hx, -, rfl⟩ | ⟨hx, -, rfl⟩ | ⟨pid, num, hx, ⟨-, tick, rfl⟩ | ⟨hpid, rfl⟩⟩⟩ :=
    callStep_cases hst
  · exact absurd (by simp [InTurn, hx]) hturn
  · exact absurd (by simp [InTurn, hx]) hturn
  · simp only [InTurn, hx] at hturn
    have hne : pid ≠ s.srv.printed.length := fun hpid => hturn ((h.inTurn_iff hx).mpr hpid)
    intro hord
    have hold := h.inOrder
    unfold InOrder at hord hold
    simp only [List.map_append, List.map_singleton, List.length_append,
      List.length_singleton] at hord
    rw [hold, List.range_succ] at hord
    exact hne (List.singleton_inj.mp (List.append_cancel_left hord))
  · exact absurd (Nat.lt_of_lt_of_le (h.tickets.ticket _ _ _ hx).1 h.tickets.next_le) hpid

/-- Along every run the letters are handed out in the order of the tickets exactly when every
call of BAKERY_SERVICE is in turn. -/
theorem inOrder_iff_inTurn (clock : Nat → Int) (as : List (Call ι)) :
    (server ι clock).StatesMeet InOrder (server ι clock).init as ↔
      (server ι clock).StepsMeet InTurn (server ι clock).init as :=
  (Machine.stepsMeet_iff_statesMeet (M := server ι clock) (fun _ h => OrderInv.inOrder h)
    (fun _ _ _ h hturn hst => h.step hturn hst)
    (fun _ _ _ h hturn hst => h.not_inOrder hturn hst) orderInv_init).symm

/-- Whatever the order of the calls: a BAKERY_SERVICE call that assigns its letter while another
client holds a smaller ticket has waited for that client, in the iteration for its slot, until a
second was over; and the letters are handed out in the order of the tickets exactly as long as no
call finds a smaller ticket. -/
theorem served_in_turn_or_after_wait {clock : Nat → Int} (hclock : Monotone clock)
    (as : List (Call ι)) :
    (server ι clock).StepsMeet (Waits clock) (server ι clock).init as ∧
      ((server ι clock).StatesMeet InOrder (server ι clock).init as ↔
        (server ι clock).StepsMeet InTurn (server ι clock).init as) :=
  ⟨Machine.stepsMeet_of_inv (M := server ι clock) (I := Calls.Tickets)
      (fun _ _ _ h hst => ⟨h.step hst, h.waits hclock⟩) tickets_init,
    inOrder_iff_inTurn clock as⟩

end Order

/-- Two clients take their tickets, and the second asks for service first. -/
def earlyCalls : List (Call (Fin 2)) := [⟨0, 0⟩, ⟨1, 0⟩, ⟨1, 2⟩]

theorem secondClock_monotone : Monotone secondClock := fun a b h => by
  have hle : (a : Int) ≤ b := by exact_mod_cast h
  simp only [secondClock, CLOCKS_PER_SEC]
  omega

theorem served_in_turn_or_after_wait_early :
    Monotone secondClock ∧
    (server (Fin 2) secondClock).StepsMeet (Waits secondClock)
      (server (Fin 2) secondClock).init earlyCalls ∧
    ((server (Fin 2) secondClock).StatesMeet InOrder (server (Fin 2) secondClock).init earlyCalls ↔
      (server (Fin 2) secondClock).StepsMeet InTurn
        (server (Fin 2) secondClock).init earlyCalls) :=
  ⟨secondClock_monotone, served_in_turn_or_after_wait secondClock_monotone earlyCalls⟩

/-- **The second client is served first**, although the first one holds the smaller ticket. -/
theorem early_service : ¬ ∀ n ≤ 32, ∀ clock : Nat → Int, Monotone clock →
    ∀ as : List (Call (Fin n)),
      (server (Fin n) clock).StepsMeet InTurn (server (Fin n) clock).init as := by
  intro h
  have hturn := h 2 (by decide) secondClock secondClock_monotone earlyCalls
  have hord := (inOrder_iff_inTurn secondClock earlyCalls).mpr hturn
  have hprinted : ((server (Fin 2) secondClock).run (server (Fin 2) secondClock).init
      earlyCalls).map (fun s => s.srv.printed) = some [(1, 2, 97)] := by decide +kernel
  obtain ⟨s, hrun, hs⟩ := Option.map_eq_some_iff.mp hprinted
  have hlast := hord.last hrun
  rw [InOrder, hs] at hlast
  exact absurd hlast (by decide)

end OsLabs.Bakery2
