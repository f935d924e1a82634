/-
# bakery2: the single-threaded bakery server

`3/proc/bakery2/bakery_server.c` has two handlers and one thread, so a handler runs from its
call to its return with nothing in between and is a function of the server's state here.
`bakery_service_1_svc` waits for the lower tickets inside the handler and gives each of them one
second: the readings of `clock()` are a sequence, `tick` counts the readings made, and the
waiting loop takes a bound on its iterations, as nothing in the code bounds them.

As in `Bakery1.Model` every array access is checked against the 32 entries, and an access
outside them is an error that names the array and the index.  `int` and `char` values stay far
inside their ranges as long as no access faults.
-/
import Mathlib.Data.List.Range
import Mathlib.Logic.Function.Basic
import OsLabs.Bakery.Letters
import OsLabs.Lib.Machine

namespace OsLabs.Bakery2

open Bakery

/-- `struct BAKERY`. -/
structure BAKERY where
  num : Nat
  pid : Nat
  res : Nat
deriving DecidableEq, Repr

/-- The globals of the server, the lines it has printed (slot, number and letter) and the
number of clock readings made. -/
structure Server where
  choosing : Nat → Nat
  number : Nat → Nat
  num : Nat
  c : Nat
  printed : List (Nat × Nat × Nat)
  tick : Nat

/-- The server as it is started. -/
def Server.init : Server where
  choosing := fun _ => 0
  number := fun _ => 0
  num := 0
  c := letterA
  printed := []
  tick := 0

def CLOCKS_PER_SEC : Int := 1000000

/-- A processor clock that is read once a second. -/
def secondClock (tick : Nat) : Int := tick * CLOCKS_PER_SEC

/-- The loop `for (int i = 0; i < 32; i++) if (number[i] > max) max = number[i]`. -/
def scan (number : Nat → Nat) : Nat :=
  (List.range SLOTS).foldl (fun max i => if number i > max then number i else max) 0

/-- `get_number_1_svc`. -/
def getNumber1Svc (s : Server) : Except (Arr × Nat) (BAKERY × Server) :=
  let ind := s.num
  if ind < SLOTS then
    let choosing := Function.update s.choosing ind 1
    let max := scan s.number
    let number := Function.update s.number ind (max + 1)
    .ok (⟨number ind, ind, 0⟩,
      { s with num := s.num + 1, choosing := Function.update choosing ind 0, number := number })
  else .error (.choosing, ind)

/-- The condition of the inner `while`, apart from `flag`: slot `j` goes first. -/
def goesFirst (s : Server) (argp : BAKERY) (j : Nat) : Prop :=
  s.number j ≠ 0 ∧ (s.number j < argp.num ∨ (s.number j = argp.num ∧ j < argp.pid))

instance (s : Server) (argp : BAKERY) (j : Nat) : Decidable (goesFirst s argp j) :=
  inferInstanceAs (Decidable (_ ∧ _))

/-- The inner `while`: give slot `j` its turn, or one second.  Returns the number of clock
readings made and `flag`; `none` when the bound on the iterations is used up. -/
def waitTurn (clock : Nat → Int) (s : Server) (argp : BAKERY) (j : Nat) (tStart : Int) :
    Nat → Nat → Bool → Option (Nat × Bool)
  | 0, _, _ => none
  | fuel + 1, tick, flag =>
    if flag = true ∧ goesFirst s argp j then
      waitTurn clock s argp j tStart fuel (tick + 1)
        (if (clock tick - tStart).tdiv CLOCKS_PER_SEC ≠ 0 then false else flag)
    else some (tick, flag)

/-- One iteration of the loop over `j`.  With one thread `while (choosing[j]) {}` ends at once
or never.  The `continue` that `flag` selects is the last statement of the body. -/
def waitSlot (clock : Nat → Int) (fuel : Nat) (s : Server) (argp : BAKERY) (tick j : Nat) :
    Option Nat :=
  if s.choosing j ≠ 0 then none
  else (waitTurn clock s argp j (clock tick) fuel (tick + 1) true).map Prod.fst

/-- `bakery_service_1_svc`. -/
def bakeryService1Svc (clock : Nat → Int) (fuel : Nat) (s : Server) (argp : BAKERY) :
    Option (Except (Arr × Nat) (BAKERY × Server)) :=
  ((List.range SLOTS).foldlM (waitSlot clock fuel s argp) s.tick).map fun tick =>
    let res := s.c
    let c := if s.c + 1 > letterZ then letterA else s.c + 1
    if argp.pid < SLOTS then
      .ok (⟨0, 0, res⟩,
        { s with c := c, printed := s.printed ++ [(argp.pid, argp.num, res)], tick := tick
                 number := Function.update s.number argp.pid 0 })
    else .error (.number, argp.pid)

/-! ## 1. What a handler does -/

theorem getNumber1Svc_of_lt {s : Server} (h : s.num < SLOTS) :
    getNumber1Svc s = .ok (⟨scan s.number + 1, s.num, 0⟩,
      { s with num := s.num + 1, choosing := Function.update s.choosing s.num 0
               number := Function.update s.number s.num (scan s.number + 1) }) := by
  simp [getNumber1Svc, h]

theorem getNumber1Svc_of_ge {s : Server} (h : ¬ s.num < SLOTS) :
    getNumber1Svc s = .error (.choosing, s.num) := by
  simp [getNumber1Svc, h]

/-- When BAKERY_SERVICE returns, it has assigned the letter under the cursor, moved the cursor
and cleared the slot of its argument; how long it waited for whom shows in `tick` alone. -/
theorem bakeryService1Svc_eq_some {clock : Nat → Int} {fuel : Nat} {s s' : Server}
    {argp r : BAKERY} (h : bakeryService1Svc clock fuel s argp = some (.ok (r, s'))) :
    ∃ tick, argp.pid < SLOTS ∧ r = ⟨0, 0, s.c⟩ ∧
      s' = { s with c := if s.c + 1 > letterZ then letterA else s.c + 1
                    printed := s.printed ++ [(argp.pid, argp.num, s.c)], tick := tick
                    number := Function.update s.number argp.pid 0 } := by
  obtain ⟨tick, -, h⟩ := Option.map_eq_some_iff.mp h
  by_cases hl : argp.pid < SLOTS
  · rw [if_pos hl, Except.ok.injEq, Prod.mk.injEq] at h
    exact ⟨tick, hl, h.1.symm, h.2.symm⟩
  · rw [if_neg hl] at h
    exact absurd h (by simp)

theorem bakeryService1Svc_error {clock : Nat → Int} {fuel : Nat} {s : Server} {argp : BAKERY}
    {e : Arr × Nat} (h : bakeryService1Svc clock fuel s argp = some (.error e)) :
    ¬ argp.pid < SLOTS ∧ e = (.number, argp.pid) := by
  obtain ⟨tick, -, h⟩ := Option.map_eq_some_iff.mp h
  by_cases hl : argp.pid < SLOTS
  · rw [if_pos hl] at h
    exact absurd h (by simp)
  · rw [if_neg hl, Except.error.injEq] at h
    exact ⟨hl, h.symm⟩

/-! ## 2. The waiting loop returns -/

/-- The inner `while` returns once the clock has moved on by a second: the bound needed is the
number of readings until then. -/
theorem waitTurn_returns {clock : Nat → Int} (s : Server) (argp : BAKERY) (j : Nat)
    {tStart : Int} :
    ∀ (n tick : Nat), CLOCKS_PER_SEC ≤ clock (tick + n) - tStart →
      ∃ r, waitTurn clock s argp j tStart (n + 2) tick true = some r := by
  intro n
  induction n with
  | zero =>
    intro tick h
    have hdiv : (clock tick - tStart).tdiv CLOCKS_PER_SEC ≠ 0 := by
      have hpos : 0 < (clock tick - tStart).tdiv CLOCKS_PER_SEC := by
        rw [Int.tdiv_eq_ediv_of_nonneg (by simp only [CLOCKS_PER_SEC, Nat.add_zero] at h; omega)]
        simp only [CLOCKS_PER_SEC, Nat.add_zero] at h ⊢
        omega
      omega
    unfold waitTurn
    split
    · exact ⟨(tick + 1, false), by simp [waitTurn]⟩
    · exact ⟨_, rfl⟩
  | succ n ih =>
    intro tick h
    have h' : CLOCKS_PER_SEC ≤ clock (tick + 1 + n) - tStart := by
      rwa [Nat.add_assoc, Nat.add_comm 1 n]
    unfold waitTurn
    split
    · split
      · exact ⟨(tick + 1, false), by simp [waitTurn]⟩
      · exact ih (tick + 1) h'
    · exact ⟨_, rfl⟩

/-- More iterations than were used do not change the result. -/
theorem waitTurn_mono {clock : Nat → Int} {s : Server} {argp : BAKERY} {j : Nat} {tStart : Int}
    {r : Nat × Bool} :
    ∀ {fuel fuel' tick : Nat} {flag : Bool}, fuel ≤ fuel' →
      waitTurn clock s argp j tStart fuel tick flag = some r →
      waitTurn clock s argp j tStart fuel' tick flag = some r
  | fuel + 1, fuel' + 1, tick, flag, hle, h => by
    unfold waitTurn at h ⊢
    split
    · rename_i hc
      rw [if_pos hc] at h
      exact waitTurn_mono (Nat.le_of_succ_le_succ hle) h
    · rename_i hc
      rwa [if_neg hc] at h

/-- The loop over `j` returns when no slot is choosing and the clock does not stop. -/
theorem waitSlots_return {clock : Nat → Int} {s : Server} (argp : BAKERY)
    (hch : ∀ j, s.choosing j = 0) (hclock : ∀ tick T, ∃ n, T ≤ clock (tick + n)) :
    ∀ (js : List Nat) (tick : Nat), ∃ fuel tick',
      ∀ fuel', fuel ≤ fuel' → js.foldlM (waitSlot clock fuel' s argp) tick = some tick' := by
  intro js
  induction js with
  | nil =>
    intro tick
    exact ⟨0, tick, fun _ _ => rfl⟩
  | cons j js ih =>
    intro tick
    obtain ⟨n, hn⟩ := hclock (tick + 1) (clock tick + CLOCKS_PER_SEC)
    have hsec : CLOCKS_PER_SEC ≤ clock (tick + 1 + n) - clock tick := by omega
    obtain ⟨r, hr⟩ := waitTurn_returns s argp j n (tick + 1) hsec
    obtain ⟨fuel, tick', hrest⟩ := ih r.1
    refine ⟨max fuel (n + 2), tick', fun fuel' hle => ?_⟩
    have hslot : waitSlot clock fuel' s argp tick j = some r.1 := by
      have hturn : waitTurn clock s argp j (clock tick) fuel' (tick + 1) true = some r :=
        waitTurn_mono (by omega) hr
      rw [waitSlot, if_neg (not_not.mpr (hch j)), hturn]
      rfl
    rw [List.foldlM_cons, hslot]
    exact hrest fuel' (by omega)

/-- **BAKERY_SERVICE returns**, with enough iterations for the readings of the clock. -/
theorem bakeryService1Svc_returns {clock : Nat → Int} {s : Server} (argp : BAKERY)
    (hch : ∀ j, s.choosing j = 0) (hclock : ∀ tick T, ∃ n, T ≤ clock (tick + n)) :
    ∃ fuel, (bakeryService1Svc clock fuel s argp).isSome := by
  obtain ⟨fuel, tick', h⟩ := waitSlots_return argp hch hclock (List.range SLOTS) s.tick
  exact ⟨fuel, by simp [bakeryService1Svc, h fuel (Nat.le_refl _)]⟩

end OsLabs.Bakery2
