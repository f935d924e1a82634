/-
# A parent and a child over a pair of sockets

In `2/paired-sockets/main.c` a child sends the first message over a pair of sockets and receives
the second; the parent receives and sends, waits for the child and prints how it ended.  The
program has a branch for a child that a signal has ended, and there are four ways for a run to end
(`pair_ends`).  A child that is left alone has both messages passed.  One that is killed behind its
`write` still has the parent get to its end; the second message is then read, or it is left on its
way, as the child was killed behind or before its `read`.  The parent closes none of its two
descriptors before it reads, so it holds the child's end itself and never sees an end of file: if
the child is gone before its `write`, the parent waits for ever.

`socketpair`, `fork` and `write` succeed, and a message is written in one piece.  A signal can end
the child at any time; none ends the parent.  `sleep` is left out.
-/
import OsLabs.Lib.Buffer
import OsLabs.Lib.Machine

namespace OsLabs.Pair

/-! ## 1. The program -/

/-- `char buf[32]` -/
def BUF : Nat := 32

/-- `messages[0]` and `messages[1]`, without their NULs. -/
def messages : Fin 2 → List UInt8
  | 0 => [97, 121, 121, 121, 121, 121, 121, 121, 121]
  | 1 => [122, 122, 122, 122, 122, 122, 122, 122]

/-- What `waitpid` says of the child. -/
inductive Status
  | exited (code : Nat)
  | signaled (sig : Nat)
deriving DecidableEq, Repr

/-- What is printed. -/
inductive Line
  | childSend (m : List UInt8)
  | childReceive (buf : List UInt8)
  | parentReceive (buf : List UInt8)
  | parentSend (m : List UInt8)
  | child (status : Status)
deriving DecidableEq, Repr

/-- The next step of the child. -/
inductive ChildPc
  | close | write | printSend | read | printReceive | exit
deriving DecidableEq, Repr

/-- The next step of the parent. -/
inductive ParentPc
  | read | printReceive | write | printSend | close | waitpid | returned
deriving DecidableEq, Repr

/-- `status` is there when the child is gone; `child` is then the step that it was at.  `toParent`
and `toChild` are the bytes on their way; `holds` is whether the parent has its descriptors. -/
structure State where
  child : ChildPc
  status : Option Status
  childBuf : Buffer BUF
  parent : ParentPc
  parentBuf : Buffer BUF
  holds : Bool
  toParent : List UInt8
  toChild : List UInt8
  out : List Line

/-- `read` of at most `count` bytes.  Where there are none, it waits while someone holds the other
end of the pair, and reads nothing when nobody does. -/
def read (queue : List UInt8) (held : Bool) (buf : Buffer BUF) (count : Nat) :
    Option (Except Int (Buffer BUF × List UInt8)) :=
  if queue = [] then if held then none else some (.ok (buf, []))
  else some ((buf.store 0 (queue.take count)).map fun buf => (buf, queue.drop count))

/-- Someone holds `sockets[0]`. -/
def State.held₀ (s : State) : Bool := s.holds || s.status.isNone

/-- Someone holds `sockets[1]`. -/
def State.held₁ (s : State) : Bool := s.holds || (s.status.isNone && s.child == .close)

/-- A step of the child; an access outside `buf` is an error. -/
def childStep (m : Fin 2 → List UInt8) (s : State) : Option (Except Int State) :=
  match s.child with
  | .close => some (.ok { s with child := .write })
  | .write => some (.ok { s with toParent := s.toParent ++ (m 0 ++ [0]), child := .printSend })
  | .printSend => some (.ok { s with out := s.out ++ [.childSend (m 0)], child := .read })
  | .read =>
    (read s.toChild s.held₁ s.childBuf ((m 1).length + 1)).map fun r => r.map fun r =>
      { s with childBuf := r.1, toChild := r.2, child := .printReceive }
  | .printReceive =>
    some ((s.childBuf.cstring 0).map fun text =>
      { s with out := s.out ++ [.childReceive text], child := .exit })
  | .exit => some (.ok { s with status := some (.exited 0) })

/-- A step of the parent. -/
def parentStep (m : Fin 2 → List UInt8) (s : State) : Option (Except Int State) :=
  match s.parent with
  | .read =>
    (read s.toParent s.held₀ s.parentBuf ((m 0).length + 1)).map fun r => r.map fun r =>
      { s with parentBuf := r.1, toParent := r.2, parent := .printReceive }
  | .printReceive =>
    some ((s.parentBuf.cstring 0).map fun text =>
      { s with out := s.out ++ [.parentReceive text], parent := .write })
  | .write => some (.ok { s with toChild := s.toChild ++ (m 1 ++ [0]), parent := .printSend })
  | .printSend => some (.ok { s with out := s.out ++ [.parentSend (m 1)], parent := .close })
  | .close => some (.ok { s with holds := false, parent := .waitpid })
  | .waitpid => s.status.map fun status =>
    .ok { s with out := s.out ++ [.child status], parent := .returned }
  | .returned => none

inductive Action
  | child
  | parent
  | kill (sig : Nat)
deriving DecidableEq, Repr

/-- The child makes a step or is killed, while it is there, or the parent makes one. -/
def step (m : Fin 2 → List UInt8) (s : State) : Action → Option (Except Int State)
  | .child => if s.status = none then childStep m s else none
  | .parent => parentStep m s
  | .kill sig =>
    if s.status = none then some (.ok { s with status := some (.signaled sig) }) else none

/-- The program, with what the two arrays hold at first. -/
def program (m : Fin 2 → List UInt8) (junk : Fin 2 → Buffer BUF) :
    Machine (Except Int State) Action where
  init := .ok ⟨.close, none, junk 0, .read, junk 1, true, [], [], []⟩
  step r a :=
    match r with
    | .ok s => step m s a
    | .error _ => none

/-! ## 2. What is on the way -/

@[simp, grind] def ChildPc.rank : ChildPc → Nat
  | .close => 0
  | .write => 1
  | .printSend => 2
  | .read => 3
  | .printReceive => 4
  | .exit => 5

@[simp, grind] def ParentPc.rank : ParentPc → Nat
  | .read => 0
  | .printReceive => 1
  | .write => 2
  | .printSend => 3
  | .close => 4
  | .waitpid => 5
  | .returned => 6

/-- The lines that the child has printed. -/
@[grind] def childLines (m : Fin 2 → List UInt8) : ChildPc → List Line
  | .close | .write | .printSend => []
  | .read | .printReceive => [.childSend (m 0)]
  | .exit => [.childSend (m 0), .childReceive (m 1)]

/-- The lines that the parent has printed, if the child ended or will end with `status`. -/
@[grind] def parentLines (m : Fin 2 → List UInt8) (status : Option Status) : ParentPc → List Line
  | .read | .printReceive => []
  | .write | .printSend => [.parentReceive (m 0)]
  | .close | .waitpid => [.parentReceive (m 0), .parentSend (m 1)]
  | .returned => [.parentReceive (m 0), .parentSend (m 1)] ++ (status.map Line.child).toList

def Line.ofChild : Line → Bool
  | .childSend _ | .childReceive _ => true
  | _ => false

/-- **The invariant**: a message is on its way between its `write` and its `read`; it is read after
it was written, and stands in the reader's array; and what both have printed. -/
structure Inv (m : Fin 2 → List UInt8) (s : State) : Prop where
  toParent : s.toParent = if 2 ≤ s.child.rank ∧ s.parent.rank = 0 then m 0 ++ [0] else []
  toChild : s.toChild = if 3 ≤ s.parent.rank ∧ s.child.rank ≤ 3 then m 1 ++ [0] else []
  received : 1 ≤ s.parent.rank → 2 ≤ s.child.rank
  answered : 4 ≤ s.child.rank → 3 ≤ s.parent.rank
  parentBuf : s.parent = .printReceive → s.parentBuf.cstring 0 = .ok (m 0)
  childBuf : 4 ≤ s.child.rank → s.childBuf.cstring 0 = .ok (m 1)
  holds : s.holds = decide (s.parent.rank ≤ 4)
  exited : ∀ c, s.status = some (.exited c) → c = 0 ∧ s.child = .exit
  gone : s.parent = .returned → s.status ≠ none
  childOut : s.out.filter Line.ofChild = childLines m s.child
  parentOut : (s.out.filter fun l => !l.ofChild) = parentLines m s.status s.parent

/-- The messages fit, with their NULs. -/
def Fit (m : Fin 2 → List UInt8) : Prop := ∀ i, (m i).length < BUF ∧ (0 : UInt8) ∉ m i

variable {m : Fin 2 → List UInt8} {s s' : State} {r : Except Int State}

/-- **A message is read whole**, and is the string in the array. -/
theorem read_message (hm : Fit m) (i : Fin 2) (held : Bool) (buf : Buffer BUF) :
    ∃ buf', read (m i ++ [0]) held buf ((m i).length + 1) = some (.ok (buf', [])) ∧
      buf'.cstring 0 = .ok (m i) := by
  obtain ⟨hlen, hnul⟩ := hm i
  obtain ⟨buf', hst, hstr⟩ := buf.store_string (m i) hlen
  rw [Buffer.takeWhile_of_no_nul hnul] at hstr
  have hall : (m i ++ [0]).length = (m i).length + 1 := by simp
  refine ⟨buf', ?_, hstr⟩
  rw [read, if_neg (by simp), ← hall, List.take_length, List.drop_length, hst]
  rfl

/-- How many steps are left. -/
def State.load (s : State) : Nat :=
  (if s.status = none then 6 - s.child.rank else 0) + (6 - s.parent.rank)

theorem parentLines_of_ne {pc : ParentPc} (h : pc ≠ .returned) (status status' : Option Status) :
    parentLines m status pc = parentLines m status' pc := by
  cases pc with
  | returned => exact absurd rfl h
  | _ => rfl

/-- A line of the child. -/
theorem filter_child {l : Line} (hl : l.ofChild = true) (out : List Line) :
    (out ++ [l]).filter Line.ofChild = out.filter Line.ofChild ++ [l] ∧
      ((out ++ [l]).filter fun l => !l.ofChild) = out.filter fun l => !l.ofChild := by
  simp [List.filter_append, hl]

/-- A line of the parent. -/
theorem filter_parent {l : Line} (hl : l.ofChild = false) (out : List Line) :
    (out ++ [l]).filter Line.ofChild = out.filter Line.ofChild ∧
      ((out ++ [l]).filter fun l => !l.ofChild) = (out.filter fun l => !l.ofChild) ++ [l] := by
  simp [List.filter_append, hl]

/-- The child ends. -/
theorem Inv.ends (h : Inv m s) (hlive : s.status = none) (status : Status)
    (hexit : ∀ c, status = .exited c → c = 0 ∧ s.child = .exit) :
    Inv m { s with status := some status } ∧
      State.load { s with status := some status } + (6 - s.child.rank) = s.load := by
  have hreturned : s.parent ≠ .returned := fun hpc => h.gone hpc hlive
  refine ⟨⟨h.toParent, h.toChild, h.received, h.answered, h.parentBuf, h.childBuf, h.holds,
    fun c hc => hexit c (Option.some.inj hc), fun hpc => absurd hpc hreturned, h.childOut, ?_⟩, ?_⟩
  · exact h.parentOut.trans (parentLines_of_ne hreturned _ _)
  · simp [State.load, hlive, Nat.add_comm]

/-- **A step of the child** keeps the invariant: no access is outside the array. -/
theorem Inv.child_step (h : Inv m s) (hm : Fit m) (hlive : s.status = none)
    (hst : childStep m s = some r) : ∃ s', r = .ok s' ∧ Inv m s' ∧ s'.load < s.load := by
  have hends := h.ends hlive
  obtain ⟨toParent, toChild, received, answered, parentBuf, childBuf, holds, exited, gone, childOut,
    parentOut⟩ := h
  cases hpc : s.child with
  | close =>
    rw [childStep, hpc] at hst
    obtain rfl := Option.some.inj hst
    refine ⟨_, rfl, ?_, by simp [State.load, hlive, hpc]⟩
    constructor <;> grind
  | write =>
    rw [childStep, hpc] at hst
    obtain rfl := Option.some.inj hst
    refine ⟨_, rfl, ?_, by simp [State.load, hlive, hpc]⟩
    constructor <;> grind
  | printSend =>
    rw [childStep, hpc] at hst
    obtain rfl := Option.some.inj hst
    obtain ⟨hchild, hparent⟩ := filter_child (l := .childSend (m 0)) rfl s.out
    refine ⟨_, rfl, ?_, by simp [State.load, hlive, hpc]⟩
    constructor <;> grind
  | read =>
    have hwritten : 3 ≤ s.parent.rank := by
      by_contra hearly
      have hheld : s.held₁ = true := by
        rw [State.held₁, holds, decide_eq_true (by omega)]
        rfl
      have hempty : s.toChild = [] := toChild.trans (if_neg fun hq => hearly hq.1)
      rw [childStep, hpc, read, if_pos hempty, hheld] at hst
      exact absurd hst (by simp)
    obtain ⟨buf, hread, hstr⟩ := read_message hm 1 s.held₁ s.childBuf
    have hqueue : s.toChild = m 1 ++ [0] :=
      toChild.trans (if_pos ⟨hwritten, by rw [hpc]; decide⟩)
    rw [childStep, hpc, hqueue, hread] at hst
    obtain rfl := Option.some.inj hst
    refine ⟨_, rfl, ?_, by simp [State.load, hlive, hpc]⟩
    constructor <;> grind
  | printReceive =>
    rw [childStep, hpc, childBuf (by rw [hpc]; decide)] at hst
    obtain rfl := Option.some.inj hst
    obtain ⟨hchild, hparent⟩ := filter_child (l := .childReceive (m 1)) rfl s.out
    refine ⟨_, rfl, ?_, by simp [State.load, hlive, hpc]⟩
    constructor <;> grind
  | exit =>
    rw [childStep, hpc] at hst
    obtain rfl := Option.some.inj hst
    obtain ⟨hinv, hload⟩ := hends (.exited 0) fun c hc => ⟨(Status.exited.inj hc).symm, hpc⟩
    rw [hpc] at hinv hload
    rw [ChildPc.rank] at hload
    exact ⟨_, rfl, hinv, by omega⟩

/-- **A step of the parent** keeps it too. -/
theorem Inv.parent_step (h : Inv m s) (hm : Fit m) (hst : parentStep m s = some r) :
    ∃ s', r = .ok s' ∧ Inv m s' ∧ s'.load < s.load := by
  obtain ⟨toParent, toChild, received, answered, parentBuf, childBuf, holds, exited, gone, childOut,
    parentOut⟩ := h
  cases hpc : s.parent with
  | read =>
    have hwritten : 2 ≤ s.child.rank := by
      by_contra hearly
      have hheld : s.held₀ = true := by
        rw [State.held₀, holds, hpc]
        rfl
      have hempty : s.toParent = [] := toParent.trans (if_neg fun hq => hearly hq.1)
      rw [parentStep, hpc, read, if_pos hempty, hheld] at hst
      exact absurd hst (by simp)
    obtain ⟨buf, hread, hstr⟩ := read_message hm 0 s.held₀ s.parentBuf
    have hqueue : s.toParent = m 0 ++ [0] :=
      toParent.trans (if_pos ⟨hwritten, by rw [hpc]; rfl⟩)
    rw [parentStep, hpc, hqueue, hread] at hst
    obtain rfl := Option.some.inj hst
    refine ⟨_, rfl, ?_, by simp [State.load, hpc]⟩
    constructor <;> grind
  | printReceive =>
    rw [parentStep, hpc, parentBuf hpc] at hst
    obtain rfl := Option.some.inj hst
    obtain ⟨hchild, hparent⟩ := filter_parent (l := .parentReceive (m 0)) rfl s.out
    refine ⟨_, rfl, ?_, by simp [State.load, hpc]⟩
    constructor <;> grind
  | write =>
    rw [parentStep, hpc] at hst
    obtain rfl := Option.some.inj hst
    refine ⟨_, rfl, ?_, by simp [State.load, hpc]⟩
    constructor <;> grind
  | printSend =>
    rw [parentStep, hpc] at hst
    obtain rfl := Option.some.inj hst
    obtain ⟨hchild, hparent⟩ := filter_parent (l := .parentSend (m 1)) rfl s.out
    refine ⟨_, rfl, ?_, by simp [State.load, hpc]⟩
    constructor <;> grind
  | close =>
    rw [parentStep, hpc] at hst
    obtain rfl := Option.some.inj hst
    refine ⟨_, rfl, ?_, by simp [State.load, hpc]⟩
    constructor <;> grind
  | waitpid =>
    rw [parentStep, hpc] at hst
    obtain ⟨status, hstatus, rfl⟩ := Option.map_eq_some_iff.mp hst
    obtain ⟨hchild, hparent⟩ := filter_parent (l := .child status) rfl s.out
    refine ⟨_, rfl, ?_, by simp [State.load, hpc]⟩
    constructor <;> grind
  | returned =>
    rw [parentStep, hpc] at hst
    exact absurd hst (by simp)

/-! ## 3. Whole runs -/

/-- The parent has returned: it has read the first message whole, and has printed what it received,
what it sent and how the child ended, this last. -/
structure Returned (m : Fin 2 → List UInt8) (s : State) (status : Status) : Prop where
  returned : s.parent = .returned
  gone : s.status = some status
  toParent : s.toParent = []
  out : (s.out.filter fun l => !l.ofChild) =
    [.parentReceive (m 0), .parentSend (m 1), .child status]

/-- **How a run ends**, by the step that the child was at when it was gone. -/
inductive Outcome (m : Fin 2 → List UInt8) (s : State) : Prop
  /-- The child was left alone: both messages have been passed. -/
  | whole (parent : Returned m s (.exited 0)) (child : s.child = .exit)
      (received : s.childBuf.cstring 0 = .ok (m 1)) (toChild : s.toChild = [])
      (out : s.out.filter Line.ofChild = [.childSend (m 0), .childReceive (m 1)])
  /-- It was killed behind its `read`: both messages have been passed. -/
  | afterRead (sig : Nat) (parent : Returned m s (.signaled sig))
      (child : s.child = .printReceive ∨ s.child = .exit)
      (received : s.childBuf.cstring 0 = .ok (m 1)) (toChild : s.toChild = [])
  /-- It was killed between its `write` and its `read`: the second message is still on its way. -/
  | beforeRead (sig : Nat) (parent : Returned m s (.signaled sig))
      (child : s.child = .printSend ∨ s.child = .read) (toChild : s.toChild = m 1 ++ [0])
  /-- It was killed before its `write`: the parent waits for the first message. -/
  | beforeWrite (sig : Nat) (gone : s.status = some (.signaled sig))
      (child : s.child = .close ∨ s.child = .write) (parent : s.parent = .read)
      (toParent : s.toParent = []) (out : s.out = [])

/-- The state that a result is, if it is one. -/
def loadOf : Except Int State → Nat
  | .ok s => s.load
  | .error _ => 0

variable {junk : Fin 2 → Buffer BUF}

theorem inv_init : Inv m ⟨.close, none, junk 0, .read, junk 1, true, [], [], []⟩ := by
  constructor <;> grind

theorem program_step {a : Action} (hm : Fit m) (h : ∃ s, r = .ok s ∧ Inv m s)
    {r' : Except Int State} (hst : (program m junk).step r a = some r') :
    (∃ s, r' = .ok s ∧ Inv m s) ∧ loadOf r' < loadOf r := by
  obtain ⟨s, rfl, hs⟩ := h
  cases a with
  | child =>
    simp only [program, step] at hst
    split at hst
    · rename_i hlive
      obtain ⟨s', rfl, hs', hlt⟩ := hs.child_step hm hlive hst
      exact ⟨⟨s', rfl, hs'⟩, hlt⟩
    · exact absurd hst (by simp)
  | parent =>
    obtain ⟨s', rfl, hs', hlt⟩ := hs.parent_step hm hst
    exact ⟨⟨s', rfl, hs'⟩, hlt⟩
  | kill sig =>
    simp only [program, step] at hst
    split at hst
    · rename_i hlive
      obtain rfl := Option.some.inj hst
      obtain ⟨hinv, hload⟩ := hs.ends hlive (.signaled sig) (by simp)
      refine ⟨⟨_, rfl, hinv⟩, ?_⟩
      have hrank : s.child.rank ≤ 5 := by cases s.child <;> decide
      simp only [loadOf]
      omega
    · exact absurd hst (by simp)

theorem ChildPc.cases_rank (pc : ChildPc) :
    (pc.rank ≤ 1 ∧ (pc = .close ∨ pc = .write)) ∨
      (2 ≤ pc.rank ∧ pc.rank ≤ 3 ∧ (pc = .printSend ∨ pc = .read)) ∨
      (4 ≤ pc.rank ∧ (pc = .printReceive ∨ pc = .exit)) := by
  cases pc <;> decide

theorem childLines_of_early {pc : ChildPc} (h : pc.rank ≤ 1) : childLines m pc = [] := by
  cases pc with
  | close => rfl
  | write => rfl
  | _ => exact absurd h (by decide)

/-- Where the parent has returned, the message to the child is where the child left it. -/
theorem Inv.outcome_of_returned (h : Inv m s) (hpc : s.parent = .returned) {status : Status}
    (hstatus : s.status = some status) : Outcome m s := by
  have hreceived : 2 ≤ s.child.rank := h.received (by rw [hpc]; decide)
  have hreturned : Returned m s status := by
    refine ⟨hpc, hstatus, ?_, ?_⟩
    · exact h.toParent.trans (if_neg fun hq => by rw [hpc] at hq; exact absurd hq.2 (by decide))
    · rw [h.parentOut, hpc, hstatus]
      rfl
  have hread : 4 ≤ s.child.rank → s.toChild = [] := fun hlate =>
    h.toChild.trans (if_neg fun hq => by omega)
  cases status with
  | exited c =>
    obtain ⟨rfl, hexit⟩ := h.exited c hstatus
    have hlate : 4 ≤ s.child.rank := by rw [hexit]; decide
    refine .whole hreturned hexit (h.childBuf hlate) (hread hlate) ?_
    rw [h.childOut, hexit]
    rfl
  | signaled sig =>
    obtain ⟨hearly, -⟩ | ⟨-, hrank, hchild⟩ | ⟨hlate, hchild⟩ := s.child.cases_rank
    · omega
    · exact .beforeRead sig hreturned hchild
        (h.toChild.trans (if_pos ⟨by rw [hpc]; decide, hrank⟩))
    · exact .afterRead sig hreturned hchild (h.childBuf hlate) (hread hlate)

/-- Where the parent gets nothing to read, the child was killed before its `write`. -/
theorem Inv.outcome_of_read (h : Inv m s) (hm : Fit m) (hpc : s.parent = .read)
    (hparent : parentStep m s = none) {status : Status} (hstatus : s.status = some status) :
    Outcome m s := by
  have hearly : s.child.rank ≤ 1 := by
    by_contra hwritten
    obtain ⟨buf, hread, -⟩ := read_message hm 0 s.held₀ s.parentBuf
    have hqueue : s.toParent = m 0 ++ [0] :=
      h.toParent.trans (if_pos ⟨by omega, by rw [hpc]; rfl⟩)
    rw [parentStep, hpc, hqueue, hread] at hparent
    exact absurd hparent (by simp)
  have hout : s.out = [] := by
    have hchild := h.childOut
    have hpar := h.parentOut
    rw [childLines_of_early hearly, List.filter_eq_nil_iff] at hchild
    rw [hpc, parentLines, List.filter_eq_nil_iff] at hpar
    exact List.eq_nil_iff_forall_not_mem.mpr fun l hl => by grind
  cases status with
  | exited c =>
    rw [(h.exited c hstatus).2] at hearly
    exact absurd hearly (by decide)
  | signaled sig =>
    obtain ⟨-, hchild⟩ | ⟨hlate, -⟩ | ⟨hlate, -⟩ := s.child.cases_rank
    · exact .beforeWrite sig hstatus hchild hpc (h.toParent.trans (if_neg fun hq => by omega)) hout
    · omega
    · omega

/-- **Where nothing more happens**, the child is gone, and the parent has returned or waits for a
message that was never written. -/
theorem Inv.stuck (h : Inv m s) (hm : Fit m) (hstuck : ∀ a, step m s a = none) :
    Outcome m s := by
  cases hstatus : s.status with
  | none =>
    have hkill := hstuck (.kill 0)
    rw [step, if_pos hstatus] at hkill
    exact absurd hkill (by simp)
  | some status =>
    have hparent : parentStep m s = none := hstuck .parent
    cases hpc : s.parent with
    | read => exact h.outcome_of_read hm hpc hparent hstatus
    | returned => exact h.outcome_of_returned hpc hstatus
    | waitpid =>
      rw [parentStep, hpc, hstatus] at hparent
      exact absurd hparent (by simp)
    | _ =>
      rw [parentStep, hpc] at hparent
      exact absurd hparent (by simp)

/-- **The pair.**  Whatever the order of the steps and whenever a signal ends the child, the
program stops after finitely many steps and has used no byte outside its arrays.  The parent has
returned, with the first message whole, unless the child was killed before its `write`; and the
child has the second one whole unless it was killed before its `read`. -/
theorem pair_ends (hm : Fit m) (junk : Fin 2 → Buffer BUF) :
    (program m junk).EndsIn fun r => ∃ s, r = .ok s ∧ Outcome m s := by
  refine Machine.endsIn_of_measure (I := fun r => ∃ s, r = .ok s ∧ Inv m s) loadOf
    ⟨_, rfl, inv_init⟩ (fun r a r' h hst => program_step hm h hst) ?_
  rintro _ ⟨s, rfl, hs⟩ hstuck
  exact ⟨s, rfl, hs.stuck hm hstuck⟩

theorem messages_fit : Fit messages := by
  intro i
  obtain rfl | rfl : i = 0 ∨ i = 1 := by omega
  · decide
  · decide

theorem pair_ends_messages : (program messages fun _ => Buffer.zero BUF).EndsIn fun r =>
    ∃ s, r = .ok s ∧ Outcome messages s :=
  pair_ends messages_fit _

end OsLabs.Pair
