/-
# The event loop, from its start to its end

Every run among finitely many peers is finite.  One that cannot go on has ended in a server that
has answered all clients, or in one that has stopped (`endsIn`): a measure counts how far each
connection still has to go, and how many events are still to be handled.

The server stops at the first `accept`, `read` or `send` that returns -1, whichever connection
it is about, and at the first message that does not fit in its arrays; otherwise it goes on
(`survives_iff_harmless`).
-/
import OsLabs.Sockets.Epoll
import Mathlib.Algebra.Order.BigOperators.Group.Finset

namespace OsLabs.Epoll

open OsLabs

variable {N pid : Nat} {peers : Fin N → Peer} {l l' : Loop N} {a : Action N}
  {r : Result (Loop N)} {k j : Fin N}

/-! ## 1. One step -/

/-- What one step does to a server in its loop. -/
inductive Step (pid : Nat) (peers : Fin N → Peer) (l : Loop N) :
    Action N → Result (Loop N) → Prop
  | connect (k : Fin N) (hk : (l.conns k).phase = .idle) :
    Step pid peers l (.connect k) (.ok (l.move k .queued))
  | deliver (k : Fin N) (n : Nat)
    (hk : (l.conns k).phase = .queued ∨ (l.conns k).phase = .watched) (hn : 0 < n)
    (hle : (l.conns k).arrived + n ≤ BUFF_SIZE) :
    Step pid peers l (.deliver k n)
      (.ok (l.set k { l.conns k with arrived := (l.conns k).arrived + n }))
  | abort (k : Fin N) (hother : peers k = .other) (hk : (l.conns k).phase = .queued) :
    Step pid peers l (.abort k) (.ok (l.move k .closed))
  | fail (k : Fin N) (hother : peers k = .other) (hk : (l.conns k).phase = .queued) :
    Step pid peers l (.fail k) (.ok (l.move k .failed))
  | wait (events : List (Event N)) (hl : l.events = []) (hne : events ≠ [])
    (hlen : events.length ≤ MAX_EVENTS) (hnodup : events.Nodup)
    (hready : ∀ e ∈ events, Ready peers l e) :
    Step pid peers l (.wait events) (.ok { l with events := events })
  | accept (es : List (Event N)) (k : Fin N) (hl : l.events = .listen :: es)
    (hk : (l.conns k).phase = .queued) :
    Step pid peers l (.accept (some k))
      (.ok { Loop.move { l with events := es } k .watched with nonblock := true })
  | refuse (es : List (Event N)) (hl : l.events = .listen :: es) :
    Step pid peers l (.accept none) (.error .exit)
  | serve (es : List (Event N)) (k : Fin N) (stale : Locals) (received : Option Bytes)
    (sent : Bool) (hl : l.events = .conn k :: es)
    (h : MayRead received sent (l.conns k).arrived (peers k)) :
    Step pid peers l (.serve stale received sent)
      ((connBranch pid stale received sent).map fun reply =>
        Loop.set { l with events := es } k { l.conns k with phase := .closed, reply := reply })

theorem step_iff : (system pid peers).step (.ok l) a = some r ↔ Step pid peers l a r := by
  constructor
  · intro h
    cases a with
    | connect k =>
      obtain ⟨hk, hr⟩ := Option.ite_none_right_eq_some.mp h
      obtain rfl := Option.some.inj hr
      exact .connect k hk
    | deliver k n =>
      obtain ⟨⟨hk, hn, hle⟩, hr⟩ := Option.ite_none_right_eq_some.mp h
      obtain rfl := Option.some.inj hr
      exact .deliver k n hk hn hle
    | abort k =>
      obtain ⟨⟨hother, hk⟩, hr⟩ := Option.ite_none_right_eq_some.mp h
      obtain rfl := Option.some.inj hr
      exact .abort k hother hk
    | fail k =>
      obtain ⟨⟨hother, hk⟩, hr⟩ := Option.ite_none_right_eq_some.mp h
      obtain rfl := Option.some.inj hr
      exact .fail k hother hk
    | wait events =>
      obtain ⟨⟨hl, hne, hlen, hnodup, hready⟩, hr⟩ := Option.ite_none_right_eq_some.mp h
      obtain rfl := Option.some.inj hr
      exact .wait events hl hne hlen hnodup hready
    | accept conn_sock =>
      simp only [system] at h
      split at h
      · rename_i es hl
        obtain ⟨hmay, hr⟩ := Option.ite_none_right_eq_some.mp h
        obtain rfl := Option.some.inj hr
        cases conn_sock with
        | none => exact .refuse es hl
        | some k => exact .accept es k hl hmay
      · exact absurd h (by simp)
    | serve stale received sent =>
      simp only [system] at h
      split at h
      · rename_i k es hl
        obtain ⟨hmay, hr⟩ := Option.ite_none_right_eq_some.mp h
        obtain rfl := Option.some.inj hr
        exact .serve es k stale received sent hl hmay
      · exact absurd h (by simp)
  · intro h
    cases h with
    | connect k hk => exact if_pos hk
    | deliver k n hk hn hle => exact if_pos ⟨hk, hn, hle⟩
    | abort k hother hk => exact if_pos ⟨hother, hk⟩
    | fail k hother hk => exact if_pos ⟨hother, hk⟩
    | wait events hl hne hlen hnodup hready => exact if_pos ⟨hl, hne, hlen, hnodup, hready⟩
    | accept es k hl hk =>
      simp only [system, hl]
      exact if_pos hk
    | refuse es hl =>
      simp only [system, hl]
      exact if_pos trivial
    | serve es k stale received sent hl h =>
      simp only [system, hl]
      exact if_pos h

/-! ## 2. The invariant -/

/-- What holds as long as the server is in its loop. -/
structure Inv (peers : Fin N → Peer) (l : Loop N) : Prop where
  nodup : l.events.Nodup
  ready : ∀ k, .conn k ∈ l.events → Ready peers l (.conn k)
  replied : ∀ k m, (l.conns k).reply = some m → (l.conns k).phase = .closed
  client : ∀ k c, peers k = .client c → (l.conns k).phase ≠ .failed ∧
    ((l.conns k).phase = .closed → ∃ m, (l.conns k).reply = some m)

theorem inv_init (peers : Fin N → Peer) : Inv peers (.init N) := by
  constructor <;> simp [Loop.init]

/-- An update of one connection, with the clauses of the invariant that concern it. -/
theorem Inv.set (h : Inv peers l) {c : Conn}
    (hready : .conn k ∈ l.events → c.phase = .watched ∧ (peers k = .other ∨ 0 < c.arrived))
    (hreplied : ∀ m, c.reply = some m → c.phase = .closed)
    (hclient : ∀ cl, peers k = .client cl → c.phase ≠ .failed ∧
      (c.phase = .closed → ∃ m, c.reply = some m)) : Inv peers (l.set k c) where
  nodup := h.nodup
  ready j hj := by
    rcases eq_or_ne j k with rfl | hjk
    · simpa [Ready] using hready hj
    · simpa [Ready, hjk] using h.ready j hj
  replied j m hm := by
    rcases eq_or_ne j k with rfl | hjk
    · simpa using hreplied m (by simpa using hm)
    · simpa [hjk] using h.replied j m (by simpa [hjk] using hm)
  client j cl hj := by
    rcases eq_or_ne j k with rfl | hjk
    · simpa using hclient cl hj
    · simpa [hjk] using h.client j cl hj

/-- The first of the events is taken off. -/
theorem Inv.tail (h : Inv peers l) {e : Event N} {es : List (Event N)} (hl : l.events = e :: es) :
    Inv peers { l with events := es } ∧ e ∉ es := by
  have hsub : ∀ e ∈ es, e ∈ l.events := fun e he => by
    rw [hl]
    exact List.mem_cons_of_mem _ he
  have hnodup := h.nodup
  rw [hl, List.nodup_cons] at hnodup
  refine ⟨?_, hnodup.1⟩
  constructor
  · exact hnodup.2
  · exact fun k hk => h.ready k (hsub _ hk)
  · exact h.replied
  · exact h.client

/-- A client that is read from is sent something, unless the server stops. -/
theorem client_replied {c : Client} {stale : Locals} {received : Option Bytes} {sent : Bool}
    {n : Nat} {reply : Option (Buffer BUFF_SIZE)} (hn : 0 < n)
    (h : MayRead received sent n (.client c))
    (hr : connBranch pid stale received sent = .ok reply) : ∃ m, reply = some m := by
  obtain ⟨m, rfl, hne, rfl, -⟩ := h.client hn
  rcases connBranch_cases pid stale (some (m.bytes.take n)) true with
    ⟨-, he⟩ | ⟨hnil, -⟩ | ⟨data, -, -, ⟨-, -, m', he, -⟩ | ⟨-, b, i, he⟩⟩
  · exact absurd (he.symm.trans hr) (by simp)
  · exact absurd (Option.some.inj hnil) hne
  · exact ⟨m', (Except.ok.inj (he.symm.trans hr)).symm⟩
  · exact absurd (he.symm.trans hr) (by simp)

/-- **Every step keeps the invariant**, unless the server stops. -/
theorem Inv.step (h : Inv peers l) (hst : Step pid peers l a r) (hr : r = .ok l') :
    Inv peers l' := by
  have hunready : ∀ k, (l.conns k).phase ≠ .watched → .conn k ∉ l.events := fun k hk hmem =>
    hk (h.ready k hmem).1
  have hunreplied : ∀ k, (l.conns k).phase ≠ .closed → ∀ m, (l.conns k).reply ≠ some m :=
    fun k hk m hm => hk (h.replied k m hm)
  cases hst with
  | connect k hk =>
    obtain rfl := Except.ok.inj hr
    refine h.set ?_ ?_ ?_
    · exact fun hmem => absurd hmem (hunready k (by simp [hk]))
    · exact fun m hm => absurd hm (hunreplied k (by simp [hk]) m)
    · simp
  | deliver k n hk hn hle =>
    obtain rfl := Except.ok.inj hr
    refine h.set ?_ ?_ ?_
    · exact fun hmem => ⟨(h.ready k hmem).1, .inr (Nat.add_pos_right _ hn)⟩
    · exact h.replied k
    · exact h.client k
  | abort k hother hk =>
    obtain rfl := Except.ok.inj hr
    refine h.set ?_ ?_ ?_
    · exact fun hmem => absurd hmem (hunready k (by simp [hk]))
    · exact fun _ _ => rfl
    · simp [hother]
  | fail k hother hk =>
    obtain rfl := Except.ok.inj hr
    refine h.set ?_ ?_ ?_
    · exact fun hmem => absurd hmem (hunready k (by simp [hk]))
    · exact fun m hm => absurd hm (hunreplied k (by simp [hk]) m)
    · simp [hother]
  | wait events hl hne hlen hnodup hready =>
    obtain rfl := Except.ok.inj hr
    constructor
    · exact hnodup
    · exact fun k hk => hready _ hk
    · exact h.replied
    · exact h.client
  | accept es k hl hk =>
    obtain rfl := Except.ok.inj hr
    obtain ⟨htail, -⟩ := h.tail hl
    have hmem : .conn k ∉ es := fun hmem => by simpa [hk] using (htail.ready k hmem).1
    have hset : Inv peers (Loop.move { l with events := es } k .watched) := by
      refine htail.set ?_ ?_ ?_
      · exact fun hmem' => absurd hmem' hmem
      · exact fun m hm => absurd hm (hunreplied k (by simp [hk]) m)
      · simp
    exact ⟨hset.nodup, hset.ready, hset.replied, hset.client⟩
  | refuse es hl => exact absurd hr (by simp)
  | serve es k stale received sent hl hmay =>
    obtain ⟨htail, hnot⟩ := h.tail hl
    obtain ⟨hwatched, hdata⟩ := h.ready k (by simp [hl])
    cases hbranch : connBranch pid stale received sent with
    | error e => exact absurd hr (by simp [hbranch, Except.map])
    | ok reply =>
      rw [hbranch] at hr
      obtain rfl := Except.ok.inj hr
      refine htail.set ?_ ?_ ?_
      · exact fun hmem => absurd hmem hnot
      · exact fun _ _ => rfl
      · intro c hc
        rw [hc] at hmay hdata
        exact ⟨by simp, fun _ => client_replied (by simpa using hdata) hmay hbranch⟩

/-! ## 3. Every run ends -/

/-- How far a connection still has to go. -/
def Phase.rank : Phase → Nat
  | .idle => 4
  | .queued => 3
  | .failed => 2
  | .watched => 1
  | .closed => 0

def Conn.work (c : Conn) : Nat := c.phase.rank + (BUFF_SIZE - c.arrived)

def Loop.work (l : Loop N) : Nat := ∑ k, (l.conns k).work

/-- Each event that is handled brings a connection on, which weighs more than all the events of
the next `epoll_wait`. -/
def measure : Result (Loop N) → Nat
  | .error _ => 0
  | .ok l => (MAX_EVENTS + 2) * l.work +
      if l.events = [] then MAX_EVENTS + 1 else l.events.length

theorem Loop.work_set (l : Loop N) {c : Conn} (h : c.work < (l.conns k).work) :
    (l.set k c).work < l.work := by
  refine Finset.sum_lt_sum (fun j _ => ?_) ⟨k, Finset.mem_univ k, by simpa using h⟩
  rcases eq_or_ne j k with rfl | hj
  · simpa using Nat.le_of_lt h
  · simp [hj]

/-- A step of a connection that leaves the events alone. -/
theorem measure_set (l : Loop N) {c : Conn} (h : c.work < (l.conns k).work) :
    measure (.ok (l.set k c)) < measure (.ok l) := by
  have hwork := l.work_set h
  exact Nat.add_lt_add_right (Nat.mul_lt_mul_of_pos_left hwork (by decide)) _

/-- An event is handled, and a connection brought on. -/
theorem measure_tail {e : Event N} {es : List (Event N)} (hl : l.events = e :: es)
    (hl' : l'.events = es) (hwork : l'.work < l.work) : measure (.ok l') < measure (.ok l) := by
  simp only [measure, MAX_EVENTS, hl, hl', List.length_cons]
  split <;> simp <;> omega

theorem measure_pos (l : Loop N) : 0 < measure (.ok l) := by
  simp only [measure, MAX_EVENTS]
  split
  · omega
  · rename_i hne
    have := List.length_pos_of_ne_nil hne
    omega

/-- **Every step decreases the measure.** -/
theorem Inv.measure_lt (h : Inv peers l) (hst : Step pid peers l a r) :
    measure r < measure (.ok l) := by
  cases hst with
  | connect k hk => exact measure_set l (by simp [Conn.work, hk, Phase.rank])
  | deliver k n hk hn hle =>
    refine measure_set l ?_
    simp only [Conn.work]
    omega
  | abort k hother hk => exact measure_set l (by simp [Conn.work, hk, Phase.rank])
  | fail k hother hk => exact measure_set l (by simp [Conn.work, hk, Phase.rank])
  | wait events hl hne hlen hnodup hready =>
    have hwork : Loop.work { l with events := events } = l.work := rfl
    simp only [measure, hl, hne, hwork, if_true, if_false]
    omega
  | accept es k hl hk =>
    refine measure_tail hl rfl ?_
    exact Loop.work_set { l with events := es } (by simp [Conn.work, hk, Phase.rank])
  | refuse es hl => exact measure_pos l
  | serve es k stale received sent hl hmay =>
    obtain ⟨hwatched, -⟩ := h.ready k (by simp [hl])
    cases connBranch pid stale received sent with
    | error e => exact measure_pos l
    | ok reply =>
      refine measure_tail hl rfl ?_
      exact Loop.work_set { l with events := es } (by simp [Conn.work, hwatched, Phase.rank])

/-- Every client has been sent something. -/
def Answered (peers : Fin N → Peer) : Result (Loop N) → Prop
  | .ok l => ∀ k c, peers k = .client c → ∃ m, (l.conns k).reply = some m
  | .error _ => False

/-- What all runs keep. -/
def Invariant (peers : Fin N → Peer) : Result (Loop N) → Prop
  | .ok l => Inv peers l
  | .error _ => True

theorem invariant_step {s s' : Result (Loop N)} (hI : Invariant peers s)
    (hst : (system pid peers).step s a = some s') : Invariant peers s' := by
  rcases s with e | l
  · exact absurd hst (by simp [system])
  · rcases s' with e | l'
    · trivial
    · exact Inv.step hI (step_iff.mp hst) rfl

theorem exists_mayRead (n : Nat) (p : Peer) : ∃ received, MayRead received true n p := by
  cases p with
  | client c => exact ⟨_, rfl, rfl⟩
  | other => exact ⟨none, trivial⟩

/-- **Nothing is left undone.**  A server in its loop that nothing more can happen to has
answered all clients. -/
theorem Inv.answered (h : Inv peers l) (hstuck : (system pid peers).Stuck (.ok l)) :
    Answered peers (.ok l) := by
  have hno : ∀ a r, ¬ Step pid peers l a r := fun a r hst =>
    absurd ((step_iff.mpr hst).symm.trans (hstuck a)) (by simp)
  intro k c hc
  obtain ⟨hfailed, hclosed⟩ := h.client k c hc
  cases hl : l.events with
  | nil =>
    cases hp : (l.conns k).phase with
    | idle => exact absurd (.connect k hp) (hno _ _)
    | queued =>
      refine absurd (.wait [.listen] hl (by simp) (by simp [MAX_EVENTS]) (by simp) ?_) (hno _ _)
      simpa [Ready] using ⟨k, .inl hp⟩
    | failed => exact absurd hp hfailed
    | watched =>
      rcases Nat.eq_zero_or_pos (l.conns k).arrived with h0 | hpos
      · exact absurd (.deliver k 1 (.inr hp) Nat.one_pos (by rw [h0]; decide)) (hno _ _)
      · refine absurd (.wait [.conn k] hl (by simp) (by simp [MAX_EVENTS]) (by simp) ?_) (hno _ _)
        simpa [Ready] using ⟨hp, .inr hpos⟩
    | closed => exact hclosed hp
  | cons e es =>
    cases e with
    | listen => exact absurd (.refuse es hl) (hno _ _)
    | conn j =>
      obtain ⟨received, hmay⟩ := exists_mayRead (l.conns j).arrived (peers j)
      exact absurd (.serve es j ⟨.zero _, .zero _⟩ received true hl hmay) (hno _ _)

/-- **Every run ends**, with all clients answered or with a server that has stopped. -/
theorem endsIn (pid : Nat) (peers : Fin N → Peer) :
    (system pid peers).EndsIn fun t => Answered peers t ∨ ∃ e, t = .error e := by
  refine Machine.endsIn_of_measure (I := Invariant peers) measure (inv_init peers) ?_ ?_
  · rintro (e | l) a s' hI hst
    · exact absurd hst (by simp [system])
    · exact ⟨invariant_step hI hst, Inv.measure_lt hI (step_iff.mp hst)⟩
  · rintro (e | l) hI hstuck
    · exact .inr ⟨e, rfl⟩
    · exact .inl (Inv.answered hI hstuck)

/-! ## 4. Peers that fail -/

/-- The server is in its loop. -/
def Running : Result (Loop N) → Prop
  | .ok _ => True
  | .error _ => False

/-- `accept`, `read` and `send` do not return -1, and what is read fits in the arrays. -/
def Harmless (pid : Nat) : Result (Loop N) → Action N → Prop
  | .ok _, .accept conn_sock => conn_sock ≠ none
  | .ok _, .serve stale received sent => ∃ data, received = some data ∧
      (data ≠ [] → Fits pid stale data ∧ sent = true)
  | _, _ => True

/-- **A step ends the loop exactly when it does harm.** -/
theorem running_iff_harmless (hst : Step pid peers l a r) :
    Running r ↔ Harmless pid (.ok l) a := by
  cases hst with
  | connect | deliver | abort | fail | wait => exact Iff.rfl
  | accept es k hl hk => simp [Running, Harmless]
  | refuse es hl => simp [Running, Harmless]
  | serve es k stale received sent hl hmay =>
    rcases connBranch_cases pid stale received sent with ⟨hwhy, he⟩ | ⟨rfl, he⟩ |
      ⟨data, rfl, hne, ⟨hfits, rfl, m, he, -⟩ | ⟨hfits, b, i, he⟩⟩
    · rw [he]
      refine iff_of_false id ?_
      rintro ⟨data, rfl, hdata⟩
      rcases hwhy with hnone | ⟨data', heq, hne, -, hsent⟩
      · exact absurd hnone (by simp)
      · obtain rfl := Option.some.inj heq
        exact absurd (hdata hne).2 (by simp [hsent])
    · rw [he]
      exact iff_of_true trivial ⟨[], rfl, fun h => absurd rfl h⟩
    · rw [he]
      exact iff_of_true trivial ⟨data, rfl, fun _ => ⟨hfits, rfl⟩⟩
    · rw [he]
      refine iff_of_false id ?_
      rintro ⟨data', heq, hdata⟩
      obtain rfl := Option.some.inj heq
      exact hfits (hdata hne).1

theorem statesMeet_running_iff (as : List (Action N)) :
    (system pid peers).StepsMeet (Harmless pid) (system pid peers).init as ↔
      (system pid peers).StatesMeet Running (system pid peers).init as := by
  refine Machine.stepsMeet_iff_statesMeet_of_step (I := fun _ => True) (fun _ _ _ _ _ => trivial)
    ?_ trivial trivial
  rintro (e | l) a s' - hrunning hst
  · exact absurd hrunning id
  · exact running_iff_harmless (step_iff.mp hst)

theorem running_of_answered {t : Result (Loop N)} (h : Answered peers t) : Running t := by
  cases t with
  | error e => exact h
  | ok l => trivial

/-- **The server survives its peers exactly when none of them does harm.**  Every run ends.  Along
each run the server stays in its loop exactly when no `accept`, `read` or `send` returns -1 and
all that is read fits in the arrays; and in a run that nothing can be added to, every client
has been answered exactly then. -/
theorem survives_iff_harmless (pid : Fin (2 ^ 31)) (peers : Fin N → Peer) :
    (∃ n, ∀ as t, (system pid peers).run (system pid peers).init as = some t → as.length ≤ n) ∧
      ∀ as t, (system pid peers).run (system pid peers).init as = some t →
        ((system pid peers).StepsMeet (Harmless pid) (system pid peers).init as ↔
          (system pid peers).StatesMeet Running (system pid peers).init as) ∧
        ((system pid peers).Stuck t →
          ((system pid peers).StepsMeet (Harmless pid) (system pid peers).init as ↔
            Answered peers t)) := by
  have hends := endsIn pid peers
  refine ⟨hends.finite, fun as t hrun => ⟨statesMeet_running_iff as, fun hstuck => ?_⟩⟩
  rw [statesMeet_running_iff]
  constructor
  · intro hmeet
    rcases hends.final t ⟨as, hrun⟩ hstuck with hans | ⟨e, rfl⟩
    · exact hans
    · exact absurd (hmeet.last hrun) id
  · intro hans
    refine (Machine.statesMeet_of_run ?_ hrun (running_of_answered hans)).2
    rintro (e | l) a s' hst -
    · exact absurd hst (by simp [system])
    · trivial

def clientAndOther (k : Fin 2) : Peer :=
  if k = 0 then .client ⟨1234, .zero _⟩ else .other

/-- Both connect, and the other peer is accepted first.  It has aborted its connection, which the
server learns from `read`. -/
def abortedFirst : List (Action 2) :=
  [.connect 1, .connect 0, .wait [.listen], .accept (some 1), .wait [.conn 1],
    .serve ⟨.zero _, .zero _⟩ none true]

/-- **A connection that is aborted** stops the server, and the client is not answered. -/
theorem aborted_stops : ¬ ∀ (N : Nat) (pid : Fin (2 ^ 31)) (peers : Fin N → Peer)
    (as : List (Action N)) (t : Result (Loop N)),
    (system pid peers).run (system pid peers).init as = some t →
      (system pid peers).StatesMeet Running (system pid peers).init as ∧
        ((system pid peers).Stuck t → Answered peers t) := by
  intro h
  have hrun : ((system 1 clientAndOther).run (system 1 clientAndOther).init abortedFirst).map
      Except.toBool = some false := by decide +kernel
  obtain ⟨t, ht, hfalse⟩ := Option.map_eq_some_iff.mp hrun
  have hrunning : Running t := (h 2 1 clientAndOther abortedFirst t ht).1.last ht
  cases t with
  | error e => exact hrunning
  | ok l => exact absurd hfalse (by simp [Except.toBool])

end OsLabs.Epoll
