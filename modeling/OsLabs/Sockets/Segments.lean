/-
# Messages in segments

The server reads once from each connection, as soon as there is something to read, and takes
what stands in `msg_from` up to the first NUL for the client's process id.  Behind the bytes that
have arrived by then there is what the array held before.  So, as long as `accept` does not
fail, the answer names the client exactly when its whole process id has arrived, with the NUL
behind it, or what was in the array happens to be the rest of it (`answers_name_iff`).
-/
import OsLabs.Sockets.EventLoop

namespace OsLabs.Epoll

open OsLabs

variable {N pid n : Nat} {clients : Fin N → Client} {c : Client} {stale : Locals}
  {l l' : Loop N} {a : Action N} {k : Fin N}

/-! ## 1. One answer -/

/-- Of the client's message `n` bytes have arrived, and they contain its whole process id, or
what is in `msg_from` is the rest of it. -/
def Whole (c : Client) (msg_from : Buffer BUFF_SIZE) (n : Nat) : Prop :=
  (decimal c.pid).length < n ∨
    (msg_from.bytes.drop n).take ((decimal c.pid).length + 1 - n) = (decimal c.pid ++ [0]).drop n

theorem length_pid_le (p : Fin (2 ^ 31)) : (decimal p).length ≤ 10 :=
  length_decimal_le (by decide) (Nat.lt_trans p.isLt (by decide))

/-- **What the server takes for the process id.** -/
theorem whole_iff {m : Buffer BUFF_SIZE} (hm : decimal c.pid ++ [0] <+: m.bytes) :
    Whole c stale.msg_from n ↔ 0 ∈ contents stale (m.bytes.take n) ∧
      (contents stale (m.bytes.take n)).takeWhile (· ≠ 0) = decimal c.pid := by
  have hdigits := length_pid_le c.pid
  have hlen : (decimal c.pid ++ [0]).length = (decimal c.pid).length + 1 := by simp
  have htake : (m.bytes.take n).take BUFF_SIZE = m.bytes.take n :=
    List.take_of_length_le (by rw [List.length_take, m.length_eq]; omega)
  rw [Buffer.takeWhile_eq_iff, contents, htake, prefix_take_append_iff hm, hlen, Whole]
  have hno : (0 : UInt8) ∉ decimal c.pid := decimal_no_nul _
  rcases Nat.lt_or_ge (decimal c.pid).length n with hlt | hge
  · simp [hlt, hno, Nat.succ_le_of_lt hlt]
  · -- what is missing of the process id stands before the last byte of the array
    have hn : (m.bytes.take n).length = n := by
      rw [List.length_take, m.length_eq]
      unfold BUFF_SIZE
      omega
    have hfront : ((stale.msg_from.bytes.take (BUFF_SIZE - 1) ++ [0]).drop n).take
        ((decimal c.pid).length + 1 - n) =
          (stale.msg_from.bytes.drop n).take ((decimal c.pid).length + 1 - n) := by
      have hstale := stale.msg_from.length_eq
      have hroom : (decimal c.pid).length + 1 ≤ BUFF_SIZE - 1 := by
        unfold BUFF_SIZE
        omega
      rw [List.drop_append_of_le_length (by rw [List.length_take]; omega),
        List.take_append_of_le_length (by rw [List.length_drop, List.length_take]; omega),
        List.drop_take, List.take_take, Nat.min_eq_left (by omega)]
    rw [hn, hfront]
    simp [hno, Nat.not_lt.mpr hge, Nat.not_le.mpr (Nat.lt_succ_of_le hge)]

theorem answer_inj {str str' : Bytes} (h : answer pid str = answer pid str') : str = str' :=
  List.append_cancel_left h

/-- What the branch does for a client of which something has arrived. -/
theorem connBranch_client (pid : Fin (2 ^ 31)) (stale : Locals) {received : Option Bytes}
    {sent : Bool} (hn : 0 < n) (h : MayRead received sent n (.client c)) :
    (Whole c stale.msg_from n → ∃ m, connBranch pid stale received sent = .ok (some m) ∧
        m.cstring 0 = .ok (answer pid (decimal c.pid))) ∧
      (∀ m, connBranch pid stale received sent = .ok (some m) →
        m.cstring 0 = .ok (answer pid (decimal c.pid)) → Whole c stale.msg_from n) := by
  obtain ⟨m, rfl, hne, rfl, hpre⟩ := h.client hn
  rw [whole_iff hpre]
  constructor
  · rintro ⟨hmem, hstr⟩
    have hfits : Fits pid stale (m.bytes.take n) := by
      refine ⟨hmem, ?_⟩
      have hpid := length_pid_le pid
      have hdigits := length_pid_le c.pid
      rw [hstr]
      unfold BUFF_SIZE
      omega
    obtain ⟨m', hbranch, hstr'⟩ := connBranch_of_fits hne hfits true
    exact ⟨m', hbranch, by rw [hstr', hstr]⟩
  · intro m' hbranch hstr
    by_cases hfits : Fits pid stale (m.bytes.take n)
    · obtain ⟨m'', hbranch', hstr'⟩ := connBranch_of_fits hne hfits true
      obtain rfl := Option.some.inj (Except.ok.inj (hbranch.symm.trans hbranch'))
      exact ⟨hfits.1, answer_inj (Except.ok.inj (hstr'.symm.trans hstr))⟩
    · obtain ⟨b, i, he⟩ := connBranch_of_not_fits hne hfits true
      exact absurd (he.symm.trans hbranch) (by simp)

/-! ## 2. Runs -/

/-- The server among clients, and nobody else. -/
def clientsOnly (clients : Fin N → Client) (k : Fin N) : Peer := .client (clients k)

/-- All that has been sent names the client that it was sent to. -/
def NamesClients (pid : Nat) (clients : Fin N → Client) : Result (Loop N) → Prop
  | .ok l => ∀ k m, (l.conns k).reply = some m →
      m.cstring 0 = .ok (answer pid (decimal (clients k).pid))
  | .error _ => False

/-- Every client has been sent an answer that names it. -/
def AllNamed (pid : Nat) (clients : Fin N → Client) : Result (Loop N) → Prop
  | .ok l => ∀ k, ∃ m, (l.conns k).reply = some m ∧
      m.cstring 0 = .ok (answer pid (decimal (clients k).pid))
  | .error _ => False

/-- `accept` does not return -1, and the client whose connection is read from has got its process
id across. -/
def ReadsWhole (clients : Fin N → Client) : Result (Loop N) → Action N → Prop
  | .ok _, .accept conn_sock => conn_sock ≠ none
  | .ok l, .serve stale _ _ => ∀ k es, l.events = .conn k :: es →
      Whole (clients k) stale.msg_from (l.conns k).arrived
  | _, _ => True

/-- Only the branch of a connection sends anything on it. -/
theorem Step.reply_eq {peers : Fin N → Peer} (hst : Step pid peers l a (.ok l')) (k : Fin N) :
    (l'.conns k).reply = (l.conns k).reply ∨
      ∃ es stale received sent, l.events = .conn k :: es ∧ a = .serve stale received sent := by
  generalize hr : (Except.ok l' : Result (Loop N)) = r at hst
  cases hst with
  | connect j | abort j | fail j =>
    obtain rfl := Except.ok.inj hr
    rcases eq_or_ne k j with rfl | hkj
    · exact .inl (by simp [Loop.move])
    · exact .inl (by simp [Loop.move, hkj])
  | deliver j =>
    obtain rfl := Except.ok.inj hr
    rcases eq_or_ne k j with rfl | hkj
    · exact .inl (by simp)
    · exact .inl (by simp [hkj])
  | wait events =>
    obtain rfl := Except.ok.inj hr
    exact .inl rfl
  | accept es j =>
    obtain rfl := Except.ok.inj hr
    rcases eq_or_ne k j with rfl | hkj
    · exact .inl (by simp [Loop.move])
    · exact .inl (by simp [Loop.move, hkj])
  | refuse => exact absurd hr (by simp)
  | serve es j stale received sent hl hmay =>
    rcases eq_or_ne k j with rfl | hkj
    · exact .inr ⟨es, stale, received, sent, hl, rfl⟩
    · cases hbranch : connBranch pid stale received sent with
      | error e => exact absurd hr (by simp [hbranch, Except.map])
      | ok reply =>
        rw [hbranch] at hr
        obtain rfl := Except.ok.inj hr
        exact .inl (by simp [hkj])

/-- What has been sent stays sent. -/
theorem Inv.reply_stays {peers : Fin N → Peer} (h : Inv peers l)
    (hst : Step pid peers l a (.ok l')) {m : Buffer BUFF_SIZE}
    (hm : (l.conns k).reply = some m) : (l'.conns k).reply = some m := by
  rcases hst.reply_eq k with heq | ⟨es, stale, received, sent, hl, -⟩
  · rw [heq, hm]
  · have hwatched := (h.ready k (by simp [hl])).1
    exact absurd (hwatched.symm.trans (h.replied k m hm)) (by simp)

/-- The branch of a connection: its client is named exactly when its process id has been read. -/
theorem Inv.serve_names_iff {pid : Fin (2 ^ 31)} (h : Inv (clientsOnly clients) l)
    (hnames : NamesClients pid clients (.ok l)) {es : List (Event N)}
    (hl : l.events = .conn k :: es) {received : Option Bytes} {sent : Bool}
    (hmay : MayRead received sent (l.conns k).arrived (clientsOnly clients k)) :
    NamesClients pid clients ((connBranch pid stale received sent).map fun reply =>
        Loop.set { l with events := es } k { l.conns k with phase := .closed, reply := reply }) ↔
      Whole (clients k) stale.msg_from (l.conns k).arrived := by
  have hn : 0 < (l.conns k).arrived := by simpa [clientsOnly] using (h.ready k (by simp [hl])).2
  obtain ⟨hnamed, hwhole⟩ := connBranch_client pid stale hn hmay
  constructor
  · intro hr
    cases hbranch : connBranch pid stale received sent with
    | error e =>
      rw [hbranch] at hr
      exact absurd hr id
    | ok reply =>
      rw [hbranch] at hr
      obtain ⟨m, rfl⟩ := client_replied hn hmay hbranch
      exact hwhole m hbranch (hr k m (by simp))
  · intro hw
    obtain ⟨m, hbranch, hstr⟩ := hnamed hw
    rw [hbranch]
    intro j m' hm'
    rcases eq_or_ne j k with rfl | hj
    · obtain rfl : m = m' := by simpa using hm'
      exact hstr
    · exact hnames j m' (by simpa [hj] using hm')

/-- **One step**: all clients are named exactly when `accept`, if it is called, returns a
connection, and the client that is read from, if any, has got its process id across. -/
theorem Inv.names_iff {pid : Fin (2 ^ 31)} {r : Result (Loop N)}
    (h : Inv (clientsOnly clients) l) (hnames : NamesClients pid clients (.ok l))
    (hst : Step pid (clientsOnly clients) l a r) :
    NamesClients pid clients r ↔ ReadsWhole clients (.ok l) a := by
  have hkeep : ∀ l', r = .ok l' → (∀ stale received sent, a ≠ .serve stale received sent) →
      NamesClients pid clients (.ok l') := by
    rintro l' rfl hne k m hm
    rcases hst.reply_eq k with heq | ⟨es, stale, received, sent, -, ha⟩
    · exact hnames k m (heq ▸ hm)
    · exact absurd ha (hne stale received sent)
  cases hst with
  | connect | deliver | abort | fail | wait =>
    exact iff_of_true (hkeep _ rfl (by simp)) trivial
  | accept es k hl hk => exact iff_of_true (hkeep _ rfl (by simp)) (Option.some_ne_none k)
  | refuse es hl => exact iff_of_false id fun hne => hne rfl
  | serve es k stale received sent hl hmay =>
    rw [h.serve_names_iff hnames hl hmay]
    constructor
    · intro hw j es' hl'
      obtain ⟨hkj, -⟩ := List.cons.inj (hl.symm.trans hl')
      obtain rfl := Event.conn.inj hkj
      exact hw
    · intro hreads
      exact hreads k es hl

/-- **Along a run.** -/
theorem statesMeet_names_iff (pid : Fin (2 ^ 31)) (clients : Fin N → Client)
    (as : List (Action N)) :
    (system pid (clientsOnly clients)).StepsMeet (ReadsWhole clients)
        (system pid (clientsOnly clients)).init as ↔
      (system pid (clientsOnly clients)).StatesMeet (NamesClients pid clients)
        (system pid (clientsOnly clients)).init as := by
  refine Machine.stepsMeet_iff_statesMeet_of_step (fun s a s' => invariant_step) ?_ (inv_init _)
    fun k m hm => absurd hm (by simp [Loop.init])
  rintro (e | l) a s' hI hnames hst
  · exact absurd hnames id
  · exact Inv.names_iff hI hnames (step_iff.mp hst)

/-- If all that has been sent is right, so was what had been sent before. -/
theorem names_back {s s' : Result (Loop N)} (hI : Invariant (clientsOnly clients) s)
    (hst : (system pid (clientsOnly clients)).step s a = some s')
    (h : NamesClients pid clients s') : NamesClients pid clients s := by
  rcases s with e | l
  · exact absurd hst (by simp [system])
  · rcases s' with e | l'
    · exact absurd h id
    · exact fun k m hm => h k m (Inv.reply_stays hI (step_iff.mp hst) hm)

theorem allNamed_iff {t : Result (Loop N)} :
    AllNamed pid clients t ↔ Answered (clientsOnly clients) t ∧ NamesClients pid clients t := by
  cases t with
  | error e => exact iff_of_false id fun h => h.1
  | ok l =>
    constructor
    · intro h
      refine ⟨fun k c _ => ?_, fun k m hm => ?_⟩
      · obtain ⟨m, hm, -⟩ := h k
        exact ⟨m, hm⟩
      · obtain ⟨m', hm', hstr⟩ := h k
        obtain rfl := Option.some.inj (hm.symm.trans hm')
        exact hstr
    · rintro ⟨hans, hnames⟩ k
      obtain ⟨m, hm⟩ := hans k (clients k) rfl
      exact ⟨m, hm, hnames k m hm⟩

/-- **The answers name the clients exactly when their process ids have been read.**  Every run
ends.  Along each run the server stays in its loop, and all that is sent names the client that it
is sent to, exactly when no `accept` returns -1 and each read gets the client's process id; and
in a run that nothing can be added to, every client has been sent an answer that names it
exactly then. -/
theorem answers_name_iff (pid : Fin (2 ^ 31)) (clients : Fin N → Client) :
    (∃ n, ∀ as t, (system pid (clientsOnly clients)).run
        (system pid (clientsOnly clients)).init as = some t → as.length ≤ n) ∧
      ∀ as t, (system pid (clientsOnly clients)).run
          (system pid (clientsOnly clients)).init as = some t →
        ((system pid (clientsOnly clients)).StepsMeet (ReadsWhole clients)
            (system pid (clientsOnly clients)).init as ↔
          (system pid (clientsOnly clients)).StatesMeet (NamesClients pid clients)
            (system pid (clientsOnly clients)).init as) ∧
        ((system pid (clientsOnly clients)).Stuck t →
          ((system pid (clientsOnly clients)).StepsMeet (ReadsWhole clients)
              (system pid (clientsOnly clients)).init as ↔
            AllNamed pid clients t)) := by
  have hends := endsIn pid (clientsOnly clients)
  refine ⟨hends.finite, fun as t hrun =>
    ⟨statesMeet_names_iff pid clients as, fun hstuck => ?_⟩⟩
  rw [statesMeet_names_iff, allNamed_iff]
  constructor
  · intro hmeet
    have hlast := hmeet.last hrun
    rcases hends.final t ⟨as, hrun⟩ hstuck with hans | ⟨e, rfl⟩
    · exact ⟨hans, hlast⟩
    · exact absurd hlast id
  · rintro ⟨-, hnames⟩
    exact Machine.statesMeet_of_run_of_inv (fun s a s' => invariant_step)
      (fun s a s' hI hst => names_back hI hst) (inv_init _) hrun hnames

/-! ## 3. A message in two pieces -/

/-- All connections are closed, and no event is left. -/
theorem stuck_of_closed {peers : Fin N → Peer} (hl : l.events = [])
    (h : ∀ k, (l.conns k).phase = .closed) : (system pid peers).Stuck (.ok l) := by
  intro a
  cases hst : (system pid peers).step (.ok l) a with
  | none => rfl
  | some r =>
    cases step_iff.mp hst with
    | connect k hk => exact absurd (hk.symm.trans (h k)) (by simp)
    | deliver k n hk => simp [h k] at hk
    | abort k hother hk => exact absurd (hk.symm.trans (h k)) (by simp)
    | fail k hother hk => exact absurd (hk.symm.trans (h k)) (by simp)
    | wait events hl' hne hlen hnodup hready =>
      obtain ⟨e, he⟩ := List.exists_mem_of_ne_nil events hne
      have hready := hready e he
      cases e <;> simp [Ready, h] at hready
    | accept es k hl' => exact absurd (hl.symm.trans hl') (by simp)
    | refuse es hl' => exact absurd (hl.symm.trans hl') (by simp)
    | serve es k stale received sent hl' => exact absurd (hl.symm.trans hl') (by simp)

/-- The server reads when `n` bytes of the message have arrived, which are `data`. -/
def served (n : Nat) (data : Bytes) : List (Action 1) :=
  [.connect 0, .wait [.listen], .accept (some 0), .deliver 0 n, .wait [.conn 0],
    .serve ⟨.zero _, .zero _⟩ (some data) true]

def client1234 : Fin 1 → Client := fun _ => ⟨1234, .zero _⟩

/-- The events that are left, and the connection of client 0: whether it is closed, and the text
that has been sent. -/
def outcome : Result (Loop 1) → Option (List (Event 1) × Phase × Option Bytes)
  | .ok l => some (l.events, (l.conns 0).phase,
      (l.conns 0).reply.bind fun m => (m.cstring 0).toOption)
  | .error _ => none

example : ((system 100 (clientsOnly client1234)).run (system 100 (clientsOnly client1234)).init
    (served 32 ([49, 50, 51, 52] ++ List.replicate 28 0))).map outcome =
      some (some ([], .closed, some (answer 100 (decimal 1234)))) := by decide +kernel

/-- **The rest comes too late**: client 1234 is answered as client 12. -/
theorem first_segment_named : ¬ ∀ (N : Nat) (pid : Fin (2 ^ 31)) (clients : Fin N → Client)
    (as : List (Action N)) (t : Result (Loop N)),
    (system pid (clientsOnly clients)).run (system pid (clientsOnly clients)).init as = some t →
      (system pid (clientsOnly clients)).Stuck t → AllNamed pid clients t := by
  intro h
  have hrun : ((system 100 (clientsOnly client1234)).run
      (system 100 (clientsOnly client1234)).init (served 2 [49, 50])).map outcome =
        some (some ([], .closed, some (answer 100 (decimal 12)))) := by decide +kernel
  obtain ⟨t, ht, hout⟩ := Option.map_eq_some_iff.mp hrun
  cases t with
  | error e => exact absurd hout (by simp [outcome])
  | ok l =>
    simp only [outcome, Option.some.injEq, Prod.mk.injEq] at hout
    obtain ⟨hl, hclosed, htext⟩ := hout
    have hstuck : (system 100 (clientsOnly client1234)).Stuck (.ok l) :=
      stuck_of_closed hl fun k => by rw [Subsingleton.elim k 0, hclosed]
    obtain ⟨m, hm, hstr⟩ := h 1 100 client1234 (served 2 [49, 50]) _ ht hstuck 0
    rw [hm, Option.bind_some, hstr] at htext
    exact absurd (Option.some.inj htext) (by decide +kernel)

end OsLabs.Epoll
