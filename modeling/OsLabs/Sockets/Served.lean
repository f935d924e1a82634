/-
# Who is served

The datagram server and its clients, in any order of their steps.  No answer is ever printed by a
process that it is not for (`sessions_answer`).  But a client whose address does not fit waits for
ever, as one does that waits when the server ends, and no other does (`served_iff`); if no process
starts or is ended, the others are served (`clients_served`).
-/
import OsLabs.Sockets.Sessions
import Mathlib.Algebra.BigOperators.Fin
import Mathlib.Algebra.Order.BigOperators.Group.Finset

namespace OsLabs.Responder

open OsLabs

variable {pid : Nat} {σ σ' : System} {a : Event} {c : Client}

/-! ## 1. The invariant -/

variable {x : Client} {buf : Buffer BUFFER_SIZE} {pc : ClientPc} {d : Datagram}

theorem ClientOk.frame (h : ClientOk pid σ x) (hclient : σ'.client x = σ.client x)
    (hinbox : σ'.inbox x = σ.inbox x)
    (hfile : σ'.files (socketName x) = σ.files (socketName x))
    (hpending : σ'.pending x ≤ σ.pending x) : ClientOk pid σ' x where
  bound := by rw [hclient, hfile]; exact h.bound
  listens := by rw [hclient, hinbox]; exact h.listens
  inbox := by rw [hinbox]; exact h.inbox
  pending_le := Nat.le_trans hpending h.pending_le
  awaited hne := by
    rw [hclient, hfile]
    exact h.awaited (by omega)

@[simp] theorem pending_setPc (pc : ClientPc) : (σ.setPc c pc).pending x = σ.pending x := rfl

@[simp] theorem pending_setFile (name : Bytes) (e : Option Endpoint) :
    (σ.setFile name e).pending x = σ.pending x := rfl

theorem pending_setInbox_self (i : Option (List Bytes)) : (σ.setInbox c i).pending c =
    σ.queue.count (request c) + σ.server.answers c + (i.getD []).length := by
  simp [System.pending, System.setInbox]

/-- Nothing changes but what belongs to one client. -/
structure Local (c : Client) (σ σ' : System) : Prop where
  vars : σ'.vars = σ.vars
  server : σ'.server = σ.server
  queue : σ'.queue = σ.queue
  client : ∀ x, x ≠ c → σ'.client x = σ.client x
  inbox : ∀ x, x ≠ c → σ'.inbox x = σ.inbox x
  files : ∀ name, name ≠ socketName c → σ'.files name = σ.files name

theorem Local.setPc (pc : ClientPc) : Local c σ (σ.setPc c pc) :=
  ⟨rfl, rfl, rfl, fun _ hne => if_neg hne, fun _ _ => rfl, fun _ _ => rfl⟩

theorem Local.setInbox (i : Option (List Bytes)) : Local c σ (σ.setInbox c i) :=
  ⟨rfl, rfl, rfl, fun _ _ => rfl, fun _ hne => if_neg hne, fun _ _ => rfl⟩

theorem Local.setFile (e : Option Endpoint) : Local c σ (σ.setFile (socketName c) e) :=
  ⟨rfl, rfl, rfl, fun _ _ => rfl, fun _ _ => rfl, fun _ hne => if_neg hne⟩

theorem Local.print (out : List (Client × Bytes)) : Local c σ { σ with out := out } :=
  ⟨rfl, rfl, rfl, fun _ _ => rfl, fun _ _ => rfl, fun _ _ => rfl⟩

theorem Local.trans {τ : System} (h : Local c σ τ) (h' : Local c τ σ') : Local c σ σ' where
  vars := h'.vars.trans h.vars
  server := h'.server.trans h.server
  queue := h'.queue.trans h.queue
  client x hne := (h'.client x hne).trans (h.client x hne)
  inbox x hne := (h'.inbox x hne).trans (h.inbox x hne)
  files name hne := (h'.files name hne).trans (h.files name hne)

theorem Local.exit : Local c σ (σ.exit c) := (Local.setPc _).trans (.setInbox none)

theorem Local.bind : Local c σ
    (((σ.setFile (socketName c) (some (.client c))).setInbox c (some [])).setPc c (.sendto buf)) :=
  (Local.setFile _).trans ((Local.setInbox _).trans (.setPc _))

theorem Local.read {out : List (Client × Bytes)} {q : List Bytes} :
    Local c σ ((({ σ with out := out } : System).setInbox c (some q)).setPc c .close) :=
  (Local.print _).trans ((Local.setInbox _).trans (.setPc _))

theorem Local.close : Local c σ ((σ.setInbox c none).setPc c .unlink) :=
  (Local.setInbox _).trans (.setPc _)

theorem Local.unlink : Local c σ ((σ.setFile (socketName c) none).setPc c .absent) :=
  (Local.setFile _).trans (.setPc _)

theorem Local.pending (h : Local c σ σ') (hne : x ≠ c) : σ'.pending x = σ.pending x := by
  rw [System.pending, System.pending, h.server, h.queue, h.inbox x hne]

/-- A step of one client. -/
theorem SystemInv.of_local (h : SystemInv pid σ) (hl : Local c σ σ')
    (hfile : ∀ e, σ'.files (socketName c) = some e → e = .client c)
    (hout : ∀ l ∈ σ'.out, l.2 = answer pid (decimal l.1)) (hc : ClientOk pid σ' c) :
    SystemInv pid σ' where
  terminated := by rw [hl.vars]; exact h.terminated
  addrlen := by rw [hl.vars]; exact h.addrlen
  queue := by rw [hl.queue]; exact h.queue
  reply := by rw [hl.server]; exact h.reply
  files name e he := by
    by_cases hname : name = socketName c
    · subst hname
      exact .inr ⟨c, hfile e he, rfl⟩
    · rw [hl.files name hname] at he
      exact h.files name e he
  serverFile := by
    rw [hl.files _ (socketName_ne_server c).symm, hl.server]
    exact h.serverFile
  gone := by rw [hl.server, hl.queue]; exact h.gone
  client x := by
    by_cases hne : x = c
    · exact hne ▸ hc
    · exact (h.client x).frame (hl.client x hne) (hl.inbox x hne)
        (hl.files _ fun heq => hne (socketName_injective heq)) (Nat.le_of_eq (hl.pending hne))
  out := hout

/-- A socket file with a client's name is that client's. -/
theorem SystemInv.file_eq (h : SystemInv pid σ) {e : Endpoint}
    (he : σ.files (socketName c) = some e) : e = .client c := by
  rcases h.files _ e he with ⟨-, hname⟩ | ⟨c', rfl, hname⟩
  · exact absurd hname (socketName_ne_server c)
  · rw [socketName_injective hname]

/-- What is on its way to a process that is about to send, or has read, is nothing. -/
theorem ClientOk.pending_eq (h : ClientOk pid σ c) (hbound : (σ.client c).bound = true)
    (hwaits : (σ.client c).waits = false) : σ.pending c = 0 := by
  by_contra hne
  rcases (h.awaited hne).2 with hw | hb
  · exact absurd hw (by simp [hwaits])
  · exact absurd hb (by simp [hbound])

theorem SystemInv.exit (h : SystemInv pid σ) (c : Client) : SystemInv pid (σ.exit c) := by
  have hle : (σ.exit c).pending c ≤ σ.pending c := by
    rw [System.exit, pending_setInbox_self]
    simp [System.pending, System.setPc]
  have hpc : (σ.exit c).client c = .absent := if_pos rfl
  have hinbox : (σ.exit c).inbox c = none := if_pos rfl
  refine h.of_local .exit (fun e he => h.file_eq he) h.out ?_
  exact {
    bound := by simp [hpc, ClientPc.bound]
    listens := by simp [hpc, hinbox, ClientPc.listens]
    inbox := by simp [hinbox]
    pending_le := Nat.le_trans hle (h.client c).pending_le
    awaited := fun hne => ⟨((h.client c).awaited (by omega)).1, by simp [hpc, ClientPc.bound]⟩ }

theorem pending_send (σ : System) (c : Client) (buf : Buffer BUFFER_SIZE) (x : Client) :
    (({ σ with queue := σ.queue ++ [request c] } : System).setPc c (.read buf)).pending x =
      σ.pending x + if x = c then 1 else 0 := by
  have hone : [request c].count (request x) = if x = c then 1 else 0 := by
    by_cases heq : x = c
    · simp [heq]
    · have hne : request c ≠ request x := fun hr => heq (request_injective hr).symm
      simp [heq, hne]
  simp only [System.pending, System.setPc, List.count_append, hone]
  omega

/-- A client sends its request, and waits. -/
theorem SystemInv.send (h : SystemInv pid σ) (hpc : σ.client c = .sendto buf)
    (hserver : σ.server ≠ .exited) (buf' : Buffer BUFFER_SIZE) : SystemInv pid
      (({ σ with queue := σ.queue ++ [request c] } : System).setPc c (.read buf')) := by
  have hbound := (h.client c).bound (by rw [hpc]; rfl)
  have hzero := (h.client c).pending_eq (by rw [hpc]; rfl) (by rw [hpc]; rfl)
  have hcount := pending_send σ c buf'
  have hlistens := (h.client c).listens
  rw [hpc] at hlistens
  refine { h with queue := ?_, client := fun x => ?_, gone := fun hexit => absurd hexit hserver }
  · intro d hd
    rcases List.mem_append.mp hd with hd | hd
    · exact h.queue d hd
    · exact ⟨c, List.mem_singleton.mp hd⟩
  · by_cases heq : x = c
    · subst heq
      exact {
        bound := fun _ => hbound
        listens := by simpa [System.setPc, ClientPc.listens] using hlistens
        inbox := (h.client x).inbox
        pending_le := by rw [hcount, hzero, if_pos rfl]
        awaited := fun _ => ⟨hbound, .inl (by simp [System.setPc, ClientPc.waits])⟩ }
    · exact (h.client x).frame (if_neg heq) rfl rfl (Nat.le_of_eq (by rw [hcount, if_neg heq]; rfl))

/-- A client that has waited reads its answer. -/
theorem SystemInv.read (h : SystemInv pid σ) {q : List Bytes} (hpc : σ.client c = .read buf)
    (hinbox : σ.inbox c = some ((answer pid (decimal c) ++ [0]) :: q)) : SystemInv pid
      ((({ σ with out := σ.out ++ [(c, answer pid (decimal c))] } : System).setInbox c
        (some q)).setPc c .close) := by
  have hbound := (h.client c).bound (by rw [hpc]; rfl)
  have hle := (h.client c).pending_le
  rw [System.pending, hinbox, Option.getD_some, List.length_cons] at hle
  have hpending : ((({ σ with out := σ.out ++ [(c, answer pid (decimal c))] } : System).setInbox c
      (some q)).setPc c .close).pending c = 0 := by
    rw [pending_setPc, pending_setInbox_self, Option.getD_some]
    dsimp only
    omega
  refine h.of_local .read (fun e he => h.file_eq he) (fun l hl => ?_) ?_
  · rcases List.mem_append.mp hl with hl | hl
    · exact h.out l hl
    · rw [List.mem_singleton.mp hl]
  · exact {
      bound := fun _ => hbound
      listens := by simp [System.setInbox, System.setPc, ClientPc.listens]
      inbox := fun q' hq' data hdata => by
        obtain rfl : q = q' := by simpa [System.setInbox, System.setPc] using hq'
        exact (h.client c).inbox _ hinbox data (List.mem_cons_of_mem _ hdata)
      pending_le := by rw [hpending]; exact Nat.zero_le _
      awaited := fun hne => absurd hpending hne }

theorem SystemInv.receive (h : SystemInv pid σ) {q : List Datagram} {vars : Server} {r : Datagram}
    (hpc : σ.server = .recvfrom) (hq : σ.queue = request c :: q) (hterm : Terminated vars)
    (hlen : SHORTEST ≤ vars.addrlen) (hr : IsAnswer pid r c) :
    SystemInv pid { σ with vars := vars, server := .sendto r, queue := q } := by
  have hpending : ∀ x, ({ σ with vars := vars, server := .sendto r, queue := q } : System).pending x
      ≤ σ.pending x := by
    intro x
    simp only [System.pending, ServerPc.answers, hpc, hq, List.count_cons]
    by_cases haddr : r.addr = address x
    · obtain rfl := hr.eq_of_addr haddr
      simp [haddr]
    · simp [haddr]
  exact { h with
    terminated := hterm
    addrlen := hlen
    queue := fun d hd => h.queue d (hq ▸ List.mem_cons_of_mem _ hd)
    reply := fun d hd => ⟨c, by rw [← ServerPc.sendto.inj hd]; exact hr⟩
    serverFile := h.serverFile.trans (iff_of_true (by simp [hpc]) (by simp))
    gone := fun hexit => absurd hexit (by simp)
    client := fun x => (h.client x).frame rfl rfl rfl (hpending x) }

/-- The answer comes to the client it is for, if that is still there. -/
theorem SystemInv.answered (h : SystemInv pid σ) {d : Datagram} (hpc : σ.server = .sendto d)
    (haddr : d.addr = address c) : SystemInv pid { σ.setInbox c
      ((σ.inbox c).map (· ++ [answer pid (decimal c) ++ [0]])) with server := .recvfrom } := by
  have hone : σ.pending c ≠ 0 := by
    rw [System.pending, hpc, ServerPc.answers, if_pos haddr]
    omega
  obtain ⟨hfile, hwaits⟩ := (h.client c).awaited hone
  have hle : ({ σ.setInbox c ((σ.inbox c).map (· ++ [answer pid (decimal c) ++ [0]])) with
      server := .recvfrom } : System).pending c ≤ σ.pending c := by
    simp only [System.pending, hpc, ServerPc.answers, if_pos haddr, System.setInbox, if_true]
    cases σ.inbox c with
    | none => simp
    | some q =>
      simp only [Option.map_some, Option.getD_some, List.length_append, List.length_singleton]
      omega
  refine { h with
    reply := fun d hd => absurd hd (by simp)
    serverFile := h.serverFile.trans (iff_of_true (by simp [hpc]) (by simp))
    gone := fun hexit => absurd hexit (by simp)
    client := fun x => ?_ }
  by_cases heq : x = c
  · subst heq
    exact {
      bound := (h.client x).bound
      listens := by simpa [System.setInbox] using (h.client x).listens
      inbox := fun q hq data hdata => by
        obtain ⟨q', hq', rfl⟩ : ∃ q', σ.inbox x = some q' ∧
            q' ++ [answer pid (decimal x) ++ [0]] = q := by simpa [System.setInbox] using hq
        rcases List.mem_append.mp hdata with hdata | hdata
        · exact (h.client x).inbox q' hq' data hdata
        · exact List.mem_singleton.mp hdata
      pending_le := Nat.le_trans hle (h.client x).pending_le
      awaited := fun _ => ⟨hfile, hwaits⟩ }
  · refine (h.client x).frame rfl (if_neg heq) rfl ?_
    simp [System.pending, System.setInbox, heq, ServerPc.answers]

/-- An answer that is nobody's. -/
theorem SystemInv.lost (h : SystemInv pid σ) {d : Datagram} (hpc : σ.server = .sendto d) :
    SystemInv pid { σ with server := .recvfrom } := by
  exact { h with
    reply := fun d hd => absurd hd (by simp)
    serverFile := h.serverFile.trans (iff_of_true (by simp [hpc]) (by simp))
    gone := fun hexit => absurd hexit (by simp)
    client := fun x => (h.client x).frame rfl rfl rfl (by
      simp [System.pending, ServerPc.answers]) }

theorem SystemInv.sigint (h : SystemInv pid σ) : SystemInv pid σ.sigint := by
  have hfile : ∀ x, σ.sigint.files (socketName x) = σ.files (socketName x) :=
    fun x => if_neg (socketName_ne_server x)
  exact { h with
    queue := fun d hd => absurd hd (by simp [System.sigint, System.setFile])
    reply := fun d hd => absurd hd (by simp [System.sigint, System.setFile])
    files := fun name e he => by
      by_cases hname : name = SERVER_SOCKET
      · exact absurd he (by simp [System.sigint, System.setFile, hname])
      · exact h.files name e (by simpa [System.sigint, System.setFile, hname] using he)
    serverFile := by simp [System.sigint, System.setFile]
    gone := fun _ => rfl
    client := fun x => (h.client x).frame rfl rfl (hfile x) (by
      simp [System.pending, System.sigint, System.setFile, ServerPc.answers]) }

/-- **A step keeps the invariant.** -/
theorem SystemInv.step (h : SystemInv pid σ) (hm : Moves pid σ a σ') : SystemInv pid σ' := by
  cases hm with
  | spawn c buf hpc =>
    refine h.of_local (.setPc _) (fun e he => h.file_eq he) h.out ?_
    have hlistens := (h.client c).listens
    rw [hpc] at hlistens
    exact {
      bound := by simp [System.setPc, ClientPc.bound]
      listens := by simpa [System.setPc, ClientPc.listens] using hlistens
      inbox := (h.client c).inbox
      pending_le := (h.client c).pending_le
      awaited := fun hne => ⟨((h.client c).awaited hne).1, by simp [System.setPc, ClientPc.bound]⟩ }
  | bind c buf hpc hfree =>
    have hzero : σ.pending c = 0 := by
      by_contra hne
      exact absurd ((h.client c).awaited hne).1 (by simp [hfree])
    have hinbox : σ.inbox c = none := by
      simpa [hpc, ClientPc.listens] using (h.client c).listens
    have hpending : (((σ.setFile (socketName c) (some (.client c))).setInbox c (some [])).setPc c
        (.sendto buf)).pending c = 0 := by
      simpa [System.pending, System.setInbox, System.setPc, System.setFile, hinbox] using hzero
    refine h.of_local .bind (fun e he => ?_) h.out ?_
    · simpa [System.setFile, System.setInbox, System.setPc, eq_comm] using he
    · exact {
        bound := fun _ => by simp [System.setFile, System.setInbox, System.setPc]
        listens := by simp [System.setInbox, System.setPc, ClientPc.listens]
        inbox := fun q hq data hdata => by
          obtain rfl : [] = q := by simpa [System.setInbox, System.setPc] using hq
          exact absurd hdata List.not_mem_nil
        pending_le := by rw [hpending]; exact Nat.zero_le _
        awaited := fun hne => absurd hpending hne }
  | refuse c buf hpc htaken => exact h.exit c
  | send c buf buf' hpc hserver => exact h.send hpc hserver buf'
  | unsent c buf hpc hserver => exact h.exit c
  | read c buf q hpc hinbox => exact h.read hpc hinbox
  | close c hpc =>
    have hbound := (h.client c).bound (by rw [hpc]; rfl)
    have hzero := (h.client c).pending_eq (by rw [hpc]; rfl) (by rw [hpc]; rfl)
    have hpending : ((σ.setInbox c none).setPc c .unlink).pending c = 0 := by
      rw [System.pending] at hzero
      rw [pending_setPc, pending_setInbox_self, Option.getD_none, List.length_nil]
      omega
    refine h.of_local .close (fun e he => h.file_eq he) h.out ?_
    exact {
      bound := fun _ => hbound
      listens := by simp [System.setInbox, System.setPc, ClientPc.listens]
      inbox := by simp [System.setInbox, System.setPc]
      pending_le := by rw [hpending]; exact Nat.zero_le _
      awaited := fun hne => absurd hpending hne }
  | unlink c hpc =>
    have hzero := (h.client c).pending_eq (by rw [hpc]; rfl) (by rw [hpc]; rfl)
    have hlistens := (h.client c).listens
    rw [hpc] at hlistens
    refine h.of_local .unlink (fun e he => ?_) h.out ?_
    · exact absurd he (by simp [System.setFile, System.setPc])
    · exact {
        bound := by simp [System.setPc, ClientPc.bound]
        listens := by simpa [System.setFile, System.setPc, ClientPc.listens] using hlistens
        inbox := (h.client c).inbox
        pending_le := (h.client c).pending_le
        awaited := fun hne => absurd hzero hne }
  | kill c hpc => exact h.exit c
  | receive c q vars r hpc hq hterm hlen hr hfits => exact h.receive hpc hq hterm hlen hr
  | answer c d hpc haddr => exact h.answered hpc haddr
  | lose d hpc haddr => exact h.lost hpc
  | sigint hpc => exact h.sigint

/-! ## 2. Who is stranded -/

/-- If the client waits, something is on its way to it. -/
def System.Hopeful (s : System) (c : Client) : Prop := (s.client c).waits = true → s.pending c ≠ 0

/-- The condition on a step for one client: when the server receives its request it has an address
that fits, or it no longer waits, and when SIGINT comes it does not wait or has only to read. -/
def Heeds (c : Client) : Result System → Event → Prop
  | .ok s, .server => ∀ q, s.server = .recvfrom → s.queue = request c :: q →
      (s.client c).waits = true → Fits s.vars c
  | .ok s, .sigint => (s.client c).waits = true → s.inbox c ≠ some []
  | _, _ => True

/-- A step of one client, which does not wait behind it. -/
theorem System.Hopeful.of_local (hs : σ.Hopeful x) (hl : Local c σ σ')
    (hc : (σ'.client c).waits = false) : σ'.Hopeful x := by
  intro hx
  by_cases hne : x = c
  · rw [hne, hc] at hx
    exact absurd hx (by simp)
  · rw [hl.pending hne]
    exact hs (by rwa [hl.client x hne] at hx)

theorem ClientOk.inbox_of_waits (h : ClientOk pid σ c) (hwaits : (σ.client c).waits = true) :
    ∃ q, σ.inbox c = some q := by
  rw [← Option.isSome_iff_exists, h.listens]
  cases hpc : σ.client c with
  | read buf => rfl
  | _ => simp [hpc, ClientPc.waits] at hwaits

theorem pending_receive (vars : Server) {q : List Datagram} {r : Datagram}
    (hpc : σ.server = .recvfrom) (hq : σ.queue = request c :: q) (hr : IsAnswer pid r c)
    (x : Client) :
    ({ σ with vars := vars, server := .sendto r, queue := q } : System).pending x +
      (if x = c then 1 else 0) = σ.pending x + if x = c ∧ r.addr = address c then 1 else 0 := by
  simp only [System.pending, ServerPc.answers, hpc, hq, List.count_cons]
  by_cases hx : x = c
  · subst hx
    by_cases haddr : r.addr = address x
    · simp [haddr]
    · simp [haddr]
      omega
  · have hne : request c ≠ request x := fun h => hx (request_injective h).symm
    have haddr : r.addr ≠ address x := fun h => hx (hr.eq_of_addr h)
    simp [hx, hne, haddr]

/-- What an answer that is sent changes for a client: nothing, unless it is the one to it. -/
theorem pending_answer (hpc : σ.server = .sendto d) (haddr : d.addr = address c) (hne : x ≠ c) :
    ({ σ.setInbox c ((σ.inbox c).map (· ++ [answer pid (decimal c) ++ [0]])) with
      server := .recvfrom } : System).pending x = σ.pending x := by
  have hother : d.addr ≠ address x := fun h => hne (address_injective (h.symm.trans haddr))
  simp [System.pending, System.setInbox, hne, hpc, ServerPc.answers, hother]

theorem pending_lose (hpc : σ.server = .sendto d) (haddr : ∀ c, d.addr ≠ address c) :
    ({ σ with server := .recvfrom } : System).pending x = σ.pending x := by
  simp [System.pending, hpc, ServerPc.answers, haddr x]

theorem pending_sigint (σ : System) (x : Client) :
    σ.sigint.pending x = ((σ.inbox x).getD []).length := by
  simp [System.pending, System.sigint, System.setFile, ServerPc.answers]

/-- A request is received: its client can hope on exactly if its address fits. -/
theorem SystemInv.hopeful_receive (h : SystemInv pid σ) (hs : σ.Hopeful x) {q : List Datagram}
    {vars : Server} {r : Datagram} (hpc : σ.server = .recvfrom) (hq : σ.queue = request c :: q)
    (hr : IsAnswer pid r c) (hfits : r.addr = address c ↔ Fits σ.vars c) :
    ({ σ with vars := vars, server := .sendto r, queue := q } : System).Hopeful x ↔
      Heeds x (.ok σ) .server := by
  have hpending := pending_receive vars hpc hq hr x
  by_cases heq : x = c
  · subst heq
    have hle := (h.client x).pending_le
    simp only [true_and, if_true] at hpending
    by_cases haddr : r.addr = address x
    · rw [if_pos haddr] at hpending
      refine iff_of_true (fun hw => ?_) fun _ _ _ _ => hfits.mp haddr
      have hne : σ.pending x ≠ 0 := hs hw
      omega
    · rw [if_neg haddr] at hpending
      have hzero : ({ σ with vars := vars, server := .sendto r, queue := q } : System).pending x
          = 0 := by omega
      constructor
      · exact fun hhope _ _ _ hwait => absurd hzero (hhope hwait)
      · exact fun hheeds hwait => absurd (hfits.mpr (hheeds q hpc hq hwait)) haddr
  · simp only [heq, false_and, if_false, Nat.add_zero] at hpending
    refine iff_of_true (fun hw => by rw [hpending]; exact hs hw) fun q' _ hq' _ => ?_
    exact absurd (request_injective (List.cons_eq_cons.mp (hq.symm.trans hq')).1).symm heq

/-- SIGINT: a client that waits for more than a `read` waits for ever. -/
theorem SystemInv.hopeful_sigint (h : SystemInv pid σ) :
    σ.sigint.Hopeful x ↔ Heeds x (.ok σ) .sigint := by
  refine imp_congr_right fun hwait => ?_
  rw [pending_sigint]
  obtain ⟨q, hq⟩ := (h.client x).inbox_of_waits hwait
  simp [hq]

/-- **One step**: the client can hope on exactly if the step heeds the condition. -/
theorem SystemInv.hopeful_step (h : SystemInv pid σ) (hs : σ.Hopeful x) (hm : Moves pid σ a σ') :
    σ'.Hopeful x ↔ Heeds x (.ok σ) a := by
  have hexit : ∀ c, (σ.exit c).Hopeful x := fun c =>
    hs.of_local .exit (by simp [System.exit, System.setPc, System.setInbox, ClientPc.waits])
  cases hm with
  | spawn c buf hpc =>
    exact iff_of_true (hs.of_local (.setPc _) (by simp [System.setPc, ClientPc.waits])) trivial
  | bind c buf hpc hfree =>
    exact iff_of_true (hs.of_local .bind (by simp [System.setPc, ClientPc.waits])) trivial
  | refuse c buf hpc htaken => exact iff_of_true (hexit c) trivial
  | send c buf buf' hpc hserver =>
    refine iff_of_true (fun hx => ?_) trivial
    rw [pending_send]
    by_cases heq : x = c
    · rw [if_pos heq]
      omega
    · rw [if_neg heq]
      exact hs (by simpa [System.setPc, heq] using hx)
  | unsent c buf hpc hserver => exact iff_of_true (hexit c) trivial
  | read c buf q hpc hinbox =>
    exact iff_of_true (hs.of_local .read (by simp [System.setPc, ClientPc.waits])) trivial
  | close c hpc =>
    exact iff_of_true (hs.of_local .close (by simp [System.setPc, ClientPc.waits])) trivial
  | unlink c hpc =>
    exact iff_of_true (hs.of_local .unlink (by simp [System.setPc, ClientPc.waits])) trivial
  | kill c hpc => exact iff_of_true (hexit c) trivial
  | receive c q vars r hpc hq hterm hlen hr hfits => exact h.hopeful_receive hs hpc hq hr hfits
  | answer c d hpc haddr =>
    refine iff_of_true (fun hx => ?_) fun q hrecv _ _ => absurd (hpc.symm.trans hrecv) (by simp)
    have hx' : (σ.client x).waits = true := hx
    by_cases heq : x = c
    · subst heq
      obtain ⟨q, hq⟩ := (h.client x).inbox_of_waits hx'
      simp [System.pending, System.setInbox, hq]
    · rw [pending_answer hpc haddr heq]
      exact hs hx'
  | lose d hpc haddr =>
    refine iff_of_true (fun hx => ?_) fun q hrecv _ _ => absurd (hpc.symm.trans hrecv) (by simp)
    rw [pending_lose hpc haddr]
    exact hs hx
  | sigint hpc => exact h.hopeful_sigint

/-- The client waits, and nothing is on its way to it. -/
def System.Stranded (s : System) (c : Client) : Prop :=
  (s.client c).waits = true ∧ s.pending c = 0

theorem System.not_hopeful_iff : ¬ σ.Hopeful c ↔ σ.Stranded c := by
  rw [System.Hopeful, Classical.not_imp, not_not, System.Stranded]

/-- A client that is about to do something else than to wait. -/
theorem System.Stranded.ne (hs : σ.Stranded x) (hc : (σ.client c).waits = false) : x ≠ c := by
  rintro rfl
  rw [hs.1] at hc
  exact absurd hc (by simp)

theorem System.Stranded.of_local (hs : σ.Stranded x) (hl : Local c σ σ') (hne : x ≠ c) :
    σ'.Stranded x :=
  ⟨by rw [hl.client x hne]; exact hs.1, by rw [hl.pending hne]; exact hs.2⟩

/-- **For ever**: nothing but a signal ends the wait of a client that is stranded. -/
theorem System.Stranded.step (hs : σ.Stranded x) (hm : Moves pid σ a σ') (ha : a ≠ .kill x) :
    σ'.Stranded x := by
  cases hm with
  | spawn c buf hpc => exact hs.of_local (.setPc _) (hs.ne (by rw [hpc]; rfl))
  | bind c buf hpc hfree =>
    exact hs.of_local .bind (hs.ne (by rw [hpc]; rfl))
  | refuse c buf hpc htaken => exact hs.of_local .exit (hs.ne (by rw [hpc]; rfl))
  | send c buf buf' hpc hserver =>
    have hne : x ≠ c := hs.ne (by rw [hpc]; rfl)
    refine ⟨?_, by rw [pending_send, if_neg hne]; exact hs.2⟩
    simpa [System.setPc, hne] using hs.1
  | unsent c buf hpc hserver => exact hs.of_local .exit (hs.ne (by rw [hpc]; rfl))
  | read c buf q hpc hinbox =>
    refine hs.of_local .read ?_
    rintro rfl
    exact absurd hs.2 (by simp [System.pending, hinbox])
  | close c hpc =>
    exact hs.of_local .close (hs.ne (by rw [hpc]; rfl))
  | unlink c hpc =>
    exact hs.of_local .unlink (hs.ne (by rw [hpc]; rfl))
  | kill c hpc => exact hs.of_local .exit fun heq => ha (by rw [heq])
  | receive c q vars r hpc hq hterm hlen hr hfits =>
    have hpending := pending_receive vars hpc hq hr x
    have hzero : σ.pending x = 0 := hs.2
    have hne : x ≠ c := by
      rintro rfl
      simp [System.pending, hq] at hzero
    simp only [hne, false_and, if_false, Nat.add_zero] at hpending
    exact ⟨hs.1, hpending.trans hzero⟩
  | answer c d hpc haddr =>
    have hne : x ≠ c := by
      rintro rfl
      exact absurd hs.2 (by simp [System.pending, hpc, ServerPc.answers, haddr])
    exact ⟨hs.1, (pending_answer hpc haddr hne).trans hs.2⟩
  | lose d hpc haddr => exact ⟨hs.1, (pending_lose hpc haddr).trans hs.2⟩
  | sigint hpc =>
    have hzero : ((σ.inbox x).getD []).length = 0 := (Nat.add_eq_zero_iff.mp hs.2).2
    exact ⟨hs.1, (pending_sigint σ x).trans hzero⟩

/-! ## 3. Whole runs -/

/-- The program has got no further than to a state of the invariant. -/
def Sound (pid : Nat) (x : Result System) : Prop := ∃ s, x = .ok s ∧ SystemInv pid s

def Served (c : Client) : Result System → Prop
  | .ok s => s.Hopeful c
  | .error _ => False

def WaitsInVain (c : Client) : Result System → Prop
  | .ok s => s.Stranded c
  | .error _ => False

variable {x x' : Result System} {vars : Server}

theorem Sound.moves (hpid : pid < 2 ^ 31) (hx : Sound pid x)
    (hst : (sessions pid vars).step x a = some x') :
    ∃ s s', x = .ok s ∧ x' = .ok s' ∧ SystemInv pid s ∧ Moves pid s a s' := by
  obtain ⟨s, rfl, hs⟩ := hx
  obtain ⟨s', rfl, hm⟩ := hs.moves hpid hst
  exact ⟨s, s', rfl, rfl, hs, hm⟩

theorem Sound.step (hpid : pid < 2 ^ 31) (hx : Sound pid x)
    (hst : (sessions pid vars).step x a = some x') : Sound pid x' := by
  obtain ⟨s, s', -, rfl, hs, hm⟩ := hx.moves hpid hst
  exact ⟨s', rfl, hs.step hm⟩

/-- The variables of the server before its loop, with a NUL behind the longest request. -/
theorem sound_init (pid : Nat) (client_addr : Buffer SOCKADDR_SIZE)
    (buf copy_buf : Buffer BUFFER_SIZE) (hnul : (0 : UInt8) ∈ buf.bytes.drop 6) :
    Sound pid (sessions pid (start client_addr buf copy_buf)).init := by
  refine ⟨_, rfl, hnul, (by decide : SHORTEST ≤ SOCKADDR_SIZE), ?_, ?_, ?_, ?_, ?_, ?_, ?_⟩
  · exact fun d hd => absurd hd List.not_mem_nil
  · exact fun d hd => absurd hd (by simp [System.init])
  · intro name e he
    by_cases hname : name = SERVER_SOCKET
    · simp only [System.init, hname, if_true, Option.some.injEq] at he
      exact .inl ⟨he.symm, hname⟩
    · exact absurd he (by simp [System.init, hname])
  · simp [System.init]
  · exact fun hexit => absurd hexit (by simp [System.init])
  · intro c
    have hpending : (System.init (start client_addr buf copy_buf)).pending c = 0 := by
      simp [System.pending, System.init, ServerPc.answers]
    exact ⟨by simp [System.init, ClientPc.bound], by simp [System.init, ClientPc.listens],
      by simp [System.init], by rw [hpending]; exact Nat.zero_le _,
      fun hne => absurd hpending hne⟩
  · exact fun l hl => absurd hl List.not_mem_nil

/-- **The sessions.**  Whatever the order of the steps, whichever clients are ended by a signal and
start again, and whenever the server is ended: no access is outside an array; whatever a client
prints is the answer to itself; and at most one message is ever at a client's socket, the answer
to itself, which it waits for. -/
theorem sessions_answer (pid : Fin (2 ^ 31)) (client_addr : Buffer SOCKADDR_SIZE)
    (buf copy_buf : Buffer BUFFER_SIZE) (hnul : (0 : UInt8) ∈ buf.bytes.drop 6)
    (hx : (sessions pid (start client_addr buf copy_buf)).Reachable x) : ∃ s, x = .ok s ∧
      (∀ c text, (c, text) ∈ s.out → text = answer pid (decimal c)) ∧
      ∀ c q, s.inbox c = some q → q = [] ∨
        q = [answer pid (decimal c) ++ [0]] ∧ (s.client c).waits = true := by
  obtain ⟨s, rfl, h⟩ : Sound pid x := Machine.reachable_rule
    (sound_init pid client_addr buf copy_buf hnul) (fun _ _ _ hx hst => hx.step pid.isLt hst) hx
  refine ⟨s, rfl, fun c text hout => h.out _ hout, fun c q hq => ?_⟩
  have hle := (h.client c).pending_le
  simp only [System.pending, hq, Option.getD_some] at hle
  cases q with
  | nil => exact .inl rfl
  | cons data q =>
    have hnil : q = [] := List.length_eq_zero_iff.mp (by rw [List.length_cons] at hle; omega)
    subst hnil
    have hne : s.pending c ≠ 0 := by simp [System.pending, hq]
    have hlistens := (h.client c).listens
    rw [hq] at hlistens
    refine .inr ⟨by rw [(h.client c).inbox _ hq data List.mem_cons_self], ?_⟩
    rcases ((h.client c).awaited hne).2 with hw | hb
    · exact hw
    · cases hpc : s.client c <;> simp [hpc, ClientPc.bound, ClientPc.listens] at hb hlistens

/-- A client starts, and sends its request. -/
def asks (c : Client) : List Event := [.spawn c (.zero _), .client c, .client c]

/-- Process 123 asks, then process 12345; both are answered, and the first reads. -/
def longerSecond : List Event :=
  asks 123 ++ asks 12345 ++ [.server, .server, .client 123, .server, .server]

/-- What has been printed, whether a client waits, with how much on its way to it, and whether the
server has ended. -/
def outcome (c : Client) : Result System → Option (List (Client × Bytes) × Bool × Nat × Bool)
  | .ok s => some (s.out, (s.client c).waits, s.pending c, s.server == .exited)
  | .error _ => none

theorem run_longerSecond : ((sessions 1 (start (.zero _) (.zero _) (.zero _))).run
    (sessions 1 (start (.zero _) (.zero _) (.zero _))).init longerSecond).map (outcome 12345) =
      some (some ([(123, answer 1 (decimal 123))], true, 0, false)) := by decide +kernel

/-- Process 12345 has not been answered, but no other has got its answer. -/
theorem sessions_answer_longerSecond : ∃ s,
    (sessions 1 (start (.zero _) (.zero _) (.zero _))).Reachable (.ok s) ∧
      s.out = [(123, answer 1 (decimal 123))] ∧ ∀ c q, s.inbox c = some q → q = [] ∨
        q = [answer 1 (decimal c) ++ [0]] ∧ (s.client c).waits = true := by
  obtain ⟨x, hx, hout⟩ := Machine.reachable_of_run_map _ run_longerSecond
  obtain ⟨s, rfl, -, hinbox⟩ := sessions_answer 1 (.zero _) (.zero _) (.zero _) (by decide) hx
  simp only [outcome, Option.some.injEq, Prod.mk.injEq] at hout
  exact ⟨s, hx, hout.1, hinbox⟩

/-- **Who waits is served.**  Something is on its way to a client whenever it waits exactly when
each of its requests has an address that fits as it is received, and SIGINT comes when it does not
wait or its answer is there.  Otherwise it waits for ever, if no signal ends it. -/
theorem served_iff (pid : Fin (2 ^ 31)) (client_addr : Buffer SOCKADDR_SIZE)
    (buf copy_buf : Buffer BUFFER_SIZE) (hnul : (0 : UInt8) ∈ buf.bytes.drop 6) (c : Client)
    (as : List Event) :
    ((sessions pid (start client_addr buf copy_buf)).StatesMeet (Served c)
        (sessions pid (start client_addr buf copy_buf)).init as ↔
      (sessions pid (start client_addr buf copy_buf)).StepsMeet (Heeds c)
        (sessions pid (start client_addr buf copy_buf)).init as) ∧
      ∀ x, (sessions pid (start client_addr buf copy_buf)).run
          (sessions pid (start client_addr buf copy_buf)).init as = some x → ¬ Served c x →
        ∀ bs, (sessions pid (start client_addr buf copy_buf)).StepsMeet
            (fun _ b => b ≠ .kill c) x bs →
          (sessions pid (start client_addr buf copy_buf)).StatesMeet (WaitsInVain c) x bs := by
  have hinit := sound_init pid client_addr buf copy_buf hnul
  refine ⟨(Machine.stepsMeet_iff_statesMeet_of_step (fun _ _ _ hx hst => hx.step pid.isLt hst)
    (fun x a x' hx hserved hst => ?_) hinit ?_).symm, fun x hrun hvain bs hbs => ?_⟩
  · obtain ⟨s, s', rfl, rfl, hs, hm⟩ := hx.moves pid.isLt hst
    exact hs.hopeful_step hserved hm
  · exact fun hc => absurd hc (by simp [System.init, ClientPc.waits])
  · have hx : Sound pid x := Machine.run_rule (fun _ _ _ hx hst => hx.step pid.isLt hst) as _ x
      hinit hrun
    have hwaits : WaitsInVain c x := by
      obtain ⟨s, rfl, -⟩ := hx
      exact System.not_hopeful_iff.mp hvain
    refine (Machine.statesMeet_of_stepsMeet (I := fun x => Sound pid x ∧ WaitsInVain c x)
      ?_ ⟨hx, hwaits⟩ hbs).mono fun x h => h.2
    rintro y b y' ⟨hy, hw⟩ hb hst
    refine ⟨hy.step pid.isLt hst, ?_⟩
    obtain ⟨s, s', rfl, rfl, -, hm⟩ := hy.moves pid.isLt hst
    exact hw.step hm hb

/-- Process 12345 waits for ever, so a step has not heeded the condition. -/
theorem served_iff_longerSecond : ¬ (sessions 1 (start (.zero _) (.zero _) (.zero _))).StepsMeet
    (Heeds 12345) (sessions 1 (start (.zero _) (.zero _) (.zero _))).init longerSecond := by
  intro h
  obtain ⟨hiff, -⟩ := served_iff 1 (.zero _) (.zero _) (.zero _) (by decide) 12345 longerSecond
  have hserved := hiff.mpr h
  obtain ⟨x, hrun, hout⟩ := Option.map_eq_some_iff.mp run_longerSecond
  have hx := hserved.last hrun
  rcases x with e | s
  · exact hx
  · simp only [outcome, Option.some.injEq, Prod.mk.injEq] at hout
    exact hx hout.2.1 hout.2.2.1

/-! ## 4. No new clients -/

/-- The server and the clients that are there, with nothing else happening: `none` is a step of
the server. -/
def working (pid : Nat) (s : System) : Machine (Result System) (Option Client) where
  init := .ok s
  step
    | .ok s, none => s.serverStep pid
    | .ok s, some c => s.clientStep c
    | .error _, _ => none

def eventOf : Option Client → Event
  | none => .server
  | some c => .client c

theorem working_step {s s₀ : System} {a : Option Client} :
    (working pid s₀).step (.ok s) a = s.step pid (eventOf a) := by
  cases a <;> rfl

/-- How many steps a client has before it at most. -/
def ClientPc.rank : ClientPc → Nat
  | .absent => 0
  | .bind _ => 5
  | .sendto _ => 4
  | .read _ => 3
  | .close => 2
  | .unlink => 1

def ServerPc.rank : ServerPc → Nat
  | .sendto _ => 1
  | _ => 0

/-- A request in the queue is worth two steps of the server. -/
def System.work (s : System) : Nat :=
  4 * ∑ c, (s.client c).rank + 2 * s.queue.length + s.server.rank

/-- A client goes on, and sends one request at most. -/
theorem work_lt_of_client (hclient : σ'.client = fun x => if x = c then pc else σ.client x)
    (hqueue : σ'.queue.length ≤ σ.queue.length + 1) (hserver : σ'.server = σ.server)
    (hpc : pc.rank < (σ.client c).rank) : σ'.work < σ.work := by
  have hsum : ∑ x, (σ'.client x).rank < ∑ x, (σ.client x).rank := by
    rw [hclient]
    refine Finset.sum_lt_sum (fun x _ => ?_) ⟨c, Finset.mem_univ c, by simpa using hpc⟩
    by_cases heq : x = c
    · simpa [heq] using Nat.le_of_lt hpc
    · simp [heq]
  simp only [System.work, hserver]
  omega

/-- **Each step brings the end nearer**, and the server goes on. -/
theorem Moves.work_lt {a : Option Client} (hm : Moves pid σ (eventOf a) σ') :
    σ'.work < σ.work ∧ (σ'.server = .exited ↔ σ.server = .exited) := by
  cases a with
  | none =>
    cases hm with
    | receive c q vars r hpc hq hterm hlen hr hfits =>
      refine ⟨?_, iff_of_false (by simp) (by simp [hpc])⟩
      simp only [System.work, hpc, hq, ServerPc.rank, List.length_cons]
      omega
    | answer c d hpc haddr =>
      refine ⟨?_, iff_of_false (by simp) (by simp [hpc])⟩
      simp only [System.work, hpc, ServerPc.rank, System.setInbox]
      omega
    | lose d hpc haddr =>
      refine ⟨?_, iff_of_false (by simp) (by simp [hpc])⟩
      simp only [System.work, hpc, ServerPc.rank]
      omega
  | some c =>
    cases hm with
    | bind _ buf hpc hfree =>
      exact ⟨work_lt_of_client rfl (Nat.le_succ _) rfl (by simp [hpc, ClientPc.rank]), Iff.rfl⟩
    | refuse _ buf hpc htaken =>
      exact ⟨work_lt_of_client rfl (Nat.le_succ _) rfl (by simp [hpc, ClientPc.rank]), Iff.rfl⟩
    | send _ buf buf' hpc hserver =>
      refine ⟨work_lt_of_client rfl ?_ rfl (by simp [hpc, ClientPc.rank]), Iff.rfl⟩
      simp [System.setPc]
    | unsent _ buf hpc hserver =>
      exact ⟨work_lt_of_client rfl (Nat.le_succ _) rfl (by simp [hpc, ClientPc.rank]), Iff.rfl⟩
    | read _ buf q hpc hinbox =>
      exact ⟨work_lt_of_client rfl (Nat.le_succ _) rfl (by simp [hpc, ClientPc.rank]), Iff.rfl⟩
    | close _ hpc =>
      exact ⟨work_lt_of_client rfl (Nat.le_succ _) rfl (by simp [hpc, ClientPc.rank]), Iff.rfl⟩
    | unlink _ hpc =>
      exact ⟨work_lt_of_client rfl (Nat.le_succ _) rfl (by simp [hpc, ClientPc.rank]), Iff.rfl⟩

/-- What a client that waits comes to: it has printed one answer more when it no longer waits. -/
def Reads (s t : System) (c : Client) : Prop :=
  (t.client c).waits = true ∧ (t.out.map Prod.fst).count c = (s.out.map Prod.fst).count c ∨
    ((t.client c = .close ∨ t.client c = .unlink ∨ t.client c = .absent) ∧
      (t.out.map Prod.fst).count c = (s.out.map Prod.fst).count c + 1)

/-- A step that leaves a client and its lines alone. -/
theorem Reads.frame {s : System} (h : Reads s σ c) (hclient : σ'.client c = σ.client c)
    (hout : (σ'.out.map Prod.fst).count c = (σ.out.map Prod.fst).count c) : Reads s σ' c := by
  simpa only [Reads, hclient, hout] using h

theorem Reads.step {s : System} {a : Option Client} (h : Reads s σ c)
    (hm : Moves pid σ (eventOf a) σ') : Reads s σ' c := by
  cases a with
  | none => cases hm <;> exact h.frame rfl rfl
  | some x =>
    by_cases heq : c = x
    · subst heq
      cases hm with
      | bind _ buf hpc hfree => simp [Reads, hpc, ClientPc.waits] at h
      | refuse _ buf hpc htaken => simp [Reads, hpc, ClientPc.waits] at h
      | send _ buf buf' hpc hserver => simp [Reads, hpc, ClientPc.waits] at h
      | unsent _ buf hpc hserver => simp [Reads, hpc, ClientPc.waits] at h
      | read _ buf q hpc hinbox =>
        simp only [Reads, hpc, ClientPc.waits, reduceCtorEq, or_self, false_and, or_false,
          true_and] at h
        refine .inr ⟨.inl (if_pos rfl), ?_⟩
        simp [System.setPc, System.setInbox, h]
      | close _ hpc =>
        simp only [Reads, hpc, ClientPc.waits, Bool.false_eq_true, false_and, false_or, true_or,
          true_and] at h
        exact .inr ⟨.inr (.inl (if_pos rfl)), h⟩
      | unlink _ hpc =>
        simp only [Reads, hpc, ClientPc.waits, Bool.false_eq_true, false_and, false_or, true_or,
          or_true, true_and] at h
        exact .inr ⟨.inr (.inr (if_pos rfl)), h⟩
    · cases hm with
      | read _ buf q hpc hinbox =>
        refine h.frame (if_neg heq) ?_
        simp [System.setPc, System.setInbox, Ne.symm heq]
      | _ => exact h.frame (if_neg heq) rfl

/-- Where nobody can go on and the server is there, nothing is on its way. -/
theorem SystemInv.stuck (h : SystemInv pid σ) (halive : σ.server ≠ .exited)
    (hserver : σ.serverStep pid = none) (hclient : σ.clientStep c = none) :
    σ.client c = .absent ∨ (σ.client c).waits = true ∧ σ.pending c = 0 := by
  have hidle : σ.server = .recvfrom ∧ σ.queue = [] := by
    unfold System.serverStep at hserver
    split at hserver
    · rename_i hpc
      split at hserver
      · exact absurd hserver (by simp)
      · rename_i hq
        exact ⟨hpc, hq⟩
    · exact absurd hserver (by simp)
    · rename_i hpc
      exact absurd hpc halive
  cases hpc : σ.client c with
  | absent => exact .inl rfl
  | read buf =>
    obtain ⟨q, hq⟩ := (h.client c).inbox_of_waits (by rw [hpc]; rfl)
    refine .inr ⟨rfl, ?_⟩
    cases q with
    | nil => simp [System.pending, ServerPc.answers, hidle.1, hidle.2, hq]
    | cons data q => simp [System.clientStep, hpc, hq] at hclient
  | _ => simp [System.clientStep, hpc] at hclient

/-- **The clients that are there are served.**  From any state in which the server has not ended,
if no process starts or is ended, the server and the clients come to rest after finitely many
steps.  Then each client has gone, or waits with nothing on its way to it; and one that waited
before and has gone has printed one answer more. -/
theorem clients_served (pid : Fin (2 ^ 31)) (client_addr : Buffer SOCKADDR_SIZE)
    (buf copy_buf : Buffer BUFFER_SIZE) (hnul : (0 : UInt8) ∈ buf.bytes.drop 6) {s : System}
    (hs : (sessions pid (start client_addr buf copy_buf)).Reachable (.ok s))
    (halive : s.server ≠ .exited) : (working pid s).EndsIn fun x => ∃ t, x = .ok t ∧
      ∀ c, (t.client c = .absent ∧ ((s.client c).waits = true →
          (t.out.map Prod.fst).count c = (s.out.map Prod.fst).count c + 1)) ∨
        (t.client c).waits = true ∧ t.pending c = 0 := by
  obtain ⟨_, heq, hinv⟩ : Sound pid (.ok s) := Machine.reachable_rule
    (sound_init pid client_addr buf copy_buf hnul) (fun _ _ _ hx hst => hx.step pid.isLt hst) hs
  obtain rfl := Except.ok.inj heq
  refine Machine.endsIn_of_measure (I := fun x => ∃ t, x = .ok t ∧ SystemInv pid t ∧
      t.server ≠ .exited ∧ ∀ c, (s.client c).waits = true → Reads s t c)
    (fun x => x.toOption.elim 0 System.work)
    ⟨s, rfl, hinv, halive, fun c hc => .inl ⟨hc, rfl⟩⟩ ?_ ?_
  · rintro - a x' ⟨t, rfl, ht, hgo, hreads⟩ hst
    rw [working_step] at hst
    obtain ⟨t', rfl, hm⟩ := ht.moves pid.isLt hst
    obtain ⟨hlt, hiff⟩ := hm.work_lt
    exact ⟨⟨t', rfl, ht.step hm, fun h => hgo (hiff.mp h), fun c hc => (hreads c hc).step hm⟩, hlt⟩
  · rintro - ⟨t, rfl, ht, hgo, hreads⟩ hstuck
    refine ⟨t, rfl, fun c => ?_⟩
    rcases ht.stuck hgo (hstuck none) (hstuck (some c)) with habsent | hwaits
    · refine .inl ⟨habsent, fun hc => ?_⟩
      rcases hreads c hc with ⟨hw, -⟩ | ⟨-, hcount⟩
      · exact absurd hw (by simp [habsent, ClientPc.waits])
      · exact hcount
    · exact .inr hwaits

/-- Process 7 waits, and is served. -/
theorem clients_served_asks : ∃ s : System, (s.client 7).waits = true ∧
    (working 1 s).EndsIn fun x => ∃ t, x = .ok t ∧ ∀ c, (t.client c = .absent ∧
        ((s.client c).waits = true →
          (t.out.map Prod.fst).count c = (s.out.map Prod.fst).count c + 1)) ∨
      (t.client c).waits = true ∧ t.pending c = 0 := by
  have hrun : ((sessions 1 (start (.zero _) (.zero _) (.zero _))).run
      (sessions 1 (start (.zero _) (.zero _) (.zero _))).init (asks 7)).map (outcome 7) =
        some (some ([], true, 1, false)) := by decide +kernel
  obtain ⟨x, hx, hout⟩ := Machine.reachable_of_run_map _ hrun
  rcases x with e | s
  · exact absurd hout (by simp [outcome])
  · simp only [outcome, Option.some.injEq, Prod.mk.injEq] at hout
    exact ⟨s, hout.2.1, clients_served 1 (.zero _) (.zero _) (.zero _) (by decide) hx
      (by simpa using hout.2.2.2)⟩

end OsLabs.Responder
