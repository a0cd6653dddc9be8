import Why3.Metatheory.ServerAccounting

/-!
Isolation of the clients of the prover server.

Requests are kept with the descriptor of their client and with the identifier
that the client chose. A descriptor is given to a later connection and two
clients may choose one identifier, so messages and interruptions stay with the
connection of a request only as long as no descriptor is reused while a request
has it and no client interrupts an identifier that another client uses.
-/
namespace Why3
namespace Server

open SwapList (append lookup mem_of_lookup remove)
open List

/-! Connections of the clients. -/

/-- The key, the descriptor and the connection of each client. -/
def identities (clients : List (Nat × Client)) : List (Nat × Nat × Nat) :=
  clients.map fun x => (x.1, x.2.fd, x.2.conn)

variable {clients : List (Nat × Client)} {c client : Client} {key : Nat} {s s' : State} {k : Kernel}
  {cfg : Config}

theorem identities_modifyClient {fd : Nat} {f : Client → Client}
    (hf : ∀ x ∈ clients, x.1 = fd → (f x.2).fd = x.2.fd ∧ (f x.2).conn = x.2.conn) :
    identities (modifyClient fd f clients) = identities clients := by
  unfold identities modifyClient
  rw [map_map]
  apply map_congr_left
  intro x hx
  simp only [Function.comp_apply]
  split
  next heq =>
    obtain ⟨hfd, hconn⟩ := hf x hx heq
    simp only [hfd, hconn]
  next => rfl

theorem mem_identities_of_lookup
    (h : lookup clients key = some c) : (key, c.fd, c.conn) ∈ identities clients :=
  mem_map.mpr ⟨_, mem_of_lookup h, rfl⟩

/-- The client with the key, if there is one, is that of the connection. -/
def Owned (clients : List (Nat × Client)) (key conn : Nat) : Prop :=
  ∀ x ∈ identities clients, x.1 = key → x.2.2 = conn

theorem Owned.conn_eq {conn : Nat} (h : Owned clients key conn)
    (hc : lookup clients key = some c) : c.conn = conn :=
  h _ (mem_identities_of_lookup hc) rfl

/-! Isolation. -/

/-- What the server did with requests concerned the connection they came from. -/
structure Isolated (history : History) : Prop where
  emitted : ∀ m ∈ history.emitted, m.job ∈ history.received ∧ m.dest = m.job.conn ∧ m.TextOk
  interrupted : ∀ x ∈ history.interrupted, x.2.conn = x.1
  killed : ∀ x ∈ history.killed, x.2.conn = x.1

/-- The invariant that keeps the clients apart. -/
structure Separated (s : State) : Prop where
  isolated : Isolated s.history
  keys : ((identities s.clients).map (·.1)).Nodup
  fds : ∀ x ∈ identities s.clients, x.2.1 = x.1
  queued : ∀ j ∈ s.queue.toList,
    j ∈ s.history.received ∧ Owned s.clients j.req.key j.conn
  procs : ∀ p ∈ s.processes, p.2.job ∈ s.history.received ∧
    p.2.taskId = p.2.job.req.id ∧ Owned s.clients p.2.clientKey p.2.job.conn

variable (h : Separated s)

include h in
theorem Separated.fd_eq (hc : lookup s.clients key = some c) : c.fd = key :=
  h.fds _ (mem_identities_of_lookup hc)

theorem Separated.init (cfg : Config) (parallel : Int) : Separated (.init cfg parallel) :=
  ⟨⟨nofun, nofun, nofun⟩, nodup_nil, nofun, nofun, nofun⟩

include h in
/-- Only the identities of the clients matter. -/
theorem Separated.withClients (hsame : identities clients = identities s.clients)
    (pollList : List PollFd) : Separated { s with clients := clients, pollList := pollList } := by
  have howned : Owned clients = Owned s.clients := by
    unfold Owned
    rw [hsame]
  exact ⟨h.isolated, hsame ▸ h.keys, hsame ▸ h.fds, howned ▸ h.queued, howned ▸ h.procs⟩

theorem identities_queueWrite (c : Client) (job : Job) (final : Bool) (text : Text) (s : State) :
    identities (queueWrite c job final text s).clients = identities s.clients := by
  simp only [queueWrite]
  exact identities_modifyClient fun _ _ _ => ⟨rfl, rfl⟩

include h in
theorem Separated.queueWrite {job : Job} {final : Bool} {text : Text}
    (hjob : job ∈ s.history.received) (hconn : c.conn = job.conn)
    (htext : Message.TextOk ⟨c.conn, job, final, text⟩) :
    Separated (queueWrite c job final text s) := by
  have hsame := h.withClients (identities_queueWrite c job final text s)
    (Server.queueWrite c job final text s).pollList
  refine { hsame with isolated := { h.isolated with emitted := ?_ } }
  refine forall_mem_append.mpr ⟨h.isolated.emitted, ?_⟩
  exact forall_mem_singleton.mpr ⟨hjob, hconn, htext⟩

/-! Steps. -/

theorem runRequest_eq (k : Kernel) (job : Job) (s : State) :
    runRequest k job s = match lookup s.clients job.req.key with
      | none => .ok { s with history := { s.history with dropped := job :: s.history.dropped } }
      | some client =>
        .ok (queueWrite client job false (startedText job.req.id) (forkedState k job s)) := by
  unfold runRequest
  cases lookup s.clients job.req.key with
  | none => rfl
  | some client =>
    simp only [sendStartedMsgToClient, length_startedText]
    rw [if_neg (by omega)]
    rfl

include h in
/-- A request is run for the client that has its key now. -/
theorem Separated.runRequest {job : Job} (hjob : job ∈ s.history.received)
    (howned : Owned s.clients job.req.key job.conn) (hrun : runRequest k job s = .ok s') :
    Separated s' ∧ identities s'.clients = identities s.clients ∧ s'.queue = s.queue ∧
      ∀ p ∈ s'.processes, p ∈ s.processes ∨ p.2.job = job := by
  rw [runRequest_eq] at hrun
  cases hlookup : lookup s.clients job.req.key with
  | none =>
    rw [hlookup] at hrun
    cases hrun
    exact ⟨{ h with isolated := { h.isolated with } }, rfl, rfl, fun p hp => .inl hp⟩
  | some client =>
    rw [hlookup] at hrun
    cases hrun
    have hforked : Separated (forkedState k job s) := by
      refine { h with isolated := { h.isolated with }, procs := ?_ }
      exact forall_mem_append.mpr ⟨h.procs, forall_mem_singleton.mpr ⟨hjob, rfl, howned⟩⟩
    refine ⟨hforked.queueWrite hjob (howned.conn_eq hlookup) rfl, identities_queueWrite _ _ _ _ _,
      rfl, ?_⟩
    exact forall_mem_append.mpr ⟨fun _ => .inl, forall_mem_singleton.mpr (.inr rfl)⟩

include h in
theorem Separated.handleChildEvent {report : ChildReport}
    (hstep : handleChildEvent s report = .ok s') : Separated s' := by
  unfold Server.handleChildEvent at hstep
  simp only at hstep
  split at hstep
  next => cases hstep
  next child hchild =>
    obtain ⟨hjob, htask, howned⟩ := h.procs _ (mem_of_lookup hchild)
    have hremoved : Separated { s with processes := remove s.processes report.pid } :=
      { h with procs := fun p hp => h.procs p (SwapList.mem_of_mem_remove hp) }
    split at hstep
    next =>
      cases hstep
      exact hremoved
    next client hclient =>
      simp only [sendMsgToClient] at hstep
      split at hstep
      next => cases hstep
      next =>
        cases hstep
        refine hremoved.queueWrite hjob (howned.conn_eq hclient) ?_
        exact ⟨_, _, _, _, congrArg (fun id => finishedText id _ _ _ _) htask⟩

include h in
theorem Separated.scheduleLoop {fuel : Nat} (hstep : scheduleLoop k fuel s = .ok s')
    : Separated s' := by
  induction fuel generalizing s with
  | zero =>
    cases hstep
    exact h
  | succ fuel ih =>
    unfold Server.scheduleLoop at hstep
    split at hstep
    next =>
      split at hstep
      next job queue hpop =>
        obtain ⟨s1, hrun, hloop⟩ := Except.bind_eq_ok.mp hstep
        have hlist := RingQueue.toList_of_pop hpop
        obtain ⟨hjob, howned⟩ := h.queued job (hlist ▸ mem_cons_self)
        have hpopped : Separated { s with queue := queue } :=
          { h with queued := fun j hj => h.queued j (hlist ▸ mem_cons_of_mem _ hj) }
        exact ih (hpopped.runRequest hjob howned hrun).1 hloop
      next =>
        cases hstep
        exact h
    next =>
      cases hstep
      exact h

/-- The identifier that a line interrupts. -/
def interruptOf (fd : Nat) (line : Text) : Option Text :=
  ((parseRequest line fd 1).1.filter fun r => r.reqType = .reqInterrupt).map (·.id)

/-- Requests with the identifiers came from the connection. -/
def IdsOwned (ids : Text → Prop) (conn : Nat) (s : State) : Prop :=
  (∀ j ∈ s.queue.toList, ids j.req.id → j.conn = conn) ∧
    ∀ p ∈ s.processes, ids p.2.taskId → p.2.job.conn = conn

include h in
theorem Separated.receive (job : Job) :
    Separated { s with history := { s.history with
      nextSerial := s.history.nextSerial + 1
      received := s.history.received ++ [job] } } :=
  { h with
    isolated := { h.isolated with
      emitted := fun m hm => (h.isolated.emitted m hm).imp_left (mem_append_left _) }
    queued := fun j hj => (h.queued j hj).imp_left (mem_append_left _)
    procs := fun p hp => (h.procs p hp).imp_left (mem_append_left _) }

section

variable {ids : Text → Prop} (h : Separated s)
  (hclient : (client.fd, client.fd, client.conn) ∈ identities s.clients)
  (hids : IdsOwned ids client.conn s)
include h hclient hids

/-- A line of a client keeps the clients apart when it interrupts an identifier
of that client only. -/
theorem Separated.handleRequest {line : Text}
    (hline : ∀ id, interruptOf client.fd line = some id → ids id)
    (hstep : handleRequest k client line s = .ok s') :
    Separated s' ∧ identities s'.clients = identities s.clients ∧ IdsOwned ids client.conn s' := by
  have howned : Owned s.clients client.fd client.conn := by
    intro x hx hkey
    rw [inj_on_of_nodup_map h.keys hx hclient hkey]
  unfold Server.handleRequest at hstep
  have hkey := (parseRequest_spec line client.fd s.parallel).2.2
  rw [interruptOf, ← (parseRequest_spec line client.fd s.parallel).1] at hline
  generalize parseRequest line client.fd s.parallel = parsed at hkey hline hstep
  obtain ⟨r, parallel⟩ := parsed
  have hlimit : Separated { s with parallel := parallel } := { h with }
  cases r with
  | none =>
    cases hstep
    exact ⟨hlimit, rfl, hids⟩
  | some r =>
    cases htype : r.reqType with
    | reqRun =>
      simp only [htype] at hstep
      have hreceived := hlimit.receive ⟨r, client.conn, s.history.nextSerial⟩
      have hjob : (⟨r, client.conn, s.history.nextSerial⟩ : Job) ∈
          s.history.received ++ [⟨r, client.conn, s.history.nextSerial⟩] := by simp
      have hown : Owned s.clients r.key client.conn := hkey r rfl ▸ howned
      split at hstep
      next =>
        obtain ⟨hsep, hsame, hqueue, hprocs⟩ := hreceived.runRequest hjob hown hstep
        refine ⟨hsep, hsame, ?_, ?_⟩
        · rw [hqueue]
          exact hids.1
        · intro p hp hpid
          cases hprocs p hp with
          | inl hp => exact hids.2 p hp hpid
          | inr heq => rw [heq]
      next =>
        cases hstep
        refine ⟨{ hreceived with queued := ?_ }, rfl, ?_, hids.2⟩
        · rw [RingQueue.toList_push]
          exact forall_mem_append.mpr ⟨hreceived.queued, forall_mem_singleton.mpr ⟨hjob, hown⟩⟩
        · rw [RingQueue.toList_push]
          exact forall_mem_append.mpr ⟨hids.1, forall_mem_singleton.mpr fun _ => rfl⟩
    | reqInterrupt =>
      simp only [htype] at hstep
      cases hstep
      have hid : ids r.id := hline r.id (by simp [htype])
      refine ⟨⟨⟨h.isolated.emitted, ?_, ?_⟩, h.keys, h.fds, ?_, h.procs⟩, rfl, ?_, hids.2⟩
      · refine forall_mem_append.mpr ⟨h.isolated.interrupted, forall_mem_map.mpr fun j hj => ?_⟩
        obtain ⟨hj, heq⟩ := mem_filter.mp hj
        exact hids.1 j hj (of_decide_eq_true heq ▸ hid)
      · refine forall_mem_append.mpr ⟨h.isolated.killed, forall_mem_map.mpr fun p hp => ?_⟩
        obtain ⟨hp, heq⟩ := mem_filter.mp hp
        exact hids.2 p hp (of_decide_eq_true heq ▸ hid)
      · intro j hj
        rw [toList_removeFromQueue] at hj
        exact h.queued j (mem_of_mem_filter hj)
      · intro j hj
        rw [toList_removeFromQueue] at hj
        exact hids.1 j (mem_of_mem_filter hj)

theorem Separated.handleLines {lines : List Text}
    (hlines : ∀ line ∈ lines, ∀ id, interruptOf client.fd line = some id → ids id)
    (hstep : lines.foldlM (fun s line => Server.handleRequest k client line s) s = .ok s') :
    Separated s' ∧ identities s'.clients = identities s.clients := by
  have hfold := Except.foldlM_invariant
    (fun s' => Separated s' ∧ identities s'.clients = identities s.clients ∧
      IdsOwned ids client.conn s') hstep ⟨h, rfl, hids⟩ ?_
  · exact ⟨hfold.1, hfold.2.1⟩
  · intro s1 line s2 hmem ⟨h1, hsame, hids1⟩ hs2
    obtain ⟨h2, hsame2, hids2⟩ :=
      h1.handleRequest (hsame.symm ▸ hclient) hids1 (hlines line hmem) hs2
    exact ⟨h2, hsame2.trans hsame, hids2⟩

end

/-- The identifiers interrupted by the lines that a read completes. -/
def interruptedBy (client : Client) (bytes : Text) (id : Text) : Prop :=
  ∃ line ∈ (completeLines [] (client.readbuf ++ bytes)).1, interruptOf client.fd line = some id

include h in
theorem Separated.closeClient (hstep : closeClient cfg client s = .ok s') : Separated s' := by
  have hsub : ∀ x ∈ identities (remove s.clients client.fd), x ∈ identities s.clients := by
    refine forall_mem_map.mpr fun y hy => ?_
    exact mem_map.mpr ⟨y, SwapList.mem_of_mem_remove hy, rfl⟩
  have howned {key conn : Nat} (hown : Owned s.clients key conn) :
      Owned (remove s.clients client.fd) key conn := fun x hx => hown x (hsub x hx)
  unfold Server.closeClient at hstep
  simp only at hstep
  split at hstep
  next => cases hstep
  next =>
    cases hstep
    refine ⟨h.isolated, ?_, fun x hx => h.fds x (hsub x hx),
      fun j hj => ⟨(h.queued j hj).1, howned (h.queued j hj).2⟩,
      fun p hp => ⟨(h.procs p hp).1, (h.procs p hp).2.1, howned (h.procs p hp).2.2⟩⟩
    have hkeys := h.keys
    simp only [identities, map_map] at hkeys ⊢
    exact SwapList.nodup_remove client.fd hkeys

include h in
theorem Separated.readOnClient {res : ReadResult} (hclient : lookup s.clients key = some client)
    (hids : ∀ bytes, res = .data bytes → IdsOwned (interruptedBy client bytes) client.conn s)
    (hstep : readOnClient cfg k client res s = .ok s') : Separated s' := by
  cases res with
  | error =>
    cases hstep
    exact h
  | eof => exact h.closeClient hstep
  | data bytes =>
    have hfd := h.fd_eq hclient
    have hmem : (client.fd, client.fd, client.conn) ∈ identities s.clients :=
      hfd ▸ mem_identities_of_lookup hclient
    obtain ⟨s1, hfold, hlast⟩ := Except.bind_eq_ok.mp hstep
    cases hlast
    have hsame : identities (modifyClient client.fd
        (fun _ => { client with readbuf := client.readbuf ++ bytes }) s.clients) =
          identities s.clients := by
      apply identities_modifyClient
      intro x hx hkey
      have heq : (x.1, x.2.fd, x.2.conn) = (client.fd, client.fd, client.conn) :=
        inj_on_of_nodup_map h.keys (mem_map.mpr ⟨x, hx, rfl⟩) hmem hkey
      simp only [Prod.mk.injEq] at heq
      exact ⟨heq.2.1.symm, heq.2.2.symm⟩
    have hread := h.withClients hsame s.pollList
    have hread' : Separated { s with
        clients := modifyClient client.fd
          (fun _ => { client with readbuf := client.readbuf ++ bytes }) s.clients
        history := { s.history with input := s.history.input ++ [(client.conn, bytes)] } } :=
      { hread with isolated := { h.isolated with } }
    obtain ⟨hsep, -⟩ := hread'.handleLines (hsame.symm ▸ hmem) (hids bytes rfl)
      (fun line hline id hid => ⟨line, hline, hid⟩) hfold
    exact hsep.withClients (identities_modifyClient fun _ _ _ => ⟨rfl, rfl⟩) _

include h in
theorem Separated.writeToClient {res : Option Nat} (hstep : writeToClient client res s = .ok s')
    : Separated s' := by
  have hsame (b : Writebuf) : identities (modifyClient client.fd
      (fun c => { c with writebuf := b }) s.clients) = identities s.clients :=
    identities_modifyClient fun _ _ _ => ⟨rfl, rfl⟩
  unfold Server.writeToClient at hstep
  split at hstep
  next => cases hstep
  next =>
    simp only at hstep
    split at hstep
    next => cases hstep
    next b _ _ =>
      cases hstep
      have hwritten := h.withClients (hsame b) s.pollList
      exact { hwritten with isolated := { h.isolated with } }

/-- No request that is queued or running has the descriptor. -/
def Unclaimed (fd : Nat) (s : State) : Prop :=
  (∀ j ∈ s.queue.toList, j.req.key ≠ fd) ∧ ∀ p ∈ s.processes, p.2.clientKey ≠ fd

include h in
theorem Separated.serverAcceptClient {fd : Nat} (hfree : fd ∉ s.clients.map (·.1))
    (hunclaimed : Unclaimed fd s) (hstep : serverAcceptClient fd s = .ok s') : Separated s' := by
  unfold Server.serverAcceptClient at hstep
  split at hstep
  next hpos =>
    cases hstep
    have hids : identities (append s.clients fd
        ⟨fd, [], .init s.parallel.toNat hpos, s.history.nextConn⟩) =
          identities s.clients ++ [(fd, fd, s.history.nextConn)] := by
      simp [identities, append]
    have howned {key conn : Nat} (hown : Owned s.clients key conn) (hne : key ≠ fd) :
        Owned (append s.clients fd
          ⟨fd, [], .init s.parallel.toNat hpos, s.history.nextConn⟩) key conn := by
      rw [Owned, hids]
      exact forall_mem_append.mpr ⟨hown, forall_mem_singleton.mpr fun h => absurd h.symm hne⟩
    refine ⟨{ h.isolated with }, ?_, ?_, ?_, ?_⟩
    · simp only [hids, map_append]
      refine Nodup.append h.keys (by simp) ?_
      simpa [identities] using hfree
    · simp only [hids]
      exact forall_mem_append.mpr ⟨h.fds, forall_mem_singleton.mpr rfl⟩
    · intro j hj
      exact ⟨(h.queued j hj).1, howned (h.queued j hj).2 (hunclaimed.1 j hj)⟩
    · intro p hp
      obtain ⟨hjob, htask, hown⟩ := h.procs p hp
      exact ⟨hjob, htask, howned hown (hunclaimed.2 p hp)⟩
  next => cases hstep

/-! Runs. -/

/-- A descriptor is not reused while a request has it, and a client interrupts
only identifiers that no queued or running request of another client has. -/
def Apart (s : State) : Event → Prop
  | .acceptClient fd => Unclaimed fd s
  | .pollIn fd (.data bytes) => ∀ client, lookup s.clients fd = some client →
      IdsOwned (interruptedBy client bytes) client.conn s
  | _ => True

include h in
theorem Separated.step {e : Event} (henabled : Enabled cfg s e) (hapart : Apart s e)
    (hstep : step cfg k s e = .ok s') : Separated s' := by
  cases e with
  | turn =>
    obtain ⟨s1, hloop, hlast⟩ := Except.bind_eq_ok.mp hstep
    cases hlast
    exact (h.scheduleLoop hloop).withClients rfl _
  | childEvents reports =>
    exact Except.foldlM_invariant Separated hstep h fun _ _ _ _ hs => hs.handleChildEvent
  | acceptClient fd => exact h.serverAcceptClient henabled.1 hapart hstep
  | pollErr fd =>
    simp only [Server.step, onClient] at hstep
    split at hstep
    next =>
      cases hstep
      exact h
    next => exact h.closeClient hstep
  | pollOut fd res =>
    simp only [Server.step, onClient] at hstep
    split at hstep
    next =>
      cases hstep
      exact h
    next => exact h.writeToClient hstep
  | pollIn fd res =>
    simp only [Server.step, onClient] at hstep
    split at hstep
    next =>
      cases hstep
      exact h
    next client hclient =>
      refine h.readOnClient hclient ?_ hstep
      rintro bytes rfl
      exact hapart client hclient

/-- The states of the runs of a server in which every event meets a condition. -/
inductive Reachable (cfg : Config) (k : Kernel) (condition : State → Event → Prop) : State → Prop
  | init {parallel : Int} (hparallel : 1 ≤ parallel) :
      Reachable cfg k condition (.init cfg parallel)
  | step {s s' : State} {e : Event} (hs : Reachable cfg k condition s) (henabled : Enabled cfg s e)
      (hcondition : condition s e) (h : step cfg k s e = .ok s') : Reachable cfg k condition s'

theorem isolated_of_reachable {cfg : Config} {k : Kernel} {s : State}
    (h : Reachable cfg k Apart s) : Isolated s.history := by
  have hsep : Separated s := by
    induction h with
    | init hparallel => exact .init cfg _
    | step hs henabled hcondition h ih => exact ih.step henabled hcondition h
  exact hsep.isolated

/-- The state after an event; the same state when the server fails. -/
def after (cfg : Config) (k : Kernel) (s : State) (e : Event) : State :=
  match step cfg k s e with
  | .ok s' => s'
  | .error _ => s

theorem Reachable.after {condition : State → Event → Prop} (hs : Reachable cfg k condition s)
    {e : Event} (henabled : Enabled cfg s e) (hcondition : condition s e)
    (hok : (Server.step cfg k s e).toBool = true) :
    Reachable cfg k condition (after cfg k s e) := by
  cases hstep : Server.step cfg k s e with
  | error _ =>
    rw [hstep] at hok
    cases hok
  | ok s' =>
    have heq : Server.after cfg k s e = s' := by rw [Server.after, hstep]
    exact heq ▸ hs.step henabled hcondition hstep

/-- The first client leaves while its request runs and the second client gets its
descriptor; or both are connected and choose one identifier. -/
theorem isolation_fails : (∃ s, Reachable ⟨false, 3, 4, by decide⟩ .counting (fun _ _ => True) s ∧
      ∃ m ∈ s.history.emitted, m.dest ≠ m.job.conn) ∧
    (∃ s, Reachable ⟨false, 3, 4, by decide⟩ .counting (fun _ _ => True) s ∧
      ∃ x ∈ s.history.killed, x.2.conn ≠ x.1) := by
  let cfg : Config := ⟨false, 3, 4, by decide⟩
  let s0 := State.init cfg 1
  let s1 := after cfg .counting s0 (.acceptClient 5)
  let s2 := after cfg .counting s1 (.pollIn 5 (.data "run;a;1;1;c;x\n".toList))
  have h0 : Reachable cfg .counting (fun _ _ => True) s0 := .init (by decide)
  have h1 : Reachable cfg .counting (fun _ _ => True) s1 :=
    h0.after (by simp [Enabled, s0, State.init, cfg]) trivial (by decide +kernel)
  have h2 : Reachable cfg .counting (fun _ _ => True) s2 := by
    refine h1.after ⟨.inl (by decide +kernel), ?_⟩ trivial (by decide +kernel)
    rintro _ ⟨⟩
    decide +kernel
  constructor
  · let s3 := after cfg .counting s2 (.pollIn 5 .eof)
    let s4 := after cfg .counting s3 (.acceptClient 5)
    let report : ChildReport := ⟨1, .exited 0, ⟨0, by decide⟩⟩
    have h3 : Reachable cfg .counting (fun _ _ => True) s3 :=
      h2.after ⟨.inr (by decide +kernel), by simp⟩ trivial (by decide +kernel)
    have h4 : Reachable cfg .counting (fun _ _ => True) s4 :=
      h3.after ⟨by decide +kernel, by decide, by decide⟩ trivial (by decide +kernel)
    refine ⟨after cfg .counting s4 (.childEvents [report]), ?_, by decide +kernel⟩
    exact h4.after ⟨by decide, by decide +kernel⟩ trivial (by decide +kernel)
  · let s3 := after cfg .counting s2 (.acceptClient 6)
    have h3 : Reachable cfg .counting (fun _ _ => True) s3 :=
      h2.after ⟨by decide +kernel, by decide, by decide⟩ trivial (by decide +kernel)
    refine ⟨after cfg .counting s3 (.pollIn 6 (.data "interrupt;a\n".toList)), ?_,
      by decide +kernel⟩
    refine h3.after ⟨.inl (by decide +kernel), ?_⟩ trivial (by decide +kernel)
    rintro _ ⟨⟩
    decide +kernel

theorem isolated_of_reachable_two_clients :
    ∃ s, Reachable ⟨false, 3, 4, by decide⟩ .counting Apart s ∧
      s.clients.map (·.1) = [5, 6] ∧ s.history.emitted.map (·.dest) = [0] ∧
      Isolated s.history := by
  let cfg : Config := ⟨false, 3, 4, by decide⟩
  let s0 := State.init cfg 2
  let s1 := after cfg .counting s0 (.acceptClient 5)
  let s2 := after cfg .counting s1 (.acceptClient 6)
  let s3 := after cfg .counting s2 (.pollIn 5 (.data "run;a;1;1;c;x\n".toList))
  have h0 : Reachable cfg .counting Apart s0 := .init (by decide)
  have h1 : Reachable cfg .counting Apart s1 :=
    h0.after (by simp [Enabled, s0, State.init, cfg]) ⟨by decide +kernel, by decide +kernel⟩
      (by decide +kernel)
  have h2 : Reachable cfg .counting Apart s2 :=
    h1.after ⟨by decide +kernel, by decide, by decide⟩ ⟨by decide +kernel, by decide +kernel⟩
      (by decide +kernel)
  have hqueue : s2.queue.toList = [] := by decide +kernel
  have hprocesses : s2.processes = [] := List.isEmpty_iff.mp (by decide +kernel)
  have h3 : Reachable cfg .counting Apart s3 := by
    refine h2.after ⟨.inl (by decide +kernel), ?_⟩ ?_ (by decide +kernel)
    · rintro _ ⟨⟩
      decide +kernel
    · intro client _
      rw [IdsOwned, hqueue]
      exact ⟨by simp, by simp [hprocesses]⟩
  exact ⟨s3, h3, by decide +kernel, by decide +kernel, isolated_of_reachable h3⟩

end Server
end Why3
