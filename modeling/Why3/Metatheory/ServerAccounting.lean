import Why3.Library.Except
import Why3.Metatheory.ServerBuffers

/-!
Accounting of the prover server for one client.

Every request is at one place: in the queue, with a process, answered by a final
message, or removed from the queue by an interruption; a request that the code
is about to run or to queue is held by it. The bytes written and those in the
write buffer are together the messages emitted so far.
-/
namespace Why3

open List
open SwapList (append lookup lookup_of_mem remove)

namespace Server

/-! Messages and places. -/

def answered (s : State) : List Job := (s.history.emitted.filter (·.final)).map (·.job)

def started (s : State) : List Job := (s.history.emitted.filter fun m => !m.final).map (·.job)

def running (s : State) : List Job := s.processes.map (·.2.job)

def interruptedJobs (s : State) : List Job := s.history.interrupted.map (·.2)

def bytesWritten (s : State) : Text := s.history.written.flatMap (·.2)

def bytesRead (s : State) : Text := s.history.input.flatMap (·.2)

/-- A final message comes after the message that its request was started. -/
def Ordered (ms : List Message) : Prop :=
  ∀ pre m post, ms = pre ++ m :: post → m.final = true →
    ∃ m' ∈ pre, m'.final = false ∧ m'.job = m.job

theorem Ordered.snoc {ms : List Message} (h : Ordered ms) {m : Message}
    (hm : m.final = true → ∃ m' ∈ ms, m'.final = false ∧ m'.job = m.job) :
    Ordered (ms ++ [m]) := by
  intro pre x post heq hx
  rcases eq_nil_or_concat post with rfl | ⟨post', y, rfl⟩
  · obtain ⟨rfl, hxm⟩ := append_inj' heq rfl
    cases hxm
    exact hm hx
  · have heq' : ms ++ [m] = (pre ++ x :: post') ++ [y] := by simp [heq]
    obtain ⟨hms, -⟩ := append_inj' heq' rfl
    exact h pre x post' hms hx

/-- The text of a message is that of its kind for the identifier of its request. -/
def Message.TextOk (m : Message) : Prop :=
  if m.final then
    ∃ exitcode cpuTime timeout outfile,
      m.text = finishedText m.job.req.id exitcode cpuTime timeout outfile
  else m.text = startedText m.job.req.id

/-- The run request of a line. -/
def runRequestOf (fd : Nat) (line : Text) : Option Request :=
  (parseRequest line fd 1).1.filter fun r => r.reqType = .reqRun

/-- The requests, with `lines` the lines handled so far and `held` the requests
in the hands of the code. -/
structure JobsOk (fd : Nat) (lines : List Text) (held : List Job) (s : State) : Prop where
  limit : 1 ≤ s.parallel
  pids : (s.processes.map (·.1)).Nodup
  keys : ∀ j ∈ s.queue.toList ++ held, j.req.key = fd
  procs : ∀ p ∈ s.processes, p.2.clientKey = fd ∧ p.2.taskId = p.2.job.req.id
  located : ∀ j, s.history.received.count j = held.count j + s.queue.toList.count j +
    (running s).count j + (answered s).count j + (interruptedJobs s).count j
  serials : (s.history.received.map (·.serial)).Nodup
  fresh : ∀ j ∈ s.history.received, j.serial < s.history.nextSerial
  startedOnce : ∀ j, (started s).count j = (running s).count j + (answered s).count j
  forked : ∀ f ∈ s.history.forked, (f.1 : Int) < f.2
  requests : s.history.received.map (·.req) = lines.filterMap (runRequestOf fd)

/-- The client, its write buffer and its entry in the poll list. -/
structure OutputOk (fd : Nat) (c : Client) (s : State) : Prop where
  clients : s.clients = [(fd, c)]
  fdEq : c.fd = fd
  writebuf : c.writebuf.Ok
  ordered : Ordered s.history.emitted
  texts : ∀ m ∈ s.history.emitted, m.TextOk
  bytes : bytesWritten s ++ c.writebuf.pending = (s.history.emitted.map (·.text)).flatten
  entries : (s.pollList.filterMap (·.fd)).Nodup
  pollout : ⟨some fd, true⟩ ∈ s.pollList → c.writebuf.hasWriteData = true

/-! The poll list. -/

variable {fd : Nat} {c : Client} {s s' : State} {job : Job} {held : List Job} {lines : List Text}
  {parallel : Int}

theorem filterMap_pollListModify (fd : Nat) (f : PollFd → PollFd) (hf : ∀ e, (f e).fd = e.fd)
    (l : List PollFd) : (pollListModify fd f l).filterMap (·.fd) = l.filterMap (·.fd) := by
  induction l with
  | nil => rfl
  | cons e l ih =>
    unfold pollListModify
    split
    · rw [filterMap_cons, filterMap_cons, hf]
    · rw [filterMap_cons, filterMap_cons, ih]

/-- With one entry for the descriptor, clearing the flag leaves none. -/
theorem not_mem_pollListModify_clear {l : List PollFd} (hl : (l.filterMap (·.fd)).Nodup) :
    ⟨some fd, true⟩ ∉ pollListModify fd (fun e => { e with pollout := false }) l := by
  induction l with
  | nil => exact nofun
  | cons e l ih =>
    unfold pollListModify
    split
    next he =>
      rw [filterMap_cons_some he, nodup_cons] at hl
      intro hmem
      cases mem_cons.mp hmem with
      | inl heq => simp at heq
      | inr hmem => exact hl.1 (mem_filterMap.mpr ⟨_, hmem, rfl⟩)
    next he =>
      have hl' : (l.filterMap (·.fd)).Nodup :=
        hl.sublist ((sublist_cons_self e l).filterMap _)
      intro hmem
      cases mem_cons.mp hmem with
      | inl heq => exact he (by rw [← heq])
      | inr hmem => exact ih hl' hmem

/-- Removed entries go; the others keep their descriptors and flags. -/
theorem pollListCleanFrom_spec (fuel i : Nat) (l : List PollFd) :
    ((pollListCleanFrom fuel i l).filterMap (·.fd)).Perm (l.filterMap (·.fd)) ∧
      ∀ e ∈ pollListCleanFrom fuel i l, e ∈ l := by
  induction fuel generalizing i l with
  | zero => exact ⟨.refl _, fun _ h => h⟩
  | succ fuel ih =>
    unfold pollListCleanFrom
    cases hi : l[i]? with
    | none => exact ⟨.refl _, fun _ h => h⟩
    | some e =>
      cases hlast : l.getLast? with
      | none => exact ⟨.refl _, fun _ h => h⟩
      | some last =>
        simp only
        split
        next he =>
          have hperm := SwapList.perm_set_dropLast hi hlast
          obtain ⟨hp, hmem⟩ := ih i (l.set i last).dropLast
          refine ⟨hp.trans ?_, fun x hx => hperm.mem_iff.mpr
            (mem_cons_of_mem _ (hmem x hx))⟩
          have hfilter := hperm.filterMap (·.fd)
          rw [filterMap_cons_none he] at hfilter
          exact hfilter.symm
        next => exact ih (i + 1) l

/-! Emission. -/

/-- The client after a message is put in its buffer. -/
def Client.pushed (c : Client) (text : Text) : Client :=
  { c with writebuf := c.writebuf.pushWriteData text }

section

variable (h : OutputOk fd c s)
include h

theorem OutputOk.modifyClient_eq (f : Client → Client)
    : modifyClient c.fd f s.clients = [(fd, f c)] := by
  simp only [modifyClient, h.clients, h.fdEq, map_cons, map_nil, if_true]

theorem OutputOk.lookup_eq :
    lookup s.clients fd = some c := by
  rw [h.clients]
  exact lookup_of_mem (by simp) mem_cons_self

/-- The client's part of the accounting reads these fields only. -/
theorem OutputOk.withClient {c' : Client} (hclients : s'.clients = [(fd, c')]) (hfd : c'.fd = c.fd)
    (hbuf : c'.writebuf = c.writebuf) (hpoll : s'.pollList = s.pollList)
    (hemitted : s'.history.emitted = s.history.emitted)
    (hwritten : s'.history.written = s.history.written) : OutputOk fd c' s' where
  clients := hclients
  fdEq := hfd.trans h.fdEq
  writebuf := hbuf ▸ h.writebuf
  ordered := hemitted ▸ h.ordered
  texts := hemitted ▸ h.texts
  bytes := by
    rw [hemitted, ← h.bytes, bytesWritten, hwritten, bytesWritten, hbuf]
  entries := hpoll ▸ h.entries
  pollout := by
    rw [hpoll, hbuf]
    exact h.pollout

theorem OutputOk.frame (hclients : s'.clients = s.clients) (hpoll : s'.pollList = s.pollList)
    (hemitted : s'.history.emitted = s.history.emitted)
    (hwritten : s'.history.written = s.history.written) : OutputOk fd c s' :=
  h.withClient (hclients.trans h.clients) rfl rfl hpoll hemitted hwritten

theorem OutputOk.queueWrite {final : Bool} {text : Text} (htext : text ≠ [])
    (hok : Message.TextOk ⟨c.conn, job, final, text⟩)
    (hordered : final = true → ∃ m ∈ s.history.emitted, m.final = false ∧ m.job = job) :
    OutputOk fd (c.pushed text) (queueWrite c job final text s) where
  clients := h.modifyClient_eq fun c => { c with writebuf := c.writebuf.pushWriteData text }
  fdEq := h.fdEq
  writebuf := h.writebuf.pushWriteData htext
  ordered := h.ordered.snoc hordered
  texts := forall_mem_append.mpr ⟨h.texts, forall_mem_singleton.mpr hok⟩
  bytes := by
    change bytesWritten s ++ (c.writebuf.pushWriteData text).pending =
      ((s.history.emitted ++ [_]).map _).flatten
    rw [Writebuf.pending_pushWriteData h.writebuf, ← append_assoc, h.bytes]
    simp
  entries := by
    have hsame := filterMap_pollListModify c.fd (fun e => { e with pollout := true })
      (fun _ => rfl) s.pollList
    exact hsame ▸ h.entries
  pollout := fun _ => Writebuf.hasWriteData_pushWriteData _ _

end

theorem started_queueWrite (c : Client) (job : Job) (text : Text) (s : State) :
    started (queueWrite c job false text s) = started s ++ [job] ∧
      answered (queueWrite c job false text s) = answered s := by
  simp [started, answered, queueWrite]

theorem answered_queueWrite (c : Client) (job : Job) (text : Text) (s : State) :
    started (queueWrite c job true text s) = started s ∧
      answered (queueWrite c job true text s) = answered s ++ [job] := by
  simp [started, answered, queueWrite]

/-- What the accounting is about: requests handled and the client. -/
def Acc (fd : Nat) (lines : List Text) (held : List Job) (c : Client) (s : State) : Prop :=
  JobsOk fd lines held s ∧ OutputOk fd c s

/-- The action succeeds with the accounting for `lines`, and no bytes are read. -/
def Keeps (fd : Nat) (lines : List Text) (c : Client) (s : State) (r : Except Failure State) :
    Prop :=
  ∃ s' c', r = .ok s' ∧ Acc fd lines [] c' s' ∧ s'.history.input = s.history.input ∧
    c'.readbuf = c.readbuf

theorem Keeps.bind {lines' : List Text} {r : Except Failure State}
    {f : State → Except Failure State} (h : Keeps fd lines c s r)
    (hf : ∀ {s' c'}, Acc fd lines [] c' s' → Keeps fd lines' c' s' (f s')) :
    Keeps fd lines' c s (r >>= f) := by
  obtain ⟨s1, c1, rfl, hacc1, hin1, hbuf1⟩ := h
  obtain ⟨s', c', h', hacc', hin', hbuf'⟩ := hf hacc1
  exact ⟨s', c', h', hacc', hin'.trans hin1, hbuf'.trans hbuf1⟩

/-- The state in which a process was created for a request. -/
def forkedState (k : Kernel) (job : Job) (s : State) : State :=
  { s with
    processes := append s.processes (k.fork s.forks (s.processes.map (·.1)))
      ⟨k.fork s.forks (s.processes.map (·.1)), job.req.key, job.req.id, k.tempFile s.forks, job⟩
    forks := s.forks + 1
    history := { s.history with
      forked := (s.processes.length, s.parallel) :: s.history.forked } }

theorem running_forkedState (k : Kernel) (job : Job) (s : State) :
    running (forkedState k job s) = running s ++ [job] := by
  simp [running, forkedState, append]

/-- A held request is given a process. -/
theorem runRequest_ok (k : Kernel) (h : Acc fd lines (job :: held) c s)
    (hlimit : (s.processes.length : Int) < s.parallel) :
    runRequest k job s =
        .ok (queueWrite c job false (startedText job.req.id) (forkedState k job s)) ∧
      Acc fd lines held (c.pushed (startedText job.req.id))
        (queueWrite c job false (startedText job.req.id) (forkedState k job s)) := by
  obtain ⟨hj, ho⟩ := h
  have hkey : job.req.key = fd := hj.keys job (by simp)
  refine ⟨?_, ?_, ?_⟩
  · simp only [runRequest, hkey, ho.lookup_eq, sendStartedMsgToClient, length_startedText]
    rw [if_neg (by omega)]
    simp only [forkedState, hkey]
  · have hfresh := k.fork_fresh s.forks (s.processes.map (·.1))
    refine ⟨hj.limit, ?_, fun j hmem => hj.keys j ?_, ?_, ?_, hj.serials, hj.fresh, ?_, ?_,
      hj.requests⟩
    · change ((s.processes ++ [_]).map _).Nodup
      rw [map_append]
      refine List.Nodup.append hj.pids (by simp) ?_
      simpa using hfresh
    · cases mem_append.mp hmem with
      | inl hmem => exact mem_append_left _ hmem
      | inr hmem => exact mem_append_right _ (mem_cons_of_mem _ hmem)
    · exact forall_mem_append.mpr ⟨hj.procs, forall_mem_singleton.mpr ⟨hkey, rfl⟩⟩
    · intro j
      have hloc := hj.located j
      rw [(started_queueWrite _ _ _ _).2]
      change s.history.received.count j = held.count j + s.queue.toList.count j +
        (running (forkedState k job s)).count j + (answered s).count j +
          (interruptedJobs s).count j
      rw [running_forkedState, count_append]
      rw [count_cons] at hloc
      rw [count_singleton]
      omega
    · intro j
      have hst := hj.startedOnce j
      rw [(started_queueWrite _ _ _ _).1, (started_queueWrite _ _ _ _).2]
      change (started s ++ [job]).count j =
        (running (forkedState k job s)).count j + (answered s).count j
      rw [running_forkedState, count_append, count_append]
      omega
    · exact forall_mem_cons.mpr ⟨hlimit, hj.forked⟩
  · have ho' : OutputOk fd c (forkedState k job s) := ho.frame rfl rfl rfl rfl
    exact ho'.queueWrite (startedText_ne_nil _) rfl nofun

theorem WaitStatus.decode_lt (st : WaitStatus) : st.decode.1 < 256 := by
  cases st with
  | signaled sig => exact Nat.lt_of_lt_of_le sig.isLt (by decide)
  | exited code => exact code.isLt
  | other => decide

/-- A child that is reported leaves its process and its request is answered. -/
theorem handleChildEvent_ok (h : Acc fd lines [] c s) (report : ChildReport)
    (hpid : report.pid ∈ s.processes.map (·.1)) :
    ∃ s' text, handleChildEvent s report = .ok s' ∧ Acc fd lines [] (c.pushed text) s' ∧
      s'.history.input = s.history.input ∧
      ∀ pid ∈ s.processes.map (·.1), pid ≠ report.pid → pid ∈ s'.processes.map (·.1) := by
  obtain ⟨hj, ho⟩ := h
  obtain ⟨⟨pid, child⟩, hx, rfl⟩ := mem_map.mp hpid
  have hlookup := lookup_of_mem hj.pids hx
  have hperm := SwapList.perm_remove hlookup
  obtain ⟨hkey, htask⟩ := hj.procs _ hx
  simp only at hkey htask hlookup hperm
  have hrunning (j : Job) : (running s).count j =
      ((remove s.processes report.pid).map (·.2.job)).count j +
        if child.job == j then 1 else 0 := by
    have hcount := (hperm.map (·.2.job)).count_eq j
    rw [map_cons, count_cons] at hcount
    exact hcount
  have htext := length_finishedText_lt child.taskId report.status.decode_lt report.cpuTime
    report.status.decode.2 child.outfile
  generalize hdef : finishedText child.taskId report.status.decode.1 report.cpuTime
    report.status.decode.2 child.outfile = text at htext
  have ho1 : OutputOk fd c { s with processes := remove s.processes report.pid } :=
    ho.frame rfl rfl rfl rfl
  refine ⟨queueWrite c child.job true text
      { s with processes := remove s.processes report.pid }, text, ?_, ⟨?_, ?_⟩, rfl, ?_⟩
  · simp only [handleChildEvent, hlookup, hkey, ho.lookup_eq, sendMsgToClient, hdef]
    rw [if_neg (by omega)]
  · refine ⟨hj.limit, SwapList.nodup_remove _ hj.pids, hj.keys,
      fun p hp => hj.procs p (SwapList.mem_of_mem_remove hp), fun j => ?_, hj.serials, hj.fresh,
      fun j => ?_, hj.forked, hj.requests⟩
    · have hloc := hj.located j
      rw [(answered_queueWrite _ _ _ _).2]
      change s.history.received.count j = _ + s.queue.toList.count j +
        ((remove s.processes report.pid).map (·.2.job)).count j +
          (answered s ++ [child.job]).count j + (interruptedJobs s).count j
      rw [count_append, count_singleton]
      rw [hrunning j] at hloc
      omega
    · have hst := hj.startedOnce j
      rw [(answered_queueWrite _ _ _ _).1, (answered_queueWrite _ _ _ _).2]
      change (started s).count j =
        ((remove s.processes report.pid).map (·.2.job)).count j +
          (answered s ++ [child.job]).count j
      rw [count_append, count_singleton]
      rw [hrunning j] at hst
      omega
  · refine ho1.queueWrite (by simp [← hdef, finishedText]) ⟨_, _, _, _, htask ▸ hdef.symm⟩
      fun _ => ?_
    -- the request has a process, so it was reported started
    have hpos : 0 < (started s).count child.job := by
      rw [hj.startedOnce, hrunning]
      simp
    obtain ⟨m, hm, hmjob⟩ := mem_map.mp (count_pos_iff.mp hpos)
    obtain ⟨hmem, hfinal⟩ := mem_filter.mp hm
    exact ⟨m, hmem, by simpa using hfinal, hmjob⟩
  · intro pid' hpid' hne
    have hmem := (hperm.map (·.1)).mem_iff.mp hpid'
    exact (mem_cons.mp hmem).resolve_left hne

theorem handleChildEvents_ok (h : Acc fd lines [] c s) (reports : List ChildReport)
    (hnodup : (reports.map (·.pid)).Nodup) (hpids : ∀ r ∈ reports, r.pid ∈ s.processes.map (·.1)) :
    Keeps fd lines c s (handleChildEvents reports s) := by
  induction reports generalizing c s with
  | nil => exact ⟨s, c, rfl, h, rfl, rfl⟩
  | cons r reports ih =>
    obtain ⟨hr, hnodup⟩ := nodup_cons.mp hnodup
    obtain ⟨s1, text, h1, hacc1, hin1, hkeep⟩ :=
      handleChildEvent_ok h r (hpids r mem_cons_self)
    have hpids1 : ∀ r' ∈ reports, r'.pid ∈ s1.processes.map (·.1) := by
      intro r' hr'
      refine hkeep _ (hpids r' (mem_cons_of_mem _ hr')) fun heq => hr ?_
      exact mem_map.mpr ⟨r', hr', heq⟩
    obtain ⟨s', c', h', hacc', hin', hbuf⟩ := ih hacc1 hnodup hpids1
    refine ⟨s', c', ?_, hacc', hin'.trans hin1, hbuf⟩
    exact Except.foldlM_cons_ok.mpr ⟨s1, h1, h'⟩

theorem scheduleLoop_ok (k : Kernel) (h : Acc fd lines [] c s) (fuel : Nat) :
    Keeps fd lines c s (scheduleLoop k fuel s) := by
  induction fuel generalizing c s with
  | zero => exact ⟨s, c, rfl, h, rfl, rfl⟩
  | succ fuel ih =>
    unfold scheduleLoop
    split
    next hlimit =>
      cases hpop : s.queue.pop with
      | none => exact ⟨s, c, rfl, h, rfl, rfl⟩
      | some x =>
        obtain ⟨job, queue⟩ := x
        have hlist := RingQueue.toList_of_pop hpop
        obtain ⟨hj, ho⟩ := h
        have hheld : Acc fd lines [job] c { s with queue := queue } := by
          refine ⟨{ hj with keys := ?_, located := ?_ }, ho.frame rfl rfl rfl rfl⟩
          · intro j hmem
            apply hj.keys j
            rw [hlist]
            simp only [mem_append, mem_cons, not_mem_nil, or_false] at hmem ⊢
            exact hmem.symm
          · intro j
            have hloc := hj.located j
            rw [hlist, count_cons, count_nil] at hloc
            change s.history.received.count j = _ + queue.toList.count j + (running s).count j +
              (answered s).count j + (interruptedJobs s).count j
            rw [count_singleton]
            omega
        obtain ⟨hrun, hacc⟩ := runRequest_ok k hheld hlimit
        exact Keeps.bind ⟨_, _, hrun, hacc, rfl, rfl⟩ ih
    next => exact ⟨s, c, rfl, h, rfl, rfl⟩

/-! Requests of the client. -/

/-- The limit is only used for the new limit, which stays positive. -/
theorem parseRequest_spec (line : Text) (fd : Nat) (parallel : Int) :
    (parseRequest line fd parallel).1 = (parseRequest line fd 1).1 ∧
      (1 ≤ parallel → 1 ≤ (parseRequest line fd parallel).2) ∧
      ∀ r, (parseRequest line fd parallel).1 = some r → r.key = fd := by
  unfold parseRequest
  simp only
  split
  · exact ⟨rfl, id, nofun⟩
  · split
    · split
      · refine ⟨rfl, fun h => ?_, nofun⟩
        split <;> assumption
      · split
        · exact ⟨rfl, id, by rintro _ ⟨⟩; rfl⟩
        · exact ⟨rfl, id, nofun⟩
    · split
      · exact ⟨rfl, id, nofun⟩
      · split
        · exact ⟨rfl, id, by rintro _ ⟨⟩; rfl⟩
        · exact ⟨rfl, id, nofun⟩

theorem runRequestOf_eq {line : Text} {r : Option Request}
    (h : (parseRequest line fd parallel).1 = r) :
    runRequestOf fd line = r.filter fun r => r.reqType = .reqRun := by
  rw [runRequestOf, ← (parseRequest_spec line fd parallel).1, h]

/-- A line that is no run request changes the limit only. -/
theorem JobsOk.line {line : Text} (h : JobsOk fd lines [] s) (hlimit : 1 ≤ parallel)
    (hrun : runRequestOf fd line = none) :
    JobsOk fd (lines ++ [line]) [] { s with parallel := parallel } := by
  refine { h with limit := hlimit, requests := ?_ }
  simp only [h.requests, filterMap_append, filterMap_cons, hrun, filterMap_nil, append_nil]

/-- A run request is held when it was parsed. -/
theorem JobsOk.receive {line : Text} (h : JobsOk fd lines [] s) (hlimit : 1 ≤ parallel)
    {r : Request} (hkey : r.key = fd) (hrun : runRequestOf fd line = some r) (conn : Nat) :
    JobsOk fd (lines ++ [line]) [⟨r, conn, s.history.nextSerial⟩]
      { s with
        parallel := parallel
        history := { s.history with
          nextSerial := s.history.nextSerial + 1
          received := s.history.received ++ [⟨r, conn, s.history.nextSerial⟩] } } := by
  refine { h with
    limit := hlimit, keys := ?_, located := ?_, serials := ?_, fresh := ?_, requests := ?_ }
  · have hkeys := (forall_mem_append.mp h.keys).1
    exact forall_mem_append.mpr ⟨hkeys, forall_mem_singleton.mpr hkey⟩
  · intro j
    have hloc := h.located j
    rw [count_nil] at hloc
    change (s.history.received ++ [_]).count j = _ + s.queue.toList.count j +
      (running s).count j + (answered s).count j + (interruptedJobs s).count j
    rw [count_append]
    omega
  · rw [map_append]
    refine List.Nodup.append h.serials (by simp) ?_
    intro n hn hnew
    obtain ⟨j, hj, rfl⟩ := mem_map.mp hn
    have hlt := h.fresh j hj
    simp only [map_cons, map_nil, mem_singleton] at hnew
    omega
  · refine forall_mem_append.mpr ⟨fun j hj => Nat.lt_succ_of_lt (h.fresh j hj), ?_⟩
    exact forall_mem_singleton.mpr (Nat.lt_succ_self _)
  · simp only [map_append, h.requests, filterMap_append, filterMap_cons, hrun,
      filterMap_nil, map_cons, map_nil]

/-- A held request is put at the end of the queue. -/
theorem JobsOk.push (h : JobsOk fd lines (job :: held) s) :
    JobsOk fd lines held { s with queue := s.queue.push job } := by
  refine { h with keys := ?_, located := ?_ }
  · intro j hj
    apply h.keys j
    simp only [RingQueue.toList_push, mem_append, mem_cons] at hj ⊢
    tauto
  · intro j
    have hloc := h.located j
    change s.history.received.count j = held.count j + (s.queue.push job).toList.count j +
      (running s).count j + (answered s).count j + (interruptedJobs s).count j
    rw [count_cons] at hloc
    rw [RingQueue.toList_push, count_append, count_singleton]
    omega

/-- An interruption moves requests from the queue to the interrupted ones; a
process that is killed is still there. -/
theorem JobsOk.interrupt (h : JobsOk fd lines [] s) (conn : Nat) (id : Text)
    (killed : List (Nat × Job)) :
    JobsOk fd lines []
      { s with
        queue := removeFromQueue id s.queue
        history := { s.history with
          interrupted := s.history.interrupted ++
            (s.queue.toList.filter fun job => job.req.id = id).map fun job => (conn, job)
          killed := killed } } := by
  refine { h with keys := ?_, located := ?_ }
  · intro j hj
    apply h.keys j
    simp only [toList_removeFromQueue, append_nil] at hj ⊢
    exact mem_of_mem_filter hj
  · intro j
    have hloc := h.located j
    have hsplit := countP_eq_countP_filter_add s.queue.toList (· == j)
      fun job => job.req.id = id
    have hmap : (s.history.interrupted ++ (s.queue.toList.filter fun job => job.req.id = id).map
        fun job => (conn, job)).map Prod.snd =
          interruptedJobs s ++ s.queue.toList.filter fun job => job.req.id = id := by
      simp [interruptedJobs]
    change s.history.received.count j = _ + (removeFromQueue id s.queue).toList.count j +
      (running s).count j + (answered s).count j + (List.map Prod.snd (_ ++ _)).count j
    rw [hmap, count_append, toList_removeFromQueue]
    simp only [List.count, decide_not] at hloc hsplit ⊢
    omega

section

variable {client : Client} (k : Kernel) (h : Acc fd lines [] c s) (hfd : client.fd = fd)
include k h hfd

/-- The request of one line is handled; the copy of the client that the code
holds is only asked for its descriptor and its connection. -/
theorem handleRequest_ok (line : Text) :
    Keeps fd (lines ++ [line]) c s (handleRequest k client line s) := by
  obtain ⟨hj, ho⟩ := h
  have hlimit := (parseRequest_spec line fd s.parallel).2.1 hj.limit
  have hkey := (parseRequest_spec line fd s.parallel).2.2
  have hrun := runRequestOf_eq (rfl : (parseRequest line fd s.parallel).1 = _)
  unfold handleRequest
  rw [hfd]
  generalize parseRequest line fd s.parallel = parsed at hlimit hkey hrun ⊢
  obtain ⟨r, parallel⟩ := parsed
  cases r with
  | none => exact ⟨_, c, rfl, ⟨hj.line hlimit hrun, ho.frame rfl rfl rfl rfl⟩, rfl, rfl⟩
  | some r =>
    rw [Option.filter_some] at hrun
    cases htype : r.reqType with
    | reqInterrupt =>
      simp only [htype] at hrun ⊢
      refine ⟨_, c, rfl, ⟨?_, ho.frame rfl rfl rfl rfl⟩, rfl, rfl⟩
      exact (hj.line hlimit hrun).interrupt client.conn r.id _
    | reqRun =>
      simp only [htype] at hrun ⊢
      have hreceived := hj.receive hlimit (hkey r rfl) hrun client.conn
      split
      next hlt =>
        obtain ⟨heq, hacc⟩ := runRequest_ok k ⟨hreceived, ho.frame rfl rfl rfl rfl⟩ hlt
        exact ⟨_, _, heq, hacc, rfl, rfl⟩
      next => exact ⟨_, c, rfl, ⟨hreceived.push, ho.frame rfl rfl rfl rfl⟩, rfl, rfl⟩

theorem handleLines_ok (new : List Text) : Keeps fd (lines ++ new) c s
    (new.foldlM (fun s line => handleRequest k client line s) s) := by
  induction new generalizing lines c s with
  | nil => exact ⟨s, c, rfl, (append_nil lines).symm ▸ h, rfl, rfl⟩
  | cons line new ih =>
    rw [append_cons]
    exact (handleRequest_ok k h hfd line).bind fun hacc => ih hacc

end

/-! One event. -/

/-- The accounting between two events: the lines handled are the complete lines of
the bytes read, and the read buffer has what follows them. -/
def Accounted (fd : Nat) (s : State) : Prop :=
  ∃ c, Acc fd (completeLines [] (bytesRead s)).1 [] c s ∧
    c.readbuf = (completeLines [] (bytesRead s)).2

theorem Accounted.of_acc (hlines : completeLines [] (bytesRead s) = (lines, c.readbuf))
    {c' : Client} (hacc : Acc fd lines [] c' s') (hin : s'.history.input = s.history.input)
    (hbuf : c'.readbuf = c.readbuf) : Accounted fd s' := by
  have hread : bytesRead s' = bytesRead s := by rw [bytesRead, hin, bytesRead]
  refine ⟨c', ?_, ?_⟩
  · rw [hread, hlines]
    exact hacc
  · rw [hread, hlines]
    exact hbuf

/-- The requests do not depend on the client, the poll list and the bytes. -/
theorem JobsOk.withOutput (h : JobsOk fd lines held s) (clients : List (Nat × Client))
    (pollList : List PollFd) (input written : List (Nat × Text)) :
    JobsOk fd lines held
      { s with
        clients := clients
        pollList := pollList
        history := { s.history with input := input, written := written } } :=
  { h with }

section

variable (h : Accounted fd s) (cfg : Config) (k : Kernel)
include h cfg k

theorem Accounted.turn :
    ∃ s', step cfg k s .turn = .ok s' ∧ Accounted fd s' := by
  obtain ⟨c, hacc, hbuf⟩ := h
  obtain ⟨s1, c1, h1, ⟨hj, ho⟩, hin, hbuf1⟩ := scheduleLoop_ok k hacc s.queue.len
  obtain ⟨hperm, hmem⟩ := pollListCleanFrom_spec s1.pollList.length 0 s1.pollList
  have hclean : OutputOk fd c1 { s1 with pollList := pollListClean s1.pollList } :=
    { ho with
      entries := hperm.nodup_iff.mpr ho.entries
      pollout := fun hentry => ho.pollout (hmem _ hentry) }
  refine ⟨_, Except.bind_eq_ok.mpr ⟨s1, h1, rfl⟩, ?_⟩
  exact .of_acc (Prod.ext rfl hbuf.symm)
    ⟨hj.withOutput _ _ _ _, hclean⟩ hin hbuf1

theorem Accounted.childEvents {reports : List ChildReport}
    (henabled : Enabled cfg s (.childEvents reports)) :
    ∃ s', step cfg k s (.childEvents reports) = .ok s' ∧ Accounted fd s' := by
  obtain ⟨c, hacc, hbuf⟩ := h
  obtain ⟨s', c', h', hacc', hin, hbuf'⟩ :=
    handleChildEvents_ok hacc reports henabled.1 henabled.2
  exact ⟨s', h', .of_acc (Prod.ext rfl hbuf.symm) hacc' hin hbuf'⟩

theorem Accounted.pollOut {n : Nat} (henabled : Enabled cfg s (.pollOut fd (some n))) :
    ∃ s', step cfg k s (.pollOut fd (some n)) = .ok s' ∧ Accounted fd s' := by
  obtain ⟨c, ⟨hj, ho⟩, hbuf⟩ := h
  obtain ⟨hentry, hn⟩ := henabled
  obtain ⟨buf, b1, b2, hprepare, hwritten, hok, hpending⟩ :=
    Writebuf.write_ok ho.writebuf (ho.pollout hentry) (hn n rfl c ho.lookup_eq)
  have hstep : step cfg k s (.pollOut fd (some n)) =
      .ok { s with
        clients := modifyClient c.fd (fun c => { c with writebuf := b2 }) s.clients
        pollList :=
          if b2.hasWriteData then s.pollList
          else pollListModify c.fd (fun e => { e with pollout := false }) s.pollList
        history := { s.history with written := s.history.written ++ [(c.conn, buf.take n)] } } := by
    simp only [step, onClient, ho.lookup_eq, writeToClient, hprepare, hwritten, Option.map_some]
  refine ⟨_, hstep, { c with writebuf := b2 }, ⟨?_, ?_⟩, hbuf⟩
  · exact hj.withOutput _ _ _ _
  · refine ⟨ho.modifyClient_eq fun c => { c with writebuf := b2 }, ho.fdEq, hok, ho.ordered,
      ho.texts, ?_, ?_, ?_⟩
    · change (s.history.written ++ [_]).flatMap Prod.snd ++ b2.pending =
        (s.history.emitted.map (·.text)).flatten
      rw [← ho.bytes, ← hpending, bytesWritten]
      simp
    · simp only
      split
      · exact ho.entries
      · have hsame := filterMap_pollListModify c.fd (fun e => { e with pollout := false })
          (fun _ => rfl) s.pollList
        exact hsame ▸ ho.entries
    · simp only
      split
      next hdata => exact fun _ => hdata
      next =>
        intro hentry'
        rw [ho.fdEq] at hentry'
        exact absurd hentry' (not_mem_pollListModify_clear ho.entries)

/-- The bytes of a read go to the read buffer, whose complete lines are handled. -/
theorem Accounted.pollIn (bytes : Text) :
    ∃ s', step cfg k s (.pollIn fd (.data bytes)) = .ok s' ∧ Accounted fd s' ∧
      bytesRead s' = bytesRead s ++ bytes := by
  obtain ⟨c, ⟨hj, ho⟩, hbuf⟩ := h
  let client : Client := { c with readbuf := c.readbuf ++ bytes }
  let s1 : State := { s with
    clients := modifyClient client.fd (fun _ => client) s.clients
    history := { s.history with input := s.history.input ++ [(client.conn, bytes)] } }
  have hread : bytesRead s1 = bytesRead s ++ bytes := by simp [s1, bytesRead]
  have hclients : s1.clients = [(fd, client)] := ho.modifyClient_eq fun _ => client
  have hacc1 : Acc fd (completeLines [] (bytesRead s)).1 [] client s1 :=
    ⟨hj.withOutput _ _ _ _, ho.withClient hclients rfl rfl rfl rfl rfl⟩
  have hnl : '\n' ∉ c.readbuf := hbuf ▸ not_mem_completeLines_rest (by simp) _
  have hsplit : completeLines [] client.readbuf = completeLines c.readbuf bytes :=
    completeLines_rest_append hnl bytes
  have hall := completeLines_append [] (bytesRead s) bytes
  rw [← hbuf] at hall
  have hfd : client.fd = fd := ho.fdEq
  obtain ⟨s2, c2, h2, ⟨hj2, ho2⟩, hin2, -⟩ :=
    handleLines_ok k hacc1 hfd (completeLines c.readbuf bytes).1
  let rest := (completeLines c.readbuf bytes).2
  let s3 : State := { s2 with
    clients := modifyClient client.fd (fun c => { c with readbuf := rest }) s2.clients }
  have hstep : step cfg k s (.pollIn fd (.data bytes)) = .ok s3 := by
    simp only [step, onClient, ho.lookup_eq]
    refine Except.bind_eq_ok.mpr ⟨s2, ?_, ?_⟩
    · rw [hsplit]
      exact h2
    · rw [hsplit]
  have hread3 : bytesRead s3 = bytesRead s ++ bytes := by
    rw [← hread, bytesRead]
    exact congrArg _ hin2
  refine ⟨s3, hstep, ⟨{ c2 with readbuf := rest }, ⟨?_, ?_⟩, ?_⟩, hread3⟩
  · rw [hread3, hall]
    exact hj2.withOutput _ _ _ _
  · have hclients3 : s3.clients = [(fd, { c2 with readbuf := rest })] := by
      simp only [s3, hfd]
      exact ho2.fdEq ▸ ho2.modifyClient_eq fun c => { c with readbuf := rest }
    exact ho2.withClient hclients3 rfl rfl rfl rfl rfl
  · rw [hread3, hall]

end

/-! Runs with one client. -/

/-- What can happen while the client is connected. -/
def ClientEvent (fd : Nat) : Event → Prop
  | .turn | .childEvents _ => True
  | .pollOut fd' (some _) | .pollIn fd' (.data _) => fd' = fd
  | _ => False

theorem accounted_connect {cfg : Config} (hparallel : 1 ≤ parallel) (k : Kernel)
    (henabled : Enabled cfg (.init cfg parallel) (.acceptClient fd)) :
    ∃ s, step cfg k (.init cfg parallel) (.acceptClient fd) = .ok s ∧ Accounted fd s := by
  have hpos : 0 < parallel.toNat := by omega
  obtain ⟨-, hsock, hpipe⟩ := henabled
  refine ⟨_, dif_pos hpos, ⟨fd, [], .init parallel.toNat hpos, 0⟩, ⟨?_, ?_⟩, rfl⟩
  · exact ⟨hparallel, nodup_nil, nofun, nofun, fun _ => rfl, nodup_nil, nofun,
      fun _ => rfl, nofun, rfl⟩
  · refine ⟨rfl, rfl, Writebuf.ok_init _ _, ?_, nofun, rfl, ?_, ?_⟩
    · intro pre m post heq
      simp [State.init] at heq
    · simp [State.init, addToPollList, cfg.distinct, hsock.symm, hpipe.symm]
    · simp [State.init, addToPollList]

theorem Accounted.step (h : Accounted fd s) (cfg : Config) (k : Kernel) {e : Event}
    (he : ClientEvent fd e) (henabled : Enabled cfg s e) :
    ∃ s', step cfg k s e = .ok s' ∧ Accounted fd s' := by
  cases e with
  | turn => exact h.turn cfg k
  | childEvents reports => exact h.childEvents cfg k henabled
  | acceptClient fd' | pollErr fd' => cases he
  | pollOut fd' res =>
    cases res with
    | none => cases he
    | some n =>
      cases he
      exact h.pollOut cfg k henabled
  | pollIn fd' res =>
    cases res with
    | error | eof => cases he
    | data bytes =>
      cases he
      obtain ⟨s', hstep, hacc, -⟩ := h.pollIn cfg k bytes
      exact ⟨s', hstep, hacc⟩

/-- The states after the connection of a client to a server that has just started. -/
inductive SingleClient (cfg : Config) (k : Kernel) (fd : Nat) : State → Prop
  | connect {parallel : Int} {s : State} (hparallel : 1 ≤ parallel)
      (henabled : Enabled cfg (.init cfg parallel) (.acceptClient fd))
      (h : step cfg k (.init cfg parallel) (.acceptClient fd) = .ok s) : SingleClient cfg k fd s
  | step {s s' : State} {e : Event} (hs : SingleClient cfg k fd s) (he : ClientEvent fd e)
      (henabled : Enabled cfg s e) (h : step cfg k s e = .ok s') : SingleClient cfg k fd s'

theorem SingleClient.accounted {cfg : Config} {k : Kernel}
    (h : SingleClient cfg k fd s) : Accounted fd s := by
  induction h with
  | connect hparallel henabled h =>
    obtain ⟨s', hstep, hacc⟩ := accounted_connect hparallel k henabled
    cases hstep.symm.trans h
    exact hacc
  | step hs he henabled h ih =>
    obtain ⟨s', hstep, hacc⟩ := ih.step cfg k he henabled
    cases hstep.symm.trans h
    exact hacc

/-- A buffer without a current message has nothing left to write. -/
theorem Writebuf.Ok.pending_eq_nil {b : Writebuf} (h : b.Ok) (hdata : b.hasWriteData = false) :
    b.pending = [] := by
  have hnone : b.data = none := by simpa [Writebuf.hasWriteData] using hdata
  simp [Writebuf.pending, hnone, h.idle hnone]

theorem JobsOk.count_received (h : JobsOk fd lines held s)
    (j : Job) : s.history.received.count j ≤ 1 :=
  nodup_iff_count_le_one.mp h.serials.of_map j

theorem runRequestOf_runLine {id timeout memlimit cmd : Text} {args : List Text} (fd : Nat)
    (hid : PlainField id) (htimeout : PlainField timeout) (hmemlimit : PlainField memlimit)
    (hcmd : PlainField cmd) (hargs : ∀ a ∈ args, PlainField a) :
    runRequestOf fd (runLine id timeout memlimit cmd args) =
      some ⟨fd, .reqRun, id, atoi timeout, atoi memlimit % 2 ^ 32, false, cmd, args⟩ := by
  rw [runRequestOf, parseRequest_runLine hid htimeout hmemlimit hcmd hargs]
  rfl

/-- A kernel that gives a child the number after those in use. -/
def Kernel.counting : Kernel where
  fork := fun _ live => live.foldr max 0 + 1
  fork_fresh := by
    intro _ live hmem
    have hlast : _ ≤ live.foldr max 0 := List.le_max_of_le hmem le_rfl
    omega
  tempFile := fun n => (Nat.repr n).toList

end Server
end Why3
