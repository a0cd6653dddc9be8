import Why3.Library.SwapList
import Why3.Server.Protocol

/-!
The prover server: clients, queued requests and running processes, driven by
one event loop.

The kernel answers the system calls: it gives a descriptor to an accepted
connection, bytes to a read, a number of bytes to a write, the terminated
children to `wait3` and a new process number to a fork. The code knows a
connection by its descriptor only. For the statements the model numbers the
connections and the requests and keeps a record of what happened to them; the
fields of `History`, `Client.conn` and `Job` are read by no transition.
-/
namespace Why3
namespace Server

open SwapList (append lookup remove)

/-- A request with the connection it was received on and its number. -/
structure Job where
  req : Request
  conn : Nat
  serial : Nat
deriving DecidableEq, Repr

structure Client where
  fd : Nat
  readbuf : Text
  writebuf : Writebuf
  conn : Nat

structure Proc where
  id : Nat
  clientKey : Nat
  taskId : Text
  outfile : Text
  job : Job

/-- An entry of the poll list; a removed entry has no descriptor. -/
structure PollFd where
  fd : Option Nat
  pollout : Bool
deriving DecidableEq, Repr

/-- A message put in the write buffer of a connection. -/
structure Message where
  dest : Nat
  job : Job
  final : Bool
  text : Text
deriving DecidableEq, Repr

structure History where
  nextConn : Nat
  nextSerial : Nat
  input : List (Nat × Text)
  received : List Job
  emitted : List Message
  written : List (Nat × Text)
  interrupted : List (Nat × Job)
  killed : List (Nat × Job)
  dropped : List Job
  /-- The number of processes and the limit when a process was created. -/
  forked : List (Nat × Int)

structure State where
  clients : List (Nat × Client)
  pollList : List PollFd
  processes : List (Nat × Proc)
  queue : RingQueue Job
  parallel : Int
  forks : Nat
  history : History

inductive Failure where
  | assertion
  | nullPointer
  | shutdown (msg : String)
deriving DecidableEq, Repr

structure Config where
  singleClient : Bool
  serverSock : Nat
  childPipe : Nat
  distinct : serverSock ≠ childPipe

/-- A fork gives a number that no child has; temporary files have C strings as
names. -/
structure Kernel where
  fork : Nat → List Nat → Nat
  fork_fresh : ∀ n live, fork n live ∉ live
  tempFile : Nat → Text

variable (cfg : Config)

def State.init (parallel : Int) : State where
  clients := []
  pollList := [⟨some cfg.serverSock, false⟩, ⟨some cfg.childPipe, false⟩]
  processes := []
  queue := .init 100 (by decide)
  parallel := parallel
  forks := 0
  history := ⟨0, 0, [], [], [], [], [], [], [], []⟩

/-! The poll list. -/

def addToPollList (sock : Nat) (pollList : List PollFd) : List PollFd :=
  pollList ++ [⟨some sock, false⟩]

def pollListModify (fd : Nat) (f : PollFd → PollFd) : List PollFd → List PollFd
  | [] => []
  | e :: l => if e.fd = some fd then f e :: l else e :: pollListModify fd f l

def pollListRemove (fd : Nat) (pollList : List PollFd) : List PollFd :=
  pollListModify fd (fun e => { e with fd := none }) pollList

/-- Removed entries are overwritten by the last entry, from the first on. -/
def pollListCleanFrom : Nat → Nat → List PollFd → List PollFd
  | 0, _, l => l
  | fuel + 1, i, l =>
    match l[i]?, l.getLast? with
    | some e, some last =>
      if e.fd = none then pollListCleanFrom fuel i (l.set i last).dropLast
      else pollListCleanFrom fuel (i + 1) l
    | _, _ => l

def pollListClean (l : List PollFd) : List PollFd := pollListCleanFrom l.length 0 l

/-! Messages to clients. -/

def modifyClient (fd : Nat) (f : Client → Client) (clients : List (Nat × Client)) :
    List (Nat × Client) :=
  clients.map fun x => if x.1 = fd then (x.1, f x.2) else x

def queueWrite (client : Client) (job : Job) (final : Bool) (text : Text) (s : State) : State :=
  { s with
    clients := modifyClient client.fd
      (fun c => { c with writebuf := c.writebuf.pushWriteData text }) s.clients
    pollList := pollListModify client.fd (fun e => { e with pollout := true }) s.pollList
    history := { s.history with
      emitted := s.history.emitted ++ [⟨client.conn, job, final, text⟩] } }

def sendStartedMsgToClient (client : Client) (job : Job) (id : Text) (s : State) :
    Except Failure State :=
  let len := id.length + 4
  if (startedText id).length ≠ len - 1 then .error (.shutdown "message for client too long")
  else .ok (queueWrite client job false (startedText id) s)

def sendMsgToClient (client : Client) (job : Job) (id : Text) (exitcode : Nat)
    (cpuTime : CpuTime) (timeout : Bool) (outfile : Text) (s : State) : Except Failure State :=
  let len := id.length + 3 + 23 + (outfile.length + 1)
  let text := finishedText id exitcode cpuTime timeout outfile
  if len ≤ text.length then .error (.shutdown "message for client too long")
  else .ok (queueWrite client job true text s)

/-! Processes. -/

inductive WaitStatus where
  | signaled (sig : Fin 128)
  | exited (code : Fin 256)
  | other
deriving DecidableEq, Repr

/-- What `wait3` reports about a terminated child. -/
structure ChildReport where
  pid : Nat
  status : WaitStatus
  cpuTime : CpuTime
deriving DecidableEq, Repr

/-- The exit code and whether the child ran out of time. -/
def WaitStatus.decode : WaitStatus → Nat × Bool
  | .signaled sig => (sig, true)
  | .exited code => (code, false)
  | .other => (1, false)

def handleChildEvent (s : State) (report : ChildReport) : Except Failure State :=
  let (exitCode, isTimeout) := report.status.decode
  match lookup s.processes report.pid with
  | none => .error .nullPointer
  | some child =>
    let s := { s with processes := remove s.processes report.pid }
    match lookup s.clients child.clientKey with
    | none => .ok s
    | some client =>
      sendMsgToClient client child.job child.taskId exitCode report.cpuTime isTimeout
        child.outfile s

def handleChildEvents (reports : List ChildReport) (s : State) : Except Failure State :=
  reports.foldlM handleChildEvent s

variable (k : Kernel)

def runRequest (job : Job) (s : State) : Except Failure State :=
  match lookup s.clients job.req.key with
  | none => .ok { s with history := { s.history with dropped := job :: s.history.dropped } }
  | some client =>
    let id := k.fork s.forks (s.processes.map (·.1))
    let proc : Proc := ⟨id, job.req.key, job.req.id, k.tempFile s.forks, job⟩
    let s := { s with
      processes := append s.processes id proc
      forks := s.forks + 1
      history := { s.history with
        forked := (s.processes.length, s.parallel) :: s.history.forked } }
    sendStartedMsgToClient client job job.req.id s

def scheduleLoop : Nat → State → Except Failure State
  | 0, s => .ok s
  | fuel + 1, s =>
    if (s.processes.length : Int) < s.parallel then
      match s.queue.pop with
      | some (job, queue) => do
        let s ← runRequest k job { s with queue := queue }
        scheduleLoop fuel s
      | none => .ok s
    else .ok s

/-- Each turn of the loop takes one request from the queue. -/
def scheduleNewJobs (s : State) : Except Failure State :=
  scheduleLoop k s.queue.len s

/-! Requests of clients. -/

def popAll {α : Type} (keep : α → Bool) : Nat → RingQueue α → RingQueue α → RingQueue α
  | 0, _, tmp => tmp
  | fuel + 1, q, tmp =>
    match q.pop with
    | some (r, q) => popAll keep fuel q (if keep r then tmp.push r else tmp)
    | none => tmp

def emptied {α : Type} : Nat → RingQueue α → RingQueue α
  | 0, q => q
  | fuel + 1, q =>
    match q.pop with
    | some (_, q) => emptied fuel q
    | none => q

/-- The requests with another identifier go through a second queue and back. -/
def removeFromQueue (id : Text) (queue : RingQueue Job) : RingQueue Job :=
  let tmp := popAll (fun job => job.req.id ≠ id) queue.len queue
    (.init queue.capacity (Nat.lt_of_le_of_lt (Nat.zero_le _) queue.pointer_lt))
  popAll (fun _ => true) tmp.len tmp (emptied queue.len queue)

/-- The processes that are sent a signal; they end when the kernel says so. -/
def killProcesses (id : Text) (processes : List (Nat × Proc)) : List (Nat × Proc) :=
  processes.filter fun p => p.2.taskId = id

def handleRequest (client : Client) (line : Text) (s : State) :
    Except Failure State :=
  let (r, parallel) := parseRequest line client.fd s.parallel
  let s := { s with parallel := parallel }
  match r with
  | none => .ok s
  | some r =>
    match r.reqType with
    | .reqRun =>
      let job : Job := ⟨r, client.conn, s.history.nextSerial⟩
      let s := { s with history := { s.history with
        nextSerial := s.history.nextSerial + 1
        received := s.history.received ++ [job] } }
      if (s.processes.length : Int) < s.parallel then runRequest k job s
      else .ok { s with queue := s.queue.push job }
    | .reqInterrupt =>
      let removed := s.queue.toList.filter fun job => job.req.id = r.id
      let killed := killProcesses r.id s.processes
      .ok { s with
        queue := removeFromQueue r.id s.queue
        history := { s.history with
          interrupted := s.history.interrupted ++ removed.map fun job => (client.conn, job)
          killed := s.history.killed ++ killed.map fun p => (client.conn, p.2.job) } }

def handleMsg (client : Client) (s : State) : Except Failure State := do
  let (lines, rest) := completeLines [] client.readbuf
  let s ← lines.foldlM (fun s line => handleRequest k client line s) s
  .ok { s with clients := modifyClient client.fd (fun c => { c with readbuf := rest }) s.clients }

def closeClient (client : Client) (s : State) : Except Failure State :=
  let clients := remove s.clients client.fd
  if cfg.singleClient && clients.isEmpty then .error (.shutdown "last client disconnected")
  else .ok { s with clients := clients, pollList := pollListRemove client.fd s.pollList }

inductive ReadResult where
  | error
  | eof
  | data (bytes : Text)
deriving DecidableEq, Repr

def readOnClient (client : Client) (res : ReadResult) (s : State) :
    Except Failure State :=
  match res with
  | .error => .ok s
  | .eof => closeClient cfg client s
  | .data bytes =>
    let client := { client with readbuf := client.readbuf ++ bytes }
    handleMsg k client { s with
      clients := modifyClient client.fd (fun _ => client) s.clients
      history := { s.history with input := s.history.input ++ [(client.conn, bytes)] } }

/-- A write ends with an error or with a number of bytes written. -/
def writeToClient (client : Client) (res : Option Nat) (s : State) : Except Failure State :=
  match client.writebuf.prepareWrite with
  | none => .error .assertion
  | some (buf, writebuf) =>
    let done : Option (Writebuf × Text) := match res with
      | none => some (writebuf, [])
      | some n => (writebuf.haveWritten n).map fun b => (b, buf.take n)
    match done with
    | none => .error .assertion
    | some (writebuf, bytes) =>
      .ok { s with
        clients := modifyClient client.fd (fun c => { c with writebuf := writebuf }) s.clients
        pollList :=
          if writebuf.hasWriteData then s.pollList
          else pollListModify client.fd (fun e => { e with pollout := false }) s.pollList
        history := { s.history with
          written := s.history.written ++ [(client.conn, bytes)] } }

def serverAcceptClient (fd : Nat) (s : State) : Except Failure State :=
  if h : 0 < s.parallel.toNat then
    let client : Client := ⟨fd, [], .init s.parallel.toNat h, s.history.nextConn⟩
    .ok { s with
      clients := append s.clients fd client
      pollList := addToPollList fd s.pollList
      history := { s.history with nextConn := s.history.nextConn + 1 } }
  else .error .assertion

/-! The event loop. -/

inductive Event where
  | turn
  | childEvents (reports : List ChildReport)
  | acceptClient (fd : Nat)
  | pollErr (fd : Nat)
  | pollOut (fd : Nat) (res : Option Nat)
  | pollIn (fd : Nat) (res : ReadResult)

def onClient (fd : Nat) (s : State) (f : Client → Except Failure State) : Except Failure State :=
  match lookup s.clients fd with
  | none => .ok s
  | some client => f client

def step (s : State) : Event → Except Failure State
  | .turn => do
    let s ← scheduleNewJobs k s
    .ok { s with pollList := pollListClean s.pollList }
  | .childEvents reports => handleChildEvents reports s
  | .acceptClient fd => serverAcceptClient fd s
  | .pollErr fd => onClient fd s fun client => closeClient cfg client s
  | .pollOut fd res => onClient fd s fun client => writeToClient client res s
  | .pollIn fd res => onClient fd s fun client => readOnClient cfg k client res s

/-- What the kernel can report in a state: children that are there, once each; a
descriptor that is not in use; readiness to write when it was asked for, and no
more bytes written or read than given. -/
def Enabled (s : State) : Event → Prop
  | .turn => True
  | .childEvents reports =>
    (reports.map (·.pid)).Nodup ∧ ∀ r ∈ reports, r.pid ∈ s.processes.map (·.1)
  | .acceptClient fd => fd ∉ s.clients.map (·.1) ∧ fd ≠ cfg.serverSock ∧ fd ≠ cfg.childPipe
  | .pollErr fd => ⟨some fd, false⟩ ∈ s.pollList ∨ ⟨some fd, true⟩ ∈ s.pollList
  | .pollOut fd res => ⟨some fd, true⟩ ∈ s.pollList ∧
      ∀ n, res = some n → ∀ client, lookup s.clients fd = some client →
        n ≤ client.writebuf.len - client.writebuf.pointer
  | .pollIn fd res => (⟨some fd, false⟩ ∈ s.pollList ∨ ⟨some fd, true⟩ ∈ s.pollList) ∧
      ∀ bytes, res = .data bytes → 0 < bytes.length ∧ bytes.length ≤ 1024

end Server
end Why3
