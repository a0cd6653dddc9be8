import Why3.Library.Procedure

/-!
The proof scheduler of the controller.

The scheduler keeps a queue of scheduled attempts, a table of the calls in
progress, a queue of editor calls and a counter of running provers; its handlers
are fired by the main loop in any order. A handler is a function on the state
that may end with an exception, and then the changes made so far stay. What the
handlers ask of the session, the drivers and the prover server is an input of
the handler. Each call of `scheduleProofAttempt` is given a number that stands
for the callback it makes; `log` has the statuses the callbacks were given,
latest first, and `observed` what the observer was given.
-/
namespace Why3
namespace Scheduler

open Procedure (iter update)

inductive Exn where
  | notFound
  | queueEmpty
  | assertFailure
  | sysError (msg : String)
  | other (name : String)
deriving DecidableEq, Repr

/-! Results and limits. Times are exact numbers. -/

inductive ProverAnswer where
  | valid
  | invalid
  | timeout
  | outOfMemory
  | stepLimitExceeded
  | unknown (msg : String)
  | failure (msg : String)
  | highFailure
deriving DecidableEq, Repr

structure ProverResult where
  prAnswer : ProverAnswer
  prTime : Rat
  prSteps : Int
deriving DecidableEq, Repr

structure ResourceLimit where
  limitTime : Int
  limitMem : Int
  limitSteps : Int
deriving DecidableEq, Repr

def emptyLimit : ResourceLimit := ⟨0, 0, 0⟩

structure ProofAttemptNode where
  proofState : Option ProverResult
  proofObsolete : Bool
  proofScript : Option String
deriving DecidableEq, Repr

def truncate (q : Rat) : Int := if 0 ≤ q then ⌊q⌋ else -⌊-q⌋

def adaptLimits (interactive useSteps : Bool) (limits : ResourceLimit) (a : ProofAttemptNode) :
    ResourceLimit :=
  match a.proofState with
  | some r =>
    let t := truncate (3 / 2 + 2 * r.prTime)
    let increasedTime :=
      if interactive then 0 else max limits.limitTime (min t (2 * limits.limitTime))
    let increasedMem := if interactive then 0 else (3 * limits.limitMem).tdiv 2
    match r.prAnswer with
    | .outOfMemory => ⟨increasedTime, limits.limitMem, limits.limitSteps⟩
    | .timeout => ⟨limits.limitTime, increasedMem, limits.limitSteps⟩
    | .valid =>
      ⟨increasedTime, increasedMem, if useSteps && !a.proofObsolete then r.prSteps + 1 else 0⟩
    | .unknown _ | .stepLimitExceeded | .invalid =>
      ⟨increasedTime, increasedMem, limits.limitSteps⟩
    | .failure _ | .highFailure => limits
  | none => if interactive then emptyLimit else limits

def groupAnswer : ProverAnswer → ProverAnswer
  | .outOfMemory | .unknown _ | .timeout => .timeout
  | a => a

def fuzzyProofTime (nres ores : ProverResult) : ProverResult :=
  if nres.prAnswer ≠ .timeout ∧ groupAnswer ores.prAnswer = groupAnswer nres.prAnswer ∧
      ores.prTime * (9 / 10) - 1 / 10 ≤ nres.prTime ∧
      nres.prTime ≤ ores.prTime * (11 / 10) + 1 / 10 then
    { nres with prTime := ores.prTime }
  else nres

/-! The state. -/

inductive Status where
  | undone
  | scheduled
  | running
  | done (res : ProverResult)
  | interrupted
  | detached
  | internalFailure (e : Exn)
  | uninstalled (prover : String)
  | upgradeProver (prover : String)
  | removed (prover : String)
deriving DecidableEq, Repr

/-- The status after which an attempt is over. -/
def Status.terminal : Status → Bool
  | .done _ | .interrupted | .internalFailure _ | .detached => true
  | _ => false

/-- The closure given to the scheduler: the attempt of the session it is about
and the number of the call that made it. -/
structure Callback where
  attempt : Nat
  panid : Nat
deriving DecidableEq, Repr

structure SchedPaRec where
  spaId : Nat
  spaPr : String
  spaLimit : ResourceLimit
  spaPrScr : Option String
  spaCallback : Callback
  spaOres : Option ProverResult
deriving DecidableEq, Repr

structure TasksProgRec where
  tpId : Nat
  tpPr : String
  tpCallback : Callback
  tpStarted : Bool
  tpCall : Nat
  tpOres : Option ProverResult
deriving DecidableEq, Repr

structure EditorTask where
  edCallback : Callback
  edPid : Nat
  edOres : Option ProverResult
deriving DecidableEq, Repr

structure State where
  scheduledProofAttempts : List SchedPaRec
  proverTasksInProgress : List TasksProgRec
  proverTasksEdited : List EditorTask
  idleHandlerRunning : Bool
  timeoutHandlerRunning : Bool
  numberOfRunningProvers : Int
  controllerRunningProofAttempts : List Nat
  nextCall : Nat
  nextAttempt : Nat
  log : List (Nat × Status)
  nextEdition : Nat
  editLog : List (Nat × Status)
  observed : List (Int × Int × Int)

def State.init : State where
  scheduledProofAttempts := []
  proverTasksInProgress := []
  proverTasksEdited := []
  idleHandlerRunning := false
  timeoutHandlerRunning := false
  numberOfRunningProvers := 0
  controllerRunningProofAttempts := []
  nextCall := 0
  nextAttempt := 0
  log := []
  nextEdition := 0
  editLog := []
  observed := []

/-! Handlers. -/

/-- What a callback does before it calls the function it was made with. -/
def Callback.call (cb : Callback) : Status → Procedure Exn State
  | .scheduled => .update fun s =>
    { s with
      controllerRunningProofAttempts := cb.panid :: s.controllerRunningProofAttempts
      log := (cb.attempt, .scheduled) :: s.log }
  | .upgradeProver p => .update fun s => { s with log := (cb.attempt, .upgradeProver p) :: s.log }
  | .removed p => .update fun s => { s with log := (cb.attempt, .removed p) :: s.log }
  | .running => .update fun s => { s with log := (cb.attempt, .running) :: s.log }
  | .done res => finish (.done res)
  | .interrupted => finish .interrupted
  | .internalFailure e => finish (.internalFailure e)
  | .detached | .uninstalled _ | .undone => .raise .assertFailure
where
  finish (st : Status) : Procedure Exn State := .update fun s =>
    { s with
      controllerRunningProofAttempts := s.controllerRunningProofAttempts.erase cb.panid
      log := (cb.attempt, st) :: s.log }

/-- What the scheduler learns when it builds a call: whether the prover and its
command, the task and the call itself could be made. A call that is made draws a
new number, past some that failed calls may have drawn. -/
structure BuildEnv where
  command : Except Exn Unit
  getTask : Except Exn Unit
  proveTask : Except Exn Nat

def findTask (call : Nat) (s : State) : Option TasksProgRec :=
  s.proverTasksInProgress.find? fun p => p.tpCall = call

def replaceTask (ptp : TasksProgRec) (s : State) : State :=
  { s with
    proverTasksInProgress :=
      ptp :: s.proverTasksInProgress.filter fun p => p.tpCall ≠ ptp.tpCall }

def removeTask (call : Nat) (s : State) : State :=
  { s with proverTasksInProgress := s.proverTasksInProgress.filter fun p => p.tpCall ≠ call }

def startTask (spa : SchedPaRec) (skipped : Nat) : Procedure Exn State := .update fun s =>
  let call := s.nextCall + skipped + 1
  replaceTask
    { tpId := spa.spaId
      tpPr := spa.spaPr
      tpCallback := spa.spaCallback
      tpStarted := false
      tpCall := call
      tpOres := spa.spaOres }
    { s with nextCall := call }

def proveTask (env : BuildEnv) (spa : SchedPaRec) : Procedure Exn State :=
  match env.getTask with
  | .error e => .raise e
  | .ok () =>
    match env.proveTask with
    | .ok skipped => startTask spa skipped
    | .error (.sysError msg) => spa.spaCallback.call (.internalFailure (.sysError msg))
    | .error e => .raise e

def buildProverCall (env : BuildEnv) (spa : SchedPaRec) : Procedure Exn State :=
  match env.command with
  | .error e => .raise e
  | .ok () => (proveTask env spa).handle fun e =>
    -- the goal has no task, it is detached
    if e = .notFound then some (spa.spaCallback.call .detached) else none

def updateObserver : Procedure Exn State := .update fun s =>
  let scheduled : Int := s.scheduledProofAttempts.length
  let waitingOrRunning : Int := s.proverTasksInProgress.length
  let running := s.numberOfRunningProvers
  { s with observed := (scheduled, waitingOrRunning - running, running) :: s.observed }

inductive ProverUpdate where
  | noUpdates
  | proverInterrupted
  | internalFailure (e : Exn)
  | proverStarted
  | proverFinished (res : ProverResult)
deriving DecidableEq, Repr

/-- The end of a call in progress. -/
def endTask (ptp : TasksProgRec) (st : Status) : Procedure Exn State :=
  (update fun s =>
    let s := removeTask ptp.tpCall s
    if ptp.tpStarted then { s with numberOfRunningProvers := s.numberOfRunningProvers - 1 }
    else s).andThen (ptp.tpCallback.call st)

def handleUpdate (result : Nat × ProverUpdate) : Procedure Exn State := fun s =>
  match findTask result.1 s with
  | none => (.ok (), s)
  | some ptp =>
    match result.2 with
    | .noUpdates => (.ok (), s)
    | .proverStarted =>
      if ptp.tpStarted then (.error .assertFailure, s)
      else (ptp.tpCallback.call .running).andThen (.update fun s =>
        replaceTask { ptp with tpStarted := true }
          { s with numberOfRunningProvers := s.numberOfRunningProvers + 1 }) s
    | .proverFinished res =>
      let res := match ptp.tpOres with
        | some ores => fuzzyProofTime res ores
        | none => res
      endTask ptp (.done res) s
    | .proverInterrupted => endTask ptp .interrupted s
    | .internalFailure e => endTask ptp (.internalFailure e) s

/-- An editor call has ended with a result or has not. -/
def handleEditor (query : Nat → Option ProverResult) (c : EditorTask) : Procedure Exn State :=
  .update fun s =>
    match query c.edPid with
    | none => { s with proverTasksEdited := s.proverTasksEdited ++ [c] }
    | some res =>
      { s with editLog := (c.edCallback.attempt, .done (c.edOres.getD res)) :: s.editLog }

structure Config where
  blocking : Bool
  multiplier : Nat
  stackTrace : Bool

/-- The results of the server are only asked for when a call is in progress. -/
def timeoutHandler (cfg : Config) (results : List (Nat × ProverUpdate))
    (query : Nat → Option ProverResult) : Procedure Exn State := fun s =>
  let updates := if s.proverTasksInProgress.isEmpty then [] else results
  ((iter handleUpdate updates).andThen fun s =>
    let edited := if cfg.blocking then [] else s.proverTasksEdited
    let kept := if cfg.blocking then s.proverTasksEdited else []
    ((iter (handleEditor query) edited).andThen updateObserver)
      { s with proverTasksEdited := kept }) s

def popScheduled (k : SchedPaRec → Procedure Exn State) : Procedure Exn State := fun s =>
  match s.scheduledProofAttempts with
  | [] => (.error .queueEmpty, s)
  | spa :: rest => k spa { s with scheduledProofAttempts := rest }

def idleHandler (cfg : Config) (sessionMaxTasks : Nat) (env : BuildEnv) : Procedure Exn State :=
  fun s =>
    let body : Procedure Exn State :=
      if cfg.blocking || s.proverTasksInProgress.length < cfg.multiplier * sessionMaxTasks then
        popScheduled fun spa => (buildProverCall env spa).handle fun e =>
          if cfg.stackTrace then none else some (spa.spaCallback.call (.internalFailure e))
      else .skip
    ((body.handle fun e =>
      if e = .queueEmpty then some (.update fun s => { s with idleHandlerRunning := false })
      else none).andThen updateObserver) s

def interrupt : Procedure Exn State := fun s =>
  ((iter (fun e : TasksProgRec => e.tpCallback.call .interrupted)
    s.proverTasksInProgress).andThen <|
    (update fun s =>
      { s with proverTasksInProgress := [], numberOfRunningProvers := 0 }).andThen <|
    (iter (fun _ => popScheduled fun spa => spa.spaCallback.call .interrupted)
      s.scheduledProofAttempts).andThen <|
    .update fun s => { s with observed := (0, 0, 0) :: s.observed }) s

def runIdleHandler : Procedure Exn State := .update fun s =>
  { s with idleHandlerRunning := true, timeoutHandlerRunning := true }

/-- A request for a proof attempt, with what the session and the controller have
for it: the attempt there is already and whether its prover is interactive. -/
structure Request where
  id : Nat
  pr : String
  saveTo : Option String
  limit : ResourceLimit
  panid : Nat
  old : Option (ProofAttemptNode × Bool)
  scriptPath : String → String

def scheduleProofAttempt (r : Request) : Procedure Exn State := fun s =>
  let useSteps : Bool := r.limit.limitSteps ≠ emptyLimit.limitSteps
  let (adaptLimit, ores, script) : ResourceLimit × Option ProverResult × Option String :=
    match r.old with
    | some (a, interactive) =>
      (adaptLimits interactive useSteps r.limit a, a.proofState,
        if r.saveTo = none then a.proofScript.map r.scriptPath else r.saveTo)
    | none => (r.limit, none, r.saveTo)
  let spa : SchedPaRec :=
    { spaId := r.id
      spaPr := r.pr
      spaLimit := adaptLimit
      spaPrScr := script
      spaCallback := ⟨s.nextAttempt, r.panid⟩
      spaOres := ores }
  ((update fun s =>
    { s with
      nextAttempt := s.nextAttempt + 1
      scheduledProofAttempts := s.scheduledProofAttempts ++ [spa] }).andThen <|
    (spa.spaCallback.call .scheduled).andThen runIdleHandler) s

/-- An edition of a proof script by an editor process. -/
def scheduleEdition (panid pid : Nat) (oldRes : Option ProverResult) : Procedure Exn State :=
  .update fun s =>
    { s with
      nextEdition := s.nextEdition + 1
      editLog := (s.nextEdition, .running) :: s.editLog
      proverTasksEdited := s.proverTasksEdited ++ [⟨⟨s.nextEdition, panid⟩, pid, oldRes⟩]
      idleHandlerRunning := true
      timeoutHandlerRunning := true }

end Scheduler
end Why3
