import Why3.Driver.ProveClient
import Why3.Library.MultiTable

/-!
Updates of prover calls.

Answers of the server are put in a table, with several bindings for a call if several
answers came in, and polls take them out. The data saved for a call and the parser of
the output of a prover are parameters; removing the files of a call is not modelled.
-/
namespace Why3
namespace CallProvers

open ProveClient

variable {F SaveData Result : Type}

inductive ProverUpdate (Result : Type) where
  | noUpdates
  | proverInterrupted
  | internalFailure (e : String)
  | proverStarted
  | proverFinished (r : Result)
deriving DecidableEq, Repr

inductive ProverCall where
  | serverCall (id : Int)
  | editorCall (pid : Nat)
deriving DecidableEq, Repr

/-- The saved data of the calls, and the buffer of results. -/
structure CallState (SaveData Result : Type) where
  savedData : List (Int × SaveData)
  resultBuffer : List (Int × ProverUpdate Result)

inductive CallError where
  | notFound (id : Int)
deriving DecidableEq, Repr

section Polls

variable (parse : SaveData → FinalAnswer F → Result)

def handleAnswer (saved : List (Int × SaveData)) :
    Answer F → Except CallError ((Int × Option Result) × List (Int × SaveData))
  | .finished a =>
    match MultiTable.find saved a.id with
    | none => .error (.notFound a.id)
    | some save => .ok ((a.id, some (parse save a)), MultiTable.remove saved a.id)
  | .started id => .ok ((id, none), saved)

/-- The answers are handled from the first to the last. -/
def waitForServerResult (saved : List (Int × SaveData)) :
    List (Answer F) → Except CallError (List (Int × Option Result) × List (Int × SaveData))
  | [] => .ok ([], saved)
  | a :: answers => do
    let (r, saved) ← handleAnswer parse saved a
    let (rs, saved) ← waitForServerResult saved answers
    .ok (r :: rs, saved)

def updateOf : Option Result → ProverUpdate Result
  | some r => .proverFinished r
  | none => .proverStarted

def fetchNewResults (st : CallState SaveData Result) (answers : List (Answer F)) :
    Except CallError (CallState SaveData Result) := do
  let (rs, saved) ← waitForServerResult parse st.savedData answers
  .ok ⟨saved, rs.foldl (fun buf r => MultiTable.add buf r.1 (updateOf r.2)) st.resultBuffer⟩

def ProverUpdate.isStarted : ProverUpdate Result → Bool
  | .proverStarted => true
  | _ => false

/-- All results of the buffer, in the reverse of the order in which they are visited. -/
def getNewResults (order : MultiTable.IterOrder Int (ProverUpdate Result)) (blocking : Bool)
    (st : CallState SaveData Result) (answers : List (Answer F)) :
    Except CallError (List (ProverCall × ProverUpdate Result) × CallState SaveData Result) := do
  let st ← fetchNewResults parse st answers
  let q := (order.visit st.resultBuffer).foldl (fun q b =>
    if b.2.isStarted && blocking then q else (.serverCall b.1, b.2) :: q) []
  .ok (q, { st with resultBuffer := [] })

def queryResultBuffer (id : Int) (st : CallState SaveData Result) :
    ProverUpdate Result × CallState SaveData Result :=
  match MultiTable.find st.resultBuffer id with
  | some r => (r, { st with resultBuffer := MultiTable.remove st.resultBuffer id })
  | none => (.noUpdates, st)

/-- The call is one of the server. -/
def queryCall (id : Int) (st : CallState SaveData Result) (answers : List (Answer F)) :
    Except CallError (ProverUpdate Result × CallState SaveData Result) := do
  let st ← fetchNewResults parse st answers
  .ok (queryResultBuffer id st)

end Polls

end CallProvers
end Why3
