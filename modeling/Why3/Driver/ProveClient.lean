import Why3.Server.Protocol

/-!
The client of the prover server: requests are written as lines, answers are read from
chunks of bytes.

A read returns some of the bytes that the server sent, or none when no byte is there.
What `float_of_string` returns is a parameter.
-/
namespace Why3
namespace ProveClient

open Server

/-! Numbers. -/

def stringOfInt : Int → Text
  | .ofNat n => (Nat.repr n).toList
  | .negSucc n => '-' :: (Nat.repr (n + 1)).toList

def digitVal (c : Char) : Option Nat :=
  if c.isDigit then some (c.toNat - '0'.toNat)
  else if 'a' ≤ c ∧ c ≤ 'f' then some (c.toNat - 'a'.toNat + 10)
  else if 'A' ≤ c ∧ c ≤ 'F' then some (c.toNat - 'A'.toNat + 10)
  else none

def readDigits (base : Nat) : Nat → Text → Option Nat
  | n, [] => some n
  | n, c :: s =>
    if c = '_' then readDigits base n s
    else match digitVal c with
      | some d => if d < base then readDigits base (base * n + d) s else none
      | none => none

def signOf : Text → Bool × Text
  | '-' :: s => (true, s)
  | '+' :: s => (false, s)
  | s => (false, s)

/-- The base of a number and whether its range is that of signed numbers. -/
def baseOf : Text → Nat × Bool × Text
  | '0' :: 'x' :: s | '0' :: 'X' :: s => (16, false, s)
  | '0' :: 'o' :: s | '0' :: 'O' :: s => (8, false, s)
  | '0' :: 'b' :: s | '0' :: 'B' :: s => (2, false, s)
  | '0' :: 'u' :: s | '0' :: 'U' :: s => (10, false, s)
  | s => (10, true, s)

/-- `int_of_string` and its variant for other sizes. -/
def intOfString (bits : Nat) (s : Text) : Option Int :=
  let (negative, s) := signOf s
  let (base, signed, s) := baseOf s
  if s.head? = none ∨ s.head? = some '_' then none
  else match readDigits base 0 s with
    | none => none
    | some n =>
      let z : Int := if negative then -n else n
      if signed then
        if -(2 ^ (bits - 1)) ≤ z ∧ z < 2 ^ (bits - 1) then some z else none
      else if n < 2 ^ bits then some ((z + 2 ^ (bits - 1)) % 2 ^ bits - 2 ^ (bits - 1))
      else none

/-! Requests. -/

def sendRequest (id timelimit memlimit : Int) (useStdin : Option Text) (cmd : List Text) : Text :=
  (if useStdin.isSome then "runstdin;" else "run;").toList ++ stringOfInt id ++ [';'] ++
    stringOfInt timelimit ++ [';'] ++ stringOfInt memlimit ++ cmd.flatMap (';' :: ·) ++
    (match useStdin with
      | none => []
      | some s => ';' :: s) ++ ['\n']

def sendInterrupt (id : Int) : Text := "interrupt;".toList ++ stringOfInt id ++ ['\n']

/-- The argument must be positive. -/
def setMaxRunningProvers (x : Int) : Option Text :=
  if x ≤ 0 then none else some ("parallel;".toList ++ stringOfInt x ++ ['\n'])

/-! Answers. -/

def revSplitFrom (c : Char) (acc : List Text) (cur : Text) : Text → List Text
  | [] => cur :: acc
  | x :: s => if x = c then revSplitFrom c (cur :: acc) [] s else revSplitFrom c acc (cur ++ [x]) s

def revSplit (c : Char) (s : Text) : List Text := revSplitFrom c [] [] s

def split (c : Char) (s : Text) : List Text := (revSplit c s).reverse

def join (sep : Text) : List Text → Text
  | [] => []
  | [x] => x
  | x :: rest => x ++ sep ++ join sep rest

inductive ClientError where
  | assertFalse
  | invalidAnswer (s : Text)
  | failure (msg : String)
deriving DecidableEq, Repr

/-- The complete lines, what is kept for the next call, and the reads that were not
made. -/
def readLines (recvBuf : Text) : List Text → Except ClientError (List Text × Text × List Text)
  | [] => .ok ([], recvBuf, [])
  | s :: reads =>
    if s = [] then .ok ([], recvBuf, reads)
    else if '\n' ∈ s then
      match revSplit '\n' (recvBuf ++ s) with
      | [] => .error .assertFalse
      | [x] => .ok ([x], [], reads)
      | x :: xs =>
        if x = [] then .ok (xs.reverse, [], reads)
        else if x.getLast? = some '\n' then .ok ((x :: xs).reverse, [], reads)
        else .ok (xs.reverse, x, reads)
    else readLines (recvBuf ++ s) reads

structure FinalAnswer (F : Type) where
  id : Int
  time : F
  timeout : Bool
  outFile : Text
  exitCode : Int
deriving DecidableEq, Repr

inductive Answer (F : Type) where
  | started (id : Int)
  | finished (a : FinalAnswer F)
deriving DecidableEq, Repr

section Read

variable {F : Type} (floatOfString : Text → Option F)

def readAnswer (s : Text) : Except ClientError (Answer F) :=
  match split ';' s with
  | ['F'] :: id :: exitS :: timeS :: timeoutS :: r :: rest =>
    -- the name of the file is the rest of the line
    match intOfString 64 exitS, floatOfString timeS, intOfString 63 id with
    | none, _, _ => .error (.failure "Int64.of_string")
    | some _, none, _ => .error (.failure "float_of_string")
    | some _, some _, none => .error (.invalidAnswer s)
    | some exitCode, some time, some id =>
      .ok (.finished ⟨id, time, timeoutS = ['1'], join [';'] (r :: rest), exitCode⟩)
  | [['S'], id] =>
    match intOfString 63 id with
    | none => .error (.invalidAnswer s)
    | some id => .ok (.started id)
  | _ => .error (.invalidAnswer s)

def readAnswers (recvBuf : Text) (reads : List Text) :
    Except ClientError (List (Answer F) × Text × List Text) := do
  let (lines, recvBuf, reads) ← readLines recvBuf reads
  let answers ← (lines.filter (· ≠ [])).mapM (readAnswer floatOfString)
  .ok (answers, recvBuf, reads)

/-- The answers of some successive calls. -/
def readAnswersN (recvBuf : Text) (reads : List Text) :
    Nat → Except ClientError (List (Answer F) × Text × List Text)
  | 0 => .ok ([], recvBuf, reads)
  | n + 1 => do
    let (answers, recvBuf, reads) ← readAnswers floatOfString recvBuf reads
    let (answers', recvBuf, reads) ← readAnswersN recvBuf reads n
    .ok (answers ++ answers', recvBuf, reads)

end Read

end ProveClient
end Why3
