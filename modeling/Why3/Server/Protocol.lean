import Why3.Library.RingQueue

/-!
Requests, messages and buffers of the prover server.

Bytes are characters and a C string ends before its first zero byte. A request
is a line of fields separated by semicolons. A copy of bytes between overlapping
parts of a buffer copies them from the first to the last.
-/
namespace Why3
namespace Server

abbrev Text := List Char

def nul : Char := Char.ofNat 0

def cstr (s : Text) : Text := s.takeWhile (· ≠ nul)

/-- Equality of two C strings up to `n` characters. -/
def strncmpEq (a b : Text) (n : Nat) : Bool := (a ++ [nul]).take n = (b ++ [nul]).take n

def digitsValue (s : Text) : Nat :=
  s.foldl (fun n c => 10 * n + (c.toNat - '0'.toNat)) 0

/-- The value is clamped to a `long` and then cut to an `int`. -/
def atoi (s : Text) : Int :=
  let s := s.dropWhile Char.isWhitespace
  let (negative, s) := match s with
    | '-' :: s => (true, s)
    | '+' :: s => (false, s)
    | s => (false, s)
  let n : Int := digitsValue (s.takeWhile Char.isDigit)
  let n := if negative then max (-n) (-(2 ^ 63)) else min n (2 ^ 63 - 1)
  (n + 2 ^ 31) % 2 ^ 32 - 2 ^ 31

/-! Requests. -/

inductive RequestType where
  | reqRun
  | reqInterrupt
deriving DecidableEq, Repr

structure Request where
  key : Nat
  reqType : RequestType
  id : Text
  timeout : Int
  memlimit : Int
  usestdin : Bool
  cmd : Text
  args : List Text
deriving DecidableEq, Repr

def countSemicolons (buf : Text) : Nat := buf.count ';'

/-- The field that starts at `begin` and the position after its semicolon, or 0
when the field is the last one. -/
def copyUpToSemicolon (buf : Text) (begin : Nat) : Text × Nat :=
  let field := (buf.drop begin).takeWhile (· ≠ ';')
  let i := begin + field.length
  (cstr field, if i = buf.length then 0 else i + 1)

def copyArgs (buf : Text) : Nat → Nat → List Text
  | 0, _ => []
  | n + 1, pos =>
    let (arg, pos) := copyUpToSemicolon buf pos
    arg :: copyArgs buf n pos

/-- A `parallel` request has no answer and changes the limit. -/
def parseRequest (strReq : Text) (key : Nat) (parallel : Int) : Option Request × Int :=
  let semic := countSemicolons strReq
  if semic = 0 then (none, parallel)
  else if semic = 1 then
    let (tmp, pos) := copyUpToSemicolon strReq 0
    let (arg, _) := copyUpToSemicolon strReq pos
    if strncmpEq tmp "parallel".toList pos then
      (none, if 1 ≤ atoi arg then atoi arg else parallel)
    else if strncmpEq tmp "interrupt".toList pos then
      (some ⟨key, .reqInterrupt, arg, 0, 0, false, [], []⟩, parallel)
    else (none, parallel)
  else if semic < 4 then (none, parallel)
  else
    let (tmp, pos) := copyUpToSemicolon strReq 0
    let isRun := strncmpEq tmp "run".toList pos
    if isRun || strncmpEq tmp "runstdin".toList pos then
      let (id, pos) := copyUpToSemicolon strReq pos
      let (timeout, pos) := copyUpToSemicolon strReq pos
      let (memlimit, pos) := copyUpToSemicolon strReq pos
      let (cmd, pos) := copyUpToSemicolon strReq pos
      (some ⟨key, .reqRun, id, atoi timeout, atoi memlimit % 2 ^ 32, !isRun, cmd,
        copyArgs strReq (semic - 4) pos⟩, parallel)
    else (none, parallel)

/-- The lines of a read buffer that are complete and what follows the last. -/
def completeLines (line : Text) : Text → List Text × Text
  | [] => ([], line)
  | c :: buf =>
    if c = '\n' then
      let (lines, rest) := completeLines [] buf
      (line :: lines, rest)
    else completeLines (line ++ [c]) buf

/-! Messages. -/

def startedText (id : Text) : Text := ['S', ';'] ++ id ++ ['\n']

/-- A processor time in hundredths of a second. -/
structure CpuTime where
  centis : Nat
  lt : centis < 10 ^ 14
deriving DecidableEq, Repr

def CpuTime.text (t : CpuTime) : Text :=
  (Nat.repr (t.centis / 100)).toList ++ ['.'] ++ (Nat.repr (t.centis % 100 / 10)).toList ++
    (Nat.repr (t.centis % 10)).toList

def finishedText (id : Text) (exitcode : Nat) (cpuTime : CpuTime) (timeout : Bool)
    (outfile : Text) : Text :=
  ['F', ';'] ++ id ++ [';'] ++ (Nat.repr exitcode).toList ++ [';'] ++ cpuTime.text ++ [';'] ++
    [if timeout then '1' else '0'] ++ [';'] ++ outfile ++ ['\n']

/-! Write buffers. -/

structure Writebuf where
  data : Option Text
  len : Nat
  pointer : Nat
  isWriting : Bool
  writequeue : RingQueue Text

def Writebuf.init (capacity : Nat) (h : 0 < capacity) : Writebuf :=
  ⟨none, 0, 0, false, .init capacity h⟩

variable (b : Writebuf)

def Writebuf.canWrite : Bool := !b.isWriting

def Writebuf.hasWriteData : Bool := b.data.isSome

/-- The bytes to write, when the two assertions hold. -/
def Writebuf.prepareWrite : Option (Text × Writebuf) :=
  match b.data with
  | some data =>
    if b.canWrite then some (data.drop b.pointer, { b with isWriting := true }) else none
  | none => none

def Writebuf.haveWritten (size : Nat) : Option Writebuf :=
  if b.isWriting ∧ b.pointer + size ≤ b.len then
    if b.pointer + size < b.len then
      some { b with isWriting := false, pointer := b.pointer + size }
    else
      match b.writequeue.pop with
      | some (data, queue) => some ⟨some data, data.length, 0, false, queue⟩
      | none => some ⟨none, 0, 0, false, b.writequeue⟩
  else none

def Writebuf.pushWriteData (data : Text) : Writebuf :=
  if b.hasWriteData then { b with writequeue := b.writequeue.push data }
  else { b with data := some data, pointer := 0, len := data.length }

end Server
end Why3
