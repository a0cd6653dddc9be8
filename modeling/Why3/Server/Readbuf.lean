import Why3.Server.Protocol

/-!
The read buffer of a client.

A read appends bytes to the buffer; the complete lines at its start are handled as
requests and taken off by moving the rest to the front. The move is a `memcpy`, which is
defined for ranges that do not overlap only.
-/
namespace Why3
namespace Server

structure Readbuf where
  capacity : Nat
  /-- The bytes that were read and not yet taken. -/
  data : Text
  fits : data.length ≤ capacity

def Readbuf.init (capacity : Nat) : Readbuf := ⟨capacity, [], Nat.zero_le _⟩

def Readbuf.len (b : Readbuf) : Nat := b.data.length

inductive ReadbufError where
  | assertion
  | overlap
deriving DecidableEq, Repr

def Readbuf.prepareRead (b : Readbuf) (size : Nat) : Readbuf :=
  if b.len + size > b.capacity then
    ⟨(b.capacity + size) * 2, b.data, Nat.le_trans b.fits (by omega)⟩
  else b

def Readbuf.haveRead (b : Readbuf) (bytes : Text) : Except ReadbufError Readbuf :=
  if h : b.capacity ≥ b.len + bytes.length then
    .ok ⟨b.capacity, b.data ++ bytes, by rwa [List.length_append]⟩
  else .error .assertion

/-- Whether a copy of `n` bytes from `size` on to the front has overlapping ranges. -/
def overlaps (size n : Nat) : Bool := size < n

def Readbuf.haveTaken (b : Readbuf) (size : Nat) : Except ReadbufError Readbuf :=
  if size ≤ b.len then
    if overlaps size (b.len - size) then .error .overlap
    else .ok ⟨b.capacity, b.data.drop size, by
      rw [List.length_drop]
      exact Nat.le_trans (Nat.sub_le _ _) b.fits⟩
  else .error .assertion

/-- What a call of `parse_request` returns, and the limit after it. -/
abbrev ParseCall := Option Request × Int

/-- The position of the next newline, or the end of the buffer. -/
def nextNewline (buf : Text) (cur : Nat) : Nat :=
  cur + ((buf.drop cur).takeWhile (· ≠ '\n')).length

/-- The requests from the position `old` on, and the position after the last. -/
def handleLoop (key : Nat) (buf : Text) : Nat → Nat → Int → List ParseCall × Nat
  | 0, old, _ => ([], old)
  | fuel + 1, old, parallel =>
    let cur := nextNewline buf old
    if cur = buf.length then ([], old)
    else
      let r := parseRequest ((buf.drop old).take (cur - old)) key parallel
      let (rs, old) := handleLoop key buf fuel (cur + 1) r.2
      (r :: rs, old)

/-- The limit after some calls. -/
def parallelAfter (parallel : Int) (calls : List ParseCall) : Int :=
  calls.foldl (fun _ c => c.2) parallel

/-- Each turn of the loop goes beyond a byte of the buffer. -/
def Readbuf.handleMsg (b : Readbuf) (key : Nat) (parallel : Int) :
    Except ReadbufError (List ParseCall × Readbuf) := do
  let (calls, old) := handleLoop key b.data b.len 0 parallel
  if old > 0 then do
    let b ← b.haveTaken old
    .ok (calls, b)
  else .ok (calls, b)

def readOnce : Nat := 1024

def Readbuf.readOnClient (b : Readbuf) (key : Nat) (parallel : Int) (bytes : Text) :
    Except ReadbufError (List ParseCall × Readbuf) := do
  let b ← (b.prepareRead readOnce).haveRead bytes
  b.handleMsg key parallel

/-- The reads on a client, one for each chunk. -/
def Readbuf.readChunks (b : Readbuf) (key : Nat) (parallel : Int) :
    List Text → Except ReadbufError (List ParseCall × Readbuf)
  | [] => .ok ([], b)
  | bytes :: chunks => do
    let (calls, b) ← b.readOnClient key parallel bytes
    let (calls', b) ← b.readChunks key (parallelAfter parallel calls) chunks
    .ok (calls ++ calls', b)

end Server
end Why3
