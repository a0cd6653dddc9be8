import Why3.Server.Protocol

/-!
The output of one client: its write buffer and what its entry of the poll list asks for.
-/
namespace Why3
namespace Server

structure Output where
  writebuf : Writebuf
  pollout : Bool

def Output.init (capacity : Nat) (h : 0 < capacity) : Output := ⟨.init capacity h, false⟩

def Output.queueWrite (o : Output) (msg : Text) : Output :=
  ⟨o.writebuf.pushWriteData msg, true⟩

/-- The bytes that a write asks the kernel to transmit. -/
def Output.request (o : Output) : Nat := o.writebuf.len - o.writebuf.pointer

/-- A write transmits some of the bytes or fails. There is no result when an assertion
fails. -/
def Output.writeToClient (o : Output) (res : Option Nat) : Option (Output × Text) :=
  match o.writebuf.prepareWrite with
  | none => none
  | some (buf, writebuf) =>
    let done : Option (Writebuf × Text) := match res with
      | none => some (writebuf, [])
      | some n => (writebuf.haveWritten n).map fun b => (b, buf.take n)
    done.map fun (writebuf, bytes) => (⟨writebuf, writebuf.hasWriteData && o.pollout⟩, bytes)

end Server
end Why3
