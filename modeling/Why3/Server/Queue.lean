import Why3.Library.Except
import Why3.Server.Protocol

/-!
The queue of the server as C runs it: the fields are unsigned integers of 32 bits and may wrap
around. What C leaves undefined is a fault.
-/
namespace Why3
namespace Queue

open Server (Request Text)

def unsigned (n : Int) : Nat := (n % 2 ^ 32).toNat

structure Pqueue (α : Type) where
  data : Nat → Option α
  pointer : Nat
  len : Nat
  capacity : Nat

inductive Fault where
  | assertion
  | undefined
deriving DecidableEq

variable {α : Type}

def initQueue (capacity : Nat) : Except Fault (Pqueue α) :=
  if 0 < capacity then .ok ⟨fun _ => none, 0, 0, capacity⟩ else .error .assertion

def queuePop (q : Pqueue α) : Except Fault (α × Pqueue α) :=
  if q.len = 0 then .error .assertion
  else
    match q.data q.pointer with
    | none => .error .undefined
    | some tmp =>
      .ok (tmp, { q with len := q.len - 1, pointer := unsigned (q.pointer + 1) % q.capacity })

def simplePush (q : Pqueue α) (elt : α) : Pqueue α :=
  let i := unsigned (q.pointer + q.len) % q.capacity
  { q with data := fun j => if j = i then some elt else q.data j, len := unsigned (q.len + 1) }

/-- The cells from the pointer on are copied to the end of the new array. Both the cells and
their copies must be in it. -/
def resizeQueue (q : Pqueue α) : Except Fault (Pqueue α) :=
  let newCap := unsigned (2 * q.capacity)
  let newP := unsigned (newCap - q.capacity + q.pointer)
  if newCap < q.capacity ∨ newCap < newP + (q.capacity - q.pointer) then .error .undefined
  else .ok ⟨RingQueue.copied q.data newP q.pointer (q.capacity - q.pointer), newP, q.len, newCap⟩

def queuePush (q : Pqueue α) (elt : α) : Except Fault (Pqueue α) := do
  let q ← if q.len = q.capacity then resizeQueue q else .ok q
  .ok (simplePush q elt)

def pushIf (keep : α → Bool) (tmp : Pqueue α) (r : α) : Except Fault (Pqueue α) :=
  if keep r then queuePush tmp r else .ok tmp

/-- A loop that empties a queue into another; it runs as often as the first is long. -/
def popAll (keep : α → Bool) : Nat → Pqueue α × Pqueue α → Except Fault (Pqueue α × Pqueue α)
  | 0, qs => .ok qs
  | n + 1, (q, tmp) => do
    let (r, q) ← queuePop q
    let tmp ← pushIf keep tmp r
    popAll keep n (q, tmp)

def removeFromQueue (id : Text) (queue : Pqueue Request) : Except Fault (Pqueue Request) := do
  let tmp ← initQueue queue.capacity
  let (queue, tmp) ← popAll (fun r => r.id ≠ id) queue.len (queue, tmp)
  let (tmp, queue) ← popAll (fun _ => true) tmp.len (tmp, queue)
  if tmp.len = 0 then .ok queue else .error .assertion

inductive Op where
  | push (r : Request)
  | pop
  | remove (id : Text)

/-- One operation, with the requests popped so far. -/
def exec : List Request × Pqueue Request → Op → Except Fault (List Request × Pqueue Request)
  | (out, q), .push r => do
    let q ← queuePush q r
    .ok (out, q)
  | (out, q), .pop => do
    let (r, q) ← queuePop q
    .ok (out ++ [r], q)
  | (out, q), .remove id => do
    let q ← removeFromQueue id q
    .ok (out, q)

def run (capacity : Nat) (ops : List Op) : Except Fault (List Request × Pqueue Request) := do
  let q ← initQueue capacity
  ops.foldlM exec ([], q)

end Queue
end Why3
