import Why3.Core.Ty
import Why3.Library.Linked
import Why3.Library.MultiTable
import Why3.Util.Pqueue

/-!
Pairing of the goals of an old session with new ones.

Goals of equal checksums are paired first. The others are put in the order of their
shapes into a doubly linked list, and neighbours of the two sides are paired, those of
the most similar shapes first. A node of the list is named by its goal, since no goal
has two nodes. Strings are lists of bytes.
-/
namespace Why3
namespace Pairing

inductive Exn where
  | assertFailure
  | indexOutOfBounds
  | outOfFuel
deriving DecidableEq, Repr

abbrev Shape := List UInt8 × List Int

structure GoalSig (χ α : Type) where
  checksum : α → Option χ
  shape : α → Shape
  name : α → Ident

def lcp : List UInt8 → List UInt8 → Nat
  | a :: s1, b :: s2 => if a = b then lcp s1 s2 + 1 else 0
  | _, _ => 0

def countSameSorted (n : Nat) : List Int → List Int → Nat
  | hd1 :: tl1, hd2 :: tl2 =>
    if hd1 < hd2 then countSameSorted n tl1 (hd2 :: tl2)
    else if hd1 > hd2 then countSameSorted n (hd1 :: tl1) tl2
    else countSameSorted (n + 1) tl1 tl2
  | _, _ => n
termination_by l1 l2 => l1.length + l2.length

def lcpList (s1 s2 : Shape) : Nat × Nat := (lcp s1.1 s2.1, countSameSorted 0 s1.2 s2.2)

inductive GoalIndex where
  | old (i : Nat)
  | new (i : Nat)
deriving DecidableEq, Repr

/-- The result: each new goal with an old one, and whether that one is obsolete. -/
abbrev Result (α β : Type) := List (β × Option (α × Bool))

/-- The queue: pairs of neighbours with the likeness of their shapes. -/
abbrev Entry := (Nat × Nat) × (GoalIndex × GoalIndex)

/-- Larger numbers come first. -/
def compareEntry (e1 e2 : Entry) : Ordering :=
  (compare e2.1.1 e1.1.1).then (compare e2.1.2 e1.1.2)

def compareShape (s1 s2 : Shape) : Ordering := (compare s1.1 s2.1).then (compare s1.2 s2.2)

structure Nodes where
  links : Linked GoalIndex
  valid : GoalIndex → Bool

def Nodes.remove (s : Nodes) (x : GoalIndex) : Nodes :=
  ⟨s.links.remove x, Function.update s.valid x false⟩

section

variable {χ α β : Type} [DecidableEq χ] (Old : GoalSig χ α) (New : GoalSig χ β)
  (order : MultiTable.IterOrder χ Nat) (oldgoals : List α) (newgoals : List β)

/-- The shape in a node, with its numbers sorted. -/
def nodeShape (g : GoalIndex) : Shape :=
  let s := match g with
    | .old i => (oldgoals[i]?).map Old.shape
    | .new i => (newgoals[i]?).map New.shape
  let s := s.getD ([], [])
  (s.1, s.2.mergeSort (fun a b => a ≤ b))

/-- The position of each new goal, by its name. -/
def newGoalIndex : List (Ident × Nat) :=
  newgoals.zipIdx.foldl (fun t x => MultiTable.add t (New.name x.1) x.2) []

def setResult (result : Result α β) (newi oldi : Nat) (obsolete : Bool) :
    Except Exn (Result α β) :=
  match newgoals[newi]?, oldgoals[oldi]? with
  | some newg, some oldg =>
    match MultiTable.find (newGoalIndex New newgoals) (New.name newg) with
    | some i => .ok (result.set i (newg, some (oldg, obsolete)))
    | none => .error .assertFailure
  | _, _ => .error .indexOutOfBounds

/-- The old goals by their checksums, and those that have none. -/
def oldChecksums : List (χ × Nat) × List GoalIndex :=
  oldgoals.zipIdx.foldl (fun s x =>
    match Old.checksum x.1 with
    | none => (s.1, .old x.2 :: s.2)
    | some c => (MultiTable.add s.1 c x.2, s.2)) ([], [])

structure Phase1 (χ α β : Type) where
  table : List (χ × Nat)
  acc : List GoalIndex
  result : Result α β

/-- A new goal takes the last old goal of its checksum, if one is left. -/
def pairExact (x : β × Nat) (s : Phase1 χ α β) : Except Exn (Phase1 χ α β) :=
  match (New.checksum x.1).bind fun c => (MultiTable.find s.table c).map fun oldi => (c, oldi) with
  | none => .ok { s with acc := .new x.2 :: s.acc }
  | some (c, oldi) => do
    let result ← setResult New oldgoals newgoals s.result x.2 oldi false
    .ok { s with table := MultiTable.remove s.table c, result }

/-- From the last new goal to the first, since the table gives the latest binding. -/
def phase1 : Except Exn (Phase1 χ α β) :=
  let old := oldChecksums Old oldgoals
  newgoals.zipIdx.foldrM (pairExact New oldgoals newgoals)
    ⟨old.1, old.2, newgoals.map fun g => (g, none)⟩

/-- All goals that are left, in the order of their shapes. -/
def allgoals (s : Phase1 χ α β) : List GoalIndex :=
  let l := (order.visit s.table).foldl (fun acc b => .old b.2 :: acc) s.acc
  l.mergeSort fun x y =>
    (compareShape (nodeShape Old New oldgoals newgoals x)
      (nodeShape Old New oldgoals newgoals y)).isLE

def addPair (x y : GoalIndex) (pq : List Entry) : List Entry :=
  match x, y with
  | .old _, .new _ | .new _, .old _ =>
    Pqueue.insert compareEntry (lcpList (nodeShape Old New oldgoals newgoals x)
      (nodeShape Old New oldgoals newgoals y), (x, y)) pq
  | .old _, .old _ | .new _, .new _ => pq

structure Phase2 (α β : Type) where
  nodes : Nodes
  pq : List Entry
  result : Result α β

/-- The old and the new goal of two nodes. -/
def oldNew : GoalIndex → GoalIndex → Except Exn (Nat × Nat)
  | .new n, .old o | .old o, .new n => .ok (o, n)
  | _, _ => .error .assertFailure

/-- Two neighbours are paired, and those around them become neighbours. -/
def pairNodes (x y : GoalIndex) (pq : List Entry) (s : Phase2 α β) :
    Except Exn (Phase2 α β) := do
  let (o, n) ← oldNew x y
  let result ← setResult New oldgoals newgoals s.result n o true
  let l := s.nodes.links
  let pq :=
    if l.prev x ≠ x ∧ l.next y ≠ y then
      addPair Old New oldgoals newgoals (l.prev x) (l.next y) pq
    else pq
  .ok ⟨(s.nodes.remove x).remove y, pq, result⟩

def phase2 : Nat → Phase2 α β → Except Exn (Phase2 α β)
  | 0, _ => .error .outOfFuel
  | fuel + 1, s =>
    match Pqueue.extractMin compareEntry s.pq with
    | none => .ok s
    | some ((_, (x, y)), pq) =>
      if s.nodes.valid x && s.nodes.valid y then do
        let s ← pairNodes Old New oldgoals newgoals x y pq s
        phase2 fuel s
      else phase2 fuel { s with pq }

/-- The old goals of the nodes that are still valid. -/
def detached (valid : GoalIndex → Bool) (l : List GoalIndex) : List α :=
  l.foldl (fun acc x =>
    match x with
    | .old i => if valid x then (oldgoals[i]?).toList ++ acc else acc
    | .new _ => acc) []

def shapeAssociate : Except Exn (Result α β × List α) := do
  let s ← phase1 Old New oldgoals newgoals
  let all := allgoals Old New order oldgoals newgoals s
  let pq := Linked.iterPairs (addPair Old New oldgoals newgoals) all []
  -- each round takes a pair out of the queue, or two nodes out of the list
  let s ← phase2 Old New oldgoals newgoals (pq.length + all.length + 1)
    ⟨⟨Linked.build all, fun _ => true⟩, pq, s.result⟩
  .ok (s.result, detached oldgoals s.nodes.valid all)

def simpleAssociate : List α → List β → Result α β → Result α β × List α
  | old, [], acc => (acc, old)
  | [], n :: remN, acc => simpleAssociate [] remN ((n, none) :: acc)
  | o :: remO, n :: remN, acc => simpleAssociate remO remN ((n, some (o, true)) :: acc)

def associate (useShapes : Bool) : Except Exn (Result α β × List α) :=
  if useShapes then shapeAssociate Old New order oldgoals newgoals
  else .ok (simpleAssociate oldgoals newgoals [])

end

end Pairing
end Why3
