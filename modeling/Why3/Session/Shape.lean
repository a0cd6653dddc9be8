import Why3.Driver.ProveClient

/-!
Shapes of goals as they are written in a session. The parser keeps the last shape and shares the
end that the next one has in common with it.
-/
namespace Why3
namespace Shape

open ProveClient (intOfString revSplit stringOfInt)
open Server (Text)

inductive SumShapeVersion where
  | sv1 | sv2 | sv3 | sv4 | sv5 | sv6
deriving DecidableEq

def isBoundSumShapeVersion (v : SumShapeVersion) : Bool := v = .sv6

inductive ShapeV where
  | oldShape (s : Text)
  | boundShape (l : List Int)
deriving DecidableEq

def stringOfShape : ShapeV → Text
  | .oldShape s => s
  | .boundShape l => ['H'].intercalate (l.map stringOfInt)

/-- The list without its first `n` elements, if it has as many. -/
def chop : Int → List Int → Option (List Int)
  | n, [] => if n = 0 then some [] else none
  | n, x :: l => if n = 0 then some (x :: l) else if n < 0 then none else chop (n - 1) l

/-- The number of integers at the start of the fields that are those of `c`, and the fields from
the first other one on. Fields that are no integers are skipped. -/
def aux : List Int → List Text → Int → Int × List Text
  | hc :: tc, hs :: ts, n =>
    match intOfString 63 hs with
    | some x => if x = hc then aux tc ts (n + 1) else (n, hs :: ts)
    | none => aux (hc :: tc) ts n
  | _, s, n => (n, s)

/-- The end of the cache that is not longer than `ls`, with its length. -/
def cacheFor (cache : List Int) (ls : Int) : Option (List Int × Int) :=
  if ls < cache.length then (chop (cache.length - ls) cache).map (·, ls)
  else some (cache, cache.length)

def addInt (acc : List Int) (x : Text) : List Int :=
  match intOfString 63 x with
  | some i => i :: acc
  | none => acc

/-- The shape and the new cache. -/
def shapeOfString (cache : List Int) (version : SumShapeVersion) (s : Text) :
    Option (ShapeV × List Int) :=
  if isBoundSumShapeVersion version then do
    let s := revSplit 'H' s
    let (c, lc) ← cacheFor cache s.length
    let (common, remaining) := aux c.reverse s 0
    let common ← chop (lc - common) c
    let s := remaining.foldl addInt common
    some (.boundShape s, s)
  else some (.oldShape s, cache)

/-- The results of calls one after the other. -/
def shapesOfStrings (version : SumShapeVersion) : List Int → List Text → Option (List ShapeV)
  | _, [] => some []
  | cache, s :: ss => do
    let (shape, cache) ← shapeOfString cache version s
    let shapes ← shapesOfStrings version cache ss
    some (shape :: shapes)

end Shape
end Why3
