import Why3.Core.StoredMap
import Why3.Core.TermCompare

/-!
Maps over the immediate subformulas of a formula by their polarity.

A subformula of an equivalence, or the condition of a conditional, has both polarities. The
connective is kept when the function gives equal formulas for the two and is expanded otherwise.
The constructors check that they are given formulas, and the map over the subterms checks that
the function keeps the types.
-/
namespace Why3
namespace Stored

inductive MapError where
  | termExpected (t : STerm)
  | fmlaExpected (t : STerm)
  | typeMismatch (ty1 ty2 : Ty)
  | compare (e : CompExn)
  | failure (msg : String)

def tProp (f : STerm) : Except MapError STerm :=
  if tTy f = none then .ok f else .error (.fmlaExpected f)

def tTyCheck (t : STerm) (ty : Option Ty) : Except MapError Unit :=
  match ty, tTy t with
  | some l, some r => if l = r then .ok () else .error (.typeMismatch l r)
  | some _, none => .error (.termExpected t)
  | none, some _ => .error (.fmlaExpected t)
  | none, none => .ok ()

def tBinary (op : Binop) (f1 f2 : STerm) : Except MapError STerm := do
  let f1 ← tProp f1
  let f2 ← tProp f2
  .ok (.tbinop ∅ op f1 f2)

def tNot (f : STerm) : Except MapError STerm := do
  let f ← tProp f
  .ok (.tnot ∅ f)

def tIf (f t1 t2 : STerm) : Except MapError STerm := do
  tTyCheck t2 (tTy t1)
  let f ← tProp f
  .ok (.tif ∅ f t1 t2)

def tAnd : STerm → STerm → Except MapError STerm := tBinary .tand

def tOr : STerm → STerm → Except MapError STerm := tBinary .tor

def tImplies : STerm → STerm → Except MapError STerm := tBinary .timplies

def tIff : STerm → STerm → Except MapError STerm := tBinary .tiff

section Map

variable (phys : STerm → STerm → Bool) (tyTag : Ty → Nat)

def tEqual (t1 t2 : STerm) : Except MapError Bool :=
  match tCompare phys tyTag t1 t2 with
  | .ok o => .ok (o == .eq)
  | .error e => .error (.compare e)

/-- The accumulator is the first check that has failed. -/
def checked (fn : STerm → STerm) (acc : Except MapError Unit) (t : STerm) :
    Except MapError Unit × STerm :=
  (acc >>= fun _ => tTyCheck (fn t) (tTy t), fn t)

def tMapChecked (fn : STerm → STerm) (k : Nat) (t : STerm) : Except MapError STerm :=
  let r := tMapFold phys (checked fn) k (.ok ()) t
  r.1.map fun _ => r.2

variable (fn : Bool → STerm → STerm) (sign : Bool)

/-- The second comparison is made only when the first one answers yes. -/
def bothEqual (f1p f1n f2p f2n : STerm) : Except MapError Bool := do
  let same ← tEqual phys tyTag f1p f1n
  if same then tEqual phys tyTag f2p f2n else .ok false

def mapSignIff (f1 f2 : STerm) : Except MapError STerm := do
  let f1p := fn sign f1
  let f1n := fn (!sign) f1
  let f2p := fn sign f2
  let f2n := fn (!sign) f2
  let same ← bothEqual phys tyTag f1p f1n f2p f2n
  if same then tIff f1p f2p
  else if sign then do
    let g1 ← tImplies f1n f2p
    let g2 ← tImplies f2n f1p
    tAnd g1 g2
  else do
    let g1 ← tOr f1n f2n
    let g2 ← tAnd f1p f2p
    tImplies g1 g2

def mapSignIf (f1 f2 f3 : STerm) : Except MapError STerm := do
  let f1p := fn sign f1
  let f1n := fn (!sign) f1
  let f2 := fn sign f2
  let f3 := fn sign f3
  let same ← tEqual phys tyTag f1p f1n
  if same then tIf f1p f2 f3
  else if sign then do
    let g1 ← tImplies f1n f2
    let n1 ← tNot f1p
    let g2 ← tImplies n1 f3
    tAnd g1 g2
  else do
    let g1 ← tAnd f1p f2
    let n1 ← tNot f1n
    let g2 ← tAnd n1 f3
    tOr g1 g2

def mapSignNode (k : Nat) (f : STerm) : Except MapError STerm :=
  match f with
  | .tbinop _ .timplies f1 f2 => tImplies (fn (!sign) f1) (fn sign f2)
  | .tbinop _ .tiff f1 f2 => mapSignIff phys tyTag fn sign f1 f2
  | .tnot _ f1 => tNot (fn (!sign) f1)
  | .tif _ f1 f2 f3 =>
    if tTy f = none then mapSignIf phys tyTag fn sign f1 f2 f3
    else .error (.failure "t_map_sign: cannot determine polarity")
  | .teps _ _ _ _ => .error (.failure "t_map_sign: cannot determine polarity")
  | _ => tMapChecked phys (fn sign) k f

/-- The tags of the fresh symbols start at `k`. -/
def tMapSign (k : Nat) (f : STerm) : Except MapError STerm :=
  (mapSignNode phys tyTag fn sign k f).map (tAttrCopy f)

end Map

end Stored
end Why3
