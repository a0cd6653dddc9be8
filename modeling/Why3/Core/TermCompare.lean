import Why3.Core.Stored

/-!
Comparison and hashing of stored terms modulo renaming of bound symbols.

Both walk a term with a list of frames, one for each binding around: the levels of its bound
symbols and its deferred substitution. An occurrence of a symbol is looked up in the frames
from the inside. The flags are the default ones: attributes, locations and triggers are not
compared, constants are compared with their form.

Types are hash-consed; their tags are a parameter, and so is physical equality.
-/
namespace Why3
namespace Stored

/-! Orders of the parts. -/

def vsCompare (v1 v2 : VSymbol) : Ordering := compare v1.vsName.idTag v2.vsName.idTag

def lsCompare (s1 s2 : LSymbol) : Ordering := compare s1.lsName.idTag s2.lsName.idTag

def otyCompare (tyTag : Ty → Nat) : Option Ty → Option Ty → Ordering
  | none, none => .eq
  | none, some _ => .lt
  | some _, none => .gt
  | some ty1, some ty2 => compare (tyTag ty1) (tyTag ty2)

def intKindRank : IntLiteralKind → Nat
  | .ilitUnk => 0
  | .ilitDec => 1
  | .ilitHex => 2
  | .ilitOct => 3
  | .ilitBin => 4

/-- A constructor without argument comes first. -/
def realKindCompare : RealLiteralKind → RealLiteralKind → Ordering
  | .rlitUnk, .rlitUnk => .eq
  | .rlitUnk, _ => .lt
  | _, .rlitUnk => .gt
  | .rlitDec n1, .rlitDec n2 => compare n1 n2
  | .rlitDec _, .rlitHex _ => .lt
  | .rlitHex _, .rlitDec _ => .gt
  | .rlitHex n1, .rlitHex n2 => compare n1 n2

def compareReal (r1 r2 : RealValue) : Ordering :=
  (compare r1.rvSig r2.rvSig).then
    ((compare r1.rvPow2 r2.rvPow2).then (compare r1.rvPow5 r2.rvPow5))

def compareConst : Constant → Constant → Ordering
  | .constInt i1, .constInt i2 =>
    (compare (intKindRank i1.ilKind) (intKindRank i2.ilKind)).then (compare i1.ilInt i2.ilInt)
  | .constReal r1, .constReal r2 =>
    (realKindCompare r1.rlKind r2.rlKind).then (compareReal r1.rlReal r2.rlReal)
  | .constStr s1, .constStr s2 =>
    compare (s1.toList.map Char.toNat) (s2.toList.map Char.toNat)
  | .constInt _, _ => .lt
  | _, .constInt _ => .gt
  | .constReal _, .constStr _ => .lt
  | .constStr _, .constReal _ => .gt

def quantRank : Quant → Nat
  | .tforall => 0
  | .texists => 1

def binopRank : Binop → Nat
  | .tand => 0
  | .tor => 1
  | .timplies => 2
  | .tiff => 3

/-! Frames. -/

abbrev Frame := Mvs Nat × Mvs STerm

inductive TermOrBound where
  | trm (t : STerm) (vml : List Frame)
  | bnd (i : Nat)

/-- A symbol is bound at a level, or stands for a deferred term under the frames outside, or
is free. -/
def descend : List Frame → STerm → TermOrBound
  | (bv, vm) :: vml, .tvar a v =>
    match bv.lookup v with
    | some i => .bnd i
    | none => match vm.lookup v with
        | some t => descend vml t
        | none => descend vml (.tvar a v)
  | vml, t => .trm t vml

/-! Comparison. -/

inductive CompExn where
  | compLT
  | compGT
  | invalidArgument
  | notFound
  | outOfFuel
deriving DecidableEq

def compRaise : Ordering → Except CompExn Unit
  | .lt => .error .compLT
  | .gt => .error .compGT
  | .eq => .ok ()

def findLevel (v : VSymbol) (bv : Mvs Nat) : Except CompExn Nat :=
  match bv.lookup v with
  | some i => .ok i
  | none => .error .notFound

/-- The order of the constructors decides between different ones. -/
def patRank : Pattern → Nat
  | .pwild _ => 0
  | .pvar _ => 1
  | .papp _ _ _ => 2
  | .por _ _ => 3
  | .pas _ _ => 4

section OrCmp

variable (bv1 bv2 : Mvs Nat)

mutual
def orCmp : Pattern → Pattern → Except CompExn Unit
  | .pwild _, .pwild _ => .ok ()
  | .pvar v1, .pvar v2 => do
    let i1 ← findLevel v1 bv1
    let i2 ← findLevel v2 bv2
    compRaise (compare i1 i2)
  | .papp s1 l1 _, .papp s2 l2 _ => do
    compRaise (lsCompare s1 s2)
    orCmpList l1 l2
  | .por p1 q1, .por p2 q2 => do
    orCmp p1 p2
    orCmp q1 q2
  | .pas p1 v1, .pas p2 v2 => do
    orCmp p1 p2
    let i1 ← findLevel v1 bv1
    let i2 ← findLevel v2 bv2
    compRaise (compare i1 i2)
  | p1, p2 => compRaise (compare (patRank p1) (patRank p2))
def orCmpList : List Pattern → List Pattern → Except CompExn Unit
  | [], [] => .ok ()
  | p1 :: l1, p2 :: l2 => do
    orCmp p1 p2
    orCmpList l1 l2
  | _, _ => .error .invalidArgument
end

end OrCmp

/-- The next level and the levels of the variables of both sides. -/
abbrev PatState := Nat × Mvs Nat × Mvs Nat

def PatState.bind (st : PatState) (v1 v2 : VSymbol) : PatState :=
  (st.1 + 1, KeyMap.add v1 st.1 st.2.1, KeyMap.add v2 st.1 st.2.2)

mutual
def patCompare : PatState → Pattern → Pattern → Except CompExn PatState
  | st, .pwild _, .pwild _ => .ok st
  | st, .pvar v1, .pvar v2 => .ok (st.bind v1 v2)
  | st, .papp s1 l1 _, .papp s2 l2 _ => do
    compRaise (lsCompare s1 s2)
    patCompareList st l1 l2
  | st, .por p1 q1, .por p2 q2 => do
    let st ← patCompare st p1 p2
    orCmp st.2.1 st.2.2 q1 q2
    .ok st
  | st, .pas p1 v1, .pas p2 v2 => do
    let st ← patCompare st p1 p2
    .ok (st.bind v1 v2)
  | st, p1, p2 => do
    compRaise (compare (patRank p1) (patRank p2))
    .ok st
termination_by structural _ p => p
def patCompareList : PatState → List Pattern → List Pattern → Except CompExn PatState
  | st, [], [] => .ok st
  | st, p1 :: l1, p2 :: l2 => do
    let st ← patCompare st p1 p2
    patCompareList st l1 l2
  | _, _, _ => .error .invalidArgument
termination_by structural _ l => l
end

def addVars : PatState → List VSymbol → List VSymbol → Except CompExn PatState
  | st, v1 :: vl1, v2 :: vl2 => addVars (st.bind v1 v2) vl1 vl2
  | _, [], _ :: _ => .error .compLT
  | _, _ :: _, [] => .error .compGT
  | st, [], [] => .ok st

def termRank : STerm → Nat
  | .tvar _ _ => 0
  | .tconst _ _ _ => 1
  | .tapp _ _ _ _ => 2
  | .tif _ _ _ _ => 3
  | .tlet _ _ _ _ _ => 4
  | .tcase _ _ _ => 5
  | .teps _ _ _ _ => 6
  | .tquant _ _ _ _ _ _ => 7
  | .tbinop _ _ _ _ => 8
  | .tnot _ _ => 9
  | .ttrue _ => 10
  | .tfalse _ => 11

section Compare

variable (cmp : Nat → List Frame → List Frame → STerm → STerm → Except CompExn Unit)

def compareList (bnd : Nat) (vml1 vml2 : List Frame) :
    List STerm → List STerm → Except CompExn Unit
  | [], [] => .ok ()
  | t1 :: l1, t2 :: l2 => do
    cmp bnd vml1 vml2 t1 t2
    compareList bnd vml1 vml2 l1 l2
  | _, _ => .error .invalidArgument

def compareBranches (bnd : Nat) (vml1 vml2 : List Frame) :
    List TermBranch → List TermBranch → Except CompExn Unit
  | [], [] => .ok ()
  | [], _ :: _ => .error .compLT
  | _ :: _, [] => .error .compGT
  | (p1, b1, t1) :: bl1, (p2, b2, t2) :: bl2 => do
    let st ← patCompare (bnd, [], []) p1 p2
    cmp st.1 ((st.2.1, b1.bvSubst) :: vml1) ((st.2.2, b2.bvSubst) :: vml2) t1 t2
    compareBranches bnd vml1 vml2 bl1 bl2

/-- Two terms that are no bound or replaced symbols, with the comparison of their parts. -/
def compareNode (bnd : Nat) (vml1 vml2 : List Frame) : STerm → STerm → Except CompExn Unit
  | .tvar _ v1, .tvar _ v2 => compRaise (vsCompare v1 v2)
  | .tconst _ c1 _, .tconst _ c2 _ => compRaise (compareConst c1 c2)
  | .tapp _ s1 l1 _, .tapp _ s2 l2 _ => do
    compRaise (lsCompare s1 s2)
    compareList cmp bnd vml1 vml2 l1 l2
  | .tif _ f1 t1 e1, .tif _ f2 t2 e2 => do
    cmp bnd vml1 vml2 f1 f2
    cmp bnd vml1 vml2 t1 t2
    cmp bnd vml1 vml2 e1 e2
  | .tlet _ t1 v1 b1 e1, .tlet _ t2 v2 b2 e2 => do
    cmp bnd vml1 vml2 t1 t2
    cmp (bnd + 1) (([(v1, bnd)], b1.bvSubst) :: vml1) (([(v2, bnd)], b2.bvSubst) :: vml2) e1 e2
  | .tcase _ t1 bl1, .tcase _ t2 bl2 => do
    cmp bnd vml1 vml2 t1 t2
    compareBranches cmp bnd vml1 vml2 bl1 bl2
  | .teps _ v1 b1 e1, .teps _ v2 b2 e2 =>
    cmp (bnd + 1) (([(v1, bnd)], b1.bvSubst) :: vml1) (([(v2, bnd)], b2.bvSubst) :: vml2) e1 e2
  | .tquant _ q1 vl1 b1 _ f1, .tquant _ q2 vl2 b2 _ f2 => do
    compRaise (compare (quantRank q1) (quantRank q2))
    let st ← addVars (bnd, [], []) vl1 vl2
    cmp st.1 ((st.2.1, b1.bvSubst) :: vml1) ((st.2.2, b2.bvSubst) :: vml2) f1 f2
  | .tbinop _ op1 f1 g1, .tbinop _ op2 f2 g2 => do
    compRaise (compare (binopRank op1) (binopRank op2))
    cmp bnd vml1 vml2 g1 g2
    cmp bnd vml1 vml2 f1 f2
  | .tnot _ f1, .tnot _ f2 => cmp bnd vml1 vml2 f1 f2
  | .ttrue _, .ttrue _ => .ok ()
  | .tfalse _, .tfalse _ => .ok ()
  | t1, t2 => compRaise (compare (termRank t1) (termRank t2))

end Compare

section

variable (phys : STerm → STerm → Bool) (tyTag : Ty → Nat)

/-- The fuel is a bound on the depth of the forced term. -/
def tCompareRec : Nat → Nat → List Frame → List Frame → STerm → STerm → Except CompExn Unit
  | 0, _, _, _, _, _ => .error .outOfFuel
  | n + 1, bnd, vml1, vml2, t1, t2 =>
    if phys t1 t2 && vml1.isEmpty && vml2.isEmpty then .ok () else do
      compRaise (otyCompare tyTag (tTy t1) (tTy t2))
      match descend vml1 t1, descend vml2 t2 with
      | .bnd i1, .bnd i2 => compRaise (compare i1 i2)
      | .bnd _, .trm _ _ => .error .compLT
      | .trm _ _, .bnd _ => .error .compGT
      | .trm t1 vml1, .trm t2 vml2 => compareNode (tCompareRec n) bnd vml1 vml2 t1 t2

end

/-! Hashing. -/

/-- Hash functions of the standard library. -/
structure HashFns where
  const : Constant → Int63
  quant : Quant → Int63
  binop : Binop → Int63

def hashCombine (acc n : Int63) : Int63 := acc * 65599 + n

def hashCombine2 (acc n1 n2 : Int63) : Int63 := hashCombine (hashCombine acc n1) n2

def lsHash (ls : LSymbol) : Int63 := BitVec.ofNat 63 ls.lsName.idTag

def vsHash (v : VSymbol) : Int63 := BitVec.ofNat 63 v.vsName.idTag

def otyHash (tyTag : Ty → Nat) : Option Ty → Int63
  | none => 1
  | some ty => BitVec.ofNat 63 (tyTag ty)

mutual
def orHash (bv : Mvs Nat) : Pattern → Except CompExn Int63
  | .pwild _ => .ok 0
  | .pvar v => do
    let i ← findLevel v bv
    .ok (BitVec.ofNat 63 (i + 1))
  | .papp s l _ => orHashList bv (lsHash s) l
  | .por p q => do
    let hp ← orHash bv p
    let hq ← orHash bv q
    .ok (hashCombine hp hq)
  | .pas p v => do
    let hp ← orHash bv p
    let i ← findLevel v bv
    .ok (hashCombine hp (BitVec.ofNat 63 (i + 1)))
def orHashList (bv : Mvs Nat) (acc : Int63) : List Pattern → Except CompExn Int63
  | [] => .ok acc
  | p :: l => do
    let h ← orHash bv p
    orHashList bv (hashCombine acc h) l
end

mutual
def patHash : Nat → Mvs Nat → Pattern → Except CompExn (Nat × Mvs Nat × Int63)
  | bnd, bv, .pwild _ => .ok (bnd, bv, 0)
  | bnd, bv, .pvar v => .ok (bnd + 1, KeyMap.add v bnd bv, BitVec.ofNat 63 (bnd + 1))
  | bnd, bv, .papp s l _ => patHashList bnd bv (lsHash s) l
  | bnd, bv, .por p q => do
    let r ← patHash bnd bv p
    let hq ← orHash r.2.1 q
    .ok (r.1, r.2.1, hashCombine r.2.2 hq)
  | bnd, bv, .pas p v => do
    let r ← patHash bnd bv p
    .ok (r.1 + 1, KeyMap.add v r.1 r.2.1, hashCombine r.2.2 (BitVec.ofNat 63 (r.1 + 1)))
termination_by structural _ _ p => p
def patHashList : Nat → Mvs Nat → Int63 → List Pattern → Except CompExn (Nat × Mvs Nat × Int63)
  | bnd, bv, acc, [] => .ok (bnd, bv, acc)
  | bnd, bv, acc, p :: l => do
    let r ← patHash bnd bv p
    patHashList r.1 r.2.1 (hashCombine acc r.2.2) l
termination_by structural _ _ _ l => l
end

def addLevels : Nat → Mvs Nat → List VSymbol → Nat × Mvs Nat
  | bnd, bv, [] => (bnd, bv)
  | bnd, bv, v :: vl => addLevels (bnd + 1) (KeyMap.add v bnd bv) vl

section Hash

variable (H : HashFns) (hash : Nat → List Frame → STerm → Except CompExn Int63)

def hashList (bnd : Nat) (vml : List Frame) : Int63 → List STerm → Except CompExn Int63
  | acc, [] => .ok acc
  | acc, t :: l => do
    let h ← hash bnd vml t
    hashList bnd vml (hashCombine acc h) l

def hashBranches (bnd : Nat) (vml : List Frame) : Int63 → List TermBranch → Except CompExn Int63
  | acc, [] => .ok acc
  | acc, (p, b, t) :: bl => do
    let r ← patHash bnd [] p
    let h ← hash r.1 ((r.2.1, b.bvSubst) :: vml) t
    hashBranches bnd vml (hashCombine acc (hashCombine r.2.2 h)) bl

def hashNode (bnd : Nat) (vml : List Frame) : STerm → Except CompExn Int63
  | .tvar _ v => .ok (vsHash v)
  | .tconst _ c _ => .ok (H.const c)
  | .tapp _ s l _ => hashList hash bnd vml (lsHash s) l
  | .tif _ f t e => do
    let hf ← hash bnd vml f
    let ht ← hash bnd vml t
    let he ← hash bnd vml e
    .ok (hashCombine2 hf ht he)
  | .tlet _ t v b e => do
    let h ← hash bnd vml t
    let he ← hash (bnd + 1) (([(v, bnd)], b.bvSubst) :: vml) e
    .ok (hashCombine h he)
  | .tcase _ t bl => do
    let h ← hash bnd vml t
    hashBranches hash bnd vml h bl
  | .teps _ v b e => hash (bnd + 1) (([(v, bnd)], b.bvSubst) :: vml) e
  | .tquant _ q vl b _ f => do
    let r := addLevels bnd [] vl
    let h ← hash r.1 ((r.2, b.bvSubst) :: vml) f
    .ok (hashCombine (H.quant q) h)
  | .tbinop _ op f g => do
    let hf ← hash bnd vml f
    let hg ← hash bnd vml g
    .ok (hashCombine2 (H.binop op) hf hg)
  | .tnot _ f => do
    let h ← hash bnd vml f
    .ok (hashCombine 1 h)
  | .ttrue _ => .ok 2
  | .tfalse _ => .ok 3

end Hash

def tHashRec (H : HashFns) (tyTag : Ty → Nat) :
    Nat → Nat → List Frame → STerm → Except CompExn Int63
  | 0, _, _, _ => .error .outOfFuel
  | n + 1, bnd, vml, t => do
    let h ← match descend vml t with
      | .bnd i => .ok (BitVec.ofNat 63 (i + 1))
      | .trm t vml => hashNode H (tHashRec H tyTag n) bnd vml t
    .ok (hashCombine (otyHash tyTag (tTy t)) h)

/-! The number of nodes of a term, without its triggers. -/

mutual
def nodes : Term → Nat
  | .tvar _ _ | .bvar _ _ _ | .tconst _ _ _ | .ttrue _ | .tfalse _ => 1
  | .tapp _ _ tl _ => nodesList tl + 1
  | .tif _ f t e => nodes f + nodes t + nodes e + 1
  | .tlet _ t _ e => nodes t + nodes e + 1
  | .tcase _ t bl => nodes t + nodesBranches bl + 1
  | .teps _ _ f => nodes f + 1
  | .tquant _ _ _ _ f => nodes f + 1
  | .tbinop _ _ f g => nodes f + nodes g + 1
  | .tnot _ f => nodes f + 1
def nodesList : List Term → Nat
  | [] => 0
  | t :: tl => nodes t + nodesList tl
def nodesBranches : List (Pattern × Term) → Nat
  | [] => 0
  | (_, e) :: bl => nodes e + nodesBranches bl
end

/-- The result is less, equal or greater, or another exception. -/
def tCompare (phys : STerm → STerm → Bool) (tyTag : Ty → Nat) (t1 t2 : STerm) :
    Except CompExn Ordering :=
  match tCompareRec phys tyTag (nodes (force t1)) 0 [] [] t1 t2 with
  | .ok () => .ok .eq
  | .error .compLT => .ok .lt
  | .error .compGT => .ok .gt
  | .error e => .error e

def tHash (H : HashFns) (tyTag : Ty → Nat) (t : STerm) : Except CompExn Int63 :=
  tHashRec H tyTag (nodes (force t)) 0 [] t

end Stored
end Why3
