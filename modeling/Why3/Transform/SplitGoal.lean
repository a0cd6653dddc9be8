import Why3.Core.Decl
import Why3.Core.GenMap
import Why3.Core.Pattern

/-!
Goal splitting.

`splitCore` follows `split_core` of the source case by case: each connective has
its function, which combines the results for the subformulas. The bodies of
bindings are split below their binder and are not opened. The symbols of a
compiled match are fresh for the terms that are closed over them. The physical
equality of the source is a parameter that may only identify equal terms: it
decides whether a part is rebuilt, with the attributes of the whole added, or
kept.
-/
namespace Why3

structure Split where
  rightOnly : Bool
  bysoSplit : Bool
  sideSplit : Bool
  stopSplit : Bool
  cposSplit : Bool
  cnegSplit : Bool
  asymSplit : Bool
  introMode : Bool
  compMatch : Option KnownMap

def stopSplitAttr : String := "stop_split"

def asymSplitAttr : String := "asym_split"

def caseSplitAttr : String := "case_split"

def compiledAttr : String := "split_goal: compiled match"

def stop (f : Term) : Bool := decide (stopSplitAttr ∈ f.attrs)

def asym (f : Term) : Bool := decide (asymSplitAttr ∈ f.attrs)

def case (f : Term) : Bool := decide (caseSplitAttr ∈ f.attrs)

def unstop (f : Term) : Term := tAttrRemove stopSplitAttr f

/-! The monoid of formulas for conjunction and for disjunction: the zero is false
for the one and true for the other. -/

namespace M

inductive Comb where
  | base (t : Term)
  | op (a b : Comb)

inductive Monoid where
  | zero (t : Term)
  | unit
  | comb (c : Comb)

/-- The triviality degree. -/
def degree : Monoid → Nat
  | .unit => 0
  | .zero _ | .comb (.base _) => 1
  | .comb (.op _ _) => 2

def inject (t : Term) : Monoid := .comb (.base t)

def law : Monoid → Monoid → Monoid
  | a, .unit => a
  | .zero t, _ => .zero t
  | .unit, b => b
  | .comb _, .zero t => .zero t
  | .comb a, .comb b => .comb (.op a b)

def cmap (f : Term → Term) : Comb → Comb
  | .base a => .base (f a)
  | .op a b => .op (cmap f a) (cmap f b)

def cbind (f : Term → Comb) : Comb → Comb
  | .base a => f a
  | .op a b => .op (cbind f a) (cbind f b)

def map (f0 : Term → Monoid) (f : Term → Term) : Monoid → Monoid
  | .zero t => f0 t
  | .unit => .unit
  | .comb c => .comb (cmap f c)

def bimap (f00 : Term → Term → Monoid) (f0_ f_0 f : Term → Term → Term) :
    Monoid → Monoid → Monoid
  | .unit, _ | _, .unit => .unit
  | .zero t1, .zero t2 => f00 t1 t2
  | .zero t1, .comb cb => .comb (cmap (f0_ t1) cb)
  | .comb ca, .zero t2 => .comb (cmap (f_0 t2) ca)
  | .comb ca, .comb cb => .comb (cbind (fun x => cmap (f x) cb) ca)

def combToList : Comb → List Term → List Term
  | .base a, acc => a :: acc
  | .op a b, acc => combToList a (combToList b acc)

def toList : Monoid → List Term
  | .zero t => [t]
  | .unit => []
  | .comb c => combToList c []

end M

open M

structure SplitRet where
  pos : Monoid
  neg : Monoid
  bwd : Term
  fwd : Term
  side : Monoid
  cpos : Bool
  cneg : Bool

inductive SplitError where
  | fmlaExpected (f : Term)
  | compile (e : CompileError)
  | decl (e : DeclError)
  | typeMismatch (ty1 ty2 : Ty)
  | assertFalse
  | outOfFuel

/-- The body of `f by g` and of `f so g` is encoded with `g \/ true`. -/
def orTrue : Term → Bool
  | .tbinop _ .tor _ (.ttrue _) => true
  | _ => false

mutual
def dropByso : Term → Term
  | .tvar a v => .tvar a v
  | .bvar a i ty => .bvar a i ty
  | .tconst a c ty => .tconst a c ty
  | .tapp a ls tl ty => .tapp a ls (dropBysoList tl) ty
  | .tif a f t e => .tif a (dropByso f) (dropByso t) (dropByso e)
  | .tlet a t v e => .tlet a (dropByso t) v (dropByso e)
  | .tcase a t bl => .tcase a (dropByso t) (dropBysoBranches bl)
  | .teps a v f => .teps a v (dropByso f)
  | .tquant a q vl tr f => .tquant a q vl (dropBysoTrigger tr) (dropByso f)
  | .tbinop a .timplies f g =>
    if orTrue f then dropByso g else .tbinop a .timplies (dropByso f) (dropByso g)
  | .tbinop a .tand f g =>
    if orTrue g then dropByso f else .tbinop a .tand (dropByso f) (dropByso g)
  | .tbinop a .tor f g => .tbinop a .tor (dropByso f) (dropByso g)
  | .tbinop a .tiff f g => .tbinop a .tiff (dropByso f) (dropByso g)
  | .tnot a f => .tnot a (dropByso f)
  | .ttrue a => .ttrue a
  | .tfalse a => .tfalse a
def dropBysoList : List Term → List Term
  | [] => []
  | t :: tl => dropByso t :: dropBysoList tl
def dropBysoBranches : List (Pattern × Term) → List (Pattern × Term)
  | [] => []
  | (p, e) :: bl => (p, dropByso e) :: dropBysoBranches bl
def dropBysoTrigger : List (List Term) → List (List Term)
  | [] => []
  | l :: tr => dropBysoList l :: dropBysoTrigger tr
end

/-! Fresh symbols for closing a match. -/

/-- A tag above those of the symbols. -/
def freshTag (s : Finset VSymbol) : Nat := s.sup (fun v => v.vsName.idTag + 1)

def combVars : Comb → Finset VSymbol
  | .base t => tVars t
  | .op a b => combVars a ∪ combVars b

def monoidVars : Monoid → Finset VSymbol
  | .zero t => tVars t
  | .unit => ∅
  | .comb c => combVars c

def tOpenBranch (k : Nat) (b : Pattern × Term) : Pattern × Term :=
  let ul := renameVars k (patVars b.1)
  (patRenameAll ((patVars b.1).zip ul) b.1, b.2.openWith ul)

/-! The condition of a compiled branch. -/

/-- The seen constructors, the variables and the condition. -/
def patCondition (kn : KnownMap) (k : Nat) (tv : Term) (cseen : List LSymbol) (p : Pattern) :
    Except SplitError (List LSymbol × List VSymbol × Monoid) :=
  match p with
  | .pwild ty =>
    match ty with
    | .tyapp ts _ =>
      match findConstructors kn ts with
      | .error e => .error (.decl e)
      | .ok csl =>
        match tyMatch [] (.tyapp ts (ts.tsArgs.map .tyvar)) ty with
        | none => .error (.typeMismatch (.tyapp ts (ts.tsArgs.map .tyvar)) ty)
        | some sbs =>
          let csall := slsOfList (csl.map Prod.fst)
          let csnew := csall.filter fun cs => !cseen.contains cs
          if csnew.isEmpty then .error .assertFalse
          else
            let addCs := fun g cs =>
              let vl := freshVars k "w" (cs.lsArgs.map (tyInst sbs))
              let f := tEqu tv (fsApp cs (vl.map tVar) ty)
              law g (inject (tQuantCloseSimp .texists vl [] f))
            .ok (csall, [], csnew.foldl addCs .unit)
    | .tyvar _ => .error .assertFalse
  | .papp cs pl ty =>
    match pl.mapM fun p => match p with | .pvar v => some v | _ => none with
    | none => .error .assertFalse
    | some vl => .ok (slsAdd cs cseen, vl, inject (tEqu tv (fsApp cs (vl.map tVar) ty)))
  | _ => .error .assertFalse

def foldCondComb : Comb → Term
  | .base a => a
  | .op a b => tOr (foldCondComb a) (foldCondComb b)

def foldCond : Monoid → Monoid
  | .comb c => inject (foldCondComb c)
  | x => x

/-! Choosing between the decomposition and the formula itself. -/

def trivialFrom (n : Nat) : List Monoid → Bool
  | [] => true
  | x :: q => decide (n + degree x ≤ 1) && trivialFrom (n + degree x) q

section Cases

variable (phys : Term → Term → Bool) (sp : Split) (bs : List Monoid)

def pcaset (sf : SplitRet) : Monoid × Bool :=
  let test := !sp.rightOnly || (sf.cpos && trivialFrom 0 bs)
  (if test then sf.pos else inject sf.bwd, test)

def pcase (sf : SplitRet) : Monoid := (pcaset sp bs sf).1

def ncaset (sf : SplitRet) : Monoid × Bool :=
  let test := !sp.rightOnly || (sf.cneg && trivialFrom 0 bs)
  (if test then sf.neg else inject sf.fwd, test)

def ncase (sf : SplitRet) : Monoid := (ncaset sp bs sf).1

def psCsp : Split := { sp with cposSplit := false }

def ngCsp : Split := { sp with cnegSplit := false }

def noCsp : Split := { sp with cposSplit := false, cnegSplit := false }

def inCsp : Split := { sp with cposSplit := sp.cnegSplit, cnegSplit := sp.cposSplit }

def ngt (_ a : Term) : Term := tNot a

def cpy (_ a : Term) : Term := a

/-- `bimap` with the second zero and the second component below the first zero. -/
def bimapZero (f_0 f : Term → Term → Term) : Monoid → Monoid → Monoid :=
  bimap (fun _ t => .zero t) cpy f_0 f

def iclose : Monoid → Monoid → Monoid := bimapZero ngt tImplies

def aclose : Monoid → Monoid → Monoid := bimapZero cpy tAnd

def nclose (ps : Monoid) : Monoid := map (fun t => .zero (tAttrCopy t tTrue)) tNot ps

/-- The formula itself if the part has not changed. -/
def alias1 (f fo1 : Term) (unop : Term → Term) (f1 : Term) : Term :=
  if phys fo1 f1 then f else tAttrCopy f (unop f1)

def alias2 (f fo1 fo2 : Term) (binop : Term → Term → Term) (f1 f2 : Term) : Term :=
  if phys fo1 f1 && phys fo2 f2 then f else tAttrCopy f (binop f1 f2)

def splitStop (f : Term) : SplitRet :=
  ⟨inject (unstop f), inject (unstop (dropByso f)), f, dropByso f, .unit, false, false⟩

def splitIntro (f : Term) : SplitRet :=
  ⟨inject f, inject (dropByso f), f, dropByso f, .unit, false, false⟩

/-- `f1 so f2` -/
def splitSo (f : Term) (sf1 sf2 : SplitRet) : SplitRet :=
  let and f1 f2 := tAttrCopy f (tAnd f1 f2)
  let nf2 := ncaset sp [] sf2
  let nf1 := ncaset sp [nf2.1, sf2.side, sf2.pos] sf1
  let lside := if sp.sideSplit then iclose nf1.1 sf2.pos else inject (tImplies sf1.fwd sf2.bwd)
  { pos := sf1.pos
    neg := bimapZero cpy and nf1.1 nf2.1
    bwd := sf1.bwd
    fwd := and sf1.fwd sf2.fwd
    side := law (law sf1.side lside) (iclose nf1.1 sf2.side)
    cpos := sf1.cpos
    cneg := nf1.2 || nf2.2 }

def splitAnd (f f1 f2 : Term) (sf1 sf2 : SplitRet) : SplitRet :=
  let and := alias2 phys f f1 f2 tAnd
  let asym := sp.asymSplit && asym f1
  let nf2 := ncaset sp [] sf2
  let sd := if asym then [sf2.side] else []
  let dp := nf2.1 :: sd
  let nf1 := ncaset sp dp sf1
  let pos2 := if !asym then sf2.pos else iclose (ncase sp (sf2.pos :: sd) sf1) sf2.pos
  let side2 := if !asym then sf2.side else iclose (ncase sp (sf2.pos :: dp) sf1) sf2.side
  { pos := law sf1.pos pos2
    neg := bimapZero cpy and nf1.1 nf2.1
    bwd := and sf1.bwd sf2.bwd
    fwd := and sf1.fwd sf2.fwd
    side := law sf1.side side2
    cpos := false
    cneg := nf1.2 || nf2.2 }

/-- `f1 by f2` -/
def splitBy (sf1 sf2 : SplitRet) : SplitRet :=
  let close := iclose (ncase sp [sf1.pos, sf1.side] sf2)
  let lside := if sp.sideSplit then close sf1.pos else inject (tImplies sf2.fwd sf1.bwd)
  { pos := sf2.pos
    neg := sf1.neg
    bwd := sf2.bwd
    fwd := sf1.fwd
    side := law (law sf2.side lside) sf1.side
    cpos := sf2.cpos
    cneg := sf1.cneg }

def splitImplies (f f1 f2 : Term) (sf1 sf2 : SplitRet) : SplitRet :=
  let imp := alias2 phys f f1 f2 tImplies
  let asym := sp.asymSplit && asym f1
  let sd := [sf2.side]
  let neg2 := if !asym then sf2.neg else aclose (ncase sp (sf2.neg :: sd) sf1) sf2.neg
  let dp := sf2.pos :: sd
  let nf1 := ncaset sp dp sf1
  let nf1' := ncase sp (if asym then sf2.neg :: dp else dp) sf1
  { pos := bimapZero (fun _ a => tAttrCopy f (tNot a)) imp nf1.1 sf2.pos
    neg := law (nclose sf1.pos) neg2
    bwd := imp sf1.fwd sf2.bwd
    fwd := imp sf1.bwd sf2.fwd
    side := law sf1.side (iclose nf1' sf2.side)
    cpos := nf1.2 || sf2.cpos
    cneg := false }

def splitOr (f f1 f2 : Term) (sf1 sf2 : SplitRet) : SplitRet :=
  let or := alias2 phys f f1 f2 tOr
  let asym := sp.asymSplit && asym f1
  let sd := if asym then [sf2.side] else []
  let pf2 := pcaset sp [] sf2
  let dp := sf2.pos :: sd
  let pf1 := pcaset sp dp sf1
  let neg2 := if !asym then sf2.neg else
    aclose (nclose (pcase sp (sf2.neg :: sd) sf1)) sf2.neg
  let side2 := if !asym then sf2.side else
    bimapZero cpy or (pcase sp (sf2.neg :: dp) sf1) sf2.side
  { pos := bimapZero cpy or pf1.1 pf2.1
    neg := law sf1.neg neg2
    bwd := or sf1.bwd sf2.bwd
    fwd := or sf1.fwd sf2.fwd
    side := law sf1.side side2
    cpos := pf1.2 || pf2.2
    cneg := false }

def splitIff (f f1 f2 : Term) (sf1 sf2 : SplitRet) : SplitRet :=
  let df := if phys sf1.fwd sf1.bwd && phys sf2.fwd sf2.bwd
    then alias2 phys f f1 f2 tIff sf1.fwd sf2.fwd else dropByso f
  let nf1 := ncase sp [sf2.pos] sf1
  let nf2 := ncase sp [sf1.pos] sf2
  let nf2' := ncase sp [] sf2
  let pf2 := pcase sp [] sf2
  let nf1' := ncase sp [nf2'] sf1
  let pf1 := pcase sp [pf2] sf1
  { pos := law (iclose nf1 sf2.pos) (iclose nf2 sf1.pos)
    neg := law (aclose nf1' nf2') (aclose (nclose pf1) (nclose pf2))
    bwd := df
    fwd := df
    side := law sf1.side sf2.side
    cpos := false
    cneg := false }

def splitIf (f fif fthen felse : Term) (sfi sft sfe : SplitRet) : SplitRet :=
  let dfi := if phys sfi.fwd sfi.bwd then sfi.fwd else dropByso fif
  let rebuild fif2 fthen2 felse2 :=
    if phys fif fif2 && phys fthen fthen2 && phys felse felse2 then f
    else tAttrCopy f (tIf fif2 fthen2 felse2)
  let sdt := [sft.side]
  let sde := [sfe.side]
  let spt := sft.pos :: sdt
  let spe := sfe.pos :: sde
  { pos := law (iclose (ncase sp spt sfi) sft.pos)
      (iclose (nclose (pcase sp spe sfi)) sfe.pos)
    neg := law (aclose (ncase sp (sft.neg :: sdt) sfi) sft.neg)
      (aclose (nclose (pcase sp (sfe.neg :: sde) sfi)) sfe.neg)
    bwd := rebuild dfi sft.bwd sfe.bwd
    fwd := rebuild dfi sft.fwd sfe.fwd
    side := law (law sfi.side (iclose (ncase sp (sft.neg :: spt) sfi) sft.side))
      (iclose (nclose (pcase sp (sfe.neg :: spe) sfi)) sfe.side)
    cpos := false
    cneg := false }

def splitNot (f f1 : Term) (sf : SplitRet) : SplitRet :=
  let not := alias1 phys f f1 tNot
  let mapNot zero := map (fun t => inject (tAttrCopy t zero)) not
  { pos := mapNot tFalse sf.neg
    neg := mapNot tTrue sf.pos
    bwd := not sf.fwd
    fwd := not sf.bwd
    side := sf.side
    cpos := sf.cneg
    cneg := sf.cpos }

def splitLet (f t : Term) (v : VSymbol) (f1 : Term) (sf : SplitRet) : SplitRet :=
  let close := alias1 phys f f1 (.tlet ∅ t v)
  let closeAll := map .zero close
  { pos := closeAll sf.pos
    neg := closeAll sf.neg
    bwd := close sf.bwd
    fwd := close sf.fwd
    side := closeAll sf.side
    cpos := sf.cpos
    cneg := sf.cneg }

def splitQuant (f : Term) (q : Quant) (vl : List VSymbol) (tr : List (List Term)) (f1 : Term)
    (sf : SplitRet) : SplitRet :=
  let close := alias1 phys f f1 (.tquant ∅ q vl tr)
  let bwd := close sf.bwd
  let fwd := close sf.fwd
  let side := map .zero (.tquant ∅ .tforall vl tr) sf.side
  match q with
  | .tforall => ⟨map .zero close sf.pos, inject fwd, bwd, fwd, side, sf.cpos, false⟩
  | .texists => ⟨inject bwd, map .zero close sf.neg, bwd, fwd, side, false, sf.cneg⟩

/-! Matches. A branch comes with the result for its body. -/

abbrev SplitBranch := Pattern × Term × SplitRet

def caseClose (f t : Term) (g : SplitRet → Term) (sbl : List SplitBranch) : Term :=
  if sbl.all fun b => phys b.2.1 (g b.2.2) then f
  else tAttrCopy f (.tcase ∅ t (sbl.map fun b => (b.1, g b.2.2)))

/-- One branch with its part, the others with the unit. -/
def zipAll (f t : Term) (g : SplitRet → Monoid) (c : Term) :
    List (Pattern × Term) → List SplitBranch → Monoid
  | _, [] => .unit
  | bf, (p, _, sf) :: q =>
    let af := q.map fun b => (b.1, c)
    let fzip mid := tAttrCopy f (.tcase ∅ t (bf.reverse ++ (p, mid) :: af))
    law (map (fun t => inject (fzip t)) fzip (g sf)) (zipAll f t g c ((p, c) :: bf) q)

def splitCase (f t : Term) (sbl : List SplitBranch) : SplitRet :=
  { pos := zipAll f t SplitRet.pos tTrue [] sbl
    neg := zipAll f t SplitRet.neg tFalse [] sbl
    bwd := caseClose phys f t SplitRet.bwd sbl
    fwd := caseClose phys f t SplitRet.fwd sbl
    side := zipAll f t SplitRet.side tTrue [] sbl
    cpos := false
    cneg := false }

/-- The parts of a compiled match: the value is bound to `q` and each branch stands
below the condition that its constructor builds the value. -/
structure Joined where
  cseen : List LSymbol
  pos : Monoid
  neg : Monoid
  side : Monoid

def joinBranch (kn : KnownMap) (attrs : Attrs) (t : Term) (k : Nat) (acc : Joined)
    (b : SplitBranch) : Except SplitError Joined := do
  let vs : VSymbol := ⟨⟨"q", k⟩, t.tTy.getD tyInt⟩
  let ul := renameVars (k + 1) (patVars b.1)
  let p := patRenameAll ((patVars b.1).zip ul) b.1
  let (cseen, vl, cond) ← patCondition kn (k + 1) (tVar vs) acc.cseen p
  let cond := if sp.rightOnly then foldCond cond else cond
  let opened := map (fun t => .zero (t.openWith ul)) (Term.openWith ul)
  let close fb := tAttrSet attrs (tLetCloseSimp vs t fb)
  let fcl f := close (tQuantCloseSimp .tforall vl [] f)
  let ecl f := close (tQuantCloseSimp .texists vl [] f)
  let ps cond f := fcl (tImplies cond f)
  let ng cond f := ecl (tAnd cond f)
  .ok { cseen := cseen
        pos := law acc.pos (bimapZero (fun _ a => fcl (tNot a)) ps cond (opened b.2.2.pos))
        neg := law acc.neg (bimapZero (fun _ a => ecl a) ng cond (opened b.2.2.neg))
        side := law acc.side (bimapZero (fun _ a => fcl (tNot a)) ps cond (opened b.2.2.side)) }

/-- The symbols that a compiled match must not capture. -/
def joinVars (t : Term) (sbl : List SplitBranch) : Finset VSymbol :=
  sbl.foldr (fun b s => monoidVars b.2.2.pos ∪ monoidVars b.2.2.neg ∪ monoidVars b.2.2.side ∪ s)
    (tVars t)

def splitCompiled (kn : KnownMap) (f t : Term) (sbl : List SplitBranch) :
    Except SplitError SplitRet := do
  let attrs := if sbl.length = 1 then (f.attrs.erase compiledAttr).erase caseSplitAttr else ∅
  let k := freshTag (joinVars t sbl)
  let j ← sbl.foldlM (joinBranch sp kn attrs t k) ⟨[], .unit, .unit, .unit⟩
  .ok { pos := j.pos
        neg := j.neg
        bwd := caseClose phys f t SplitRet.bwd sbl
        fwd := caseClose phys f t SplitRet.fwd sbl
        side := j.side
        cpos := false
        cneg := false }

def splitMkCase (t : Term) (bl : List (Pattern × Term)) : Term :=
  tAttrAdd compiledAttr (tCaseClose t bl)

/-- A match is compiled to matches on one constructor. -/
def compileMatch (f t : Term) (bl : List (Pattern × Term)) : Except SplitError Term :=
  let k := freshTag (tVars f)
  let n := bl.foldr (fun b n => max (patVars b.1).length n) 0
  let rl := bl.map fun b => let b := tOpenBranch k b; ([b.1], b.2)
  match compileBare splitMkCase tLetCloseSimp (k + n) [t] rl with
  | .ok g => .ok (tAttrCopy f g)
  | .error e => .error (.compile e)

/-- A side condition that is false leaves nothing to prove. -/
def splitFinish (f : Term) (r : SplitRet) : SplitRet :=
  let r := if case f then { r with cpos := sp.cposSplit, cneg := sp.cnegSplit } else r
  match r.side with
  | .zero _ => { r with pos := .unit, neg := .unit, fwd := tFalse, bwd := tTrue }
  | _ => r

end Cases

variable (kn : Option KnownMap)

def fullSplit : Split where
  rightOnly := false
  bysoSplit := false
  sideSplit := true
  stopSplit := false
  cposSplit := true
  cnegSplit := true
  asymSplit := true
  introMode := false
  compMatch := kn

def rightSplit : Split := { fullSplit kn with rightOnly := true }

def fullProof : Split :=
  { fullSplit kn with stopSplit := true, bysoSplit := true }

def rightProof : Split := { fullProof kn with rightOnly := true }

def fullIntro : Split :=
  { fullSplit kn with asymSplit := false, introMode := true, stopSplit := true }

def rightIntro : Split := { fullIntro kn with rightOnly := true }

/-- The connectives that the introduction mode does not split. -/
def introStop : Term → Bool
  | .tbinop _ .tiff _ _ | .tif _ _ _ _ | .tcase _ _ _ | .tquant _ _ _ _ _ => true
  | _ => false

section Core

variable (phys : Term → Term → Bool)

/-! The result of the compilation of a match is split by `rec`. -/

mutual
def splitStep (rec : Split → Term → Except SplitError SplitRet) :
    Term → Split → Except SplitError SplitRet
  | f, sp =>
    Except.map (splitFinish sp f) <|
      if sp.stopSplit && stop f then .ok (splitStop f)
      else if sp.introMode && introStop f then .ok (splitIntro f)
      else match f with
      | .ttrue a => .ok ⟨.unit, .zero (.ttrue a), .ttrue a, .ttrue a, .unit, false, false⟩
      | .tfalse a => .ok ⟨.zero (.tfalse a), .unit, .tfalse a, .tfalse a, .unit, false, false⟩
      | .tapp a ls tl ty =>
        let f := Term.tapp a ls tl ty
        .ok ⟨inject f, inject f, f, f, .unit, false, false⟩
      | .tbinop a .tand f1 (.tbinop b .tor f2 (.ttrue c)) =>
        if !(sp.bysoSplit && asym f2) then splitStep rec f1 sp
        else do
          let sf1 ← splitStep rec f1 (noCsp sp)
          let sf2 ← splitStep rec f2 (noCsp sp)
          .ok (splitSo sp (.tbinop a .tand f1 (.tbinop b .tor f2 (.ttrue c))) sf1 sf2)
      | .tbinop a .tand f1 f2 => do
        let sf1 ← splitStep rec f1 (psCsp sp)
        let sf2 ← splitStep rec f2 (psCsp sp)
        .ok (splitAnd phys sp (.tbinop a .tand f1 f2) f1 f2 sf1 sf2)
      | .tbinop _ .timplies (.tbinop _ .tor f2 (.ttrue _)) f1 =>
        if !(sp.bysoSplit && asym f2) then splitStep rec f1 sp
        else do
          let sf1 ← splitStep rec f1 (noCsp sp)
          let sf2 ← splitStep rec f2 (noCsp sp)
          .ok (splitBy sp sf1 sf2)
      | .tbinop a .timplies f1 f2 => do
        let sf1 ← splitStep rec f1 (inCsp (ngCsp sp))
        let sf2 ← splitStep rec f2 (ngCsp sp)
        .ok (splitImplies phys sp (.tbinop a .timplies f1 f2) f1 f2 sf1 sf2)
      | .tbinop a .tor f1 f2 => do
        let sf1 ← splitStep rec f1 (ngCsp sp)
        let sf2 ← splitStep rec f2 (ngCsp sp)
        .ok (splitOr phys sp (.tbinop a .tor f1 f2) f1 f2 sf1 sf2)
      | .tbinop a .tiff f1 f2 => do
        let sf1 ← splitStep rec f1 (noCsp sp)
        let sf2 ← splitStep rec f2 (noCsp sp)
        .ok (splitIff phys sp (.tbinop a .tiff f1 f2) f1 f2 sf1 sf2)
      | .tif a fif fthen felse => do
        let sfi ← splitStep rec fif (noCsp sp)
        let sft ← splitStep rec fthen (noCsp sp)
        let sfe ← splitStep rec felse (noCsp sp)
        .ok (splitIf phys sp (.tif a fif fthen felse) fif fthen felse sfi sft sfe)
      | .tnot a f1 => do
        let sf ← splitStep rec f1 (inCsp sp)
        .ok (splitNot phys (.tnot a f1) f1 sf)
      | .tlet a t v f1 => do
        let sf ← splitStep rec f1 sp
        .ok (splitLet phys (.tlet a t v f1) t v f1 sf)
      | .tcase a t bl =>
        let spb := if bl.length = 1 then sp else noCsp sp
        match sp.compMatch with
        | none => do
          let sbl ← splitBranches rec bl spb
          .ok (splitCase phys (.tcase a t bl) t sbl)
        | some kn =>
          if compiledAttr ∈ a then do
            let sbl ← splitBranches rec bl spb
            splitCompiled phys sp kn (.tcase a t bl) t sbl
          else do
            let g ← compileMatch (.tcase a t bl) t bl
            rec spb g
      | .tquant a q vl tr f1 => do
        let sf ← splitStep rec f1 sp
        .ok (splitQuant phys (.tquant a q vl tr f1) q vl tr f1 sf)
      | .tvar _ _ | .bvar _ _ _ | .tconst _ _ _ | .teps _ _ _ => .error (.fmlaExpected f)
def splitBranches (rec : Split → Term → Except SplitError SplitRet) :
    List (Pattern × Term) → Split → Except SplitError (List SplitBranch)
  | [], _ => .ok []
  | (p, e) :: bl, sp => do
    let sf ← splitStep rec e sp
    let sbl ← splitBranches rec bl sp
    .ok ((p, e, sf) :: sbl)
end

attribute [grind =] splitStep

/-! The matches that are still to be compiled, one below the other. -/

mutual
def caseDepth : Term → Nat
  | .tif _ f t e => max (caseDepth f) (max (caseDepth t) (caseDepth e))
  | .tlet _ _ _ e => caseDepth e
  | .tcase a _ bl => (if compiledAttr ∈ a then 0 else 1) + caseDepthBranches bl
  | .tquant _ _ _ _ f => caseDepth f
  | .tbinop _ _ f g => max (caseDepth f) (caseDepth g)
  | .tnot _ f => caseDepth f
  | .tvar _ _ | .bvar _ _ _ | .tconst _ _ _ | .tapp _ _ _ _ | .teps _ _ _ | .ttrue _
  | .tfalse _ => 0
def caseDepthBranches : List (Pattern × Term) → Nat
  | [] => 0
  | (_, e) :: bl => max (caseDepth e) (caseDepthBranches bl)
end

def splitFuel : Nat → Split → Term → Except SplitError SplitRet
  | 0, _, _ => .error .outOfFuel
  | n + 1, sp, f => splitStep phys (splitFuel n) f sp

def splitCore (sp : Split) (f : Term) : Except SplitError SplitRet :=
  splitFuel phys (caseDepth f + 1) sp f

def splitPos (sp : Split) (f : Term) : Except SplitError (List Term) := do
  let core ← splitCore phys sp f
  match core.side with
  | .unit => .ok (toList core.pos)
  | _ => .error .assertFalse

def splitNeg (sp : Split) (f : Term) : Except SplitError (List Term) := do
  let core ← splitCore phys sp f
  match core.side with
  | .unit => .ok (toList core.neg)
  | _ => .error .assertFalse

def splitProof (sp : Split) (f : Term) : Except SplitError (List Term) := do
  let core ← splitCore phys sp f
  .ok (toList (law core.pos core.side))

end Core

end Why3
