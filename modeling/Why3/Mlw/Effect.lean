import Why3.Library.SetMap
import Why3.Mlw.Ity

/-!
Effects of program expressions.

Sets of the source are finite sets. The code visits them in the order of tags and
raises an exception for the first element that violates a condition; the
exceptions below carry all of them.
-/
namespace Why3
namespace Mlw

structure XSymbol where
  xsName : Ident
  xsIty : Ity
deriving DecidableEq, Repr

inductive Exn where
  | typeMismatch (t1 t2 : Ity)
  | badItyArity (s : ItySymbol) (n : Nat)
  | badRegArity (s : ItySymbol) (n : Nat)
  | assignPrivate (r : Region)
  | assignSnapshot (ity : Ity)
  | writeImmutable (fields : Finset (Region × PvSymbol))
  | illegalUpdate (uses : Finset (PvSymbol × Region))
  | staleVariable (uses : Finset (PvSymbol × Region))
  | badGhostWrite (uses : Finset (PvSymbol × Region))
  | duplicateField (r : Region) (f : PvSymbol)
  | illegalAssign (r1 r2 r3 : Region)
  | ghostDivergence
  | fmlaExpected
  | tyMismatch
  | unboundTypeVar (tvs : Finset TvSymbol)
  | invalidArgument (fn : String)
  | notFound
  | assertFailure
deriving DecidableEq

/-! Type matching. -/

structure ItySubst where
  isbVar : List (TvSymbol × Ity)
  isbReg : List (Region × Ity)

/-- Why a match ends: two types differ, or two lists have different lengths. -/
inductive MatchExit where
  | exit
  | arity

mutual
def ityMatchRec (sbs : ItySubst) : Ity → Ity → Except MatchExit ItySubst
  | .ityapp s1 l1 r1, ity2 =>
    match ity2 with
    | .ityapp s2 l2 r2 =>
      if s1 = s2 then do
        let sbs ← ityMatchList sbs l1 l2
        ityMatchList sbs r1 r2
      else .error .exit
    | _ => .error .exit
  | .ityreg name s tl rl, ity2 =>
    match sbs.isbReg.lookup ⟨name, s, tl, rl⟩ with
    | some o => if o = ity2 then .ok sbs else .error .exit
    | none =>
      let sbs := { sbs with isbReg := (⟨name, s, tl, rl⟩, ity2) :: sbs.isbReg }
      match ity2 with
      | .ityreg _ s2 tl2 rl2 | .ityapp s2 tl2 rl2 =>
        if s = s2 then do
          let sbs ← ityMatchList sbs tl tl2
          ityMatchList sbs rl rl2
        else .error .exit
      | .ityvar _ => .error .exit
  | .ityvar v, ity2 =>
    match sbs.isbVar.lookup v with
    | some o => if o = ity2 then .ok sbs else .error .exit
    | none => .ok { sbs with isbVar := (v, ity2) :: sbs.isbVar }
def ityMatchList (sbs : ItySubst) : List Ity → List Ity → Except MatchExit ItySubst
  | [], [] => .ok sbs
  | t1 :: l1, t2 :: l2 => do
    let sbs ← ityMatchRec sbs t1 t2
    ityMatchList sbs l1 l2
  | _, _ => .error .arity
end

def itsMatchArgs (s : ItySymbol) (tl : List Ity) : Except Exn ItySubst :=
  if s.itsTs.tsArgs.length = tl.length then .ok ⟨s.itsTs.tsArgs.zip tl, []⟩
  else .error (.badItyArity s tl.length)

/-- The regions of the symbol are matched in turn. -/
def regMatchList (s : ItySymbol) (rl0 : List Ity) (sbs : ItySubst) :
    List Region → List Ity → Except Exn ItySubst
  | [], [] => .ok sbs
  | r :: regs, t :: rl =>
    match ityMatchRec sbs (ityReg r) t with
    | .ok sbs => regMatchList s rl0 sbs regs rl
    | .error .exit => .error (.typeMismatch (ityReg r) t)
    | .error .arity => .error (.badRegArity s rl0.length)
  | _, _ => .error (.badRegArity s rl0.length)

variable (T : ItsTable)

def itsMatchRegs (s : ItySymbol) (tl rl : List Ity) : Except Exn ItySubst := do
  let sbs ← itsMatchArgs s tl
  regMatchList s rl sbs (T s).itsRegions rl

mutual
def ityInstRec (sbs : ItySubst) : Ity → Except Exn Ity
  | .ityreg name s tl rl =>
    match sbs.isbReg.lookup ⟨name, s, tl, rl⟩ with
    | some t => .ok t
    | none => .error .notFound
  | .ityapp s tl rl => do
    let tl ← ityInstList sbs tl
    let rl ← ityInstList sbs rl
    .ok (.ityapp s tl rl)
  | .ityvar v =>
    match sbs.isbVar.lookup v with
    | some t => .ok t
    | none => .error .notFound
def ityInstList (sbs : ItySubst) : List Ity → Except Exn (List Ity)
  | [] => .ok []
  | t :: tl => do
    let t ← ityInstRec sbs t
    let tl ← ityInstList sbs tl
    .ok (t :: tl)
end

def ityFullInst (sbs : ItySubst) (ity : Ity) : Except Exn Ity :=
  if ityPure ity && decide (ityFreevars ity = ∅) then .ok ity else ityInstRec sbs ity

/-! Effects. -/

inductive Oneway where
  | total
  | partialCorrect
  | diverges
deriving DecidableEq, Repr

def onewayUnion : Oneway → Oneway → Oneway
  | .total, .total => .total
  | _, .diverges | .diverges, _ => .diverges
  | _, _ => .partialCorrect

structure Effect where
  effReads : Finset PvSymbol
  effWrites : SetMap Region PvSymbol
  effTaints : Finset Region
  effCovers : Finset Region
  effResets : Finset Region
  effRaises : Finset XSymbol
  effSpoils : Finset TvSymbol
  effOneway : Oneway
  effGhost : Bool
deriving DecidableEq

def effEmpty : Effect := ⟨∅, .empty, ∅, ∅, ∅, ∅, ∅, .total, false⟩

def checkWrites (e : Effect) (pvs : Finset PvSymbol) : Except Exn Unit :=
  let uses := (pvs ×ˢ e.effWrites.domain).filter fun x => ityRFrozen T {x.2} x.1.pvIty
  if uses = ∅ then .ok () else .error (.illegalUpdate uses)

def checkCovers (e : Effect) (pvs : Finset PvSymbol) : Except Exn Unit :=
  let uses := (pvs ×ˢ e.effResets).filter fun x => ityRStale T {x.2} e.effCovers x.1.pvIty
  if uses = ∅ then .ok () else .error (.staleVariable uses)

def checkTaints (tnt : Finset Region) (pvs : Finset PvSymbol) : Except Exn Unit :=
  let uses := (pvs ×ˢ tnt).filter fun x => !x.1.pvGhost ∧ x.2 ∈ ityVisRegs T x.1.pvIty
  if uses = ∅ then .ok () else .error (.badGhostWrite uses)

def visibleWrites (e : Effect) : Finset Region :=
  e.effWrites.domain.filter fun r =>
    (T r.regIts).itsPrivate ∨ ∃ fd ∈ e.effWrites.find r, fd.pvGhost = false

def resetTaints (e : Effect) : Except Exn Effect :=
  let vwr := visibleWrites T e
  if e.effGhost || vwr = ∅ then do
    checkTaints T vwr e.effReads
    .ok { e with effTaints := vwr }
  else
    let vis := (e.effReads.filter fun v => !v.pvGhost).biUnion
      fun v => (ityVisRegs T v.pvIty).toFinset
    .ok { e with effTaints := vwr \ vis }

def effGhostify (gh : Bool) (e : Effect) : Except Exn Effect :=
  if !gh || e.effGhost then .ok e
  else if e.effOneway ≠ .total then .error .ghostDivergence
  else resetTaints T { e with effGhost := true }

def effGhostifyWeak (gh : Bool) (e : Effect) : Except Exn Effect :=
  if !gh || e.effGhost then .ok e
  else if ¬ (e.effOneway = .total ∧ e.effRaises = ∅) then .ok e
  else if e.effTaints ≠ visibleWrites T e then .ok e
  else effGhostify T gh e

def effReadPre (rd : Finset PvSymbol) (e : Effect) : Except Exn Effect :=
  if rd ⊆ e.effReads then .ok e
  else do
    checkTaints T e.effTaints rd
    .ok { e with effReads := e.effReads ∪ rd }

def effReadPost (e : Effect) (rd : Finset PvSymbol) : Except Exn Effect := do
  checkWrites T e rd
  checkCovers T e rd
  effReadPre T rd e

def effBind (rd : Finset PvSymbol) (e : Effect) : Effect :=
  { e with effReads := e.effReads \ rd }

def effRead (rd : Finset PvSymbol) : Effect := { effEmpty with effReads := rd }

def checkMutableField (r : Region) (f : PvSymbol) : Except Exn Unit :=
  if f ∈ (T r.regIts).itsMfields then .ok () else .error (.writeImmutable {(r, f)})

def readRegs (rd : Finset PvSymbol) : Finset Region :=
  rd.biUnion fun v => (ityRchRegs T v.pvIty).toFinset

def effWrite (rd : Finset PvSymbol) (wr : SetMap Region PvSymbol) :
    Except Exn Effect :=
  if wr.domain = ∅ then .ok (effRead rd)
  else if ∃ r ∈ wr.domain, wr.find r = ∅ ∧ (T r.regIts).itsPrivate = false then
    .error (.invalidArgument "Ity.eff_write")
  else
    let wrong := wr.entries.filter fun x => x.2 ∉ (T x.1.regIts).itsMfields
    if wrong ≠ ∅ then .error (.writeImmutable wrong)
    else
      let kn := readRegs T rd
      let wr := wr.restrict (· ∈ kn)
      resetTaints T { effEmpty with effReads := rd, effWrites := wr, effCovers := wr.domain }

/-! Parallel assignment. -/

mutual
def itySkelCheck : Ity → Ity → Except Exn Unit
  | .ityreg n1 s1 tl1 rl1, .ityreg n2 s2 tl2 rl2 =>
    if (.ityreg n1 s1 tl1 rl1 : Ity) = .ityreg n2 s2 tl2 rl2 then .ok ()
    else if s1 = s2 then do
      itySkelCheckList tl1 tl2
      itySkelCheckList rl1 rl2
    else .error (.typeMismatch (.ityreg n1 s1 tl1 rl1) (.ityreg n2 s2 tl2 rl2))
  | .ityapp s1 tl1 rl1, .ityapp s2 tl2 rl2 =>
    if (.ityapp s1 tl1 rl1 : Ity) = .ityapp s2 tl2 rl2 then .ok ()
    else if s1 = s2 then do
      itySkelCheckList tl1 tl2
      itySkelCheckList rl1 rl2
    else .error (.typeMismatch (.ityapp s1 tl1 rl1) (.ityapp s2 tl2 rl2))
  | t1, t2 => if t1 = t2 then .ok () else .error (.typeMismatch t1 t2)
def itySkelCheckList : List Ity → List Ity → Except Exn Unit
  | [], [] => .ok ()
  | t1 :: l1, t2 :: l2 => do
    itySkelCheck t1 t2
    itySkelCheckList l1 l2
  | _, _ => .error (.invalidArgument "List.iter2")
end

/-- An assignment of a value to a field of a record, all given by variables. -/
structure Assign where
  record : PvSymbol
  field : PvSymbol
  value : PvSymbol

abbrev FieldTypes := List (PvSymbol × Ity)

abbrev AssignWrites := List (Region × FieldTypes)

def getReg (v : PvSymbol) : Except Exn Region :=
  match v.pvIty with
  | .ityreg name s tl rl => .ok ⟨name, s, tl, rl⟩
  | ity => .error (.assignSnapshot ity)

def AssignWrites.fieldsOf (wr : AssignWrites) (r : Region) : FieldTypes := (wr.lookup r).getD []

/-- The fields of one region are extended; a region that was not written is added. -/
def AssignWrites.change (r : Region) (f : FieldTypes → FieldTypes) :
    AssignWrites → AssignWrites
  | [] => [(r, f [])]
  | (r', fs) :: wr => if r' = r then (r', f fs) :: wr else (r', fs) :: change r f wr

def addAssign (wr : AssignWrites) (a : Assign) : Except Exn AssignWrites := do
  let r ← getReg a.record
  checkMutableField T r a.field
  if (T r.regIts).itsPrivate then .error (.assignPrivate r)
  else if ((wr.fieldsOf r).lookup a.field).isSome then .error (.duplicateField r a.field)
  else .ok (wr.change r fun fs => (a.field, a.value.pvIty) :: fs)

def ityRexp (xl : List Region) (t : Ity) : List Region :=
  (ityExpRegs T t).foldl (fun l r => r :: l) xl

def fixedRexp : List Region → List ItsFlag → List Ity → List Region
  | xl, f :: fl, t :: tl => fixedRexp (if f.itsFixed then ityRexp T xl t else xl) fl tl
  | xl, _, _ => xl

/-- The regions under the fields of a region, where some fields have new types. -/
def regRexp (r : Region) (fs : FieldTypes) : Except Exn (List Region) := do
  let sbs ← itsMatchRegs T r.regIts r.regArgs r.regRegs
  let xl ← (T r.regIts).itsMfields.foldlM (fun xl f => do
    let tf ← ityFullInst sbs f.pvIty
    let tt := (fs.lookup f).getD tf
    itySkelCheck tf tt
    .ok (ityRexp T xl tt)) []
  .ok (fixedRexp T (fixedRexp T xl (T r.regIts).itsArgFlg r.regArgs)
    (T r.regIts).itsRegFlg r.regRegs)

mutual
def ityDepth : Ity → Nat
  | .ityvar _ => 0
  | .ityreg _ _ tl rl => max (ityDepthList tl) (ityDepthList rl) + 1
  | .ityapp _ tl rl => max (ityDepthList tl) (ityDepthList rl)
def ityDepthList : List Ity → Nat
  | [] => 0
  | t :: tl => max (ityDepth t) (ityDepthList tl)
end

/-- Pairs of the regions under the fields before and after the assignments. The
regions under a region have fewer regions below them, so its depth bounds the
recursion. -/
def stitch (writes : AssignWrites) :
    Nat → List (Region × Region) → Region → Region → FieldTypes →
      Except Exn (List (Region × Region))
  | 0, _, _, _, _ => .error (.invalidArgument "stitch")
  | fuel + 1, pl, rf, rt, fs => do
    let l1 ← regRexp T rf []
    let l2 ← regRexp T rt fs
    if l1.length ≠ l2.length then .error (.invalidArgument "List.fold_left2")
    else (l1.zip l2).foldlM (fun pl x =>
      stitch writes fuel (x :: pl) x.1 x.2 (writes.fieldsOf x.2)) pl

abbrev Transitions := List (Region × List (Region × Region))

/-- The longest lists come first, and lists of one length in the order of tags. -/
def levelOrder (a b : Region × List (Region × Region)) : Bool :=
  b.2.length < a.2.length ||
    (a.2.length == b.2.length && a.1.regName.idTag ≤ b.1.regName.idTag)

abbrev RegionBinds := List (Region × Region)

def addBind (r1 r2 : Region) (m : RegionBinds) : Except Exn RegionBinds :=
  match m.lookup r1 with
  | some r3 => if r2 = r3 then .ok m else .error (.illegalAssign r1 r2 r3)
  | none => .ok ((r1, r2) :: m)

structure ResetAcc where
  rst : Finset Region
  mt : RegionBinds
  mf : RegionBinds

def addPair (acc : ResetAcc) (p : Region × Region) : Except Exn ResetAcc := do
  let rst := if p.1 = p.2 then acc.rst else insert p.1 (insert p.2 acc.rst)
  let mt ← addBind p.1 p.2 acc.mt
  let mf ← addBind p.2 p.1 acc.mf
  .ok ⟨rst, mt, mf⟩

def addTransitions (acc : ResetAcc) (x : Region × List (Region × Region)) :
    Except Exn ResetAcc :=
  if x.1 ∈ acc.rst then .ok acc else x.2.foldlM addPair acc

def transitions (writes : AssignWrites) : Except Exn Transitions :=
  writes.mapM fun x => do
    let pl ← stitch T writes (ityDepth (ityReg x.1)) [] x.1 x.1 x.2
    .ok (x.1, pl)

def effAssign (asl : List Assign) : Except Exn Effect := do
  let writes ← asl.foldlM (addAssign T) []
  let ghost := asl.all fun a => a.record.pvGhost || a.field.pvGhost || a.value.pvGhost
  let taint ← asl.foldlM (fun s a =>
    if (a.record.pvGhost || a.value.pvGhost) && !a.field.pvGhost then do
      let r ← getReg a.record
      .ok (insert r s)
    else .ok s) (∅ : Finset Region)
  let reads : Finset PvSymbol := (asl.flatMap fun a => [a.record, a.value]).toFinset
  checkTaints T taint reads
  let m ← transitions T writes
  let acc ← (m.insertionSort (levelOrder · ·)).foldlM addTransitions ⟨∅, [], []⟩
  let effWrites := SetMap.ofList (writes.map fun x => (x.1, x.2.map (·.1)))
  let effect : Effect :=
    { effReads := reads
      effWrites := effWrites
      effTaints := taint
      effCovers := effWrites.domain \ acc.rst
      effResets := acc.rst
      effRaises := ∅
      effSpoils := ∅
      effOneway := .total
      effGhost := ghost }
  checkWrites T effect reads
  .ok effect

/-! Overwritten regions. -/

/-- The regions that survive under one written region and those that are
overwritten. -/
def overwritten (wr : SetMap Region PvSymbol) (r : Region) :
    Except Exn (Finset Region × Finset Region) := do
  let fixed (fl : List ItsFlag) (tl : List Ity) : List Region :=
    (fl.zip tl).flatMap fun x => if x.1.itsFixed then ityUncRegs T wr.domain x.2 else []
  let svv : Finset Region := insert r (fixed (T r.regIts).itsArgFlg r.regArgs ++
    fixed (T r.regIts).itsRegFlg r.regRegs).toFinset
  let sbs ← itsMatchRegs T r.regIts r.regArgs r.regRegs
  (T r.regIts).itsMfields.foldlM (fun x f => do
    let t ← ityFullInst sbs f.pvIty
    let regs := (ityUncRegs T wr.domain t).toFinset
    .ok (if f ∈ wr.find r then (x.1, x.2 ∪ regs) else (x.1 ∪ regs, x.2)))
    (svv, (∅ : Finset Region))

def overwrittenOf (wr : SetMap Region PvSymbol) (r : Region) :
    Finset Region × Finset Region :=
  match overwritten T wr r with
  | .ok x => x
  | .error _ => (∅, ∅)

def effResetOverwritten (e : Effect) : Except Exn Effect :=
  if e.effResets ≠ ∅ then .error (.invalidArgument "Ity.eff_reset_overwritten")
  else if ∃ r ∈ e.effWrites.domain, (overwritten T e.effWrites r).toBool = false then
    .error (.invalidArgument "Ity.its_match_regs")
  else
    let svv := e.effWrites.domain.biUnion fun r => (overwrittenOf T e.effWrites r).1
    let rst := e.effWrites.domain.biUnion fun r => (overwrittenOf T e.effWrites r).2
    .ok { e with effResets := rst \ svv }

/-! Unions. -/

def removeStale (e : Effect) (srg : Finset Region) : Finset Region :=
  srg.filter fun r => regRStale T e.effResets e.effCovers r = false

variable (e1 e2 : Effect)

def effUnionRaw : Effect where
  effReads := e1.effReads ∪ e2.effReads
  effWrites := e1.effWrites.union e2.effWrites
  effTaints := e1.effTaints ∪ e2.effTaints
  effCovers := removeStale T e2 e1.effCovers ∪ removeStale T e1 e2.effCovers
  effResets := e1.effResets ∪ e2.effResets
  effRaises := e1.effRaises ∪ e2.effRaises
  effSpoils := e1.effSpoils ∪ e2.effSpoils
  effOneway := onewayUnion e1.effOneway e2.effOneway
  effGhost := e1.effGhost && e2.effGhost

def effUnion : Except Exn Effect := do
  checkTaints T e1.effTaints e2.effReads
  checkTaints T e2.effTaints e1.effReads
  let e := effUnionRaw T e1 e2
  if ¬ Disjoint e.effCovers e.effResets then .error .assertFailure
  else if ∃ r ∈ e.effWrites.domain \ e.effCovers,
      regRStale T e.effResets e.effCovers r = false then .error .assertFailure
  else .ok e

def effFusion : Except Exn Effect := do
  let e ← effUnion T e1 e2
  .ok { e with
    effWrites := e.effWrites.restrict (· ∈ e.effCovers)
    effTaints := e.effTaints ∩ e.effCovers }

def effContaminate : Except Exn Effect :=
  if !e1.effGhost then .ok e2
  else if e1.effRaises = ∅ then .ok e2
  else effGhostify T true e2

def effContaminateWeak : Except Exn Effect :=
  if !e1.effGhost then .ok e2
  else if e1.effRaises = ∅ then effGhostifyWeak T true e2
  else effGhostify T true e2

def effUnionPar : Except Exn Effect := do
  let e1' ← effContaminateWeak T e2 e1
  let e2' ← effContaminateWeak T e1 e2
  effUnion T e1' e2'

def effUnionSeq : Except Exn Effect := do
  checkWrites T e1 e2.effReads
  checkCovers T e1 e2.effReads
  let e1' ← effContaminateWeak T e2 e1
  let e2' ← effContaminate T e1 e2
  effUnion T e1' e2'

/-! Computation types. -/

/-- A formula or a postcondition, as far as a computation type depends on it. -/
structure SpecTerm where
  tFreepvs : Finset PvSymbol
  tTyFreevars : Finset TvSymbol
  tTy : Option Ty
  isEps : Bool
  isFalse : Bool
deriving DecidableEq

structure Cty where
  ctyArgs : List PvSymbol
  ctyPre : List SpecTerm
  ctyPost : List SpecTerm
  ctyXpost : List (XSymbol × List SpecTerm)
  ctyOldies : List (PvSymbol × PvSymbol)
  ctyEffect : Effect
  ctyResult : Ity

def checkPre (pre : List SpecTerm) : Except Exn Unit :=
  if pre.all fun p => p.tTy = none then .ok () else .error .fmlaExpected

def checkPost (exn : Exn) (ity : Ity) (post : List SpecTerm) : Except Exn Unit :=
  if !post.all (·.isEps) then .error exn
  else if post.all fun q => q.tTy = some (tyOfIty ity) then .ok ()
  else .error .tyMismatch

def specFreepvs (l : List SpecTerm) : Finset PvSymbol :=
  l.foldr (fun q s => q.tFreepvs ∪ s) ∅

def specTyFreevars (l : List SpecTerm) : Finset TvSymbol :=
  l.foldr (fun q s => q.tTyFreevars ∪ s) ∅

def xpostTerms (xpost : List (XSymbol × List SpecTerm)) : List SpecTerm := xpost.flatMap (·.2)

def checkTvs (reads : Finset PvSymbol) (raises : Finset XSymbol) (result : Ity)
    (pre post : List SpecTerm) (xpost : List (XSymbol × List SpecTerm)) : Except Exn Unit :=
  let tvs := ityFreevars result ∪ reads.biUnion (fun v => ityFreevars v.pvIty) ∪
    raises.biUnion (fun xs => ityFreevars xs.xsIty)
  let ttv := specTyFreevars (pre ++ post ++ xpostTerms xpost)
  if ttv ⊆ tvs then .ok () else .error (.unboundTypeVar (ttv \ tvs))

/-- The types that escape: those of the result, of raised exceptions and of written
fields. -/
def effEscape (e : Effect) (ity : Ity) : Finset TvSymbol :=
  ityRchVars T ity ∪ e.effRaises.biUnion (fun xs => ityRchVars T xs.xsIty) ∪
    e.effWrites.entries.biUnion fun x =>
      match itsMatchRegs T x.1.regIts x.1.regArgs x.1.regRegs with
      | .error _ => ∅
      | .ok sbs =>
        match ityFullInst sbs x.2.pvIty with
        | .ok t => ityRchVars T t
        | .error _ => ∅

/-- The exceptions that a postcondition does not exclude. -/
def possibleRaises (xpost : List (XSymbol × List SpecTerm)) (raises : Finset XSymbol) :
    Finset XSymbol :=
  let possible (xs : XSymbol) : Bool :=
    match xpost.lookup xs with
    | some [q] => !q.isFalse
    | _ => true
  raises.filter fun xs => possible xs

/-- The part of an effect that a computation type keeps: writes and taints that no
reset invalidates, and effects on the regions known from the reads and from the
result. -/
def ctyEffectOf (defensive : Bool) (xpost : List (XSymbol × List SpecTerm))
    (effect : Effect) (result : Ity) : Except Exn Effect := do
  let raises := possibleRaises xpost effect.effRaises
  let rknown := readRegs T effect.effReads
  let vknown := rknown ∪ (ityRchRegs T result).toFinset ∪
    raises.biUnion fun xs => (ityRchRegs T xs.xsIty).toFinset
  let effect ← resetTaints T { effect with
    effRaises := raises
    effWrites := (effect.effWrites.restrict (· ∈ effect.effCovers)).restrict (· ∈ rknown)
    effTaints := effect.effTaints ∩ effect.effCovers
    effCovers := effect.effCovers ∩ rknown
    effResets := effect.effResets ∩ vknown }
  let escape := effEscape T effect result
  if defensive then
    .ok { effect with effResets := effect.effResets ∪ (vknown \ rknown), effSpoils := escape }
  else .ok { effect with effSpoils := effect.effSpoils ∩ escape }

def createCty (defensive : Bool) (args : List PvSymbol) (pre post : List SpecTerm)
    (xpost : List (XSymbol × List SpecTerm)) (oldies : List (PvSymbol × PvSymbol))
    (effect : Effect) (result : Ity) : Except Exn Cty := do
  let exn := Exn.invalidArgument "Ity.create_cty"
  checkPre pre
  checkPost exn result post
  xpost.forM fun x => checkPost exn x.1.xsIty x.2
  let sarg := args.toFinset
  if ¬ args.Nodup ∨ ∃ x ∈ oldies, ¬ (x.1.pvGhost ∧ x.1.pvIty = ityPurify x.2.pvIty) then
    .error exn
  else
    let qreads := specFreepvs (post ++ xpostTerms xpost)
    let effect ← effReadPost T effect qreads
    let oldies := oldies.filter fun x => x.1 ∈ effect.effReads
    let preads := sarg ∪ specFreepvs pre ∪ (oldies.map (·.2)).toFinset
    if ¬ Disjoint preads (oldies.map (·.1)).toFinset then .error exn
    else
      let effect ← effReadPre T preads (effBind (oldies.map (·.1)).toFinset effect)
      let xreads := effect.effReads \ sarg
      checkTvs effect.effReads effect.effRaises result pre post xpost
      let effect ← ctyEffectOf T defensive xpost effect result
      .ok ⟨args, pre, post, xpost, oldies, { effect with effReads := xreads }, result⟩

end Mlw
end Why3
