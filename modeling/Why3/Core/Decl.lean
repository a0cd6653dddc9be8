import Why3.Core.Term
import Why3.Library.Except

/-!
Declarations and the known map.

`createDataDecl` makes the checks of `create_data_decl` in the order of the
source. The known map is an association list whose bindings are never shadowed:
`knownAddDecl` refuses an identifier it already has. The exhaustiveness check of
the pattern compiler is a parameter of `checkMatch`.
-/
namespace Why3

structure PrSymbol where
  prName : Ident
deriving DecidableEq, Repr

abbrev Constructor := LSymbol × List (Option LSymbol)

abbrev DataDecl := TySymbol × List Constructor

/-- A definition `ls vl = body`; the parameters are the indices of the body and
`decrease` is the list of argument positions found by the termination check. -/
structure LsDefn where
  ls : LSymbol
  vl : List VSymbol
  body : Term
  decrease : List Nat

abbrev LogicDecl := LSymbol × LsDefn

inductive IndSign where
  | ind | coind
deriving DecidableEq, Repr

abbrev IndDecl := LSymbol × List (PrSymbol × Term)

inductive PropKind where
  | plemma | paxiom | pgoal
deriving DecidableEq, Repr

inductive DeclNode where
  | dtype (ts : TySymbol) (body : Option Ty)
  | ddata (tdl : List DataDecl)
  | dparam (ls : LSymbol)
  | dlogic (ldl : List LogicDecl)
  | dind (s : IndSign) (idl : List IndDecl)
  | dprop (k : PropKind) (pr : PrSymbol) (f : Term)

/-- `dTag` is the number hash-consing gives to the declaration. -/
structure Decl where
  dNode : DeclNode
  dNews : List Ident
  dTag : Nat

inductive DeclError where
  | emptyDecl
  | emptyAlgDecl (ts : TySymbol)
  | illegalTypeAlias (ts : TySymbol)
  | clashIdent (id : Ident)
  | typeMismatch (ty1 ty2 : Ty)
  | duplicateRecordField (ls : LSymbol)
  | badRecordField (ls : LSymbol)
  | recordFieldMissing (ls : LSymbol)
  | badConstructor (fs : LSymbol)
  | unboundTypeVar (v : TvSymbol)
  | nonPositiveTypeDecl (ts : TySymbol) (cs : LSymbol) (ty : Ty)
  | nonFoundedTypeDecl (ts : TySymbol)
  | badLogicDecl (ls s : LSymbol)
  | noTerminationProof (ls : LSymbol)
  | knownIdent (id : Ident)
  | unknownIdent (id : Ident)
  | redeclaredIdent (id : Ident)
  | nonExhaustive (pl : List Pattern)
  | notFound
  | invalidArgument
  | assertFalse
  | outOfFuel
deriving Repr

def newsId (s : List Ident) (id : Ident) : Except DeclError (List Ident) :=
  if id ∈ s then .error (.clashIdent id) else .ok (id :: s)

def tyEqualCheck (ty1 ty2 : Ty) : Except DeclError Unit :=
  if ty1 = ty2 then .ok () else .error (.typeMismatch ty1 ty2)

/-! Algebraic declarations. -/

section CreateDataDecl

def checkProj (tyv : Ty) (s : List LSymbol) (tya : Ty) :
    Option LSymbol → Except DeclError (List LSymbol)
  | none => .ok s
  | some ls =>
    match ls.lsArgs, ls.lsValue, ls.lsConstr with
    | [ptyv], some ptya, 0 => do
      tyEqualCheck tyv ptyv
      tyEqualCheck tya ptya
      if ls ∈ s then .error (.duplicateRecordField ls) else .ok (ls :: s)
    | _, _, _ => .error (.badRecordField ls)

def checkProjs (fs : LSymbol) (tyv : Ty) :
    List LSymbol → List Ty → List (Option LSymbol) → Except DeclError (List LSymbol)
  | s, [], [] => .ok s
  | s, tya :: tyl, pj :: pl => do
    let s ← checkProj tyv s tya pj
    checkProjs fs tyv s tyl pl
  | _, _, _ => .error (.badConstructor fs)

mutual
/-- A symbol of the group may not occur under another one, and the type
variables are those of the defined type. -/
def checkOccur (tss : List TySymbol) (vs : Finset TvSymbol) (tys : TySymbol) (fs : LSymbol) :
    Bool → Ty → Except DeclError Unit
  | _, .tyvar v => if v ∈ vs then .ok () else .error (.unboundTypeVar v)
  | seen, .tyapp ts tl =>
    if seen && tss.contains ts then .error (.nonPositiveTypeDecl tys fs (.tyapp ts tl))
    else checkOccurList tss vs tys fs (seen || tss.contains ts) tl
def checkOccurList (tss : List TySymbol) (vs : Finset TvSymbol) (tys : TySymbol) (fs : LSymbol) :
    Bool → List Ty → Except DeclError Unit
  | _, [] => .ok ()
  | seen, t :: tl => do
    checkOccur tss vs tys fs seen t
    checkOccurList tss vs tys fs seen tl
end

def constrValue (fs : LSymbol) : Except DeclError Ty :=
  match fs.lsValue with
  | some ty => .ok ty
  | none => .error (.badConstructor fs)

/-- The fields of a constructor are all those of the declaration. -/
def checkFields (pjs fsPjs : List LSymbol) : Except DeclError Unit :=
  if pjs.all fsPjs.contains && fsPjs.all pjs.contains then .ok ()
  else match pjs.find? (fun pj => !fsPjs.contains pj) with
    | some pj => .error (.recordFieldMissing pj)
    | none => .error .notFound

def checkConstr (tss : List TySymbol) (tys : TySymbol) (ty : Ty) (cll : Nat)
    (pjs : List LSymbol) (news : List Ident) (c : Constructor) :
    Except DeclError (List Ident) := do
  let value ← constrValue c.1
  tyEqualCheck ty value
  let fsPjs ← checkProjs c.1 ty [] c.1.lsArgs c.2
  checkFields pjs fsPjs
  if c.1.lsConstr ≠ cll then .error (.badConstructor c.1) else
  checkOccurList tss (tyFreevars ty) tys c.1 false c.1.lsArgs
  newsId news c.1.lsName

def dataProjections (cl : List Constructor) : List LSymbol :=
  (cl.flatMap fun c => c.2.filterMap id).dedup

def checkDataDecl (tss : List TySymbol) (news : List Ident) (d : DataDecl) :
    Except DeclError (List Ident) := do
  let (ts, cl) := d
  if cl.isEmpty then .error (.emptyAlgDecl ts) else
  if ts.tsDef ≠ .noDef then .error (.illegalTypeAlias ts) else
  let news ← newsId news ts.tsName
  let pjs := dataProjections cl
  let news ← pjs.foldlM (fun s pj => newsId s pj.lsName) news
  cl.foldlM (checkConstr tss ts (.tyapp ts (ts.tsArgs.map .tyvar)) cl.length pjs) news

def createDataDecl (tag : Nat) (tdl : List DataDecl) : Except DeclError Decl := do
  if tdl.isEmpty then .error .emptyDecl else
  let news ← tdl.foldlM (checkDataDecl (tdl.map (·.1))) []
  .ok ⟨.ddata tdl, news, tag⟩

end CreateDataDecl

/-! Symbols that a declaration uses. -/

def symsDataDecl (tdl : List DataDecl) : List Ident :=
  tdl.flatMap fun d => d.2.flatMap fun c => symsTyList c.1.lsArgs

def symsParamDecl (ls : LSymbol) : List Ident :=
  (ls.lsValue.map symsTy).getD [] ++ symsTyList ls.lsArgs

def symsLogicDecl (ldl : List LogicDecl) : List Ident :=
  ldl.flatMap fun ld => symsTyList ld.1.lsArgs ++ symsTerm ld.2.body

def symsIndDecl (idl : List IndDecl) : List Ident :=
  idl.flatMap fun d => d.2.flatMap fun ax => symsTerm ax.2

def getDeclSyms (d : Decl) : List Ident :=
  match d.dNode with
  | .dtype _ body => (body.map symsTy).getD []
  | .ddata tdl => symsDataDecl tdl
  | .dparam ls => symsParamDecl ls
  | .dlogic ldl => symsLogicDecl ldl
  | .dind _ idl => symsIndDecl idl
  | .dprop _ _ f => symsTerm f

/-! The known map. -/

abbrev KnownMap := List (Ident × Decl)

variable (kn : KnownMap)

def KnownMap.find (id : Ident) : Option Decl := kn.lookup id

def KnownMap.addNews (d : Decl) : KnownMap :=
  d.dNews.map (fun id => (id, d)) ++ kn

/-- The first `known_add_decl` of the source, which the second one shadows: the
union, before the checks on types and matches. -/
def knownUnion (d : Decl) : Except DeclError KnownMap :=
  match d.dNews.find? (fun id => (kn.find id).isSome) with
  | some id =>
    match kn.find id with
    | some d0 => if d0.dTag = d.dTag then .error (.knownIdent id) else .error (.redeclaredIdent id)
    | none => .error .assertFalse
  | none =>
    match (getDeclSyms d).find? (fun id => ((kn.addNews d).find id).isNone) with
    | none => .ok (kn.addNews d)
    | some id => .error (.unknownIdent id)

def findConstructors (ts : TySymbol) : Except DeclError (List Constructor) :=
  match kn.find ts.tsName with
  | none => .error .notFound
  | some d =>
    match d.dNode with
    | .dtype _ _ => .ok []
    | .ddata dl =>
      match dl.lookup ts with
      | some cl => .ok cl
      | none => .error .notFound
    | .dparam _ | .dlogic _ | .dind _ _ | .dprop _ _ _ => .error .assertFalse

/-! Positivity. -/

section Positivity

variable (pos : TySymbol → Except DeclError (List Bool))

mutual
/-- The variables of a type below a negative argument, added to `stv`. -/
def getTy : Finset TvSymbol → Ty → Except DeclError (Finset TvSymbol)
  | stv, .tyvar _ => .ok stv
  | stv, .tyapp ts tl => do
    let ps ← pos ts
    getTyArgs stv ps tl
def getTyArgs : Finset TvSymbol → List Bool → List Ty → Except DeclError (Finset TvSymbol)
  | stv, [], [] => .ok stv
  | stv, true :: ps, t :: tl => do
    let stv ← getTy stv t
    getTyArgs stv ps tl
  | stv, false :: ps, t :: tl => getTyArgs (stv ∪ tyFreevars t) ps tl
  | _, _, _ => .error .invalidArgument
end

/-- The symbols being explored are in `sts`; a chain of them has at most as many
elements as the known map, so that this is enough `fuel`. -/
def tsExtractPosFuel :
    Nat → List TySymbol → TySymbol → Except DeclError (List Bool)
  | 0, _, _ => .error .outOfFuel
  | fuel + 1, sts, ts =>
    if ts = tsFunc then .ok [false, true]
    else if ts ∈ sts then .ok (ts.tsArgs.map fun _ => true)
    else do
      let csl ← findConstructors kn ts
      if csl.isEmpty then .ok (ts.tsArgs.map fun _ => false)
      else
        let get := getTy (tsExtractPosFuel fuel (ts :: sts))
        let negs ← csl.foldlM (fun acc cs => cs.1.lsArgs.foldlM get acc) ∅
        .ok (ts.tsArgs.map fun v => decide (v ∉ negs))

def tsExtractPos (sts : List TySymbol) (ts : TySymbol) :
    Except DeclError (List Bool) :=
  tsExtractPosFuel kn (kn.length + 1) sts ts

variable (tss : List TySymbol) (tys : TySymbol) (cs : LSymbol)

mutual
def checkTy : Ty → Except DeclError Unit
  | .tyvar _ => .ok ()
  | .tyapp ts tl => do
    let ps ← pos ts
    checkTyArgs ps tl
def checkTyArgs : List Bool → List Ty → Except DeclError Unit
  | [], [] => .ok ()
  | true :: ps, t :: tl => do
    checkTy t
    checkTyArgs ps tl
  | false :: ps, t :: tl =>
    if tySAny tss.contains t then .error (.nonPositiveTypeDecl tys cs t)
    else checkTyArgs ps tl
  | _, _ => .error .invalidArgument
end

def checkPositivity (d : Decl) : Except DeclError Unit :=
  match d.dNode with
  | .ddata tdl =>
    forM tdl fun td => forM td.2 fun c =>
      forM c.1.lsArgs (checkTy (tsExtractPos kn []) (tdl.map (·.1)) td.1 c.1)
  | _ => .ok ()

end Positivity

/-! Inhabitation. -/

section Foundness

variable (checkTs : Finset TvSymbol → TySymbol → Except DeclError Bool)

mutual
def checkType (tvs : Finset TvSymbol) : Ty → Except DeclError Bool
  | .tyvar tv => .ok (decide (tv ∉ tvs))
  | .tyapp ts tl => do
    let tvs ← checkTypeArgs tvs ∅ ts.tsArgs tl
    checkTs tvs ts
def checkTypeArgs (tvs : Finset TvSymbol) :
    Finset TvSymbol → List TvSymbol → List Ty → Except DeclError (Finset TvSymbol)
  | acc, [], [] => .ok acc
  | acc, tv :: vl, ty :: tl => do
    let b ← checkType tvs ty
    checkTypeArgs tvs (if b then acc else insert tv acc) vl tl
  | _, _, _ => .error .invalidArgument
end

def checkTsFuel :
    Nat → List TySymbol → Finset TvSymbol → TySymbol → Except DeclError Bool
  | 0, _, _, _ => .error .outOfFuel
  | fuel + 1, tss, tvs, ts =>
    if ts ∈ tss then .ok false
    else do
      let cl ← findConstructors kn ts
      if cl.isEmpty then .ok (decide (tvs = ∅))
      else cl.anyM fun c => c.1.lsArgs.allM (checkType (checkTsFuel fuel (ts :: tss)) tvs)

def checkFoundness (d : Decl) : Except DeclError Unit :=
  match d.dNode with
  | .ddata tdl =>
    forM tdl fun td => do
      let b ← checkTsFuel kn (kn.length + 1) [] ∅ td.1
      if b then .ok () else .error (.nonFoundedTypeDecl td.1)
  | _ => .ok ()

end Foundness

/-! Exhaustiveness of matches. -/

section CheckMatch

/-- The check of one matrix: the constructors of a type, the matched term and the
patterns. -/
abbrev CheckCompile :=
  (TySymbol → Except DeclError (List LSymbol)) → Term → List Pattern → Except DeclError Unit

variable (checkCompile : CheckCompile) (kn : KnownMap)

mutual
def checkMatchTerm : Term → Except DeclError Unit
  | .tvar _ _ | .bvar _ _ _ | .tconst _ _ _ | .ttrue _ | .tfalse _ => .ok ()
  | .tapp _ _ tl _ => checkMatchList tl
  | .tif _ f t e => do
    checkMatchTerm f
    checkMatchTerm t
    checkMatchTerm e
  | .tlet _ t _ e => do
    checkMatchTerm t
    checkMatchTerm e
  | .tcase _ t bl => do
    let getConstructors := fun ts => (·.map (·.1)) <$> findConstructors kn ts
    checkCompile getConstructors t (bl.map (·.1))
    checkMatchTerm t
    checkMatchBranches bl
  | .teps _ _ f => checkMatchTerm f
  | .tquant _ _ _ tr f => do
    checkMatchTerm f
    checkMatchTrigger tr
  | .tbinop _ _ f g => do
    checkMatchTerm f
    checkMatchTerm g
  | .tnot _ f => checkMatchTerm f
def checkMatchList : List Term → Except DeclError Unit
  | [] => .ok ()
  | t :: tl => do
    checkMatchTerm t
    checkMatchList tl
def checkMatchBranches : List (Pattern × Term) → Except DeclError Unit
  | [] => .ok ()
  | (_, e) :: bl => do
    checkMatchTerm e
    checkMatchBranches bl
def checkMatchTrigger : List (List Term) → Except DeclError Unit
  | [] => .ok ()
  | l :: tr => do
    checkMatchList l
    checkMatchTrigger tr
end

def checkMatch (d : Decl) : Except DeclError Unit :=
  match d.dNode with
  | .dtype _ _ | .ddata _ | .dparam _ => .ok ()
  | .dlogic ldl => forM ldl fun ld => checkMatchTerm checkCompile kn ld.2.body
  | .dind _ idl => forM idl fun d => forM d.2 fun ax => checkMatchTerm checkCompile kn ax.2
  | .dprop _ _ f => checkMatchTerm checkCompile kn f

end CheckMatch

def knownAddDecl (checkCompile : CheckCompile) (kn : KnownMap) (d : Decl) :
    Except DeclError KnownMap := do
  let kn ← knownUnion kn d
  checkPositivity kn d
  checkFoundness kn d
  checkMatch checkCompile kn d
  .ok kn

end Why3
