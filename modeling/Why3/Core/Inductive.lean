import Why3.Core.Decl
import Why3.Core.GenMap

/-!
Inductive declarations.

`createIndDecl` cuts every axiom into premises and a conclusion and checks that the
defined predicates occur in them at positive places only. `Found` of the source,
raised at the first predicate that does not, is the error of the checks here; what
they return otherwise is a boolean that the declaration does not look at.
-/
namespace Why3

/-! Logic symbols in the order of `t_s_fold`. -/

mutual
def lsymsPat : Pattern → List LSymbol
  | .pwild _ | .pvar _ => []
  | .papp cs pl _ => cs :: lsymsPatList pl
  | .por p q => lsymsPat p ++ lsymsPat q
  | .pas p _ => lsymsPat p
def lsymsPatList : List Pattern → List LSymbol
  | [] => []
  | p :: pl => lsymsPat p ++ lsymsPatList pl
end

mutual
def lsymsTerm : Term → List LSymbol
  | .tvar _ _ | .bvar _ _ _ | .tconst _ _ _ | .ttrue _ | .tfalse _ => []
  | .tapp _ ls tl _ => ls :: lsymsList tl
  | .tif _ f t e => lsymsTerm f ++ lsymsTerm t ++ lsymsTerm e
  | .tlet _ t _ e => lsymsTerm t ++ lsymsTerm e
  | .tcase _ t bl => lsymsTerm t ++ lsymsBranches bl
  | .teps _ _ f => lsymsTerm f
  | .tquant _ _ _ tr f => lsymsTrigger tr ++ lsymsTerm f
  | .tbinop _ _ f g => lsymsTerm f ++ lsymsTerm g
  | .tnot _ f => lsymsTerm f
def lsymsList : List Term → List LSymbol
  | [] => []
  | t :: tl => lsymsTerm t ++ lsymsList tl
def lsymsBranches : List (Pattern × Term) → List LSymbol
  | [] => []
  | (p, e) :: bl => lsymsPat p ++ lsymsTerm e ++ lsymsBranches bl
def lsymsTrigger : List (List Term) → List LSymbol
  | [] => []
  | l :: tr => lsymsList l ++ lsymsTrigger tr
end

/-! Positivity. -/

section Positive

variable (sps : List LSymbol)

def lsMem (s : LSymbol) : Except LSymbol Bool :=
  if s ∈ sps then .error s else .ok false

def tPosPs (t : Term) : Except LSymbol Bool :=
  (lsymsTerm t).allM fun s => (!·) <$> lsMem sps s

/-- Conjunction that does not run its second part after `false`. -/
def andAlso (x y : Except LSymbol Bool) : Except LSymbol Bool := do
  let b ← x
  if b then y else .ok false

/-- The guards of an application below a negation or an equivalence. -/
def headPosPs (s : LSymbol) : Option Bool → Except LSymbol Bool
  | some true => .ok true
  | some false | none => (!·) <$> lsMem sps s

mutual
/-- Arguments, let-bound and matched positions hold terms, for which `t_select`
takes `tPosPs`. -/
def fPosPs : Option Bool → Term → Except LSymbol Bool
  | pol, .tapp _ s tl _ => andAlso (headPosPs sps s pol) (tl.allM (tPosPs sps))
  | _, .tbinop _ .tiff f g => andAlso (fPosPs none f) (fPosPs none g)
  | pol, .tbinop _ .timplies f g => andAlso (fPosPs (pol.map not) f) (fPosPs pol g)
  | pol, .tbinop _ .tand f g | pol, .tbinop _ .tor f g => andAlso (fPosPs pol f) (fPosPs pol g)
  | pol, .tnot _ f => fPosPs (pol.map not) f
  | pol, .tif _ f g h => andAlso (fPosPs none f) (andAlso (fPosPs pol g) (fPosPs pol h))
  | pol, .tlet _ t _ f => andAlso (tPosPs sps t) (fPosPs pol f)
  | pol, .tcase _ t bl => andAlso (tPosPs sps t) (fPosBranches pol bl)
  | pol, .teps _ _ f => fPosPs pol f
  | pol, .tquant _ _ _ tr f => andAlso (fPosPs pol f) (fPosTrigger pol tr)
  | _, .tvar _ _ | _, .bvar _ _ _ | _, .tconst _ _ _ | _, .ttrue _ | _, .tfalse _ => .ok true
def fPosBranches : Option Bool → List (Pattern × Term) → Except LSymbol Bool
  | _, [] => .ok true
  | pol, (_, f) :: bl => andAlso (fPosPs pol f) (fPosBranches pol bl)
def fPosList : Option Bool → List Term → Except LSymbol Bool
  | _, [] => .ok true
  | pol, t :: tl =>
    andAlso (if t.tTy.isNone then fPosPs pol t else tPosPs sps t) (fPosList pol tl)
def fPosTrigger : Option Bool → List (List Term) → Except LSymbol Bool
  | _, [] => .ok true
  | pol, l :: tr => andAlso (fPosList pol l) (fPosTrigger pol tr)
end

end Positive

/-! Clauses. -/

/-- The premises and the conclusion of a clause. The symbols `ul` stand for the
bindings that are open, the innermost first, and `k` is the next fresh tag. -/
def clause (k : Nat) (ul : List VSymbol) (acc : List Term) : Term → List Term × Term
  | .tquant _ .tforall vl _ f => clause (k + vl.length) (renameVars k vl ++ ul) acc f
  | .tbinop _ .timplies g f => clause k ul (g.openWith ul :: acc) f
  | .tlet _ t v f =>
    let u : VSymbol := ⟨⟨v.vsName.idString, k⟩, v.vsTy⟩
    clause (k + 1) (u :: ul) (tEqu (tVar u) (t.openWith ul) :: acc) f
  | f => (acc, f.openWith ul)

/-! The declaration. -/

inductive IndError where
  | decl (e : DeclError)
  | emptyIndDecl (ls : LSymbol)
  | invalidIndDecl (ps : LSymbol) (pr : PrSymbol)
  | nonPositiveIndDecl (ps : LSymbol) (pr : PrSymbol) (ls : LSymbol)
  | unboundVar (v : VSymbol)
  | fmlaExpected (f : Term)
  | termExpected (t : Term)

def liftDecl {α : Type} (x : Except DeclError α) : Except IndError α := x.mapError .decl

def byTag (vl : List VSymbol) : List VSymbol :=
  vl.insertionSort fun u v => u.vsName.idTag ≤ v.vsName.idTag

mutual
/-- The free variables in the order of `t_v_fold`: those of a bound body by their tags. -/
def tVFold : Term → List VSymbol
  | .tvar _ v => [v]
  | .bvar _ _ _ | .tconst _ _ _ | .ttrue _ | .tfalse _ => []
  | .tapp _ _ tl _ => tVFoldList tl
  | .tif _ f t e => tVFold f ++ tVFold t ++ tVFold e
  | .tlet _ t _ e => tVFold t ++ byTag (tVFold e)
  | .tcase _ t bl => tVFold t ++ tVFoldBranches bl
  | .teps _ _ f => byTag (tVFold f)
  | .tquant _ _ _ tr f => byTag (tVFoldTrigger tr ++ tVFold f)
  | .tbinop _ _ f g => tVFold f ++ tVFold g
  | .tnot _ f => tVFold f
def tVFoldList : List Term → List VSymbol
  | [] => []
  | t :: tl => tVFold t ++ tVFoldList tl
def tVFoldBranches : List (Pattern × Term) → List VSymbol
  | [] => []
  | (_, e) :: bl => byTag (tVFold e) ++ tVFoldBranches bl
def tVFoldTrigger : List (List Term) → List VSymbol
  | [] => []
  | l :: tr => tVFoldList l ++ tVFoldTrigger tr
end

def checkFvs (f : Term) : Except IndError Term :=
  match tVFold f with
  | v :: _ => .error (.unboundVar v)
  | [] => if f.tTy.isNone then .ok f else .error (.fmlaExpected f)

def checkTl : List Ty → List Term → Except IndError Unit
  | [], [] => .ok ()
  | ty :: tyl, t :: tl =>
    match t.tTy with
    | none => .error (.termExpected t)
    | some ty' => do
      liftDecl (tyEqualCheck ty ty')
      checkTl tyl tl
  | _, _ => .error (.decl .invalidArgument)

def checkPosPs (sps : List LSymbol) (ps : LSymbol) (pr : PrSymbol) (fl : List Term) :
    Except IndError Unit :=
  match fl.allM (fPosPs sps (some true)) with
  | .ok _ => .ok ()
  | .error ls => .error (.nonPositiveIndDecl ps pr ls)

/-- The unbound type variable with the least tag is named. -/
def checkTyVars (f g : Term) : Except IndError Unit :=
  match ((tTyVars f).filter fun v => v ∉ tTyVars g).insertionSort
      fun u v => u.tvName.idTag ≤ v.tvName.idTag with
  | v :: _ => .error (.decl (.unboundTypeVar v))
  | [] => .ok ()

def checkAx (sps : List LSymbol) (ps : LSymbol) (news : List Ident) (ax : PrSymbol × Term) :
    Except IndError (List Ident) := do
  let f ← checkFvs ax.2
  let c := clause 0 [] [] f
  match c.2 with
  | .tapp _ s tl _ =>
    if s = ps then do
      checkTl ps.lsArgs tl
      checkPosPs sps ps ax.1 (c.2 :: c.1)
      checkTyVars f c.2
      liftDecl (newsId news ax.1.prName)
    else .error (.invalidIndDecl ps ax.1)
  | _ => .error (.invalidIndDecl ps ax.1)

def checkIndDecl (sps : List LSymbol) (news : List Ident) (d : IndDecl) :
    Except IndError (List Ident) :=
  if d.2.isEmpty then .error (.emptyIndDecl d.1) else do
  let news ← liftDecl (newsId news d.1.lsName)
  d.2.foldlM (checkAx sps d.1) news

def createIndDecl (tag : Nat) (s : IndSign) (idl : List IndDecl) : Except IndError Decl :=
  if idl.isEmpty then .error (.decl .emptyDecl) else do
  let news ← idl.foldlM (checkIndDecl (idl.map (·.1))) []
  .ok ⟨.dind s idl, news, tag⟩

end Why3
