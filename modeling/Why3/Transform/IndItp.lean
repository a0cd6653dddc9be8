import Why3.Core.Decl

/-!
Induction on an integer constant of a task.

A task is the list of its declarations, the goal is the last one. `induction` makes two
tasks: in one the constant is at most the bound, in the other it is above the bound and
the goal holds for all smaller values. There the goal is generalised over declarations
after the constant: one pass from the goal up takes those that share a constant with what
was taken before. A fresh variable is closed over at once; all of them have the tag `k`.
-/
namespace Why3
namespace IndItp

/-! The constants of a term or a declaration. -/

mutual
def addLsTerm : Term → Finset LSymbol
  | .tvar _ _ | .bvar _ _ _ | .tconst _ _ _ | .ttrue _ | .tfalse _ => ∅
  | .tapp _ ls tl _ => if tl.isEmpty then {ls} else addLsList tl
  | .tif _ f t e => addLsTerm f ∪ addLsTerm t ∪ addLsTerm e
  | .tlet _ t _ e => addLsTerm t ∪ addLsTerm e
  | .tcase _ t bl => addLsTerm t ∪ addLsBranches bl
  | .teps _ _ f | .tnot _ f => addLsTerm f
  | .tquant _ _ _ tr f => addLsTrigger tr ∪ addLsTerm f
  | .tbinop _ _ f g => addLsTerm f ∪ addLsTerm g
def addLsList : List Term → Finset LSymbol
  | [] => ∅
  | t :: tl => addLsTerm t ∪ addLsList tl
def addLsBranches : List (Pattern × Term) → Finset LSymbol
  | [] => ∅
  | (_, e) :: bl => addLsTerm e ∪ addLsBranches bl
def addLsTrigger : List (List Term) → Finset LSymbol
  | [] => ∅
  | l :: tr => addLsList l ∪ addLsTrigger tr
end

def collectLsymbol : DeclNode → Finset LSymbol
  | .dtype _ _ | .ddata _ => ∅
  | .dparam ls => {ls}
  | .dlogic ldl => ldl.foldl (fun s ld => insert ld.1 s ∪ addLsTerm ld.2.body) ∅
  | .dind _ idl =>
    idl.foldl (fun s d => d.2.foldl (fun s ax => s ∪ addLsTerm ax.2) (insert d.1 s)) ∅
  | .dprop _ _ f => addLsTerm f

/-! `tReplace ls ty v` is `t_replace` of the constant `ls` by the variable `v`. -/

section Replace

variable (ls : LSymbol) (ty : Ty) (v : VSymbol)

mutual
def tReplace : Term → Term
  | .tapp a s tl sty =>
    if s = ls ∧ tl.isEmpty ∧ sty = some ty then tVar v else .tapp a s (tReplaceList tl) sty
  | .tif a f t e => .tif a (tReplace f) (tReplace t) (tReplace e)
  | .tlet a t u e => .tlet a (tReplace t) u (tReplace e)
  | .tcase a t bl => .tcase a (tReplace t) (tReplaceBranches bl)
  | .teps a u f => .teps a u (tReplace f)
  | .tquant a q vl tr f => .tquant a q vl (tReplaceTrigger tr) (tReplace f)
  | .tbinop a op f g => .tbinop a op (tReplace f) (tReplace g)
  | .tnot a f => .tnot a (tReplace f)
  | .tvar a u => .tvar a u
  | .bvar a i bty => .bvar a i bty
  | .tconst a c cty => .tconst a c cty
  | .ttrue a => .ttrue a
  | .tfalse a => .tfalse a
def tReplaceList : List Term → List Term
  | [] => []
  | t :: tl => tReplace t :: tReplaceList tl
def tReplaceBranches : List (Pattern × Term) → List (Pattern × Term)
  | [] => []
  | (p, e) :: bl => (p, tReplace e) :: tReplaceBranches bl
def tReplaceTrigger : List (List Term) → List (List Term)
  | [] => []
  | l :: tr => tReplaceList l :: tReplaceTrigger tr
end

attribute [grind =] addLsTerm tReplace

end Replace

/-- The message of the exception `Arg_trans`. -/
abbrev ArgTrans := String

def revert (k : Nat) (g : Term) : DeclNode → Except ArgTrans Term
  | .dtype _ _ | .ddata _ => .error "revert: cannot revert type"
  | .dparam ls =>
    match ls.lsArgs, ls.lsValue with
    | [], some ty =>
      let v : VSymbol := ⟨⟨ls.lsName.idString, k⟩, ty⟩
      .ok (tQuantClose .tforall [v] [] (tReplace ls ty v g))
    | _, _ => .error ("revert: cannot revert:" ++ ls.lsName.idString)
  | .dlogic _ => .error "revert: cannot revert logic decls"
  | .dind _ _ => .error "revert: cannot revert induction decls"
  | .dprop .pgoal _ _ => .error "revert: cannot revert goal"
  | .dprop _ _ t => .ok (tImplies t g)

def revertChosenDecls (k : Nat) (gs : Term × Finset LSymbol) (d : DeclNode) :
    Except ArgTrans (Term × Finset LSymbol) :=
  if gs.2 ∩ collectLsymbol d = ∅ then .ok gs
  else (revert k gs.1 d).map fun g => (g, gs.2 ∪ collectLsymbol d)

def revertChosenDeclsList (k : Nat) (s : Finset LSymbol) (l : List DeclNode) (g : DeclNode)
    (t : Term) : Except ArgTrans Term :=
  (l.foldlM (revertChosenDecls k) (t, s ∪ collectLsymbol g)).map Prod.fst

section Induction

-- the symbols `<=` and `<` of the theory of integers
variable (leInt ltInt : LSymbol) (k : Nat) (lsx : LSymbol) (x bound : Term)

def createGoal (expl : String) (pr : PrSymbol) (t : Term) : DeclNode :=
  .dprop .pgoal pr (tAttrAdd ("expl:" ++ expl) t)

/-- The added hypotheses have a fresh name. -/
def createAxiom (name : String) (t : Term) : DeclNode := .dprop PropKind.paxiom ⟨⟨name, k⟩⟩ t

def initTrans : DeclNode → List DeclNode
  | .dprop .pgoal pr t =>
    [createAxiom k "Init" (.tapp ∅ leInt [x, bound] none), createGoal "base case" pr t]
  | d => [d]

/-- The goal for all values below `x`, over the generalised declarations. -/
def hrec (t : Term) : Term :=
  let n : VSymbol := ⟨⟨"n", k⟩, tyInt⟩
  tQuantClose .tforall [n] []
    (tImplies (.tapp ∅ ltInt [tVar n, x] none) (tReplace lsx tyInt n t))

/-- `passed` and `delta` are the references of the source. -/
def recTrans (passed : Bool) (delta : List DeclNode) :
    List DeclNode → Except ArgTrans (List DeclNode)
  | [] => .ok []
  | d :: task => match d with
    | .dprop .pgoal pr t =>
      if passed then do
        let tDelta ← revertChosenDeclsList k {lsx} delta d t
        let rest ← recTrans passed delta task
        .ok (createAxiom k "Init" (.tapp ∅ ltInt [bound, x] none) ::
          createAxiom k "Hrec" (hrec ltInt k lsx x tDelta) ::
          createGoal "recursive case" pr t :: rest)
      else .error "induction"
    | .dparam ls =>
      if ls = lsx then (d :: ·) <$> recTrans true delta task
      else (d :: ·) <$> recTrans passed (if passed then d :: delta else delta) task
    | .dprop _ _ _ => (d :: ·) <$> recTrans passed (if passed then d :: delta else delta) task
    | _ =>
      if passed then .error "induction Dlogic" else (d :: ·) <$> recTrans passed delta task

def induction (x : Term) (bound : Option Term) (task : List DeclNode) :
    Except ArgTrans (List (List DeclNode)) :=
  let bound := bound.getD (.tconst ∅ (.constInt ⟨.ilitUnk, 0⟩) tyInt)
  if x.tTy = some tyInt ∧ bound.tTy = some tyInt then
    match x with
    | .tapp _ lsx [] _ => do
      let recTask ← recTrans ltInt k lsx x bound false [] task
      .ok [task.flatMap (initTrans leInt k x bound), recTask]
    | _ => .error "induction"
  else .error "induction"

end Induction

end IndItp
end Why3
