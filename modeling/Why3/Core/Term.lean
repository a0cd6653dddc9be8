import Why3.Core.Ty

/-!
Symbols, patterns and terms.

Bindings are locally nameless: a closed binding keeps the variable symbols it
was made with, as `t_close_*` does, and its body refers to the `i`-th of them by
a bound index. Opening replaces the indices by fresh symbols and closing is the
converse, so that substitution for free symbols cannot capture. A term carries
its attributes; locations are not modelled.
-/
namespace Why3

structure VSymbol where
  vsName : Ident
  vsTy : Ty
deriving DecidableEq, Repr

structure LSymbol where
  lsName : Ident
  lsArgs : List Ty
  lsValue : Option Ty
  lsConstr : Nat
deriving DecidableEq, Repr

inductive Pattern where
  | pwild (ty : Ty)
  | pvar (v : VSymbol)
  | papp (cs : LSymbol) (pl : List Pattern) (ty : Ty)
  | por (p q : Pattern)
  | pas (p : Pattern) (v : VSymbol)
deriving Repr

inductive IntLiteralKind where
  | ilitUnk | ilitDec | ilitHex | ilitOct | ilitBin
deriving DecidableEq, Repr

structure IntConstant where
  ilKind : IntLiteralKind
  ilInt : Int
deriving DecidableEq, Repr

/-- The real number `rvSig * 2 ^ rvPow2 * 5 ^ rvPow5`. -/
structure RealValue where
  rvSig : Int
  rvPow2 : Int
  rvPow5 : Int
deriving DecidableEq, Repr

inductive RealLiteralKind where
  | rlitUnk
  | rlitDec (digits : Nat)
  | rlitHex (digits : Nat)
deriving DecidableEq, Repr

structure RealConstant where
  rlKind : RealLiteralKind
  rlReal : RealValue
deriving DecidableEq, Repr

inductive Constant where
  | constInt (i : IntConstant)
  | constReal (r : RealConstant)
  | constStr (s : String)
deriving DecidableEq, Repr

inductive Quant where
  | tforall | texists
deriving DecidableEq, Repr

inductive Binop where
  | tand | tor | timplies | tiff
deriving DecidableEq, Repr

/-- Attributes are identified by their text. -/
abbrev Attrs := Finset String

inductive Term where
  | tvar (a : Attrs) (v : VSymbol)
  | bvar (a : Attrs) (i : Nat) (ty : Ty)
  | tconst (a : Attrs) (c : Constant) (ty : Ty)
  | tapp (a : Attrs) (ls : LSymbol) (tl : List Term) (ty : Option Ty)
  | tif (a : Attrs) (f t e : Term)
  | tlet (a : Attrs) (t : Term) (v : VSymbol) (e : Term)
  | tcase (a : Attrs) (t : Term) (bl : List (Pattern × Term))
  | teps (a : Attrs) (v : VSymbol) (f : Term)
  | tquant (a : Attrs) (q : Quant) (vl : List VSymbol) (tr : List (List Term)) (f : Term)
  | tbinop (a : Attrs) (op : Binop) (f g : Term)
  | tnot (a : Attrs) (f : Term)
  | ttrue (a : Attrs)
  | tfalse (a : Attrs)

@[elab_as_elim]
theorem Pattern.induct {P : Pattern → Prop} (pwild : ∀ ty, P (.pwild ty)) (pvar : ∀ v, P (.pvar v))
    (papp : ∀ cs pl ty, (∀ p ∈ pl, P p) → P (.papp cs pl ty))
    (por : ∀ p q, P p → P q → P (.por p q))
    (pas : ∀ p v, P p → P (.pas p v)) (p : Pattern) : P p := by
  refine @Pattern.rec P (fun pl => ∀ p ∈ pl, P p) pwild pvar
    (fun cs pl ty h => papp cs pl ty h) por pas ?_ ?_ p
  · simp
  · intro p pl hp hpl
    simpa using ⟨hp, hpl⟩

@[elab_as_elim]
theorem Term.induct {P : Term → Prop}
    (tvar : ∀ a v, P (.tvar a v)) (bvar : ∀ a i ty, P (.bvar a i ty))
    (tconst : ∀ a c ty, P (.tconst a c ty))
    (tapp : ∀ a ls tl ty, (∀ t ∈ tl, P t) → P (.tapp a ls tl ty))
    (tif : ∀ a f t e, P f → P t → P e → P (.tif a f t e))
    (tlet : ∀ a t v e, P t → P e → P (.tlet a t v e))
    (tcase : ∀ a t bl, P t → (∀ b ∈ bl, P b.2) → P (.tcase a t bl))
    (teps : ∀ a v f, P f → P (.teps a v f))
    (tquant : ∀ a q vl tr f, (∀ l ∈ tr, ∀ t ∈ l, P t) → P f → P (.tquant a q vl tr f))
    (tbinop : ∀ a op f g, P f → P g → P (.tbinop a op f g)) (tnot : ∀ a f, P f → P (.tnot a f))
    (ttrue : ∀ a, P (.ttrue a)) (tfalse : ∀ a, P (.tfalse a)) (t : Term) : P t := by
  refine @Term.rec P (fun tl => ∀ t ∈ tl, P t) (fun bl => ∀ b ∈ bl, P b.2)
    (fun tr => ∀ l ∈ tr, ∀ t ∈ l, P t) (fun b => P b.2)
    tvar bvar tconst (fun a ls tl ty h => tapp a ls tl ty h) tif tlet
    (fun a t bl ht hbl => tcase a t bl ht hbl) teps
    (fun a q vl tr f htr hf => tquant a q vl tr f htr hf) tbinop tnot ttrue tfalse
    ?_ ?_ ?_ ?_ ?_ ?_ ?_ t
  all_goals simp +contextual

/-! Pattern variables, in the order of their first occurrence. -/

mutual
def patVars : Pattern → List VSymbol
  | .pwild _ => []
  | .pvar v => [v]
  | .papp _ pl _ => patVarsList pl
  | .por p _ => patVars p
  | .pas p v => patVars p ++ [v]
def patVarsList : List Pattern → List VSymbol
  | [] => []
  | p :: pl => patVars p ++ patVarsList pl
end

def patTy : Pattern → Ty
  | .pwild ty => ty
  | .pvar v => v.vsTy
  | .papp _ _ ty => ty
  | .por p _ => patTy p
  | .pas _ v => v.vsTy

namespace Term

def attrs : Term → Attrs
  | tvar a _ | bvar a _ _ | tconst a _ _ | tapp a _ _ _ | tif a _ _ _ | tlet a _ _ _
  | tcase a _ _ | teps a _ _ | tquant a _ _ _ _ | tbinop a _ _ _ | tnot a _
  | ttrue a | tfalse a => a

def setAttrs (a : Attrs) : Term → Term
  | tvar _ v => tvar a v
  | bvar _ i ty => bvar a i ty
  | tconst _ c ty => tconst a c ty
  | tapp _ ls tl ty => tapp a ls tl ty
  | tif _ f t e => tif a f t e
  | tlet _ t v e => tlet a t v e
  | tcase _ t bl => tcase a t bl
  | teps _ v f => teps a v f
  | tquant _ q vl tr f => tquant a q vl tr f
  | tbinop _ op f g => tbinop a op f g
  | tnot _ f => tnot a f
  | ttrue _ => ttrue a
  | tfalse _ => tfalse a

/-- The type of a term, `none` for a formula. -/
def tTy : Term → Option Ty
  | tvar _ v => some v.vsTy
  | bvar _ _ ty => some ty
  | tconst _ _ ty => some ty
  | tapp _ _ _ ty => ty
  | tif _ _ t _ => tTy t
  | tlet _ _ _ e => tTy e
  | tcase _ _ [] => none
  | tcase _ _ ((_, e) :: _) => tTy e
  | teps _ v _ => some v.vsTy
  | tquant _ _ _ _ _ | tbinop _ _ _ _ | tnot _ _ | ttrue _ | tfalse _ => none

attribute [grind =] tTy

end Term

def tAttrSet (a : Attrs) (t : Term) : Term := t.setAttrs a

def tAttrAdd (l : String) (t : Term) : Term := t.setAttrs (insert l t.attrs)

def tAttrRemove (l : String) (t : Term) : Term := t.setAttrs (t.attrs.erase l)

/-- The source returns `s` itself when the nodes agree and `t` has no attribute;
that is the same term. -/
def tAttrCopy (s t : Term) : Term := t.setAttrs (s.attrs ∪ t.attrs)

namespace Term

/-! One traversal for opening, closing, lifting and substitution. The two
functions give the image of a free symbol and of a bound index under `k`
binders of the term. -/

section MapVars

variable (fv : Nat → Attrs → VSymbol → Term) (bv : Nat → Attrs → Nat → Ty → Term)

mutual
def mapVars : Nat → Term → Term
  | k, tvar a v => fv k a v
  | k, bvar a i ty => bv k a i ty
  | _, tconst a c ty => tconst a c ty
  | k, tapp a ls tl ty => tapp a ls (mapVarsList k tl) ty
  | k, tif a f t e => tif a (mapVars k f) (mapVars k t) (mapVars k e)
  | k, tlet a t v e => tlet a (mapVars k t) v (mapVars (k + 1) e)
  | k, tcase a t bl => tcase a (mapVars k t) (mapVarsBranches k bl)
  | k, teps a v f => teps a v (mapVars (k + 1) f)
  | k, tquant a q vl tr f =>
    tquant a q vl (mapVarsTrigger (k + vl.length) tr) (mapVars (k + vl.length) f)
  | k, tbinop a op f g => tbinop a op (mapVars k f) (mapVars k g)
  | k, tnot a f => tnot a (mapVars k f)
  | _, ttrue a => ttrue a
  | _, tfalse a => tfalse a
def mapVarsList : Nat → List Term → List Term
  | _, [] => []
  | k, t :: tl => mapVars k t :: mapVarsList k tl
def mapVarsBranches : Nat → List (Pattern × Term) → List (Pattern × Term)
  | _, [] => []
  | k, (p, e) :: bl => (p, mapVars (k + (patVars p).length) e) :: mapVarsBranches k bl
def mapVarsTrigger : Nat → List (List Term) → List (List Term)
  | _, [] => []
  | k, l :: tr => mapVarsList k l :: mapVarsTrigger k tr
end

@[simp] theorem mapVarsList_eq_map (k : Nat) (tl : List Term) :
    mapVarsList fv bv k tl = tl.map (mapVars fv bv k) :=
  ListRec.eq_map rfl (fun _ _ => rfl) tl

@[simp] theorem mapVarsBranches_eq_map (k : Nat) (bl : List (Pattern × Term)) :
    mapVarsBranches fv bv k bl =
      bl.map (fun b => (b.1, mapVars fv bv (k + (patVars b.1).length) b.2)) :=
  ListRec.eq_map rfl (fun _ _ => rfl) bl

@[simp] theorem mapVarsTrigger_eq_map (k : Nat) (tr : List (List Term)) :
    mapVarsTrigger fv bv k tr = tr.map (fun l => l.map (mapVars fv bv k)) :=
  ListRec.eq_map rfl (fun _ _ => by simp [mapVarsTrigger]) tr

end MapVars

/-- The symbols `vl` become the indices of the innermost binding. -/
def close (vl : List VSymbol) (t : Term) : Term :=
  mapVars (fun k a v => match vl.idxOf? v with
      | some j => bvar a (k + j) v.vsTy
      | none => tvar a v)
    (fun k a i ty => if i < k then bvar a i ty else bvar a (i + vl.length) ty) 0 t

/-- The indices of the innermost binding become the symbols `ul`. -/
def openWith (ul : List VSymbol) (t : Term) : Term :=
  mapVars (fun _ a v => tvar a v)
    (fun k a i ty => if i < k then bvar a i ty else
      match ul[i - k]? with
      | some u => tvar a u
      | none => bvar a (i - ul.length) ty) 0 t

def lift (n : Nat) (t : Term) : Term :=
  mapVars (fun _ a v => tvar a v)
    (fun k a i ty => if i < k then bvar a i ty else bvar a (i + n) ty) 0 t

end Term

/-- What a lifted index finds, with `δ` put before the outer values. -/
theorem getElem?_append_shift {α : Type} (γ δ β : List α) (i : Nat) :
    (γ ++ (δ ++ β))[if i < γ.length then i else i + δ.length]? = (γ ++ β)[i]? := by
  split
  next h => rw [List.getElem?_append_left h, List.getElem?_append_left h]
  next h =>
    rw [List.getElem?_append_right (by omega), List.getElem?_append_right (by omega),
      List.getElem?_append_right (by omega)]
    congr 1
    omega

/-- Substitution for free symbols. -/
def tSubst (m : VSymbol → Option Term) (t : Term) : Term :=
  Term.mapVars (fun k a v => match m v with
      | some s => tAttrCopy (.tvar a v) (s.lift k)
      | none => .tvar a v)
    (fun _ a i ty => .bvar a i ty) 0 t

def tSubstSingle (v : VSymbol) (s : Term) (t : Term) : Term :=
  tSubst (fun u => if u = v then some s else none) t

/-! Free symbols. As in `t_vars`, those of the triggers count. -/

mutual
def tVOccurs (v : VSymbol) : Term → Nat
  | .tvar _ u => if u = v then 1 else 0
  | .bvar _ _ _ | .tconst _ _ _ | .ttrue _ | .tfalse _ => 0
  | .tapp _ _ tl _ => tVOccursList v tl
  | .tif _ f t e => tVOccurs v f + tVOccurs v t + tVOccurs v e
  | .tlet _ t _ e => tVOccurs v t + tVOccurs v e
  | .tcase _ t bl => tVOccurs v t + tVOccursBranches v bl
  | .teps _ _ f => tVOccurs v f
  | .tquant _ _ _ tr f => tVOccurs v f + tVOccursTrigger v tr
  | .tbinop _ _ f g => tVOccurs v f + tVOccurs v g
  | .tnot _ f => tVOccurs v f
def tVOccursList (v : VSymbol) : List Term → Nat
  | [] => 0
  | t :: tl => tVOccurs v t + tVOccursList v tl
def tVOccursBranches (v : VSymbol) : List (Pattern × Term) → Nat
  | [] => 0
  | (_, e) :: bl => tVOccurs v e + tVOccursBranches v bl
def tVOccursTrigger (v : VSymbol) : List (List Term) → Nat
  | [] => 0
  | l :: tr => tVOccursList v l + tVOccursTrigger v tr
end

mutual
def tVars : Term → Finset VSymbol
  | .tvar _ u => {u}
  | .bvar _ _ _ | .tconst _ _ _ | .ttrue _ | .tfalse _ => ∅
  | .tapp _ _ tl _ => tVarsList tl
  | .tif _ f t e => tVars f ∪ tVars t ∪ tVars e
  | .tlet _ t _ e => tVars t ∪ tVars e
  | .tcase _ t bl => tVars t ∪ tVarsBranches bl
  | .teps _ _ f => tVars f
  | .tquant _ _ _ tr f => tVars f ∪ tVarsTrigger tr
  | .tbinop _ _ f g => tVars f ∪ tVars g
  | .tnot _ f => tVars f
def tVarsList : List Term → Finset VSymbol
  | [] => ∅
  | t :: tl => tVars t ∪ tVarsList tl
def tVarsBranches : List (Pattern × Term) → Finset VSymbol
  | [] => ∅
  | (_, e) :: bl => tVars e ∪ tVarsBranches bl
def tVarsTrigger : List (List Term) → Finset VSymbol
  | [] => ∅
  | l :: tr => tVarsList l ∪ tVarsTrigger tr
end

/-! Smart constructors. Their type checks cannot fail on well-typed terms and are not
modelled. -/

def tTrue : Term := .ttrue ∅

def tFalse : Term := .tfalse ∅

def tNot (f : Term) : Term := .tnot ∅ f

def tBinary (op : Binop) (f g : Term) : Term := .tbinop ∅ op f g

def tAnd : Term → Term → Term := tBinary .tand

def tOr : Term → Term → Term := tBinary .tor

def tImplies : Term → Term → Term := tBinary .timplies

def tIff : Term → Term → Term := tBinary .tiff

def tIf (f t e : Term) : Term := .tif ∅ f t e

def tVar (v : VSymbol) : Term := .tvar ∅ v

def fsApp (fs : LSymbol) (tl : List Term) (ty : Ty) : Term := .tapp ∅ fs tl (some ty)

/-- Polymorphic equality. -/
def psEqu : LSymbol :=
  ⟨⟨"infix =", 7⟩, [.tyvar ⟨⟨"a", 8⟩⟩, .tyvar ⟨⟨"a", 8⟩⟩], none, 0⟩

def tEqu (t1 t2 : Term) : Term := .tapp ∅ psEqu [t1, t2] none

def tLetClose (v : VSymbol) (t e : Term) : Term := .tlet ∅ t v (e.close [v])

def tCaseClose (t : Term) (bl : List (Pattern × Term)) : Term :=
  .tcase ∅ t (bl.map fun b => (b.1, b.2.close (patVars b.1)))

def tQuantClose (q : Quant) (vl : List VSymbol) (tr : List (List Term)) (f : Term) : Term :=
  if vl.isEmpty then f
  else .tquant ∅ q vl (tr.map fun l => l.map (Term.close vl)) (f.close vl)

def small : Term → Bool
  | .tvar _ _ | .bvar _ _ _ | .tconst _ _ _ => true
  | _ => false

def tLetCloseSimp (v : VSymbol) (e t : Term) : Term :=
  if tVOccurs v t = 0 then t
  else if tVOccurs v t = 1 ∨ small e then tSubstSingle v e t
  else tLetClose v e t

/-- Variables that do not occur are dropped, with the triggers that mention them. -/
def tQuantCloseSimp (q : Quant) (vl : List VSymbol) (tr : List (List Term)) (f : Term) : Term :=
  if vl.all fun v => decide (v ∈ tVars f) then tQuantClose q vl tr f
  else tQuantClose q (vl.filter fun v => decide (v ∈ tVars f))
    (tr.filter fun l => l.all fun t => decide (tVars t ⊆ tVars f)) f

/-! Identifiers of the type and logic symbols of a term. -/

mutual
def symsPat : Pattern → List Ident
  | .pwild ty => symsTy ty
  | .pvar v => symsTy v.vsTy
  | .papp cs pl ty => symsTy ty ++ cs.lsName :: symsPatList pl
  | .por p q => symsPat p ++ symsPat q
  | .pas p v => symsTy v.vsTy ++ symsPat p
def symsPatList : List Pattern → List Ident
  | [] => []
  | p :: pl => symsPat p ++ symsPatList pl
end

mutual
def symsTerm : Term → List Ident
  | .tvar _ v => symsTy v.vsTy
  | .bvar _ _ ty | .tconst _ _ ty => symsTy ty
  | .tapp _ ls tl ty => (ty.map symsTy).getD [] ++ ls.lsName :: symsTermList tl
  | .tif _ f t e => symsTerm f ++ symsTerm t ++ symsTerm e
  | .tlet _ t _ e => symsTerm t ++ symsTerm e
  | .tcase _ t bl => symsTerm t ++ symsTermBranches bl
  | .teps _ v f => symsTy v.vsTy ++ symsTerm f
  | .tquant _ _ vl tr f =>
    vl.flatMap (fun v => symsTy v.vsTy) ++ symsTermTrigger tr ++ symsTerm f
  | .tbinop _ _ f g => symsTerm f ++ symsTerm g
  | .tnot _ f => symsTerm f
  | .ttrue _ | .tfalse _ => []
def symsTermList : List Term → List Ident
  | [] => []
  | t :: tl => symsTerm t ++ symsTermList tl
def symsTermBranches : List (Pattern × Term) → List Ident
  | [] => []
  | (p, e) :: bl => symsPat p ++ symsTerm e ++ symsTermBranches bl
def symsTermTrigger : List (List Term) → List Ident
  | [] => []
  | l :: tr => symsTermList l ++ symsTermTrigger tr
end

/-! What the smart constructors check besides types: the arity of symbols, that no
variable is bound twice and that both sides of an alternative bind the same. -/

mutual
def patWf : Pattern → Bool
  | .pwild _ | .pvar _ => true
  | .papp cs pl _ =>
    decide (0 < cs.lsConstr) && pl.length == cs.lsArgs.length &&
      decide (patVarsList pl).Nodup && patWfList pl
  | .por p q =>
    patWf p && patWf q && (patVars p).all (patVars q).contains &&
      (patVars q).all (patVars p).contains
  | .pas p v => patWf p && !(patVars p).contains v
def patWfList : List Pattern → Bool
  | [] => true
  | p :: pl => patWf p && patWfList pl
end

mutual
def termWf : Term → Bool
  | .tvar _ _ | .bvar _ _ _ | .tconst _ _ _ | .ttrue _ | .tfalse _ => true
  | .tapp _ ls tl _ => tl.length == ls.lsArgs.length && termWfList tl
  | .tif _ f t e => termWf f && termWf t && termWf e
  | .tlet _ t _ e => termWf t && termWf e
  | .tcase _ t bl => termWf t && termWfBranches bl
  | .teps _ _ f => termWf f
  | .tquant _ _ _ tr f => termWfTrigger tr && termWf f
  | .tbinop _ _ f g => termWf f && termWf g
  | .tnot _ f => termWf f
def termWfList : List Term → Bool
  | [] => true
  | t :: tl => termWf t && termWfList tl
def termWfBranches : List (Pattern × Term) → Bool
  | [] => true
  | (p, e) :: bl => patWf p && termWf e && termWfBranches bl
def termWfTrigger : List (List Term) → Bool
  | [] => true
  | l :: tr => termWfList l && termWfTrigger tr
end

@[simp] theorem patVarsList_eq_flatMap (pl : List Pattern) :
    patVarsList pl = pl.flatMap patVars :=
  ListRec.eq_flatMap rfl (fun _ _ => rfl) pl

@[simp] theorem patWfList_iff {pl : List Pattern} :
    patWfList pl = true ↔ ∀ p ∈ pl, patWf p = true := by
  induction pl with
  | nil => simp [patWfList]
  | cons p pl ih => simp [patWfList, ih]

@[simp] theorem termWfList_iff {tl : List Term} :
    termWfList tl = true ↔ ∀ t ∈ tl, termWf t = true := by
  induction tl with
  | nil => simp [termWfList]
  | cons t tl ih => simp [termWfList, ih]

@[simp] theorem termWfBranches_iff {bl : List (Pattern × Term)} : termWfBranches bl = true ↔
      ∀ b ∈ bl, patWf b.1 = true ∧ termWf b.2 = true := by
  induction bl with
  | nil => simp [termWfBranches]
  | cons b bl ih => simp [termWfBranches, ih]

/-! Applications with type checking. -/

inductive TermExn where
  | typeMismatch (ty1 ty2 : Ty)
  | termExpected (t : Term)
  | badArity (ls : LSymbol) (n : Nat)
  | predicateSymbolExpected (ls : LSymbol)
  | functionSymbolExpected (ls : LSymbol)

/-- The matching that is exported. -/
def tyMatchExn (s : TySubst) (ty1 ty2 : Ty) : Except TermExn TySubst :=
  match tyMatch s ty1 ty2 with
  | some s' => .ok s'
  | none => .error (.typeMismatch (tyInst s ty1) ty2)

def mtch (s : TySubst) (ty : Ty) (t : Term) : Except TermExn TySubst :=
  match t.tTy with
  | some tty => tyMatchExn s ty tty
  | none => .error (.termExpected t)

def foldMtch (exn : TermExn) : TySubst → List Ty → List Term → Except TermExn TySubst
  | s, [], [] => .ok s
  | s, ty :: tyl, t :: tl => do foldMtch exn (← mtch s ty t) tyl tl
  | _, _, _ => .error exn

def lsArgInst (ls : LSymbol) (tl : List Term) : Except TermExn TySubst :=
  foldMtch (.badArity ls tl.length) [] ls.lsArgs tl

def lsAppInst (ls : LSymbol) (tl : List Term) (ty : Option Ty) : Except TermExn TySubst := do
  let s ← lsArgInst ls tl
  match ls.lsValue, ty with
  | some _, none => .error (.predicateSymbolExpected ls)
  | none, some _ => .error (.functionSymbolExpected ls)
  | some vty, some ty => tyMatchExn s vty ty
  | none, none => .ok s

def tApp (ls : LSymbol) (tl : List Term) (ty : Option Ty) : Except TermExn Term := do
  let _ ← lsAppInst ls tl ty
  .ok (.tapp ∅ ls tl ty)

end Why3
