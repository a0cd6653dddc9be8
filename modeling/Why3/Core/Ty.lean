import Why3.Library.ListRec

/-!
Identifiers, type symbols and types.

Symbols are compared physically in the source and are told apart by the tag of
their identifier; here two symbols are equal when their records are. Type
aliases are expanded by `ty_app`, so an alias symbol is never the head of a
type: the body of an alias is kept with its declaration and a `TySymbol` cannot
carry one.
-/
namespace Why3

structure Ident where
  idString : String
  idTag : Nat
deriving DecidableEq, Repr

structure TvSymbol where
  tvName : Ident
deriving DecidableEq, Repr

structure IntRange where
  irLower : Int
  irUpper : Int
deriving DecidableEq, Repr

structure FloatFormat where
  fpExponentDigits : Nat
  fpSignificandDigits : Nat
deriving DecidableEq, Repr

/-- The definitions a type symbol occurring in a type can have. -/
inductive TypeDef where
  | noDef
  | range (ir : IntRange)
  | float (fp : FloatFormat)
deriving DecidableEq, Repr

structure TySymbol where
  tsName : Ident
  tsArgs : List TvSymbol
  tsDef : TypeDef
deriving DecidableEq, Repr

inductive Ty where
  | tyvar (v : TvSymbol)
  | tyapp (ts : TySymbol) (tl : List Ty)
deriving Repr

namespace Ty

mutual
def decEq : (a b : Ty) → Decidable (a = b)
  | .tyvar v, .tyvar w =>
    if h : v = w then isTrue (by rw [h]) else isFalse (by simp [h])
  | .tyapp s l, .tyapp r m =>
    if h : s = r then
      match decEqList l m with
      | isTrue e => isTrue (by rw [h, e])
      | isFalse e => isFalse (by simp [e])
    else isFalse (by simp [h])
  | .tyvar _, .tyapp _ _ => isFalse (by simp)
  | .tyapp _ _, .tyvar _ => isFalse (by simp)
def decEqList : (l m : List Ty) → Decidable (l = m)
  | [], [] => isTrue rfl
  | [], _ :: _ => isFalse (by simp)
  | _ :: _, [] => isFalse (by simp)
  | a :: l, b :: m =>
    match decEq a b, decEqList l m with
    | isTrue e, isTrue f => isTrue (by rw [e, f])
    | isFalse e, _ => isFalse (by simp [e])
    | _, isFalse f => isFalse (by simp [f])
end

instance : DecidableEq Ty := decEq

@[elab_as_elim]
theorem induct {P : Ty → Prop} (tyvar : ∀ v, P (.tyvar v))
    (tyapp : ∀ ts tl, (∀ t ∈ tl, P t) → P (.tyapp ts tl)) (ty : Ty) : P ty := by
  refine @Ty.rec P (fun tl => ∀ t ∈ tl, P t) tyvar (fun ts tl h => tyapp ts tl h) ?_ ?_ ty
  · simp
  · intro t tl ht htl
    simpa using ⟨ht, htl⟩

end Ty

/-! Traversal over type variables and over type symbols. -/

mutual
def tyFreevars : Ty → Finset TvSymbol
  | .tyvar v => {v}
  | .tyapp _ tl => tyFreevarsList tl
def tyFreevarsList : List Ty → Finset TvSymbol
  | [] => ∅
  | t :: tl => tyFreevars t ∪ tyFreevarsList tl
end

mutual
def tySAny (pr : TySymbol → Bool) : Ty → Bool
  | .tyvar _ => false
  | .tyapp ts tl => pr ts || tySAnyList pr tl
def tySAnyList (pr : TySymbol → Bool) : List Ty → Bool
  | [] => false
  | t :: tl => tySAny pr t || tySAnyList pr tl
end

mutual
def symsTy : Ty → List Ident
  | .tyvar _ => []
  | .tyapp ts tl => ts.tsName :: symsTyList tl
def symsTyList : List Ty → List Ident
  | [] => []
  | t :: tl => symsTy t ++ symsTyList tl
end

/-! Instantiation and matching of type variables. -/

abbrev TySubst := List (TvSymbol × Ty)

mutual
def tyInst (s : TySubst) : Ty → Ty
  | .tyvar v => (s.lookup v).getD (.tyvar v)
  | .tyapp ts tl => .tyapp ts (tyInstList s tl)
def tyInstList (s : TySubst) : List Ty → List Ty
  | [] => []
  | t :: tl => tyInst s t :: tyInstList s tl
end

def tsMatchArgs (ts : TySymbol) (tl : List Ty) : TySubst := ts.tsArgs.zip tl

mutual
def tyMatch (s : TySubst) : Ty → Ty → Option TySubst
  | .tyvar v, ty =>
    match s.lookup v with
    | none => some ((v, ty) :: s)
    | some ty' => if ty' = ty then some s else none
  | .tyapp f l, .tyapp g m => if f = g then tyMatchList s l m else none
  | .tyapp _ _, .tyvar _ => none
def tyMatchList (s : TySubst) : List Ty → List Ty → Option TySubst
  | [], [] => some s
  | a :: l, b :: m =>
    match tyMatch s a b with
    | some s => tyMatchList s l m
    | none => none
  | _, _ => none
end

@[simp] theorem mem_tyFreevarsList {v : TvSymbol} {tl : List Ty} :
    v ∈ tyFreevarsList tl ↔ ∃ t ∈ tl, v ∈ tyFreevars t := by
  induction tl with
  | nil => simp [tyFreevarsList]
  | cons t tl ih => simp [tyFreevarsList, ih]

@[simp] theorem tySAnyList_eq_any (pr : TySymbol → Bool) (tl : List Ty) :
    tySAnyList pr tl = tl.any (tySAny pr) := by
  induction tl with
  | nil => rfl
  | cons t tl ih => simp [tySAnyList, ih]

@[simp] theorem mem_symsTyList {id : Ident} {tl : List Ty} :
    id ∈ symsTyList tl ↔ ∃ t ∈ tl, id ∈ symsTy t := by
  induction tl with
  | nil => simp [symsTyList]
  | cons t tl ih => simp [symsTyList, ih]

@[simp] theorem tyInstList_eq_map (s : TySubst) (tl : List Ty) :
    tyInstList s tl = tl.map (tyInst s) :=
  ListRec.eq_map rfl (fun _ _ => rfl) tl

/-- The function arrow is a built-in symbol with two parameters. -/
def tsFunc : TySymbol where
  tsName := ⟨"infix ->", 0⟩
  tsArgs := [⟨⟨"a", 1⟩⟩, ⟨⟨"b", 2⟩⟩]
  tsDef := .noDef

def tsInt : TySymbol := ⟨⟨"int", 3⟩, [], .noDef⟩

def tsReal : TySymbol := ⟨⟨"real", 4⟩, [], .noDef⟩

def tsBool : TySymbol := ⟨⟨"bool", 5⟩, [], .noDef⟩

def tsStr : TySymbol := ⟨⟨"string", 6⟩, [], .noDef⟩

def tyInt : Ty := .tyapp tsInt []

def tyReal : Ty := .tyapp tsReal []

def tyBool : Ty := .tyapp tsBool []

def tyStr : Ty := .tyapp tsStr []

def tyFunc (a b : Ty) : Ty := .tyapp tsFunc [a, b]

end Why3
