import Why3.Core.Ty

/-!
Types with regions.

A region is a record in the store; it is told apart from others by its name, and
its record says of which type symbol it is and which types and regions its
components have. The data of a type symbol are kept in a table, so that types
are finite trees over symbols. A fold over the regions of a type is a fold over
the list of these regions in the order in which the code visits them.
-/
namespace Why3
namespace Mlw

structure ItySymbol where
  itsTs : TySymbol
deriving DecidableEq, Repr

structure ItsFlag where
  itsFrozen : Bool
  itsExposed : Bool
  itsLiable : Bool
  itsFixed : Bool
  itsVisible : Bool
deriving DecidableEq, Repr

inductive Ity where
  | ityreg (name : Ident) (s : ItySymbol) (tl rl : List Ity)
  | ityapp (s : ItySymbol) (tl rl : List Ity)
  | ityvar (v : TvSymbol)
deriving Repr

namespace Ity

mutual
def decEq : (a b : Ity) → Decidable (a = b)
  | .ityvar v, .ityvar w =>
    if h : v = w then isTrue (by rw [h]) else isFalse (by simp [h])
  | .ityapp s tl rl, .ityapp s' tl' rl' =>
    if h : s = s' then
      match decEqList tl tl', decEqList rl rl' with
      | isTrue e, isTrue f => isTrue (by rw [h, e, f])
      | isFalse e, _ => isFalse (by simp [e])
      | _, isFalse f => isFalse (by simp [f])
    else isFalse (by simp [h])
  | .ityreg n s tl rl, .ityreg n' s' tl' rl' =>
    if h : n = n' ∧ s = s' then
      match decEqList tl tl', decEqList rl rl' with
      | isTrue e, isTrue f => isTrue (by rw [h.1, h.2, e, f])
      | isFalse e, _ => isFalse (by simp [e])
      | _, isFalse f => isFalse (by simp [f])
    else isFalse (by rintro ⟨⟩; exact h ⟨rfl, rfl⟩)
  | .ityvar _, .ityapp _ _ _ => isFalse (by simp)
  | .ityvar _, .ityreg _ _ _ _ => isFalse (by simp)
  | .ityapp _ _ _, .ityvar _ => isFalse (by simp)
  | .ityapp _ _ _, .ityreg _ _ _ _ => isFalse (by simp)
  | .ityreg _ _ _ _, .ityvar _ => isFalse (by simp)
  | .ityreg _ _ _ _, .ityapp _ _ _ => isFalse (by simp)
def decEqList : (l m : List Ity) → Decidable (l = m)
  | [], [] => isTrue rfl
  | [], _ :: _ => isFalse (by simp)
  | _ :: _, [] => isFalse (by simp)
  | a :: l, b :: m =>
    match decEq a b, decEqList l m with
    | isTrue e, isTrue f => isTrue (by rw [e, f])
    | isFalse e, _ => isFalse (by simp [e])
    | _, isFalse f => isFalse (by simp [f])
end

instance : DecidableEq Ity := decEq

@[elab_as_elim]
theorem induct {P : Ity → Prop}
    (ityreg : ∀ name s tl rl, (∀ t ∈ tl, P t) → (∀ t ∈ rl, P t) → P (.ityreg name s tl rl))
    (ityapp : ∀ s tl rl, (∀ t ∈ tl, P t) → (∀ t ∈ rl, P t) → P (.ityapp s tl rl))
    (ityvar : ∀ v, P (.ityvar v)) (ity : Ity) : P ity := by
  refine @Ity.rec P (fun tl => ∀ t ∈ tl, P t) ityreg ityapp ityvar ?_ ?_ ity
  · simp
  · intro t tl ht htl
    simpa using ⟨ht, htl⟩

end Ity

structure Region where
  regName : Ident
  regIts : ItySymbol
  regArgs : List Ity
  regRegs : List Ity
deriving DecidableEq, Repr

def ityReg (r : Region) : Ity := .ityreg r.regName r.regIts r.regArgs r.regRegs

structure PvSymbol where
  pvName : Ident
  pvIty : Ity
  pvGhost : Bool
deriving DecidableEq, Repr

/-- The data of a type symbol that effects depend on. -/
structure ItsDecl where
  itsNonfree : Bool
  itsPrivate : Bool
  itsMutable : Bool
  itsMfields : List PvSymbol
  itsOfields : List PvSymbol
  itsRegions : List Region
  itsArgFlg : List ItsFlag
  itsRegFlg : List ItsFlag

abbrev ItsTable := ItySymbol → ItsDecl

/-! Purity. -/

mutual
def ityPure : Ity → Bool
  | .ityvar _ => true
  | .ityreg _ _ _ _ => false
  | .ityapp _ tl rl => ityPureList tl && ityPureList rl
def ityPureList : List Ity → Bool
  | [] => true
  | t :: tl => ityPure t && ityPureList tl
end

mutual
def ityPurify : Ity → Ity
  | .ityvar v => .ityvar v
  | .ityreg _ s tl rl => .ityapp s (ityPurifyList tl) (ityPurifyList rl)
  | .ityapp s tl rl => .ityapp s (ityPurifyList tl) (ityPurifyList rl)
def ityPurifyList : List Ity → List Ity
  | [] => []
  | t :: tl => ityPurify t :: ityPurifyList tl
end

mutual
def tyOfIty : Ity → Ty
  | .ityvar v => .tyvar v
  | .ityreg _ s tl _ => .tyapp s.itsTs (tyOfItyList tl)
  | .ityapp s tl _ => .tyapp s.itsTs (tyOfItyList tl)
def tyOfItyList : List Ity → List Ty
  | [] => []
  | t :: tl => tyOfIty t :: tyOfItyList tl
end

/-! Type variables. -/

mutual
def ityFreevars : Ity → Finset TvSymbol
  | .ityvar v => {v}
  | .ityreg _ _ tl _ => ityFreevarsList tl
  | .ityapp _ tl _ => ityFreevarsList tl
def ityFreevarsList : List Ity → Finset TvSymbol
  | [] => ∅
  | t :: tl => ityFreevars t ∪ ityFreevarsList tl
end

mutual
/-- The type variables under components with a flag. -/
def ityFlagVars (T : ItsTable) (flag : ItsFlag → Bool) : Ity → Finset TvSymbol
  | .ityvar v => {v}
  | .ityreg _ s tl rl =>
    ityFlagVarsList T flag (T s).itsArgFlg tl ∪ ityFlagVarsList T flag (T s).itsRegFlg rl
  | .ityapp s tl rl =>
    ityFlagVarsList T flag (T s).itsArgFlg tl ∪ ityFlagVarsList T flag (T s).itsRegFlg rl
def ityFlagVarsList (T : ItsTable) (flag : ItsFlag → Bool) :
    List ItsFlag → List Ity → Finset TvSymbol
  | x :: fl, t :: tl =>
    (if flag x then ityFlagVars T flag t else ∅) ∪ ityFlagVarsList T flag fl tl
  | _, _ => ∅
end

variable (T : ItsTable)

def ityRchVars (ity : Ity) : Finset TvSymbol := ityFlagVars T (·.itsExposed) ity

/-! Regions. -/

mutual
/-- The regions that are exposed by a type, without those below them. -/
def ityExpRegs (T : ItsTable) : Ity → List Region
  | .ityvar _ => []
  | .ityreg name s tl rl => [⟨name, s, tl, rl⟩]
  | .ityapp s tl rl =>
    if ityPure (.ityapp s tl rl) then []
    else ityExpRegsList T (T s).itsArgFlg tl ++ ityExpRegsList T (T s).itsRegFlg rl
def ityExpRegsList (T : ItsTable) : List ItsFlag → List Ity → List Region
  | x :: fl, t :: tl => (if x.itsExposed then ityExpRegs T t else []) ++ ityExpRegsList T fl tl
  | _, _ => []
end

def regExpRegs (r : Region) : List Region :=
  ityExpRegsList T (T r.regIts).itsArgFlg r.regArgs ++
    ityExpRegsList T (T r.regIts).itsRegFlg r.regRegs

mutual
/-- The regions on the paths through components with a flag that end before a
region of `stop`. -/
def ityRegs (T : ItsTable) (flag : ItsFlag → Bool) (stop : Finset Region) : Ity → List Region
  | .ityvar _ => []
  | .ityreg name s tl rl =>
    if (⟨name, s, tl, rl⟩ : Region) ∈ stop then []
    else ⟨name, s, tl, rl⟩ :: (ityRegsList T flag stop (T s).itsArgFlg tl ++
      ityRegsList T flag stop (T s).itsRegFlg rl)
  | .ityapp s tl rl =>
    if ityPure (.ityapp s tl rl) then []
    else ityRegsList T flag stop (T s).itsArgFlg tl ++ ityRegsList T flag stop (T s).itsRegFlg rl
def ityRegsList (T : ItsTable) (flag : ItsFlag → Bool) (stop : Finset Region) :
    List ItsFlag → List Ity → List Region
  | x :: fl, t :: tl =>
    (if flag x then ityRegs T flag stop t else []) ++ ityRegsList T flag stop fl tl
  | _, _ => []
end

def ityRchRegs (ity : Ity) : List Region := ityRegs T (·.itsExposed) ∅ ity

def ityUncRegs (cv : Finset Region) (ity : Ity) : List Region :=
  ityRegs T (·.itsExposed) cv ity

def regUncRegs (cv : Finset Region) (r : Region) : List Region :=
  ityUncRegs T cv (ityReg r)

def ityVisRegs (ity : Ity) : List Region := ityRegs T (·.itsVisible) ∅ ity

def regRStale (rs cv : Finset Region) (r : Region) : Bool :=
  (regUncRegs T cv r).any (· ∈ rs)

def ityRStale (rs cv : Finset Region) (ity : Ity) : Bool :=
  (ityUncRegs T cv ity).any (· ∈ rs)

mutual
/-- The regions that cannot be updated. -/
def ityFrzRegs (T : ItsTable) : Ity → List Region
  | .ityvar _ => []
  | .ityreg _ s tl rl => ityFrzRegsList T (T s).itsArgFlg tl ++ ityFrzRegsList T (T s).itsRegFlg rl
  | .ityapp s tl rl =>
    if ityPure (.ityapp s tl rl) then []
    else if (T s).itsNonfree && (T s).itsMutable then ityRchRegs T (.ityapp s tl rl)
    else ityFrzRegsList T (T s).itsArgFlg tl ++ ityFrzRegsList T (T s).itsRegFlg rl
def ityFrzRegsList (T : ItsTable) : List ItsFlag → List Ity → List Region
  | x :: fl, t :: tl =>
    (if !x.itsExposed then [] else if x.itsFrozen then ityRchRegs T t else ityFrzRegs T t) ++
      ityFrzRegsList T fl tl
  | _, _ => []
end

def ityRFrozen (s : Finset Region) (ity : Ity) : Bool :=
  (ityFrzRegs T ity).any (· ∈ s)

end Mlw
end Why3
