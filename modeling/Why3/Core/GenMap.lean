import Why3.Core.Term

/-!
Type variables of terms, and maps on the types of a term.

A bound symbol whose type changes is replaced by a fresh one. The tags of the fresh
symbols are taken from a counter.
-/
namespace Why3

mutual
def tyVarsOf : Ty → List TvSymbol
  | .tyvar v => [v]
  | .tyapp _ tl => tyVarsOfList tl
def tyVarsOfList : List Ty → List TvSymbol
  | [] => []
  | t :: tl => tyVarsOf t ++ tyVarsOfList tl
end

mutual
def patTyVars : Pattern → List TvSymbol
  | .pwild ty => tyVarsOf ty
  | .pvar v => tyVarsOf v.vsTy
  | .papp _ pl ty => tyVarsOf ty ++ patTyVarsList pl
  | .por p q => patTyVars p ++ patTyVars q
  | .pas p v => patTyVars p ++ tyVarsOf v.vsTy
def patTyVarsList : List Pattern → List TvSymbol
  | [] => []
  | p :: pl => patTyVars p ++ patTyVarsList pl
end

mutual
def tTyVars : Term → List TvSymbol
  | .tvar _ v => tyVarsOf v.vsTy
  | .bvar _ _ ty | .tconst _ _ ty => tyVarsOf ty
  | .tapp _ _ tl ty => (ty.map tyVarsOf).getD [] ++ tTyVarsList tl
  | .tif _ f t e => tTyVars f ++ tTyVars t ++ tTyVars e
  | .tlet _ t v e => tTyVars t ++ tyVarsOf v.vsTy ++ tTyVars e
  | .tcase _ t bl => tTyVars t ++ tTyVarsBranches bl
  | .teps _ v f => tyVarsOf v.vsTy ++ tTyVars f
  | .tquant _ _ vl tr f =>
    vl.flatMap (fun v => tyVarsOf v.vsTy) ++ tTyVarsTrigger tr ++ tTyVars f
  | .tbinop _ _ f g => tTyVars f ++ tTyVars g
  | .tnot _ f => tTyVars f
  | .ttrue _ | .tfalse _ => []
def tTyVarsList : List Term → List TvSymbol
  | [] => []
  | t :: tl => tTyVars t ++ tTyVarsList tl
def tTyVarsBranches : List (Pattern × Term) → List TvSymbol
  | [] => []
  | (p, e) :: bl => patTyVars p ++ tTyVars e ++ tTyVarsBranches bl
def tTyVarsTrigger : List (List Term) → List TvSymbol
  | [] => []
  | l :: tr => tTyVarsList l ++ tTyVarsTrigger tr
end

/-! Fresh symbols for the variables of a pattern. -/

/-- The symbols with fresh tags from `k` on. -/
def renameVars (k : Nat) : List VSymbol → List VSymbol
  | [] => []
  | v :: vl => ⟨⟨v.vsName.idString, k⟩, v.vsTy⟩ :: renameVars (k + 1) vl

mutual
def patRenameAll (m : List (VSymbol × VSymbol)) : Pattern → Pattern
  | .pwild ty => .pwild ty
  | .pvar v => .pvar ((m.lookup v).getD v)
  | .papp cs pl ty => .papp cs (patRenameAllList m pl) ty
  | .por p q => .por (patRenameAll m p) (patRenameAll m q)
  | .pas p v => .pas (patRenameAll m p) ((m.lookup v).getD v)
def patRenameAllList (m : List (VSymbol × VSymbol)) : List Pattern → List Pattern
  | [] => []
  | p :: pl => patRenameAll m p :: patRenameAllList m pl
end

theorem renameVars_length (k : Nat) (vl : List VSymbol) : (renameVars k vl).length = vl.length := by
  induction vl generalizing k with
  | nil => rfl
  | cons v vl ih => rw [renameVars, List.length_cons, ih, List.length_cons]

theorem renameVars_tys (k : Nat) (vl : List VSymbol) :
    (renameVars k vl).map VSymbol.vsTy = vl.map VSymbol.vsTy := by
  induction vl generalizing k with
  | nil => rfl
  | cons v vl ih => rw [renameVars, List.map_cons, ih, List.map_cons]

theorem renameVars_tag {k : Nat} {vl : List VSymbol} {v : VSymbol} (hv : v ∈ renameVars k vl) :
    k ≤ v.vsName.idTag ∧ v.vsName.idTag < k + vl.length := by
  induction vl generalizing k with
  | nil => cases hv
  | cons u vl ih =>
    cases List.mem_cons.mp hv with
    | inl he =>
      subst he
      simp
    | inr hv =>
      have := ih hv
      rw [List.length_cons]
      omega

theorem renameVars_nodup (k : Nat) (vl : List VSymbol) : (renameVars k vl).Nodup := by
  induction vl generalizing k with
  | nil => exact List.nodup_nil
  | cons v vl ih =>
    rw [renameVars, List.nodup_cons]
    refine ⟨fun hv => ?_, ih _⟩
    have := (renameVars_tag hv).1
    simp only at this
    omega

theorem patRenameAllList_eq_map (m : List (VSymbol × VSymbol)) (pl : List Pattern) :
    patRenameAllList m pl = pl.map (patRenameAll m) :=
  ListRec.eq_map rfl (fun _ _ => rfl) pl

section GenMap

variable (fnT : Ty → Ty)

/-- A symbol whose type changes is replaced by a fresh one. -/
def genFreshVsymbol (k : Nat) (v : VSymbol) : VSymbol × Nat :=
  if fnT v.vsTy = v.vsTy then (v, k) else (⟨⟨v.vsName.idString, k⟩, fnT v.vsTy⟩, k + 1)

def genVlRename : Nat → List VSymbol → List VSymbol × Nat
  | k, [] => ([], k)
  | k, v :: vl =>
    let u := genFreshVsymbol fnT k v
    let ul := genVlRename u.2 vl
    (u.1 :: ul.1, ul.2)

mutual
def patGenMap (m : List (VSymbol × VSymbol)) : Pattern → Pattern
  | .pwild ty => .pwild (fnT ty)
  | .pvar v => .pvar ((m.lookup v).getD v)
  | .papp cs pl ty => .papp cs (patGenMapList m pl) (fnT ty)
  | .por p q => .por (patGenMap m p) (patGenMap m q)
  | .pas p v => .pas (patGenMap m p) ((m.lookup v).getD v)
def patGenMapList (m : List (VSymbol × VSymbol)) : List Pattern → List Pattern
  | [] => []
  | p :: pl => patGenMap m p :: patGenMapList m pl
end

attribute [grind =] patGenMap patRenameAll

end GenMap

end Why3
