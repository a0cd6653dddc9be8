import Why3.Library.Polarity
import Why3.Metatheory.SplitMatch
import Why3.Metatheory.TermOrder

/-!
The meaning of stored bindings that are opened with fresh symbols and closed again.

The indices of the body of a binding stand for some values. Opened with fresh symbols, the body
has the same meaning in the environment that gives these values to the symbols, and a term that is
closed over the symbols means what it meant in that environment.
-/
namespace Why3

open List

/-- What a quantifier over values of the types says. -/
def Interp.Quantifies {C : AlgSig} {D : Type} (I : Interp C D) (q : Quant) (tys : List Ty)
    (P : List D → Prop) : Prop :=
  match q with
  | .tforall => ∀ ds, List.Forall₂ I.dom tys ds → P ds
  | .texists => ∃ ds, List.Forall₂ I.dom tys ds ∧ P ds

namespace Stored

variable {C : AlgSig} {D : Type} {I : Interp C D} {ρ : VSymbol → D} {k k' : Nat}
  {vl : List VSymbol} {b : BindInfo STerm} {e : STerm} {ds : List D}

theorem sem_tAttrCopy (ρ : VSymbol → D) (s t : STerm) :
    I.sem ρ [] (force (tAttrCopy s t)) = I.sem ρ [] (force t) := by
  rw [force_tAttrCopy, Why3.tAttrCopy, Interp.sem_setAttrs]

/-- A body of a binding of `vl` that can be opened with symbols from the tag `k` on. -/
structure Body (I : Interp C D) (k : Nat) (vl : List VSymbol) (b : BindInfo STerm) (e : STerm) :
    Prop where
  mapOk : MapOk b.bvSubst
  ok : Ok e
  typed : WellTyped C I.Exhaustive (vl.map VSymbol.vsTy) (bodyOf vl b e)
  below : TermBelow k (bodyOf vl b e)

/-- The body opened with symbols from the tag `k` on. -/
def openedBody (k : Nat) (vl : List VSymbol) (b : BindInfo STerm) (e : STerm) : STerm :=
  tSubstUnsafe (vlRename b.bvSubst vl (renameVars k vl)) e

/-- The environment of the opened body. -/
def openedEnv (k : Nat) (vl : List VSymbol) (ds : List D) (ρ : VSymbol → D) : VSymbol → D :=
  Interp.bindVars (renameVars k vl) ds ρ

theorem typedEnv_opened (hρ : I.TypedEnv ρ) (hds : List.Forall₂ I.dom (vl.map VSymbol.vsTy) ds) :
    I.TypedEnv (openedEnv k vl ds ρ) := by
  rw [← renameVars_tys k, forall₂_map_left_iff] at hds
  have hext : I.Extends (renameVars k vl) ρ (openedEnv k vl ds ρ) := Interp.extends_bindVars hds
  intro v
  by_cases hv : v ∈ renameVars k vl
  · exact hext.dom v hv
  · rw [hext.off v hv]
    exact hρ v

theorem Body.opened (h : Body I k vl b e) (k' : Nat) :
    Ok (openedBody k' vl b e) ∧ WellTyped C I.Exhaustive [] (force (openedBody k' vl b e)) ∧
      (force (openedBody k' vl b e)).tTy = (bodyOf vl b e).tTy := by
  obtain ⟨hok, hforce⟩ := open_ok vl (renameVars k' vl) h.mapOk h.ok (renameVars_length k' vl)
  have htyped := h.typed
  rw [← renameVars_tys k', ← append_nil (map _ _)] at htyped
  rw [openedBody, hforce]
  exact ⟨hok, (typedMap_openWith (renameVars k' vl)).wellTyped _ [] htyped⟩

theorem Body.sem_opened (h : Body I k vl b e) (hk : k ≤ k') (ρ : VSymbol → D)
    (hlen : ds.length = vl.length) :
    I.sem (openedEnv k' vl ds ρ) [] (force (openedBody k' vl b e)) =
      I.sem ρ ds (bodyOf vl b e) := by
  have hforce := (open_ok vl (renameVars k' vl) h.mapOk h.ok (renameVars_length k' vl)).2
  rw [openedBody, hforce, Interp.sem_openWith, append_nil, openedEnv,
    Interp.map_bindVars (renameVars_nodup k' vl) (hlen.trans (renameVars_length k' vl).symm)]
  refine Interp.sem_congr_env _ _ fun v hv => Interp.bindVars_of_notMem _ fun hmem => ?_
  have hlow := h.below v hv
  have hhigh := (renameVars_tag hmem).1
  omega

theorem sem_closed (ρ : VSymbol → D) (hlen : ds.length = vl.length) (vars : Mvs Int63) (t : STerm) :
    I.sem ρ ds (bodyOf (renameVars k vl) (bndNew vars) t) =
      I.sem (openedEnv k vl ds ρ) [] (force t) := by
  rw [bodyOf_bndNew, closeBody_of_nodup (renameVars_nodup k vl), ← append_nil ds,
    Interp.sem_close (hlen.trans (renameVars_length k vl).symm), append_nil, openedEnv]

/-! Quantifiers. -/

theorem holds_tquant {a : Attrs} {q : Quant} {tr : List (List Term)} {f : Term} :
    I.holds ρ [] (.tquant a q vl tr f) ↔
      I.Quantifies q (vl.map VSymbol.vsTy) fun ds => (I.sem ρ ds f).2 := by
  cases q with
  | tforall => simp only [Interp.holds, Interp.sem, Interp.Quantifies, forall₂_map_left_iff,
      append_nil]
  | texists => simp only [Interp.holds, Interp.sem, Interp.Quantifies, forall₂_map_left_iff,
      append_nil]

theorem quantifies_follows {p : Option Bool} {q : Quant} {tys : List Ty} {P Q : List D → Prop}
    (h : ∀ ds, List.Forall₂ I.dom tys ds → Follows p (P ds) (Q ds)) :
    Follows p (I.Quantifies q tys P) (I.Quantifies q tys Q) := by
  cases q with
  | tforall => exact .all fun ds => .all fun hds => h ds hds
  | texists =>
    refine .ex fun ds => ?_
    by_cases hds : List.Forall₂ I.dom tys ds
    · exact .and (.of_iff Iff.rfl) (h ds hds)
    · exact .of_iff (iff_of_false (fun hP => hds hP.1) fun hQ => hds hQ.1)

theorem quantifies_nil {q : Quant} {P : List D → Prop} : I.Quantifies q [] P ↔ P [] := by
  cases q with
  | tforall | texists => simp [Interp.Quantifies]

/-- A formula that is closed over fresh symbols. -/
theorem holds_quantClosed (q : Quant) (tl : List (List STerm)) (g : STerm) :
    I.holds ρ [] (force (tQuantClose q (renameVars k vl) tl g)) ↔
      I.Quantifies q (vl.map VSymbol.vsTy) fun ds =>
        I.holds (openedEnv k vl ds ρ) [] (force g) := by
  cases vl with
  | nil =>
    rw [map_nil, quantifies_nil]
    exact Iff.rfl
  | cons v vl =>
    have hclose : force (tQuantClose q (renameVars k (v :: vl)) tl g) =
        .tquant ∅ q (renameVars k (v :: vl)) _ (bodyOf (renameVars k (v :: vl)) (bndNew _) g) :=
      rfl
    rw [hclose, holds_tquant, renameVars_tys]
    refine quantifies_follows (p := none) fun ds hds => ?_
    rw [sem_closed ρ (by rw [← hds.length_eq, length_map])]
    exact Iff.rfl

end Stored
end Why3
