import Why3.Core.MapSign
import Why3.Metatheory.StoredSem

/-!
Maps by polarity are monotone.

A function that strengthens positive formulas and weakens negative ones, and keeps the values of
terms, gives such a function on the formulas above. The map over subterms has one case for each
binding, which is opened and closed again; the expansions of equivalences and of conditionals are
monotone in the polarities that they use.
-/
namespace Why3
namespace Stored

open Except (ok_bind)
open List
open Interp (holds select_snd sem semBranches sem_typed val)

variable {C : AlgSig} {D : Type} {I : Interp C D} {U : Session} {pol : Bool → Option Bool}
  {fn : Bool → STerm → STerm} {phys : STerm → STerm → Bool} {ρ : VSymbol → D} {k k' : Nat}
  {s : Bool}

/-- The function keeps types and the values of terms, and its formulas are above, below or
equivalent to their arguments as `pol` says. -/
structure SignMap (I : Interp C D) (U : Session) (pol : Bool → Option Bool)
    (fn : Bool → STerm → STerm) : Prop where
  typed : ∀ s t, Typed C U t → Typed C U (fn s t)
  sameTy : ∀ s t, tTy (fn s t) = tTy t
  value : ∀ s t ρ, Ok t → WellTyped C I.Exhaustive [] (force t) → (force t).tTy ≠ none →
    I.TypedEnv ρ → I.val ρ [] (force (fn s t)) = I.val ρ [] (force t)
  follows : ∀ s f ρ, Ok f → WellTyped C I.Exhaustive [] (force f) → (force f).tTy = none →
    I.TypedEnv ρ → Follows (pol s) (I.holds ρ [] (force (fn s f))) (I.holds ρ [] (force f))

/-! The map over subterms. -/

variable {b : BindInfo STerm}

section MapFold

variable {A : Type} (acc : A) (g : STerm → STerm)

theorem mapFoldList_keep (tl : List STerm) :
    mapFoldList (fun acc t => (acc, g t)) acc tl = (acc, tl.map g) := by
  induction tl with
  | nil => rfl
  | cons t tl ih => rw [mapFoldList, ih, map_cons]

theorem mapFoldTrigger_keep (tr : List (List STerm)) :
    (mapFoldTrigger (fun acc t => (acc, g t)) acc tr).1 = acc := by
  induction tr with
  | nil => rfl
  | cons l tr ih => rw [mapFoldTrigger, mapFoldList_keep, ih]

/-- A body that is opened, mapped and closed again. -/
theorem SignMap.body (h : SignMap I U pol fn) {vl : List VSymbol} {e : STerm} (hb : Body I k vl b e)
    (hty : (bodyOf vl b e).tTy = none) (hk : k ≤ k') (hρ : I.TypedEnv ρ) {ds : List D}
    (hds : List.Forall₂ I.dom (vl.map VSymbol.vsTy) ds) (vars : Mvs Int63) : Follows (pol s)
      (I.sem ρ ds (bodyOf (renameVars k' vl) (bndNew vars) (fn s (openedBody k' vl b e)))).2
      (I.sem ρ ds (bodyOf vl b e)).2 := by
  obtain ⟨hok, hwt, hoty⟩ := hb.opened k'
  have hlen : ds.length = vl.length := by rw [← hds.length_eq, length_map]
  rw [sem_closed ρ hlen, ← hb.sem_opened hk ρ hlen]
  exact h.follows s _ _ hok hwt (hoty.trans hty) (typedEnv_opened hρ hds)

theorem mapFoldBranches_keep (bl : List TermBranch) :
    ∀ k, (mapFoldBranches phys (fun acc t => (acc, g t)) k acc bl).1 = acc := by
  induction bl with
  | nil => exact fun k => rfl
  | cons b bl ih =>
    intro k
    rw [mapFoldBranches]
    split
    · exact ih _
    · exact ih _

theorem tMapFold_keep (k : Nat) (t : STerm) :
    (tMapFold phys (fun acc t => (acc, g t)) k acc t).1 = acc := by
  cases t with
  | tlet a t v b e =>
    simp only [tMapFold]
    split
    · split
      · rfl
      · rfl
    · rfl
  | tcase a t bl =>
    simp only [tMapFold]
    split
    · exact mapFoldBranches_keep acc g bl k
    · exact mapFoldBranches_keep acc g bl k
  | teps a v b f =>
    simp only [tMapFold]
    split
    · rfl
    · rfl
  | tquant a q vl b tr f =>
    simp only [tMapFold]
    split
    · exact mapFoldTrigger_keep acc g _
    · exact mapFoldTrigger_keep acc g _
  | tapp a ls tl ty => rw [tMapFold, mapFoldList_keep]
  | _ => rfl

theorem SignMap.branches (h : SignMap I U pol fn) (phys : STerm → STerm → Bool) (s : Bool)
    (hρ : I.TypedEnv ρ) {ty : Ty} {d : D} (hd : I.dom ty d) (x : D × Prop) {bl : List TermBranch}
    (hb : ∀ y ∈ bl, Body I k (patVars y.1) y.2.1 y.2.2)
    (hp : ∀ y ∈ bl, PatTyped C y.1 ∧ patTy y.1 = ty)
    (hty : ∀ y ∈ bl, (bodyOf (patVars y.1) y.2.1 y.2.2).tTy = none) : ∀ {k'}, k ≤ k' →
    Follows (pol s) (I.semBranches ρ [] d x
        (forceBranches (mapFoldBranches phys (fun acc t => (acc, fn s t)) k' acc bl).2.2)).2
      (I.semBranches ρ [] d x (forceBranches bl)).2 := by
  induction bl with
  | nil => exact fun _ => .of_iff Iff.rfl
  | cons y bl ih =>
    intro k' hk
    obtain ⟨p, b, e⟩ := y
    have hrest := ih (forall_mem_cons.mp hb).2
      (forall_mem_cons.mp hp).2
      (forall_mem_cons.mp hty).2
      (hk.trans (Nat.le_add_right k' (patVars p).length))
    obtain ⟨hpt, hpty⟩ := hp _ mem_cons_self
    have hopen : OpensAs I p (tOpenBranch k' (p, b, e)).1 (renameVars k' (patVars p)) :=
      opensAs_rename hpt k'
    rw [mapFoldBranches]
    split
    · rw [forceBranches, forceBranches, semBranches, semBranches]
      split
      · exact .of_iff Iff.rfl
      · exact hrest
    · rw [tCloseBranch, forceBranches, forceBranches, semBranches, semBranches,
        hopen.ok, hopen.vals, hopen.vars]
      split
      next hpok =>
        rw [append_nil]
        exact h.body (hb _ mem_cons_self) (hty _ mem_cons_self) hk hρ
          (Interp.patVals_typed hpt (hpty ▸ hd) hpok) _
      next => exact hrest

end MapFold

/-! The node of the map that keeps the connective. -/

variable {a : Attrs} {t f : STerm}

/-- A well-typed formula of the session. -/
structure Fmla (I : Interp C D) (U : Session) (f : STerm) : Prop where
  typed : Typed C U f
  noTy : tTy f = none
  ok : Ok f
  wellTyped : WellTyped C I.Exhaustive [] (force f)

theorem Fmla.noTy_force (hf : Fmla I U f) : (force f).tTy = none :=
  hf.typed.force.2.trans hf.noTy

/-- The outcome is a formula that follows `f` in the polarity `s`. -/
def Maps (I : Interp C D) (pol : Bool → Option Bool) (s : Bool) (out : Except MapError STerm)
    (f : STerm) : Prop :=
  ∃ g, out = .ok g ∧ ∀ ρ, I.TypedEnv ρ →
    Follows (pol s) (I.holds ρ [] (force g)) (I.holds ρ [] (force f))

theorem tTyCheck_ok {ty : Option Ty} (h : tTy t = ty) : tTyCheck t ty = .ok () := by
  cases ty with
  | none => simp only [tTyCheck, h]
  | some ty => simp only [tTyCheck, h, if_true]

section Node

variable (h : SignMap I U pol fn)
include h

theorem SignMap.checked_eq (s : Bool) : checked (fn s) = fun acc t => (acc, fn s t) := by
  funext acc t
  rw [checked, tTyCheck_ok (h.sameTy s t)]
  cases acc with
  | error e => rfl
  | ok u => rfl

/-- The map over subterms never fails its checks. -/
theorem SignMap.tMapChecked_eq (s : Bool) (k : Nat) (f : STerm) : tMapChecked phys (fn s) k f =
      .ok (tMapFold phys (fun acc t => (acc, fn s t)) k (.ok () : Except MapError Unit) f).2 := by
  rw [tMapChecked, h.checked_eq, tMapFold_keep]
  rfl

theorem SignMap.tapp {ls : LSymbol} {tl : List STerm} (hf : Fmla I U (.tapp a ls tl none)) :
    Maps I pol s (tMapChecked phys (fn s) k (.tapp a ls tl none)) (.tapp a ls tl none) := by
  refine ⟨_, h.tMapChecked_eq s k _, fun ρ hρ => ?_⟩
  obtain _ | _ | hok := hf.ok
  obtain ⟨hargs, -, τ, htys, -⟩ := hf.wellTyped
  rw [forceList_eq] at hargs htys
  have hvals : (tl.map fun t => I.val ρ [] (force (fn s t))) =
      tl.map fun t => I.val ρ [] (force t) := by
    refine map_congr_left fun t ht => h.value s t ρ (hok t ht)
      (wellTypedList_iff.mp hargs _ (mem_map_of_mem ht)) (fun hnone => ?_) hρ
    have hmem : none ∈ (tl.map force).map Term.tTy := by
      rw [← hnone]
      exact mem_map_of_mem (mem_map_of_mem ht)
    rw [htys] at hmem
    obtain ⟨_, -, hsome⟩ := mem_map.mp hmem
    cases hsome
  rw [tMapFold, mapFoldList_keep]
  refine .of_iff (iff_of_eq ?_)
  simp only [holds, force, forceList_eq, sem, Interp.semList_eq_map, map_map,
    Function.comp_def, hvals]

theorem SignMap.tlet {v : VSymbol} {e : STerm} (hf : Fmla I U (.tlet a t v b e))
    (hk : TermBelow k (force (.tlet a t v b e))) :
    Maps I pol s (tMapChecked phys (fn s) k (.tlet a t v b e)) (.tlet a t v b e) := by
  refine ⟨_, h.tMapChecked_eq s k _, fun ρ hρ => ?_⟩
  obtain _ | _ | _ | _ | ⟨ht, hb, hdef, he⟩ := hf.ok
  obtain ⟨⟨htwt, htty⟩, hbwt⟩ := hf.wellTyped
  have hbody : Body I k [v] b e := ⟨⟨hb.distinct, hdef⟩, he, hbwt,
    fun u hu => hk u (Finset.mem_union_right _ hu)⟩
  have hval := h.value s t ρ ht htwt (by simp [htty]) hρ
  have hds : List.Forall₂ I.dom ([v].map VSymbol.vsTy) [I.val ρ [] (force t)] :=
    .cons (sem_typed id hρ (force t) [] [] _ htwt .nil htty) .nil
  have hmapped := h.body (s := s) hbody hf.noTy_force le_rfl hρ hds
  simp only [tMapFold]
  split
  · split
    · exact .of_iff Iff.rfl
    · refine .of_iff (iff_of_eq ?_)
      rw [holds, holds, sem_tAttrCopy]
      simp only [tLet, force, sem]
      rw [← val, hval, val]
  · rw [holds, sem_tAttrCopy]
    simp only [tLetClose, tLet, force, sem]
    rw [← val, hval]
    exact hmapped _

theorem SignMap.tcase {bl : List TermBranch} (hf : Fmla I U (.tcase a t bl))
    (hk : TermBelow k (force (.tcase a t bl))) :
    Maps I pol s (tMapChecked phys (fn s) k (.tcase a t bl)) (.tcase a t bl) := by
  refine ⟨_, h.tMapChecked_eq s k _, fun ρ hρ => ?_⟩
  obtain _ | _ | _ | _ | _ | ⟨ht, hb, hdef, he⟩ := hf.ok
  obtain ⟨htwt, ⟨ty, htty, -, hp⟩, ⟨-, htys⟩, hbwt⟩ := hf.wellTyped
  have hval := h.value s t ρ ht htwt (by simp [htty]) hρ
  have hd : I.dom ty (I.val ρ [] (force t)) :=
    sem_typed id hρ (force t) [] [] _ htwt .nil htty
  have hmem : ∀ y ∈ bl, (y.1, bodyOf (patVars y.1) y.2.1 y.2.2) ∈ forceBranches bl := by
    intro y hy
    rw [forceBranches_eq]
    exact mem_map_of_mem hy
  have hbody : ∀ y ∈ bl, Body I k (patVars y.1) y.2.1 y.2.2 := by
    refine fun y hy => ⟨⟨(hb y hy).distinct, hdef y hy⟩, he y hy, ?_, fun u hu => hk u ?_⟩
    · have hwt := wellTypedBranches_iff.mp hbwt _ (hmem y hy)
      rwa [append_nil] at hwt
    · exact Finset.mem_union_right _ (Interp.mem_tVarsBranches.mpr ⟨_, hmem y hy, hu⟩)
  have hmapped := h.branches (A := Except MapError Unit) (.ok ()) phys s hρ hd (I.junk, False) hbody
    (fun y hy => hp _ (hmem y hy)) (fun y hy => (htys _ (hmem y hy)).trans hf.noTy_force) le_rfl
  simp only [tMapFold]
  split
  · exact .of_iff Iff.rfl
  · rw [holds, sem_tAttrCopy]
    simp only [tCase, force, sem]
    rw [← val, hval]
    exact hmapped

theorem SignMap.tquant {q : Quant} {vl : List VSymbol} {tr : List (List STerm)}
    (hf : Fmla I U (.tquant a q vl b tr f)) (hk : TermBelow k (force (.tquant a q vl b tr f))) :
    Maps I pol s (tMapChecked phys (fn s) k (.tquant a q vl b tr f)) (.tquant a q vl b tr f) := by
  refine ⟨_, h.tMapChecked_eq s k _, fun ρ hρ => ?_⟩
  obtain _ | _ | _ | _ | _ | _ | _ | ⟨hb, hdef, -, hbok⟩ := hf.ok
  obtain ⟨hbwt, hty⟩ := hf.wellTyped
  rw [append_nil] at hbwt
  have hbody : Body I k vl b f := ⟨⟨hb.distinct, hdef⟩, hbok, hbwt,
    fun u hu => hk u (Finset.mem_union_left _ hu)⟩
  simp only [tMapFold]
  split
  · exact .of_iff Iff.rfl
  · rw [holds, sem_tAttrCopy, ← holds,
      tOpenQuant, holds_quantClosed, force, holds_tquant]
    refine quantifies_follows fun ds hds => ?_
    have hmapped := h.body (s := s) hbody hty le_rfl hρ hds []
    rwa [sem_closed ρ (by rw [← hds.length_eq, length_map])] at hmapped

end Node

/-! The expansions. -/

section

variable {t1 t2 : STerm} (hphys : ∀ s t, phys s t = true → s = t) (h1 : Typed C U t1)
  (h2 : Typed C U t2)
include hphys h1 h2

theorem tEqual_ok : ∃ same, tEqual phys U.tyTag t1 t2 = .ok same ∧
      (same = true → ∀ ρ, I.holds ρ [] (force t1) = I.holds ρ [] (force t2)) := by
  obtain ⟨hcmp, hnameless⟩ := tCompare_eq hphys h1 h2
  refine ⟨_, by rw [tEqual, hcmp], fun heq ρ => ?_⟩
  have hkeys := (cmp_eq_eq_iff _ _).mp (beq_iff_eq.mp heq)
  rw [holds, holds, sem_namelessIn I ρ h1, sem_namelessIn I ρ h2, hnameless hkeys]

theorem bothEqual_ok {u1 u2 : STerm} (h3 : Typed C U u1) (h4 : Typed C U u2) :
    ∃ same, bothEqual phys U.tyTag t1 t2 u1 u2 = .ok same ∧ (same = true → ∀ ρ,
      I.holds ρ [] (force t1) = I.holds ρ [] (force t2) ∧
        I.holds ρ [] (force u1) = I.holds ρ [] (force u2)) := by
  obtain ⟨s1, heq1, hs1⟩ := tEqual_ok (I := I) hphys h1 h2
  obtain ⟨s2, heq2, hs2⟩ := tEqual_ok (I := I) hphys h3 h4
  rw [bothEqual, heq1]
  cases s1 with
  | false => exact ⟨false, rfl, nofun⟩
  | true => exact ⟨s2, heq2, fun hs ρ => ⟨hs1 rfl ρ, hs2 hs ρ⟩⟩

end

theorem iff_iff_or_imp_and {p q : Prop} : (p ↔ q) ↔ (p ∨ q → p ∧ q) := by tauto

theorem cond_iff_or {p q r : Prop} : (p → q) ∧ (¬p → r) ↔ p ∧ q ∨ ¬p ∧ r := by tauto

theorem tBinary_ok {op : Binop} {g : STerm} (hf : tTy f = none) (hg : tTy g = none) :
    tBinary op f g = .ok (.tbinop ∅ op f g) := by
  rw [tBinary, tProp, if_pos hf, ok_bind, tProp, if_pos hg, ok_bind]

theorem tNot_ok (hf : tTy f = none) : tNot f = .ok (.tnot ∅ f) := by
  rw [tNot, tProp, if_pos hf, ok_bind]

section Expand

variable (h : SignMap I U pol fn) (hpol : ∀ s, pol (!s) = (pol s).map Bool.not)
  (hphys : ∀ s t, phys s t = true → s = t) {f f1 f2 f3 : STerm}
include h

theorem SignMap.noTy (hf : Fmla I U f) (s : Bool) : tTy (fn s f) = none :=
  (h.sameTy s f).trans hf.noTy

theorem SignMap.same (hf : Fmla I U f) (s : Bool) (hρ : I.TypedEnv ρ) :
    Follows (pol s) (I.holds ρ [] (force (fn s f))) (I.holds ρ [] (force f)) :=
  h.follows s f ρ hf.ok hf.wellTyped hf.noTy_force hρ

include hpol

theorem SignMap.other (hf : Fmla I U f) (s : Bool) (hρ : I.TypedEnv ρ) :
    Follows ((pol s).map Bool.not) (I.holds ρ [] (force (fn (!s) f))) (I.holds ρ [] (force f)) :=
  hpol s ▸ h.same hf (!s) hρ

/-- Equal formulas for the two polarities are equivalent to the argument. -/
theorem SignMap.iff_of_same (hf : Fmla I U f) (s : Bool) (hρ : I.TypedEnv ρ)
    (heq : I.holds ρ [] (force (fn s f)) = I.holds ρ [] (force (fn (!s) f))) :
    I.holds ρ [] (force (fn s f)) ↔ I.holds ρ [] (force f) :=
  (h.same hf s hρ).iff_of_both (heq ▸ h.other hpol hf s hρ)

include hphys

theorem SignMap.iff_ok (sign : Bool) (h1 : Fmla I U f1) (h2 : Fmla I U f2) :
    Maps I pol sign (mapSignIff phys U.tyTag fn sign f1 f2) (.tbinop a .tiff f1 f2) := by
  obtain ⟨same, heq, hsame⟩ := bothEqual_ok (I := I) hphys (h.typed sign f1 h1.typed)
    (h.typed (!sign) f1 h1.typed) (h.typed sign f2 h2.typed) (h.typed (!sign) f2 h2.typed)
  have hp1 := h.noTy h1 sign
  have hn1 := h.noTy h1 (!sign)
  have hp2 := h.noTy h2 sign
  have hn2 := h.noTy h2 (!sign)
  rw [mapSignIff]
  simp only [heq, ok_bind]
  cases same with
  | true =>
    refine ⟨_, tBinary_ok hp1 hp2, fun ρ hρ => .of_iff ?_⟩
    obtain ⟨he1, he2⟩ := hsame rfl ρ
    exact iff_congr (h.iff_of_same hpol h1 sign hρ he1) (h.iff_of_same hpol h2 sign hρ he2)
  | false =>
    cases sign with
    | true =>
      rw [tImplies, tBinary_ok hn1 hp2, ok_bind,
        tBinary_ok hn2 hp1, ok_bind, tAnd, tBinary_ok rfl rfl]
      refine ⟨_, rfl, fun ρ hρ => ?_⟩
      change Follows _ _ (_ ↔ _)
      rw [iff_iff_implies_and_implies]
      exact .and (.imp (h.other hpol h1 true hρ) (h.same h2 true hρ))
        (.imp (h.other hpol h2 true hρ) (h.same h1 true hρ))
    | false =>
      rw [if_neg nofun, if_neg nofun, tOr, tBinary_ok hn1 hn2, ok_bind, tAnd,
        tBinary_ok hp1 hp2, ok_bind, tImplies, tBinary_ok rfl rfl]
      refine ⟨_, rfl, fun ρ hρ => ?_⟩
      change Follows _ _ (_ ↔ _)
      rw [iff_iff_or_imp_and]
      exact .imp (.or (h.other hpol h1 false hρ) (h.other hpol h2 false hρ))
        (.and (h.same h1 false hρ) (h.same h2 false hρ))

theorem SignMap.if_ok (sign : Bool) (h1 : Fmla I U f1) (h2 : Fmla I U f2) (h3 : Fmla I U f3) :
    Maps I pol sign (mapSignIf phys U.tyTag fn sign f1 f2 f3) (.tif a f1 f2 f3) := by
  have hsem (ρ : VSymbol → D) : I.holds ρ [] (force (.tif a f1 f2 f3)) ↔
      (I.holds ρ [] (force f1) → I.holds ρ [] (force f2)) ∧
        (¬ I.holds ρ [] (force f1) → I.holds ρ [] (force f3)) := select_snd _ _ _
  simp only [Maps, hsem]
  obtain ⟨same, heq, hsame⟩ := tEqual_ok (I := I) hphys (h.typed sign f1 h1.typed)
    (h.typed (!sign) f1 h1.typed)
  have hp1 := h.noTy h1 sign
  have hn1 := h.noTy h1 (!sign)
  have hp2 := h.noTy h2 sign
  have hp3 := h.noTy h3 sign
  rw [mapSignIf]
  simp only [heq, ok_bind]
  cases same with
  | true =>
    rw [tIf, tTyCheck_ok (hp3.trans hp2.symm), tProp, if_pos hp1]
    refine ⟨_, rfl, fun ρ hρ => ?_⟩
    have hcond := h.iff_of_same hpol h1 sign hρ (hsame rfl ρ)
    rw [holds, force, sem, select_snd]
    exact .and (.imp (.of_iff hcond) (h.same h2 sign hρ))
      (.imp (.of_iff (not_congr hcond)) (h.same h3 sign hρ))
  | false =>
    cases sign with
    | true =>
      rw [tImplies, tBinary_ok hn1 hp2, ok_bind, tNot_ok hp1,
        ok_bind, tBinary_ok rfl hp3, ok_bind, tAnd]
      refine ⟨_, rfl, fun ρ hρ => ?_⟩
      exact .and (.imp (h.other hpol h1 true hρ) (h.same h2 true hρ))
        (.imp (.neg (h.same h1 true hρ)) (h.same h3 true hρ))
    | false =>
      rw [tAnd, tBinary_ok hp1 hp2, ok_bind, tNot_ok hn1,
        ok_bind, tBinary_ok rfl hp3, ok_bind, tOr]
      refine ⟨_, rfl, fun ρ hρ => ?_⟩
      rw [cond_iff_or]
      exact .or (.and (h.same h1 false hρ) (h.same h2 false hρ))
        (.and (.not (h.other hpol h1 false hρ)) (h.same h3 false hρ))

end Expand

section Sign

variable {f : STerm}

theorem Fmla.tbinop {op : Binop} {g : STerm} (h : Fmla I U (.tbinop a op f g)) :
    Fmla I U f ∧ Fmla I U g := by
  obtain ⟨htyped, -, hok, hwt⟩ := h
  cases htyped with
  | tbinop _ _ hf hfty hg hgty =>
    cases hok with
    | tbinop hfok hgok => exact ⟨⟨hf, hfty, hfok, hwt.1.1⟩, ⟨hg, hgty, hgok, hwt.2.1⟩⟩

theorem Fmla.tnot (h : Fmla I U (.tnot a f)) : Fmla I U f := by
  obtain ⟨htyped, -, hok, hwt⟩ := h
  cases htyped with
  | tnot _ hf hfty =>
    cases hok with
    | tnot hfok => exact ⟨hf, hfty, hfok, hwt.1⟩

theorem Fmla.tif {g e : STerm} (h : Fmla I U (.tif a f g e)) :
    Fmla I U f ∧ Fmla I U g ∧ Fmla I U e := by
  obtain ⟨htyped, hty, hok, hwt⟩ := h
  cases htyped with
  | tif _ hf hfty hg he hsame =>
    cases hok with
    | tif hfok hgok heok =>
      exact ⟨⟨hf, hfty, hfok, hwt.1.1⟩, ⟨hg, hty, hgok, hwt.2.1⟩,
        ⟨he, hsame.symm.trans hty, heok, hwt.2.2.1⟩⟩

section

variable (h : SignMap I U pol fn) (hpol : ∀ s, pol (!s) = (pol s).map Bool.not)
  (hphys : ∀ s t, phys s t = true → s = t) (hf : Fmla I U f) (hk : TermBelow k (force f))
  (sign : Bool)
include h hpol hphys hf hk sign

theorem mapSignNode_ok : Maps I pol sign (mapSignNode phys U.tyTag fn sign k f) f := by
  cases f with
  | tvar a v | tconst a c ty | teps a v b f => cases hf.noTy
  | tapp a ls tl ty =>
    cases hf.noTy
    exact h.tapp hf
  | tif a f1 f2 f3 =>
    obtain ⟨h1, h2, h3⟩ := hf.tif
    rw [mapSignNode, if_pos hf.noTy]
    exact h.if_ok hpol hphys sign h1 h2 h3
  | tlet a t v b e => exact h.tlet hf hk
  | tcase a t bl => exact h.tcase hf hk
  | tquant a q vl b tr f => exact h.tquant hf hk
  | tbinop a op f1 f2 =>
    obtain ⟨h1, h2⟩ := hf.tbinop
    cases op with
    | tand =>
      exact ⟨_, h.tMapChecked_eq sign k _, fun ρ hρ =>
        .and (h.same h1 sign hρ) (h.same h2 sign hρ)⟩
    | tor =>
      exact ⟨_, h.tMapChecked_eq sign k _, fun ρ hρ =>
        .or (h.same h1 sign hρ) (h.same h2 sign hρ)⟩
    | timplies =>
      exact ⟨_, tBinary_ok (h.noTy h1 (!sign)) (h.noTy h2 sign), fun ρ hρ =>
        .imp (h.other hpol h1 sign hρ) (h.same h2 sign hρ)⟩
    | tiff => exact h.iff_ok hpol hphys sign h1 h2
  | tnot a f1 =>
    exact ⟨_, tNot_ok (h.noTy hf.tnot (!sign)), fun ρ hρ => .not (h.other hpol hf.tnot sign hρ)⟩
  | ttrue a =>
    exact ⟨_, h.tMapChecked_eq sign k (.ttrue a), fun ρ _ => .of_iff Iff.rfl⟩
  | tfalse a =>
    exact ⟨_, h.tMapChecked_eq sign k (.tfalse a), fun ρ _ => .of_iff Iff.rfl⟩

/-- A map by polarity answers, and its formula is above, below or equivalent to its argument as
those of the function are. -/
theorem tMapSign_ok : Maps I pol sign (tMapSign phys U.tyTag fn sign k f) f := by
  obtain ⟨g, hg, hfollows⟩ := mapSignNode_ok h hpol hphys hf hk sign
  refine ⟨tAttrCopy f g, by rw [tMapSign, hg]; rfl, fun ρ hρ => ?_⟩
  have hsem : I.holds ρ [] (force (tAttrCopy f g)) = I.holds ρ [] (force g) :=
    congrArg Prod.snd (sem_tAttrCopy ρ f g)
  rw [hsem]
  exact hfollows ρ hρ

end

/-- A function that strengthens formulas for the positive polarity and weakens them for the
negative one gives a map that does so, and a function that keeps the meaning one that keeps it. -/
theorem tMapSign_monotone (C : AlgSig) (D : Type) (I : Interp C D) (U : Session)
    (phys : STerm → STerm → Bool) (fn : Bool → STerm → STerm) (k : Nat) (f : STerm)
    (hphys : ∀ s t, phys s t = true → s = t) (hf : Fmla I U f) (hk : TermBelow k (force f)) :
    (SignMap I U some fn → (∃ g, tMapSign phys U.tyTag fn true k f = .ok g ∧ ∀ ρ, I.TypedEnv ρ →
        I.holds ρ [] (force g) → I.holds ρ [] (force f)) ∧
      (∃ g, tMapSign phys U.tyTag fn false k f = .ok g ∧ ∀ ρ, I.TypedEnv ρ →
        I.holds ρ [] (force f) → I.holds ρ [] (force g))) ∧
    (SignMap I U (fun _ => none) fn → ∀ sign,
      ∃ g, tMapSign phys U.tyTag fn sign k f = .ok g ∧ ∀ ρ, I.TypedEnv ρ →
        (I.holds ρ [] (force g) ↔ I.holds ρ [] (force f))) := by
  refine ⟨fun h => ⟨?_, ?_⟩, fun h sign => ?_⟩
  · exact tMapSign_ok h (fun _ => rfl) hphys hf hk true
  · exact tMapSign_ok h (fun _ => rfl) hphys hf hk false
  · exact tMapSign_ok h (fun _ => rfl) hphys hf hk sign

end Sign

section Witness

/-- Every formula becomes false or true, as its polarity allows. -/
def constSign (s : Bool) (t : STerm) : STerm :=
  if tTy t = none ∧ (force t).tTy = none then if s then .tfalse ∅ else .ttrue ∅ else t

theorem signMap_constSign (I : Interp C D) (U : Session) : SignMap I U some constSign := by
  refine ⟨fun s t ht => ?_, fun s t => ?_, fun s t ρ _ _ hty _ => ?_, fun s f ρ _ _ _ _ => ?_⟩
  · rw [constSign]
    split
    · cases s with
      | true => exact .tfalse ∅
      | false => exact .ttrue ∅
    · exact ht
  · rw [constSign]
    split
    next h =>
      cases s with
      | true | false => exact h.1.symm
    next => rfl
  · rw [constSign, if_neg fun h => hty h.2]
  · rw [constSign]
    split
    · cases s with
      | true => exact fun h => h.elim
      | false => exact fun _ => trivial
    · exact .of_iff Iff.rfl

theorem tMapSign_monotone_iff : ∃ g, tMapSign (fun _ _ => false) smallSession.tyTag constSign true 0
        (.tbinop ∅ .tiff (.ttrue ∅) (.tfalse ∅)) = .ok g ∧
      ∀ ρ, bitInterp.TypedEnv ρ → bitInterp.holds ρ [] (force g) →
        bitInterp.holds ρ [] (force (.tbinop ∅ .tiff (.ttrue ∅) (.tfalse ∅))) := by
  have hf : Fmla bitInterp smallSession (.tbinop ∅ .tiff (.ttrue ∅) (.tfalse ∅)) :=
    ⟨.tbinop ∅ .tiff (.ttrue ∅) rfl (.tfalse ∅) rfl, rfl, .tbinop (.ttrue ∅) (.tfalse ∅),
      ⟨⟨trivial, rfl⟩, trivial, rfl⟩⟩
  exact ((tMapSign_monotone bitSig Bool bitInterp smallSession (fun _ _ => false) constSign 0 _
    nofun hf nofun).1 (signMap_constSign bitInterp smallSession)).1

end Witness

end Stored
end Why3
