import Why3.Semantics.Binding

/-!
Well-typed patterns and terms, and the soundness of typing.

The typing predicate takes a condition on the matches of the term (the type of
the argument and the patterns), which every match in it must satisfy. The exhaustiveness of matches is such a condition; without it a
match may have no value of its type.
-/
namespace Why3

open List
open VSymbol (vsTy)

/-- The types of the arguments of constructors have the right arity. -/
structure AlgSig.Wf (C : AlgSig) : Prop where
  args : ∀ {ts c}, c ∈ C.constrs ts → ∀ a ∈ c.lsArgs, tyWf a = true

mutual
def PatTyped (C : AlgSig) : Pattern → Prop
  | .pwild _ | .pvar _ => True
  | .papp cs pl ty =>
    (∃ ts tl, ty = .tyapp ts tl ∧ cs ∈ C.constrs ts ∧ tl.length = ts.tsArgs.length) ∧
      pl.map patTy = constrArgTys cs ty ∧ (pl.flatMap patVars).Nodup ∧ PatTypedList C pl
  | .por p q =>
    PatTyped C p ∧ PatTyped C q ∧ patTy p = patTy q ∧ ∀ v, v ∈ patVars p ↔ v ∈ patVars q
  | .pas p v => PatTyped C p ∧ patTy p = v.vsTy ∧ v ∉ patVars p
def PatTypedList (C : AlgSig) : List Pattern → Prop
  | [] => True
  | p :: pl => PatTyped C p ∧ PatTypedList C pl
end

variable {pl : List Pattern} {bl : List (Pattern × Term)} {v : VSymbol} {C : AlgSig}

@[simp] theorem patTypedList_iff : PatTypedList C pl ↔ ∀ p ∈ pl, PatTyped C p := by
  induction pl with
  | nil => simp [PatTypedList]
  | cons p pl ih => simp [PatTypedList, ih]

theorem PatTyped.nodup (p : Pattern) : PatTyped C p → (patVars p).Nodup := by
  induction p using Pattern.induct with
  | papp cs pl ty ih =>
    intro hp
    rw [patVars, patVarsList_eq_flatMap]
    exact hp.2.2.1
  | por p q ihp ihq => exact fun hp => ihp hp.1
  | pas p v ih =>
    intro ⟨hp, _, hv⟩
    rw [patVars, nodup_append]
    refine ⟨ih hp, by simp, ?_⟩
    intro a ha b hb he
    rw [mem_singleton] at hb
    exact hv (hb ▸ he ▸ ha)
  | _ => simp [patVars]

/-- A condition on the type of the argument of a match and on its patterns. -/
abbrev CaseCond := Ty → List Pattern → Prop

mutual
def WellTyped (C : AlgSig) (Q : CaseCond) : List Ty → Term → Prop
  | _, .tvar _ _ | _, .tconst _ _ _ | _, .ttrue _ | _, .tfalse _ => True
  | Γ, .bvar _ i ty => Γ[i]? = some ty
  | Γ, .tapp _ ls tl ty =>
    WellTypedList C Q Γ tl ∧ (0 < ls.lsConstr → ∃ ts, ls ∈ C.constrs ts) ∧
      ∃ s, tl.map Term.tTy = ls.lsArgs.map (fun a => some (tyInst s a)) ∧
        ty = ls.lsValue.map (tyInst s)
  | Γ, .tif _ f t e =>
    (WellTyped C Q Γ f ∧ f.tTy = none) ∧ WellTyped C Q Γ t ∧ WellTyped C Q Γ e ∧
      t.tTy = e.tTy
  | Γ, .tlet _ t v e =>
    (WellTyped C Q Γ t ∧ t.tTy = some v.vsTy) ∧ WellTyped C Q (v.vsTy :: Γ) e
  | Γ, .tcase a t bl =>
    WellTyped C Q Γ t ∧
      (∃ ty, t.tTy = some ty ∧ Q ty (bl.map Prod.fst) ∧
        ∀ b ∈ bl, PatTyped C b.1 ∧ patTy b.1 = ty) ∧
      (bl ≠ [] ∧ ∀ b ∈ bl, b.2.tTy = (Term.tcase a t bl).tTy) ∧ WellTypedBranches C Q Γ bl
  | Γ, .teps _ v f => WellTyped C Q (v.vsTy :: Γ) f ∧ f.tTy = none
  | Γ, .tquant _ _ vl _ f => WellTyped C Q (vl.map vsTy ++ Γ) f ∧ f.tTy = none
  | Γ, .tbinop _ _ f g =>
    (WellTyped C Q Γ f ∧ f.tTy = none) ∧ WellTyped C Q Γ g ∧ g.tTy = none
  | Γ, .tnot _ f => WellTyped C Q Γ f ∧ f.tTy = none
def WellTypedList (C : AlgSig) (Q : CaseCond) : List Ty → List Term → Prop
  | _, [] => True
  | Γ, t :: tl => WellTyped C Q Γ t ∧ WellTypedList C Q Γ tl
def WellTypedBranches (C : AlgSig) (Q : CaseCond) : List Ty → List (Pattern × Term) → Prop
  | _, [] => True
  | Γ, (p, e) :: bl =>
    WellTyped C Q ((patVars p).map vsTy ++ Γ) e ∧ WellTypedBranches C Q Γ bl
end

attribute [grind =] WellTyped PatTyped

section

variable {C : AlgSig} {Q : CaseCond} {Γ : List Ty}

@[simp] theorem wellTypedList_iff {tl : List Term} :
    WellTypedList C Q Γ tl ↔ ∀ t ∈ tl, WellTyped C Q Γ t := by
  induction tl with
  | nil => simp [WellTypedList]
  | cons t tl ih => simp [WellTypedList, ih]

@[simp] theorem wellTypedBranches_iff : WellTypedBranches C Q Γ bl ↔
      ∀ b ∈ bl, WellTyped C Q ((patVars b.1).map vsTy ++ Γ) b.2 := by
  induction bl with
  | nil => simp [WellTypedBranches]
  | cons b bl ih => simp [WellTypedBranches, ih]

end

/-! Typing under the maps on variables. -/

/-- A map on variables that takes the context `Γ` to the context `Γ'`. -/
structure TypedMap (C : AlgSig) (Q : CaseCond) (Γ Γ' : List Ty)
    (fv : Nat → Attrs → VSymbol → Term) (bv : Nat → Attrs → Nat → Ty → Term) : Prop where
  fvTy : ∀ k a v, (fv k a v).tTy = some v.vsTy
  fvTyped : ∀ Δ a v, WellTyped C Q (Δ ++ Γ') (fv Δ.length a v)
  bvTyped : ∀ Δ a i ty, (Δ ++ Γ)[i]? = some ty →
    (bv Δ.length a i ty).tTy = some ty ∧ WellTyped C Q (Δ ++ Γ') (bv Δ.length a i ty)

variable {Q : CaseCond}

theorem TypedMap.wellTyped {Γ Γ' : List Ty} {fv : Nat → Attrs → VSymbol → Term}
    {bv : Nat → Attrs → Nat → Ty → Term} (h : TypedMap C Q Γ Γ' fv bv) (t : Term) :
    ∀ Δ, WellTyped C Q (Δ ++ Γ) t → WellTyped C Q (Δ ++ Γ') (t.mapVars fv bv Δ.length) ∧
        (t.mapVars fv bv Δ.length).tTy = t.tTy := by
  induction t using Term.induct with
  | tvar a v => exact fun Δ _ => ⟨h.fvTyped Δ a v, h.fvTy _ a v⟩
  | bvar a i ty =>
    intro Δ ht
    obtain ⟨hty, ht⟩ := h.bvTyped Δ a i ty ht
    exact ⟨ht, hty⟩
  | tconst a c ty | ttrue a | tfalse a => exact fun Δ _ => ⟨trivial, rfl⟩
  | tapp a ls tl ty ih =>
    rintro Δ ⟨htl, hcs, s, hargs, hval⟩
    rw [wellTypedList_iff] at htl
    refine ⟨⟨?_, hcs, s, ?_, hval⟩, rfl⟩
    · simp only [Term.mapVarsList_eq_map, wellTypedList_iff, mem_map]
      rintro _ ⟨t, ht, rfl⟩
      exact (ih t ht Δ (htl t ht)).1
    · rw [← hargs, Term.mapVarsList_eq_map, map_map]
      exact map_congr_left fun t ht => (ih t ht Δ (htl t ht)).2
  | tif a f t e hf ht he =>
    rintro Δ ⟨⟨hwf, hfty⟩, hwt, hwe, hty⟩
    obtain ⟨hwf, hfty'⟩ := hf Δ hwf
    obtain ⟨hwt, htty⟩ := ht Δ hwt
    obtain ⟨hwe, hety⟩ := he Δ hwe
    exact ⟨⟨⟨hwf, hfty'.trans hfty⟩, hwt, hwe, htty.trans (hty.trans hety.symm)⟩, htty⟩
  | tlet a t v e ht he =>
    rintro Δ ⟨⟨hwt, hv⟩, hwe⟩
    obtain ⟨hwt, htty⟩ := ht Δ hwt
    obtain ⟨hwe, hety⟩ := he (v.vsTy :: Δ) hwe
    exact ⟨⟨⟨hwt, htty.trans hv⟩, hwe⟩, hety⟩
  | tcase a t bl ht hbl =>
    rintro Δ ⟨hwt, ⟨sty, hsty, hq, hpat⟩, ⟨hne, htys⟩, hwb⟩
    rw [wellTypedBranches_iff] at hwb
    obtain ⟨hwt, htty⟩ := ht Δ hwt
    have hb : ∀ b ∈ bl, WellTyped C Q ((patVars b.1).map vsTy ++ (Δ ++ Γ'))
          (b.2.mapVars fv bv (Δ.length + (patVars b.1).length)) ∧
        (b.2.mapVars fv bv (Δ.length + (patVars b.1).length)).tTy = b.2.tTy := by
      intro b hb
      have := hbl b hb ((patVars b.1).map vsTy ++ Δ)
      rw [length_append, length_map, append_assoc, append_assoc, Nat.add_comm] at this
      exact this (hwb b hb)
    have hty : ((Term.tcase a t bl).mapVars fv bv Δ.length).tTy = (Term.tcase a t bl).tTy := by
      cases bl with
      | nil => rfl
      | cons b bl => exact (hb b mem_cons_self).2
    refine ⟨⟨hwt, ⟨sty, htty.trans hsty, ?_, ?_⟩, ⟨?_, ?_⟩, ?_⟩, hty⟩
    · rw [Term.mapVarsBranches_eq_map, map_map]
      exact hq
    · simp only [Term.mapVarsBranches_eq_map, mem_map]
      rintro _ ⟨b, hmem, rfl⟩
      exact hpat b hmem
    · simpa using hne
    · simp only [Term.mapVars] at hty
      rw [hty]
      simp only [Term.mapVarsBranches_eq_map, mem_map]
      rintro _ ⟨b, hmem, rfl⟩
      exact (hb b hmem).2.trans (htys b hmem)
    · simp only [Term.mapVarsBranches_eq_map, wellTypedBranches_iff, mem_map]
      rintro _ ⟨b, hmem, rfl⟩
      exact (hb b hmem).1
  | teps a v f hf =>
    rintro Δ ⟨hwf, hfty⟩
    obtain ⟨hwf, hfty'⟩ := hf (v.vsTy :: Δ) hwf
    exact ⟨⟨hwf, hfty'.trans hfty⟩, rfl⟩
  | tquant a q vl tr f htr hf =>
    rintro Δ ⟨hwf, hfty⟩
    have := hf (vl.map vsTy ++ Δ)
    rw [length_append, length_map, append_assoc, append_assoc, Nat.add_comm] at this
    obtain ⟨hwf, hfty'⟩ := this hwf
    exact ⟨⟨hwf, hfty'.trans hfty⟩, rfl⟩
  | tbinop a op f g hf hg =>
    rintro Δ ⟨⟨hwf, hfty⟩, hwg, hgty⟩
    obtain ⟨hwf, hfty'⟩ := hf Δ hwf
    obtain ⟨hwg, hgty'⟩ := hg Δ hwg
    exact ⟨⟨⟨hwf, hfty'.trans hfty⟩, hwg, hgty'.trans hgty⟩, rfl⟩
  | tnot a f hf =>
    rintro Δ ⟨hwf, hfty⟩
    obtain ⟨hwf, hfty'⟩ := hf Δ hwf
    exact ⟨⟨hwf, hfty'.trans hfty⟩, rfl⟩

section

variable {C : AlgSig} {Q : CaseCond} {Γ : List Ty}

variable {t s : Term}

@[simp] theorem wellTyped_setAttrs {a : Attrs} :
    WellTyped C Q Γ (t.setAttrs a) ↔ WellTyped C Q Γ t := by
  cases t with
  | tcase b t bl => cases bl <;> exact Iff.rfl
  | _ => exact Iff.rfl

@[simp] theorem tTy_setAttrs (t : Term) (a : Attrs) : (t.setAttrs a).tTy = t.tTy := by
  cases t with
  | tcase b t bl => cases bl <;> rfl
  | _ => rfl

theorem WellTyped.lift (Δ : List Ty) (h : WellTyped C Q Γ t) :
    WellTyped C Q (Δ ++ Γ) (t.lift Δ.length) ∧ (t.lift Δ.length).tTy = t.tTy := by
  have hm : TypedMap C Q Γ (Δ ++ Γ) (fun _ a v => .tvar a v)
      (fun k a i ty => if i < k then .bvar a i ty else .bvar a (i + Δ.length) ty) := by
    refine ⟨fun _ _ _ => rfl, fun _ _ _ => trivial, ?_⟩
    intro E a i ty hi
    rw [← apply_ite (Term.bvar a · ty), WellTyped, getElem?_append_shift]
    exact ⟨rfl, hi⟩
  exact hm.wellTyped t [] h

theorem typedMap_close (vl : List VSymbol) : TypedMap C Q Γ (vl.map vsTy ++ Γ)
    (fun k a v => match vl.idxOf? v with
      | some j => .bvar a (k + j) v.vsTy
      | none => .tvar a v)
    (fun k a i ty => if i < k then .bvar a i ty else .bvar a (i + vl.length) ty) := by
  refine ⟨?_, ?_, ?_⟩
  · intro k a v
    cases vl.idxOf? v <;> rfl
  · intro Δ a v
    cases hv : vl.idxOf? v with
    | none => trivial
    | some j =>
      obtain ⟨hj, he, -⟩ := findIdx?_eq_some_iff_getElem.mp hv
      simp only [WellTyped]
      rw [getElem?_append_right (by omega), Nat.add_sub_cancel_left,
        getElem?_append_left (by simpa using hj), getElem?_map,
        List.getElem?_eq_getElem hj, Option.map_some, beq_iff_eq.mp he]
  · intro Δ a i ty hi
    have hlen : (vl.map vsTy).length = vl.length := length_map vsTy
    rw [← hlen, ← apply_ite (Term.bvar a · ty), WellTyped, getElem?_append_shift]
    exact ⟨rfl, hi⟩

theorem WellTyped.close (vl : List VSymbol) (h : WellTyped C Q Γ t) :
    WellTyped C Q (vl.map vsTy ++ Γ) (t.close vl) ∧ (t.close vl).tTy = t.tTy :=
  (typedMap_close vl).wellTyped t [] h

theorem typedMap_openWith (ul : List VSymbol) :
    TypedMap C Q (ul.map vsTy ++ Γ) Γ (fun _ a v => .tvar a v)
    (fun k a i ty => if i < k then .bvar a i ty else match ul[i - k]? with
      | some u => .tvar a u
      | none => .bvar a (i - ul.length) ty) := by
  refine ⟨fun _ _ _ => rfl, fun _ _ _ => trivial, ?_⟩
  intro Δ a i ty hi
  by_cases hlt : i < Δ.length
  · rw [if_pos hlt]
    refine ⟨rfl, ?_⟩
    rw [getElem?_append_left hlt] at hi
    rw [WellTyped, getElem?_append_left hlt, hi]
  · rw [if_neg hlt]
    rw [getElem?_append_right (by omega)] at hi
    cases hu : ul[i - Δ.length]? with
    | some u =>
      have hj := (List.getElem?_eq_some_iff.mp hu).1
      rw [getElem?_append_left (by simpa using hj), getElem?_map, hu] at hi
      exact ⟨hi, trivial⟩
    | none =>
      have hle := List.getElem?_eq_none_iff.mp hu
      rw [getElem?_append_right (by simpa using hle)] at hi
      refine ⟨rfl, ?_⟩
      simp only [WellTyped]
      rw [getElem?_append_right (by omega), ← hi]
      congr 1
      simp
      omega

theorem typedMap_tSubstSingle (hv : s.tTy = some v.vsTy) (hs : WellTyped C Q Γ s) : TypedMap C Q Γ Γ
    (fun k a u => match (if u = v then some s else none) with
      | some s => tAttrCopy (.tvar a u) (s.lift k)
      | none => .tvar a u) (fun _ a i ty => .bvar a i ty) := by
  have hty : ∀ k, (s.lift k).tTy = s.tTy := by
    intro k
    have := (hs.lift (List.replicate k tyInt)).2
    rwa [length_replicate] at this
  refine ⟨?_, ?_, fun Δ a i ty hi => ⟨rfl, hi⟩⟩
  · intro k a u
    by_cases hu : u = v
    · simp only [if_pos hu, tAttrCopy, tTy_setAttrs, hty]
      rw [hv, hu]
    · simp only [if_neg hu, Term.tTy]
  · intro Δ a u
    by_cases hu : u = v
    · simp only [if_pos hu, tAttrCopy, wellTyped_setAttrs, hs.lift Δ]
    · simp only [if_neg hu, WellTyped]

end

namespace Interp

variable {C : AlgSig} {D : Type} {I : Interp C D}

def TypedEnv (I : Interp C D) (ρ : VSymbol → D) : Prop := ∀ v, I.dom v.vsTy (ρ v)

theorem patsGet_none (h : ∀ p ∈ pl, ∀ d, I.patGet p d v = none)
    (ds : List D) : I.patsGet pl ds v = none := by
  induction pl generalizing ds with
  | nil => simp [patsGet]
  | cons p pl ih =>
    cases ds with
    | nil => simp [patsGet]
    | cons d ds =>
      rw [patsGet, h p mem_cons_self, ih fun q hq => h q (mem_cons_of_mem p hq)]
      rfl

theorem patGet_of_notMem (p : Pattern) :
    PatTyped C p → v ∉ patVars p → ∀ d, I.patGet p d v = none := by
  induction p using Pattern.induct with
  | pwild ty => exact fun _ _ _ => rfl
  | pvar u =>
    intro _ hv d
    rw [patGet, if_neg (by simpa [patVars] using hv)]
  | papp cs pl ty ih =>
    intro hp hv d
    simp only [PatTyped, patTypedList_iff] at hp
    simp only [patVars, patVarsList_eq_flatMap, mem_flatMap, not_exists, not_and] at hv
    rw [patGet]
    split
    · exact patsGet_none (fun p hmem d => ih p hmem (hp.2.2.2 p hmem) (hv p hmem) d) _
    · rfl
  | por p q ihp ihq =>
    intro hp hv d
    rw [patGet, ihp hp.1 hv, ihq hp.2.1 fun h => hv ((hp.2.2.2 v).mpr h), ite_self]
  | pas p u ih =>
    intro hp hv d
    simp only [patVars, mem_append, mem_singleton, not_or] at hv
    rw [patGet, if_neg hv.2, ih hp.1 hv.1]

theorem patsGet_typed (hpl : ∀ p ∈ pl, PatTyped C p)
    (ih : ∀ p ∈ pl, ∀ d, I.dom (patTy p) d → I.patOk p d = true → v ∈ patVars p →
      ∃ x, I.patGet p d v = some x ∧ I.dom v.vsTy x) (ds : List D)
    (hds : List.Forall₂ I.dom (pl.map patTy) ds) (hok : I.patsOk pl ds = true)
    (hv : v ∈ pl.flatMap patVars) : ∃ x, I.patsGet pl ds v = some x ∧ I.dom v.vsTy x := by
  induction pl generalizing ds with
  | nil => simp at hv
  | cons p pl ihpl =>
    rw [map_cons, List.forall₂_cons_left_iff] at hds
    obtain ⟨d, ds, hd, hds, rfl⟩ := hds
    rw [patsOk, Bool.and_eq_true] at hok
    rw [patsGet]
    by_cases hp : v ∈ patVars p
    · obtain ⟨x, hx, hdom⟩ := ih p mem_cons_self d hd hok.1 hp
      exact ⟨x, by rw [hx, Option.some_or], hdom⟩
    · rw [patGet_of_notMem p (hpl p mem_cons_self) hp]
      refine ihpl (fun q hq => hpl q (mem_cons_of_mem p hq))
        (fun q hq => ih q (mem_cons_of_mem p hq)) ds hds hok.2 ?_
      simpa [hp] using hv

/-- A pattern that matches gives each of its variables a value of its type. -/
theorem patGet_typed (p : Pattern) :
    PatTyped C p → ∀ d, I.dom (patTy p) d → I.patOk p d = true → v ∈ patVars p →
      ∃ x, I.patGet p d v = some x ∧ I.dom v.vsTy x := by
  induction p using Pattern.induct with
  | pwild ty =>
    intro _ d _ _ hv
    simp [patVars] at hv
  | pvar u =>
    intro _ d hd _ hv
    rw [patVars, mem_singleton] at hv
    subst hv
    exact ⟨d, by rw [patGet, if_pos rfl], hd⟩
  | papp cs pl ty ih =>
    intro hp d hd hok hv
    simp only [PatTyped, patTypedList_iff] at hp
    obtain ⟨⟨ts, tl, rfl, hcs, -⟩, htys, -, hpl⟩ := hp
    simp only [patVars, patVarsList_eq_flatMap] at hv
    rw [patOk] at hok
    cases hargs : I.destr cs d with
    | none => simp [hargs] at hok
    | some args =>
      simp only [hargs] at hok
      simp only [patGet, hargs]
      have hdom := (I.fn_destr hcs hd hargs).1
      rw [← htys] at hdom
      exact patsGet_typed hpl (fun p hmem => ih p hmem (hpl p hmem)) args hdom hok hv
  | por p q ihp ihq =>
    intro ⟨hp, hq, hty, hvars⟩ d hd hok hv
    rw [patOk, Bool.or_eq_true] at hok
    rw [patGet]
    by_cases hpd : I.patOk p d = true
    · rw [if_pos hpd]
      exact ihp hp d hd hpd hv
    · rw [if_neg hpd]
      refine ihq hq d ?_ (hok.resolve_left hpd) ((hvars v).mp hv)
      rw [← hty]
      exact hd
  | pas p u ih =>
    intro ⟨hp, hty, hu⟩ d hd hok hv
    rw [patGet]
    by_cases he : v = u
    · subst he
      exact ⟨d, by rw [if_pos rfl], hd⟩
    · rw [if_neg he]
      refine ih hp d (hty ▸ hd) hok ?_
      simpa [patVars, he] using hv

variable {d : D} {ρ : VSymbol → D}

theorem patVals_typed {p : Pattern} (hp : PatTyped C p) (hd : I.dom (patTy p) d)
    (hok : I.patOk p d = true) : List.Forall₂ I.dom ((patVars p).map vsTy) (I.patVals p d) := by
  rw [patVals, List.forall₂_map_left_iff, List.forall₂_map_right_iff, List.forall₂_same]
  intro v hv
  obtain ⟨x, hx, hdom⟩ := patGet_typed p hp d hd hok hv
  rwa [hx]

/-- The first branch that matches gives the value. -/
theorem semBranches_eq (ρ : VSymbol → D) (β : List D) (x : D × Prop)
    (h : ∃ b ∈ bl, I.patOk b.1 d = true) : ∃ b ∈ bl, I.patOk b.1 d = true ∧
      I.semBranches ρ β d x bl = I.sem ρ (I.patVals b.1 d ++ β) b.2 := by
  induction bl with
  | nil => simp at h
  | cons b bl ih =>
    by_cases hb : I.patOk b.1 d = true
    · exact ⟨b, mem_cons_self, hb, by rw [semBranches, if_pos hb]⟩
    · obtain ⟨b', hmem, hok⟩ := h
      rw [mem_cons] at hmem
      have hmem := hmem.resolve_left fun he => hb (he ▸ hok)
      obtain ⟨b'', hmem, hok, he⟩ := ih ⟨b', hmem, hok⟩
      exact ⟨b'', mem_cons_of_mem b hmem, hok, by rw [semBranches, if_neg hb, he]⟩

theorem semBranches_of_not {β : List D} {x : D × Prop} (h : ¬ ∃ b ∈ bl, I.patOk b.1 d = true) :
    I.semBranches ρ β d x bl = x := by
  induction bl with
  | nil => rfl
  | cons b bl ih =>
    rw [semBranches, if_neg fun hb => h ⟨b, mem_cons_self, hb⟩]
    refine ih ?_
    rintro ⟨b', hb', hok⟩
    exact h ⟨b', mem_cons_of_mem b hb', hok⟩

/-- Every value of the type is matched. -/
def Exhaustive (I : Interp C D) (ty : Ty) (pl : List Pattern) : Prop :=
  ∀ d, I.dom ty d → ∃ p ∈ pl, I.patOk p d = true

/-- A term with a type is no formula. -/
theorem not_holds_of_tTy (t : Term) :
    ∀ Γ β ty, WellTyped C Q Γ t → t.tTy = some ty → ¬ I.holds ρ β t := by
  induction t using Term.induct with
  | tapp a ls tl aty ih =>
    intro Γ β ty _ hty
    cases hty
    exact id
  | tif a f t e hf ht he =>
    intro Γ β ty hwt hty
    obtain ⟨-, hwt, hwe, heq⟩ := hwt
    rw [holds, sem]
    by_cases hc : (I.sem ρ β f).2
    · rw [select_of hc]
      exact ht Γ β ty hwt hty
    · rw [select_of_not hc]
      exact he Γ β ty hwe (heq ▸ hty)
  | tlet a t v e ht he =>
    intro Γ β ty hwt hty
    exact he _ _ ty hwt.2 hty
  | tcase a t bl ht hbl =>
    intro Γ β ty hwt hty
    obtain ⟨-, -, ⟨-, htys⟩, hwb⟩ := hwt
    rw [wellTypedBranches_iff] at hwb
    rw [holds, sem]
    by_cases hm : ∃ b ∈ bl, I.patOk b.1 (I.sem ρ β t).1 = true
    · obtain ⟨b, hb, -, he⟩ := semBranches_eq ρ β (I.junk, False) hm
      rw [he]
      exact hbl b hb _ _ ty (hwb b hb) (htys b hb ▸ hty)
    · rw [semBranches_of_not hm]
      exact id
  | _ => intro Γ β ty _ hty; first | exact id | cases hty

theorem forall₂_vals {tl : List Term} {tys : List Ty} {β : List D}
    (htys : tl.map Term.tTy = tys.map some)
    (h : ∀ t ∈ tl, ∀ ty, t.tTy = some ty → I.dom ty (I.val ρ β t)) :
    List.Forall₂ I.dom tys (tl.map (I.val ρ β)) := by
  induction tl generalizing tys with
  | nil =>
    rw [map_eq_nil_iff.mp htys.symm]
    exact .nil
  | cons t tl ih =>
    obtain ⟨ty, tys, rfl, hty, htys⟩ := map_eq_cons_iff.mp htys.symm
    rw [forall_mem_cons] at h
    exact .cons (h.1 ty hty.symm) (ih htys.symm h.2)

/-- A well-typed term whose matches are exhaustive has a value of its type. -/
theorem sem_typed (hQ : ∀ {ty pl}, Q ty pl → I.Exhaustive ty pl) (hρ : I.TypedEnv ρ) (t : Term) :
    ∀ Γ β ty, WellTyped C Q Γ t → List.Forall₂ I.dom Γ β → t.tTy = some ty →
      I.dom ty (I.val ρ β t) := by
  induction t using Term.induct with
  | tvar a v =>
    intro Γ β ty _ _ hty
    cases hty
    exact hρ v
  | bvar a i uty =>
    intro Γ β ty ht hβ hty
    cases hty
    obtain ⟨hi, he⟩ := List.getElem?_eq_some_iff.mp ht
    have hiβ : i < β.length := hβ.length_eq ▸ hi
    have := (List.forall₂_iff_get.mp hβ).2 i hi hiβ
    rw [val, sem, List.getElem?_eq_getElem hiβ]
    rwa [get_eq_getElem, get_eq_getElem, he] at this
  | tconst a c cty =>
    intro Γ β ty _ _ hty
    cases hty
    exact I.const_dom c _
  | tapp a ls tl aty ih =>
    intro Γ β ty ht hβ hty
    cases hty
    obtain ⟨htl, -, s, hargs, hval⟩ := ht
    rw [wellTypedList_iff] at htl
    refine I.fn_dom s hval.symm ?_
    rw [semList_eq_map]
    refine forall₂_vals (by rw [hargs, map_map]; rfl) fun t ht ty hty => ?_
    exact ih t ht Γ β ty (htl t ht) hβ hty
  | tif a f t e hf ht he =>
    intro Γ β ty hwt hβ hty
    obtain ⟨-, hwt, hwe, heq⟩ := hwt
    rw [val, sem]
    by_cases hc : (I.sem ρ β f).2
    · rw [select_of hc]
      exact ht Γ β ty hwt hβ hty
    · rw [select_of_not hc]
      exact he Γ β ty hwe hβ (heq ▸ hty)
  | tlet a t v e ht he =>
    intro Γ β ty hwt hβ hty
    obtain ⟨⟨hwt, hv⟩, hwe⟩ := hwt
    exact he _ _ ty hwe (.cons (ht Γ β _ hwt hβ hv) hβ) hty
  | tcase a t bl ht hbl =>
    intro Γ β ty hwt hβ hty
    obtain ⟨hwt, ⟨sty, hsty, hq, hpat⟩, ⟨-, htys⟩, hwb⟩ := hwt
    rw [wellTypedBranches_iff] at hwb
    have hd : I.dom sty (I.sem ρ β t).1 := ht Γ β sty hwt hβ hsty
    obtain ⟨p, hp, hok⟩ := hQ hq _ hd
    obtain ⟨b, hb, rfl⟩ := mem_map.mp hp
    rw [val, sem]
    obtain ⟨b, hb, hok, he⟩ := semBranches_eq ρ β (I.junk, False) ⟨b, hb, hok⟩
    rw [he]
    have hvals := patVals_typed (hpat b hb).1 ((hpat b hb).2 ▸ hd) hok
    exact hbl b hb _ _ ty (hwb b hb) (rel_append hvals hβ) (htys b hb ▸ hty)
  | teps a v f hf =>
    intro Γ β ty _ _ hty
    cases hty
    exact I.choose_dom _ _
  | _ =>
    intro Γ β ty _ _ hty
    cases hty

end Interp

end Why3
