import Why3.Metatheory.Nameless
import Why3.Semantics.Typing

/-!
The meaning of a nameless term, and that it is the meaning of the terms it comes from.

A quantifier of a nameless term has no types: its variables range over the types of their
occurrences. A variable without occurrence does not matter, as every type has an element.
-/
namespace Why3

open List
open Stored (frameEnv)

@[elab_as_elim]
theorem NTerm.induct {P : NTerm → Prop}
    (tvar : ∀ v, P (.tvar v)) (bnd : ∀ i ty, P (.bnd i ty)) (tconst : ∀ c ty, P (.tconst c ty))
    (tapp : ∀ ls tl ty, (∀ t ∈ tl, P t) → P (.tapp ls tl ty))
    (tif : ∀ f t e, P f → P t → P e → P (.tif f t e)) (tlet : ∀ t e, P t → P e → P (.tlet t e))
    (tcase : ∀ t bl, P t → (∀ b ∈ bl, P b.2) → P (.tcase t bl))
    (teps : ∀ ty f, P f → P (.teps ty f)) (tquant : ∀ q n f, P f → P (.tquant q n f))
    (tbinop : ∀ op f g, P f → P g → P (.tbinop op f g)) (tnot : ∀ f, P f → P (.tnot f))
    (ttrue : P .ttrue) (tfalse : P .tfalse) (t : NTerm) : P t := by
  refine @NTerm.rec P (fun tl => ∀ t ∈ tl, P t) (fun bl => ∀ b ∈ bl, P b.2) (fun b => P b.2)
    tvar bnd tconst (fun ls tl ty h => tapp ls tl ty h) tif tlet
    (fun t bl ht hbl => tcase t bl ht hbl) teps tquant tbinop tnot ttrue tfalse ?_ ?_ ?_ ?_ ?_ t
  all_goals simp +contextual

namespace NTerm

/-! The occurrences of bound symbols. -/

mutual
def bnds : NTerm → List (Nat × Ty)
  | tvar _ | tconst _ _ | ttrue | tfalse => []
  | bnd i ty => [(i, ty)]
  | tapp _ tl _ => bndsList tl
  | tif f t e => bnds f ++ bnds t ++ bnds e
  | tlet t e => bnds t ++ bnds e
  | tcase t bl => bnds t ++ bndsBranches bl
  | teps _ f => bnds f
  | tquant _ _ f => bnds f
  | tbinop _ f g => bnds f ++ bnds g
  | tnot f => bnds f
def bndsList : List NTerm → List (Nat × Ty)
  | [] => []
  | t :: tl => bnds t ++ bndsList tl
def bndsBranches : List (NPat × NTerm) → List (Nat × Ty)
  | [] => []
  | (_, e) :: bl => bnds e ++ bndsBranches bl
end

theorem bndsList_eq (tl : List NTerm) : bndsList tl = tl.flatMap bnds :=
  ListRec.eq_flatMap rfl (fun _ _ => rfl) tl

theorem bndsBranches_eq (bl : List (NPat × NTerm)) :
    bndsBranches bl = bl.flatMap fun b => bnds b.2 :=
  ListRec.eq_flatMap rfl (fun _ _ => rfl) bl

end NTerm

mutual
/-- The number of variables of a pattern. -/
def NPat.vars : NPat → Nat
  | .pwild => 0
  | .pvar _ => 1
  | .papp _ pl => NPat.varsList pl
  | .por p _ => NPat.vars p
  | .pas p _ => NPat.vars p + 1
def NPat.varsList : List NPat → Nat
  | [] => 0
  | p :: pl => NPat.vars p + NPat.varsList pl
end

theorem vars_levelPat (lev : VSymbol → Nat) (p : Pattern) :
    (levelPat lev p).vars = (patVars p).length := by
  induction p using Pattern.induct with
  | pwild ty => rfl
  | pvar v => rfl
  | papp cs pl ty ih =>
    rw [levelPat, NPat.vars, patVars]
    induction pl with
    | nil => rfl
    | cons p pl ihl =>
      rw [levelPatList, NPat.varsList, patVarsList, length_append, ih p mem_cons_self,
        ihl (forall_mem_cons.mp ih).2]
  | por p q ihp ihq => exact ihp
  | pas p v ih =>
    rw [levelPat, NPat.vars, patVars, length_append, ih]
    rfl

example : let p : Pattern := .pvar ⟨⟨"x", 0⟩, tyInt⟩
    (levelPat (fun _ => 0) (.por p p)).vars = 1 := by decide +kernel

namespace Interp

variable {C : AlgSig} {D : Type} (I : Interp C D)

mutual
def npatOk : NPat → D → Bool
  | .pwild, _ | .pvar _, _ => true
  | .papp cs pl, d =>
    match I.destr cs d with
    | some args => npatsOk pl args
    | none => false
  | .por p q, d => npatOk p d || npatOk q d
  | .pas p _, d => npatOk p d
def npatsOk : List NPat → List D → Bool
  | [], [] => true
  | p :: pl, d :: ds => npatOk p d && npatsOk pl ds
  | _, _ => false
end

mutual
def npatGet : NPat → D → Nat → Option D
  | .pwild, _, _ => none
  | .pvar j, d, i => if i = j then some d else none
  | .papp cs pl, d, i =>
    match I.destr cs d with
    | some args => npatsGet pl args i
    | none => none
  | .por p q, d, i => if I.npatOk p d then npatGet p d i else npatGet q d i
  | .pas p j, d, i => if i = j then some d else npatGet p d i
def npatsGet : List NPat → List D → Nat → Option D
  | p :: pl, d :: ds, i => (npatGet p d i).or (npatsGet pl ds i)
  | _, _, _ => none
end

/-- The values of the levels from `k` on. -/
def npatVals (k : Nat) (p : NPat) (d : D) : List D :=
  (range p.vars).map fun j => (I.npatGet p d (k + j)).getD I.junk

/-- The values `ds` of the levels from `k` on have the types of their occurrences. -/
def Fits (k : Nat) (f : NTerm) (ds : List D) : Prop :=
  ∀ j d ty, ds[j]? = some d → (k + j, ty) ∈ f.bnds → I.dom ty d

mutual
noncomputable def semN (ρ : VSymbol → D) : List D → NTerm → D × Prop
  | _, .tvar v => (ρ v, False)
  | σ, .bnd i _ => ((σ[i]?).getD I.junk, False)
  | _, .tconst c ty => (I.const c ty, False)
  | σ, .tapp ls tl (some ty) => (I.fn ls ty (semNList ρ σ tl), False)
  | σ, .tapp ls tl none => (I.junk, I.pr ls (semNList ρ σ tl))
  | σ, .tif f t e => select (semN ρ σ f).2 (semN ρ σ t) (semN ρ σ e)
  | σ, .tlet t e => semN ρ (σ ++ [(semN ρ σ t).1]) e
  | σ, .tcase t bl => semNBranches ρ σ (semN ρ σ t).1 bl
  | σ, .teps ty f => (I.choose ty fun d => (semN ρ (σ ++ [d]) f).2, False)
  | σ, .tquant .tforall n f =>
    (I.junk, ∀ ds, ds.length = n → I.Fits σ.length f ds → (semN ρ (σ ++ ds) f).2)
  | σ, .tquant .texists n f =>
    (I.junk, ∃ ds, ds.length = n ∧ I.Fits σ.length f ds ∧ (semN ρ (σ ++ ds) f).2)
  | σ, .tbinop .tand f g => (I.junk, (semN ρ σ f).2 ∧ (semN ρ σ g).2)
  | σ, .tbinop .tor f g => (I.junk, (semN ρ σ f).2 ∨ (semN ρ σ g).2)
  | σ, .tbinop .timplies f g => (I.junk, (semN ρ σ f).2 → (semN ρ σ g).2)
  | σ, .tbinop .tiff f g => (I.junk, (semN ρ σ f).2 ↔ (semN ρ σ g).2)
  | σ, .tnot f => (I.junk, ¬ (semN ρ σ f).2)
  | _, .ttrue => (I.junk, True)
  | _, .tfalse => (I.junk, False)
noncomputable def semNList (ρ : VSymbol → D) : List D → List NTerm → List D
  | _, [] => []
  | σ, t :: tl => (semN ρ σ t).1 :: semNList ρ σ tl
noncomputable def semNBranches (ρ : VSymbol → D) : List D → D → List (NPat × NTerm) → D × Prop
  | _, _, [] => (I.junk, False)
  | σ, d, (p, e) :: bl =>
    if I.npatOk p d then semN ρ (σ ++ I.npatVals σ.length p d) e else semNBranches ρ σ d bl
end

theorem semNList_eq (ρ : VSymbol → D) (σ : List D) (tl : List NTerm) :
    I.semNList ρ σ tl = tl.map fun t => (I.semN ρ σ t).1 :=
  ListRec.eq_map rfl (fun _ _ => rfl) tl

/-! Only the levels that occur matter. -/

section Congr

variable {I} {ρ : VSymbol → D}

/-- The environments agree on the levels that occur. -/
def SameLevels (σ σ' : List D) (t : NTerm) : Prop :=
  σ.length = σ'.length ∧ ∀ i ty, (i, ty) ∈ t.bnds → σ[i]? = σ'[i]?

section

variable {σ σ' : List D} {t t' : NTerm} (h : SameLevels σ σ' t) (hsub : ∀ x ∈ t'.bnds, x ∈ t.bnds)
include h hsub

theorem SameLevels.append (ds : List D) : SameLevels (σ ++ ds) (σ' ++ ds) t' := by
  refine ⟨by rw [length_append, length_append, h.1], fun i ty hi => ?_⟩
  rw [getElem?_append, getElem?_append, h.1, h.2 i ty (hsub _ hi)]

theorem SameLevels.sub : SameLevels σ σ' t' :=
  ⟨h.1, fun i ty hi => h.2 i ty (hsub _ hi)⟩

end

theorem semN_congr (t : NTerm) :
    ∀ {σ σ' : List D}, SameLevels σ σ' t → I.semN ρ σ t = I.semN ρ σ' t := by
  induction t using NTerm.induct with
  | bnd i ty =>
    intro σ σ' h
    rw [semN, semN, h.2 i ty mem_cons_self]
  | tapp ls tl ty ih =>
    intro σ σ' h
    have hlist : I.semNList ρ σ tl = I.semNList ρ σ' tl := by
      rw [semNList_eq, semNList_eq]
      refine map_congr_left fun t ht => congrArg Prod.fst (ih t ht (h.sub fun x hx => ?_))
      rw [NTerm.bnds, NTerm.bndsList_eq]
      exact mem_flatMap.mpr ⟨t, ht, hx⟩
    cases ty <;> simp only [semN, hlist]
  | tif f t e hf ht he =>
    intro σ σ' h
    simp only [semN]
    rw [hf (h.sub fun x hx => by simp [NTerm.bnds, hx]),
      ht (h.sub fun x hx => by simp [NTerm.bnds, hx]),
      he (h.sub fun x hx => by simp [NTerm.bnds, hx])]
  | tlet t e ht he =>
    intro σ σ' h
    simp only [semN]
    rw [ht (h.sub fun x hx => by simp [NTerm.bnds, hx]),
      he (h.append (fun x hx => by simp [NTerm.bnds, hx]) _)]
  | tcase t bl ht hbl =>
    intro σ σ' h
    simp only [semN]
    rw [ht (h.sub fun x hx => by simp [NTerm.bnds, hx])]
    have hsub : ∀ b ∈ bl, ∀ x ∈ b.2.bnds, x ∈ (NTerm.tcase t bl).bnds := by
      intro b hb x hx
      rw [NTerm.bnds, NTerm.bndsBranches_eq, mem_append]
      exact .inr (mem_flatMap.mpr ⟨b, hb, hx⟩)
    generalize hc : NTerm.tcase t bl = c at h hsub
    clear hc ht
    induction bl with
    | nil => rfl
    | cons b bl ihl =>
      rw [semNBranches, semNBranches, h.1, hbl b mem_cons_self (h.append (hsub b mem_cons_self) _),
        ihl (forall_mem_cons.mp hbl).2 (forall_mem_cons.mp hsub).2]
  | teps ty f hf =>
    intro σ σ' h
    simp only [semN]
    congr 2
    funext d
    rw [hf (h.append (fun x hx => hx) [d])]
  | tquant q n f hf =>
    intro σ σ' h
    have hds := fun ds : List D => hf (h.append (fun x hx => hx) ds)
    cases q <;> simp only [semN, h.1, hds]
  | tbinop op f g hf hg =>
    intro σ σ' h
    have hf := hf (h.sub fun x hx => by simp [NTerm.bnds, hx])
    have hg := hg (h.sub fun x hx => by simp [NTerm.bnds, hx])
    cases op <;> simp only [semN, hf, hg]
  | tnot f hf =>
    intro σ σ' h
    simp only [semN]
    rw [hf (h.sub fun x hx => hx)]
  | _ => exact fun _ => rfl

end Congr

/-! Patterns. -/

variable {v : VSymbol} {n : Nat}

section Patterns

variable {I}

theorem patOk_levelPat (lev : VSymbol → Nat) (p : Pattern) :
    ∀ d, I.patOk p d = I.npatOk (levelPat lev p) d := by
  induction p using Pattern.induct with
  | pwild ty | pvar v => exact fun _ => rfl
  | papp cs pl ty ih =>
    intro d
    rw [patOk, levelPat, npatOk]
    cases I.destr cs d with
    | none => rfl
    | some args =>
      simp only
      induction pl generalizing args with
      | nil => cases args <;> rfl
      | cons p pl ihl =>
        cases args with
        | nil => rfl
        | cons d args =>
          rw [patsOk, levelPatList, npatsOk, ih p mem_cons_self, ihl (forall_mem_cons.mp ih).2]
  | por p q ihp ihq =>
    intro d
    rw [patOk, levelPat, npatOk, ihp, ihq]
  | pas p v ih => exact ih

theorem patGet_levelPat {lev : VSymbol → Nat} (p : Pattern) : PatTyped C p →
    (∀ u ∈ patVars p, lev v = lev u → v = u) →
    ∀ d, I.patGet p d v = I.npatGet (levelPat lev p) d (lev v) := by
  have hvar : ∀ u, (lev v = lev u → v = u) → ∀ (x y : Option D),
      (if v = u then x else y) = if lev v = lev u then x else y := by
    intro u hu x y
    by_cases he : v = u
    · rw [if_pos he, if_pos (congrArg lev he)]
    · rw [if_neg he, if_neg fun h => he (hu h)]
  induction p using Pattern.induct with
  | pwild ty => exact fun _ _ _ => rfl
  | pvar u =>
    intro _ hv d
    rw [patGet, levelPat, npatGet, hvar u (hv u mem_cons_self)]
  | papp cs pl ty ih =>
    intro hp hv d
    have hpl := patTypedList_iff.mp hp.2.2.2
    rw [patVars, patVarsList_eq_flatMap] at hv
    rw [patGet, levelPat, npatGet]
    cases I.destr cs d with
    | none => rfl
    | some args =>
      simp only
      clear hp
      induction pl generalizing args with
      | nil => cases args <;> rfl
      | cons p pl ihl =>
        rw [forall_mem_cons] at hpl
        rw [flatMap_cons, forall_mem_append] at hv
        cases args with
        | nil => rfl
        | cons d args =>
          rw [patsGet, levelPatList, npatsGet, ih p mem_cons_self hpl.1 hv.1,
            ihl (forall_mem_cons.mp ih).2 hv.2 hpl.2]
  | por p q ihp ihq =>
    intro hp hv d
    rw [patGet, levelPat, npatGet, ihp hp.1 hv, patOk_levelPat lev p,
      ihq hp.2.1 fun u hu => hv u ((hp.2.2.2 u).mpr hu)]
  | pas p u ih =>
    intro hp hv d
    rw [patVars, forall_mem_append] at hv
    rw [patGet, levelPat, npatGet, ih hp.1 hv.1, hvar u (hv.2 u mem_cons_self)]

/-- A pattern that matches binds all its variables. -/
theorem patGet_isSome (p : Pattern) : PatTyped C p → ∀ d, I.patOk p d = true →
    v ∈ patVars p → (I.patGet p d v).isSome = true := by
  induction p using Pattern.induct with
  | pwild ty => exact fun _ _ _ h => absurd h not_mem_nil
  | pvar u =>
    intro _ d _ hv
    rw [patGet, if_pos (mem_singleton.mp hv)]
    rfl
  | papp cs pl ty ih =>
    intro hp d hok hv
    have hpl := patTypedList_iff.mp hp.2.2.2
    rw [patVars, patVarsList_eq_flatMap] at hv
    rw [patOk] at hok
    rw [patGet]
    cases hd : I.destr cs d with
    | none => simp [hd] at hok
    | some args =>
      simp only [hd] at hok ⊢
      clear hp hd
      induction pl generalizing args with
      | nil => exact absurd hv not_mem_nil
      | cons p pl ihl =>
        rw [forall_mem_cons] at hpl
        cases args with
        | nil => simp [patsOk] at hok
        | cons d args =>
          rw [patsOk, Bool.and_eq_true] at hok
          rw [flatMap_cons, mem_append] at hv
          rw [patsGet, Option.isSome_or, Bool.or_eq_true]
          cases hv with
          | inl hv => exact .inl (ih p mem_cons_self hpl.1 d hok.1 hv)
          | inr hv =>
            exact .inr (ihl (forall_mem_cons.mp ih).2 hv hpl.2 args hok.2)
  | por p q ihp ihq =>
    intro hp d hok hv
    rw [patOk, Bool.or_eq_true] at hok
    rw [patGet]
    by_cases hpd : I.patOk p d = true
    · rw [if_pos hpd]
      exact ihp hp.1 d hpd hv
    · rw [if_neg hpd]
      exact ihq hp.2.1 d (hok.resolve_left hpd) ((hp.2.2.2 v).mp hv)
  | pas p u ih =>
    intro hp d hok hv
    rw [patVars, mem_append, mem_singleton] at hv
    rw [patGet]
    by_cases he : v = u
    · rw [if_pos he]
      rfl
    · rw [if_neg he]
      exact ih hp.1 d hok (hv.resolve_right he)

theorem patVals_levelPat {p : Pattern} (hp : PatTyped C p) (k : Nat) {d : D}
    (hok : I.patOk p d = true) : I.patVals p d = I.npatVals k (levelPat (patLevel k p) p) d := by
  refine ext_getElem (by simp [npatVals, vars_levelPat]) fun j hj _ => ?_
  rw [patVals_length] at hj
  simp only [patVals, npatVals, getElem_map, getElem_range]
  have hmem : (patVars p)[j] ∈ patVars p := getElem_mem hj
  have hlev : patLevel k p (patVars p)[j] = k + j := by
    rw [patLevel, hp.nodup.idxOf_getElem]
  have hinj : ∀ u ∈ patVars p, patLevel k p (patVars p)[j] = patLevel k p u →
      (patVars p)[j] = u := by
    intro u hu he
    rw [patLevel, patLevel, Nat.add_left_cancel_iff] at he
    exact (idxOf_inj hmem).mp he
  obtain ⟨x, hx⟩ := Option.isSome_iff_exists.mp (patGet_isSome p hp d hok hmem)
  rw [← hlev, ← patGet_levelPat p hp hinj, hx]
  rfl

end Patterns

/-! Terms. -/

/-- The indices are the levels `env` below `k`, of the types `Γ`. -/
structure Scope (env : List Nat) (k : Nat) (Γ : List Ty) : Prop where
  length : env.length = Γ.length
  below : ∀ i ∈ env, i < k

variable {env : List Nat} {Γ : List Ty}

theorem Scope.block {k : Nat} (h : Scope env k Γ) {Δ : List Ty} (hlen : Δ.length = n) :
    Scope (range' k n ++ env) (k + n) (Δ ++ Γ) := by
  refine ⟨by rw [length_append, length_append, length_range', hlen, h.length], ?_⟩
  intro i hi
  rw [mem_append, mem_range'_1] at hi
  cases hi with
  | inl hi => exact hi.2
  | inr hi => exact Nat.lt_add_right n (h.below i hi)

/-- The levels below `k` that occur are levels of the environment, with their types. -/
def OuterTyped (env : List Nat) (k : Nat) (Γ : List Ty) (l : List (Nat × Ty)) : Prop :=
  ∀ x ∈ l, x.1 < k → ∃ j : Nat, env[j]? = some x.1 ∧ Γ[j]? = some x.2

/-- A level that the block of `Δ` does not bind is bound outside. -/
theorem OuterTyped.outer {k : Nat} {Δ : List Ty} {l : List (Nat × Ty)}
    (h : OuterTyped (range' k n ++ env) (k + n) (Δ ++ Γ) l) (hlen : Δ.length = n) :
    OuterTyped env k Γ l := by
  intro x hx hi
  obtain ⟨j, hj, hty⟩ := h x hx (Nat.lt_add_right n hi)
  by_cases hlt : j < n
  · rw [getElem?_append_left (by simpa using hlt), getElem?_range' hlt] at hj
    have := Option.some.inj hj
    omega
  · refine ⟨j - n, ?_, ?_⟩
    · rwa [getElem?_append_right (by simpa using hlt), length_range'] at hj
    · rwa [getElem?_append_right (by omega), hlen] at hty

variable {Q : CaseCond}

/-- The types of the occurrences of the symbols bound outside. -/
theorem bnds_nameless (t : Term) : ∀ {Γ : List Ty} {env : List Nat} {k : Nat},
    WellTyped C Q Γ t → Scope env k Γ →
    OuterTyped env k Γ (nameless (frameEnv []) env k t).bnds := by
  induction t using Term.induct with
  | tvar a v | tconst a c ty | ttrue a | tfalse a => exact fun _ _ _ h => absurd h not_mem_nil
  | bvar a j ty =>
    intro Γ env k ht hs
    refine forall_mem_singleton.mpr fun _ => ⟨j, ?_, ht⟩
    have hlt : j < env.length := by
      rw [hs.length]
      exact (List.getElem?_eq_some_iff.mp ht).1
    rw [List.getElem?_eq_getElem hlt]
    rfl
  | tapp a ls tl ty ih =>
    intro Γ env k ht hs
    have htl := wellTypedList_iff.mp ht.1
    rw [nameless, NTerm.bnds, namelessList_eq, NTerm.bndsList_eq, flatMap_map]
    exact forall_mem_flatMap.mpr fun t hmt => ih t hmt (htl t hmt) hs
  | tif a f t e hf ht he =>
    intro Γ env k hw hs
    exact forall_mem_append.mpr
      ⟨forall_mem_append.mpr ⟨hf hw.1.1 hs, ht hw.2.1 hs⟩, he hw.2.2.1 hs⟩
  | tlet a t v e ht he =>
    intro Γ env k hw hs
    have hlen : [v.vsTy].length = 1 := rfl
    exact forall_mem_append.mpr ⟨ht hw.1.1 hs, (he hw.2 (hs.block hlen)).outer hlen⟩
  | tcase a t bl ht hbl =>
    intro Γ env k hw hs
    have hwb := wellTypedBranches_iff.mp hw.2.2.2
    rw [nameless, NTerm.bnds, namelessBranches_eq, NTerm.bndsBranches_eq, flatMap_map]
    refine forall_mem_append.mpr ⟨ht hw.1 hs, forall_mem_flatMap.mpr fun b hb => ?_⟩
    exact (hbl b hb (hwb b hb) (hs.block (length_map _))).outer (length_map _)
  | teps a v f hf =>
    intro Γ env k hw hs
    have hlen : [v.vsTy].length = 1 := rfl
    exact (hf hw.1 (hs.block hlen)).outer hlen
  | tquant a q vl tr f htr hf =>
    intro Γ env k hw hs
    exact (hf hw.1 (hs.block (length_map _))).outer (length_map _)
  | tbinop a op f g hf hg =>
    intro Γ env k hw hs
    exact forall_mem_append.mpr ⟨hf hw.1.1 hs, hg hw.2.1 hs⟩
  | tnot a f hf =>
    intro Γ env k hw hs
    exact hf hw.1 hs

/-- The body of a block of `n` symbols at level `k`. -/
abbrev namelessBody (env : List Nat) (k n : Nat) (f : Term) : NTerm :=
  nameless (frameEnv []) (range' k n ++ env) (k + n) f

section Quantifiers

variable {I} {ρ : VSymbol → D}

/-- Values for the variables that occur, and elements of the types of the others. -/
theorem exists_typed (vl : List VSymbol) : ∀ (occ : Nat → Prop) (ds : List D),
    ds.length = vl.length →
    (∀ j v d, vl[j]? = some v → ds[j]? = some d → occ j → I.dom v.vsTy d) →
    ∃ ds', List.Forall₂ (fun v d => I.dom v.vsTy d) vl ds' ∧ ∀ j, occ j → ds'[j]? = ds[j]? := by
  induction vl with
  | nil =>
    intro occ ds hlen _
    rw [length_eq_zero_iff.mp hlen]
    exact ⟨[], .nil, fun _ _ => rfl⟩
  | cons v vl ih =>
    intro occ ds hlen h
    cases ds with
    | nil => cases hlen
    | cons d ds =>
      obtain ⟨ds', hdom, hagree⟩ := ih (fun j => occ (j + 1)) ds (Nat.succ.inj hlen)
        fun j => h (j + 1)
      have hfirst : ∃ x, I.dom v.vsTy x ∧ (occ 0 → x = d) := by
        by_cases hocc : occ 0
        · exact ⟨d, h 0 v d rfl rfl hocc, fun _ => rfl⟩
        · exact ⟨I.witness v.vsTy, I.witness_dom _, fun ho => absurd ho hocc⟩
      obtain ⟨x, hx, hd⟩ := hfirst
      refine ⟨x :: ds', .cons hx hdom, fun j ho => ?_⟩
      cases j with
      | zero => exact congrArg some (hd ho)
      | succ j => exact hagree j ho

variable {Q : CaseCond} {Γ : List Ty} {env : List Nat} {σ : List D} {vl : List VSymbol} {f : Term}

section

variable (hs : Scope env σ.length Γ) (hw : WellTyped C Q (vl.map VSymbol.vsTy ++ Γ) f)
include hs hw

theorem occurrence_typed {j : Nat} {ty : Ty} (hv : vl[j]? = some v)
    (hmem : (σ.length + j, ty) ∈ (namelessBody env σ.length vl.length f).bnds) : ty = v.vsTy := by
  have hlt := (List.getElem?_eq_some_iff.mp hv).1
  obtain ⟨i, hi, hty⟩ := bnds_nameless f hw (hs.block (length_map _)) _ hmem
    (Nat.add_lt_add_left hlt _)
  have hij : i = j := by
    by_cases hin : i < vl.length
    · rw [getElem?_append_left (by simpa using hin), getElem?_range' hin] at hi
      have := Option.some.inj hi
      omega
    · rw [getElem?_append_right (by simpa using hin)] at hi
      have := hs.below _ (mem_of_getElem? hi)
      omega
  rw [hij, getElem?_append_left (by simpa using hlt), getElem?_map, hv] at hty
  exact (Option.some.inj hty).symm

theorem fits_of_typed {ds : List D} (hds : List.Forall₂ (fun v d => I.dom v.vsTy d) vl ds) :
    I.Fits σ.length (namelessBody env σ.length vl.length f) ds := by
  intro j d ty hd hmem
  obtain ⟨hj, rfl⟩ := List.getElem?_eq_some_iff.mp hd
  have hlt : j < vl.length := hds.length_eq ▸ hj
  rw [occurrence_typed hs hw (List.getElem?_eq_getElem hlt) hmem]
  exact forall₂_iff_get.mp hds |>.2 j hlt hj

theorem typed_of_fits {ds : List D} (hlen : ds.length = vl.length)
    (hds : I.Fits σ.length (namelessBody env σ.length vl.length f) ds) :
    ∃ ds', List.Forall₂ (fun v d => I.dom v.vsTy d) vl ds' ∧
      SameLevels (σ ++ ds') (σ ++ ds) (namelessBody env σ.length vl.length f) := by
  obtain ⟨ds', hdom, hagree⟩ := exists_typed (I := I) vl (fun j => ∃ ty, (σ.length + j, ty) ∈
      (namelessBody env σ.length vl.length f).bnds) ds hlen fun j v d hv hd ⟨ty, hmem⟩ => by
    rw [← occurrence_typed hs hw hv hmem]
    exact hds j d ty hd hmem
  refine ⟨ds', hdom, by simp [hlen, hdom.length_eq], fun i ty hmem => ?_⟩
  by_cases hi : i < σ.length
  · rw [getElem?_append_left hi, getElem?_append_left hi]
  · rw [getElem?_append_right (by omega), getElem?_append_right (by omega)]
    refine hagree (i - σ.length) ⟨ty, ?_⟩
    rwa [Nat.add_sub_cancel' (by omega)]

end

end Quantifiers

/-- The values of the indices. -/
def levelVals (σ : List D) (env : List Nat) : List D := env.map fun i => (σ[i]?).getD I.junk

theorem levelVals_block {σ : List D} (hs : Scope env σ.length Γ) (ds : List D) :
    I.levelVals (σ ++ ds) (range' σ.length ds.length ++ env) = ds ++ I.levelVals σ env := by
  rw [levelVals, map_append]
  congr 1
  · refine ext_getElem (by simp) fun j hj _ => ?_
    have hlt : j < ds.length := by simpa using hj
    simp [hlt]
  · refine map_congr_left fun i hi => ?_
    rw [getElem?_append_left (hs.below i hi)]

variable {I}

/-- A term means what its nameless form means. -/
def MeansNameless (I : Interp C D) (Q : CaseCond) (ρ : VSymbol → D) (t : Term) : Prop :=
  ∀ (Γ : List Ty) (env : List Nat) (σ : List D), WellTyped C Q Γ t → Scope env σ.length Γ →
    I.sem ρ (I.levelVals σ env) t = I.semN ρ σ (nameless (frameEnv []) env σ.length t)

theorem MeansNameless.block {ρ : VSymbol → D} {e : Term} {σ : List D} (he : MeansNameless I Q ρ e)
    (hs : Scope env σ.length Γ) (Δ : List Ty) (ds : List D) (hΔ : Δ.length = n)
    (hds : ds.length = n) (hw : WellTyped C Q (Δ ++ Γ) e) :
    I.sem ρ (ds ++ I.levelVals σ env) e = I.semN ρ (σ ++ ds) (namelessBody env σ.length n e) := by
  subst hds
  have h := he _ _ (σ ++ ds) hw (by rw [length_append]; exact hs.block hΔ)
  rwa [levelVals_block I hs, length_append] at h

theorem meansNameless {ρ : VSymbol → D} (t : Term) : MeansNameless I Q ρ t := by
  induction t using Term.induct with
  | tvar a v | tconst a c ty | ttrue a | tfalse a => exact fun _ _ _ _ _ => rfl
  | bvar a i ty =>
    intro Γ env σ hw hs
    have hlt : i < env.length := by
      rw [hs.length]
      exact (List.getElem?_eq_some_iff.mp hw).1
    rw [sem, nameless, levelVals, getElem?_map, List.getElem?_eq_getElem hlt]
    rfl
  | tapp a ls tl ty ih =>
    intro Γ env σ hw hs
    have htl := wellTypedList_iff.mp hw.1
    have hargs : I.semList ρ (I.levelVals σ env) tl =
        I.semNList ρ σ (namelessList (frameEnv []) env σ.length tl) := by
      rw [semList_eq_map, namelessList_eq, semNList_eq, map_map]
      exact map_congr_left fun t ht => congrArg Prod.fst (ih t ht _ _ _ (htl t ht) hs)
    cases ty <;> simp only [sem, nameless, semN, hargs]
  | tif a f t e hf ht he =>
    intro Γ env σ hw hs
    rw [sem, nameless, semN, hf _ _ _ hw.1.1 hs, ht _ _ _ hw.2.1 hs, he _ _ _ hw.2.2.1 hs]
  | tlet a t v e ht he =>
    intro Γ env σ hw hs
    rw [sem, nameless, ht _ _ _ hw.1.1 hs]
    exact he.block hs [v.vsTy] [_] rfl rfl hw.2
  | tcase a t bl ht hbl =>
    intro Γ env σ hw hs
    obtain ⟨hwt, ⟨ty, -, -, hp⟩, -, hwb⟩ := hw
    rw [wellTypedBranches_iff] at hwb
    rw [sem, nameless, semN, ht _ _ _ hwt hs]
    induction bl with
    | nil => rfl
    | cons b bl ihl =>
      rw [forall_mem_cons] at hp hwb
      rw [semBranches, namelessBranches,
        patOk_levelPat (patLevel σ.length b.1), ihl (forall_mem_cons.mp hbl).2 hp.2 hwb.2]
      refine if_ctx_congr Iff.rfl (fun hok => ?_) fun _ => rfl
      rw [← patOk_levelPat] at hok
      rw [patVals_levelPat hp.1.1 σ.length hok]
      refine (hbl b mem_cons_self).block hs _ _ (length_map _) ?_ hwb.1
      rw [npatVals, length_map, length_range, vars_levelPat]
  | teps a v f hf =>
    intro Γ env σ hw hs
    rw [sem, nameless]
    congr 2
    funext d
    exact congrArg Prod.snd (hf.block hs [v.vsTy] [d] rfl rfl hw.1)
  | tquant a q vl tr f htr hf =>
    intro Γ env σ hw hs
    have hds := fun (ds : List D) (hlen : ds.length = vl.length) =>
      hf.block hs _ ds (length_map _) hlen hw.1
    cases q with
    | tforall =>
      rw [sem, nameless]
      congr 1
      refine propext ⟨fun h ds hlen hfit => ?_, fun h ds hty => ?_⟩
      · obtain ⟨ds', hty, hagree⟩ := typed_of_fits hs hw.1 hlen hfit
        have := h ds' hty
        rwa [hds ds' hty.length_eq.symm, semN_congr _ hagree] at this
      · rw [hds ds hty.length_eq.symm]
        exact h ds hty.length_eq.symm (fits_of_typed hs hw.1 hty)
    | texists =>
      rw [sem, nameless]
      congr 1
      refine propext ⟨?_, ?_⟩
      · rintro ⟨ds, hty, h⟩
        rw [hds ds hty.length_eq.symm] at h
        exact ⟨ds, hty.length_eq.symm, fits_of_typed hs hw.1 hty, h⟩
      · rintro ⟨ds, hlen, hfit, h⟩
        obtain ⟨ds', hty, hagree⟩ := typed_of_fits hs hw.1 hlen hfit
        refine ⟨ds', hty, ?_⟩
        rwa [hds ds' hty.length_eq.symm, semN_congr _ hagree]
  | tbinop a op f g hf hg =>
    intro Γ env σ hw hs
    have hf := hf _ _ _ hw.1.1 hs
    have hg := hg _ _ _ hw.2.1 hs
    cases op <;> simp only [sem, nameless, semN, hf, hg]
  | tnot a f hf =>
    intro Γ env σ hw hs
    rw [sem, nameless, semN, hf _ _ _ hw.1 hs]

end Interp
end Why3
