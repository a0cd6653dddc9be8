import Why3.Metatheory.StoredBuilt
import Why3.Metatheory.TermHash
import Why3.Semantics.Nameless

/-!
The order of terms modulo renaming of bound symbols: the comparison is a total preorder, it
does not see the names of bound symbols nor whether a substitution is deferred, and terms
that it identifies have the same hash and the same meaning.
-/
namespace Why3
namespace Stored

open List

/-! Terms with the names of the bound symbols left out. -/

def anon (v : VSymbol) : VSymbol := ⟨⟨"", 0⟩, v.vsTy⟩

/-- The variables of a pattern are numbered. -/
def anonPat (p : Pattern) : Pattern :=
  patRenameAll ((patVars p).zip (renameVars 0 ((patVars p).map anon))) p

mutual
def anonymous : Term → Term
  | .tvar a v => .tvar a v
  | .bvar a i ty => .bvar a i ty
  | .tconst a c ty => .tconst a c ty
  | .tapp a ls tl ty => .tapp a ls (anonymousList tl) ty
  | .tif a f t e => .tif a (anonymous f) (anonymous t) (anonymous e)
  | .tlet a t v e => .tlet a (anonymous t) (anon v) (anonymous e)
  | .tcase a t bl => .tcase a (anonymous t) (anonymousBranches bl)
  | .teps a v f => .teps a (anon v) (anonymous f)
  | .tquant a q vl tr f => .tquant a q (vl.map anon) (anonymousTrigger tr) (anonymous f)
  | .tbinop a op f g => .tbinop a op (anonymous f) (anonymous g)
  | .tnot a f => .tnot a (anonymous f)
  | .ttrue a => .ttrue a
  | .tfalse a => .tfalse a
def anonymousList : List Term → List Term
  | [] => []
  | t :: tl => anonymous t :: anonymousList tl
def anonymousBranches : List (Pattern × Term) → List (Pattern × Term)
  | [] => []
  | (p, e) :: bl => (anonPat p, anonymous e) :: anonymousBranches bl
def anonymousTrigger : List (List Term) → List (List Term)
  | [] => []
  | l :: tr => anonymousList l :: anonymousTrigger tr
end

/-- The terms are equal up to the names of bound symbols, once the deferred substitutions are
pushed inside. -/
def AlphaEq (t t' : STerm) : Prop := anonymous (force t) = anonymous (force t')

mutual
/-- No substitution is deferred. -/
def pushed : STerm → Bool
  | .tvar _ _ | .tconst _ _ _ | .ttrue _ | .tfalse _ => true
  | .tapp _ _ tl _ => pushedList tl
  | .tif _ f t e => pushed f && pushed t && pushed e
  | .tlet _ t _ b e => pushed t && b.bvSubst.isEmpty && pushed e
  | .tcase _ t bl => pushed t && pushedBranches bl
  | .teps _ _ b f => b.bvSubst.isEmpty && pushed f
  | .tquant _ _ _ b tr f => b.bvSubst.isEmpty && pushedTrigger tr && pushed f
  | .tbinop _ _ f g => pushed f && pushed g
  | .tnot _ f => pushed f
def pushedList : List STerm → Bool
  | [] => true
  | t :: tl => pushed t && pushedList tl
def pushedBranches : List TermBranch → Bool
  | [] => true
  | (_, b, e) :: bl => b.bvSubst.isEmpty && pushed e && pushedBranches bl
def pushedTrigger : List (List STerm) → Bool
  | [] => true
  | l :: tr => pushedList l && pushedTrigger tr
end

/-- A forced form of a term. -/
def IsForced (t t' : STerm) : Prop := AlphaEq t t' ∧ pushed t' = true

/-! The nameless form has no names. -/

theorem levelPat_patRenameAll (lev : VSymbol → Nat) (m : List (VSymbol × VSymbol)) (p : Pattern) :
    levelPat lev (patRenameAll m p) = levelPat (fun v => lev (renameVar m v)) p := by
  induction p using Pattern.induct with
  | pwild ty => rfl
  | pvar v => rfl
  | papp cs pl ty ih =>
    rw [patRenameAll, levelPat, levelPat, patRenameAllList_eq_map, levelPatList_eq,
      levelPatList_eq, map_map]
    exact congrArg (NPat.papp cs) (map_congr_left ih)
  | por p q ihp ihq => rw [patRenameAll, levelPat, levelPat, ihp, ihq]
  | pas p v ih =>
    rw [patRenameAll, levelPat, ih]
    rfl

theorem levelPat_congr {C : AlgSig} {lev lev' : VSymbol → Nat} (p : Pattern) : PatTyped C p →
    (∀ v ∈ patVars p, lev v = lev' v) → levelPat lev p = levelPat lev' p := by
  induction p using Pattern.induct with
  | pwild ty => exact fun _ _ => rfl
  | pvar v => exact fun _ h => congrArg NPat.pvar (h v mem_cons_self)
  | papp cs pl ty ih =>
    intro hp h
    have hpl := patTypedList_iff.mp hp.2.2.2
    rw [patVars, patVarsList_eq_flatMap] at h
    rw [levelPat, levelPat, levelPatList_eq, levelPatList_eq]
    exact congrArg (NPat.papp cs) (map_congr_left fun p hmem => ih p hmem (hpl p hmem) fun v hv =>
      h v (mem_flatMap.mpr ⟨p, hmem, hv⟩))
  | por p q ihp ihq =>
    intro hp h
    rw [levelPat, levelPat, ihp hp.1 h, ihq hp.2.1 fun v hv => h v ((hp.2.2.2 v).mpr hv)]
  | pas p v ih =>
    intro hp h
    rw [patVars, forall_mem_append] at h
    rw [levelPat, levelPat, ih hp.1 h.1, h.2 v mem_cons_self]

variable {p : Pattern}

section

variable {C : AlgSig} (hp : PatTyped C p)
include hp

theorem patVars_renamed {ul : List VSymbol} (hlen : ul.length = (patVars p).length) :
    patVars (patRenameAll ((patVars p).zip ul) p) = ul := by
  rw [patRenameAll_eq, Why3.patVars_patGenMap, map_renameVar_zip hp.nodup hlen]

/-- The names of the variables of a pattern do not matter. -/
theorem levelPat_renamed {ul : List VSymbol} (hlen : ul.length = (patVars p).length)
    (hnd : ul.Nodup) (k : Nat) : levelPat (patLevel k (patRenameAll ((patVars p).zip ul) p))
      (patRenameAll ((patVars p).zip ul) p) = levelPat (patLevel k p) p := by
  have hmap := map_renameVar_zip hp.nodup hlen
  rw [levelPat_patRenameAll]
  refine levelPat_congr p hp fun v hv => ?_
  obtain ⟨i, hi, rfl⟩ := getElem_of_mem hv
  have hren : renameVar ((patVars p).zip ul) (patVars p)[i] = ul[i] := by
    rw [← getElem_of_eq hmap (by rwa [length_map]), getElem_map]
  rw [patLevel, patLevel, patVars_renamed hp hlen, hren, hp.nodup.idxOf_getElem, hnd.idxOf_getElem]

theorem patVars_anonPat : patVars (anonPat p) = renameVars 0 ((patVars p).map anon) :=
  patVars_renamed hp (by rw [renameVars_length, length_map])

theorem levelPat_anonPat (k : Nat) :
    levelPat (patLevel k (anonPat p)) (anonPat p) = levelPat (patLevel k p) p :=
  levelPat_renamed hp (by rw [renameVars_length, length_map]) (renameVars_nodup 0 _) k

end

theorem nameless_anonymous {C : AlgSig} {Q : CaseCond} {ρ : VSymbol → Nat → NTerm} (t : Term) :
    ∀ (Γ : List Ty) (env : List Nat) (k : Nat), WellTyped C Q Γ t →
      nameless ρ env k (anonymous t) = nameless ρ env k t := by
  induction t using Term.induct with
  | tapp a ls tl ty ih =>
    intro Γ env k hw
    have htl := wellTypedList_iff.mp hw.1
    rw [anonymous, nameless, nameless, ListRec.eq_map (F := anonymousList) rfl (fun _ _ => rfl) tl,
      namelessList_eq, namelessList_eq, map_map]
    exact congrArg (NTerm.tapp ls · ty) (map_congr_left fun t ht => ih t ht Γ env k (htl t ht))
  | tif a f t e hf ht he =>
    intro Γ env k hw
    rw [anonymous, nameless, nameless, hf Γ _ _ hw.1.1, ht Γ _ _ hw.2.1, he Γ _ _ hw.2.2.1]
  | tlet a t v e ht he =>
    intro Γ env k hw
    rw [anonymous, nameless, nameless, ht Γ _ _ hw.1.1, he _ _ _ hw.2]
  | tcase a t bl ht hbl =>
    intro Γ env k hw
    obtain ⟨hwt, ⟨ty, -, -, hp⟩, -, hwb⟩ := hw
    rw [wellTypedBranches_iff] at hwb
    rw [anonymous, nameless, ht Γ _ _ hwt]
    congr 1
    induction bl with
    | nil => rfl
    | cons b bl ihl =>
      rw [forall_mem_cons] at hp hwb
      have hlen : (patVars (anonPat b.1)).length = (patVars b.1).length := by
        rw [patVars_anonPat hp.1.1, renameVars_length, length_map]
      rw [anonymousBranches, namelessBranches, namelessBranches, levelPat_anonPat hp.1.1, hlen,
        hbl b mem_cons_self _ _ _ hwb.1,
        ihl (forall_mem_cons.mp hbl).2 hp.2 hwb.2]
  | teps a v f hf =>
    intro Γ env k hw
    rw [anonymous, nameless, hf _ _ _ hw.1]
    rfl
  | tquant a q vl tr f htr hf =>
    intro Γ env k hw
    rw [anonymous, nameless, nameless, length_map, hf _ _ _ hw.1]
  | tbinop a op f g hf hg =>
    intro Γ env k hw
    rw [anonymous, nameless, nameless, hf Γ _ _ hw.1.1, hg Γ _ _ hw.2.1]
  | tnot a f hf =>
    intro Γ env k hw
    rw [anonymous, nameless, nameless, hf Γ _ _ hw.1]
  | _ => exact fun _ _ _ _ => rfl

section Order

variable {C : AlgSig} {U : Session} {phys : STerm → STerm → Bool} {t₁ t₂ : STerm}

theorem AlphaEq.namelessIn (h : AlphaEq t₁ t₂) (h1 : Typed C U t₁) (h2 : Typed C U t₂) :
    namelessIn 0 [] t₁ = Stored.namelessIn 0 [] t₂ := by
  rw [Stored.namelessIn, ← nameless_anonymous _ [] [] 0 h1.force.1, h,
    nameless_anonymous _ [] [] 0 h2.force.1, Stored.namelessIn]

theorem nodes_namelessIn (t : STerm) : (namelessIn 0 [] t).nodes = nodes (force t) :=
  nodes_nameless (fun _ _ => rfl) (force t) [] 0

/-- The keys that `tCompare` compares. -/
def orderKey (U : Session) (t : STerm) : List Int := key U (namelessIn 0 [] t)

/-- The order of a linear order. -/
def ordering {κ : Type} [LinearOrder κ] (a b : κ) : Ordering := cmp a b

theorem ordering_swap {κ : Type} [LinearOrder κ] (a b : κ) :
    ordering b a = (ordering a b).swap := (cmp_swap a b).symm

theorem ordering_ne_gt {κ : Type} [LinearOrder κ] {a b : κ} : ordering a b ≠ .gt ↔ a ≤ b := by
  rw [ordering, Ne, cmp_eq_gt_iff, not_lt]

theorem tCompare_eq (hphys : ∀ s t, phys s t = true → s = t) (h1 : Typed C U t₁)
    (h2 : Typed C U t₂) :
    tCompare phys U.tyTag t₁ t₂ = .ok (ordering (orderKey U t₁) (orderKey U t₂)) ∧
      (orderKey U t₁ = orderKey U t₂ → namelessIn 0 [] t₁ = namelessIn 0 [] t₂) := by
  have h := tCompareRec_right (C := C) (U := U) hphys (nodes (force t₁)) 0 [] [] t₁ t₂
    framesTyped_nil framesTyped_nil h1 h2 (nodes_namelessIn t₁).le
  rw [tCompare]
  generalize hr : tCompareRec phys U.tyTag (nodes (force t₁)) 0 [] [] t₁ t₂ = r at h ⊢
  change Compares _ _ _ r (orderKey U t₁) (orderKey U t₂) at h
  generalize orderKey U t₁ = k1 at h ⊢
  generalize orderKey U t₂ = k2 at h ⊢
  cases h with
  | eq _ he =>
    refine ⟨?_, fun _ => he⟩
    rw [ordering, cmp_self_eq_eq]
  | lt hlt =>
    have hlt : k1 < k2 := hlt.lt
    refine ⟨?_, fun he => absurd he hlt.ne⟩
    rw [ordering, (cmp_eq_lt_iff _ _).mpr hlt]
  | gt hgt =>
    have hgt : k2 < k1 := hgt.lt
    refine ⟨?_, fun he => absurd he hgt.ne'⟩
    rw [ordering, (cmp_eq_gt_iff _ _).mpr hgt]

theorem tHash_eq (H : HashFns) (h : Typed C U t₁) :
    tHash H U.tyTag t₁ = .ok (hashN H U.tyTag (namelessIn 0 [] t₁)) :=
  tHashRec_right _ _ _ _ framesTyped_nil h (nodes_namelessIn t₁).le

theorem sem_namelessIn {D : Type} (I : Interp C D) (ρ : VSymbol → D) (h : Typed C U t₁) :
    I.sem ρ [] (force t₁) = I.semN ρ [] (namelessIn 0 [] t₁) :=
  Interp.meansNameless (force t₁) [] [] [] h.force.1 ⟨rfl, nofun⟩

end Order

section Witness

def symU : VSymbol := ⟨⟨"u", 4⟩, .tyapp tsT []⟩

def symW : VSymbol := ⟨⟨"w", 5⟩, .tyapp tsT []⟩

def smallSession : Session where
  vs v := v ∈ [symV, symX, symU, symW]
  ls s := s = psP
  ty a := a = .tyapp tsT []
  tyTag _ := 0
  vs_inj {u v} hu hv := by
    have h : ∀ u ∈ [symV, symX, symU, symW], ∀ v ∈ [symV, symX, symU, symW],
        u.vsName.idTag = v.vsName.idTag → u = v := by decide
    exact h u hu v hv
  ls_inj hs ht _ := hs.trans ht.symm
  ty_inj ha hb _ := ha.trans hb.symm

/-- `epsilon u. p u w` where the term `x` is deferred for `w` -/
def epsDeferred : STerm :=
  .teps ∅ symU ⟨[(symX, 1)], [(symW, tVar symX)]⟩ (.tapp ∅ psP [tVar symU, tVar symW] none)

theorem mem_smallSession {v : VSymbol} (h : v ∈ [symV, symX, symU, symW]) : smallSession.vs v := h

theorem typed_pair {u v : VSymbol} (hu : smallSession.vs u) (hv : smallSession.vs v)
    (hut : u.vsTy = .tyapp tsT []) (hvt : v.vsTy = .tyapp tsT []) :
    Typed emptySig smallSession (.tapp ∅ psP [tVar u, tVar v] none) := by
  refine .tapp ∅ [] rfl nofun nofun ?_ rfl
    (forall_mem_cons.mpr ⟨.tvar _ hu hut, forall_mem_singleton.mpr (.tvar _ hv hvt)⟩)
  simp only [map_cons, tVar, tTy, hut, hvt]
  rfl

theorem typed_epsVX : Typed emptySig smallSession epsVX :=
  .teps ∅ rfl nofun nofun
    (typed_pair (mem_smallSession (by decide)) (mem_smallSession (by decide)) rfl rfl) rfl

theorem typed_epsDeferred : Typed emptySig smallSession epsDeferred := by
  refine .teps ∅ rfl (fun x hx => ?_) (fun x hx => ?_)
    (typed_pair (mem_smallSession (by decide)) (mem_smallSession (by decide)) rfl rfl) rfl
  · rw [mem_singleton.mp hx]
    rfl
  · rw [mem_singleton.mp hx]
    exact .tvar _ (mem_smallSession (by decide)) rfl

end Witness

end Stored
end Why3
