import Why3.Metatheory.PatternTerms
import Why3.Metatheory.SplitBinders
import Why3.Semantics.PatMap

/-!
Goal splitting at matches that are compiled first.

The compilation of a match keeps its meaning and makes matches on constructors
applied to variables. Such a match is split into one implication for each
branch, whose premise is that the constructor of the branch builds the value.
-/
namespace Why3

open M
open Function (update update_self)
open VSymbol (vsTy)
open Interp (extends_nil holds patOk patVals sem val)

/-- The pattern `p'` is `p` with the variables `ul`: it matches the same values and binds
its variables to the same parts. -/
structure OpensAs {C : AlgSig} {D : Type} (I : Interp C D) (p p' : Pattern)
    (ul : List VSymbol) : Prop where
  typed : PatTyped C p'
  ty : patTy p' = patTy p
  vars : patVars p' = ul
  ok : ∀ d, I.patOk p' d = I.patOk p d
  vals : ∀ d, I.patVals p' d = I.patVals p d

theorem opensAs_rename {C : AlgSig} {D : Type} {I : Interp C D} {p : Pattern} (hp : PatTyped C p)
    (k : Nat) : OpensAs I p (patRenameAll ((patVars p).zip (renameVars k (patVars p))) p)
      (renameVars k (patVars p)) := by
  have hnd := PatTyped.nodup p hp
  have hlen := renameVars_length k (patVars p)
  have hinj := renameVar_injOn hnd (renameVars_nodup k _) hlen
  have hty : ∀ v ∈ patVars p, (renameVar ((patVars p).zip (renameVars k (patVars p))) v).vsTy =
      tyInst [] v.vsTy := fun v _ => (renameVar_vsTy k v).trans (tyInst_nil _).symm
  rw [patRenameAll_eq]
  refine ⟨PatTyped.patGenMap p hp hty hinj, ?_, ?_, Interp.patOk_patGenMap rfl _ p,
    Interp.patVals_patGenMap rfl hp hinj fun v _ => by rw [renameVar_vsTy]⟩
  · rw [patTy_patGenMap p hty, tyInst_nil]
  · rw [patVars_patGenMap, map_renameVar_zip hnd hlen]

/-! Fresh tags. -/

def TermBelow (k : Nat) (t : Term) : Prop := ∀ v ∈ tVars t, v.vsName.idTag < k

theorem lt_freshTag {s : Finset VSymbol} {v : VSymbol} (hv : v ∈ s) : v.vsName.idTag < freshTag s :=
  Finset.le_sup (f := fun v : VSymbol => v.vsName.idTag + 1) hv

variable {m : Monoid} {t : Term}

theorem tVars_subset_monoidVars (ht : t ∈ toList m) : tVars t ⊆ monoidVars m := by
  cases m with
  | zero s =>
    rw [toList, List.mem_singleton] at ht
    rw [ht, monoidVars]
  | unit => cases ht
  | comb c =>
    rw [monoidVars]
    rw [toList] at ht
    induction c with
    | base s =>
      rw [combToList, List.mem_singleton] at ht
      rw [ht, combVars]
    | op a b iha ihb =>
      cases mem_combToList_op.mp ht with
      | inl ht => exact (iha ht).trans Finset.subset_union_left
      | inr ht => exact (ihb ht).trans Finset.subset_union_right

variable {b : SplitBranch} {sbl : List SplitBranch}

theorem monoidVars_subset_joinVars (hb : b ∈ sbl) :
    monoidVars b.2.2.pos ∪ monoidVars b.2.2.neg ∪ monoidVars b.2.2.side ⊆ joinVars t sbl := by
  induction sbl with
  | nil => cases hb
  | cons c sbl ih =>
    cases List.mem_cons.mp hb with
    | inl he =>
      subst he
      exact Finset.subset_union_left
    | inr hb => exact (ih hb).trans Finset.subset_union_right

/-- The parts of the result have symbols of tags below `k` only. -/
structure RetBelow (k : Nat) (r : SplitRet) : Prop where
  pos : ∀ t ∈ toList r.pos, TermBelow k t
  neg : ∀ t ∈ toList r.neg, TermBelow k t
  side : ∀ t ∈ toList r.side, TermBelow k t

theorem retBelow_joinVars (hb : b ∈ sbl) : RetBelow (freshTag (joinVars t sbl)) b.2.2 := by
  have hsub := Finset.union_subset_iff.mp (monoidVars_subset_joinVars (t := t) hb)
  have hpn := Finset.union_subset_iff.mp hsub.1
  have below {m : Monoid} (hm : monoidVars m ⊆ joinVars t sbl) (s : Term) (hs : s ∈ toList m) :
      TermBelow (freshTag (joinVars t sbl)) s := fun v hv =>
    lt_freshTag (hm (tVars_subset_monoidVars hs hv))
  exact ⟨below hpn.1, below hpn.2, below hsub.2⟩

/-! The condition of a branch. -/

/-- The known map has the constructors of the algebraic types. -/
def Knows (C : AlgSig) (kn : KnownMap) : Prop :=
  ∀ ts, C.constrs ts ≠ [] →
    ∃ csl, findConstructors kn ts = .ok csl ∧ ∀ c, c ∈ csl.map Prod.fst ↔ c ∈ C.constrs ts

section Join

variable {C : AlgSig} {D : Type} {I : Interp C D} {ρ ρ1 : VSymbol → D} {β : List D}
  {ts : TySymbol} {tl : List Ty} {cs : LSymbol} {d : D}

theorem fn_eq_iff_destr (hcs : cs ∈ C.constrs ts) (hd : I.dom (.tyapp ts tl) d) {args : List D}
    (hargs : List.Forall₂ I.dom (constrArgTys cs (.tyapp ts tl)) args) :
    d = I.fn cs (.tyapp ts tl) args ↔ I.destr cs d = some args := by
  constructor
  · intro he
    rw [he]
    exact I.destr_fn hcs hargs
  · exact fun he => (I.fn_destr hcs hd he).2.symm

/-- The condition that the constructor builds the value of `vs` from the variables. -/
def constrCond (vs : VSymbol) (cs : LSymbol) (vl : List VSymbol) (ty : Ty) : Term :=
  tEqu (tVar vs) (fsApp cs (vl.map tVar) ty)

variable {vl : List VSymbol}

theorem holds_constrCond (hcs : cs ∈ C.constrs ts) (hd : I.dom (.tyapp ts tl) d) {vs : VSymbol}
    (htys : vl.map vsTy = constrArgTys cs (.tyapp ts tl)) (hvs : vs ∉ vl) (h1 : ρ1 vs = d)
    {ρ' : VSymbol → D} (hρ' : I.Extends vl ρ1 ρ') :
    I.holds ρ' β (constrCond vs cs vl (.tyapp ts tl)) ↔ I.destr cs d = some (vl.map ρ') := by
  have hargs : (vl.map tVar).map (I.val ρ' β) = vl.map ρ' := by
    rw [List.map_map]
    rfl
  have hdom : List.Forall₂ I.dom (constrArgTys cs (.tyapp ts tl)) (vl.map ρ') := by
    rw [← htys, List.forall₂_map_left_iff]
    exact hρ'.forall₂
  rw [← fn_eq_iff_destr hcs hd hdom, constrCond, holds, tEqu, sem,
    Interp.semList_eq_map, List.map_cons, List.map_cons, List.map_nil, I.equ, fsApp, val,
    tVar, sem, val, sem, Interp.semList_eq_map, hargs, hρ'.off vs hvs, h1]

/-- The arguments of the value, as an environment. -/
theorem exists_extends_args (ρ1 : VSymbol → D) (hcs : cs ∈ C.constrs ts)
    (hd : I.dom (.tyapp ts tl) d) (htys : vl.map vsTy = constrArgTys cs (.tyapp ts tl))
    (hnd : vl.Nodup) {args : List D} (hargs : I.destr cs d = some args) :
    ∃ ρ', I.Extends vl ρ1 ρ' ∧ vl.map ρ' = args := by
  have hdom := (I.fn_destr hcs hd hargs).1
  rw [← htys, List.forall₂_map_left_iff] at hdom
  exact ⟨Interp.bindVars vl args ρ1, Interp.extends_bindVars hdom,
    Interp.map_bindVars hnd hdom.length_eq.symm⟩

section Cond

variable (hcs : cs ∈ C.constrs ts) (hd : I.dom (.tyapp ts tl) d) {vs : VSymbol}
  {vl : List VSymbol} (htys : vl.map vsTy = constrArgTys cs (.tyapp ts tl))
  (hnd : vl.Nodup) (hvs : vs ∉ vl) (h1 : ρ1 vs = d) {S : Prop} {vals : List D}
  (hS : ∀ args, I.destr cs d = some args ↔ S ∧ vals = args) {P : Prop}
  {Q : (VSymbol → D) → Prop} (hQ : ∀ ρ', I.Extends vl ρ1 ρ' → vl.map ρ' = vals → (Q ρ' ↔ P))

include hcs hd htys hnd hvs h1 hS hQ

theorem forall_constrCond (β : List D) :
    (∀ ρ', I.Extends vl ρ1 ρ' → I.holds ρ' β (constrCond vs cs vl (.tyapp ts tl)) → Q ρ') ↔
      (S → P) := by
  constructor
  · intro h hs
    obtain ⟨ρ', hρ', rfl⟩ := exists_extends_args ρ1 hcs hd htys hnd ((hS vals).mpr ⟨hs, rfl⟩)
    refine (hQ ρ' hρ' rfl).mp (h ρ' hρ' ((holds_constrCond hcs hd htys hvs h1 hρ').mpr ?_))
    exact (hS _).mpr ⟨hs, rfl⟩
  · intro h ρ' hρ' hc
    obtain ⟨hs, rfl⟩ := (hS _).mp ((holds_constrCond hcs hd htys hvs h1 hρ').mp hc)
    exact (hQ ρ' hρ' rfl).mpr (h hs)

theorem exists_constrCond (β : List D) :
    (∃ ρ', I.Extends vl ρ1 ρ' ∧ I.holds ρ' β (constrCond vs cs vl (.tyapp ts tl)) ∧ Q ρ') ↔
      S ∧ P := by
  constructor
  · intro ⟨ρ', hρ', hc, hq⟩
    obtain ⟨hs, rfl⟩ := (hS _).mp ((holds_constrCond hcs hd htys hvs h1 hρ').mp hc)
    exact ⟨hs, (hQ ρ' hρ' rfl).mp hq⟩
  · intro ⟨hs, hp⟩
    obtain ⟨ρ', hρ', rfl⟩ := exists_extends_args ρ1 hcs hd htys hnd ((hS vals).mpr ⟨hs, rfl⟩)
    refine ⟨ρ', hρ', (holds_constrCond hcs hd htys hvs h1 hρ').mpr ?_, (hQ ρ' hρ' rfl).mpr hp⟩
    exact (hS _).mpr ⟨hs, rfl⟩

end Cond

/-! The parts of one branch. -/

/-- A part of a branch, closed again: the value of the match is bound to `vs`. -/
def branchClose (attrs : Attrs) (vs : VSymbol) (t : Term) (q : Quant) (vl : List VSymbol)
    (f : Term) : Term :=
  tAttrSet attrs (tLetCloseSimp vs t (tQuantCloseSimp q vl [] f))

def openAll (ul : List VSymbol) (m : Monoid) : Monoid :=
  map (fun t => .zero (t.openWith ul)) (Term.openWith ul) m

def joinPos (attrs : Attrs) (vs : VSymbol) (t : Term) (vl ul : List VSymbol) (cond m : Monoid) :
    Monoid :=
  bimapZero (fun _ a => branchClose attrs vs t .tforall vl (tNot a))
    (fun cond f => branchClose attrs vs t .tforall vl (tImplies cond f)) cond (openAll ul m)

def joinNeg (attrs : Attrs) (vs : VSymbol) (t : Term) (vl ul : List VSymbol) (cond m : Monoid) :
    Monoid :=
  bimapZero (fun _ a => branchClose attrs vs t .texists vl a)
    (fun cond f => branchClose attrs vs t .texists vl (tAnd cond f)) cond (openAll ul m)

variable {ul : List VSymbol}

theorem eval_openAll {X : Type} {op : X → X → X} {u : X} {h h' : Term → X}
    (hm : ∀ g ∈ toList m, h' (g.openWith ul) = h g) :
    eval op u h' (openAll ul m) = eval op u h m := by
  refine eval_map id hm (fun _ _ => rfl) rfl ?_
  rintro g rfl
  exact hm g List.mem_cons_self

theorem ZeroOf.openAll {K : Term → Prop} (hK : ∀ t, K t → K (t.openWith ul)) (hm : ZeroOf K m)
    : ZeroOf K (openAll ul m) :=
  ZeroOf.map_zero fun t ht => hK t (hm t ht)

theorem isFalse_openWith (t : Term) : IsFalse t → IsFalse (t.openWith ul) := by
  rintro ⟨a, rfl⟩
  exact ⟨a, rfl⟩

theorem isTrue_openWith (t : Term) : IsTrue t → IsTrue (t.openWith ul) := by
  rintro ⟨a, rfl⟩
  exact ⟨a, rfl⟩

theorem bimapZero_inject (f_0 f : Term → Term → Term) (c : Term) (m : Monoid) :
    bimapZero f_0 f (inject c) m = map (fun t => inject (f_0 t c)) (f c) m := by
  cases m <;> rfl

theorem cmap_cmap (f g : Term → Term) (c : Comb) : cmap f (cmap g c) = cmap (fun t => f (g t)) c := by
  induction c with
  | base t => rfl
  | op a b iha ihb => rw [cmap, cmap, iha, ihb, cmap]

theorem map_openAll (f0 : Term → Monoid) (f : Term → Term) (ul : List VSymbol) (m : Monoid) :
    map f0 f (openAll ul m) = map (fun t => f0 (t.openWith ul)) (fun t => f (t.openWith ul)) m := by
  cases m with
  | zero t => rfl
  | unit => rfl
  | comb c => rw [openAll, map, map, cmap_cmap, map]

section Branch

variable {t : Term} {attrs : Attrs} {vs : VSymbol} {vl : List VSymbol} {k : Nat}

theorem holds_branchClose_forall (ht : ¬ I.holds ρ β t) (f : Term) :
    I.holds ρ β (branchClose attrs vs t .tforall vl f) ↔
      ∀ ρ', I.Extends vl (update ρ vs (I.val ρ β t)) ρ' → I.holds ρ' β f := by
  rw [branchClose, tAttrSet, formulaVal_holds.attrs, holds, Interp.sem_tLetCloseSimp ht,
    ← holds, Interp.holds_tForallCloseSimp]

theorem holds_branchClose_exists (ht : ¬ I.holds ρ β t) (f : Term) :
    I.holds ρ β (branchClose attrs vs t .texists vl f) ↔
      ∃ ρ', I.Extends vl (update ρ vs (I.val ρ β t)) ρ' ∧ I.holds ρ' β f := by
  rw [branchClose, tAttrSet, formulaVal_holds.attrs, holds, Interp.sem_tLetCloseSimp ht,
    ← holds, Interp.holds_tExistsCloseSimp]

/-- The symbols that the branch is opened with are fresh for its parts. -/
theorem holds_openWith_fresh (hvs : k ≤ vs.vsName.idTag) (hvl : ∀ v ∈ vl, k ≤ v.vsName.idTag)
    {ρ' : VSymbol → D} (hρ' : I.Extends vl (update ρ vs d) ρ') {g : Term}
    (hg : TermBelow k g) : I.holds ρ' β (g.openWith vl) ↔ I.holds ρ (vl.map ρ' ++ β) g := by
  rw [holds, Interp.sem_openWith]
  refine Interp.holds_congr_env fun v hv => ?_
  have hlt := hg v hv
  have hne : v ≠ vs := by
    rintro rfl
    omega
  have hnm : v ∉ vl := by
    intro hmem
    have := hvl v hmem
    omega
  rw [hρ'.off v hnm, Function.update_of_ne hne]

section Constr

variable (ht : ¬ I.holds ρ β t) (hcs : cs ∈ C.constrs ts)
  (hd : I.dom (.tyapp ts tl) (I.val ρ β t))
  (htys : vl.map vsTy = constrArgTys cs (.tyapp ts tl)) (hnd : vl.Nodup)
  (hvs : k = vs.vsName.idTag) (hvl : ∀ v ∈ vl, k < v.vsName.idTag) {m : Monoid}
  (hbelow : ∀ g ∈ toList m, TermBelow k g) {S : Prop} {vals : List D}
  (hS : ∀ args, I.destr cs (I.val ρ β t) = some args ↔ S ∧ vals = args)

include ht hcs hd htys hnd hvs hvl hbelow hS

theorem conj_joinPos_constr (hm : ZeroOf IsFalse m) :
    conj (I.holds ρ β) (joinPos attrs vs t vl vl (inject (constrCond vs cs vl (.tyapp ts tl))) m) ↔
      (S → conj (I.holds ρ (vals ++ β)) m) := by
  have hvs' : vs ∉ vl := fun hmem => (hvl vs hmem).ne hvs
  rw [joinPos, bimapZero_inject, map_openAll]
  refine iff_of_eq (eval_map (fun x => S → x) (fun g hg => ?_) (fun x y => propext imp_and)
    (by simp) fun g hg => ?_)
  · rw [holds_branchClose_forall ht]
    refine propext (forall_constrCond hcs hd htys hnd hvs' (update_self vs _ ρ) hS
      (fun ρ' hρ' he => ?_) β)
    rw [← he]
    exact holds_openWith_fresh hvs.le (fun v hv => (hvl v hv).le) hρ' (hbelow g hg)
  · rw [← conj, conj_inject, holds_branchClose_forall ht]
    refine propext (forall_constrCond hcs hd htys hnd hvs' (update_self vs _ ρ) hS
      (fun ρ' _ _ => ?_) β)
    exact iff_of_false id (formulaVal_holds.false (hm g hg))

theorem disj_joinNeg_constr (hm : ZeroOf IsTrue m) :
    disj (I.holds ρ β) (joinNeg attrs vs t vl vl (inject (constrCond vs cs vl (.tyapp ts tl))) m) ↔
      S ∧ disj (I.holds ρ (vals ++ β)) m := by
  have hvs' : vs ∉ vl := fun hmem => (hvl vs hmem).ne hvs
  rw [joinNeg, bimapZero_inject, map_openAll]
  refine iff_of_eq (eval_map (fun x => S ∧ x) (fun g hg => ?_) (fun x y => propext and_or_left)
    (by simp) fun g hg => ?_)
  · rw [holds_branchClose_exists ht]
    refine propext (exists_constrCond hcs hd htys hnd hvs' (update_self vs _ ρ) hS
      (fun ρ' hρ' he => ?_) β)
    rw [← he]
    exact holds_openWith_fresh hvs.le (fun v hv => (hvl v hv).le) hρ' (hbelow g hg)
  · rw [← disj, disj_inject, holds_branchClose_exists ht]
    refine propext (Iff.trans ?_ (exists_constrCond (Q := fun _ => True) hcs hd htys hnd hvs'
      (update_self vs _ ρ) hS (fun _ _ _ => iff_of_true trivial (formulaVal_holds.true (hm g hg))) β))
    simp only [and_true]

end Constr

/-! A catch-all branch has no variables, and its condition is a disjunction. -/

section Wild

variable (ht : ¬ I.holds ρ β t) {cond : Monoid} (hcond : ZeroOf (fun _ => False) cond)
  (hvs : k = vs.vsName.idTag) {m : Monoid} (hbelow : ∀ g ∈ toList m, TermBelow k g)

theorem holds_fresh_nil (hvs : k = vs.vsName.idTag) {g : Term} (hg : TermBelow k g) :
    I.holds (update ρ vs d) β (g.openWith []) ↔ I.holds ρ β g :=
  holds_openWith_fresh hvs.le (by simp) (extends_nil.mpr rfl) hg

include ht hcond hvs hbelow

theorem conj_joinPos_wild (hm : ZeroOf IsFalse m) :
    conj (I.holds ρ β) (joinPos attrs vs t [] [] cond m) ↔
      (disj (I.holds (update ρ vs (I.val ρ β t)) β) cond → conj (I.holds ρ β) m) := by
  have hclose : ∀ f, I.holds ρ β (branchClose attrs vs t .tforall [] f) ↔
      I.holds (update ρ vs (I.val ρ β t)) β f := by
    intro f
    simp only [holds_branchClose_forall ht, extends_nil, forall_eq]
  have hopen : conj (I.holds (update ρ vs (I.val ρ β t)) β) (openAll [] m) =
      conj (I.holds ρ β) m :=
    eval_openAll fun g hg => propext (holds_fresh_nil hvs (hbelow g hg))
  have hjoin : conj (I.holds ρ β) (joinPos attrs vs t [] [] cond m) =
      (disj (I.holds (update ρ vs (I.val ρ β t)) β) cond →
        conj (I.holds (update ρ vs (I.val ρ β t)) β) (openAll [] m)) := by
    refine eval_bimapZero (fun x y => x → y) (fun s _ g _ => propext (hclose _))
      (fun x y z => propext or_imp) (fun x y z => propext imp_and) (by simp) (by simp)
      (fun s hs => (hcond s hs).elim) fun g hg s _ => propext ((hclose _).trans ?_)
    exact imp_congr_right fun _ =>
      iff_of_false id (formulaVal_holds.false (hm.openAll isFalse_openWith g hg))
  rw [hjoin, hopen]

theorem disj_joinNeg_wild (hm : ZeroOf IsTrue m) :
    disj (I.holds ρ β) (joinNeg attrs vs t [] [] cond m) ↔
      disj (I.holds (update ρ vs (I.val ρ β t)) β) cond ∧ disj (I.holds ρ β) m := by
  have hclose : ∀ f, I.holds ρ β (branchClose attrs vs t .texists [] f) ↔
      I.holds (update ρ vs (I.val ρ β t)) β f := by
    intro f
    simp only [holds_branchClose_exists ht, extends_nil, exists_eq_left]
  have hopen : disj (I.holds (update ρ vs (I.val ρ β t)) β) (openAll [] m) =
      disj (I.holds ρ β) m :=
    eval_openAll fun g hg => propext (holds_fresh_nil hvs (hbelow g hg))
  have hjoin : disj (I.holds ρ β) (joinNeg attrs vs t [] [] cond m) =
      (disj (I.holds (update ρ vs (I.val ρ β t)) β) cond ∧
        disj (I.holds (update ρ vs (I.val ρ β t)) β) (openAll [] m)) := by
    refine eval_bimapZero And (fun s _ g _ => propext (hclose _))
      (fun x y z => propext or_and_right) (fun x y z => propext and_or_left) (by simp) (by simp)
      (fun s hs => (hcond s hs).elim) fun g hg s _ => propext ((hclose _).trans ?_)
    exact (and_iff_left (formulaVal_holds.true (hm.openAll isTrue_openWith g hg))).symm
  rw [hjoin, hopen]

end Wild

theorem foldl_law_inject {h : Term → Prop} (hv : Valuation h) (F : LSymbol → Term)
    (csl : List LSymbol) : ∀ acc, ZeroOf (fun _ => False) acc →
      ZeroOf (fun _ => False) (csl.foldl (fun g cs => law g (inject (F cs))) acc) ∧
        (disj h (csl.foldl (fun g cs => law g (inject (F cs))) acc) ↔
          disj h acc ∨ ∃ cs ∈ csl, h (F cs)) := by
  induction csl with
  | nil => exact fun acc hacc => ⟨hacc, by simp⟩
  | cons cs csl ih =>
    intro acc hacc
    obtain ⟨hz, hd⟩ := ih (law acc (inject (F cs))) (hacc.law (zeroOf_inject _))
    refine ⟨hz, ?_⟩
    have hz' : ZeroOf IsTrue acc := fun t ht => (hacc t ht).elim
    rw [List.foldl_cons, hd, disj_law hv hz' (zeroOf_inject _), disj_inject]
    simp only [List.mem_cons, exists_eq_or_imp, or_assoc]

theorem foldCond_disj (m : Monoid) : (disj (I.holds ρ β) (foldCond m) ↔ disj (I.holds ρ β) m) := by
  cases m with
  | comb c =>
    rw [foldCond, disj_inject, disj, eval]
    induction c with
    | base s => exact Iff.rfl
    | op a b iha ihb =>
      rw [evalComb, ← iha, ← ihb]
      exact Iff.rfl
  | _ => exact Iff.rfl

theorem ZeroOf.foldCond {K : Term → Prop} (hm : ZeroOf K m) : ZeroOf K (foldCond m) := by
  cases m with
  | comb c => exact zeroOf_inject _
  | _ => exact hm

/-! Joining a branch to the ones before it. -/

/-- The value selects the branch, none of the constructors seen before builds it. -/
def SelectsAfter (I : Interp C D) (d : D) (cseen : List LSymbol) (p : Pattern) : Prop :=
  I.patOk p d = true ∧ ∀ c ∈ cseen, I.destr c d = none

/-- The parts of the branch are joined below the condition `S`. -/
structure Joins (h h' : Term → Prop) (S : Prop) (acc acc' : Joined) (r : SplitRet) : Prop where
  pos : conj h acc'.pos ↔ conj h acc.pos ∧ (S → conj h' r.pos)
  neg : disj h acc'.neg ↔ disj h acc.neg ∨ S ∧ disj h' r.neg
  side : conj h acc'.side ↔ conj h acc.side ∧ (S → conj h' r.side)

structure JoinedShape (byso : Bool) (j : Joined) : Prop where
  pos : ZeroOf IsFalse j.pos
  neg : ZeroOf IsTrue j.neg
  side : ZeroOf IsFalse j.side
  unit : byso = false → j.side = .unit

/-- The result of `joinBranch` for a condition. -/
def joinWith (attrs : Attrs) (vs : VSymbol) (t : Term) (vl ul : List VSymbol) (cond : Monoid)
    (cseen : List LSymbol) (acc : Joined) (r : SplitRet) : Joined :=
  ⟨cseen, law acc.pos (joinPos attrs vs t vl ul cond r.pos),
    law acc.neg (joinNeg attrs vs t vl ul cond r.neg),
    law acc.side (joinPos attrs vs t vl ul cond r.side)⟩

variable {cond : Monoid} {cseen : List LSymbol}

section

variable {byso : Bool} {acc : Joined} {r : SplitRet} (hacc : JoinedShape byso acc)
  (hr : SplitShape byso r)
include hacc hr

theorem joinWith_shape : JoinedShape byso (joinWith attrs vs t vl ul cond cseen acc r) := by
  refine ⟨hacc.pos.law (hr.pos.openAll isFalse_openWith).bimapZero,
    hacc.neg.law (hr.neg.openAll isTrue_openWith).bimapZero,
    hacc.side.law (hr.side.openAll isFalse_openWith).bimapZero, fun hb => ?_⟩
  rw [joinWith]
  simp only [hacc.unit hb, hr.unit hb, joinPos, openAll, map, bimapZero_unit, law]

theorem joins_joinWith {h' : Term → Prop} {S : Prop}
    (hpos : conj (I.holds ρ β) (joinPos attrs vs t vl ul cond r.pos) ↔ (S → conj h' r.pos))
    (hneg : disj (I.holds ρ β) (joinNeg attrs vs t vl ul cond r.neg) ↔ S ∧ disj h' r.neg)
    (hside : conj (I.holds ρ β) (joinPos attrs vs t vl ul cond r.side) ↔ (S → conj h' r.side)) :
    Joins (I.holds ρ β) h' S acc (joinWith attrs vs t vl ul cond cseen acc r) r := by
  refine ⟨?_, ?_, ?_⟩
  · exact (conj_law formulaVal_holds.toValuation hacc.pos
      (hr.pos.openAll isFalse_openWith).bimapZero).trans (and_congr Iff.rfl hpos)
  · exact (disj_law formulaVal_holds.toValuation hacc.neg
      (hr.neg.openAll isTrue_openWith).bimapZero).trans (or_congr Iff.rfl hneg)
  · exact (conj_law formulaVal_holds.toValuation hacc.side
      (hr.side.openAll isFalse_openWith).bimapZero).trans (and_congr Iff.rfl hside)

end

/-- The symbol that the value of the match is bound to. -/
def scrutVar (t : Term) (k : Nat) : VSymbol := ⟨⟨"q", k⟩, t.tTy.getD tyInt⟩

theorem joinBranch_eq {sp : Split} {kn : KnownMap} {acc : Joined} {vars : List VSymbol}
    (hvars : patVars b.1 = vars) (hul : renameVars (k + 1) vars = ul)
    (h : patCondition kn (k + 1) (tVar (scrutVar t k)) acc.cseen
      (patRenameAll (vars.zip ul) b.1) = .ok (cseen, vl, cond)) :
    joinBranch sp kn attrs t k acc b = .ok (joinWith attrs (scrutVar t k) t vl ul
        (if sp.rightOnly then foldCond cond else cond) cseen acc b.2.2) := by
  subst hvars hul
  rw [scrutVar] at h
  simp only [joinBranch, h]
  rfl

theorem mapM_pvar {f : Pattern → Option VSymbol} (hf : ∀ v, f (.pvar v) = some v)
    (vl : List VSymbol) : (vl.map Pattern.pvar).mapM f = some vl := by
  induction vl with
  | nil => rfl
  | cons v vl ih => simp [ih, hf]

theorem patVars_constr (cs : LSymbol) (vl : List VSymbol) (ty : Ty) :
    patVars (.papp cs (vl.map .pvar) ty) = vl := by
  rw [patVars, patVarsList_eq_flatMap, List.flatMap_map]
  exact List.flatMap_singleton' vl

theorem patRenameAll_constr (cs : LSymbol) (ty : Ty) (hnd : vl.Nodup) (hlen : ul.length = vl.length)
    : patRenameAll (vl.zip ul) (.papp cs (vl.map .pvar) ty) = .papp cs (ul.map .pvar) ty := by
  have hmap : (vl.map Pattern.pvar).map (patRenameAll (vl.zip ul)) =
      (vl.map (renameVar (vl.zip ul))).map .pvar := by
    rw [List.map_map, List.map_map]
    rfl
  rw [patRenameAll, patRenameAllList_eq_map, hmap, map_renameVar_zip hnd hlen]

variable {ty : Ty} {pl : List Pattern}

/-- A constructor pattern on variables binds them to the arguments. -/
theorem patVals_constr (hnd : vl.Nodup) {args : List D} (hargs : I.destr cs d = some args)
    (hlen : vl.length = args.length) : I.patVals (.papp cs (vl.map .pvar) ty) d = args := by
  have hbind := Interp.map_bindPats_pvar (I := I) hnd hlen fun v => I.witness v.vsTy
  rw [patVals, patVars_constr, ← hbind]
  apply List.map_congr_left
  intro v _
  simp only [Interp.bindPats, Interp.patGet, hargs]

section ConstrBranch

variable {cseen : List LSymbol} (hcs : cs ∈ C.constrs ts)
  (htys : vl.map vsTy = constrArgTys cs (.tyapp ts tl)) (hnd : vl.Nodup)
  (hseen : ∀ c ∈ cseen, c ∈ C.constrs ts) (hnew : cs ∉ cseen)

include hcs htys hnd hseen hnew

/-- A value that the constructor builds selects its branch. -/
theorem selectsAfter_constr (hd : I.dom (.tyapp ts tl) d) {args : List D}
    (hargs : I.destr cs d = some args) :
    SelectsAfter I d cseen (.papp cs (vl.map .pvar) (.tyapp ts tl)) ∧
      I.patVals (.papp cs (vl.map .pvar) (.tyapp ts tl)) d = args := by
  have hlen : vl.length = args.length := by
    rw [← (I.fn_destr hcs hd hargs).1.length_eq, ← htys, List.length_map]
  refine ⟨⟨patOk_constr hargs hlen, fun c hc => ?_⟩, patVals_constr hnd hargs hlen⟩
  by_contra hne
  obtain ⟨args', hargs'⟩ := Option.ne_none_iff_exists'.mp hne
  exact hnew (I.disjoint hcs (hseen c hc) hd hargs hargs' ▸ hc)

omit hcs htys hnd hseen hnew in
theorem SelectsAfter.args
    (h : SelectsAfter I d cseen (.papp cs pl ty)) : ∃ args, I.destr cs d = some args := by
  have hok := h.1
  rw [patOk] at hok
  split at hok
  · exact ⟨_, by assumption⟩
  · cases hok

theorem destr_iff_selectsAfter (hd : I.dom (.tyapp ts tl) d) (args : List D) :
    I.destr cs d = some args ↔
      SelectsAfter I d cseen (.papp cs (vl.map .pvar) (.tyapp ts tl)) ∧
        I.patVals (.papp cs (vl.map .pvar) (.tyapp ts tl)) d = args := by
  refine ⟨selectsAfter_constr hcs htys hnd hseen hnew hd, fun ⟨hsel, hvals⟩ => ?_⟩
  obtain ⟨args', hargs'⟩ := hsel.args
  rw [hargs', ← hvals, (selectsAfter_constr hcs htys hnd hseen hnew hd hargs').2]

end ConstrBranch

variable {byso : Bool} {sp : Split} {kn : KnownMap} {acc : Joined} {e : Term} {r : SplitRet}

variable (hcs : cs ∈ C.constrs ts) (htys : vl.map vsTy = constrArgTys cs (.tyapp ts tl))

include hcs htys in
theorem joinBranch_constr (hnd : vl.Nodup) (hseen : ∀ c ∈ acc.cseen, c ∈ C.constrs ts)
    (hnew : cs ∉ acc.cseen) (hbelow : RetBelow k r) (hr : SplitShape byso r)
    (hacc : JoinedShape byso acc) :
    ∃ acc', joinBranch sp kn attrs t k acc
          (.papp cs (vl.map .pvar) (.tyapp ts tl), e, r) = .ok acc' ∧
      acc'.cseen = slsAdd cs acc.cseen ∧ JoinedShape byso acc' ∧
      ∀ ρ β, ¬ I.holds ρ β t → I.dom (.tyapp ts tl) (I.val ρ β t) →
        Joins (I.holds ρ β)
          (I.holds ρ (I.patVals (.papp cs (vl.map .pvar) (.tyapp ts tl)) (I.val ρ β t) ++ β))
          (SelectsAfter I (I.val ρ β t) acc.cseen (.papp cs (vl.map .pvar) (.tyapp ts tl)))
          acc acc' r := by
  have hlen := renameVars_length (k + 1) vl
  have hcond : patCondition kn (k + 1) (tVar (scrutVar t k)) acc.cseen
      (patRenameAll (vl.zip (renameVars (k + 1) vl)) (.papp cs (vl.map .pvar) (.tyapp ts tl))) =
        .ok (slsAdd cs acc.cseen, renameVars (k + 1) vl, inject (constrCond (scrutVar t k) cs
          (renameVars (k + 1) vl) (.tyapp ts tl))) := by
    rw [patRenameAll_constr cs _ hnd hlen, patCondition, mapM_pvar fun _ => rfl]
    rfl
  have hfold : ∀ c : Term, (if sp.rightOnly then foldCond (inject c) else inject c) = inject c :=
    fun c => ite_self _
  refine ⟨_, joinBranch_eq (patVars_constr cs vl _) rfl hcond, rfl, joinWith_shape hacc hr, ?_⟩
  intro ρ β ht hd
  have htys' := (renameVars_tys (k + 1) vl).trans htys
  have hnd' := renameVars_nodup (k + 1) vl
  have htags : ∀ v ∈ renameVars (k + 1) vl, k < v.vsName.idTag := fun v hv => (renameVars_tag hv).1
  have hvs : k = (scrutVar t k).vsName.idTag := rfl
  have hS := destr_iff_selectsAfter hcs htys hnd hseen hnew hd
  rw [hfold]
  exact joins_joinWith hacc hr
    (conj_joinPos_constr ht hcs hd htys' hnd' hvs htags hbelow.pos hS hr.pos)
    (disj_joinNeg_constr ht hcs hd htys' hnd' hvs htags hbelow.neg hS hr.neg)
    (conj_joinPos_constr ht hcs hd htys' hnd' hvs htags hbelow.side hS hr.side)

theorem freshCond (hcs : cs ∈ C.constrs ts) (hd : I.dom (.tyapp ts tl) d)
    {vs : VSymbol} (hvs : k = vs.vsName.idTag) : I.holds (update ρ vs d) β (tQuantCloseSimp .texists
        (freshVars (k + 1) "w" (constrArgTys cs (.tyapp ts tl))) []
        (constrCond vs cs (freshVars (k + 1) "w" (constrArgTys cs (.tyapp ts tl)))
          (.tyapp ts tl))) ↔
      ∃ args, I.destr cs d = some args := by
  have hnm : vs ∉ freshVars (k + 1) "w" (constrArgTys cs (.tyapp ts tl)) := fun hmem =>
    Nat.ne_of_lt (Interp.freshVars_tag hmem).1 hvs
  have hS (args : List D) : I.destr cs d = some args ↔
      (∃ args, I.destr cs d = some args) ∧ (I.destr cs d).getD [] = args := by
    cases I.destr cs d <;> simp
  rw [Interp.holds_tExistsCloseSimp]
  have := exists_constrCond (P := True) hcs hd (Interp.freshVars_tys _ _ _)
    (Interp.freshVars_nodup _ _ _) hnm (update_self vs d ρ) hS (fun _ _ _ => Iff.rfl) β
  simpa using this

/-- The constructors that are left build the values that no seen constructor builds. -/
theorem exists_csnew_iff {csall : List LSymbol} (hcsall : ∀ c, c ∈ csall ↔ c ∈ C.constrs ts)
    (hseen : ∀ c ∈ cseen, c ∈ C.constrs ts) (hne : C.constrs ts ≠ []) (hd : I.dom (.tyapp ts tl) d)
    : (∃ c ∈ csall.filter fun c => !cseen.contains c, ∃ args, I.destr c d = some args) ↔
      SelectsAfter I d cseen (.pwild (.tyapp ts tl)) := by
  simp only [List.mem_filter, hcsall, Bool.not_eq_true', List.contains_eq_mem,
    decide_eq_false_iff_not]
  constructor
  · intro ⟨c, ⟨hc, hcn⟩, args, hargs⟩
    refine ⟨rfl, fun c' hc' => ?_⟩
    by_contra hne'
    obtain ⟨args', hargs'⟩ := Option.ne_none_iff_exists'.mp hne'
    exact hcn (I.disjoint hc (hseen c' hc') hd hargs hargs' ▸ hc')
  · intro ⟨_, hnone⟩
    obtain ⟨c, hc, args, hargs⟩ := I.cover hne hd
    refine ⟨c, ⟨hc, fun hmem => ?_⟩, args, hargs⟩
    rw [hnone c hmem] at hargs
    cases hargs

theorem joinBranch_wild (hkn : Knows C kn) (hlen : tl.length = ts.tsArgs.length)
    (hseen : ∀ c ∈ acc.cseen, c ∈ C.constrs ts) (hnew : ∃ c ∈ C.constrs ts, c ∉ acc.cseen)
    (hbelow : RetBelow k r) (hr : SplitShape byso r) (hacc : JoinedShape byso acc) :
    ∃ acc', joinBranch sp kn attrs t k acc (.pwild (.tyapp ts tl), e, r) = .ok acc' ∧
      JoinedShape byso acc' ∧
      ∀ ρ β, ¬ I.holds ρ β t → I.dom (.tyapp ts tl) (I.val ρ β t) →
        Joins (I.holds ρ β)
          (I.holds ρ (I.patVals (.pwild (.tyapp ts tl)) (I.val ρ β t) ++ β))
          (SelectsAfter I (I.val ρ β t) acc.cseen (.pwild (.tyapp ts tl))) acc acc' r := by
  obtain ⟨c0, hc0, hc0n⟩ := hnew
  have hne : C.constrs ts ≠ [] := List.ne_nil_of_mem hc0
  obtain ⟨csl, hcsl, hmem⟩ := hkn ts hne
  obtain ⟨sbs, hsbs, hinst⟩ := tyMatch_constrArgTys hc0 hlen
  have hcsall : ∀ c, c ∈ slsOfList (csl.map Prod.fst) ↔ c ∈ C.constrs ts :=
    fun c => mem_slsOfList.trans (hmem c)
  let csnew := (slsOfList (csl.map Prod.fst)).filter fun c => !acc.cseen.contains c
  have hcsnew : csnew.isEmpty = false := by
    rw [List.isEmpty_eq_false_iff_exists_mem]
    exact ⟨c0, by simp [csnew, hcsall, hc0, hc0n]⟩
  let F := fun cs : LSymbol => tQuantCloseSimp .texists
    (freshVars (k + 1) "w" (cs.lsArgs.map (tyInst sbs))) []
    (constrCond (scrutVar t k) cs (freshVars (k + 1) "w" (cs.lsArgs.map (tyInst sbs)))
      (.tyapp ts tl))
  have hcond : patCondition kn (k + 1) (tVar (scrutVar t k)) acc.cseen
      (patRenameAll (([] : List VSymbol).zip []) (.pwild (.tyapp ts tl))) =
        .ok (slsOfList (csl.map Prod.fst), [],
          csnew.foldl (fun g cs => law g (inject (F cs))) .unit) := by
    simp only [patRenameAll, patCondition, hcsl, hsbs]
    rw [if_neg (by simpa [csnew] using hcsnew)]
    rfl
  refine ⟨_, joinBranch_eq rfl rfl hcond, joinWith_shape hacc hr, ?_⟩
  intro ρ β ht hd
  have hvs : k = (scrutVar t k).vsName.idTag := rfl
  obtain ⟨hzero, hdisj⟩ := foldl_law_inject
    (valuation_holds I (update ρ (scrutVar t k) (I.val ρ β t)) β) F csnew .unit zeroOf_unit
  generalize csnew.foldl (fun g cs => law g (inject (F cs))) .unit = cond at hzero hdisj ⊢
  have hsel : disj (I.holds (update ρ (scrutVar t k) (I.val ρ β t)) β)
      (if sp.rightOnly then foldCond cond else cond) ↔
        SelectsAfter I (I.val ρ β t) acc.cseen (.pwild (.tyapp ts tl)) := by
    rw [← exists_csnew_iff hcsall hseen hne hd, apply_ite (disj _), foldCond_disj, ite_self, hdisj,
      disj_unit, false_or]
    refine exists_congr fun c => and_congr_right fun hc => ?_
    have hmem : c ∈ C.constrs ts := (hcsall c).mp (List.mem_filter.mp hc).1
    simp only [F, hinst c hmem]
    exact freshCond hmem hd hvs
  have hzero' : ZeroOf (fun _ => False) (if sp.rightOnly then foldCond cond else cond) := by
    split
    · exact hzero.foldCond
    · exact hzero
  refine joins_joinWith hacc hr ?_ ?_ ?_
  · exact (conj_joinPos_wild ht hzero' hvs hbelow.pos hr.pos).trans (imp_congr_left hsel)
  · exact (disj_joinNeg_wild ht hzero' hvs hbelow.neg hr.neg).trans (and_congr_left' hsel)
  · exact (conj_joinPos_wild ht hzero' hvs hbelow.side hr.side).trans (imp_congr_left hsel)

/-! All branches of a compiled match. -/

/-- The patterns of a compiled match after those of the constructors `cseen`. -/
inductive CompiledFrom (C : AlgSig) (ts : TySymbol) (tl : List Ty) :
    List LSymbol → List Pattern → Prop
  | nil (cseen : List LSymbol) : CompiledFrom C ts tl cseen []
  | wild {cseen : List LSymbol} (hnew : ∃ c ∈ C.constrs ts, c ∉ cseen) :
      CompiledFrom C ts tl cseen [.pwild (.tyapp ts tl)]
  | constr {cseen : List LSymbol} {cs : LSymbol} {vl : List VSymbol} {pl : List Pattern}
      (hcs : cs ∈ C.constrs ts) (hnew : cs ∉ cseen)
      (htys : vl.map vsTy = constrArgTys cs (.tyapp ts tl)) (hnd : vl.Nodup)
      (hpl : CompiledFrom C ts tl (slsAdd cs cseen) pl) :
      CompiledFrom C ts tl cseen (.papp cs (vl.map .pvar) (.tyapp ts tl) :: pl)

theorem compiledFrom_append {cvl : List (LSymbol × List VSymbol)} {w : Bool} :
    ∀ cseen, (cvl.map Prod.fst).Nodup → (∀ c ∈ cvl.map Prod.fst, c ∉ cseen) →
      (∀ c ∈ cvl, c.1 ∈ C.constrs ts ∧
        c.2.map vsTy = constrArgTys c.1 (.tyapp ts tl) ∧ c.2.Nodup) →
      (w = true → ∃ cs ∈ C.constrs ts, cs ∉ cvl.map Prod.fst ∧ cs ∉ cseen) →
      CompiledFrom C ts tl cseen
        (cvl.map (fun c => Pattern.papp c.1 (c.2.map .pvar) (.tyapp ts tl)) ++
          if w then [Pattern.pwild (.tyapp ts tl)] else []) := by
  induction cvl with
  | nil =>
    intro cseen _ _ _ hw
    cases w with
    | true =>
      obtain ⟨c, hc, -, hcn⟩ := hw rfl
      exact .wild ⟨c, hc, hcn⟩
    | false => exact .nil cseen
  | cons c cvl ih =>
    intro cseen hnd hnew hcvl hw
    obtain ⟨hc, htys, hvl⟩ := hcvl c List.mem_cons_self
    rw [List.map_cons, List.nodup_cons] at hnd
    refine .constr hc (hnew c.1 (by simp)) htys hvl (ih _ hnd.2 ?_ ?_ ?_)
    · intro c' hc'
      rw [mem_slsAdd, not_or]
      refine ⟨?_, hnew c' (List.mem_cons_of_mem _ hc')⟩
      rintro rfl
      exact hnd.1 hc'
    · exact fun c' hc' => hcvl c' (List.mem_cons_of_mem _ hc')
    · intro hw'
      obtain ⟨cs, hcs, hcn, hcn'⟩ := hw hw'
      rw [List.map_cons, List.mem_cons, not_or] at hcn
      refine ⟨cs, hcs, hcn.2, ?_⟩
      rw [mem_slsAdd, not_or]
      exact ⟨hcn.1, hcn'⟩

theorem CompiledForm.compiledFrom (h : CompiledForm C ty pl) :
    ∃ ts tl, ty = .tyapp ts tl ∧ tl.length = ts.tsArgs.length ∧ CompiledFrom C ts tl [] pl := by
  obtain ⟨ts, tl, rfl, hlen, cvl, w, rfl, hnd, hcvl, hw, -⟩ := h
  refine ⟨ts, tl, rfl, hlen, compiledFrom_append [] hnd (by simp) hcvl fun hw' => ?_⟩
  obtain ⟨cs, hcs, hcn⟩ := hw hw'
  exact ⟨cs, hcs, hcn, by simp⟩

/-- The parts of the branch that the value selects, unless a seen constructor builds it. -/
structure JoinsAll (I : Interp C D) (ρ : VSymbol → D) (β : List D) (d : D) (acc acc' : Joined)
    (sbl : List SplitBranch) : Prop where
  pos : conj (I.holds ρ β) acc'.pos ↔ conj (I.holds ρ β) acc.pos ∧
    ((∀ c ∈ acc.cseen, I.destr c d = none) → ∀ b, selected I d sbl = some b →
      conj (I.holds ρ (I.patVals b.1 d ++ β)) b.2.2.pos)
  neg : disj (I.holds ρ β) acc'.neg ↔ disj (I.holds ρ β) acc.neg ∨
    (∀ c ∈ acc.cseen, I.destr c d = none) ∧ ∃ b, selected I d sbl = some b ∧
      disj (I.holds ρ (I.patVals b.1 d ++ β)) b.2.2.neg
  side : conj (I.holds ρ β) acc'.side ↔ conj (I.holds ρ β) acc.side ∧
    ((∀ c ∈ acc.cseen, I.destr c d = none) → ∀ b, selected I d sbl = some b →
      conj (I.holds ρ (I.patVals b.1 d ++ β)) b.2.2.side)

/-- One branch more at the front. -/
theorem JoinsAll.cons {acc acc1 acc' : Joined}
    (h : Joins (I.holds ρ β) (I.holds ρ (I.patVals b.1 d ++ β))
      (SelectsAfter I d acc.cseen b.1) acc acc1 b.2.2) (hsbl : JoinsAll I ρ β d acc1 acc' sbl)
    (hseen : (∀ c ∈ acc1.cseen, I.destr c d = none) ↔
      (∀ c ∈ acc.cseen, I.destr c d = none) ∧ I.patOk b.1 d = false) :
    JoinsAll I ρ β d acc acc' (b :: sbl) := by
  constructor
  · rw [hsbl.pos, h.pos, hseen]
    cases hb : I.patOk b.1 d <;> simp [SelectsAfter, selected, hb]
  · rw [hsbl.neg, h.neg, hseen]
    cases hb : I.patOk b.1 d <;> simp [SelectsAfter, selected, hb]
  · rw [hsbl.side, h.side, hseen]
    cases hb : I.patOk b.1 d <;> simp [SelectsAfter, selected, hb]

theorem joinsAll_nil (acc : Joined) : JoinsAll I ρ β d acc acc [] := by
  constructor <;> simp [selected]

theorem joinsAll_singleton {acc acc' : Joined}
    (h : Joins (I.holds ρ β) (I.holds ρ (I.patVals b.1 d ++ β))
      (SelectsAfter I d acc.cseen b.1) acc acc' b.2.2) : JoinsAll I ρ β d acc acc' [b] := by
  constructor
  · rw [h.pos]
    cases hb : I.patOk b.1 d <;> simp [SelectsAfter, selected, hb]
  · rw [h.neg]
    cases hb : I.patOk b.1 d <;> simp [SelectsAfter, selected, hb]
  · rw [h.side]
    cases hb : I.patOk b.1 d <;> simp [SelectsAfter, selected, hb]

include hcs htys in
theorem patOk_constr_eq_false (hd : I.dom (.tyapp ts tl) d) :
    I.patOk (.papp cs (vl.map .pvar) (.tyapp ts tl)) d = false ↔ I.destr cs d = none := by
  cases hargs : I.destr cs d with
  | none => simp [patOk, hargs]
  | some args =>
    have hlen : vl.length = args.length := by
      rw [← (I.fn_destr hcs hd hargs).1.length_eq, ← htys, List.length_map]
    simp [patOk_constr hargs hlen]

theorem foldlM_joinBranch (hkn : Knows C kn) (hlen : tl.length = ts.tsArgs.length)
    (hpl : CompiledFrom C ts tl cseen pl) :
    ∀ (acc : Joined) (sbl : List SplitBranch), acc.cseen = cseen → sbl.map Prod.fst = pl →
      (∀ c ∈ cseen, c ∈ C.constrs ts) → JoinedShape byso acc →
      (∀ b ∈ sbl, RetBelow k b.2.2 ∧ SplitShape byso b.2.2) →
      ∃ j, sbl.foldlM (joinBranch sp kn attrs t k) acc = .ok j ∧ JoinedShape byso j ∧
        ∀ (ρ : VSymbol → D) β, ¬ I.holds ρ β t → I.dom (.tyapp ts tl) (I.val ρ β t) →
          JoinsAll I ρ β (I.val ρ β t) acc j sbl := by
  induction hpl with
  | nil cseen =>
    intro acc sbl _ hsbl _ hacc _
    rw [List.map_eq_nil_iff.mp hsbl]
    exact ⟨acc, rfl, hacc, fun ρ β _ _ => joinsAll_nil acc⟩
  | wild hnew =>
    intro acc sbl hcseen hsbl hseen hacc hb
    obtain ⟨⟨p, e, r⟩, sbl', rfl, rfl, hnil⟩ := List.map_eq_cons_iff.mp hsbl
    rw [List.map_eq_nil_iff] at hnil
    subst hcseen hnil
    obtain ⟨hbelow, hr⟩ := hb _ List.mem_cons_self
    obtain ⟨acc', hj, hshape, hsem⟩ := joinBranch_wild hkn hlen hseen hnew hbelow hr hacc
    refine ⟨acc', ?_, hshape, fun ρ β ht hd => joinsAll_singleton (hsem ρ β ht hd)⟩
    rw [List.foldlM_cons, hj]
    rfl
  | @constr cseen cs vl pl hcs hnew htys hnd hpl ih =>
    intro acc sbl hcseen hsbl hseen hacc hb
    obtain ⟨⟨p, e, r⟩, sbl', rfl, hp, hrest⟩ := List.map_eq_cons_iff.mp hsbl
    subst hcseen hp
    obtain ⟨hbelow, hr⟩ := hb _ List.mem_cons_self
    obtain ⟨acc1, hj, hcseen1, hshape, hsem⟩ :=
      joinBranch_constr hcs htys hnd hseen hnew hbelow hr hacc
    have hseen1 : ∀ c ∈ slsAdd cs acc.cseen, c ∈ C.constrs ts := by
      intro c hc
      cases mem_slsAdd.mp hc with
      | inl he => exact he ▸ hcs
      | inr hc => exact hseen c hc
    obtain ⟨j, hjs, hshape', hsem'⟩ := ih acc1 sbl' hcseen1 hrest hseen1 hshape
      (List.forall_mem_cons.mp hb).2
    refine ⟨j, ?_, hshape', fun ρ β ht hd => (hsem' ρ β ht hd).cons (hsem ρ β ht hd) ?_⟩
    · rw [List.foldlM_cons, hj]
      exact hjs
    · simp only [hcseen1, mem_slsAdd, forall_eq_or_imp, patOk_constr_eq_false hcs htys hd]
      exact and_comm

/-- The parts of a compiled match have the values of the parts of the selected branch. -/
theorem splitCompiled_ok (sp : Split) (t : Term) {phys : Term → Term → Bool}
    (hphys : ∀ {s t}, phys s t = true → s = t) (hkn : Knows C kn)
    (hform : CompiledForm C ty (sbl.map Prod.fst)) (hr : ∀ b ∈ sbl, SplitShape byso b.2.2)
    (a : Attrs) :
    ∃ r, splitCompiled phys sp kn (.tcase a t (sbl.map fun b => (b.1, b.2.1))) t sbl = .ok r ∧
      SplitShape byso r ∧
      ∀ ρ β, ¬ I.holds ρ β t → I.dom ty (I.val ρ β t) → ∀ b,
        selected I (I.val ρ β t) sbl = some b →
        SplitSound byso (I.holds ρ (I.patVals b.1 (I.val ρ β t) ++ β))
          (I.holds ρ (I.patVals b.1 (I.val ρ β t) ++ β) b.2.1) b.2.2 →
        SplitSound byso (I.holds ρ β)
          (I.holds ρ β (.tcase a t (sbl.map fun b => (b.1, b.2.1)))) r := by
  obtain ⟨ts, tl, rfl, hlen, hpl⟩ := hform.compiledFrom
  have hacc : JoinedShape byso ⟨[], .unit, .unit, .unit⟩ :=
    ⟨zeroOf_unit, zeroOf_unit, zeroOf_unit, fun _ => rfl⟩
  obtain ⟨j, hj, hshape, hsem⟩ := foldlM_joinBranch hkn hlen hpl ⟨[], .unit, .unit, .unit⟩ sbl rfl
    rfl (by simp) hacc fun b hb => ⟨retBelow_joinVars (t := t) hb, hr b hb⟩
  let f := Term.tcase a t (sbl.map fun b => (b.1, b.2.1))
  refine ⟨⟨j.pos, j.neg, caseClose phys f t SplitRet.bwd sbl, caseClose phys f t SplitRet.fwd sbl,
    j.side, false, false⟩, ?_, ⟨hshape.pos, hshape.neg, hshape.side, hshape.unit⟩, ?_⟩
  · simp only [splitCompiled]
    rw [hj]
    rfl
  · intro ρ β ht hd b hb hsound
    have hall := hsem ρ β ht hd
    refine hsound.transfer ?_ ?_ ?_ ?_ (holds_caseClose hphys _ hb) (holds_caseClose hphys _ hb)
    · rw [holds, sem, ← val, semBranches_selected (fun b => b.2.1) hb,
        holds]
    · rw [hall.side]
      simp [conj_unit, hb]
    · rw [hall.pos]
      simp [conj_unit, hb]
    · rw [hall.neg]
      simp [hb]

end Branch

end Join

end Why3
