import Why3.Library.LexKey
import Why3.Metatheory.StoredTyped

/-!
The comparison of well-typed stored terms decides the lexicographic order of keys of their
nameless forms.

The key of a node starts with its type, then come its kind and its parts in the order in
which they are compared.
-/
namespace Why3

open List

namespace Stored

section Keys

variable (U : Session)

def tyKey : Option Ty → List Int
  | none => [0]
  | some ty => [1, U.tyTag ty]

def realKindKey : RealLiteralKind → List Int
  | .rlitUnk => [0]
  | .rlitDec n => [1, n]
  | .rlitHex n => [2, n]

/-- A shorter string comes first. -/
def charsKey : List Nat → List Int
  | [] => [0]
  | c :: l => 1 :: c :: charsKey l

def constKey : Constant → List Int
  | .constInt i => [0, intKindRank i.ilKind, i.ilInt]
  | .constReal r =>
    1 :: (realKindKey r.rlKind ++ [r.rlReal.rvSig, r.rlReal.rvPow2, r.rlReal.rvPow5])
  | .constStr s => 2 :: charsKey (s.toList.map Char.toNat)

mutual
def patKey : NPat → List Int
  | .pwild => [0]
  | .pvar i => [1, i]
  | .papp cs pl => 2 :: cs.lsName.idTag :: patKeyList pl
  | .por p q => 3 :: (patKey p ++ patKey q)
  | .pas p i => 4 :: (patKey p ++ [(i : Int)])
def patKeyList : List NPat → List Int
  | [] => []
  | p :: pl => patKey p ++ patKeyList pl
end

mutual
def nodeKey : NTerm → List Int
  | .bnd i _ => [0, i]
  | .tvar v => [1, v.vsName.idTag]
  | .tconst c _ => 2 :: constKey c
  | .tapp ls tl _ => 3 :: ls.lsName.idTag :: keyList tl
  | .tif f t e =>
    4 :: (tyKey U f.tTy ++ nodeKey f ++ (tyKey U t.tTy ++ nodeKey t ++
      (tyKey U e.tTy ++ nodeKey e)))
  | .tlet t e => 5 :: (tyKey U t.tTy ++ nodeKey t ++ (tyKey U e.tTy ++ nodeKey e))
  | .tcase t bl => 6 :: (tyKey U t.tTy ++ nodeKey t ++ keyBranches bl)
  | .teps _ f => 7 :: (tyKey U f.tTy ++ nodeKey f)
  | .tquant q n f => 8 :: quantRank q :: n :: (tyKey U f.tTy ++ nodeKey f)
  | .tbinop op f g =>
    9 :: binopRank op :: (tyKey U g.tTy ++ nodeKey g ++ (tyKey U f.tTy ++ nodeKey f))
  | .tnot f => 10 :: (tyKey U f.tTy ++ nodeKey f)
  | .ttrue => [11]
  | .tfalse => [12]
def keyList : List NTerm → List Int
  | [] => []
  | t :: tl => tyKey U t.tTy ++ nodeKey t ++ keyList tl
def keyBranches : List (NPat × NTerm) → List Int
  | [] => [0]
  | (p, e) :: bl => 1 :: (patKey p ++ (tyKey U e.tTy ++ nodeKey e ++ keyBranches bl))
end

def key (t : NTerm) : List Int := tyKey U t.tTy ++ nodeKey U t

end Keys

/-- The outcome of a comparison by exceptions of structures with these keys. -/
abbrev Decides {α : Type} (r : Except CompExn α) (l₁ l₂ : List Int) (P : α → Prop) : Prop :=
  Compares CompExn.compLT CompExn.compGT P r l₁ l₂

/-! Orders of the parts. -/

theorem compRaise_then (o1 o2 : Ordering) :
    compRaise (o1.then o2) = compRaise o1 >>= fun _ => compRaise o2 := by
  cases o1 <;> rfl

theorem decides_compare {α : Type} [LinearOrder α] {f : α → Int} (hf : StrictMono f) (a b : α) :
    Decides (compRaise (compare a b)) [f a] [f b] fun _ => a = b := by
  rcases lt_trichotomy a b with h | rfl | h
  · rw [compare_lt_iff_lt.mpr h]
    exact .lt (.head (hf h) _ _)
  · rw [compare_eq_iff_eq.mpr rfl]
    exact .eq _ rfl
  · rw [compare_gt_iff_gt.mpr h]
    exact .gt (.head (hf h) _ _)

theorem decides_int (a b : Int) : Decides (compRaise (compare a b)) [a] [b] fun _ => a = b :=
  decides_compare strictMono_id a b

theorem decides_nat (m n : Nat) :
    Decides (compRaise (compare m n)) [(m : Int)] [(n : Int)] fun _ => m = n :=
  decides_compare (fun _ _ => Int.ofNat_lt.mpr) m n

/-- Different kinds are decided at once. -/
theorem decides_rank {α : Type} {m n : Nat} (hne : m ≠ n) (s1 s2 : List Int)
    (f : Unit → Except CompExn α) (P : α → Prop) :
    Decides (compRaise (compare m n) >>= f) ((m : Int) :: s1) ((n : Int) :: s2) P :=
  (decides_nat m n).bind fun _ he => absurd he hne

theorem decides_oty {U : Session} {o1 o2 : Option Ty} (h1 : ∀ ty, o1 = some ty → U.ty ty)
    (h2 : ∀ ty, o2 = some ty → U.ty ty) :
    Decides (compRaise (otyCompare U.tyTag o1 o2)) (tyKey U o1) (tyKey U o2) fun _ => o1 = o2 := by
  cases o1 with
  | none =>
    cases o2 with
    | none => exact .eq _ rfl
    | some ty2 => exact .lt (.head (by decide) _ _)
  | some ty1 =>
    cases o2 with
    | none => exact .gt (.head (by decide) _ _)
    | some ty2 =>
      refine ((decides_nat _ _).cons 1).imp fun _ he => ?_
      rw [U.ty_inj (h1 ty1 rfl) (h2 ty2 rfl) he]

theorem decides_ls {U : Session} {s1 s2 : LSymbol} (h1 : U.ls s1) (h2 : U.ls s2) :
    Decides (compRaise (lsCompare s1 s2)) [(s1.lsName.idTag : Int)] [(s2.lsName.idTag : Int)]
      fun _ => s1 = s2 :=
  (decides_nat _ _).imp fun _ he => U.ls_inj h1 h2 he

theorem decides_chars (l1 l2 : List Nat) :
    Decides (compRaise (compare l1 l2)) (charsKey l1) (charsKey l2) fun _ => l1 = l2 := by
  induction l1 generalizing l2 with
  | nil =>
    cases l2 with
    | nil => exact .eq _ rfl
    | cons d l2 => exact .lt (.head (by decide) _ _)
  | cons c l1 ih =>
    cases l2 with
    | nil => exact .gt (.head (by decide) _ _)
    | cons d l2 =>
      have hcons : compare (c :: l1) (d :: l2) = (compare c d).then (compare l1 l2) :=
        List.compareLex_cons_cons
      rw [hcons, compRaise_then]
      refine ((decides_nat c d).bind fun _ hc => (ih l2).imp fun _ hl => ?_).cons 1
      rw [hc, hl]

theorem intKindRank_inj {k1 k2 : IntLiteralKind} (h : intKindRank k1 = intKindRank k2) :
    k1 = k2 := by
  cases k1 <;> cases k2 <;> first | rfl | cases h

theorem quantRank_inj {q1 q2 : Quant} (h : quantRank q1 = quantRank q2) : q1 = q2 := by
  cases q1 <;> cases q2 <;> first | rfl | cases h

theorem binopRank_inj {o1 o2 : Binop} (h : binopRank o1 = binopRank o2) : o1 = o2 := by
  cases o1 <;> cases o2 <;> first | rfl | cases h

theorem decides_realKind (k1 k2 : RealLiteralKind) :
    Decides (compRaise (realKindCompare k1 k2)) (realKindKey k1) (realKindKey k2)
      fun _ => k1 = k2 := by
  cases k1 with
  | rlitUnk =>
    cases k2 with
    | rlitUnk => exact .eq _ rfl
    | _ => exact .lt (.head (by decide) _ _)
  | rlitDec n1 =>
    cases k2 with
    | rlitUnk => exact .gt (.head (by decide) _ _)
    | rlitDec n2 => exact ((decides_nat n1 n2).imp fun _ he => he ▸ rfl).cons 1
    | rlitHex n2 => exact .lt (.head (by decide) _ _)
  | rlitHex n1 =>
    cases k2 with
    | rlitHex n2 => exact ((decides_nat n1 n2).imp fun _ he => he ▸ rfl).cons 2
    | _ => exact .gt (.head (by decide) _ _)

theorem decides_const (c1 c2 : Constant) :
    Decides (compRaise (compareConst c1 c2)) (constKey c1) (constKey c2) fun _ => c1 = c2 := by
  cases c1 with
  | constInt i1 =>
    cases c2 with
    | constInt i2 =>
      obtain ⟨k1, n1⟩ := i1
      obtain ⟨k2, n2⟩ := i2
      rw [compareConst, compRaise_then]
      refine ((decides_nat _ _).bind fun _ hk => (decides_int n1 n2).imp fun _ hn => ?_).cons 0
      have hk : k1 = k2 := intKindRank_inj hk
      rw [hk, hn]
    | _ => exact .lt (.head (by decide) _ _)
  | constReal r1 =>
    cases c2 with
    | constInt i2 => exact .gt (.head (by decide) _ _)
    | constReal r2 =>
      obtain ⟨k1, s1, p1, q1⟩ := r1
      obtain ⟨k2, s2, p2, q2⟩ := r2
      rw [compareConst, compareReal, compRaise_then, compRaise_then, compRaise_then]
      refine ((decides_realKind k1 k2).bind fun _ hk => ?_).cons 1
      refine (decides_int s1 s2).bind fun _ hs => ?_
      refine (decides_int p1 p2).bind fun _ hp => ?_
      refine (decides_int q1 q2).imp fun _ hq => ?_
      rw [hk, hs, hp, hq]
    | constStr s2 => exact .lt (.head (by decide) _ _)
  | constStr s1 =>
    cases c2 with
    | constStr s2 =>
      refine ((decides_chars _ _).imp fun _ he => ?_).cons 2
      have hinj : Function.Injective Char.toNat := fun a b h => Char.toNat_inj.mp h
      rw [String.toList_inj.mp (map_injective_iff.mpr hinj he)]
    | _ => exact .gt (.head (by decide) _ _)

/-! Patterns. -/

theorem patKey_levelPat (lev : VSymbol → Nat) (p : Pattern) :
    ∃ s, patKey (levelPat lev p) = (patRank p : Int) :: s := by
  cases p <;> exact ⟨_, rfl⟩

/-- A well-typed pattern on symbols of the session. -/
structure PatOf (C : AlgSig) (U : Session) (p : Pattern) : Prop where
  typed : PatTyped C p
  ls : ∀ cs ∈ patLs p, U.ls cs

section PatOf

variable {C : AlgSig} {U : Session} {cs : LSymbol} {p q : Pattern} {pl : List Pattern} {ty : Ty}

theorem PatOf.length_papp (h : PatOf C U (.papp cs pl ty)) : pl.length = cs.lsArgs.length := by
  obtain ⟨⟨ts, tl, rfl, -, -⟩, hargs, -, -⟩ := h.typed
  rw [← length_map patTy, hargs, constrArgTys, length_map]

theorem PatOf.arg (h : PatOf C U (.papp cs pl ty)) (hp : p ∈ pl) : PatOf C U p :=
  ⟨patTypedList_iff.mp h.typed.2.2.2 p hp,
    fun cs hcs => h.ls cs (mem_cons_of_mem _ (mem_patLsList.mpr ⟨p, hp, hcs⟩))⟩

theorem PatOf.por (h : PatOf C U (.por p q)) : PatOf C U p ∧ PatOf C U q :=
  ⟨⟨h.typed.1, fun cs hcs => h.ls cs (mem_append_left _ hcs)⟩,
    h.typed.2.1, fun cs hcs => h.ls cs (mem_append_right _ hcs)⟩

end PatOf

/-- The variables of a pattern are numbered from `k` on. -/
def NumberedFrom (k : Nat) (lev : VSymbol → Nat) (vl : List VSymbol) : Prop :=
  ∀ i v, vl[i]? = some v → lev v = k + i

section NumberedFrom

variable {k : Nat} {lev : VSymbol → Nat} {vl ul : List VSymbol}

theorem NumberedFrom.left (h : NumberedFrom k lev (vl ++ ul)) : NumberedFrom k lev vl := by
  intro i v hi
  refine h i v ?_
  rw [getElem?_append_left (List.getElem?_eq_some_iff.mp hi).1, hi]

theorem NumberedFrom.right (h : NumberedFrom k lev (vl ++ ul)) :
    NumberedFrom (k + vl.length) lev ul := by
  intro i v hi
  rw [h (vl.length + i) v, Nat.add_assoc]
  rw [getElem?_append_right (Nat.le_add_right _ _), Nat.add_sub_cancel_left, hi]

theorem NumberedFrom.lookup (h : NumberedFrom k lev vl) (bv : Mvs Nat) {v : VSymbol}
    (hv : v ∈ vl) : (addLevels k bv vl).2.lookup v = some (lev v) := by
  obtain ⟨j, hj⟩ := Option.ne_none_iff_exists'.mp (mt lastIdx?_eq_none.mp (not_not.mpr hv))
  rw [lookup_addLevels, hj, h j v (getElem?_lastIdx? hj)]
  rfl

theorem numberedFrom_patLevel {C : AlgSig} {p : Pattern} (hp : PatTyped C p) (k : Nat) :
    NumberedFrom k (patLevel k p) (patVars p) := by
  intro i v hi
  obtain ⟨hlt, rfl⟩ := List.getElem?_eq_some_iff.mp hi
  rw [patLevel, hp.nodup.idxOf_getElem]

end NumberedFrom

section Patterns

variable {C : AlgSig} {U : Session} {lev₁ lev₂ : VSymbol → Nat}

section OrCmp

variable {bv1 bv2 : Mvs Nat}

theorem orCmp_of_rank {p1 p2 : Pattern} (h : patRank p1 ≠ patRank p2) :
    orCmp bv1 bv2 p1 p2 = compRaise (compare (patRank p1) (patRank p2)) := by
  cases p1 <;> cases p2 <;> first | rfl | exact absurd rfl h

theorem findLevel_eq {bv : Mvs Nat} {v : VSymbol} {i : Nat} (h : bv.lookup v = some i) :
    findLevel v bv = .ok i := by
  rw [findLevel, h]

theorem decides_orCmpList {pl1 pl2 : List Pattern} (hlen : pl1.length = pl2.length)
    (h : ∀ p1 ∈ pl1, ∀ p2 ∈ pl2, Decides (orCmp bv1 bv2 p1 p2) (patKey (levelPat lev₁ p1))
      (patKey (levelPat lev₂ p2)) fun _ => levelPat lev₁ p1 = levelPat lev₂ p2) :
    Decides (orCmpList bv1 bv2 pl1 pl2) (patKeyList (levelPatList lev₁ pl1))
      (patKeyList (levelPatList lev₂ pl2)) fun _ => levelPatList lev₁ pl1 = levelPatList lev₂ pl2 := by
  induction pl1, pl2, hlen using ListRec.induct₂ with
  | nil => exact .eq _ rfl
  | cons p1 pl1 p2 pl2 hlen ih =>
    refine (h p1 mem_cons_self p2 mem_cons_self).bind fun _ hp => ?_
    refine (ih fun q1 hq1 q2 hq2 =>
      h q1 (mem_cons_of_mem _ hq1) q2 (mem_cons_of_mem _ hq2)).imp fun _ hpl => ?_
    rw [levelPatList, levelPatList, hp, hpl]

/-- The second branch of an alternative is compared with the levels of the first. -/
theorem decides_orCmp (p1 : Pattern) : ∀ p2, PatOf C U p1 → PatOf C U p2 →
    (∀ v ∈ patVars p1, bv1.lookup v = some (lev₁ v)) →
    (∀ v ∈ patVars p2, bv2.lookup v = some (lev₂ v)) →
    Decides (orCmp bv1 bv2 p1 p2) (patKey (levelPat lev₁ p1)) (patKey (levelPat lev₂ p2))
      fun _ => levelPat lev₁ p1 = levelPat lev₂ p2 := by
  have hrank : ∀ p1 p2, patRank p1 ≠ patRank p2 →
      Decides (orCmp bv1 bv2 p1 p2) (patKey (levelPat lev₁ p1)) (patKey (levelPat lev₂ p2))
        fun _ => levelPat lev₁ p1 = levelPat lev₂ p2 := by
    intro p1 p2 hne
    obtain ⟨s1, h1⟩ := patKey_levelPat lev₁ p1
    obtain ⟨s2, h2⟩ := patKey_levelPat lev₂ p2
    rw [orCmp_of_rank hne, h1, h2, ← bind_pure (compRaise _)]
    exact decides_rank hne s1 s2 pure _
  induction p1 using Pattern.induct with
  | pwild ty1 =>
    intro p2 _ _ _ _
    cases p2 with
    | pwild ty2 => exact .eq _ rfl
    | _ => exact hrank _ _ (by simp [patRank])
  | pvar v1 =>
    intro p2 _ _ hv1 hv2
    cases p2 with
    | pvar v2 =>
      rw [orCmp, findLevel_eq (hv1 v1 mem_cons_self), findLevel_eq (hv2 v2 mem_cons_self)]
      exact ((decides_nat _ _).imp fun _ he => congrArg NPat.pvar he).cons 1
    | _ => exact hrank _ _ (by simp [patRank])
  | papp s1 pl1 ty1 ih =>
    intro p2 hp1 hp2 hv1 hv2
    cases p2 with
    | papp s2 pl2 ty2 =>
      refine ((decides_ls (hp1.ls s1 mem_cons_self) (hp2.ls s2 mem_cons_self)).bind
        fun _ hs => ?_).cons 2
      have hlen : pl1.length = pl2.length := by
        rw [hp1.length_papp, hp2.length_papp, hs]
      have hvars : ∀ {pl : List Pattern} {p : Pattern} {v : VSymbol}, p ∈ pl →
          v ∈ patVars p → v ∈ patVarsList pl := by
        intro pl p v hp hv
        rw [patVarsList_eq_flatMap]
        exact mem_flatMap.mpr ⟨p, hp, hv⟩
      refine (decides_orCmpList hlen fun q1 hq1 q2 hq2 => ?_).imp fun _ hpl => ?_
      · exact ih q1 hq1 q2 (hp1.arg hq1) (hp2.arg hq2)
          (fun v hv => hv1 v (hvars hq1 hv)) (fun v hv => hv2 v (hvars hq2 hv))
      · rw [levelPat, levelPat, hs, hpl]
    | _ => exact hrank _ _ (by simp [patRank])
  | por p1 q1 ihp ihq =>
    intro p2 hp1 hp2 hv1 hv2
    cases p2 with
    | por p2 q2 =>
      refine ((ihp p2 hp1.por.1 hp2.por.1 hv1 hv2).bind fun _ hp => ?_).cons 3
      refine (ihq q2 hp1.por.2 hp2.por.2 (fun v hv => hv1 v ((hp1.typed.2.2.2 v).mpr hv))
        (fun v hv => hv2 v ((hp2.typed.2.2.2 v).mpr hv))).imp fun _ hq => ?_
      rw [levelPat, levelPat, hp, hq]
    | _ => exact hrank _ _ (by simp [patRank])
  | pas p1 v1 ih =>
    intro p2 hp1 hp2 hv1 hv2
    cases p2 with
    | pas p2 v2 =>
      simp only [patVars, mem_append, mem_singleton] at hv1 hv2
      refine ((ih p2 { hp1 with typed := hp1.typed.1 } { hp2 with typed := hp2.typed.1 }
        (fun v hv => hv1 v (.inl hv)) (fun v hv => hv2 v (.inl hv))).bind fun _ hp => ?_).cons 4
      rw [findLevel_eq (hv1 v1 (.inr rfl)), findLevel_eq (hv2 v2 (.inr rfl))]
      refine (decides_nat _ _).imp fun _ hv => ?_
      rw [levelPat, levelPat, hp, hv]
    | _ => exact hrank _ _ (by simp [patRank])

end OrCmp

theorem patCompare_of_rank {st : PatState} {p1 p2 : Pattern} (h : patRank p1 ≠ patRank p2) :
    patCompare st p1 p2 = compRaise (compare (patRank p1) (patRank p2)) >>= fun _ => .ok st := by
  cases p1 <;> cases p2 <;> first | rfl | exact absurd rfl h

/-- The state after the variables `vl₁` and `vl₂` have been numbered. -/
def numbered (st : PatState) (vl₁ vl₂ : List VSymbol) : PatState :=
  (st.1 + vl₁.length, (addLevels st.1 st.2.1 vl₁).2, (addLevels st.1 st.2.2 vl₂).2)

theorem numbered_append (st : PatState) (vl1 vl2 ul1 ul2 : List VSymbol)
    (h : vl1.length = vl2.length) :
    numbered (numbered st vl1 vl2) ul1 ul2 = numbered st (vl1 ++ ul1) (vl2 ++ ul2) := by
  simp only [numbered, addLevels_append, addLevels_fst, length_append, Nat.add_assoc, h]

/-- The patterns are equal up to the names of their variables, which are now numbered. -/
def SamePat (lev₁ lev₂ : VSymbol → Nat) (st : PatState) (p₁ p₂ : Pattern) (st' : PatState) :
    Prop :=
  st' = numbered st (patVars p₁) (patVars p₂) ∧ levelPat lev₁ p₁ = levelPat lev₂ p₂ ∧
    (patVars p₁).length = (patVars p₂).length

theorem decides_patCompareList {pl1 pl2 : List Pattern} {st : PatState}
    (hlen : pl1.length = pl2.length) (hn1 : NumberedFrom st.1 lev₁ (patVarsList pl1))
    (hn2 : NumberedFrom st.1 lev₂ (patVarsList pl2))
    (h : ∀ p1 ∈ pl1, ∀ p2 ∈ pl2, ∀ st : PatState, NumberedFrom st.1 lev₁ (patVars p1) →
      NumberedFrom st.1 lev₂ (patVars p2) →
      Decides (patCompare st p1 p2) (patKey (levelPat lev₁ p1)) (patKey (levelPat lev₂ p2))
        (SamePat lev₁ lev₂ st p1 p2)) :
    Decides (patCompareList st pl1 pl2) (patKeyList (levelPatList lev₁ pl1))
      (patKeyList (levelPatList lev₂ pl2)) fun st' =>
        st' = numbered st (patVarsList pl1) (patVarsList pl2) ∧
          levelPatList lev₁ pl1 = levelPatList lev₂ pl2 ∧
          (patVarsList pl1).length = (patVarsList pl2).length := by
  induction pl1, pl2, hlen using ListRec.induct₂ generalizing st with
  | nil => exact .eq _ ⟨rfl, rfl, rfl⟩
  | cons p1 pl1 p2 pl2 hlen ih =>
    refine (h p1 mem_cons_self p2 mem_cons_self st hn1.left hn2.left).bind
      fun st' ⟨hst, hp, hvars⟩ => ?_
    subst hst
    have hr2 := hn2.right
    rw [← hvars] at hr2
    refine (ih hn1.right hr2 fun q1 hq1 q2 hq2 =>
      h q1 (mem_cons_of_mem _ hq1) q2 (mem_cons_of_mem _ hq2)).imp
      fun st'' ⟨hst, hpl, hlens⟩ => ⟨?_, ?_, ?_⟩
    · rw [hst, numbered_append st _ _ _ _ hvars, patVarsList, patVarsList]
    · rw [levelPatList, levelPatList, hp, hpl]
    · rw [patVarsList, patVarsList, length_append, length_append, hvars, hlens]

theorem bind_numbered (st : PatState) (v1 v2 : VSymbol) :
    st.bind v1 v2 = numbered st [v1] [v2] := rfl

/-- Two patterns are compared while their variables are numbered in parallel. -/
theorem decides_patCompare (p1 : Pattern) : ∀ p2 (st : PatState), PatOf C U p1 →
    PatOf C U p2 → NumberedFrom st.1 lev₁ (patVars p1) → NumberedFrom st.1 lev₂ (patVars p2) →
    Decides (patCompare st p1 p2) (patKey (levelPat lev₁ p1)) (patKey (levelPat lev₂ p2))
      (SamePat lev₁ lev₂ st p1 p2) := by
  have hrank : ∀ p1 p2 (st : PatState), patRank p1 ≠ patRank p2 →
      Decides (patCompare st p1 p2) (patKey (levelPat lev₁ p1)) (patKey (levelPat lev₂ p2))
        (SamePat lev₁ lev₂ st p1 p2) := by
    intro p1 p2 st hne
    obtain ⟨s1, h1⟩ := patKey_levelPat lev₁ p1
    obtain ⟨s2, h2⟩ := patKey_levelPat lev₂ p2
    rw [patCompare_of_rank hne, h1, h2]
    exact decides_rank hne s1 s2 _ _
  induction p1 using Pattern.induct with
  | pwild ty1 =>
    intro p2 st _ _ _ _
    cases p2 with
    | pwild ty2 => exact .eq _ ⟨rfl, rfl, rfl⟩
    | _ => exact hrank _ _ _ (by simp [patRank])
  | pvar v1 =>
    intro p2 st _ _ hn1 hn2
    cases p2 with
    | pvar v2 =>
      have hv : lev₁ v1 = lev₂ v2 := by rw [hn1 0 v1 rfl, hn2 0 v2 rfl]
      rw [levelPat, hv]
      exact .eq _ ⟨rfl, by rw [levelPat, levelPat, hv], rfl⟩
    | _ => exact hrank _ _ _ (by simp [patRank])
  | papp s1 pl1 ty1 ih =>
    intro p2 st hp1 hp2 hn1 hn2
    cases p2 with
    | papp s2 pl2 ty2 =>
      refine ((decides_ls (hp1.ls s1 mem_cons_self) (hp2.ls s2 mem_cons_self)).bind
        fun _ hs => ?_).cons 2
      have hlen : pl1.length = pl2.length := by
        rw [hp1.length_papp, hp2.length_papp, hs]
      refine (decides_patCompareList hlen hn1 hn2 fun q1 hq1 q2 hq2 st => ?_).imp
        fun st' h => ⟨h.1, ?_, h.2.2⟩
      · exact ih q1 hq1 q2 st (hp1.arg hq1) (hp2.arg hq2)
      · rw [levelPat, levelPat, hs, h.2.1]
    | _ => exact hrank _ _ _ (by simp [patRank])
  | por p1 q1 ihp ihq =>
    intro p2 st hp1 hp2 hn1 hn2
    cases p2 with
    | por p2 q2 =>
      refine ((ihp p2 st hp1.por.1 hp2.por.1 hn1 hn2).bind fun st' h => ?_).cons 3
      obtain ⟨rfl, hp, hlens⟩ := h
      have hq : Decides (orCmp _ _ q1 q2) (patKey (levelPat lev₁ q1))
          (patKey (levelPat lev₂ q2)) fun _ => levelPat lev₁ q1 = levelPat lev₂ q2 :=
        decides_orCmp q1 q2 hp1.por.2 hp2.por.2
          (fun v hv => hn1.lookup st.2.1 ((hp1.typed.2.2.2 v).mpr hv))
          (fun v hv => hn2.lookup st.2.2 ((hp2.typed.2.2.2 v).mpr hv))
      refine hq.andThen fun _ hq => ⟨_, rfl, rfl, ?_, hlens⟩
      rw [levelPat, levelPat, hp, hq]
    | _ => exact hrank _ _ _ (by simp [patRank])
  | pas p1 v1 ih =>
    intro p2 st hp1 hp2 hn1 hn2
    cases p2 with
    | pas p2 v2 =>
      refine ((ih p2 st { hp1 with typed := hp1.typed.1 } { hp2 with typed := hp2.typed.1 }
        hn1.left hn2.left).bind fun st' h => ?_).cons 4
      obtain ⟨rfl, hp, hlens⟩ := h
      have hv : lev₁ v1 = lev₂ v2 := by
        rw [hn1.right 0 v1 rfl, hn2.right 0 v2 rfl, hlens]
      rw [hv, bind_numbered, numbered_append st _ _ _ _ hlens]
      refine .eq _ ⟨rfl, by rw [levelPat, levelPat, hp, hv], ?_⟩
      rw [patVars, patVars, length_append, length_append, hlens]
      rfl
    | _ => exact hrank _ _ _ (by simp [patRank])

theorem addVars_eq {vl1 : List VSymbol} : ∀ {vl2 : List VSymbol} (st : PatState),
    addVars st vl1 vl2 = compRaise (compare vl1.length vl2.length) >>= fun _ =>
      .ok (numbered st vl1 vl2) := by
  induction vl1 with
  | nil =>
    intro vl2 st
    cases vl2 with
    | nil => rfl
    | cons v2 vl2 =>
      rfl
  | cons v1 vl1 ih =>
    intro vl2 st
    cases vl2 with
    | nil =>
      rfl
    | cons v2 vl2 =>
      have hcmp : compare (v1 :: vl1).length (v2 :: vl2).length =
          compare vl1.length vl2.length := by
        simp [compare, compareOfLessAndEq]
      have hnum : ∀ {l1 l2 : List VSymbol}, numbered (st.bind v1 v2) l1 l2 =
          numbered st (v1 :: l1) (v2 :: l2) :=
        numbered_append st [v1] [v2] _ _ rfl
      rw [addVars, ih, hcmp, hnum]

theorem decides_addVars (vl1 vl2 : List VSymbol) (st : PatState) :
    Decides (addVars st vl1 vl2) [(vl1.length : Int)] [(vl2.length : Int)] fun st' =>
      st' = numbered st vl1 vl2 ∧ vl1.length = vl2.length := by
  rw [addVars_eq]
  exact (decides_nat _ _).andThen fun _ hlen => ⟨_, rfl, rfl, hlen⟩

end Patterns

/-! Terms. -/

section Terms

variable {C : AlgSig} {U : Session}

/-- A body of a binding, with what the binding puts for its free symbols. -/
structure BodyOf (C : AlgSig) (U : Session) (b : BindInfo STerm) (e : STerm) : Prop where
  subst : SubstTyped b.bvSubst
  terms : ∀ x ∈ b.bvSubst, Typed C U x.2
  body : Typed C U e

/-- A comparison is right on terms whose nameless form has at most `n` nodes. -/
def Right (C : AlgSig) (U : Session)
    (cmp : Nat → List Frame → List Frame → STerm → STerm → Except CompExn Unit) (n : Nat) :
    Prop :=
  ∀ k vml₁ vml₂ t₁ t₂, FramesTyped C U vml₁ → FramesTyped C U vml₂ → Typed C U t₁ →
    Typed C U t₂ → (namelessIn k vml₁ t₁).nodes ≤ n →
    Decides (cmp k vml₁ vml₂ t₁ t₂) (key U (namelessIn k vml₁ t₁)) (key U (namelessIn k vml₂ t₂))
      fun _ => namelessIn k vml₁ t₁ = namelessIn k vml₂ t₂

variable {cmp : Nat → List Frame → List Frame → STerm → STerm → Except CompExn Unit} {n : Nat}
  {k : Nat} {vml₁ vml₂ : List Frame}

section

variable (hcmp : Right C U cmp n) (h1 : FramesTyped C U vml₁) (h2 : FramesTyped C U vml₂)
include hcmp h1 h2

theorem Right.list {tl1 tl2 : List STerm} (hlen : tl1.length = tl2.length)
    (ht1 : ∀ t ∈ tl1, Typed C U t) (ht2 : ∀ t ∈ tl2, Typed C U t)
    (hn : NTerm.nodesList (tl1.map (namelessIn k vml₁)) ≤ n) :
    Decides (compareList cmp k vml₁ vml₂ tl1 tl2) (keyList U (tl1.map (namelessIn k vml₁)))
      (keyList U (tl2.map (namelessIn k vml₂))) fun _ =>
        tl1.map (namelessIn k vml₁) = tl2.map (namelessIn k vml₂) := by
  induction tl1, tl2, hlen using ListRec.induct₂ with
  | nil => exact .eq _ rfl
  | cons t1 tl1 t2 tl2 hlen ih =>
    rw [forall_mem_cons] at ht1 ht2
    rw [map_cons, NTerm.nodesList] at hn
    refine (hcmp k vml₁ vml₂ t1 t2 h1 h2 ht1.1 ht2.1 (by omega)).bind fun _ ht => ?_
    refine (ih ht1.2 ht2.2 (by omega)).imp fun _ htl => ?_
    rw [map_cons, map_cons, ht, htl]

/-- The bodies of two bindings whose symbols have been numbered. -/
theorem Right.body (vl1 vl2 : List VSymbol) {b1 b2 : BindInfo STerm} {e1 e2 : STerm}
    (hb1 : BodyOf C U b1 e1) (hb2 : BodyOf C U b2 e2) (hlen : vl1.length = vl2.length)
    (hn : (bodyIn k vml₁ vl1 b1 e1).nodes ≤ n) :
    Decides (cmp (k + vl1.length) (((addLevels k [] vl1).2, b1.bvSubst) :: vml₁)
        (((addLevels k [] vl2).2, b2.bvSubst) :: vml₂) e1 e2)
      (key U (bodyIn k vml₁ vl1 b1 e1)) (key U (bodyIn k vml₂ vl2 b2 e2)) fun _ =>
        bodyIn k vml₁ vl1 b1 e1 = bodyIn k vml₂ vl2 b2 e2 := by
  have h := hcmp (k + vl1.length) _ _ e1 e2 (h1.cons (addLevels k [] vl1).2 hb1.subst hb1.terms)
    (h2.cons (addLevels k [] vl2).2 hb2.subst hb2.terms) hb1.body hb2.body hn
  rw [bodyIn, bodyIn, ← hlen]
  exact h

theorem Right.branches {bl1 bl2 : List TermBranch}
    (hb1 : ∀ x ∈ bl1, PatOf C U x.1 ∧ BodyOf C U x.2.1 x.2.2)
    (hb2 : ∀ x ∈ bl2, PatOf C U x.1 ∧ BodyOf C U x.2.1 x.2.2) (hn : NTerm.nodesBranches (bl1.map (branchIn k vml₁)) ≤ n) :
    Decides (compareBranches cmp k vml₁ vml₂ bl1 bl2) (keyBranches U (bl1.map (branchIn k vml₁)))
      (keyBranches U (bl2.map (branchIn k vml₂))) fun _ =>
        bl1.map (branchIn k vml₁) = bl2.map (branchIn k vml₂) := by
  induction bl1 generalizing bl2 with
  | nil =>
    cases bl2 with
    | nil => exact .eq _ rfl
    | cons x2 bl2 => exact .lt (.head (by decide) _ _)
  | cons x1 bl1 ih =>
    cases bl2 with
    | nil => exact .gt (.head (by decide) _ _)
    | cons x2 bl2 =>
      obtain ⟨⟨hp1, he1⟩, hb1⟩ := forall_mem_cons.mp hb1
      obtain ⟨⟨hp2, he2⟩, hb2⟩ := forall_mem_cons.mp hb2
      rw [map_cons, branchIn, NTerm.nodesBranches] at hn
      refine ((decides_patCompare x1.1 x2.1 (k, [], []) hp1 hp2
        (numberedFrom_patLevel hp1.typed k) (numberedFrom_patLevel hp2.typed k)).bind
        fun st h => ?_).cons 1
      obtain ⟨rfl, hp, hlen⟩ := h
      refine (hcmp.body (k := k) h1 h2 _ _ he1 he2 hlen (by omega)).bind fun _ he => ?_
      refine (ih hb1 hb2 (by omega)).imp fun _ hbl => ?_
      rw [map_cons, map_cons, hbl, branchIn, branchIn, hp, he]

end

theorem compareNode_of_rank {t1 t2 : STerm} (h : termRank t1 ≠ termRank t2) :
    compareNode cmp k vml₁ vml₂ t1 t2 = compRaise (compare (termRank t1) (termRank t2)) := by
  cases t1 <;> cases t2 <;> first | rfl | exact absurd rfl h

theorem nodeKey_namelessIn {t : STerm} {vml : List Frame} (h : ∀ a v, t = .tvar a v → vml = []) :
    ∃ s, nodeKey U (namelessIn k vml t) = ((termRank t + 1 : Nat) : Int) :: s := by
  cases t with
  | tvar a v =>
    rw [h a v rfl]
    exact ⟨_, rfl⟩
  | _ => exact ⟨_, rfl⟩

theorem vsCompare_eq {v1 v2 : VSymbol} (h1 : U.vs v1) (h2 : U.vs v2) :
    Decides (compRaise (vsCompare v1 v2)) [(v1.vsName.idTag : Int)] [(v2.vsName.idTag : Int)]
      fun _ => v1 = v2 :=
  (decides_nat _ _).imp fun _ he => U.vs_inj h1 h2 he

/-- Two nodes of the same type, when the comparison is right on their parts. -/
theorem Right.node (hcmp : Right C U cmp n) (h1 : FramesTyped C U vml₁)
    (h2 : FramesTyped C U vml₂) {t1 t2 : STerm} (ht1 : Typed C U t1) (ht2 : Typed C U t2)
    (hv1 : ∀ a v, t1 = .tvar a v → vml₁ = []) (hv2 : ∀ a v, t2 = .tvar a v → vml₂ = [])
    (hn : (namelessIn k vml₁ t1).nodes ≤ n + 1)
    (hty : (namelessIn k vml₁ t1).tTy = (namelessIn k vml₂ t2).tTy) :
    Decides (compareNode cmp k vml₁ vml₂ t1 t2) (nodeKey U (namelessIn k vml₁ t1))
      (nodeKey U (namelessIn k vml₂ t2)) fun _ => namelessIn k vml₁ t1 = namelessIn k vml₂ t2 := by
  by_cases hrank : termRank t1 = termRank t2
  swap
  · obtain ⟨s1, hs1⟩ := nodeKey_namelessIn (U := U) (k := k) hv1
    obtain ⟨s2, hs2⟩ := nodeKey_namelessIn (U := U) (k := k) hv2
    have hcmp : compare (termRank t1) (termRank t2) =
        compare (termRank t1 + 1) (termRank t2 + 1) := by
      simp [compare, compareOfLessAndEq]
    rw [compareNode_of_rank hrank, hs1, hs2, hcmp, ← bind_pure (compRaise _)]
    exact decides_rank (by omega) s1 s2 pure _
  cases ht1 with
  | @tvar a1 v1 hvs1 _ =>
    cases ht2 with
    | @tvar a2 v2 hvs2 _ =>
      rw [hv1 a1 v1 rfl, hv2 a2 v2 rfl]
      exact ((vsCompare_eq hvs1 hvs2).imp fun _ he => congrArg NTerm.tvar he).cons 1
    | _ => cases hrank
  | @tconst a1 c1 ty1 _ =>
    cases ht2 with
    | @tconst a2 c2 ty2 _ =>
      refine ((decides_const c1 c2).imp fun _ hc => ?_).cons 2
      cases hty
      rw [hc]
      rfl
    | _ => cases hrank
  | @tapp a1 ls1 tl1 ty1 s1 hls1 _ _ hargs1 _ htl1 =>
    cases ht2 with
    | @tapp a2 ls2 tl2 ty2 s2 hls2 _ _ hargs2 _ htl2 =>
      rw [namelessIn_tapp] at hn hty ⊢
      rw [namelessIn_tapp] at hty ⊢
      rw [NTerm.nodes] at hn
      refine ((decides_ls hls1 hls2).bind fun _ hls => ?_).cons 3
      have hlen : tl1.length = tl2.length := by
        rw [← length_map tTy, hargs1, ← length_map tTy, hargs2, hls]
        simp
      refine (hcmp.list h1 h2 hlen htl1 htl2 (by omega)).imp fun _ htl => ?_
      cases hty
      rw [hls, htl]
    | _ => cases hrank
  | @tif a1 f1 t1 e1 hf1 _ ht1 he1 _ =>
    cases ht2 with
    | @tif a2 f2 t2 e2 hf2 _ ht2 he2 _ =>
      rw [namelessIn_tif, NTerm.nodes] at hn
      refine ((hcmp k vml₁ vml₂ f1 f2 h1 h2 hf1 hf2 (by omega)).bind fun _ hf => ?_).cons 4
      refine (hcmp k vml₁ vml₂ t1 t2 h1 h2 ht1 ht2 (by omega)).bind fun _ ht => ?_
      refine (hcmp k vml₁ vml₂ e1 e2 h1 h2 he1 he2 (by omega)).imp fun _ he => ?_
      rw [namelessIn_tif, namelessIn_tif, hf, ht, he]
    | _ => cases hrank
  | @tlet a1 t1 v1 b1 e1 ht1 _ hs1 hb1 he1 =>
    cases ht2 with
    | @tlet a2 t2 v2 b2 e2 ht2 _ hs2 hb2 he2 =>
      rw [namelessIn_tlet, NTerm.nodes] at hn
      rw [namelessIn_tlet, namelessIn_tlet]
      refine ((hcmp k vml₁ vml₂ t1 t2 h1 h2 ht1 ht2 (by omega)).bind fun _ ht => ?_).cons 5
      refine (hcmp.body h1 h2 [v1] [v2] ⟨hs1, hb1, he1⟩ ⟨hs2, hb2, he2⟩ rfl
        (by omega)).imp fun _ he => ?_
      rw [ht, he]
    | _ => cases hrank
  | @tcase a1 t1 bl1 ty1 ht1 _ _ hp1 hs1 _ hst1 hb1 he1 =>
    cases ht2 with
    | @tcase a2 t2 bl2 ty2 ht2 _ _ hp2 hs2 _ hst2 hb2 he2 =>
      rw [namelessIn_tcase, NTerm.nodes] at hn
      rw [namelessIn_tcase, namelessIn_tcase]
      refine ((hcmp k vml₁ vml₂ t1 t2 h1 h2 ht1 ht2 (by omega)).bind fun _ ht => ?_).cons 6
      refine (hcmp.branches h1 h2
        (fun x hx => ⟨⟨(hp1 x hx).1, hs1 x hx⟩, hst1 x hx, hb1 x hx, he1 x hx⟩)
        (fun x hx => ⟨⟨(hp2 x hx).1, hs2 x hx⟩, hst2 x hx, hb2 x hx, he2 x hx⟩)
        (by omega)).imp fun _ hbl => ?_
      rw [ht, hbl]
    | _ => cases hrank
  | @teps a1 v1 b1 f1 _ hs1 hb1 hf1 _ =>
    cases ht2 with
    | @teps a2 v2 b2 f2 _ hs2 hb2 hf2 _ =>
      rw [namelessIn_teps, NTerm.nodes] at hn
      rw [namelessIn_teps, namelessIn_teps]
      refine ((hcmp.body h1 h2 [v1] [v2] ⟨hs1, hb1, hf1⟩ ⟨hs2, hb2, hf2⟩ rfl
        (by omega)).imp fun _ hf => ?_).cons 7
      rw [Option.some.inj hty, hf]
    | _ => cases hrank
  | @tquant a1 q1 vl1 b1 tr1 f1 hs1 hb1 hf1 _ =>
    cases ht2 with
    | @tquant a2 q2 vl2 b2 tr2 f2 hs2 hb2 hf2 _ =>
      rw [namelessIn_tquant, NTerm.nodes] at hn
      rw [namelessIn_tquant, namelessIn_tquant]
      refine ((decides_nat _ _).bind fun _ hq => ?_).cons 8
      refine (decides_addVars vl1 vl2 (k, [], [])).bind fun st h => ?_
      obtain ⟨rfl, hlen⟩ := h
      refine (hcmp.body (k := k) h1 h2 vl1 vl2 ⟨hs1, hb1, hf1⟩ ⟨hs2, hb2, hf2⟩ hlen
        (by omega)).imp fun _ hf => ?_
      rw [quantRank_inj hq, hlen, hf]
    | _ => cases hrank
  | @tbinop a1 op1 f1 g1 hf1 _ hg1 _ =>
    cases ht2 with
    | @tbinop a2 op2 f2 g2 hf2 _ hg2 _ =>
      rw [namelessIn_tbinop, NTerm.nodes] at hn
      refine ((decides_nat _ _).bind fun _ hop => ?_).cons 9
      refine (hcmp k vml₁ vml₂ g1 g2 h1 h2 hg1 hg2 (by omega)).bind fun _ hg => ?_
      refine (hcmp k vml₁ vml₂ f1 f2 h1 h2 hf1 hf2 (by omega)).imp fun _ hf => ?_
      rw [namelessIn_tbinop, namelessIn_tbinop, binopRank_inj hop, hf, hg]
    | _ => cases hrank
  | @tnot a1 f1 hf1 _ =>
    cases ht2 with
    | @tnot a2 f2 hf2 _ =>
      rw [namelessIn_tnot, NTerm.nodes] at hn
      refine ((hcmp k vml₁ vml₂ f1 f2 h1 h2 hf1 hf2 (by omega)).imp fun _ hf => ?_).cons 10
      rw [namelessIn_tnot, namelessIn_tnot, hf]
    | _ => cases hrank
  | ttrue a1 =>
    cases ht2 with
    | ttrue a2 => exact .eq _ rfl
    | _ => cases hrank
  | tfalse a1 =>
    cases ht2 with
    | tfalse a2 => exact .eq _ rfl
    | _ => cases hrank

/-- With enough fuel the comparison decides the order of the keys. -/
theorem tCompareRec_right {phys : STerm → STerm → Bool}
    (hphys : ∀ s t, phys s t = true → s = t) (n : Nat) :
    Right C U (tCompareRec phys U.tyTag n) n := by
  induction n with
  | zero =>
    intro k vml₁ vml₂ t1 t2 _ _ _ _ hn
    have hpos : 0 < (namelessIn k vml₁ t1).nodes := by
      cases namelessIn k vml₁ t1 <;> simp [NTerm.nodes]
    omega
  | succ n ih =>
    intro k vml₁ vml₂ t1 t2 h1 h2 ht1 ht2 hn
    rw [tCompareRec]
    split
    next hshared =>
      simp only [Bool.and_eq_true, List.isEmpty_iff] at hshared
      obtain ⟨⟨hp, rfl⟩, rfl⟩ := hshared
      rw [hphys t1 t2 hp]
      exact .eq _ rfl
    next =>
      rw [key, key, h1.tTy_namelessIn ht1, h2.tTy_namelessIn ht2]
      refine (decides_oty (fun _ h => ht1.ty_mem h) (fun _ h => ht2.ty_mem h)).bind
        fun _ hty => ?_
      rw [← h1.tTy_namelessIn ht1 k, ← h2.tTy_namelessIn ht2 k] at hty
      rcases descend_cases h1 ht1 with ⟨i1, ty1, hd1, hi1⟩ | ⟨t1', vml1', hd1, hf1, htt1, hi1, hv1⟩
      · rcases descend_cases h2 ht2 with
          ⟨i2, ty2, hd2, hi2⟩ | ⟨t2', vml2', hd2, hf2, htt2, hi2, hv2⟩
        · rw [hi1, hi2] at hty
          rw [hd1, hd2, hi1, hi2]
          refine ((decides_nat i1 i2).imp fun _ hi => ?_).cons 0
          rw [hi, Option.some.inj hty]
        · obtain ⟨s, hs⟩ := nodeKey_namelessIn (U := U) (k := k) hv2
          rw [hd1, hd2, hi1, hi2, hs]
          exact .lt (.head (by omega) _ _)
      · rcases descend_cases h2 ht2 with
          ⟨i2, ty2, hd2, hi2⟩ | ⟨t2', vml2', hd2, hf2, htt2, hi2, hv2⟩
        · obtain ⟨s, hs⟩ := nodeKey_namelessIn (U := U) (k := k) hv1
          rw [hd1, hd2, hi1, hi2, hs]
          exact .gt (.head (by omega) _ _)
        · rw [hi1] at hn
          rw [hi1, hi2] at hty
          rw [hd1, hd2, hi1, hi2]
          exact ih.node hf1 hf2 htt1 htt2 hv1 hv2 hn hty

end Terms

end Stored
end Why3
