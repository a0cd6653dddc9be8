import Why3.Metatheory.TermCompare

/-!
The hash of a well-typed stored term is a function of its nameless form.
-/
namespace Why3
namespace Stored

open List

mutual
def hashNPat : NPat → Int63
  | .pwild => 0
  | .pvar i => BitVec.ofNat 63 (i + 1)
  | .papp cs pl => hashNPatList (lsHash cs) pl
  | .por p q => hashCombine (hashNPat p) (hashNPat q)
  | .pas p i => hashCombine (hashNPat p) (BitVec.ofNat 63 (i + 1))
def hashNPatList (acc : Int63) : List NPat → Int63
  | [] => acc
  | p :: pl => hashNPatList (hashCombine acc (hashNPat p)) pl
end

section Hash

variable (H : HashFns) (tyTag : Ty → Nat)

mutual
def nodeHash : NTerm → Int63
  | .bnd i _ => BitVec.ofNat 63 (i + 1)
  | .tvar v => vsHash v
  | .tconst c _ => H.const c
  | .tapp ls tl _ => hashNList (lsHash ls) tl
  | .tif f t e =>
    hashCombine2 (hashCombine (otyHash tyTag f.tTy) (nodeHash f))
      (hashCombine (otyHash tyTag t.tTy) (nodeHash t))
      (hashCombine (otyHash tyTag e.tTy) (nodeHash e))
  | .tlet t e =>
    hashCombine (hashCombine (otyHash tyTag t.tTy) (nodeHash t))
      (hashCombine (otyHash tyTag e.tTy) (nodeHash e))
  | .tcase t bl => hashNBranches (hashCombine (otyHash tyTag t.tTy) (nodeHash t)) bl
  | .teps _ f => hashCombine (otyHash tyTag f.tTy) (nodeHash f)
  | .tquant q _ f => hashCombine (H.quant q) (hashCombine (otyHash tyTag f.tTy) (nodeHash f))
  | .tbinop op f g =>
    hashCombine2 (H.binop op) (hashCombine (otyHash tyTag f.tTy) (nodeHash f))
      (hashCombine (otyHash tyTag g.tTy) (nodeHash g))
  | .tnot f => hashCombine 1 (hashCombine (otyHash tyTag f.tTy) (nodeHash f))
  | .ttrue => 2
  | .tfalse => 3
def hashNList (acc : Int63) : List NTerm → Int63
  | [] => acc
  | t :: tl => hashNList (hashCombine acc (hashCombine (otyHash tyTag t.tTy) (nodeHash t))) tl
def hashNBranches (acc : Int63) : List (NPat × NTerm) → Int63
  | [] => acc
  | (p, e) :: bl =>
    hashNBranches (hashCombine acc (hashCombine (hashNPat p)
      (hashCombine (otyHash tyTag e.tTy) (nodeHash e)))) bl
end

def hashN (t : NTerm) : Int63 := hashCombine (otyHash tyTag t.tTy) (nodeHash H tyTag t)

end Hash

/-! Patterns. -/

section Patterns

variable {C : AlgSig} {lev : VSymbol → Nat}

theorem orHash_eq {bv : Mvs Nat} (p : Pattern) : PatTyped C p →
    (∀ v ∈ patVars p, bv.lookup v = some (lev v)) →
    orHash bv p = .ok (hashNPat (levelPat lev p)) := by
  induction p using Pattern.induct with
  | pwild ty => exact fun _ _ => rfl
  | pvar v =>
    intro _ hv
    rw [orHash, findLevel_eq (hv v mem_cons_self)]
    rfl
  | papp cs pl ty ih =>
    intro hp hv
    have hpl := patTypedList_iff.mp hp.2.2.2
    rw [patVars, patVarsList_eq_flatMap] at hv
    rw [orHash, levelPat, hashNPat]
    generalize lsHash cs = acc
    clear hp
    induction pl generalizing acc with
    | nil => rfl
    | cons p pl ihl =>
      rw [forall_mem_cons] at hpl
      rw [flatMap_cons, forall_mem_append] at hv
      rw [orHashList, ih p mem_cons_self hpl.1 hv.1]
      exact ihl (forall_mem_cons.mp ih).2 hv.2 hpl.2 _
  | por p q ihp ihq =>
    intro hp hv
    rw [orHash, ihp hp.1 hv, ihq hp.2.1 fun v h => hv v ((hp.2.2.2 v).mpr h)]
    rfl
  | pas p v ih =>
    intro hp hv
    rw [patVars, forall_mem_append] at hv
    rw [orHash, ih hp.1 hv.1, findLevel_eq (hv.2 v mem_cons_self)]
    rfl

theorem patHash_eq (p : Pattern) : ∀ (k : Nat) (bv : Mvs Nat), PatTyped C p →
    NumberedFrom k lev (patVars p) →
    patHash k bv p = .ok (k + (patVars p).length, (addLevels k bv (patVars p)).2,
      hashNPat (levelPat lev p)) := by
  induction p using Pattern.induct with
  | pwild ty => exact fun _ _ _ _ => rfl
  | pvar v =>
    intro k bv _ hn
    rw [levelPat, hn 0 v rfl]
    rfl
  | papp cs pl ty ih =>
    intro k bv hp hn
    have hpl := patTypedList_iff.mp hp.2.2.2
    rw [patVars] at hn ⊢
    rw [patHash, levelPat, hashNPat]
    generalize lsHash cs = acc
    clear hp
    induction pl generalizing k bv acc with
    | nil => rfl
    | cons p pl ihl =>
      rw [forall_mem_cons] at hpl
      rw [patHashList, ih p mem_cons_self k bv hpl.1 hn.left]
      refine (ihl (forall_mem_cons.mp ih).2 _ _ hn.right hpl.2 _).trans ?_
      rw [patVarsList, length_append, addLevels_append, addLevels_fst, Nat.add_assoc]
      rfl
  | por p q ihp ihq =>
    intro k bv hp hn
    rw [patVars] at hn ⊢
    rw [patHash, ihp k bv hp.1 hn]
    change orHash (addLevels k bv (patVars p)).2 q >>= _ = _
    rw [orHash_eq q hp.2.1 fun v hv => hn.lookup bv ((hp.2.2.2 v).mpr hv)]
    rfl
  | pas p v ih =>
    intro k bv hp hn
    rw [patHash, ih k bv hp.1 hn.left, patVars, length_append, addLevels_append,
      addLevels_fst, levelPat, hn.right 0 v rfl]
    rfl

end Patterns

/-! Terms. -/

section Terms

variable {C : AlgSig} {U : Session} {H : HashFns}

/-- A hash function is right on terms whose nameless form has at most `n` nodes. -/
def HashRight (C : AlgSig) (U : Session) (H : HashFns)
    (hash : Nat → List Frame → STerm → Except CompExn Int63) (n : Nat) : Prop :=
  ∀ k vml t, FramesTyped C U vml → Typed C U t → (namelessIn k vml t).nodes ≤ n →
    hash k vml t = .ok (hashN H U.tyTag (namelessIn k vml t))

variable {hash : Nat → List Frame → STerm → Except CompExn Int63} {n k : Nat} {vml : List Frame}

section

variable (h : HashRight C U H hash n) (hvml : FramesTyped C U vml)
include h hvml

theorem HashRight.list {tl : List STerm} (ht : ∀ t ∈ tl, Typed C U t) (acc : Int63)
    (hn : NTerm.nodesList (tl.map (namelessIn k vml)) ≤ n) : hashList hash k vml acc tl =
      .ok (hashNList H U.tyTag acc (tl.map (namelessIn k vml))) := by
  induction tl generalizing acc with
  | nil => rfl
  | cons t tl ih =>
    rw [forall_mem_cons] at ht
    rw [map_cons, NTerm.nodesList] at hn
    rw [hashList, h k vml t hvml ht.1 (by omega)]
    exact ih ht.2 _ (by omega)

theorem HashRight.body (vl : List VSymbol) {b : BindInfo STerm} {e : STerm}
    (hb : SubstTyped b.bvSubst) (ht : ∀ x ∈ b.bvSubst, Typed C U x.2) (he : Typed C U e)
    (hn : (bodyIn k vml vl b e).nodes ≤ n) :
    hash (k + vl.length) (((addLevels k [] vl).2, b.bvSubst) :: vml) e =
      .ok (hashN H U.tyTag (bodyIn k vml vl b e)) :=
  h _ _ _ (hvml.cons _ hb ht) he hn

theorem HashRight.branches {bl : List TermBranch} (hp : ∀ x ∈ bl, PatTyped C x.1)
    (hb : ∀ x ∈ bl, SubstTyped x.2.1.bvSubst) (ht : ∀ x ∈ bl, ∀ y ∈ x.2.1.bvSubst, Typed C U y.2)
    (he : ∀ x ∈ bl, Typed C U x.2.2) (acc : Int63)
    (hn : NTerm.nodesBranches (bl.map (branchIn k vml)) ≤ n) : hashBranches hash k vml acc bl =
      .ok (hashNBranches H U.tyTag acc (bl.map (branchIn k vml))) := by
  induction bl generalizing acc with
  | nil => rfl
  | cons x bl ih =>
    rw [forall_mem_cons] at hp hb ht he
    rw [map_cons, branchIn, NTerm.nodesBranches] at hn
    rw [hashBranches, patHash_eq x.1 k [] hp.1 (numberedFrom_patLevel hp.1 k)]
    change hash (k + (patVars x.1).length)
      (((addLevels k [] (patVars x.1)).2, x.2.1.bvSubst) :: vml) x.2.2 >>= _ = _
    rw [h.body hvml (patVars x.1) hb.1 ht.1 he.1 (by omega)]
    exact ih hp.2 hb.2 ht.2 he.2 _ (by omega)

theorem HashRight.node {t : STerm} (ht : Typed C U t) (hv : ∀ a v, t = .tvar a v → vml = [])
    (hn : (namelessIn k vml t).nodes ≤ n + 1) :
    hashNode H hash k vml t = .ok (nodeHash H U.tyTag (namelessIn k vml t)) := by
  cases ht with
  | @tvar a v _ _ =>
    rw [hv a v rfl]
    rfl
  | tconst a c _ => rfl
  | @tapp a ls tl ty s _ _ _ _ _ htl =>
    rw [namelessIn_tapp, NTerm.nodes] at hn
    rw [namelessIn_tapp, hashNode, h.list hvml htl _ (by omega)]
    rfl
  | @tif a f t e hf _ ht he _ =>
    rw [namelessIn_tif, NTerm.nodes] at hn
    rw [hashNode, h k vml f hvml hf (by omega), h k vml t hvml ht (by omega),
      h k vml e hvml he (by omega)]
    rfl
  | @tlet a t v b e ht _ hs hb he =>
    rw [namelessIn_tlet, NTerm.nodes] at hn
    have hbody := h.body (k := k) hvml [v] hs hb he (by omega)
    rw [namelessIn_tlet, hashNode, h k vml t hvml ht (by omega)]
    change hash (k + [v].length) (((addLevels k [] [v]).2, b.bvSubst) :: vml) e >>= _ = _
    rw [hbody]
    rfl
  | @tcase a t bl ty ht _ _ hp _ _ hs hb he =>
    rw [namelessIn_tcase, NTerm.nodes] at hn
    rw [namelessIn_tcase, hashNode, h k vml t hvml ht (by omega)]
    exact h.branches hvml (fun x hx => (hp x hx).1) hs hb he _ (by omega)
  | @teps a v b f _ hs hb hf _ =>
    rw [namelessIn_teps, NTerm.nodes] at hn
    rw [namelessIn_teps]
    exact h.body (k := k) hvml [v] hs hb hf (by omega)
  | @tquant a q vl b tr f hs hb hf _ =>
    rw [namelessIn_tquant, NTerm.nodes] at hn
    have hbody := h.body (k := k) hvml vl hs hb hf (by omega)
    rw [namelessIn_tquant, hashNode]
    simp only [addLevels_fst]
    rw [hbody]
    rfl
  | @tbinop a op f g hf _ hg _ =>
    rw [namelessIn_tbinop, NTerm.nodes] at hn
    rw [hashNode, h k vml f hvml hf (by omega), h k vml g hvml hg (by omega)]
    rfl
  | @tnot a f hf _ =>
    rw [namelessIn_tnot, NTerm.nodes] at hn
    rw [hashNode, h k vml f hvml hf (by omega)]
    rfl
  | ttrue a => rfl
  | tfalse a => rfl

end

theorem tHashRec_right (n : Nat) : HashRight C U H (tHashRec H U.tyTag n) n := by
  induction n with
  | zero =>
    intro k vml t _ _ hn
    have hpos : 0 < (namelessIn k vml t).nodes := by
      cases namelessIn k vml t <;> simp [NTerm.nodes]
    omega
  | succ n ih =>
    intro k vml t hvml ht hn
    rw [tHashRec, hashN, hvml.tTy_namelessIn ht k]
    rcases descend_cases hvml ht with ⟨i, ty, hd, hi⟩ | ⟨t', vml', hd, hf, htt, hi, hv⟩
    · rw [hd, hi]
      rfl
    · rw [hi] at hn ⊢
      rw [hd]
      change hashNode H (tHashRec H U.tyTag n) k vml' t' >>= _ = _
      rw [ih.node hf htt hv hn]
      rfl

end Terms

end Stored
end Why3
