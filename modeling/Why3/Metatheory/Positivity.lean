import Why3.Core.Decl
import Why3.Metatheory.Unfolding

/-!
Strict positivity of the algebraic types of a known map.

`tsExtractPos` finds the parameters that are negative in an unfolding in which
no symbol is entered inside itself. The check of a declaration is sound as soon
as these are all the negative parameters; a recursive occurrence with permuted
parameters can break this, since its arguments count as positive.
-/
namespace Why3

open List

/-- The unfoldings of a known map: the constructors of its algebraic types, the
left argument of the arrow and the arguments of types without constructors. -/
def knSig (kn : KnownMap) : UnfoldSig where
  fields ts :=
    if ts = tsFunc then []
    else match findConstructors kn ts with
      | .ok cl => cl.flatMap (·.1.lsArgs)
      | .error _ => []
  negArg ts i :=
    if ts = tsFunc then i == 0
    else match findConstructors kn ts with
      | .ok [] => true
      | _ => false

/-! What the computation of signs finds. -/

/-- The argument `i` of `ts` is negative in an acyclic unfolding outside `sts`. -/
def NegPos (S : UnfoldSig) (sts : List TySymbol) (ts : TySymbol) (i : Nat) : Prop :=
  ts ∉ sts ∧ (S.negArg ts i = true ∨
    ∃ w b, ts.tsArgs[i]? = some w ∧ b ∈ S.fields ts ∧ NegIn S true (ts :: sts) w b)

variable {ps : List Bool} {tl : List Ty} {sts : List TySymbol} {ty : Ty} {kn : KnownMap}
  {ts : TySymbol}

section GetTy

variable {pos : TySymbol → Except DeclError (List Bool)}

variable {stv : Finset TvSymbol}

private theorem getTyArgs_spec {stv' : Finset TvSymbol}
    (ih : ∀ t ∈ tl, ∀ s s', getTy pos s t = .ok s' → s ⊆ s')
    (h : getTyArgs pos stv ps tl = .ok stv') : stv ⊆ stv' ∧ ∀ (i : Nat) (a : Ty), tl[i]? = some a →
      (ps[i]? = some true ∧ ∃ s s', getTy pos s a = .ok s' ∧ s' ⊆ stv') ∨
      (ps[i]? = some false ∧ tyFreevars a ⊆ stv') := by
  induction tl generalizing ps stv with
  | nil =>
    cases ps with
    | nil =>
      cases h
      exact ⟨subset_rfl, by simp⟩
    | cons p ps => cases p <;> cases h
  | cons t tl iht =>
    cases ps with
    | nil => cases h
    | cons p ps =>
      have ih' : ∀ t ∈ tl, ∀ s s', getTy pos s t = .ok s' → s ⊆ s' :=
        (forall_mem_cons.mp ih).2
      cases p with
      | true =>
        rw [getTyArgs, Except.bind_eq_ok] at h
        obtain ⟨s, hs, h⟩ := h
        obtain ⟨hsub, hrest⟩ := iht ih' h
        refine ⟨(ih t mem_cons_self stv s hs).trans hsub, ?_⟩
        intro i a hi
        cases i with
        | zero =>
          cases hi
          exact .inl ⟨rfl, stv, s, hs, hsub⟩
        | succ i => exact hrest i a hi
      | false =>
        obtain ⟨hsub, hrest⟩ := iht ih' h
        refine ⟨Finset.subset_union_left.trans hsub, ?_⟩
        intro i a hi
        cases i with
        | zero =>
          cases hi
          exact .inr ⟨rfl, Finset.subset_union_right.trans hsub⟩
        | succ i => exact hrest i a hi

theorem getTy_subset (ty : Ty) (stv stv' : Finset TvSymbol) (h : getTy pos stv ty = .ok stv') :
    stv ⊆ stv' := by
  induction ty using Ty.induct generalizing stv stv' with
  | tyvar v =>
    cases h
    exact subset_rfl
  | tyapp ts tl ih =>
    rw [getTy, Except.bind_eq_ok] at h
    obtain ⟨ps, -, h⟩ := h
    exact (getTyArgs_spec ih h).1

section

variable {S : UnfoldSig}
  (hpos : ∀ {ts ps i}, pos ts = .ok ps → NegPos S sts ts i → ps[i]? ≠ some true)
include hpos

theorem getTy_negIn {v : TvSymbol} {stv' : Finset TvSymbol} (h : getTy pos stv ty = .ok stv')
    (hv : NegIn S true sts v ty) : v ∈ stv' := by
  induction ty using Ty.induct generalizing stv stv' v with
  | tyvar w => cases hv
  | tyapp ts tl ih =>
    rw [getTy, Except.bind_eq_ok] at h
    obtain ⟨ps, hps, h⟩ := h
    have hspec := (getTyArgs_spec (fun t _ => getTy_subset t) h).2
    cases hv with
    | @fixed _ _ _ a _ i hi hn hts hv =>
      have hneg := hpos hps ⟨hts rfl, .inl hn⟩
      obtain ⟨htrue, -⟩ | ⟨-, hsub⟩ := hspec i a hi
      · exact absurd htrue hneg
      · exact hsub hv
    | @param _ _ _ a _ w b i hi hw hts hb hn hv =>
      have hneg := hpos hps ⟨hts rfl, .inr ⟨w, b, hw, hb, hn⟩⟩
      obtain ⟨htrue, -⟩ | ⟨-, hsub⟩ := hspec i a hi
      · exact absurd htrue hneg
      · exact hsub hv
    | @arg _ _ _ a _ i hi hn =>
      obtain ⟨-, s, s', hs, hsub⟩ | ⟨-, hsub⟩ := hspec i a hi
      · exact hsub (ih a (mem_of_getElem? hi) hs hn)
      · exact hsub hn.mem_tyFreevars

theorem foldlM_getTy_negIn {csl : List Constructor} {c : Constructor} {b : Ty} {w : TvSymbol}
    {negs : Finset TvSymbol}
    (h : csl.foldlM (fun acc cs => cs.1.lsArgs.foldlM (getTy pos) acc) stv = .ok negs)
    (hc : c ∈ csl) (hb : b ∈ c.1.lsArgs) (hw : NegIn S true sts w b) : w ∈ negs := by
  have hkeep : ∀ (acc : Finset TvSymbol) (ty : Ty) (acc' : Finset TvSymbol), w ∈ acc →
      getTy pos acc ty = .ok acc' → w ∈ acc' :=
    fun acc ty acc' hw h => getTy_subset ty acc acc' h hw
  apply Except.foldlM_establish (w ∈ ·) h hc
  · intro acc acc' h
    apply Except.foldlM_establish (w ∈ ·) h hb
    · intro acc acc' h
      exact getTy_negIn hpos h hw
    · intro acc ty acc' _
      exact hkeep acc ty acc'
  · intro acc cs acc' _ hw h
    apply Except.foldlM_invariant (w ∈ ·) h hw
    intro acc ty acc' _
    exact hkeep acc ty acc'

end

end GetTy

section

variable {cl : List Constructor} (hf : ts ≠ tsFunc) (h : findConstructors kn ts = .ok cl)
include hf h

theorem knSig_fields_of_ok : (knSig kn).fields ts = cl.flatMap (·.1.lsArgs) := by
  simp [knSig, hf, h]

theorem knSig_negArg_of_ok (i : Nat) : (knSig kn).negArg ts i = cl.isEmpty := by
  cases cl <;> simp [knSig, hf, h]

end

/-- Every parameter negative in an acyclic unfolding is found. -/
theorem tsExtractPosFuel_negPos {fuel : Nat} {i : Nat}
    (h : tsExtractPosFuel kn fuel sts ts = .ok ps) (hn : NegPos (knSig kn) sts ts i) :
    ps[i]? ≠ some true := by
  induction fuel generalizing sts ts ps i with
  | zero => cases h
  | succ fuel ih =>
    obtain ⟨hts, hn⟩ := hn
    rw [tsExtractPosFuel] at h
    by_cases hf : ts = tsFunc
    · rw [if_pos hf] at h
      cases h
      obtain hn | ⟨w, b, -, hb, -⟩ := hn
      · have hi : i = 0 := by simpa [knSig, hf] using hn
        simp [hi]
      · simp [knSig, hf] at hb
    · rw [if_neg hf, if_neg hts, Except.bind_eq_ok] at h
      obtain ⟨csl, hcsl, h⟩ := h
      cases hempty : csl.isEmpty with
      | true =>
        rw [hempty] at h
        cases h
        rw [List.getElem?_map]
        cases ts.tsArgs[i]? <;> simp
      | false =>
        rw [hempty, if_neg (by simp), Except.bind_eq_ok] at h
        obtain ⟨negs, hnegs, h⟩ := h
        cases h
        rw [knSig_negArg_of_ok hf hcsl, hempty] at hn
        obtain hn | ⟨w, b, hw, hb, hneg⟩ := hn
        · cases hn
        · rw [knSig_fields_of_ok hf hcsl] at hb
          obtain ⟨c, hc, hb⟩ := mem_flatMap.mp hb
          have hmem : w ∈ negs := foldlM_getTy_negIn ih hnegs hc hb hneg
          simp [hw, hmem]

/-! The check of a declaration. -/

section CheckTy

variable {pos : TySymbol → Except DeclError (List Bool)} {tss : List TySymbol}

/-- The type passes the check, whatever symbols an error would name. -/
def Checked (pos : TySymbol → Except DeclError (List Bool)) (tss : List TySymbol) (ty : Ty) : Prop :=
  ∃ tys cs, checkTy pos tss tys cs ty = .ok ()

private theorem checkTyArgs_spec {tys : TySymbol} {cs : LSymbol}
    (h : checkTyArgs pos tss tys cs ps tl = .ok ()) {i : Nat} {a : Ty} (hi : tl[i]? = some a) :
    (ps[i]? = some true ∧ checkTy pos tss tys cs a = .ok ()) ∨
      (ps[i]? = some false ∧ tySAny tss.contains a = false) := by
  induction tl generalizing ps i with
  | nil => cases hi
  | cons t tl ih =>
    cases ps with
    | nil => cases h
    | cons p ps =>
      cases p with
      | true =>
        rw [checkTyArgs, Except.bind_eq_ok] at h
        obtain ⟨⟨⟩, ht, h⟩ := h
        cases i with
        | zero =>
          cases hi
          exact .inl ⟨rfl, ht⟩
        | succ i => exact ih h hi
      | false =>
        rw [checkTyArgs] at h
        cases hany : tySAny tss.contains t with
        | true =>
          rw [hany] at h
          cases h
        | false =>
          rw [hany] at h
          cases i with
          | zero =>
            cases hi
            exact .inr ⟨rfl, hany⟩
          | succ i => exact ih h hi

theorem Checked.args (h : Checked pos tss (.tyapp ts tl)) :
    ∃ ps, pos ts = .ok ps ∧ ∀ (i : Nat) (a : Ty), tl[i]? = some a →
      (ps[i]? = some true ∧ Checked pos tss a) ∨
        (ps[i]? = some false ∧ tySAny tss.contains a = false) := by
  obtain ⟨tys, cs, h⟩ := h
  rw [checkTy, Except.bind_eq_ok] at h
  obtain ⟨ps, hps, h⟩ := h
  refine ⟨ps, hps, ?_⟩
  intro i a hi
  obtain ⟨htrue, ha⟩ | hfalse := checkTyArgs_spec h hi
  · exact .inl ⟨htrue, tys, cs, ha⟩
  · exact .inr hfalse

end CheckTy

theorem tySAny_tyInst {pr : TySymbol → Bool} {s : TySubst} (ty : Ty) (hty : tySAny pr ty = false)
    (hs : ∀ v ∈ tyFreevars ty, tySAny pr (tyInst s (.tyvar v)) = false) :
    tySAny pr (tyInst s ty) = false := by
  induction ty using Ty.induct with
  | tyvar v => exact hs v (by simp [tyFreevars])
  | tyapp ts tl ih =>
    simp only [tyInst_tyapp, tySAny, tySAnyList_eq_any, Bool.or_eq_false_iff, any_eq_false,
      Bool.not_eq_true, mem_map] at hty ⊢
    refine ⟨hty.1, ?_⟩
    intro t' ht'
    obtain ⟨t, ht, rfl⟩ := ht'
    apply ih t ht (hty.2 t ht)
    intro v hv
    exact hs v (by simpa [tyFreevars] using ⟨t, ht, hv⟩)

theorem tySAny_tyapp_eq_false {pr : TySymbol → Bool} :
    tySAny pr (.tyapp ts tl) = false ↔ pr ts = false ∧ ∀ t ∈ tl, tySAny pr t = false := by
  simp [tySAny]

section Sound

variable {S : UnfoldSig} (hS : S.WellFormed) {tss : List TySymbol}

/-- A group of symbols that no other symbol unfolds to, with signs that are right
for every parameter and a check that its constructors pass. -/
structure GroupChecked (S : UnfoldSig) (pos : TySymbol → Except DeclError (List Bool))
    (tss : List TySymbol) : Prop where
  outside : ∀ {ts a}, ts ∉ tss → a ∈ S.fields ts → tySAny tss.contains a = false
  inside : ∀ {ts a}, ts ∈ tss → a ∈ S.fields ts → Checked pos tss a
  negArg : ∀ {ts ps i}, pos ts = .ok ps → S.negArg ts i = true → ps[i]? ≠ some true
  negParam : ∀ {ts ps w b} {i : Nat}, pos ts = .ok ps → ts.tsArgs[i]? = some w → b ∈ S.fields ts →
    NegIn S false [] w b → ps[i]? ≠ some true

include hS

theorem Occ.outside {k : Nat} {n : Bool} {u : TySymbol} {ul : List Ty}
    (hout : ∀ {ts a}, ts ∉ tss → a ∈ S.fields ts → tySAny tss.contains a = false)
    (h : Occ S k ty n (.tyapp u ul)) (hwf : tyWf ty = true)
    (hty : tySAny tss.contains ty = false) : u ∉ tss := by
  generalize hu : Ty.tyapp u ul = ty' at h
  induction h with
  | here ty =>
    subst hu
    simpa using (tySAny_tyapp_eq_false.mp hty).1
  | @arg k ts tl a n ty' i hi _ ih =>
    have ha := mem_of_getElem? hi
    exact ih ((tyWf_tyapp.mp hwf).2 a ha) ((tySAny_tyapp_eq_false.mp hty).2 a ha) hu
  | @unfold k ts tl a n ty' ha _ ih =>
    obtain ⟨hts, htl⟩ := tySAny_tyapp_eq_false.mp hty
    apply ih (hS.unfold_wf hwf ha) _ hu
    apply tySAny_tyInst a (hout (by simpa using hts) ha)
    intro v hv
    obtain ⟨i, b, -, hb, heq⟩ :=
      tyInst_tsMatchArgs (tyWf_tyapp.mp hwf).1 (hS.params ha v hv)
    rw [heq]
    exact htl b (mem_of_getElem? hb)

/-- No negative path leads from a checked type to the group. -/
theorem GroupChecked.positive {pos : TySymbol → Except DeclError (List Bool)}
    (hG : GroupChecked S pos tss) {k : Nat} {u : TySymbol} {ul : List Ty} (hty : Checked pos tss ty)
    (hwf : tyWf ty = true) (h : Occ S k ty true (.tyapp u ul)) : u ∉ tss := by
  induction k using Nat.strongRecOn generalizing ty u ul with
  | ind k ih =>
  generalize hn : true = n, hu : Ty.tyapp u ul = ty' at h
  cases h with
  | here ty => cases hn
  | @arg k ts tl a n _ i hi ha =>
    subst hu
    obtain ⟨ps, hps, hargs⟩ := hty.args
    have hwfa := (tyWf_tyapp.mp hwf).2 a (mem_of_getElem? hi)
    obtain ⟨htrue, hchecked⟩ | ⟨-, hany⟩ := hargs i a hi
    · obtain hneg | rfl := Bool.or_eq_true_iff.mp hn.symm
      · exact absurd htrue (hG.negArg hps hneg)
      · exact ih k (by omega) hchecked hwfa ha
    · exact ha.outside hS hG.outside hwfa hany
  | @unfold k ts tl a _ _ ha hk =>
    subst hu hn
    obtain ⟨us, vl, ho, heq⟩ | ⟨k1, k2, n1, n2, w, rfl, hn, h1, h2⟩ :=
      hk.of_tyInst hS (hS.arity ha)
    · -- The occurrence is in the declaration of `ts` itself.
      cases heq
      by_cases hts : ts ∈ tss
      · exact ih k (by omega) (hG.inside hts ha) (hS.arity ha) ho
      · exact ho.outside hS hG.outside (hS.arity ha) (hG.outside hts ha)
    · -- It is in the argument for the parameter `w`.
      have hw : w ∈ tyFreevars a :=
        h1.mem_tyFreevars hS (hS.arity ha) (by simp [tyFreevars])
      obtain ⟨i, b, hi, hb, heq⟩ :=
        tyInst_tsMatchArgs (tyWf_tyapp.mp hwf).1 (hS.params ha w hw)
      rw [heq] at h2
      obtain ⟨ps, hps, hargs⟩ := hty.args
      have hwfb := (tyWf_tyapp.mp hwf).2 b (mem_of_getElem? hb)
      obtain ⟨htrue, hchecked⟩ | ⟨-, hany⟩ := hargs i b hb
      · obtain rfl | rfl := Bool.or_eq_true_iff.mp hn.symm
        · exact absurd htrue (hG.negParam hps hi ha (h1.negIn hS (hS.arity ha)))
        · exact ih k2 (by omega) hchecked hwfb h2
      · exact h2.outside hS hG.outside hwfb hany

end Sound

end Why3
