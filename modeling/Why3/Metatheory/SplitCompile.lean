import Why3.Metatheory.SplitMatch

/-!
The compilation of a match before it is split.

The compiled formula has the meaning of the match and is again ready to be split.
It has fewer matches that are still to be compiled, one below the other, so the
splitting returns.
-/
namespace Why3

open M
open List

/-! The matches of a formula that are marked as compiled have the form that the
compilation gives them. -/

mutual
def CompiledMatches (C : AlgSig) : Term → Prop
  | .tif _ f t e => CompiledMatches C f ∧ CompiledMatches C t ∧ CompiledMatches C e
  | .tlet _ _ _ e => CompiledMatches C e
  | .tcase a t bl =>
    (compiledAttr ∈ a → ∃ ty, t.tTy = some ty ∧ CompiledForm C ty (bl.map Prod.fst)) ∧
      CompiledMatchesBranches C bl
  | .tquant _ _ _ _ f => CompiledMatches C f
  | .tbinop _ _ f g => CompiledMatches C f ∧ CompiledMatches C g
  | .tnot _ f => CompiledMatches C f
  | .tvar _ _ | .bvar _ _ _ | .tconst _ _ _ | .tapp _ _ _ _ | .teps _ _ _ | .ttrue _
  | .tfalse _ => True
def CompiledMatchesBranches (C : AlgSig) : List (Pattern × Term) → Prop
  | [] => True
  | (_, e) :: bl => CompiledMatches C e ∧ CompiledMatchesBranches C bl
end

variable {bl : List (Pattern × Term)} {n : Nat}

section

variable {C : AlgSig} {Q : CaseCond}

@[simp] theorem compiledMatchesBranches_iff :
    CompiledMatchesBranches C bl ↔ ∀ b ∈ bl, CompiledMatches C b.2 := by
  induction bl with
  | nil => simp [CompiledMatchesBranches]
  | cons b bl ih => simp [CompiledMatchesBranches, ih]

theorem caseDepthBranches_le :
    caseDepthBranches bl ≤ n ↔ ∀ b ∈ bl, caseDepth b.2 ≤ n := by
  induction bl with
  | nil => simp [caseDepthBranches]
  | cons b bl ih => simp [caseDepthBranches, ih]

/-- A formula that can be split, with at most `n` matches to compile one below the
other. -/
structure SplitReady (C : AlgSig) (Q : CaseCond) (Γ : List Ty) (n : Nat) (f : Term) : Prop where
  typed : WellTyped C Q Γ f
  fmla : f.tTy = none
  form : CompiledMatches C f
  depth : caseDepth f ≤ n

variable {Γ : List Ty}

variable {Γ' : List Ty} {fv : Nat → Attrs → VSymbol → Term} {bv : Nat → Attrs → Nat → Ty → Term}
  (h : TypedMap C Q Γ Γ' fv bv)

include h in
/-- The matches of a formula are not those of the terms that replace its variables. -/
theorem TypedMap.matches (f : Term) :
    ∀ Δ n, WellTyped C Q (Δ ++ Γ) f → f.tTy = none → CompiledMatches C f → caseDepth f ≤ n →
      CompiledMatches C (f.mapVars fv bv Δ.length) ∧
        caseDepth (f.mapVars fv bv Δ.length) ≤ n := by
  induction f using Term.induct with
  | tif a f t e hf ht he =>
    rintro Δ n ⟨⟨hwf, hfty⟩, hwt, hwe, hty⟩ hno ⟨hcf, hct, hce⟩ hn
    simp only [caseDepth, max_le_iff] at hn
    obtain ⟨hcf, hdf⟩ := hf Δ n hwf hfty hcf hn.1
    obtain ⟨hct, hdt⟩ := ht Δ n hwt hno hct hn.2.1
    obtain ⟨hce, hde⟩ := he Δ n hwe (hty ▸ hno) hce hn.2.2
    exact ⟨⟨hcf, hct, hce⟩, by simp only [Term.mapVars, caseDepth, max_le_iff]; exact ⟨hdf, hdt, hde⟩⟩
  | tlet a t v e ht he =>
    rintro Δ n ⟨_, hwe⟩ hno hc hn
    exact he (v.vsTy :: Δ) n hwe hno hc hn
  | tcase a t bl ht hbl =>
    rintro Δ n ⟨hwt, _, ⟨_, htys⟩, hwb⟩ hno ⟨hform, hcb⟩ hn
    rw [wellTypedBranches_iff] at hwb
    rw [compiledMatchesBranches_iff] at hcb
    have hb : ∀ m, caseDepthBranches bl ≤ m → ∀ b ∈ bl,
        CompiledMatches C (b.2.mapVars fv bv (Δ.length + (patVars b.1).length)) ∧
          caseDepth (b.2.mapVars fv bv (Δ.length + (patVars b.1).length)) ≤ m := by
      intro m hm b hb
      have := hbl b hb ((patVars b.1).map VSymbol.vsTy ++ Δ) m
      rw [length_append, length_map, append_assoc, Nat.add_comm] at this
      exact this (hwb b hb) ((htys b hb).trans hno) (hcb b hb) (caseDepthBranches_le.mp hm b hb)
    simp only [Term.mapVars, Term.mapVarsBranches_eq_map, CompiledMatches,
      compiledMatchesBranches_iff]
    refine ⟨⟨?_, ?_⟩, ?_⟩
    · intro ha
      obtain ⟨ty, hty, hcf⟩ := hform ha
      refine ⟨ty, (h.wellTyped t Δ hwt).2.trans hty, ?_⟩
      rw [map_map]
      exact hcf
    · refine forall_mem_map.mpr fun b hmem => ?_
      exact (hb _ le_rfl b hmem).1
    · have hle : caseDepthBranches (bl.map fun b =>
          (b.1, b.2.mapVars fv bv (Δ.length + (patVars b.1).length))) ≤ caseDepthBranches bl := by
        rw [caseDepthBranches_le]
        refine forall_mem_map.mpr fun b hmem => ?_
        exact (hb _ le_rfl b hmem).2
      simp only [caseDepth] at hn ⊢
      omega
  | tquant a q vl tr f htr hf =>
    rintro Δ n ⟨hwf, hfty⟩ _ hc hn
    have := hf (vl.map VSymbol.vsTy ++ Δ) n
    rw [length_append, length_map, append_assoc, Nat.add_comm] at this
    exact this hwf hfty hc hn
  | tbinop a op f g hf hg =>
    rintro Δ n ⟨⟨hwf, hfty⟩, hwg, hgty⟩ _ ⟨hcf, hcg⟩ hn
    simp only [caseDepth, max_le_iff] at hn
    obtain ⟨hcf, hdf⟩ := hf Δ n hwf hfty hcf hn.1
    obtain ⟨hcg, hdg⟩ := hg Δ n hwg hgty hcg hn.2
    exact ⟨⟨hcf, hcg⟩, by simp only [Term.mapVars, caseDepth, max_le_iff]; exact ⟨hdf, hdg⟩⟩
  | tnot a f hf =>
    rintro Δ n ⟨hwf, hfty⟩ _ hc hn
    exact hf Δ n hwf hfty hc hn
  | tapp a ls tl ty ih | ttrue a | tfalse a => exact fun Δ n _ _ _ hn => ⟨trivial, hn⟩
  | _ => intro Δ n _ hno; cases hno

variable {f : Term}

include h in
theorem TypedMap.splitReady (hf : SplitReady C Q Γ n f)
    : SplitReady C Q Γ' n (f.mapVars fv bv 0) := by
  obtain ⟨htyped, hty⟩ := h.wellTyped f [] hf.typed
  obtain ⟨hform, hdepth⟩ := h.matches f [] n hf.typed hf.fmla hf.form hf.depth
  exact ⟨htyped, hty.trans hf.fmla, hform, hdepth⟩

theorem SplitReady.tLetCloseSimp {s : Term} {v : VSymbol} (hs : WellTyped C Q Γ s)
    (hv : s.tTy = some v.vsTy) (hf : SplitReady C Q Γ n f) :
    SplitReady C Q Γ n (tLetCloseSimp v s f) := by
  rw [Why3.tLetCloseSimp]
  split
  · exact hf
  · split
    · exact (typedMap_tSubstSingle hv hs).splitReady hf
    · have hc := (typedMap_close [v]).splitReady hf
      exact ⟨⟨⟨hs, hv⟩, hc.typed⟩, hc.fmla, hc.form, hc.depth⟩

/-- Other attributes than the mark do not matter. -/
theorem SplitReady.setAttrs {a : Attrs} (hf : SplitReady C Q Γ n f)
    (ha : compiledAttr ∈ a ↔ compiledAttr ∈ f.attrs) : SplitReady C Q Γ n (f.setAttrs a) := by
  refine ⟨wellTyped_setAttrs.mpr hf.typed, (tTy_setAttrs f a).trans hf.fmla, ?_, ?_⟩
  · have hform := hf.form
    cases f with
    | tcase b t bl => exact ⟨fun hmem => hform.1 (ha.mp hmem), hform.2⟩
    | _ => exact hform
  · have hdepth := hf.depth
    cases f with
    | tcase b t bl =>
      rw [Term.setAttrs, caseDepth, if_congr ha rfl rfl]
      exact hdepth
    | _ => exact hdepth

end

section

variable {C : AlgSig} {D : Type} {I : Interp C D} {ρ : VSymbol → D} {β : List D}

section Action

variable {Γ : List Ty}

variable {ty : Ty} {b : Pattern × Term} {t : Term}

theorem sem_splitMkCase (ρ : VSymbol → D) (hd : I.dom ty (I.val ρ β t))
    (hform : CompiledForm C ty (bl.map Prod.fst)) : some (I.sem ρ β (splitMkCase t bl)) =
      I.rowsSem (fun ρ a => I.sem ρ β a) ρ [I.val ρ β t] (bl.map fun b => ([b.1], b.2)) := by
  exact sem_tCaseClose ρ hd hform

theorem tTy_splitMkCase (hne : bl ≠ []) (hbl : ∀ b ∈ bl, SplitReady C I.Exhaustive Γ n b.2)
    : (splitMkCase t bl).tTy = none := by
  cases bl with
  | nil => exact absurd rfl hne
  | cons b bl =>
    have hb := hbl b mem_cons_self
    exact (hb.typed.close (patVars b.1)).2.trans hb.fmla

theorem splitReady_splitMkCase (ht : WellTyped C I.Exhaustive Γ t) (hty : t.tTy = some ty)
    (hform : CompiledForm C ty (bl.map Prod.fst))
    (hbl : ∀ b ∈ bl, SplitReady C I.Exhaustive Γ n b.2) :
    SplitReady C I.Exhaustive Γ n (splitMkCase t bl) := by
  have hne : bl ≠ [] := by
    obtain ⟨p, hp, -⟩ := hform.exhaustive (I := I) _ (I.witness_dom ty)
    rintro rfl
    cases hp
  have htTy := tTy_splitMkCase (t := t) hne hbl
  have hclose : ∀ b ∈ bl, SplitReady C I.Exhaustive ((patVars b.1).map VSymbol.vsTy ++ Γ) n
      (b.2.close (patVars b.1)) :=
    fun b hb => (typedMap_close (patVars b.1)).splitReady (hbl b hb)
  rw [splitMkCase, tAttrAdd, tTy_setAttrs] at htTy
  refine ⟨?_, ?_, ?_, ?_⟩
  · rw [splitMkCase, tAttrAdd, wellTyped_setAttrs]
    refine ⟨ht, ⟨ty, hty, ?_, ?_⟩, ⟨?_, ?_⟩, ?_⟩
    · rw [map_map]
      exact hform.exhaustive
    · refine forall_mem_map.mpr fun b hb => ?_
      exact hform.typed b.1 (mem_map_of_mem hb)
    · simpa using hne
    · refine forall_mem_map.mpr fun b hb => ?_
      exact (hclose b hb).fmla.trans htTy.symm
    · rw [wellTypedBranches_iff]
      refine forall_mem_map.mpr fun b hb => ?_
      exact (hclose b hb).typed
  · rw [splitMkCase, tAttrAdd, tTy_setAttrs]
    exact htTy
  · simp only [splitMkCase, tAttrAdd, tCaseClose, Term.setAttrs, CompiledMatches,
      compiledMatchesBranches_iff]
    refine ⟨fun _ => ⟨ty, hty, ?_⟩, ?_⟩
    · rw [map_map]
      exact hform
    · refine forall_mem_map.mpr fun b hb => ?_
      exact (hclose b hb).form
  · simp only [splitMkCase, tAttrAdd, tCaseClose, Term.setAttrs, caseDepth, Finset.mem_insert_self,
      if_true, Nat.zero_add]
    rw [caseDepthBranches_le]
    refine forall_mem_map.mpr fun b hb => ?_
    exact (hclose b hb).depth

/-- Formulas as actions. -/
noncomputable def splitAction (hβ : List.Forall₂ I.dom Γ β) (n : Nat) :
    I.ActionSem I.Exhaustive Γ β splitMkCase tLetCloseSimp (D × Prop) where
  asem ρ a := I.sem ρ β a
  Good a := SplitReady C I.Exhaustive Γ n a
  sem_mkLet ht hty := Interp.sem_tLetCloseSimp (Interp.not_holds_of_tTy _ _ _ _ ht hty) _
  good_mkLet ht hty ha := ha.tLetCloseSimp ht hty
  sem_mkCase hρ ht hty hform :=
    sem_splitMkCase _ (Interp.sem_typed (fun h => h) hρ _ _ _ _ ht hβ hty) hform
  good_mkCase ht hty hform hbl := splitReady_splitMkCase ht hty hform hbl

/-! The rows of a match: its branches, opened with fresh symbols. -/

variable {a : Attrs} {t : Term} {bl : List (Pattern × Term)} {n : Nat}

theorem termBelow_freshTag_case (a : Attrs) (t : Term) (bl : List (Pattern × Term)) :
    TermBelow (freshTag (tVars (.tcase a t bl))) t ∧
      ∀ b ∈ bl, TermBelow (freshTag (tVars (.tcase a t bl))) b.2 := by
  refine ⟨fun v hv => lt_freshTag ?_, fun b hb v hv => lt_freshTag ?_⟩
  · rw [tVars]
    exact Finset.mem_union_left _ hv
  · rw [tVars]
    exact Finset.mem_union_right _ (Interp.mem_tVarsBranches.mpr ⟨b, hb, hv⟩)

theorem length_le_foldr_max (hb : b ∈ bl) :
    (patVars b.1).length ≤ bl.foldr (fun b n => max (patVars b.1).length n) 0 := by
  induction bl with
  | nil => cases hb
  | cons c bl ih =>
    cases mem_cons.mp hb with
    | inl he => exact he ▸ le_max_left _ _
    | inr hb => exact (ih hb).trans (le_max_right _ _)

/-- The meaning of an opened branch where its pattern matches. -/
theorem sem_tOpenBranch {k : Nat} (hp : PatTyped C b.1) (hb : TermBelow k b.2) {d : D}
    (hd : I.dom (patTy b.1) d) (hok : I.patOk b.1 d = true) :
    I.sem (I.bindPats [(tOpenBranch k b).1] [d] ρ) β (tOpenBranch k b).2 =
      I.sem ρ (I.patVals b.1 d ++ β) b.2 := by
  have hopen := opensAs_rename (I := I) hp k
  have hvals := map_bindPats_vars ρ hopen.typed (hopen.ty.symm ▸ hd) ((hopen.ok d).trans hok)
  rw [hopen.vars, hopen.vals] at hvals
  simp only [tOpenBranch]
  rw [Interp.sem_openWith, hvals]
  refine Interp.sem_congr_env b.2 _ fun v hv => ?_
  refine Interp.bindPats_of_notMem (by simpa using hopen.typed) ?_ _ _
  simp only [flatMap_cons, flatMap_nil, append_nil, hopen.vars]
  intro hmem
  have hge := (renameVars_tag hmem).1
  have hlt := hb v hv
  omega

theorem rowOk_tOpenBranch (hβ : List.Forall₂ I.dom Γ β) {k m : Nat} (hp : PatTyped C b.1)
    (hty : patTy b.1 = ty)
    (hb : SplitReady C I.Exhaustive ((patVars b.1).map VSymbol.vsTy ++ Γ) n b.2)
    (hbelow : TermBelow k b.2) (ht : TermBelow k t) (hm : (patVars b.1).length ≤ m) :
    Interp.RowOk (splitAction hβ n) { v | v ∈ tVars t } (k + m) [ty]
      ([(tOpenBranch k b).1], (tOpenBranch k b).2) := by
  have hopen := opensAs_rename (I := I) hp k
  have hvars : [(tOpenBranch k b).1].flatMap patVars = renameVars k (patVars b.1) := by
    simp only [flatMap_cons, flatMap_nil, append_nil, tOpenBranch, hopen.vars]
  refine ⟨?_, ?_, ?_, ?_, ?_, ?_, ?_⟩
  · simp only [map_cons, map_nil, tOpenBranch, hopen.ty, hty]
  · simpa [tOpenBranch] using hopen.typed
  · rw [hvars]
    exact renameVars_nodup k _
  · intro v hv
    rw [hvars] at hv
    have := (renameVars_tag hv).2
    omega
  · intro v hv hvt
    rw [hvars] at hv
    have hge := (renameVars_tag hv).1
    have hlt := ht v hvt
    omega
  · refine (typedMap_openWith (renameVars k (patVars b.1))).splitReady ?_
    rw [renameVars_tys]
    exact hb
  · intro ρ ρ' _ _ hρ
    have hmap : (renameVars k (patVars b.1)).map ρ = (renameVars k (patVars b.1)).map ρ' := by
      apply map_congr_left
      intro v hv
      have := (renameVars_tag hv).2
      exact hρ v (by omega)
    simp only [splitAction, tOpenBranch]
    rw [Interp.sem_openWith, Interp.sem_openWith, hmap]
    refine Interp.sem_congr_env b.2 _ fun v hv => hρ v ?_
    have := hbelow v hv
    omega

theorem compileMatch_at (hβ : List.Forall₂ I.dom Γ β)
    (hf : SplitReady C I.Exhaustive Γ (n + 1) (.tcase a t bl)) (ha : compiledAttr ∉ a) :
    ∃ g, compileMatch (.tcase a t bl) t bl = .ok g ∧ SplitReady C I.Exhaustive Γ n g ∧
      ∀ ρ, I.TypedEnv ρ → I.sem ρ β g = I.sem ρ β (.tcase a t bl) := by
  obtain ⟨⟨hwt, ⟨ty, hty, hexh, hpat⟩, ⟨hne, htys⟩, hwb⟩, hfmla, ⟨-, hform⟩, hdepth⟩ := hf
  rw [wellTypedBranches_iff] at hwb
  rw [compiledMatchesBranches_iff] at hform
  rw [caseDepth, if_neg ha, Nat.add_comm, Nat.add_le_add_iff_right, caseDepthBranches_le] at hdepth
  obtain ⟨htb, hbb⟩ := termBelow_freshTag_case a t bl
  rw [compileMatch]
  generalize freshTag (tVars (.tcase a t bl)) = k at htb hbb ⊢
  have hmat : Interp.MatrixOk (splitAction hβ n) { v | v ∈ tVars t }
      (k + bl.foldr (fun b n => max (patVars b.1).length n) 0) [ty] [t]
      (bl.map fun b => ([(tOpenBranch k b).1], (tOpenBranch k b).2)) := by
    refine ⟨?_, ?_, ?_, ?_, ?_, ?_⟩
    · intro v hv
      have := htb v hv
      omega
    · simp [hty]
    · simpa using hwt
    · intro s hs
      rw [mem_singleton] at hs
      rw [hs]
      exact fun v hv => hv
    · refine forall_mem_map.mpr fun b hb => ?_
      exact rowOk_tOpenBranch hβ (hpat b hb).1 (hpat b hb).2
        ⟨hwb b hb, (htys b hb).trans hfmla, hform b hb, hdepth b hb⟩ (hbb b hb) htb
        (length_le_foldr_max hb)
    · intro ds hds
      obtain ⟨d, rfl⟩ := length_eq_one_iff.mp hds.length_eq.symm
      obtain ⟨p, hp, hok⟩ := hexh d (by simpa using hds)
      obtain ⟨b, hb, rfl⟩ := mem_map.mp hp
      refine ⟨_, mem_map_of_mem hb, ?_⟩
      rw [patsOk_singleton, tOpenBranch, (opensAs_rename (hpat b hb).1 k).ok]
      exact hok
  obtain ⟨e, he, hgood, hsem⟩ := Interp.compileBare_ok (fun h => h) hβ hmat
  refine ⟨tAttrCopy (.tcase a t bl) e, ?_, hgood.setAttrs ?_, fun ρ hρ => ?_⟩
  · simp only [he]
  · rw [Term.attrs, Finset.mem_union, or_iff_right ha]
  · have hd := Interp.sem_typed (I := I) (fun h => h) hρ t Γ β ty hwt hβ hty
    have hrows := hsem ρ hρ
    simp only [splitAction, map_cons, map_nil] at hrows
    rw [tAttrCopy, I.sem_setAttrs, Interp.sem]
    rw [semBranches_eq_rowsSem (x := (I.junk, False)) (g := id)] at hrows
    · rw [map_id] at hrows
      exact Option.some.inj hrows
    · intro b hb
      rw [patsOk_singleton, tOpenBranch, (opensAs_rename (hpat b hb).1 k).ok]
      rfl
    · intro b hb hok
      exact sem_tOpenBranch (hpat b hb).1 (hbb b hb) ((hpat b hb).2.symm ▸ hd) hok
    · obtain ⟨p, hp, hok⟩ := hexh _ hd
      obtain ⟨b, hb, rfl⟩ := mem_map.mp hp
      exact ⟨b, hb, hok⟩

/-- The compilation of a match returns a formula with its meaning. -/
theorem compileMatch_ok (hf : SplitReady C I.Exhaustive Γ (n + 1) (.tcase a t bl))
    (ha : compiledAttr ∉ a) :
    ∃ g, compileMatch (.tcase a t bl) t bl = .ok g ∧ SplitReady C I.Exhaustive Γ n g ∧
      ∀ ρ β, I.TypedEnv ρ → List.Forall₂ I.dom Γ β →
        I.sem ρ β g = I.sem ρ β (.tcase a t bl) := by
  obtain ⟨g, hg, hready, -⟩ := compileMatch_at (Interp.forall₂_witness I Γ) hf ha
  refine ⟨g, hg, hready, fun ρ β hρ hβ => ?_⟩
  obtain ⟨g', hg', -, hsem⟩ := compileMatch_at hβ hf ha
  rw [hg, Except.ok.injEq] at hg'
  rw [hg']
  exact hsem ρ hρ

end Action

end

end Why3
