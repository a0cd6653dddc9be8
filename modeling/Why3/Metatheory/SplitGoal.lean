import Why3.Metatheory.SplitCompile

/-!
Goal splitting is sound, and exact when `by` and `so` are not split.

The induction is on the formula; the result of the compilation of a match is not a
subformula, and the number of matches that are still to be compiled one below the
other goes down with it.
-/
namespace Why3

open M
open List

section

variable {C : AlgSig} {D : Type} {I : Interp C D}

/-- A formula that the configuration can split. Without a known map the mark of compiled
matches is not read. -/
structure Splittable (C : AlgSig) (Q : CaseCond) (Γ : List Ty) (n : Nat) (sp : Split) (f : Term) :
    Prop where
  typed : WellTyped C Q Γ f
  fmla : f.tTy = none
  form : ∀ kn, sp.compMatch = some kn → Knows C kn ∧ CompiledMatches C f
  depth : caseDepth f ≤ n

variable {Q : CaseCond} {a : Attrs} {op : Binop}

section

variable {Γ : List Ty} {n : Nat} {sp : Split} {f g : Term}
  (h : Splittable C Q Γ n sp (.tbinop a op f g))
include h

/-- The first formula of a connective. -/
theorem Splittable.left : Splittable C Q Γ n sp f := by
  have hdepth := h.depth
  rw [caseDepth, max_le_iff] at hdepth
  exact ⟨h.typed.1.1, h.typed.1.2, fun kn hkn => ⟨(h.form kn hkn).1, (h.form kn hkn).2.1⟩,
    hdepth.1⟩

theorem Splittable.right :
    Splittable C Q Γ n sp g := by
  have hdepth := h.depth
  rw [caseDepth, max_le_iff] at hdepth
  exact ⟨h.typed.2.1, h.typed.2.2, fun kn hkn => ⟨(h.form kn hkn).1, (h.form kn hkn).2.2⟩,
    hdepth.2⟩

end

/-- The marks of the cases that are split do not matter. -/
theorem Splittable.config {Γ : List Ty} {n : Nat} {sp sp' : Split} {f : Term}
    (h : Splittable C Q Γ n sp f) (hsp : sp'.compMatch = sp.compMatch) :
    Splittable C Q Γ n sp' f :=
  ⟨h.typed, h.fmla, fun kn hkn => h.form kn (hsp ▸ hkn), h.depth⟩

/-- The splitting returns a result that is sound for the formula. -/
def SplitOk (I : Interp C D) (Γ : List Ty) (sp : Split) (f : Term)
    (res : Except SplitError SplitRet) : Prop :=
  ∃ r, res = .ok r ∧ SplitShape sp.bysoSplit r ∧
    ∀ ρ β, I.TypedEnv ρ → List.Forall₂ I.dom Γ β →
      SplitSound sp.bysoSplit (I.holds ρ β) (I.holds ρ β f) r

section

variable {Γ : List Ty} {n : Nat} {sp : Split} {f : Term} (hf : Splittable C I.Exhaustive Γ n sp f)
include hf

theorem splitStop_ok :
    SplitOk I Γ sp f (.ok (splitStop f)) ∧ SplitOk I Γ sp f (.ok (splitIntro f)) := by
  have hshape : ∀ g g', SplitShape sp.bysoSplit ⟨inject g, inject g', f, dropByso f, .unit, false,
      false⟩ := fun g g' => ⟨zeroOf_inject _, zeroOf_inject _, zeroOf_unit, fun _ => rfl⟩
  have hattr : ∀ {ρ β} g, I.holds ρ β (unstop g) ↔ I.holds ρ β g :=
    fun g => formulaVal_holds.attrs _ g
  refine ⟨⟨_, rfl, hshape _ _, fun ρ β _ _ => ?_⟩, ⟨_, rfl, hshape _ _, fun ρ β _ _ => ?_⟩⟩
  all_goals
    constructor
    all_goals simp only [splitStop, splitIntro, conj_inject, disj_inject, hattr,
      holds_dropByso hf.typed]
    all_goals first | exact fun _ h => h | exact fun _ => trivial

/-- The tests before and the correction after the splitting of a connective. -/
theorem splitOk_guard {core : Except SplitError SplitRet} (h : SplitOk I Γ sp f core) :
    SplitOk I Γ sp f (Except.map (splitFinish sp f)
      (if sp.stopSplit && stop f then .ok (splitStop f)
      else if sp.introMode && introStop f then .ok (splitIntro f) else core)) := by
  have hcore : SplitOk I Γ sp f (if sp.stopSplit && stop f then .ok (splitStop f)
      else if sp.introMode && introStop f then .ok (splitIntro f) else core) := by
    split
    · exact (splitStop_ok hf).1
    · split
      · exact (splitStop_ok hf).2
      · exact h
  obtain ⟨r, hr, hshape, hsound⟩ := hcore
  refine ⟨splitFinish sp f r, ?_, splitFinish_shape hshape, fun ρ β hρ hβ =>
    splitFinish_sound formulaVal_holds (hsound ρ β hρ hβ) hshape⟩
  rw [hr, Except.map]

end

section Bind

variable {Γ : List Ty} {sp sp1 sp2 sp3 : Split} {f f1 f2 f3 : Term}
  {x y z : Except SplitError SplitRet}

theorem SplitOk.congr (hx : SplitOk I Γ sp1 f1 x) (h1 : sp1.bysoSplit = sp.bysoSplit)
    (hf : ∀ ρ β, I.TypedEnv ρ → List.Forall₂ I.dom Γ β → (I.holds ρ β f ↔ I.holds ρ β f1)) :
    SplitOk I Γ sp f x := by
  obtain ⟨r, hr, hs, hsound⟩ := hx
  rw [h1] at hs
  refine ⟨r, hr, hs, fun ρ β hρ hβ => ?_⟩
  exact propext (hf ρ β hρ hβ) ▸ h1 ▸ hsound ρ β hρ hβ

theorem SplitOk.bind2 (hx : SplitOk I Γ sp1 f1 x) (hy : SplitOk I Γ sp2 f2 y)
    (h1 : sp1.bysoSplit = sp.bysoSplit) (h2 : sp2.bysoSplit = sp.bysoSplit)
    {F : SplitRet → SplitRet → SplitRet}
    (hF : ∀ {r1 r2}, SplitShape sp.bysoSplit r1 → SplitShape sp.bysoSplit r2 →
      SplitShape sp.bysoSplit (F r1 r2))
    (hS : ∀ {ρ β r1 r2}, SplitSound sp.bysoSplit (I.holds ρ β) (I.holds ρ β f1) r1 →
      SplitSound sp.bysoSplit (I.holds ρ β) (I.holds ρ β f2) r2 →
      SplitShape sp.bysoSplit r1 → SplitShape sp.bysoSplit r2 →
      SplitSound sp.bysoSplit (I.holds ρ β) (I.holds ρ β f) (F r1 r2)) :
    SplitOk I Γ sp f (do
      let sf1 ← x
      let sf2 ← y
      .ok (F sf1 sf2)) := by
  obtain ⟨r1, rfl, hs1, hsound1⟩ := hx
  obtain ⟨r2, rfl, hs2, hsound2⟩ := hy
  rw [h1] at hs1 hsound1
  rw [h2] at hs2 hsound2
  exact ⟨F r1 r2, rfl, hF hs1 hs2, fun ρ β hρ hβ =>
    hS (hsound1 ρ β hρ hβ) (hsound2 ρ β hρ hβ) hs1 hs2⟩

/-- `so` and `by` have the meaning of one side; the other is split with it or dropped. -/
theorem SplitOk.byso {c : Bool} {F : SplitRet → SplitRet → SplitRet} (hx : SplitOk I Γ sp f1 x)
    (hy : SplitOk I Γ (noCsp sp) f1 y) (hz : SplitOk I Γ (noCsp sp) f2 z)
    (hf : ∀ ρ β, I.holds ρ β f ↔ I.holds ρ β f1)
    (hF : ∀ {r1 r2}, SplitShape true r1 → SplitShape true r2 → SplitShape true (F r1 r2))
    (hS : ∀ {ρ β φ2 r1 r2}, SplitSound true (I.holds ρ β) (I.holds ρ β f1) r1 →
      SplitSound true (I.holds ρ β) φ2 r2 → SplitShape true r1 → SplitShape true r2 →
      SplitSound true (I.holds ρ β) (I.holds ρ β f1) (F r1 r2)) :
    SplitOk I Γ sp f (if !(sp.bysoSplit && c) then x else do
      let sf1 ← y
      let sf2 ← z
      .ok (F sf1 sf2)) := by
  split
  · exact hx.congr rfl fun ρ β _ _ => hf ρ β
  · rename_i hby
    rw [Bool.not_eq_true', Bool.not_eq_false, Bool.and_eq_true] at hby
    refine hy.bind2 hz rfl rfl ?_ ?_ <;> rw [show (noCsp sp).bysoSplit = true from hby.1]
    · exact hF
    · intro ρ β r1 r2 hr1 hr2 s1 s2
      exact propext (hf ρ β) ▸ hS hr1 hr2 s1 s2

end Bind

section Step

variable {phys : Term → Term → Bool} (hphys : ∀ {s t}, phys s t = true → s = t) {n : Nat}
  {rec : Split → Term → Except SplitError SplitRet}

/-- What the induction gives for a subformula. -/
def StepOk (I : Interp C D) (phys : Term → Term → Bool) (n : Nat)
    (rec : Split → Term → Except SplitError SplitRet) (f : Term) : Prop :=
  ∀ Γ sp, Splittable C I.Exhaustive Γ n sp f → SplitOk I Γ sp f (splitStep phys rec f sp)

include hphys in
theorem stepOk_connective {f1 f2 : Term} (hf1 : StepOk I phys n rec f1)
    (hf2 : StepOk I phys n rec f2)
    (hor : ∀ b g c, f1 = .tbinop b .tor g (.ttrue c) ∨ f2 = .tbinop b .tor g (.ttrue c) →
      StepOk I phys n rec g) : StepOk I phys n rec (.tbinop a op f1 f2) := by
  intro Γ sp hf
  have h1 : ∀ sp', sp'.compMatch = sp.compMatch → Splittable C I.Exhaustive Γ n sp' f1 :=
    fun sp' hsp => hf.left.config hsp
  have h2 : ∀ sp', sp'.compMatch = sp.compMatch → Splittable C I.Exhaustive Γ n sp' f2 :=
    fun sp' hsp => hf.right.config hsp
  rw [splitStep.eq_def]
  refine splitOk_guard hf ?_
  have hdrop : ∀ {ρ β}, I.holds ρ β (dropByso (.tbinop a op f1 f2)) ↔
      I.holds ρ β (.tbinop a op f1 f2) := holds_dropByso hf.typed
  split <;> rename_i heq <;> cases heq
  · -- so
    rename_i b g c
    exact (hf1 Γ sp (h1 sp rfl)).byso (hf1 Γ _ (h1 _ rfl))
      (hor b g c (.inr rfl) Γ _ (h2 (noCsp sp) rfl).left) (fun ρ β => and_iff_left (.inr trivial))
      splitSo_shape (splitSo_sound formulaVal_holds)
  · exact (hf1 Γ (psCsp sp) (h1 _ rfl)).bind2 (hf2 Γ (psCsp sp) (h2 _ rfl)) rfl rfl splitAnd_shape
      (splitAnd_sound hphys formulaVal_holds)
  · -- by
    rename_i b g c
    exact (hf2 Γ sp (h2 sp rfl)).byso (hf2 Γ _ (h2 _ rfl))
      (hor b g c (.inl rfl) Γ _ (h1 (noCsp sp) rfl).left)
      (fun ρ β => ⟨fun hh => hh (.inr trivial), fun hh _ => hh⟩) splitBy_shape
      (splitBy_sound formulaVal_holds)
  · exact (hf1 Γ (inCsp (ngCsp sp)) (h1 _ rfl)).bind2 (hf2 Γ (ngCsp sp) (h2 _ rfl)) rfl rfl
      splitImplies_shape
      (splitImplies_sound hphys formulaVal_holds)
  · exact (hf1 Γ (ngCsp sp) (h1 _ rfl)).bind2 (hf2 Γ (ngCsp sp) (h2 _ rfl)) rfl rfl splitOr_shape
      (splitOr_sound hphys formulaVal_holds)
  · exact (hf1 Γ (noCsp sp) (h1 _ rfl)).bind2 (hf2 Γ (noCsp sp) (h2 _ rfl)) rfl rfl splitIff_shape
      (splitIff_sound hphys formulaVal_holds hdrop)

include hphys in
theorem stepOk_tif {f1 f2 f3 : Term} (hf1 : StepOk I phys n rec f1) (hf2 : StepOk I phys n rec f2)
    (hf3 : StepOk I phys n rec f3) :
    StepOk I phys n rec (.tif a f1 f2 f3) := by
  intro Γ sp hf
  obtain ⟨⟨hw1, hty1⟩, hw2, hw3, hty⟩ := hf.typed
  have hdepth := hf.depth
  simp only [caseDepth, max_le_iff] at hdepth
  have hno := hf.fmla
  obtain ⟨r1, h1, s1, hr1⟩ := hf1 Γ (noCsp sp) ⟨hw1, hty1,
    fun kn hkn => ⟨(hf.form kn hkn).1, (hf.form kn hkn).2.1⟩, hdepth.1⟩
  obtain ⟨r2, h2, s2, hr2⟩ := hf2 Γ (noCsp sp) ⟨hw2, hno,
    fun kn hkn => ⟨(hf.form kn hkn).1, (hf.form kn hkn).2.2.1⟩, hdepth.2.1⟩
  obtain ⟨r3, h3, s3, hr3⟩ := hf3 Γ (noCsp sp) ⟨hw3, hty ▸ hno,
    fun kn hkn => ⟨(hf.form kn hkn).1, (hf.form kn hkn).2.2.2⟩, hdepth.2.2⟩
  refine splitOk_guard hf ⟨splitIf phys sp (.tif a f1 f2 f3) f1 f2 f3 r1 r2 r3, ?_, splitIf_shape s1 s2 s3, fun ρ β hρ hβ => ?_⟩
  · simp only [h1, h2, h3]
    rfl
  · refine (splitIf_sound hphys formulaVal_holds (holds_dropByso hw1) (hr1 ρ β hρ hβ)
      (hr2 ρ β hρ hβ) (hr3 ρ β hρ hβ) s1 s2 s3).transfer ?_ Iff.rfl Iff.rfl Iff.rfl Iff.rfl Iff.rfl
    exact formulaVal_holds.cond a f1 f2 f3

include hphys in
theorem stepOk_tnot {f1 : Term} (hf1 : StepOk I phys n rec f1) :
    StepOk I phys n rec (.tnot a f1) := by
  intro Γ sp hf
  obtain ⟨r, h, s, hr⟩ := hf1 Γ (inCsp sp) ⟨hf.typed.1, hf.typed.2, hf.form, hf.depth⟩
  refine splitOk_guard hf ⟨splitNot phys (.tnot a f1) f1 r, ?_, splitNot_shape s, fun ρ β hρ hβ =>
    splitNot_sound hphys formulaVal_holds (hr ρ β hρ hβ) s⟩
  simp only [h]
  rfl

include hphys in
theorem stepOk_tlet {t : Term} {v : VSymbol} {f1 : Term}
    (hf1 : StepOk I phys n rec f1) : StepOk I phys n rec (.tlet a t v f1) := by
  intro Γ sp hf
  obtain ⟨⟨hwt, hv⟩, hw1⟩ := hf.typed
  obtain ⟨r, h, s, hr⟩ := hf1 (v.vsTy :: Γ) sp ⟨hw1, hf.fmla, hf.form, hf.depth⟩
  refine splitOk_guard hf ⟨splitLet phys (.tlet a t v f1) t v f1 r, ?_, splitLet_shape s, fun ρ β hρ hβ => ?_⟩
  · simp only [h]
    rfl
  · have hd := Interp.sem_typed (I := I) (fun h => h) hρ t Γ β _ hwt hβ hv
    exact splitLet_sound hphys s (hr ρ _ hρ (.cons hd hβ))

include hphys in
theorem stepOk_tquant {q : Quant} {vl : List VSymbol} {tr : List (List Term)} {f1 : Term}
    (hf1 : StepOk I phys n rec f1) : StepOk I phys n rec (.tquant a q vl tr f1) := by
  intro Γ sp hf
  obtain ⟨r, h, s, hr⟩ := hf1 (vl.map VSymbol.vsTy ++ Γ) sp
    ⟨hf.typed.1, hf.typed.2, hf.form, hf.depth⟩
  refine splitOk_guard hf ⟨splitQuant phys (.tquant a q vl tr f1) q vl tr f1 r, ?_, splitQuant_shape s, fun ρ β hρ hβ => ?_⟩
  · simp only [h]
    rfl
  · refine splitQuant_sound hphys s fun ds => hr ρ _ hρ (rel_append ?_ hβ)
    rw [forall₂_map_left_iff]
    exact ds.2

theorem splitBranches_ok {bl : List (Pattern × Term)} {Γ : List Ty} {sp : Split}
    (hbl : ∀ b ∈ bl, StepOk I phys n rec b.2)
    (h : ∀ b ∈ bl, Splittable C I.Exhaustive ((patVars b.1).map VSymbol.vsTy ++ Γ) n sp b.2) :
    ∃ sbl : List SplitBranch, splitBranches phys rec bl sp = .ok sbl ∧
      bl = sbl.map (fun b => (b.1, b.2.1)) ∧
      ∀ b ∈ sbl, SplitShape sp.bysoSplit b.2.2 ∧
        ∀ ρ β, I.TypedEnv ρ →
          List.Forall₂ I.dom ((patVars b.1).map VSymbol.vsTy ++ Γ) β →
          SplitSound sp.bysoSplit (I.holds ρ β) (I.holds ρ β b.2.1) b.2.2 := by
  induction bl with
  | nil => exact ⟨[], by rw [splitBranches], rfl, by simp⟩
  | cons b bl ih =>
    obtain ⟨r, hr, hs, hsound⟩ := hbl b mem_cons_self _ sp (h b mem_cons_self)
    obtain ⟨sbl, hsbl, hmap, hall⟩ := ih (forall_mem_cons.mp hbl).2 (forall_mem_cons.mp h).2
    refine ⟨(b.1, b.2, r) :: sbl, ?_, by rw [map_cons, ← hmap], ?_⟩
    · rw [splitBranches, hr, hsbl]
      rfl
    · exact forall_mem_cons.mpr ⟨⟨hs, hsound⟩, hall⟩

theorem exists_selected {sbl : List SplitBranch} {ty : Ty} {d : D}
    (hexh : I.Exhaustive ty (sbl.map Prod.fst)) (hd : I.dom ty d) :
    ∃ b, selected I d sbl = some b := by
  obtain ⟨p, hp, hok⟩ := hexh d hd
  obtain ⟨b, hb, rfl⟩ := mem_map.mp hp
  rw [← Option.isSome_iff_exists, selected, List.find?_isSome]
  exact ⟨b, hb, hok⟩

include hphys in
theorem stepOk_tcase {t : Term} {bl : List (Pattern × Term)}
    (hrec : ∀ Γ sp g m, m < n → Splittable C I.Exhaustive Γ m sp g →
      SplitOk I Γ sp g (rec sp g))
    (hbl : ∀ b ∈ bl, StepOk I phys n rec b.2) : StepOk I phys n rec (.tcase a t bl) := by
  intro Γ sp hf
  obtain ⟨hwt, ⟨ty, hty, hexh, hpat⟩, ⟨-, htys⟩, hwb⟩ := hf.typed
  rw [wellTypedBranches_iff] at hwb
  have hdepth := hf.depth
  rw [caseDepth] at hdepth
  refine splitOk_guard hf ?_
  have hspb : (if bl.length = 1 then sp else noCsp sp).compMatch = sp.compMatch ∧
      (if bl.length = 1 then sp else noCsp sp).bysoSplit = sp.bysoSplit := by
    split
    · exact ⟨rfl, rfl⟩
    · exact ⟨rfl, rfl⟩
  generalize (if bl.length = 1 then sp else noCsp sp) = spb at hspb ⊢
  have hb : ∀ b ∈ bl,
      Splittable C I.Exhaustive ((patVars b.1).map VSymbol.vsTy ++ Γ) n spb b.2 := by
    intro b hb
    refine ⟨hwb b hb, (htys b hb).trans hf.fmla, fun kn hkn => ?_,
      caseDepthBranches_le.mp (by omega) b hb⟩
    obtain ⟨hkn, -, hcb⟩ := hf.form kn (hspb.1 ▸ hkn)
    exact ⟨hkn, compiledMatchesBranches_iff.mp hcb b hb⟩
  obtain ⟨sbl, hsbl, hmap, hall⟩ := splitBranches_ok hbl hb
  rw [hspb.2] at hall
  have hfst : sbl.map Prod.fst = bl.map Prod.fst := by
    rw [hmap, map_map]
    rfl
  have hshape : ∀ b ∈ sbl, SplitShape sp.bysoSplit b.2.2 := fun b hb => (hall b hb).1
  -- the branch that the value selects, with what is known of its result
  have hsel : ∀ ρ β, I.TypedEnv ρ → List.Forall₂ I.dom Γ β → I.dom ty (I.val ρ β t) ∧
      ∃ b, selected I (I.val ρ β t) sbl = some b ∧
        SplitSound sp.bysoSplit (I.holds ρ (I.patVals b.1 (I.val ρ β t) ++ β))
          (I.holds ρ (I.patVals b.1 (I.val ρ β t) ++ β) b.2.1) b.2.2 := by
    intro ρ β hρ hβ
    have hd := Interp.sem_typed (I := I) (fun h => h) hρ t Γ β ty hwt hβ hty
    obtain ⟨b, hb⟩ := exists_selected (hfst.symm ▸ hexh) hd
    obtain ⟨hmem, hok⟩ := selected_mem hb
    obtain ⟨hp, hpty⟩ := hpat (b.1, b.2.1) (hmap ▸ mem_map_of_mem hmem)
    refine ⟨hd, b, hb, (hall b hmem).2 ρ _ hρ (rel_append ?_ hβ)⟩
    exact Interp.patVals_typed hp (hpty.symm ▸ hd) hok
  cases hcm : sp.compMatch with
  | none =>
    refine ⟨splitCase phys (.tcase a t bl) t sbl, ?_, splitCase_shape hshape,
      fun ρ β hρ hβ => ?_⟩
    · simp only [hsbl]
      rfl
    · obtain ⟨-, b, hb, hsound⟩ := hsel ρ β hρ hβ
      rw [hmap]
      exact splitCase_sound hphys hb hsound
  | some kn =>
    obtain ⟨hkn, hform, hcb⟩ := hf.form kn hcm
    by_cases ha : compiledAttr ∈ a
    · obtain ⟨ty', hty', hcf⟩ := hform ha
      cases hty.symm.trans hty'
      obtain ⟨r, hr, hrs, hsound⟩ := splitCompiled_ok (I := I) sp t hphys hkn
        (hfst.symm ▸ hcf) hshape a
      rw [← hmap] at hr hsound
      refine ⟨r, ?_, hrs, fun ρ β hρ hβ => ?_⟩
      · simp only [if_pos ha, hsbl]
        exact hr
      · obtain ⟨hd, b, hb, hbs⟩ := hsel ρ β hρ hβ
        exact hsound ρ β (Interp.not_holds_of_tTy t Γ β ty hwt hty) hd b hb hbs
    · rw [if_neg ha] at hdepth
      obtain ⟨m, rfl⟩ : ∃ m, n = m + 1 := ⟨n - 1, by omega⟩
      obtain ⟨g, hg, hready, hsem⟩ := compileMatch_ok
        ⟨hf.typed, hf.fmla, (hf.form kn hcm).2, hf.depth⟩ ha
      simp only [if_neg ha, hg]
      refine SplitOk.congr (hrec Γ spb g m (Nat.lt_succ_self m)
        ⟨hready.typed, hready.fmla, fun kn' hkn' => ?_, hready.depth⟩) hspb.2
        fun ρ β hρ hβ => ?_
      · exact ⟨(hf.form kn' (hspb.1 ▸ hkn')).1, hready.form⟩
      · rw [Interp.holds, Interp.holds, hsem ρ β hρ hβ]

include hphys in
/-- One step: the branches and subformulas are split by the step itself, a match that is
compiled by `rec`. -/
theorem stepOk (hrec : ∀ Γ sp g m, m < n → Splittable C I.Exhaustive Γ m sp g →
      SplitOk I Γ sp g (rec sp g)) (f : Term) :
    StepOk I phys n rec f ∧
      ∀ a g c, f = .tbinop a .tor g (.ttrue c) → StepOk I phys n rec g := by
  induction f using Term.induct with
  | tif a f t e hf ht he => exact ⟨stepOk_tif hphys hf.1 ht.1 he.1, nofun⟩
  | tlet a t v e ht he => exact ⟨stepOk_tlet hphys he.1, nofun⟩
  | tcase a t bl ht hbl => exact ⟨stepOk_tcase hphys hrec fun b hb => (hbl b hb).1, nofun⟩
  | tquant a q vl tr f htr hf => exact ⟨stepOk_tquant hphys hf.1, nofun⟩
  | tbinop a op f g hf hg =>
    refine ⟨stepOk_connective hphys hf.1 hg.1 fun b k c he => ?_, ?_⟩
    · cases he with
      | inl he => exact hf.2 b k c he
      | inr he => exact hg.2 b k c he
    · intro b k c he
      cases he
      exact hf.1
  | tnot a f hf => exact ⟨stepOk_tnot hphys hf.1, nofun⟩
  | tapp a ls tl ty ih =>
    refine ⟨fun Γ sp hf => ?_, nofun⟩
    refine splitOk_guard hf ⟨_, rfl, ⟨zeroOf_inject _, zeroOf_inject _, zeroOf_unit,
      fun _ => rfl⟩, fun ρ β _ _ => ?_⟩
    constructor
    all_goals first | exact fun _ h => h | exact fun _ => Iff.rfl
  | ttrue a | tfalse a =>
    refine ⟨fun Γ sp hf => ?_, nofun⟩
    refine splitOk_guard hf ⟨_, rfl, ⟨?_, ?_, zeroOf_unit, fun _ => rfl⟩, fun ρ β _ _ => ?_⟩
    case refine_3 =>
      constructor
      all_goals first | exact fun _ h => h | exact fun _ => Iff.rfl
    all_goals rintro t ⟨⟩ <;> exact ⟨a, rfl⟩
  | _ => exact ⟨fun Γ sp hf => (nomatch hf.fmla), nofun⟩

include hphys in
/-- Enough fuel for the matches that are to be compiled. -/
theorem splitFuel_ok (m : Nat) :
    ∀ Γ sp f n, n < m → Splittable C I.Exhaustive Γ n sp f →
      SplitOk I Γ sp f (splitFuel phys m sp f) := by
  induction m with
  | zero => exact fun Γ sp f n hn => absurd hn (Nat.not_lt_zero n)
  | succ m ih =>
    intro Γ sp f n hn hf
    refine (stepOk hphys (fun Γ sp g k hk hg => ih Γ sp g k (by omega) hg) f).1 Γ sp hf

end Step

end

/-! A type with one constant constructor, interpreted by one value. -/

section Single

def tsSingle : TySymbol := ⟨⟨"t", 100⟩, [], .noDef⟩

def tySingle : Ty := .tyapp tsSingle []

def csSingle : LSymbol := ⟨⟨"A", 101⟩, [], some tySingle, 1⟩

theorem mem_single {ts : TySymbol} {c : LSymbol} :
    c ∈ (if ts = tsSingle then [csSingle] else []) ↔ ts = tsSingle ∧ c = csSingle := by
  rw [mem_ite_nil_right, mem_singleton]

def singleSig : AlgSig where
  constrs ts := if ts = tsSingle then [csSingle] else []
  value hc := by
    obtain ⟨rfl, rfl⟩ := mem_single.mp hc
    rfl
  count hc := by
    obtain ⟨rfl, rfl⟩ := mem_single.mp hc
    rfl
  distinct ts := by split <;> simp
  params hc ha := by
    obtain ⟨rfl, rfl⟩ := mem_single.mp hc
    cases ha
  vars hc := by
    obtain ⟨rfl, -⟩ := mem_single.mp hc
    exact nodup_nil

def singleInterp : Interp singleSig Unit where
  dom _ _ := True
  witness _ := ()
  fn _ _ _ := ()
  pr _ _ := True
  const _ _ := ()
  choose _ _ := ()
  destr c _ := if c = csSingle then some [] else none
  witness_dom _ := trivial
  fn_dom _ _ _ := trivial
  const_dom _ _ := trivial
  choose_dom _ _ := trivial
  choose_spec _ h := h
  equ _ _ := iff_of_true trivial rfl
  destr_fn := by
    intro ts c tl args hc hargs
    obtain ⟨rfl, rfl⟩ := mem_single.mp hc
    cases hargs
    exact if_pos rfl
  fn_destr := by
    intro ts c tl d args hc _ hd
    obtain ⟨rfl, rfl⟩ := mem_single.mp hc
    rw [if_pos rfl, Option.some.injEq] at hd
    subst hd
    exact ⟨.nil, rfl⟩
  disjoint := by
    intro ts c c' tl d args args' hc hc' _ _ _
    rw [(mem_single.mp hc).2, (mem_single.mp hc').2]
  cover := by
    intro ts tl d hne _
    obtain ⟨c, hc⟩ := exists_mem_of_ne_nil _ hne
    exact ⟨c, hc, [], if_pos (mem_single.mp hc).2⟩

def singleKnown : KnownMap :=
  [(tsSingle.tsName, ⟨.ddata [(tsSingle, [(csSingle, [])])], [tsSingle.tsName, csSingle.lsName], 0⟩)]

theorem knows_single : Knows singleSig singleKnown := by
  intro ts hne
  obtain ⟨c, hc⟩ := exists_mem_of_ne_nil _ hne
  obtain ⟨rfl, -⟩ := mem_single.mp hc
  exact ⟨[(csSingle, [])], rfl, by simp [singleSig]⟩

def xSingle : Term := tVar ⟨⟨"x", 102⟩, tySingle⟩

/-- `match x with A -> x = x /\ true` -/
def singleMatch : Term :=
  .tcase ∅ xSingle [(.papp csSingle [] tySingle, tAnd (tEqu xSingle xSingle) tTrue)]

/-- `match x with _ -> true | A -> false`, marked as compiled. -/
def markedMatch : Term :=
  .tcase {compiledAttr} xSingle [(.pwild tySingle, tTrue), (.papp csSingle [] tySingle, tFalse)]

theorem singleMatch_typed : WellTyped singleSig singleInterp.Exhaustive [] singleMatch := by
  refine ⟨trivial, ⟨tySingle, rfl, fun d _ => ⟨_, mem_singleton.mpr rfl, ?_⟩, ?_⟩,
    ⟨by simp, by simp [Term.tTy]⟩, ?_⟩
  · rfl
  · intro b hb
    rw [mem_singleton] at hb
    subst hb
    exact ⟨⟨⟨tsSingle, [], rfl, mem_single.mpr ⟨rfl, rfl⟩, rfl⟩, rfl, nodup_nil, trivial⟩,
      rfl⟩
  · refine ⟨⟨⟨⟨⟨trivial, trivial, trivial⟩, nofun, ?_⟩, rfl⟩, trivial, rfl⟩, trivial⟩
    exact ⟨[(⟨⟨"a", 8⟩⟩, tySingle)], rfl, rfl⟩

theorem markedMatch_typed : WellTyped singleSig singleInterp.Exhaustive [] markedMatch := by
  refine ⟨trivial, ⟨tySingle, rfl, fun d _ => ⟨_, mem_cons_self, rfl⟩, ?_⟩,
    ⟨by simp, by simp [Term.tTy, tTrue, tFalse]⟩, ⟨trivial, trivial, trivial⟩⟩
  intro b hb
  simp only [mem_cons, not_mem_nil, or_false] at hb
  cases hb with
  | inl hb =>
    subst hb
    exact ⟨trivial, rfl⟩
  | inr hb =>
    subst hb
    exact ⟨⟨⟨tsSingle, [], rfl, mem_single.mpr ⟨rfl, rfl⟩, rfl⟩, rfl, nodup_nil, trivial⟩,
      rfl⟩

end Single

end Why3
