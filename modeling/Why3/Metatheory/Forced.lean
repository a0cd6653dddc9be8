import Why3.Metatheory.Located

/-!
Forced forms of located terms.

All bindings of a term are opened with new symbols and closed again, from the outside to the
inside; no deferred substitution is left. Every well-formed term has such a form. If no
deferred term has an annotation of its own, the comparison sees the annotations of the
forced form.
-/
namespace Why3

open List
open VTerm (joinAnn)
open Stored (patLs)

/-! Renamed patterns. -/

theorem patTyped_renamed {C : AlgSig} {p : Pattern} (hp : PatTyped C p) {ul : List VSymbol}
    (htys : ul.map VSymbol.vsTy = (patVars p).map VSymbol.vsTy) (hnd : ul.Nodup) :
    PatTyped C (patRenameAll ((patVars p).zip ul) p) := by
  have hlen : ul.length = (patVars p).length := by
    rw [← length_map VSymbol.vsTy, htys, length_map]
  have hmap := map_renameVar_zip hp.nodup hlen
  rw [patRenameAll_eq]
  refine PatTyped.patGenMap p hp (fun v hv => ?_) fun v hv w hw he => ?_
  · rw [← hmap, map_map] at htys
    rw [tyInst_nil]
    exact map_inj_left.mp htys v hv
  · exact inj_on_of_nodup_map (hmap.symm ▸ hnd) hv hw he

theorem patLs_patRenameAll (m : List (VSymbol × VSymbol)) (p : Pattern) :
    patLs (patRenameAll m p) = patLs p := by
  induction p using Pattern.induct with
  | papp cs pl ty ih =>
    rw [patRenameAll, patLs]
    congr 1
    induction pl with
    | nil => rfl
    | cons p pl ihl =>
      rw [patRenameAllList, Stored.patLsList, Stored.patLsList, ih p mem_cons_self,
        ihl (forall_mem_cons.mp ih).2]
  | por p q ihp ihq => rw [patRenameAll, patLs, patLs, ihp, ihq]
  | pas p v ih => rw [patRenameAll, patLs, patLs, ih]
  | _ => rfl

namespace Located

/-- The symbols that are free in a binding have tags below `k`. -/
def FreshFrom (k : Nat) (vl : List VSymbol) (b : BindInfo LTerm) (es : List LTerm) : Prop :=
  ∀ w, Reaches vl b es w → w.vsName.idTag < k

/-- The second term is obtained from the first one by opening and closing all bindings. -/
inductive Forced : LTerm → LTerm → Prop
  | tvar (a : Ann) (v : VSymbol) : Forced (.tvar a v) (.tvar a v)
  | tconst (a : Ann) (c : Constant) (ty : Ty) : Forced (.tconst a c ty) (.tconst a c ty)
  | tapp (a : Ann) (ls : LSymbol) (ty : Option Ty) (ds : List (LTerm × LTerm)) :
      (∀ d ∈ ds, Forced d.1 d.2) →
      Forced (.tapp a ls (ds.map Prod.fst) ty) (.tapp a ls (ds.map Prod.snd) ty)
  | tif (a : Ann) {f f' t t' e e' : LTerm} : Forced f f' → Forced t t' → Forced e e' →
      Forced (.tif a f t e) (.tif a f' t' e')
  | tlet (a : Ann) {t t' e e' : LTerm} {v u : VSymbol} {b : BindInfo LTerm} (k : Nat) :
      Forced t t' → FreshFrom k [v] b [e] → u = (tOpenBound k (v, b, e)).1 →
      Forced (tOpenBound k (v, b, e)).2 e' →
      Forced (.tlet a t v b e) (.tlet a t' u (tCloseBound u e').2.1 e')
  | tcase (a : Ann) {t t' : LTerm} {ds : List (TermBranch × Nat × LTerm)} : Forced t t' →
      (∀ d ∈ ds, FreshFrom d.2.1 (patVars d.1.1) d.1.2.1 [d.1.2.2]) →
      (∀ d ∈ ds, Forced (tOpenBranch d.2.1 d.1).2 d.2.2) →
      Forced (.tcase a t (ds.map Prod.fst))
        (.tcase a t' (ds.map fun d => tCloseBranch (tOpenBranch d.2.1 d.1).1 d.2.2))
  | teps (a : Ann) {f f' : LTerm} {v u : VSymbol} {b : BindInfo LTerm} (k : Nat) :
      FreshFrom k [v] b [f] → u = (tOpenBound k (v, b, f)).1 →
      Forced (tOpenBound k (v, b, f)).2 f' →
      Forced (.teps a v b f) (.teps a u (tCloseBound u f').2.1 f')
  | tquant (a : Ann) (q : Quant) {vl ul : List VSymbol} {b : BindInfo LTerm}
      {tr : List (List LTerm)} {f f' : LTerm} (ds : List (List (LTerm × LTerm))) (k : Nat) :
      FreshFrom k vl b (tr.flatten ++ [f]) → ul = (tOpenQuant k (vl, b, tr, f)).1 →
      (tOpenQuant k (vl, b, tr, f)).2.1 = ds.map (·.map Prod.fst) →
      (∀ l ∈ ds, ∀ d ∈ l, Forced d.1 d.2) → Forced (tOpenQuant k (vl, b, tr, f)).2.2 f' →
      Forced (.tquant a q vl b tr f)
        (.tquant a q ul (tCloseQuant ul (ds.map (·.map Prod.snd)) f').2.1
          (ds.map (·.map Prod.snd)) f')
  | tbinop (a : Ann) (op : Binop) {f f' g g' : LTerm} : Forced f f' → Forced g g' →
      Forced (.tbinop a op f g) (.tbinop a op f' g')
  | tnot (a : Ann) {f f' : LTerm} : Forced f f' → Forced (.tnot a f) (.tnot a f')
  | ttrue (a : Ann) : Forced (.ttrue a) (.ttrue a)
  | tfalse (a : Ann) : Forced (.tfalse a) (.tfalse a)

/-! The deferred terms have no annotations of their own. -/

mutual
def plainSubsts : LTerm → Bool
  | .tvar _ _ | .tconst _ _ _ | .ttrue _ | .tfalse _ => true
  | .tapp _ _ tl _ => plainList tl
  | .tif _ f t e => plainSubsts f && plainSubsts t && plainSubsts e
  | .tlet _ t _ b e => plainSubsts t && plainBind b && plainSubsts e
  | .tcase _ t bl => plainSubsts t && plainBranches bl
  | .teps _ _ b f => plainBind b && plainSubsts f
  | .tquant _ _ _ b tr f => plainBind b && plainTrigger tr && plainSubsts f
  | .tbinop _ _ f g => plainSubsts f && plainSubsts g
  | .tnot _ f => plainSubsts f
def plainList : List LTerm → Bool
  | [] => true
  | t :: tl => plainSubsts t && plainList tl
def plainBranches : List (Pattern × BindInfo LTerm × LTerm) → Bool
  | [] => true
  | (_, b, e) :: bl => plainBind b && plainSubsts e && plainBranches bl
def plainTrigger : List (List LTerm) → Bool
  | [] => true
  | l :: tr => plainList l && plainTrigger tr
def plainBind : BindInfo LTerm → Bool
  | ⟨_, s⟩ => plainEntries s
def plainEntries : List (VSymbol × LTerm) → Bool
  | [] => true
  | (_, t) :: s => ann t = .plain && plainSubsts t && plainEntries s
end

theorem plainList_iff {tl : List LTerm} : plainList tl = true ↔ ∀ t ∈ tl, plainSubsts t = true := by
  induction tl with
  | nil => simp [plainList]
  | cons t tl ih => simp [plainList, ih]

theorem plainTrigger_iff {tr : List (List LTerm)} :
    plainTrigger tr = true ↔ ∀ l ∈ tr, ∀ t ∈ l, plainSubsts t = true := by
  induction tr with
  | nil => simp [plainTrigger]
  | cons l tr ih => simp [plainTrigger, plainList_iff, ih]

theorem plainBind_iff {b : BindInfo LTerm} : plainBind b = true ↔
    ∀ x ∈ b.bvSubst, ann x.2 = .plain ∧ plainSubsts x.2 = true := by
  obtain ⟨vars, s⟩ := b
  rw [plainBind]
  induction s with
  | nil => simp [plainEntries]
  | cons x s ih => simp [plainEntries, ih]

theorem plainBranches_iff {bl : List TermBranch} : plainBranches bl = true ↔
    ∀ x ∈ bl, plainBind x.2.1 = true ∧ plainSubsts x.2.2 = true := by
  induction bl with
  | nil => simp [plainBranches]
  | cons x bl ih => simp [plainBranches, ih]

/-! Forced forms are well formed and have the same form with joined annotations. -/

variable {e t : LTerm}

section Fresh

variable {k : Nat} {vl : List VSymbol} {b : BindInfo LTerm} {es : List LTerm}

theorem FreshFrom.not_mem (h : FreshFrom k vl b es) {w : VSymbol} (hw : Reaches vl b es w) :
    w ∉ renameVars k vl := by
  intro hmem
  have h1 := h w hw
  have h2 := (renameVars_tag hmem).1
  omega

theorem BindWf.renamed_types {U : Stored.Session} (hb : BindWf U vl b es) (k : Nat) :
    ∀ u ∈ renameVars k vl, U.ty u.vsTy := by
  intro u hu
  have hty : u.vsTy ∈ (renameVars k vl).map VSymbol.vsTy := mem_map_of_mem hu
  rw [renameVars_tys] at hty
  obtain ⟨v, hv, he⟩ := mem_map.mp hty
  exact he ▸ hb.types v hv

variable {C : AlgSig} {U : Stored.Session}

theorem BindWf.opened (hb : BindWf U vl b es) (hs : ∀ x ∈ b.bvSubst, Wf C U x.2) (he : e ∈ es)
    (hwf : Wf C U e) (hk : FreshFrom k vl b es) :
    Wf C U (tSubstUnsafe (vlRename b.bvSubst vl (renameVars k vl)) e) ∧
      ∀ ρ j, view joinAnn (under ρ j (renameVars k vl) fun _ => none) (j + vl.length)
        (tSubstUnsafe (vlRename b.bvSubst vl (renameVars k vl)) e) =
          viewBody joinAnn ρ j vl b e := by
  have h := open_wf hb hs he hwf (renameVars_tys k vl) (renameVars_nodup k vl)
    fun w hw => hk.not_mem hw
  rw [renameVars_length] at h
  exact h

end Fresh

variable {C : AlgSig} {U : Stored.Session}

theorem Forced.keeps {t' : LTerm} (h : Forced t t') : Wf C U t → Wf C U t' ∧ plainSubsts t' = true ∧
      ∀ ρ k, view joinAnn ρ k t' = view joinAnn ρ k t := by
  induction h with
  | tvar a v | tconst a c ty | ttrue a | tfalse a => exact fun h => ⟨h, rfl, fun ρ k => rfl⟩
  | @tapp a ls ty ds _ ih =>
    intro h
    cases h with
    | tapp _ hls hty h =>
      have ih := fun d hd => ih d hd (h d.1 (mem_map_of_mem hd))
      refine ⟨.tapp a hls hty (forall_mem_map.mpr fun d hd => (ih d hd).1),
        plainList_iff.mpr (forall_mem_map.mpr fun d hd => (ih d hd).2.1),
        fun ρ k => ?_⟩
      rw [view_tapp, view_tapp, map_map, map_map]
      refine congrArg (VTerm.tapp a ls · ty) (map_congr_left fun d hd => ?_)
      exact (ih d hd).2.2 ρ k
  | tif a _ _ _ ihf iht ihe =>
    intro h
    cases h with
    | tif _ h1 h2 h3 =>
      obtain ⟨hf1, hf2, hf3⟩ := ihf h1
      obtain ⟨ht1, ht2, ht3⟩ := iht h2
      obtain ⟨he1, he2, he3⟩ := ihe h3
      refine ⟨.tif a hf1 ht1 he1, by rw [plainSubsts, hf2, ht2, he2]; rfl, fun ρ k => ?_⟩
      rw [view, view, hf3, ht3, he3]
  | @tlet a t t' e e' v u b n _ hn hu _ iht ihe =>
    intro h
    cases h with
    | tlet _ h1 hb hs h2 =>
      obtain ⟨ht1, ht2, ht3⟩ := iht h1
      obtain ⟨hwf, hview⟩ := hb.opened hs (mem_singleton.mpr rfl) h2 hn
      obtain ⟨he1, he2, he3⟩ := ihe hwf
      have huty : U.ty u.vsTy := hb.renamed_types n u (by rw [hu]; exact mem_singleton.mpr rfl)
      refine ⟨.tlet a ht1 (tCloseBound_wf huty he1) (forall_mem_nil _) he1, ?_, fun ρ k => ?_⟩
      · rw [plainSubsts, ht2, he2]
        rfl
      · rw [view_tlet, view_tlet, ht3, ← hview ρ k]
        refine congrArg (VTerm.tlet a _) ?_
        exact (viewBody_bndNew _ ρ k [u] _ e').trans (hu ▸ he3 _ (k + 1))
  | @tcase a t t' ds _ hn _ iht ihe =>
    intro h
    cases h with
    | tcase _ h1 hp hls hb hs h2 =>
      rw [forall_mem_map] at hp hls hb hs h2
      obtain ⟨ht1, ht2, ht3⟩ := iht h1
      have hopen := fun d hd =>
        (hb d hd).opened (hs d hd) (mem_singleton.mpr rfl) (h2 d hd) (hn d hd)
      have ihe := fun d hd => ihe d hd (hopen d hd).1
      have hlen := fun d : TermBranch × Nat × LTerm =>
        renameVars_length d.2.1 (patVars d.1.1)
      have hvars : ∀ d ∈ ds, patVars (tOpenBranch d.2.1 d.1).1 =
          renameVars d.2.1 (patVars d.1.1) := fun d hd =>
        Stored.patVars_renamed (hp d hd) (hlen d)
      refine ⟨.tcase a ht1 ?_ ?_ ?_ ?_ ?_, ?_, fun ρ k => ?_⟩
      · exact forall_mem_map.mpr fun d hd =>
          patTyped_renamed (hp d hd) (renameVars_tys _ _) (renameVars_nodup _ _)
      · refine forall_mem_map.mpr fun d hd => ?_
        change ∀ cs ∈ patLs (patRenameAll _ d.1.1), U.ls cs
        rw [patLs_patRenameAll]
        exact hls d hd
      · refine forall_mem_map.mpr fun d hd => ?_
        have htys := (hb d hd).renamed_types d.2.1
        rw [← hvars d hd] at htys
        exact tCloseBranch_wf htys (ihe d hd).1
      · exact forall_mem_map.mpr fun d hd => forall_mem_nil _
      · exact forall_mem_map.mpr fun d hd => (ihe d hd).1
      · rw [plainSubsts, ht2, Bool.true_and, plainBranches_iff]
        exact forall_mem_map.mpr fun d hd => ⟨rfl, (ihe d hd).2.1⟩
      · rw [view_tcase, view_tcase, ht3, map_map, map_map]
        refine congrArg (VTerm.tcase a _) (map_congr_left fun d hd => ?_)
        refine Prod.ext (Stored.levelPat_renamed (hp d hd) (hlen d) (renameVars_nodup _ _) k) ?_
        refine Eq.trans ?_ (((ihe d hd).2.2 _ _).trans ((hopen d hd).2 ρ k))
        change viewBody _ ρ k (patVars (tOpenBranch d.2.1 d.1).1) (bndNew _) d.2.2 = _
        rw [viewBody_bndNew, hvars d hd, hlen d]
  | @teps a f f' v u b n hn hu _ ihf =>
    intro h
    cases h with
    | teps _ hb hs h2 =>
      obtain ⟨hwf, hview⟩ := hb.opened hs (mem_singleton.mpr rfl) h2 hn
      obtain ⟨hf1, hf2, hf3⟩ := ihf hwf
      have huty : U.ty u.vsTy := hb.renamed_types n u (by rw [hu]; exact mem_singleton.mpr rfl)
      refine ⟨.teps a (tCloseBound_wf huty hf1) (forall_mem_nil _) hf1, ?_, fun ρ k => ?_⟩
      · rw [plainSubsts, hf2]
        rfl
      · rw [view_teps, view_teps, ← hview ρ k, hu]
        refine congrArg (VTerm.teps a _) ?_
        exact (viewBody_bndNew _ ρ k _ _ f').trans (hf3 _ (k + 1))
  | @tquant a q vl ul b tr f f' ds n hn hu hds _ _ ihd ihf =>
    intro h
    cases h with
    | tquant _ _ hb hs htr h2 =>
      have hmem : f ∈ tr.flatten ++ [f] := mem_append_right _ (mem_singleton.mpr rfl)
      obtain ⟨hwf, hview⟩ := hb.opened hs hmem h2 hn
      obtain ⟨hf1, hf2, hf3⟩ := ihf hwf
      have hopen := fun l hl t ht =>
        hb.opened hs (mem_append_left [f] (mem_flatten.mpr ⟨l, hl, ht⟩))
          (htr l hl t ht) hn
      have hds : tr.map (·.map (tSubstUnsafe (vlRename b.bvSubst vl (renameVars n vl)))) =
          ds.map (·.map Prod.fst) := hds
      have ihd : ∀ l ∈ ds, ∀ d ∈ l, Wf C U d.2 ∧ plainSubsts d.2 = true ∧
          ∀ ρ k, view joinAnn ρ k d.2 = view joinAnn ρ k d.1 := by
        intro l hl d hd
        refine ihd l hl d hd ?_
        have hin : l.map Prod.fst ∈ ds.map (·.map Prod.fst) := mem_map_of_mem hl
        rw [← hds] at hin
        obtain ⟨l', hl', he⟩ := mem_map.mp hin
        have hin : d.1 ∈ l.map Prod.fst := mem_map_of_mem hd
        rw [← he] at hin
        obtain ⟨t, ht, he⟩ := mem_map.mp hin
        exact he ▸ (hopen l' hl' t ht).1
      have hul : ∀ u ∈ ul, U.ty u.vsTy := hu ▸ hb.renamed_types n
      have hlen : ul.length = vl.length := hu ▸ renameVars_length n vl
      have htr1 : ∀ l ∈ ds.map (·.map Prod.snd), ∀ t ∈ l, Wf C U t :=
        forall_mem_map.mpr fun l hl =>
          forall_mem_map.mpr fun d hd => (ihd l hl d hd).1
      refine ⟨.tquant a q (tCloseQuant_wf hul htr1 hf1) (forall_mem_nil _) htr1 hf1, ?_, fun ρ k => ?_⟩
      · rw [plainSubsts, hf2, Bool.and_true, Bool.and_eq_true, plainTrigger_iff]
        exact ⟨rfl, forall_mem_map.mpr fun l hl =>
          forall_mem_map.mpr fun d hd => (ihd l hl d hd).2.1⟩
      · rw [view_tquant, view_tquant]
        have hbody : ∀ e, viewBody joinAnn ρ k ul (tCloseQuant ul
            (ds.map (·.map Prod.snd)) f').2.1 e = view joinAnn
              (under ρ k (renameVars n vl) fun _ => none) (k + vl.length) e := by
          intro e
          rw [← hlen, tCloseQuant, hu]
          rfl
        congr 1
        · have hviews := congrArg (List.map (List.map (view joinAnn
            (under ρ k (renameVars n vl) fun _ => none) (k + vl.length)))) hds
          simp only [map_map, Function.comp_def] at hviews ⊢
          refine Eq.trans ?_ (hviews.symm.trans ?_)
          · refine map_congr_left fun l hl => map_congr_left fun d hd => ?_
            rw [hbody, (ihd l hl d hd).2.2]
          · refine map_congr_left fun l hl => map_congr_left fun t ht => ?_
            exact (hopen l hl t ht).2 ρ k
        · rw [hbody, hf3]
          exact hview ρ k
  | tbinop a op _ _ ihf ihg =>
    intro h
    cases h with
    | tbinop _ _ h1 h2 =>
      obtain ⟨hf1, hf2, hf3⟩ := ihf h1
      obtain ⟨hg1, hg2, hg3⟩ := ihg h2
      refine ⟨.tbinop a op hf1 hg1, by rw [plainSubsts, hf2, hg2]; rfl, fun ρ k => ?_⟩
      rw [view, view, hf3, hg3]
  | tnot a _ ih =>
    intro h
    cases h with
    | tnot _ h1 =>
      obtain ⟨hf1, hf2, hf3⟩ := ih h1
      refine ⟨.tnot a hf1, hf2, fun ρ k => ?_⟩
      rw [view, view, hf3]

/-! Every term has a forced form. -/

theorem exists_freshFrom (vl : List VSymbol) (b : BindInfo LTerm) (es : List LTerm) :
    ∃ k, FreshFrom k vl b es := by
  let tags := (es.flatMap fun e => (free e).flatMap (freeSubst b)).map (·.vsName.idTag)
  obtain ⟨k, hk⟩ := tags.toFinset.exists_nat_subset_range
  refine ⟨k, fun w hw => Finset.mem_range.mp (hk (mem_toFinset.mpr (mem_map_of_mem ?_)))⟩
  obtain ⟨e, he, v, hv, -, hw⟩ := hw
  exact mem_flatMap.mpr ⟨e, he, mem_flatMap.mpr ⟨v, hv, hw⟩⟩

theorem exists_pairs {ξ δ : Type} {R : ξ → δ → Prop} {l : List ξ} (h : ∀ x ∈ l, ∃ y, R x y) :
    ∃ ds : List (ξ × δ), ds.map Prod.fst = l ∧ ∀ d ∈ ds, R d.1 d.2 := by
  choose f hf using h
  refine ⟨l.attach.map fun x => (x.1, f x.1 x.2), ?_, forall_mem_map.mpr fun x _ => hf x.1 x.2⟩
  rw [map_map]
  exact attach_map_subtype_val l

section Exists

variable {n : Nat}
  (ih : ∀ {t}, Wf C U t → ∀ ρ k, (view joinAnn ρ k t).nodes ≤ n → ∃ t', Forced t t')

include ih

theorem exists_forced_body {vl : List VSymbol} {b : BindInfo LTerm} {es : List LTerm}
    (hb : BindWf U vl b es) (hs : ∀ x ∈ b.bvSubst, Wf C U x.2) (he : e ∈ es) (hwf : Wf C U e)
    {k : Nat} (hk : FreshFrom k vl b es) (ρ : VSymbol → Nat → VTerm) (j : Nat)
    (hn : (viewBody joinAnn ρ j vl b e).nodes ≤ n) :
    ∃ e', Forced (tSubstUnsafe (vlRename b.bvSubst vl (renameVars k vl)) e) e' := by
  obtain ⟨hwf, hview⟩ := hb.opened hs he hwf hk
  exact ih hwf _ _ ((hview ρ j).symm ▸ hn)

theorem exists_forced_step (h : Wf C U t) (ρ : VSymbol → Nat → VTerm) (k : Nat)
    (hn : (view joinAnn ρ k t).nodes ≤ n + 1) : ∃ t', Forced t t' := by
  cases h with
  | @tvar a v _ => exact ⟨_, .tvar a v⟩
  | @tconst a c ty _ => exact ⟨_, .tconst a c ty⟩
  | @tapp a ls tl ty _ _ h =>
    rw [view_tapp, VTerm.nodes] at hn
    have hparts : ∀ t ∈ tl, ∃ t', Forced t t' := by
      intro t ht
      have hle := VTerm.nodes_le_list (mem_map_of_mem (f := view joinAnn ρ k) ht)
      exact ih (h t ht) ρ k (by omega)
    obtain ⟨ds, rfl, hds⟩ := exists_pairs hparts
    exact ⟨_, .tapp a ls ty ds hds⟩
  | @tif a f t e h1 h2 h3 =>
    rw [view, VTerm.nodes] at hn
    obtain ⟨f', hf⟩ := ih h1 ρ k (by omega)
    obtain ⟨t', ht⟩ := ih h2 ρ k (by omega)
    obtain ⟨e', he⟩ := ih h3 ρ k (by omega)
    exact ⟨_, .tif a hf ht he⟩
  | @tlet a t v b e h1 hb hs h2 =>
    rw [view_tlet, VTerm.nodes] at hn
    obtain ⟨t', ht⟩ := ih h1 ρ k (by omega)
    obtain ⟨i, hi⟩ := exists_freshFrom [v] b [e]
    obtain ⟨e', he⟩ := exists_forced_body ih hb hs (mem_singleton.mpr rfl) h2 hi ρ k
      (by omega)
    exact ⟨_, .tlet a i ht hi rfl he⟩
  | @tcase a t bl h1 hp _ hb hs h2 =>
    rw [view_tcase, VTerm.nodes] at hn
    obtain ⟨t', ht⟩ := ih h1 ρ k (by omega)
    have hparts : ∀ x ∈ bl, ∃ y : Nat × LTerm, FreshFrom y.1 (patVars x.1) x.2.1 [x.2.2] ∧
        Forced (tOpenBranch y.1 x).2 y.2 := by
      intro x hx
      obtain ⟨i, hi⟩ := exists_freshFrom (patVars x.1) x.2.1 [x.2.2]
      have hle := VTerm.nodes_le_branches (mem_map_of_mem (f := fun x : TermBranch =>
        (levelPat (patLevel k x.1) x.1, viewBody joinAnn ρ k (patVars x.1) x.2.1 x.2.2)) hx)
      obtain ⟨e', he⟩ := exists_forced_body ih (hb x hx) (hs x hx) (mem_singleton.mpr rfl)
        (h2 x hx) hi ρ k (by simp only at hle; omega)
      exact ⟨(i, e'), hi, he⟩
    obtain ⟨ds, rfl, hds⟩ := exists_pairs hparts
    exact ⟨_, .tcase a ht (fun d hd => (hds d hd).1) fun d hd => (hds d hd).2⟩
  | @teps a v b f hb hs h2 =>
    rw [view_teps, VTerm.nodes] at hn
    obtain ⟨i, hi⟩ := exists_freshFrom [v] b [f]
    obtain ⟨f', hf⟩ := exists_forced_body ih hb hs (mem_singleton.mpr rfl) h2 hi ρ k
      (by omega)
    exact ⟨_, .teps a i hi rfl hf⟩
  | @tquant a q vl b tr f hb hs htr h2 =>
    rw [view_tquant, VTerm.nodes] at hn
    obtain ⟨i, hi⟩ := exists_freshFrom vl b (tr.flatten ++ [f])
    obtain ⟨f', hf⟩ := exists_forced_body ih hb hs
      (mem_append_right _ (mem_singleton.mpr rfl)) h2 hi ρ k (by omega)
    have hparts : ∀ l ∈ tr.map (·.map (tSubstUnsafe (vlRename b.bvSubst vl (renameVars i vl)))),
        ∃ ds : List (LTerm × LTerm), ds.map Prod.fst = l ∧ ∀ d ∈ ds, Forced d.1 d.2 := by
      refine forall_mem_map.mpr fun l hl => exists_pairs ?_
      refine forall_mem_map.mpr fun t ht => ?_
      have hle := VTerm.nodes_le_trigger
        (mem_map_of_mem (f := (·.map (viewBody joinAnn ρ k vl b))) hl)
        (mem_map_of_mem ht)
      exact exists_forced_body ih hb hs
        (mem_append_left _ (mem_flatten.mpr ⟨l, hl, ht⟩)) (htr l hl t ht) hi ρ k
        (by omega)
    obtain ⟨dss, hfst, hdss⟩ := exists_pairs hparts
    refine ⟨_, .tquant a q (dss.map Prod.snd) i hi rfl ?_ ?_ hf⟩
    · refine hfst.symm.trans ?_
      rw [map_map]
      exact map_congr_left fun d hd => (hdss d hd).1.symm
    · exact forall_mem_map.mpr fun d hd => (hdss d hd).2
  | @tbinop a op f g h1 h2 =>
    rw [view, VTerm.nodes] at hn
    obtain ⟨f', hf⟩ := ih h1 ρ k (by omega)
    obtain ⟨g', hg⟩ := ih h2 ρ k (by omega)
    exact ⟨_, .tbinop a op hf hg⟩
  | @tnot a f h1 =>
    rw [view, VTerm.nodes] at hn
    obtain ⟨f', hf⟩ := ih h1 ρ k (by omega)
    exact ⟨_, .tnot a hf⟩
  | ttrue a => exact ⟨_, .ttrue a⟩
  | tfalse a => exact ⟨_, .tfalse a⟩

end Exists

theorem Wf.exists_forced (h : Wf C U t) : ∃ t', Forced t t' := by
  have hall : ∀ n {t}, Wf C U t → ∀ ρ k, (view joinAnn ρ k t).nodes ≤ n →
      ∃ t', Forced t t' := by
    intro n
    induction n with
    | zero =>
      intro t _ ρ k hn
      have := (view joinAnn ρ k t).nodes_pos
      omega
    | succ n ih => exact fun h ρ k hn => exists_forced_step ih h ρ k hn
  exact hall _ h (fun v _ => .tvar .plain v) 0 le_rfl

/-! Deferred terms without annotations. -/

variable {ρ : VSymbol → Nat → VTerm} (hρ : ∀ v j, (ρ v j).ann = .plain)

include hρ in
theorem ann_view_plain (ht : ann t = .plain) (k : Nat) : (view joinAnn ρ k t).ann = .plain := by
  cases t with
  | tvar a v =>
    rw [view, joinAnn, VTerm.ann_setAnn, hρ, Ann.copy_plain]
    exact ht
  | _ => exact ht

include hρ in
theorem viewBody_plain {b : BindInfo LTerm} (hb : plainBind b = true)
    (ihb : ∀ x ∈ b.bvSubst, plainSubsts x.2 = true → ∀ ρ : VSymbol → Nat → VTerm,
      (∀ v j, (ρ v j).ann = .plain) → ∀ k, view VTerm.setAnn ρ k x.2 = view joinAnn ρ k x.2)
    (ihe : ∀ ρ : VSymbol → Nat → VTerm, (∀ v j, (ρ v j).ann = .plain) →
      ∀ k, view VTerm.setAnn ρ k e = view joinAnn ρ k e) (k : Nat) (vl : List VSymbol) :
    viewBody VTerm.setAnn ρ k vl b e = viewBody joinAnn ρ k vl b e := by
  rw [plainBind_iff] at hb
  have hsubst : viewSubst VTerm.setAnn ρ b = viewSubst joinAnn ρ b := by
    funext v
    rw [viewSubst_eq, viewSubst_eq]
    cases ht : b.bvSubst.lookup v with
    | none => rfl
    | some t =>
      have hin := AssocList.mem_of_lookup ht
      refine congrArg some (funext fun j => ?_)
      exact ihb _ hin (hb _ hin).2 ρ hρ j
  rw [viewBody, hsubst]
  refine ihe _ (fun v j => ?_) _
  cases hi : Stored.lastIdx? v vl with
  | some i => rw [under_bound hi, VTerm.ann]
  | none =>
    rw [under_free (Stored.lastIdx?_eq_none.mp hi), viewSubst_eq]
    cases ht : b.bvSubst.lookup v with
    | none => exact hρ v j
    | some t => exact ann_view_plain hρ (hb _ (AssocList.mem_of_lookup ht)).1 j

theorem view_plain (t : LTerm) : plainSubsts t = true → ∀ ρ : VSymbol → Nat → VTerm,
    (∀ v j, (ρ v j).ann = .plain) → ∀ k, view VTerm.setAnn ρ k t = view joinAnn ρ k t := by
  induction t using LTerm.induct with
  | tvar a v =>
    intro _ ρ hρ k
    rw [view, view, joinAnn, hρ, Ann.copy_plain]
  | tapp a ls tl ty ih =>
    intro h ρ hρ k
    rw [view_tapp, view_tapp]
    refine congrArg (VTerm.tapp a ls · ty) (map_congr_left fun t ht => ?_)
    exact ih t ht (plainList_iff.mp h t ht) ρ hρ k
  | tif a f t e hf ht he =>
    intro h ρ hρ k
    simp only [plainSubsts, Bool.and_eq_true] at h
    rw [view, view, hf h.1.1 ρ hρ, ht h.1.2 ρ hρ, he h.2 ρ hρ]
  | tlet a t v b e ht hb he =>
    intro h ρ hρ k
    simp only [plainSubsts, Bool.and_eq_true] at h
    rw [view_tlet, view_tlet, ht h.1.1 ρ hρ, viewBody_plain hρ h.1.2 hb (he h.2)]
  | tcase a t bl ht hb he =>
    intro h ρ hρ k
    simp only [plainSubsts, Bool.and_eq_true, plainBranches_iff] at h
    rw [view_tcase, view_tcase, ht h.1 ρ hρ]
    refine congrArg (VTerm.tcase a _) (map_congr_left fun x hx => Prod.ext rfl ?_)
    exact viewBody_plain hρ (h.2 x hx).1 (hb x hx) (he x hx (h.2 x hx).2) k _
  | teps a v b f hb hf =>
    intro h ρ hρ k
    simp only [plainSubsts, Bool.and_eq_true] at h
    rw [view_teps, view_teps, viewBody_plain hρ h.1 hb (hf h.2)]
  | tquant a q vl b tr f hb htr hf =>
    intro h ρ hρ k
    simp only [plainSubsts, Bool.and_eq_true, plainTrigger_iff] at h
    rw [view_tquant, view_tquant, viewBody_plain hρ h.1.1 hb (hf h.2)]
    refine congrArg (VTerm.tquant a q vl.length · _) ?_
    refine map_congr_left fun l hl => map_congr_left fun t ht => ?_
    exact viewBody_plain hρ h.1.1 hb (htr l hl t ht (h.1.2 l hl t ht)) k vl
  | tbinop a op f g hf hg =>
    intro h ρ hρ k
    simp only [plainSubsts, Bool.and_eq_true] at h
    rw [view, view, hf h.1 ρ hρ, hg h.2 ρ hρ]
  | tnot a f hf =>
    intro h ρ hρ k
    rw [view, view, hf h ρ hρ]
  | _ => exact fun _ _ _ _ => rfl

end Located
end Why3
