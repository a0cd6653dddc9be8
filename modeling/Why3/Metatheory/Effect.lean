import Why3.Library.Except
import Why3.Library.Stale
import Why3.Mlw.Effect

/-!
Effects compose.

Staleness of the code is staleness in the graph of exposed regions. Effects cover
no region they reset, cover only what they write, and what they write without
covering it is stale; every operation on effects keeps this.
-/
namespace Why3
namespace Mlw

open Stale
open Except (bind_eq_ok)
open Finset (coe_union disjoint_coe forall_mem_union mem_coe mem_filter mem_sdiff mem_union union_assoc union_comm)

variable {T : ItsTable}

/-! Stale regions and types. -/

/-- The graph of exposed regions. -/
def Exposes (T : ItsTable) (r r' : Region) : Prop := r' ∈ regExpRegs T r

def IsStale (T : ItsTable) (rs cv : Finset Region) (r : Region) : Prop :=
  StaleFrom (Exposes T) (rs : Set Region) (cv : Set Region) r

theorem any_ityRegsList {rs cv : Finset Region} {tl : List Ity}
    (h : ∀ t ∈ tl, (ityUncRegs T cv t).any (· ∈ rs) = true ↔
      ∃ r ∈ ityExpRegs T t, IsStale T rs cv r) (fl : List ItsFlag) :
    (ityRegsList T (·.itsExposed) cv fl tl).any (· ∈ rs) = true ↔
      ∃ r ∈ ityExpRegsList T fl tl, IsStale T rs cv r := by
  induction tl generalizing fl with
  | nil => cases fl <;> simp [ityRegsList, ityExpRegsList]
  | cons t tl ih =>
    cases fl with
    | nil => simp [ityRegsList, ityExpRegsList]
    | cons x fl =>
      have ht := h t List.mem_cons_self
      have htl := ih (List.forall_mem_cons.mp h).2 fl
      simp only [ityUncRegs] at ht
      simp only [ityRegsList, ityExpRegsList, List.any_append, Bool.or_eq_true, htl,
        List.mem_append, or_and_right, exists_or]
      by_cases hx : x.itsExposed
      · simp only [hx, if_true, ht]
      · simp [hx]

theorem any_ityRegs_args {rs cv : Finset Region} {tl rl : List Ity}
    (htl : ∀ t ∈ tl, (ityUncRegs T cv t).any (· ∈ rs) = true ↔
      ∃ r ∈ ityExpRegs T t, IsStale T rs cv r)
    (hrl : ∀ t ∈ rl, (ityUncRegs T cv t).any (· ∈ rs) = true ↔
      ∃ r ∈ ityExpRegs T t, IsStale T rs cv r) (fl fr : List ItsFlag) :
    (ityRegsList T (·.itsExposed) cv fl tl ++ ityRegsList T (·.itsExposed) cv fr rl).any
        (· ∈ rs) = true ↔
      ∃ r ∈ ityExpRegsList T fl tl ++ ityExpRegsList T fr rl, IsStale T rs cv r := by
  simp only [List.any_append, Bool.or_eq_true, any_ityRegsList htl, any_ityRegsList hrl,
    List.mem_append, or_and_right, exists_or]

theorem ityRStale_iff {rs cv : Finset Region} (ity : Ity) :
    ityRStale T rs cv ity = true ↔ ∃ r ∈ ityExpRegs T ity, IsStale T rs cv r := by
  change (ityUncRegs T cv ity).any (· ∈ rs) = true ↔ _
  induction ity using Ity.induct with
  | ityvar v => simp [ityUncRegs, ityRegs, ityExpRegs]
  | ityapp s tl rl htl hrl =>
    simp only [ityUncRegs, ityRegs, ityExpRegs]
    by_cases hpure : ityPure (.ityapp s tl rl)
    · simp [hpure]
    · simp only [hpure]
      exact any_ityRegs_args htl hrl _ _
  | ityreg name s tl rl htl hrl =>
    have hargs := any_ityRegs_args htl hrl (T s).itsArgFlg (T s).itsRegFlg
    simp only [ityUncRegs, ityRegs, ityExpRegs, List.mem_singleton, exists_eq_left]
    rw [IsStale, staleFrom_iff]
    by_cases hcv : (⟨name, s, tl, rl⟩ : Region) ∈ cv
    · simp [hcv]
    · simp only [hcv, if_false, List.any_cons, Bool.or_eq_true, decide_eq_true_eq, hargs,
        mem_coe, not_false_eq_true, true_and]
      rfl

theorem regRStale_iff {rs cv : Finset Region} {r : Region} :
    regRStale T rs cv r = true ↔ IsStale T rs cv r := by
  have h := @ityRStale_iff T rs cv (ityReg r)
  simp only [ityReg, ityExpRegs, List.mem_singleton, exists_eq_left] at h
  exact h

/-! The invariant of effects. -/

structure EffectOk (T : ItsTable) (e : Effect) : Prop where
  covers_writes : e.effCovers ⊆ e.effWrites.domain
  covers_resets : Disjoint e.effCovers e.effResets
  uncovered : ∀ r ∈ e.effWrites.domain, r ∉ e.effCovers →
    regRStale T e.effResets e.effCovers r = true

variable {e e' e₁ e₂ e₃ : Effect} {rd : Finset PvSymbol}

variable (h : EffectOk T e)

/-- An effect that writes what it covers and does not reset it. -/
theorem EffectOk.of_covered (hwrites : e.effCovers = e.effWrites.domain)
    (hresets : Disjoint e.effCovers e.effResets) : EffectOk T e where
  covers_writes := hwrites.subset
  covers_resets := hresets
  uncovered := fun _ hr hc => absurd (hwrites ▸ hr) hc

theorem effRead_ok (rd : Finset PvSymbol) : EffectOk T (effRead rd) :=
  .of_covered rfl (Finset.disjoint_empty_right _)

include h in
theorem EffectOk.effBind (rd : Finset PvSymbol) : EffectOk T (effBind rd e) := { h with }

theorem resetTaints_eq (he : resetTaints T e = .ok e') :
    ∃ tnt, e' = { e with effTaints := tnt } := by
  simp only [resetTaints] at he
  split at he
  · obtain ⟨-, -, he⟩ := bind_eq_ok.mp he
    cases he
    exact ⟨_, rfl⟩
  · cases he
    exact ⟨_, rfl⟩

include h in
theorem EffectOk.resetTaints (he : resetTaints T e = .ok e') :
    EffectOk T e' := by
  obtain ⟨tnt, rfl⟩ := resetTaints_eq he
  exact { h with }

include h in
theorem EffectOk.effGhostify {gh : Bool} (he : effGhostify T gh e = .ok e') : EffectOk T e' := by
  simp only [Mlw.effGhostify] at he
  split at he
  · cases he
    exact h
  · split at he
    · cases he
    · refine EffectOk.resetTaints ?_ he
      exact { h with }

include h in
theorem EffectOk.effGhostifyWeak {gh : Bool} (he : effGhostifyWeak T gh e = .ok e')
    : EffectOk T e' := by
  simp only [Mlw.effGhostifyWeak] at he
  split at he
  · cases he
    exact h
  · split at he
    · cases he
      exact h
    · split at he
      · cases he
        exact h
      · exact h.effGhostify he

theorem EffectOk.effContaminate (h : EffectOk T e₂)
    (he : effContaminate T e₁ e₂ = .ok e') : EffectOk T e' := by
  simp only [Mlw.effContaminate] at he
  split at he
  · cases he
    exact h
  · split at he
    · cases he
      exact h
    · exact h.effGhostify he

theorem EffectOk.effContaminateWeak (h : EffectOk T e₂)
    (he : effContaminateWeak T e₁ e₂ = .ok e') : EffectOk T e' := by
  simp only [Mlw.effContaminateWeak] at he
  split at he
  · cases he
    exact h
  · split at he
    · exact h.effGhostifyWeak he
    · exact h.effGhostify he

include h in
theorem EffectOk.effReadPre (he : effReadPre T rd e = .ok e') : EffectOk T e' := by
  simp only [Mlw.effReadPre] at he
  split at he
  · cases he
    exact h
  · obtain ⟨-, -, he⟩ := bind_eq_ok.mp he
    cases he
    exact { h with }

include h in
theorem EffectOk.effReadPost (he : effReadPost T e rd = .ok e') : EffectOk T e' := by
  obtain ⟨-, -, he⟩ := bind_eq_ok.mp he
  obtain ⟨-, -, he⟩ := bind_eq_ok.mp he
  exact h.effReadPre he

theorem effWrite_ok {wr : SetMap Region PvSymbol}
    (he : effWrite T rd wr = .ok e) : EffectOk T e := by
  simp only [effWrite] at he
  split at he
  · cases he
    exact effRead_ok rd
  · split at he
    · cases he
    · split at he
      · cases he
      · refine EffectOk.resetTaints ?_ he
        exact .of_covered rfl (Finset.disjoint_empty_right _)

theorem effAssign_eq_ok {asl : List Assign} (h : effAssign T asl = .ok e) :
    ∃ writes m acc, asl.foldlM (addAssign T) [] = .ok writes ∧ transitions T writes = .ok m ∧
      (m.insertionSort (levelOrder · ·)).foldlM addTransitions ⟨∅, [], []⟩ = .ok acc ∧
      e.effWrites.domain = (writes.map Prod.fst).toFinset ∧ e.effResets = acc.rst ∧
      e.effCovers = (writes.map Prod.fst).toFinset \ acc.rst := by
  obtain ⟨writes, hwrites, h⟩ := bind_eq_ok.mp h
  obtain ⟨taint, -, h⟩ := bind_eq_ok.mp h
  obtain ⟨-, -, h⟩ := bind_eq_ok.mp h
  obtain ⟨m, hm, h⟩ := bind_eq_ok.mp h
  obtain ⟨acc, hacc, h⟩ := bind_eq_ok.mp h
  obtain ⟨-, -, h⟩ := bind_eq_ok.mp h
  cases h
  have hdomain : (SetMap.ofList (writes.map fun x => (x.1, x.2.map (·.1)))).domain =
      (writes.map Prod.fst).toFinset := by
    change ((writes.map fun x => (x.1, x.2.map (·.1))).map Prod.fst).toFinset = _
    rw [List.map_map]
    rfl
  refine ⟨writes, m, acc, hwrites, hm, hacc, hdomain, rfl, ?_⟩
  rw [← hdomain]

/-- The writes that an assignment does not cover are reset. -/
theorem effAssign_ok {asl : List Assign} (he : effAssign T asl = .ok e) : EffectOk T e := by
  obtain ⟨writes, m, acc, -, -, -, hdomain, hresets, hcovers⟩ := effAssign_eq_ok he
  rw [← hdomain, ← hresets] at hcovers
  refine ⟨hcovers ▸ Finset.sdiff_subset, hcovers ▸ Finset.sdiff_disjoint, ?_⟩
  intro r hr hc
  have hreset : r ∈ e.effResets := by
    by_contra hn
    exact hc (hcovers ▸ mem_sdiff.mpr ⟨hr, hn⟩)
  exact regRStale_iff.mpr (.here hc hreset)

theorem mem_overwritten {wr : SetMap Region PvSymbol} {r : Region}
    {x : Finset Region × Finset Region} (h : overwritten T wr r = .ok x) : r ∈ x.1 := by
  obtain ⟨sbs, -, h⟩ := bind_eq_ok.mp h
  refine Except.foldlM_invariant (fun x => r ∈ x.1) h (Finset.mem_insert_self _ _) ?_
  intro y f y' _ hy hstep
  obtain ⟨t, -, hstep⟩ := bind_eq_ok.mp hstep
  cases hstep
  split
  · exact hy
  · exact Finset.mem_union_left _ hy

include h in
/-- A written region survives, so no covered region is reset. -/
theorem EffectOk.effResetOverwritten (he : effResetOverwritten T e = .ok e') : EffectOk T e' := by
  simp only [Mlw.effResetOverwritten] at he
  split at he
  · cases he
  · next hresets =>
    split at he
    · cases he
    · next hall =>
      cases he
      have hempty : e.effResets = ∅ := not_not.mp hresets
      have hcovers : e.effCovers = e.effWrites.domain := by
        apply Finset.Subset.antisymm h.covers_writes
        intro r hr
        by_contra hc
        have hstale := regRStale_iff.mp (h.uncovered r hr hc)
        rw [IsStale, hempty, Finset.coe_empty] at hstale
        exact not_staleFrom_of_empty hstale
      refine .of_covered hcovers ?_
      rw [Finset.disjoint_left]
      intro r hr hrst
      obtain ⟨-, hsvv⟩ := mem_sdiff.mp hrst
      have hr' : r ∈ e.effWrites.domain := hcovers ▸ hr
      apply hsvv
      refine Finset.mem_biUnion.mpr ⟨r, hr', ?_⟩
      cases hover : overwritten T e.effWrites r with
      | error x => exact absurd ⟨r, hr', by rw [hover]; rfl⟩ hall
      | ok x =>
        rw [overwrittenOf, hover]
        exact mem_overwritten hover

/-! Unions. -/

theorem mem_removeStale {srg : Finset Region} {r : Region} :
    r ∈ removeStale T e srg ↔ r ∈ srg ∧ ¬ IsStale T e.effResets e.effCovers r := by
  rw [removeStale, mem_filter, ← regRStale_iff, Bool.not_eq_true]

theorem coe_removeStale (e : Effect) (srg : Finset Region) : (removeStale T e srg : Set Region) =
      {r | r ∈ (srg : Set Region) ∧ ¬ IsStale T e.effResets e.effCovers r} :=
  Set.ext fun _ => mem_removeStale

theorem coe_covers_effUnionRaw (e₁ e₂ : Effect) : ((effUnionRaw T e₁ e₂).effCovers : Set Region) =
      joinCovers (Exposes T) e₁.effResets e₁.effCovers e₂.effResets e₂.effCovers := by
  simp only [effUnionRaw, coe_union, coe_removeStale]
  rfl

theorem coe_resets_effUnionRaw (e₁ e₂ : Effect) : ((effUnionRaw T e₁ e₂).effResets : Set Region) =
      (e₁.effResets : Set Region) ∪ (e₂.effResets : Set Region) :=
  coe_union _ _

section

variable (h1 : EffectOk T e₁) (h2 : EffectOk T e₂)
include h1 h2

theorem isStale_effUnionRaw (r : Region) :
    IsStale T (effUnionRaw T e₁ e₂).effResets (effUnionRaw T e₁ e₂).effCovers r ↔
      IsStale T e₁.effResets e₁.effCovers r ∨ IsStale T e₂.effResets e₂.effCovers r := by
  rw [IsStale, coe_covers_effUnionRaw, coe_resets_effUnionRaw]
  exact staleFrom_join_iff (disjoint_coe.mpr h1.covers_resets)
    (disjoint_coe.mpr h2.covers_resets)

theorem EffectOk.effUnionRaw : EffectOk T (effUnionRaw T e₁ e₂) where
  covers_writes := by
    apply Finset.union_subset_union
    · exact (Finset.filter_subset _ _).trans h1.covers_writes
    · exact (Finset.filter_subset _ _).trans h2.covers_writes
  covers_resets := by
    rw [← disjoint_coe, coe_covers_effUnionRaw, coe_resets_effUnionRaw]
    exact disjoint_joinCovers (disjoint_coe.mpr h1.covers_resets)
      (disjoint_coe.mpr h2.covers_resets)
  uncovered := by
    intro r hr hc
    rw [regRStale_iff, isStale_effUnionRaw h1 h2]
    have hdrop : r ∉ joinCovers (Exposes T) (e₁.effResets : Set Region) e₁.effCovers
        e₂.effResets e₂.effCovers := by
      rw [← coe_covers_effUnionRaw]
      exact hc
    cases mem_union.mp hr with
    | inl hr =>
      by_cases hc1 : r ∈ e₁.effCovers
      · exact .inr (stale_of_dropped hc1 hdrop)
      · exact .inl (regRStale_iff.mp (h1.uncovered r hr hc1))
    | inr hr =>
      by_cases hc2 : r ∈ e₂.effCovers
      · exact .inl (stale_of_dropped hc2 (joinCovers_comm ▸ hdrop))
      · exact .inr (regRStale_iff.mp (h2.uncovered r hr hc2))

/-- A union of two effects that keep the invariant passes its assertions, so it
fails only when a taint of one is read by the other. -/
theorem effUnion_eq_ok_iff :
    effUnion T e₁ e₂ = .ok e ↔ checkTaints T e₁.effTaints e₂.effReads = .ok () ∧
      checkTaints T e₂.effTaints e₁.effReads = .ok () ∧ e = effUnionRaw T e₁ e₂ := by
  have hok := h1.effUnionRaw h2
  have hdisjoint : ¬ ¬ Disjoint (effUnionRaw T e₁ e₂).effCovers (effUnionRaw T e₁ e₂).effResets :=
    not_not.mpr hok.covers_resets
  have hstale : ¬ ∃ r ∈ (effUnionRaw T e₁ e₂).effWrites.domain \ (effUnionRaw T e₁ e₂).effCovers,
      regRStale T (effUnionRaw T e₁ e₂).effResets (effUnionRaw T e₁ e₂).effCovers r = false := by
    rintro ⟨r, hr, hfresh⟩
    obtain ⟨hr, hc⟩ := mem_sdiff.mp hr
    rw [hok.uncovered r hr hc] at hfresh
    cases hfresh
  simp only [effUnion, if_neg hdisjoint, if_neg hstale]
  constructor
  · intro he
    obtain ⟨⟨⟩, ht1, he⟩ := bind_eq_ok.mp he
    obtain ⟨⟨⟩, ht2, he⟩ := bind_eq_ok.mp he
    cases he
    exact ⟨ht1, ht2, rfl⟩
  · rintro ⟨ht1, ht2, rfl⟩
    exact bind_eq_ok.mpr ⟨(), ht1, bind_eq_ok.mpr ⟨(), ht2, rfl⟩⟩

theorem EffectOk.effUnion (he : effUnion T e₁ e₂ = .ok e) : EffectOk T e := by
  obtain ⟨-, -, rfl⟩ := (effUnion_eq_ok_iff h1 h2).mp he
  exact h1.effUnionRaw h2

theorem EffectOk.effFusion (he : effFusion T e₁ e₂ = .ok e) : EffectOk T e := by
  obtain ⟨e', he', he⟩ := bind_eq_ok.mp he
  cases he
  have h := h1.effUnion h2 he'
  refine .of_covered ?_ h.covers_resets
  ext r
  simp only [SetMap.restrict, mem_filter]
  exact ⟨fun hr => ⟨h.covers_writes hr, hr⟩, And.right⟩

theorem EffectOk.effUnionPar (he : effUnionPar T e₁ e₂ = .ok e) : EffectOk T e := by
  obtain ⟨e1', he1, he⟩ := bind_eq_ok.mp he
  obtain ⟨e2', he2, he⟩ := bind_eq_ok.mp he
  exact (h1.effContaminateWeak he1).effUnion (h2.effContaminateWeak he2) he

theorem EffectOk.effUnionSeq (he : effUnionSeq T e₁ e₂ = .ok e) : EffectOk T e := by
  obtain ⟨-, -, he⟩ := bind_eq_ok.mp he
  obtain ⟨-, -, he⟩ := bind_eq_ok.mp he
  obtain ⟨e1', he1, he⟩ := bind_eq_ok.mp he
  obtain ⟨e2', he2, he⟩ := bind_eq_ok.mp he
  exact (h1.effContaminateWeak he1).effUnion (h2.effContaminate he2) he

end

include h in
theorem EffectOk.ctyEffectOf {defensive : Bool} {xpost : List (XSymbol × List SpecTerm)}
    {result : Ity} (he : ctyEffectOf T defensive xpost e result = .ok e') : EffectOk T e' := by
  obtain ⟨e₁, he1, he⟩ := bind_eq_ok.mp he
  obtain ⟨tnt, rfl⟩ := resetTaints_eq he1
  -- all that is written is covered and comes from a known variable
  have hdomain : e.effCovers ∩ readRegs T e.effReads =
      ((e.effWrites.restrict (· ∈ e.effCovers)).restrict (· ∈ readRegs T e.effReads)).domain := by
    ext r
    simp only [SetMap.restrict, Finset.mem_inter, mem_filter]
    exact ⟨fun hr => ⟨⟨h.covers_writes hr.1, hr.1⟩, hr.2⟩, fun hr => ⟨hr.1.2, hr.2⟩⟩
  have hresets {vknown : Finset Region} :
      Disjoint (e.effCovers ∩ readRegs T e.effReads) (e.effResets ∩ vknown) :=
    h.covers_resets.mono Finset.inter_subset_left Finset.inter_subset_left
  split at he
  · cases he
    refine .of_covered hdomain (Finset.disjoint_union_right.mpr ⟨hresets, ?_⟩)
    exact Finset.disjoint_sdiff.mono_left Finset.inter_subset_right
  · cases he
    exact .of_covered hdomain hresets

include h in
/-- The effect of a computation type writes only what it covers. -/
theorem EffectOk.createCty {defensive : Bool} {args : List PvSymbol} {pre post : List SpecTerm}
    {xpost : List (XSymbol × List SpecTerm)} {oldies : List (PvSymbol × PvSymbol)} {result : Ity}
    {c : Cty} (hc : createCty T defensive args pre post xpost oldies e result = .ok c) :
    EffectOk T c.ctyEffect := by
  obtain ⟨-, -, hc⟩ := bind_eq_ok.mp hc
  obtain ⟨-, -, hc⟩ := bind_eq_ok.mp hc
  obtain ⟨-, -, hc⟩ := bind_eq_ok.mp hc
  simp only at hc
  split at hc
  · cases hc
  · obtain ⟨e₁, he1, hc⟩ := bind_eq_ok.mp hc
    split at hc
    · cases hc
    · obtain ⟨e₂, he2, hc⟩ := bind_eq_ok.mp hc
      obtain ⟨-, -, hc⟩ := bind_eq_ok.mp hc
      obtain ⟨e₃, he3, hc⟩ := bind_eq_ok.mp hc
      cases hc
      have h2 := ((h.effReadPost he1).effBind _).effReadPre he2
      exact { h2.ctyEffectOf he3 with }

/-! Laws of the union. -/

theorem onewayUnion_comm (a b : Oneway) : onewayUnion a b = onewayUnion b a := by
  cases a <;> cases b <;> rfl

theorem onewayUnion_assoc (a b c : Oneway) :
    onewayUnion (onewayUnion a b) c = onewayUnion a (onewayUnion b c) := by
  cases a <;> cases b <;> cases c <;> rfl

theorem effUnionRaw_comm (e₁ e₂ : Effect) : effUnionRaw T e₁ e₂ = effUnionRaw T e₂ e₁ := by
  simp only [effUnionRaw, Effect.mk.injEq]
  exact ⟨union_comm _ _, SetMap.union_comm _ _, union_comm _ _,
    union_comm _ _, union_comm _ _, union_comm _ _, union_comm _ _,
    onewayUnion_comm _ _, Bool.and_comm _ _⟩

variable (h1 : EffectOk T e₁) (h2 : EffectOk T e₂) (h3 : EffectOk T e₃)

include h1 h2 h3 in
/-- A region is covered by a union of three when one effect covers it and it is
stale for none of the others. -/
theorem covers_effUnionRaw_assoc :
    (effUnionRaw T (effUnionRaw T e₁ e₂) e₃).effCovers =
      (effUnionRaw T e₁ (effUnionRaw T e₂ e₃)).effCovers := by
  ext r
  have hleft := isStale_effUnionRaw h1 h2 r
  have hright := isStale_effUnionRaw h2 h3 r
  change r ∈ removeStale T e₃ (removeStale T e₂ e₁.effCovers ∪ removeStale T e₁ e₂.effCovers) ∪
      removeStale T (effUnionRaw T e₁ e₂) e₃.effCovers ↔
    r ∈ removeStale T (effUnionRaw T e₂ e₃) e₁.effCovers ∪
      removeStale T e₁ (removeStale T e₃ e₂.effCovers ∪ removeStale T e₂ e₃.effCovers)
  simp only [mem_union, mem_removeStale]
  tauto

include h1 h2 h3 in
theorem effUnionRaw_assoc :
    effUnionRaw T (effUnionRaw T e₁ e₂) e₃ = effUnionRaw T e₁ (effUnionRaw T e₂ e₃) := by
  have hcovers := covers_effUnionRaw_assoc h1 h2 h3
  simp only [effUnionRaw, Effect.mk.injEq] at hcovers ⊢
  exact ⟨union_assoc _ _ _, SetMap.union_assoc _ _ _, union_assoc _ _ _, hcovers,
    union_assoc _ _ _, union_assoc _ _ _, union_assoc _ _ _,
    onewayUnion_assoc _ _ _, Bool.and_assoc _ _ _⟩

theorem checkTaints_ok_iff {tnt : Finset Region} {pvs : Finset PvSymbol} :
    checkTaints T tnt pvs = .ok () ↔
      ∀ v ∈ pvs, ∀ r ∈ tnt, ¬ (v.pvGhost = false ∧ r ∈ ityVisRegs T v.pvIty) := by
  simp only [checkTaints]
  constructor
  · intro h v hv r hr hbad
    split at h
    next hnone =>
      have hmem : (v, r) ∈ (∅ : Finset (PvSymbol × Region)) := by
        rw [← hnone]
        simp [hv, hr, hbad]
      simp at hmem
    next => cases h
  · intro h
    rw [if_pos]
    rw [Finset.filter_eq_empty_iff]
    rintro ⟨v, r⟩ hmem hbad
    obtain ⟨hv, hr⟩ := Finset.mem_product.mp hmem
    exact h v hv r hr (by simpa using hbad)

theorem checkTaints_union_left {t1 t2 : Finset Region} {pvs : Finset PvSymbol} :
    checkTaints T (t1 ∪ t2) pvs = .ok () ↔
      checkTaints T t1 pvs = .ok () ∧ checkTaints T t2 pvs = .ok () := by
  simp only [checkTaints_ok_iff, forall_mem_union, forall₂_and]

theorem checkTaints_union_right {tnt : Finset Region} {p1 p2 : Finset PvSymbol} :
    checkTaints T tnt (p1 ∪ p2) = .ok () ↔
      checkTaints T tnt p1 = .ok () ∧ checkTaints T tnt p2 = .ok () := by
  simp only [checkTaints_ok_iff, forall_mem_union]

include h1 h2 h3 in
/-- Both ways of joining three effects check the same taints. -/
theorem effUnion_assoc :
    (∃ e12, effUnion T e₁ e₂ = .ok e12 ∧ effUnion T e12 e₃ = .ok e) ↔
      ∃ e23, effUnion T e₂ e₃ = .ok e23 ∧ effUnion T e₁ e23 = .ok e := by
  have h12 := h1.effUnionRaw h2
  have h23 := h2.effUnionRaw h3
  simp only [effUnion_eq_ok_iff h1 h2, effUnion_eq_ok_iff h2 h3]
  constructor
  · rintro ⟨e12, ⟨ht12, ht21, rfl⟩, he⟩
    obtain ⟨ht1, ht2, rfl⟩ := (effUnion_eq_ok_iff h12 h3).mp he
    obtain ⟨ht13, ht23⟩ := checkTaints_union_left.mp ht1
    obtain ⟨ht31, ht32⟩ := checkTaints_union_right.mp ht2
    refine ⟨_, ⟨ht23, ht32, rfl⟩, (effUnion_eq_ok_iff h1 h23).mpr ⟨?_, ?_, ?_⟩⟩
    · exact checkTaints_union_right.mpr ⟨ht12, ht13⟩
    · exact checkTaints_union_left.mpr ⟨ht21, ht31⟩
    · exact effUnionRaw_assoc h1 h2 h3
  · rintro ⟨e23, ⟨ht23, ht32, rfl⟩, he⟩
    obtain ⟨ht1, ht2, rfl⟩ := (effUnion_eq_ok_iff h1 h23).mp he
    obtain ⟨ht12, ht13⟩ := checkTaints_union_right.mp ht1
    obtain ⟨ht21, ht31⟩ := checkTaints_union_left.mp ht2
    refine ⟨_, ⟨ht12, ht21, rfl⟩, (effUnion_eq_ok_iff h12 h3).mpr ⟨?_, ?_, ?_⟩⟩
    · exact checkTaints_union_left.mpr ⟨ht13, ht23⟩
    · exact checkTaints_union_right.mpr ⟨ht31, ht32⟩
    · exact (effUnionRaw_assoc h1 h2 h3).symm

/-! Effects built by the operations. -/

inductive Built (T : ItsTable) : Effect → Prop
  | effRead (rd : Finset PvSymbol) : Built T (effRead rd)
  | effWrite {rd : Finset PvSymbol} {wr : SetMap Region PvSymbol} {e : Effect} :
      effWrite T rd wr = .ok e → Built T e
  | effAssign {asl : List Assign} {e : Effect} : effAssign T asl = .ok e → Built T e
  | effResetOverwritten {e e' : Effect} :
      Built T e → effResetOverwritten T e = .ok e' → Built T e'
  | effUnion {e₁ e₂ e : Effect} :
      Built T e₁ → Built T e₂ → effUnion T e₁ e₂ = .ok e → Built T e
  | effUnionSeq {e₁ e₂ e : Effect} :
      Built T e₁ → Built T e₂ → effUnionSeq T e₁ e₂ = .ok e → Built T e
  | effUnionPar {e₁ e₂ e : Effect} :
      Built T e₁ → Built T e₂ → effUnionPar T e₁ e₂ = .ok e → Built T e
  | effFusion {e₁ e₂ e : Effect} :
      Built T e₁ → Built T e₂ → effFusion T e₁ e₂ = .ok e → Built T e
  | effBind (rd : Finset PvSymbol) {e : Effect} : Built T e → Built T (effBind rd e)
  | effGhostify {gh : Bool} {e e' : Effect} :
      Built T e → effGhostify T gh e = .ok e' → Built T e'
  | createCty {defensive : Bool} {args : List PvSymbol} {pre post : List SpecTerm}
      {xpost : List (XSymbol × List SpecTerm)} {oldies : List (PvSymbol × PvSymbol)} {e : Effect}
      {result : Ity} {c : Cty} :
      Built T e → createCty T defensive args pre post xpost oldies e result = .ok c →
      Built T c.ctyEffect

theorem Built.effectOk (h : Built T e) : EffectOk T e := by
  induction h with
  | effRead rd => exact effRead_ok rd
  | effWrite he => exact effWrite_ok he
  | effAssign he => exact effAssign_ok he
  | effResetOverwritten _ he ih => exact ih.effResetOverwritten he
  | effUnion _ _ he ih1 ih2 => exact ih1.effUnion ih2 he
  | effUnionSeq _ _ he ih1 ih2 => exact ih1.effUnionSeq ih2 he
  | effUnionPar _ _ he ih1 ih2 => exact ih1.effUnionPar ih2 he
  | effFusion _ _ he ih1 ih2 => exact ih1.effFusion ih2 he
  | effBind rd _ ih => exact ih.effBind rd
  | effGhostify _ he ih => exact ih.effGhostify he
  | createCty _ he ih => exact ih.createCty he

theorem checkTaints_ne_assertFailure (tnt : Finset Region) (pvs : Finset PvSymbol) :
    checkTaints T tnt pvs ≠ .error .assertFailure := by
  simp only [checkTaints]
  split <;> simp

/-- The only failure of a union is a taint of one effect that the other reads. -/
theorem EffectOk.effUnion_ne_assertFailure (h1 : EffectOk T e₁)
    (h2 : EffectOk T e₂) : Mlw.effUnion T e₁ e₂ ≠ .error .assertFailure := by
  intro he
  have hchecks := fun ht1 ht2 => (effUnion_eq_ok_iff h1 h2).mpr ⟨ht1, ht2, rfl⟩
  rw [he] at hchecks
  obtain ht1 | ⟨⟨⟩, ht1, he⟩ := Except.bind_eq_error.mp he
  · exact checkTaints_ne_assertFailure _ _ ht1
  · obtain ht2 | ⟨⟨⟩, ht2, -⟩ := Except.bind_eq_error.mp he
    · exact checkTaints_ne_assertFailure _ _ ht2
    · exact absurd (hchecks ht1 ht2) (by simp)

/-- Effects built by the operations cover no region they reset, what they write
without covering it is stale, and their union, which passes its assertions, is
stale where one of them is, commutes and associates. -/
theorem effects_compose {e₁ e₂ e₃ : Effect} (h₁ : Built T e₁) (h₂ : Built T e₂) (h₃ : Built T e₃) :
    (Disjoint e₁.effCovers e₁.effResets ∧ ∀ r ∈ e₁.effWrites.domain, r ∉ e₁.effCovers →
      regRStale T e₁.effResets e₁.effCovers r = true) ∧
    effUnion T e₁ e₂ ≠ .error .assertFailure ∧ (∀ e, effUnion T e₁ e₂ = .ok e →
      (∀ r, regRStale T e.effResets e.effCovers r = true ↔
        regRStale T e₁.effResets e₁.effCovers r = true ∨
          regRStale T e₂.effResets e₂.effCovers r = true) ∧
      (∀ ity, ityRStale T e.effResets e.effCovers ity = true ↔
        ityRStale T e₁.effResets e₁.effCovers ity = true ∨
          ityRStale T e₂.effResets e₂.effCovers ity = true) ∧
      effUnion T e₂ e₁ = .ok e) ∧
    (∀ e, (∃ e₁₂, effUnion T e₁ e₂ = .ok e₁₂ ∧ effUnion T e₁₂ e₃ = .ok e) ↔
      ∃ e₂₃, effUnion T e₂ e₃ = .ok e₂₃ ∧ effUnion T e₁ e₂₃ = .ok e) := by
  have ok1 := h₁.effectOk
  have ok2 := h₂.effectOk
  refine ⟨⟨ok1.covers_resets, ok1.uncovered⟩, ok1.effUnion_ne_assertFailure ok2, ?_,
    fun e => effUnion_assoc ok1 ok2 h₃.effectOk⟩
  intro e he
  obtain ⟨ht1, ht2, rfl⟩ := (effUnion_eq_ok_iff ok1 ok2).mp he
  refine ⟨?_, ?_, ?_⟩
  · intro r
    simp only [regRStale_iff]
    exact isStale_effUnionRaw ok1 ok2 r
  · intro ity
    simp only [ityRStale_iff, isStale_effUnionRaw ok1 ok2, and_or_left, exists_or]
  · exact (effUnion_eq_ok_iff ok2 ok1).mpr ⟨ht2, ht1, effUnionRaw_comm e₁ e₂⟩

/-! References, as records with one mutable field. -/

def refVar : TvSymbol := ⟨⟨"a", 0⟩⟩

def refSymbol : ItySymbol := ⟨⟨⟨"ref", 1⟩, [refVar], .noDef⟩⟩

def intSymbol : ItySymbol := ⟨⟨⟨"int", 2⟩, [], .noDef⟩⟩

def refContents : PvSymbol := ⟨⟨"contents", 3⟩, .ityvar refVar, false⟩

def refTable : ItsTable := fun s =>
  if s = refSymbol then
    ⟨false, false, true, [refContents], [], [], [⟨false, true, false, false, true⟩], []⟩
  else ⟨true, true, false, [], [], [], [], []⟩

def refRegion (tag : Nat) (t : Ity) : Region := ⟨⟨"rho", tag⟩, refSymbol, [t], []⟩

def refOf (tag : Nat) (r : Region) : PvSymbol := ⟨⟨"x", tag⟩, ityReg r, false⟩

/-- A reference is assigned into a reference of references, whose old contents are
written elsewhere: the write is dropped from the covers of the union. -/
theorem effects_compose_refs :
    ∃ e₁ e₂ e, Built refTable e₁ ∧ Built refTable e₂ ∧ effUnion refTable e₁ e₂ = .ok e ∧
      e.effCovers ≠ e.effWrites.domain ∧
      (∀ r, regRStale refTable e.effResets e.effCovers r = true ↔
        regRStale refTable e₁.effResets e₁.effCovers r = true ∨
          regRStale refTable e₂.effResets e₂.effCovers r = true) := by
  let int : Ity := .ityapp intSymbol [] []
  let inner := refRegion 10 int
  let other := refRegion 11 int
  let outer := refRegion 12 (ityReg inner)
  let assign := effAssign refTable [⟨refOf 20 outer, refContents, refOf 21 other⟩]
  let write := effWrite refTable {refOf 22 inner} (.ofList [(inner, [refContents])])
  let joined := assign >>= fun e₁ => write >>= fun e₂ => effUnion refTable e₁ e₂
  have hreturns : (joined.returns fun e => e.effCovers ≠ e.effWrites.domain) = true := by
    decide +kernel
  obtain ⟨e, hjoined, hcovers⟩ := Except.exists_ok_of_returns hreturns
  obtain ⟨e₁, he1, hjoined⟩ := bind_eq_ok.mp hjoined
  obtain ⟨e₂, he2, he⟩ := bind_eq_ok.mp hjoined
  have hall := effects_compose (.effAssign he1) (.effWrite he2) (Built.effRead (T := refTable) ∅)
  exact ⟨e₁, e₂, e, .effAssign he1, .effWrite he2, he, by simpa using hcovers, (hall.2.2.1 e he).1⟩

end Mlw
end Why3
