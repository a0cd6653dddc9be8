import Why3.Metatheory.Transitions

/-!
Region typing survives parallel assignment.

The assignments move some regions: after them the place of a region holds the
location that another one had. A variable that is not stale reaches a moved region
only under a covered one, where the transitions account for all that is below.
-/
namespace Why3

open List

namespace Mlw

variable {T : ItsTable} {ρ ρ' : Region → Nat}

/-! Regions of the scope. -/

variable {r r' : Region} {flag : ItsFlag → Bool} {s : ItySymbol}

theorem mem_ityRchRegs {ity : Ity} :
    r ∈ ityRchRegs T ity ↔ ∃ r0 ∈ ityExpRegs T ity, IsStale T {r} ∅ r0 := by
  rw [← ityRStale_iff, ityRStale, ityUncRegs, ← ityRchRegs]
  simp

theorem reaches_step {r0 : Region} (h : IsStale T {r} ∅ r0) (hr' : Exposes T r r') :
    IsStale T {r'} ∅ r0 := by
  induction h with
  | here hx hmem =>
    cases Finset.mem_singleton.mp hmem
    exact .step hx hr' (.here (by simp) (by simp))
  | step hx hedge _ ih => exact .step hx hedge ih

section Scope

variable {scope : Set PvSymbol}

theorem scopeRegion_of_var {x : PvSymbol} (hx : x ∈ scope)
    (hr : r ∈ ityExpRegs T x.pvIty) : ScopeRegion T scope r :=
  ⟨x, hx, mem_ityRchRegs.mpr ⟨r, hr, .here (by simp) (by simp)⟩⟩

theorem ScopeRegion.step (h : ScopeRegion T scope r) (hr' : r' ∈ regExpRegs T r) :
    ScopeRegion T scope r' := by
  obtain ⟨x, hx, hr⟩ := h
  obtain ⟨r0, hr0, hreach⟩ := mem_ityRchRegs.mp hr
  exact ⟨x, hx, mem_ityRchRegs.mpr ⟨r0, hr0, reaches_step hreach hr'⟩⟩

/-! Writes. -/

theorem fieldsOf_change (wr : AssignWrites) (r r' : Region) (g : FieldTypes → FieldTypes) :
    (wr.change r g).fieldsOf r' = if r' = r then g (wr.fieldsOf r) else wr.fieldsOf r' := by
  induction wr with
  | nil =>
    by_cases h : r' = r
    · simp [AssignWrites.change, AssignWrites.fieldsOf, h]
    · simp [AssignWrites.change, AssignWrites.fieldsOf, h, lookup_cons, beq_eq_false_iff_ne.mpr h]
  | cons x wr ih =>
    obtain ⟨r0, fs⟩ := x
    simp only [AssignWrites.fieldsOf] at ih
    simp only [AssignWrites.change]
    by_cases h0 : r0 = r
    · subst h0
      by_cases h : r' = r0
      · simp [AssignWrites.fieldsOf, h]
      · simp [AssignWrites.fieldsOf, h, lookup_cons, beq_eq_false_iff_ne.mpr h]
    · rw [if_neg h0]
      by_cases h : r' = r0
      · subst h
        simp [AssignWrites.fieldsOf, h0]
      · simp only [AssignWrites.fieldsOf, lookup_cons, beq_eq_false_iff_ne.mpr h, ih,
          beq_eq_false_iff_ne.mpr (Ne.symm h0)]

variable {wr wr' : AssignWrites}

theorem fieldsOf_of_not_mem (h : r ∉ wr.map Prod.fst) : wr.fieldsOf r = [] := by
  cases hl : wr.lookup r with
  | none => rw [AssignWrites.fieldsOf, hl, Option.getD_none]
  | some fs => exact absurd (mem_map_of_mem (AssocList.mem_of_lookup hl)) h

theorem keys_change (wr : AssignWrites) (r : Region) (g : FieldTypes → FieldTypes) :
    (wr.change r g).map Prod.fst =
      if r ∈ wr.map Prod.fst then wr.map Prod.fst else wr.map Prod.fst ++ [r] := by
  induction wr with
  | nil => simp [AssignWrites.change]
  | cons x wr ih =>
    obtain ⟨r0, fs⟩ := x
    simp only [AssignWrites.change]
    by_cases h0 : r0 = r
    · simp [h0]
    · rw [if_neg h0, map_cons, ih]
      by_cases hr : r ∈ wr.map Prod.fst
      · rw [if_pos hr, map_cons, if_pos (mem_cons_of_mem _ hr)]
      · rw [if_neg hr, map_cons, if_neg, cons_append]
        rw [mem_cons, not_or]
        exact ⟨Ne.symm h0, hr⟩

/-- The writes found so far and the store after the assignments they come from. -/
structure Written (T : ItsTable) (scope : Set PvSymbol) (ρ : Region → Nat) (env : PvSymbol → Value)
    (S : Store) (wr : AssignWrites) (S' : Store) : Prop where
  nodup : (wr.map Prod.fst).Nodup
  region : ∀ r ∈ wr.map Prod.fst, ScopeRegion T scope r
  mutable : ∀ r f, ((wr.fieldsOf r).lookup f).isSome → f ∈ (T r.regIts).itsMfields
  unchanged : ∀ r f, ScopeRegion T scope r → (wr.fieldsOf r).lookup f = none →
    S' (ρ r) f = S (ρ r) f
  assigned : ∀ r f t, ScopeRegion T scope r → (wr.fieldsOf r).lookup f = some t →
    ∃ v ∈ scope, v.pvIty = t ∧ S' (ρ r) f = env v

variable {env : PvSymbol → Value} {S S' : Store}

theorem getReg_ok {v : PvSymbol} (h : getReg v = .ok r) : v.pvIty = ityReg r := by
  simp only [getReg] at h
  split at h
  next heq =>
    cases h
    rw [heq]
    rfl
  next => cases h

theorem HasType.loc {v : Value} (h : HasType T ρ v (ityReg r)) : v = .loc (ρ r) := by
  generalize ht : ityReg r = t at h
  cases h with
  | reg r' =>
    cases r'
    cases ht
    rfl
  | app | var => cases ht

theorem addAssign_ok {a : Assign} (h : addAssign T wr a = .ok wr') :
    ∃ r, a.record.pvIty = ityReg r ∧ a.field ∈ (T r.regIts).itsMfields ∧
      wr' = wr.change r fun fs => (a.field, a.value.pvIty) :: fs := by
  obtain ⟨r, hr, h⟩ := Except.bind_eq_ok.mp h
  obtain ⟨u, hfield, h⟩ := Except.bind_eq_ok.mp h
  refine ⟨r, getReg_ok hr, ?_, ?_⟩
  · simp only [checkMutableField] at hfield
    split at hfield
    next hmem => exact hmem
    next => cases hfield
  · split at h
    next => cases h
    next =>
      split at h
      next => cases h
      next =>
        cases h
        rfl

section

variable (hinj : Set.InjOn ρ {r | ScopeRegion T scope r})
  (henv : ∀ x ∈ scope, HasType T ρ (env x) x.pvIty)
include hinj henv

theorem Written.step (h : Written T scope ρ env S wr S') {a : Assign} (hrecord : a.record ∈ scope)
    (hvalue : a.value ∈ scope) (ha : addAssign T wr a = .ok wr') :
    Written T scope ρ env S wr' (assignStep env S' a) := by
  obtain ⟨r, hity, hfield, rfl⟩ := addAssign_ok ha
  have hr : ScopeRegion T scope r := by
    refine scopeRegion_of_var hrecord ?_
    rw [hity]
    simp [ityReg, ityExpRegs]
  have hloc : env a.record = .loc (ρ r) := by
    have htype := henv a.record hrecord
    rw [hity] at htype
    exact htype.loc
  have hstep : ∀ r' f, ScopeRegion T scope r' → assignStep env S' a (ρ r') f =
      if r' = r ∧ f = a.field then env a.value else S' (ρ r') f := by
    intro r' f hr'
    have hiff : ρ r' = ρ r ↔ r' = r := hinj.eq_iff hr' hr
    simp only [assignStep, hloc, hiff]
  have hlookup : ∀ r' f, ((wr.change r fun fs => (a.field, a.value.pvIty) :: fs).fieldsOf r').lookup
      f = if r' = r ∧ f = a.field then some a.value.pvIty else (wr.fieldsOf r').lookup f := by
    intro r' f
    rw [fieldsOf_change]
    by_cases hreg : r' = r
    · by_cases hf : f = a.field
      · simp [hreg, hf]
      · simp [hreg, hf, lookup_cons, beq_eq_false_iff_ne.mpr hf]
    · simp [hreg]
  refine ⟨?_, fun r' hr' => ?_, fun r' f hsome => ?_, fun r' f hr' hnone => ?_,
    fun r' f t hr' hsome => ?_⟩
  · rw [keys_change]
    split
    · exact h.nodup
    · next hnot => exact h.nodup.append (nodup_singleton r) (by simpa using hnot)
  · rw [keys_change] at hr'
    split at hr'
    · exact h.region r' hr'
    · cases mem_append.mp hr' with
      | inl hr' => exact h.region r' hr'
      | inr hr' => exact mem_singleton.mp hr' ▸ hr
  · rw [hlookup] at hsome
    split at hsome
    next heq => exact heq.1 ▸ heq.2 ▸ hfield
    next => exact h.mutable r' f hsome
  · rw [hlookup] at hnone
    rw [hstep r' f hr']
    split at hnone
    next => cases hnone
    next hne => rw [if_neg hne, h.unchanged r' f hr' hnone]
  · rw [hlookup] at hsome
    rw [hstep r' f hr']
    split at hsome
    next heq =>
      cases hsome
      exact ⟨a.value, hvalue, rfl, if_pos heq⟩
    next hne =>
      rw [if_neg hne]
      exact h.assigned r' f t hr' hsome

theorem written_assignAll {asl : List Assign}
    (hscope : ∀ a ∈ asl, a.record ∈ scope ∧ a.value ∈ scope) (h : Written T scope ρ env S wr S')
    (hwr : asl.foldlM (addAssign T) wr = .ok wr') :
    Written T scope ρ env S wr' (assignAll env asl S') := by
  induction asl generalizing wr S' with
  | nil =>
    cases hwr
    exact h
  | cons a asl ih =>
    obtain ⟨wr1, ha, hasl⟩ := Except.foldlM_cons_ok.mp hwr
    obtain ⟨hrecord, hvalue⟩ := hscope a mem_cons_self
    exact ih (forall_mem_cons.mp hscope).2
      (h.step hinj henv hrecord hvalue ha) hasl

end

/-- After the assignments the record of a region has the new field types, for the
old map. -/
theorem Written.hasType (h : Written T scope ρ env S wr S') (hS : TypedState T scope ρ env S)
    (hr : ScopeRegion T scope r) :
    ∃ t, FieldInst T r.regIts r.regArgs r.regRegs t ∧ ∀ f ∈ itsFields T r.regIts,
      HasType T ρ (S' (ρ r) f) (newType (wr.fieldsOf r) t f) := by
  obtain ⟨t, hinst, htype⟩ := hS.regions r hr
  refine ⟨t, hinst, fun f hf => ?_⟩
  cases hfs : (wr.fieldsOf r).lookup f with
  | none =>
    rw [newType, hfs, h.unchanged r f hr hfs]
    exact htype f hf
  | some u =>
    obtain ⟨v, hv, rfl, heq⟩ := h.assigned r f u hr hfs
    rw [newType, hfs, heq]
    exact hS.vars v hv

end Scope

/-! The depth of a region bounds the recursion on transitions. -/

theorem ityDepth_of_mem {tl : List Ity} {t : Ity} (h : t ∈ tl) : ityDepth t ≤ ityDepthList tl := by
  induction tl with
  | nil => cases h
  | cons u tl ih =>
    cases mem_cons.mp h with
    | inl h => exact h ▸ Nat.le_max_left _ _
    | inr h => exact (ih h).trans (Nat.le_max_right _ _)

theorem ityDepth_flagged {fl : List ItsFlag} {tl : List Ity}
    (h : ∀ t ∈ tl, ∀ r ∈ ityExpRegs T t, ityDepth (ityReg r) ≤ ityDepth t)
    (hr : r ∈ flagged flag (ityExpRegs T) fl tl) : ityDepth (ityReg r) ≤ ityDepthList tl := by
  obtain ⟨c, hc, hr⟩ := mem_flatMap.mp hr
  have ht := (of_mem_zip hc).2
  split at hr
  · exact (h _ ht r hr).trans (ityDepth_of_mem ht)
  · cases hr

theorem ityDepth_expRegs (t : Ity) : ∀ r ∈ ityExpRegs T t, ityDepth (ityReg r) ≤ ityDepth t := by
  induction t using Ity.induct with
  | ityvar v => exact fun r hr => nomatch hr
  | ityreg name s tl rl htl hrl =>
    intro r hr
    cases mem_singleton.mp hr
    exact le_refl _
  | ityapp s tl rl htl hrl =>
    intro r hr
    rw [ityExpRegs_app] at hr
    cases mem_append.mp hr with
    | inl hr => exact (ityDepth_flagged htl hr).trans (Nat.le_max_left _ _)
    | inr hr => exact (ityDepth_flagged hrl hr).trans (Nat.le_max_right _ _)

theorem ityDepth_exposes (h : Exposes T r r') : ityDepth (ityReg r') < ityDepth (ityReg r) := by
  simp only [Exposes, regExpRegs, ityExpRegsList_eq] at h
  rw [ityReg, ityReg, ityDepth, ityDepth, Nat.lt_succ_iff]
  cases mem_append.mp h with
  | inl h =>
    exact (ityDepth_flagged (fun t _ => ityDepth_expRegs t) h).trans (Nat.le_max_left _ _)
  | inr h =>
    exact (ityDepth_flagged (fun t _ => ityDepth_expRegs t) h).trans (Nat.le_max_right _ _)

/-! Assignments. -/

section Assign

variable {scope : Set PvSymbol} {env : PvSymbol → Value} {S S' : Store} {writes : AssignWrites}

/-- Regions of the scope with one shape. -/
structure PairOk (T : ItsTable) (scope : Set PvSymbol) (x : Region × Region) : Prop where
  before : ScopeRegion T scope x.1
  after : ScopeRegion T scope x.2
  shape : regShape x.1 = regShape x.2

variable {x : Region × Region} {π : Equiv.Perm Region} {cv rst : Finset Region}

theorem Written.matched (h : Written T scope ρ env S writes S') (hS : TypedState T scope ρ env S)
    (hx : PairOk T scope x) {l1 l2 : List Region} (hl1 : regRexp T x.1 [] = .ok l1)
    (hl2 : regRexp T x.2 (writes.fieldsOf x.2) = .ok l2) :
    ∃ tf tt, Matched T x.1 x.2 (writes.fieldsOf x.2) tf tt l1 l2 ∧
      ∀ f ∈ itsFields T x.1.regIts, WfIty T (tf f) ∧
        HasType T ρ (S' (ρ x.2) f) (newType (writes.fieldsOf x.2) tt f) := by
  obtain ⟨tf, hinstf, htypef⟩ := hS.regions x.1 hx.before
  obtain ⟨tt, hinstt, htypet⟩ := h.hasType hS hx.after
  have hshape := hx.shape
  simp only [regShape, Region.mk.injEq, true_and] at hshape
  obtain ⟨hits, hargs, hregs⟩ := hshape
  have hmutable := h.mutable x.2
  rw [← hits] at hinstt htypet hmutable
  exact ⟨tf, tt, ⟨hits, hargs, hregs, hinstf, hinstt, hmutable, hl1, hl2⟩,
    fun f hf => ⟨(htypef f hf).wf, htypet f hf⟩⟩

theorem mem_rexp_exposes (hS : TypedState T scope ρ env S) (hr : ScopeRegion T scope r)
    {l : List Region} (hl : regRexp T r [] = .ok l) (hr' : r' ∈ l) : Exposes T r r' := by
  obtain ⟨t, hinst, -⟩ := hS.regions r hr
  have hself : Matched T r r [] t t l l :=
    ⟨rfl, rfl, rfl, hinst, hinst, fun f hf => (nomatch hf), hl, hl⟩
  cases hself.mem_listt hr' with
  | inl hexp => exact hexp
  | inr hnil =>
    obtain ⟨f, t, hnil, -⟩ := hnil
    cases hnil

theorem PairOk.step (h : Written T scope ρ env S writes S') (hS : TypedState T scope ρ env S)
    {l1 l2 : List Region} (hx : PairOk T scope x) (hl1 : regRexp T x.1 [] = .ok l1)
    (hl2 : regRexp T x.2 (writes.fieldsOf x.2) = .ok l2) : ∀ y ∈ l1.zip l2, PairOk T scope y := by
  intro y hy
  obtain ⟨tf, tt, hmatched, -⟩ := h.matched hS hx hl1 hl2
  refine ⟨?_, ?_, hmatched.shape_of_mem hy⟩
  · exact hx.before.step (mem_rexp_exposes hS hx.before hl1 (of_mem_zip hy).1)
  · cases hmatched.mem_listt (of_mem_zip hy).2 with
    | inl hexp => exact hx.after.step hexp
    | inr hassigned =>
      obtain ⟨f, t, hft, hexp⟩ := hassigned
      obtain ⟨v, hv, rfl, -⟩ := h.assigned x.2 f t hx.after hft
      exact scopeRegion_of_var hv hexp

/-- With a bound of at least the depth of a region the transitions under it do not
depend on the bound. -/
theorem stitch_bound (hS : TypedState T scope ρ env S) {n n' : Nat} {rf : Region}
    (hrf : ScopeRegion T scope rf) (hn : ityDepth (ityReg rf) ≤ n)
    (hn' : ityDepth (ityReg rf) ≤ n') (pl : List (Region × Region)) (rt : Region)
    (fs : FieldTypes) : stitch T writes n pl rf rt fs = stitch T writes n' pl rf rt fs := by
  induction n generalizing n' pl rf rt fs with
  | zero => simp [ityReg, ityDepth] at hn
  | succ n ih =>
    cases n' with
    | zero => simp [ityReg, ityDepth] at hn'
    | succ n' =>
      simp only [stitch]
      cases hl1 : regRexp T rf [] with
      | error e => rfl
      | ok l1 =>
        change (regRexp T rt fs >>= _) = (regRexp T rt fs >>= _)
        refine bind_congr fun l2 => ?_
        split
        · rfl
        · refine Except.foldlM_congr (fun pl x hx => ?_) pl
          have hexp := mem_rexp_exposes hS hrf hl1 (of_mem_zip hx).1
          have hdepth := ityDepth_exposes hexp
          exact ih (hrf.step hexp) (by omega) (by omega) _ _ _

/-- A list of transitions that takes place as a whole. -/
structure Settled (T : ItsTable) (scope : Set PvSymbol) (writes : AssignWrites)
    (π : Equiv.Perm Region) (pl : List (Region × Region)) : Prop where
  ok : ∀ x ∈ pl, PairOk T scope x
  moved : ∀ x ∈ pl, π x.1 = x.2
  closed : ∀ x ∈ pl, ClosedAt T pl x.1 x.2 (writes.fieldsOf x.2)

/-- The regions that are reset change their places, and all that is under a written
region that is not reset moves with its fields. -/
structure Moves (T : ItsTable) (scope : Set PvSymbol) (writes : AssignWrites)
    (rst : Finset Region) (π : Equiv.Perm Region) : Prop where
  fixed : ∀ r ∉ rst, π r = r
  stays : ∀ r ∈ rst, π r ∈ rst
  reached : ∀ r ∈ rst, ScopeRegion T scope r
  covered : ∀ r ∈ writes.map Prod.fst, r ∉ rst →
    ∃ pl, Settled T scope writes π pl ∧ ClosedAt T pl r r (writes.fieldsOf r)

/-- The record at the new place of a region has the field types of the region. -/
theorem Written.typedRegion (h : Written T scope ρ env S writes S')
    (hS : TypedState T scope ρ env S) (hx : PairOk T scope x) (hmoved : π x.1 = x.2)
    {pl : List (Region × Region)} (hpl : ∀ y ∈ pl, π y.1 = y.2)
    (hclosed : ClosedAt T pl x.1 x.2 (writes.fieldsOf x.2)) :
    TypedRegion T (fun r => ρ (π r)) S' x.1 := by
  obtain ⟨l1, l2, hl1, hl2, hzip⟩ := hclosed
  obtain ⟨tf, tt, hmatched, hfields⟩ := h.matched hS hx hl1 hl2
  refine ⟨tf, hmatched.instf, fun f hf => ?_⟩
  obtain ⟨hwf, htype⟩ := hfields f hf
  change HasType T _ (S' (ρ (π x.1)) f) (tf f)
  rw [hmoved]
  refine htype.transport hwf (hmatched.field_shape hf) fun y hy => ?_
  exact congrArg ρ (hpl y (hzip y (hmatched.field_pairs hf hy)))

theorem isStale_of_exposes (hcv : r ∉ cv) (hr' : r' ∈ regExpRegs T r)
    (h : ¬ IsStale T rst cv r) : ¬ IsStale T rst cv r' :=
  fun hstale => h (.step hcv hr' hstale)

theorem not_reset_of_not_stale (hcv : Disjoint cv rst) (h : ¬ IsStale T rst cv r) : r ∉ rst := by
  intro hr
  exact h (.here (fun hc => Finset.disjoint_left.mp hcv hc hr) hr)

theorem HasType.fixed {v : Value} {t : Ity} (h : HasType T ρ v t)
    (hfixed : ∀ r ∈ ityExpRegs T t, π r = r) : HasType T (fun r => ρ (π r)) v t := by
  refine h.transport h.wf rfl fun y hy => ?_
  obtain ⟨i, hi, rfl⟩ := getElem_of_mem hy
  rw [getElem_zip]
  exact congrArg ρ (hfixed _ (getElem_mem _))

/-- A region that is not stale, or that is under a covered one. -/
def Kept (T : ItsTable) (scope : Set PvSymbol) (writes : AssignWrites) (rst cv : Finset Region)
    (π : Equiv.Perm Region) (r : Region) : Prop :=
  ¬ IsStale T rst cv r ∨ ∃ pl r', Settled T scope writes π pl ∧ (r, r') ∈ pl

section

variable (hm : Moves T scope writes rst π) (hcv : cv = (writes.map Prod.fst).toFinset \ rst)
  (h : Written T scope ρ env S writes S') (hS : TypedState T scope ρ env S)
include hm hcv h hS

theorem Moves.kept_step (hr : ScopeRegion T scope r) (hkept : Kept T scope writes rst cv π r)
    (hr' : r' ∈ regExpRegs T r) : Kept T scope writes rst cv π r' := by
  have hunder : ∀ {pl x}, Settled T scope writes π pl → PairOk T scope x → x.1 = r →
      ClosedAt T pl x.1 x.2 (writes.fieldsOf x.2) → Kept T scope writes rst cv π r' := by
    intro pl x hpl hx heq hclosed
    obtain ⟨l1, l2, hl1, hl2, hzip⟩ := hclosed
    obtain ⟨tf, tt, hmatched, -⟩ := h.matched hS hx hl1 hl2
    obtain ⟨r'', hpair⟩ := hmatched.exists_pair (heq ▸ hr')
    exact .inr ⟨pl, r'', hpl, hzip _ hpair⟩
  cases hkept with
  | inr hlinked =>
    obtain ⟨pl, r1, hpl, hmem⟩ := hlinked
    exact hunder hpl (hpl.ok _ hmem) rfl (hpl.closed _ hmem)
  | inl hfresh =>
    by_cases hc : r ∈ cv
    · rw [hcv, Finset.mem_sdiff, mem_toFinset] at hc
      obtain ⟨pl, hpl, hclosed⟩ := hm.covered r hc.1 hc.2
      exact hunder (x := (r, r)) hpl ⟨hr, hr, rfl⟩ rfl hclosed
    · exact .inl (isStale_of_exposes hc hr' hfresh)

theorem Moves.typedRegion (hr : ScopeRegion T scope r) (hkept : Kept T scope writes rst cv π r) :
    TypedRegion T (fun r => ρ (π r)) S' r := by
  have hdisjoint : Disjoint cv rst := hcv ▸ Finset.sdiff_disjoint
  cases hkept with
  | inr hlinked =>
    obtain ⟨pl, r1, hpl, hmem⟩ := hlinked
    exact h.typedRegion hS (hpl.ok _ hmem) (hpl.moved _ hmem) hpl.moved (hpl.closed _ hmem)
  | inl hfresh =>
    have hreset := not_reset_of_not_stale hdisjoint hfresh
    by_cases hw : r ∈ writes.map Prod.fst
    · obtain ⟨pl, hpl, hclosed⟩ := hm.covered r hw hreset
      exact h.typedRegion hS (x := (r, r)) ⟨hr, hr, rfl⟩ (hm.fixed r hreset) hpl.moved hclosed
    · -- nothing is written here and nothing below moves
      have hnone := fieldsOf_of_not_mem hw
      have hc : r ∉ cv := by
        rw [hcv, Finset.mem_sdiff, mem_toFinset]
        exact fun hc => hw hc.1
      obtain ⟨t, hinst, htype⟩ := hS.regions r hr
      refine ⟨t, hinst, fun f hf => ?_⟩
      change HasType T _ (S' (ρ (π r)) f) (t f)
      rw [hm.fixed r hreset, h.unchanged r f hr (by rw [hnone]; rfl)]
      refine (htype f hf).fixed fun r' hr' => hm.fixed _ (not_reset_of_not_stale (T := T) hdisjoint ?_)
      exact isStale_of_exposes hc (hinst.expRegs_field hf _ hr') hfresh

theorem Moves.kept_of_reaches {r0 : Region} (hr0 : ScopeRegion T scope r0)
    (hkept : Kept T scope writes rst cv π r0) (hreach : IsStale T {r} ∅ r0)
    : Kept T scope writes rst cv π r := by
  induction hreach with
  | here _ hmem => exact Finset.mem_singleton.mp hmem ▸ hkept
  | step _ hedge _ ih => exact ih (hr0.step hedge) (hm.kept_step hcv h hS hr0 hkept hedge)

end

theorem moves_of_transitions (h : Written T scope ρ env S writes S')
    (hS : TypedState T scope ρ env S) {m : Transitions} (hm : transitions T writes = .ok m)
    {acc : ResetAcc}
    (hacc : (m.insertionSort (levelOrder · ·)).foldlM addTransitions ⟨∅, [], []⟩ = .ok acc) :
    ∃ π : Equiv.Perm Region, Moves T scope writes acc.rst π := by
  have hlist : ∀ r pl, stitch T writes (ityDepth (ityReg r)) [] r r (writes.fieldsOf r) = .ok pl →
      ScopeRegion T scope r → (∀ x ∈ pl, PairOk T scope x ∧
        ClosedAt T pl x.1 x.2 (writes.fieldsOf x.2)) ∧ ClosedAt T pl r r (writes.fieldsOf r) := by
    intro r pl hpl hr
    obtain ⟨hext, hclosed⟩ := stitch_extends (P := PairOk T scope)
      (fun x l1 l2 hx hl1 hl2 => hx.step h hS hl1 hl2) ⟨hr, hr, rfl⟩ hpl
    exact ⟨fun x hx => (hext.added x hx).resolve_left not_mem_nil, hclosed⟩
  obtain ⟨hfrom, hto⟩ := Except.mapM_ok hm
  have hstitch : ∀ y ∈ m, ScopeRegion T scope y.1 ∧
      stitch T writes (ityDepth (ityReg y.1)) [] y.1 y.1 (writes.fieldsOf y.1) = .ok y.2 := by
    intro y hy
    obtain ⟨x, hx, hrun⟩ := hfrom y hy
    obtain ⟨pl, hpl, hrun⟩ := Except.bind_eq_ok.mp hrun
    cases hrun
    have hfields : writes.fieldsOf x.1 = x.2 := by
      rw [AssignWrites.fieldsOf, AssocList.lookup_of_mem h.nodup hx, Option.getD_some]
    exact ⟨h.region x.1 (mem_map_of_mem hx), by rw [hfields]; exact hpl⟩
  have hempty : MovesOk ⟨∅, [], []⟩ := ⟨fun r r' => by simp, fun r r' hr => nomatch hr⟩
  obtain ⟨hmoves, -, hbound, hrst⟩ := addTransitions_ok hempty hacc
  obtain ⟨π, hπ, hfixed, hstays⟩ := hmoves.exists_perm
  refine ⟨π, hfixed, hstays, fun r hr => ?_, fun r hr hreset => ?_⟩
  · cases hrst r hr with
    | inl hr => exact absurd hr (Finset.notMem_empty r)
    | inr hr =>
      obtain ⟨y, hy, x, hx, hr⟩ := hr
      obtain ⟨hscope, hpl⟩ := hstitch y ((mem_insertionSort _).mp hy)
      have hok := ((hlist y.1 y.2 hpl hscope).1 x hx).1
      cases hr with
      | inl hr => exact hr ▸ hok.before
      | inr hr => exact hr ▸ hok.after
  · obtain ⟨x, hx, rfl⟩ := mem_map.mp hr
    obtain ⟨y, hy, hrun⟩ := hto x hx
    obtain ⟨pl, -, hrun⟩ := Except.bind_eq_ok.mp hrun
    cases hrun
    obtain ⟨hscope, hpl⟩ := hstitch _ hy
    obtain ⟨hall, hclosed⟩ := hlist _ _ hpl hscope
    have hmoved := hbound _ ((mem_insertionSort _).mpr hy) hreset
    exact ⟨pl, ⟨fun x hx => (hall x hx).1, fun x hx => hπ _ _ (hmoved x hx),
      fun x hx => (hall x hx).2⟩, hclosed⟩

/-- After the assignments there is again a map from regions to locations: it types
the variables that are not stale and all that they reach, and regions that are
neither written nor reset hold what they held. -/
theorem typedState_assignAll {T : ItsTable} {scope : Set PvSymbol} {ρ : Region → Nat}
    {env : PvSymbol → Value} {S : Store} (hinj : Set.InjOn ρ {r | ScopeRegion T scope r})
    (hS : TypedState T scope ρ env S) {asl : List Assign}
    (hscope : ∀ a ∈ asl, a.record ∈ scope ∧ a.value ∈ scope) {e : Effect}
    (he : effAssign T asl = .ok e) : ∃ ρ' : Region → Nat, Set.InjOn ρ' {r | ScopeRegion T scope r} ∧
      (Function.Injective ρ → Function.Injective ρ') ∧
      TypedState T {x ∈ scope | ityRStale T e.effResets e.effCovers x.pvIty = false} ρ' env
        (assignAll env asl S) ∧
      ∀ r, ScopeRegion T {x ∈ scope | ityRStale T e.effResets e.effCovers x.pvIty = false} r →
        r ∉ e.effWrites.domain → r ∉ e.effResets →
        ∀ f, assignAll env asl S (ρ' r) f = S (ρ r) f := by
  obtain ⟨writes, m, acc, hwrites, hm, hacc, hdomain, hresets, hcovers⟩ := effAssign_eq_ok he
  have hempty : Written T scope ρ env S [] S :=
    ⟨nodup_nil, fun r hr => absurd hr not_mem_nil, fun r f h => (nomatch h),
      fun _ _ _ _ => rfl, fun r f t _ h => (nomatch h)⟩
  have hw := written_assignAll hinj hS.vars hscope hempty hwrites
  obtain ⟨π, hπ⟩ := moves_of_transitions hw hS hm hacc
  have hdisjoint : Disjoint e.effCovers acc.rst := hcovers ▸ Finset.sdiff_disjoint
  rw [hresets]
  have hfresh : ∀ x ∈ scope, ityRStale T acc.rst e.effCovers x.pvIty = false →
      ∀ r ∈ ityExpRegs T x.pvIty, ¬ IsStale T acc.rst e.effCovers r := by
    intro x _ hx r hr hstale
    rw [ityRStale_iff _ |>.mpr ⟨r, hr, hstale⟩] at hx
    cases hx
  have hmem : ∀ r, ScopeRegion T scope r → ScopeRegion T scope (π r) := by
    intro r hr
    by_cases hrst : r ∈ acc.rst
    · exact hπ.reached _ (hπ.stays r hrst)
    · rwa [hπ.fixed r hrst]
  refine ⟨fun r => ρ (π r), ?_, fun hρ => hρ.comp π.injective, ⟨?_, ?_⟩, ?_⟩
  · intro r hr r' hr' heq
    exact π.injective (hinj (hmem r hr) (hmem r' hr') heq)
  · rintro x ⟨hx, hstale⟩
    exact (hS.vars x hx).fixed fun r hr =>
      hπ.fixed _ (not_reset_of_not_stale hdisjoint (hfresh x hx hstale r hr))
  · rintro r ⟨x, ⟨hx, hstale⟩, hr⟩
    obtain ⟨r0, hr0, hreach⟩ := mem_ityRchRegs.mp hr
    have hkept := hπ.kept_of_reaches hcovers hw hS (scopeRegion_of_var hx hr0)
      (.inl (hfresh x hx hstale r0 hr0)) hreach
    exact hπ.typedRegion hcovers hw hS ⟨x, hx, hr⟩ hkept
  · rintro r ⟨x, ⟨hx, -⟩, hr⟩ hwritten hreset f
    rw [hdomain, mem_toFinset] at hwritten
    change assignAll env asl S (ρ (π r)) f = S (ρ r) f
    rw [hπ.fixed r hreset]
    refine hw.unchanged r f ⟨x, hx, hr⟩ ?_
    rw [fieldsOf_of_not_mem hwritten]
    rfl

end Assign

/-! A reference is assigned into a reference of references, and is written at the same time. -/

theorem hasFlag_iff {leaf : Leaf} : HasFlag T s flag leaf ↔
      (((keysOf T s).zip (flagsOf T s)).lookup leaf).any flag = true := by
  simp only [HasFlag, Option.any_eq_true]

instance (s : ItySymbol) (flag : ItsFlag → Bool) (leaf : Leaf) :
    Decidable (HasFlag T s flag leaf) :=
  decidable_of_iff _ hasFlag_iff.symm

theorem HasFlag.mem_keys {leaf : Leaf} (h : HasFlag T s flag leaf) : leaf ∈ keysOf T s := by
  obtain ⟨x, hx, -⟩ := h.mem_zip
  exact (of_mem_zip hx).1

theorem exposed_of_keys
    (hleaves : ∀ f ∈ itsFields T s, ∀ leaf ∈ ityLeaves f.pvIty, leaf ∈ keysOf T s)
    (h : ∀ leaf ∈ keysOf T s, HasFlag T s (·.itsExposed) leaf ↔ HasFlag T s (·.itsFixed) leaf ∨
      ∃ f ∈ (T s).itsMfields, leaf ∈ ityExpLeaves T f.pvIty) (leaf : Leaf) :
    HasFlag T s (·.itsExposed) leaf ↔
      HasFlag T s (·.itsFixed) leaf ∨ ∃ f ∈ (T s).itsMfields, leaf ∈ ityExpLeaves T f.pvIty := by
  by_cases hmem : leaf ∈ keysOf T s
  · exact h leaf hmem
  · constructor
    · exact fun hflag => absurd hflag.mem_keys hmem
    · rintro (hflag | ⟨f, hf, hleaf⟩)
      · exact absurd hflag.mem_keys hmem
      · exact absurd (hleaves f (mem_append_left _ hf) leaf (ityExpLeaves_subset _ leaf hleaf))
          hmem

theorem wellFlagged_ref : WellFlagged refTable refSymbol :=
  have hleaves : ∀ f ∈ itsFields refTable refSymbol, ∀ leaf ∈ ityLeaves f.pvIty,
      leaf ∈ keysOf refTable refSymbol := by decide
  ⟨by decide, rfl, rfl, hleaves, by decide, exposed_of_keys hleaves (by decide), by decide⟩

theorem wellFlagged_int : WellFlagged refTable intSymbol :=
  have hleaves : ∀ f ∈ itsFields refTable intSymbol, ∀ leaf ∈ ityLeaves f.pvIty,
      leaf ∈ keysOf refTable intSymbol := by decide
  ⟨by decide, rfl, rfl, hleaves, by decide, exposed_of_keys hleaves (by decide), by decide⟩

theorem fieldInst_ref (t : Ity) : FieldInst refTable refSymbol [t] [] fun _ => t :=
  ⟨wellFlagged_ref, ⟨[(refVar, t)], []⟩, rfl, by
    intro f hf
    cases mem_singleton.mp hf
    rfl⟩

def intType : Ity := .ityapp intSymbol [] []

def innerRegion : Region := refRegion 10 intType

def otherRegion : Region := refRegion 11 intType

def outerRegion : Region := refRegion 12 (ityReg innerRegion)

def outerVar : PvSymbol := refOf 20 outerRegion

def otherVar : PvSymbol := refOf 21 otherRegion

def intVar : PvSymbol := ⟨⟨"n", 22⟩, intType, false⟩

def refScope : Set PvSymbol := {outerVar, otherVar, intVar}

def tagLocation (r : Region) : Nat := r.regName.idTag

def intValue (n : Nat) : Value := .record fun _ => .atom n

def refEnv (x : PvSymbol) : Value :=
  if x = outerVar then .loc 12 else if x = otherVar then .loc 11 else intValue 2

def refStore : Store := fun l _ => if l = 12 then .loc 10 else intValue (l - 10)

def refAssigns : List Assign :=
  [⟨outerVar, refContents, otherVar⟩, ⟨otherVar, refContents, intVar⟩]

theorem hasType_int {ρ : Region → Nat} (n : Nat) : HasType refTable ρ (intValue n) intType :=
  .app ⟨wellFlagged_int, ⟨[], []⟩, rfl, fun _ hf => absurd hf not_mem_nil⟩
    (t := fun _ => intType) fun _ hf => absurd hf not_mem_nil

theorem scopeRegion_refScope :
    ScopeRegion refTable refScope r ↔ r = outerRegion ∨ r = innerRegion ∨ r = otherRegion := by
  have houter : ityRchRegs refTable outerVar.pvIty = [outerRegion, innerRegion] := by decide
  have hother : ityRchRegs refTable otherVar.pvIty = [otherRegion] := by decide
  have hint : ityRchRegs refTable intVar.pvIty = [] := by decide
  simp only [ScopeRegion, refScope, Set.mem_insert_iff, Set.mem_singleton_iff, exists_eq_or_imp,
    exists_eq_left, houter, hother, hint, mem_cons, not_mem_nil, or_false, or_assoc]

theorem injOn_refScope : Set.InjOn tagLocation {r | ScopeRegion refTable refScope r} := by
  intro r hr r' hr' heq
  rw [Set.mem_ofPred_eq, scopeRegion_refScope] at hr hr'
  rcases hr with rfl | rfl | rfl <;> rcases hr' with rfl | rfl | rfl <;>
    first | rfl | exact absurd heq (by decide)

theorem typedState_refScope : TypedState refTable refScope tagLocation refEnv refStore := by
  constructor
  · rintro x (rfl | rfl | rfl)
    · exact .reg outerRegion
    · exact .reg otherRegion
    · exact hasType_int 2
  · intro r hr
    rcases scopeRegion_refScope.mp hr with rfl | rfl | rfl
    · exact ⟨_, fieldInst_ref _, fun _ _ => .reg innerRegion⟩
    · exact ⟨_, fieldInst_ref _, fun _ _ => hasType_int 0⟩
    · exact ⟨_, fieldInst_ref _, fun _ _ => hasType_int 1⟩

theorem inScope_refAssigns : ∀ a ∈ refAssigns, a.record ∈ refScope ∧ a.value ∈ refScope := by
  simp [refAssigns, refScope]

theorem effAssign_refAssigns :
    ∃ e, effAssign refTable refAssigns = .ok e ∧ innerRegion ∉ e.effWrites.domain ∧
      ityRStale refTable e.effResets e.effCovers outerVar.pvIty = false := by
  have hreturns : ((effAssign refTable refAssigns).returns fun e =>
      decide (innerRegion ∉ e.effWrites.domain) &&
        !ityRStale refTable e.effResets e.effCovers outerVar.pvIty) = true := by
    decide +kernel
  obtain ⟨e, he, hp⟩ := Except.exists_ok_of_returns hreturns
  rw [Bool.and_eq_true, decide_eq_true_eq, Bool.not_eq_true'] at hp
  exact ⟨e, he, hp.1, hp.2⟩

theorem typedState_assignAll_refs :
    ∃ e, effAssign refTable refAssigns = .ok e ∧ ∃ ρ' : Region → Nat, TypedState refTable
        {x ∈ refScope | ityRStale refTable e.effResets e.effCovers x.pvIty = false} ρ' refEnv
        (assignAll refEnv refAssigns refStore) := by
  obtain ⟨e, he, -⟩ := effAssign_refAssigns
  obtain ⟨ρ', -, -, htyped, -⟩ :=
    typedState_assignAll injOn_refScope typedState_refScope inScope_refAssigns he
  exact ⟨e, he, ρ', htyped⟩

/-- The inner reference is reached and is not written, but after the assignments its
region is at the place of the other reference: it holds another value than before,
and so does the record at that place. -/
theorem assignAll_moves_unwritten :
    ∃ (T : ItsTable) (scope : Set PvSymbol) (ρ : Region → Nat) (env : PvSymbol → Value)
      (S : Store) (asl : List Assign) (e : Effect) (r : Region) (f : PvSymbol),
      Set.InjOn ρ {r | ScopeRegion T scope r} ∧ TypedState T scope ρ env S ∧
      (∀ a ∈ asl, a.record ∈ scope ∧ a.value ∈ scope) ∧ effAssign T asl = .ok e ∧
      ScopeRegion T {x ∈ scope | ityRStale T e.effResets e.effCovers x.pvIty = false} r ∧
      r ∉ e.effWrites.domain ∧ f ∈ itsFields T r.regIts ∧
      ∀ ρ' : Region → Nat,
        TypedState T {x ∈ scope | ityRStale T e.effResets e.effCovers x.pvIty = false} ρ' env
          (assignAll env asl S) →
        assignAll env asl S (ρ' r) f ≠ S (ρ r) f ∧
          assignAll env asl S (ρ' r) f ≠ S (ρ' r) f := by
  obtain ⟨e, he, hunwritten, hfresh⟩ := effAssign_refAssigns
  have hscope : outerVar ∈ refScope := .inl rfl
  have hreached : ∀ r ∈ ityRchRegs refTable outerVar.pvIty, ScopeRegion refTable
      {x ∈ refScope | ityRStale refTable e.effResets e.effCovers x.pvIty = false} r :=
    fun r hr => ⟨outerVar, ⟨hscope, hfresh⟩, hr⟩
  refine ⟨refTable, refScope, tagLocation, refEnv, refStore, refAssigns, e, innerRegion,
    refContents, injOn_refScope, typedState_refScope, inScope_refAssigns, he,
    hreached _ (by decide), hunwritten, by decide, fun ρ' htyped => ?_⟩
  have houter : ρ' outerRegion = 12 := by
    have hvar := (htyped.vars outerVar ⟨hscope, hfresh⟩).loc
    exact (Value.loc.inj hvar).symm
  have hinner : ρ' innerRegion = 11 := by
    obtain ⟨t, ⟨-, sbs, hsbs, hinst⟩, hfields⟩ := htyped.regions outerRegion (hreached _ (by decide))
    cases hsbs
    have ht := hinst refContents (by decide)
    have hfield := hfields refContents (by decide)
    rw [← Except.ok.inj ht, houter] at hfield
    exact (Value.loc.inj hfield.loc).symm
  rw [hinner]
  constructor
  · intro heq
    cases congrFun (Value.record.inj heq) refContents
  · intro heq
    cases congrFun (Value.record.inj heq) refContents

end Mlw
end Why3
