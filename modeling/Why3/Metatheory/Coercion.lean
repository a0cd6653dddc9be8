import Why3.Core.Coercion

/-!
Coercion maps and paths of coercion functions.

The entries of a map are followed through `insert` and the two closing folds:
an entry is never lost, and a new one is made of entries that were there and of
the added function. So a map reached by `add` has a coercion exactly where the
graph of the added functions has a path. The list of functions kept with it is
such a path as long as no function is added between two chains: `closeLeftRight`
composes what leads to its source with what leaves its target and leaves the
function itself out.
-/
namespace Why3
namespace Coercion

/-- The function takes a value of the first type symbol to one of the second. -/
def Coerces (ls : LSymbol) (ts₁ ts₂ : TySymbol) : Prop :=
  ∃ tl₁ tl₂, ls.lsArgs = [.tyapp ts₁ tl₁] ∧ ls.lsValue = some (.tyapp ts₂ tl₂)

/-- A non-empty path in the graph of the functions, with the functions along it. -/
inductive CoercionPath (fns : List LSymbol) : TySymbol → List LSymbol → TySymbol → Prop
  | single {ts₁ ts₂ : TySymbol} {ls : LSymbol} (hls : ls ∈ fns) (h : Coerces ls ts₁ ts₂) :
      CoercionPath fns ts₁ [ls] ts₂
  | cons {ts₁ ts₂ ts₃ : TySymbol} {ls : LSymbol} {l : List LSymbol} (hls : ls ∈ fns)
      (h : Coerces ls ts₁ ts₂) (rest : CoercionPath fns ts₂ l ts₃) :
      CoercionPath fns ts₁ (ls :: l) ts₃

variable {fns l : List LSymbol} {ts₁ ts₂ : TySymbol} {m m' : Map} {crc c₁ : Coercion}
  {xs : List (TySymbol × Coercion)} {ls : LSymbol}

theorem CoercionPath.append {l1 l2 : List LSymbol} {ts3 : TySymbol}
    (h1 : CoercionPath fns ts₁ l1 ts₂) (h2 : CoercionPath fns ts₂ l2 ts3) :
    CoercionPath fns ts₁ (l1 ++ l2) ts3 := by
  induction h1 with
  | single hls h => exact .cons hls h h2
  | cons hls h _ ih => exact .cons hls h (ih h2)

theorem CoercionPath.mono {fns' : List LSymbol} (h : CoercionPath fns ts₁ l ts₂)
    (hsub : fns ⊆ fns') : CoercionPath fns' ts₁ l ts₂ := by
  induction h with
  | single hls h => exact .single (hsub hls) h
  | cons hls h _ ih => exact .cons (hsub hls) h ih

/-! Entries. -/

theorem mem_iff_findCrc : mem m ts₁ ts₂ = true ↔ ∃ crc, findCrc m ts₁ ts₂ = some crc := by
  unfold mem findCrc
  cases m.find? ts₁ with
  | none => simp
  | some m1 => exact TagMap.mem_iff

theorem findCrc_getD (m : Map) (ts₁ ts₂ : TySymbol) :
    ((m.find? ts₁).getD .empty).find? ts₂ = findCrc m ts₁ ts₂ := by
  unfold findCrc
  cases m.find? ts₁ with
  | none => rfl
  | some m1 => rfl

theorem findCrc_of_bindings {m1 : Mts Coercion} (hm : (ts₁, m1) ∈ m.bindings)
    (h : m1.find? ts₂ = some crc) : findCrc m ts₁ ts₂ = some crc := by
  unfold findCrc
  rw [TagMap.mem_bindings.mp hm]
  exact h

theorem exists_bindings_of_findCrc (h : findCrc m ts₁ ts₂ = some crc) :
    ∃ m1, (ts₁, m1) ∈ m.bindings ∧ m1.find? ts₂ = some crc := by
  unfold findCrc at h
  cases hm : m.find? ts₁ with
  | none =>
    rw [hm] at h
    cases h
  | some m1 =>
    rw [hm] at h
    exact ⟨m1, TagMap.mem_bindings.mpr hm, h⟩

theorem findCrc_add (m : Map) (crc : Coercion) (ts₁ ts₂ : TySymbol) :
    findCrc (m.add crc.crcSrcTs (((m.find? crc.crcSrcTs).getD .empty).add crc.crcTarTs crc))
        ts₁ ts₂ =
      if ts₁ = crc.crcSrcTs ∧ ts₂ = crc.crcTarTs then some crc else findCrc m ts₁ ts₂ := by
  rw [findCrc, TagMap.find?_add]
  by_cases h1 : ts₁ = crc.crcSrcTs
  · subst h1
    simp only [if_true, TagMap.find?_add, findCrc_getD, true_and]
  · simp only [h1]
    rfl

theorem ckEq_iff {k1 k2 : CoercionKind} : ckEq k1 k2 = true ↔ k1 = k2 := by
  induction k1 generalizing k2 with
  | crcLeaf ls => cases k2 <;> simp [ckEq]
  | crcComp k l ihk ihl => cases k2 <;> simp [ckEq, ihk, ihl]

/-- What an insertion does: the opposite entry is absent, and the entry is there
already, with the same functions, or is new. -/
theorem insert_ok (h : insert crc m = .ok m') : findCrc m crc.crcTarTs crc.crcSrcTs = none ∧
      ((∃ old, findCrc m crc.crcSrcTs crc.crcTarTs = some old ∧ old.crcKind = crc.crcKind ∧
        m' = m) ∨
      findCrc m crc.crcSrcTs crc.crcTarTs = none ∧ ∀ ts₁ ts₂, findCrc m' ts₁ ts₂ =
        if ts₁ = crc.crcSrcTs ∧ ts₂ = crc.crcTarTs then some crc else findCrc m ts₁ ts₂) := by
  rw [insert] at h
  cases hback : findCrc m crc.crcTarTs crc.crcSrcTs with
  | some back =>
    rw [hback] at h
    nomatch h
  | none =>
    simp only [hback, findCrc_getD] at h
    refine ⟨rfl, ?_⟩
    cases hold : findCrc m crc.crcSrcTs crc.crcTarTs with
    | some old =>
      simp only [hold, replace] at h
      split at h
      next heq =>
        cases h
        exact .inl ⟨old, rfl, ckEq_iff.mp heq, rfl⟩
      next => nomatch h
    | none =>
      simp only [hold] at h
      cases h
      exact .inr ⟨rfl, findCrc_add m crc⟩

/-- A property of the entries of a map. -/
def Entries (P : TySymbol → TySymbol → Coercion → Prop) (m : Map) : Prop :=
  ∀ ts₁ ts₂ crc, findCrc m ts₁ ts₂ = some crc → P ts₁ ts₂ crc

def Keeps (m m' : Map) : Prop :=
  ∀ ts₁ ts₂ c, findCrc m ts₁ ts₂ = some c → findCrc m' ts₁ ts₂ = some c

/-- There is an entry with the composition of functions `k`. -/
def Found (m : Map) (ts₁ ts₂ : TySymbol) (k : CoercionKind) : Prop :=
  ∃ c, findCrc m ts₁ ts₂ = some c ∧ c.crcKind = k

theorem Keeps.refl (m : Map) : Keeps m m := fun _ _ _ h => h

theorem Keeps.trans {m1 m2 m3 : Map} (h1 : Keeps m1 m2) (h2 : Keeps m2 m3) : Keeps m1 m3 :=
  fun ts₁ ts₂ c h => h2 ts₁ ts₂ c (h1 ts₁ ts₂ c h)

theorem Found.keep {k : CoercionKind} (h : Found m ts₁ ts₂ k)
    (hm : Keeps m m') : Found m' ts₁ ts₂ k := by
  obtain ⟨c, hc, hk⟩ := h
  exact ⟨c, hm _ _ _ hc, hk⟩

variable {P : TySymbol → TySymbol → Coercion → Prop} {x : TySymbol × Coercion}

theorem insert_entries (h : insert crc m = .ok m') (hm : Entries P m)
    (hcrc : P crc.crcSrcTs crc.crcTarTs crc) : Entries P m' := by
  obtain ⟨-, ⟨old, -, -, rfl⟩ | ⟨-, hnew⟩⟩ := insert_ok h
  · exact hm
  · intro ts₁ ts₂ c hc
    rw [hnew] at hc
    split at hc
    next heq =>
      cases hc
      rw [heq.1, heq.2]
      exact hcrc
    next => exact hm ts₁ ts₂ c hc

theorem insert_keeps (h : insert crc m = .ok m') : Keeps m m' := by
  obtain ⟨-, ⟨old, -, -, rfl⟩ | ⟨hnone, hnew⟩⟩ := insert_ok h
  · exact .refl _
  · intro ts₁ ts₂ c hc
    rw [hnew, if_neg, hc]
    rintro ⟨rfl, rfl⟩
    rw [hnone] at hc
    nomatch hc

theorem insert_found (h : insert crc m = .ok m') :
    Found m' crc.crcSrcTs crc.crcTarTs crc.crcKind := by
  obtain ⟨-, ⟨old, hold, hkind, rfl⟩ | ⟨-, hnew⟩⟩ := insert_ok h
  · exact ⟨old, hold, hkind⟩
  · exact ⟨crc, by rw [hnew, if_pos ⟨rfl, rfl⟩], rfl⟩

/-! The closing folds. -/

def Keyed (m : Map) : Prop := Entries (fun ts₁ ts₂ crc => crc.crcSrcTs = ts₁ ∧ crc.crcTarTs = ts₂) m

/-- The coercion has the property and is filed under its own symbols. -/
def Filed (P : TySymbol → TySymbol → Coercion → Prop) (ts₁ ts₂ : TySymbol) (c : Coercion) : Prop :=
  (c.crcSrcTs = ts₁ ∧ c.crcTarTs = ts₂) ∧ P ts₁ ts₂ c

section

variable (h : xs.foldlM (closeRight c₁) m = .ok m')
include h

theorem closeRight_fold_entries (hm : Entries P m)
    (hxs : ∀ x ∈ xs, P c₁.crcSrcTs x.2.crcTarTs (compose c₁ x.2)) : Entries P m' :=
  Except.foldlM_invariant (Entries P) h hm fun _ x _ hx hb hstep =>
    insert_entries hstep hb (hxs x hx)

theorem closeRight_fold_keeps : Keeps m m' :=
  Except.foldlM_invariant (Keeps m) h (.refl m) fun _ _ _ _ hb hstep =>
    hb.trans (insert_keeps hstep)

theorem closeRight_fold_found (hx : x ∈ xs) :
    Found m' c₁.crcSrcTs x.2.crcTarTs (compose c₁ x.2).crcKind :=
  Except.foldlM_establish (Found · c₁.crcSrcTs x.2.crcTarTs (compose c₁ x.2).crcKind) h hx
    (fun _ _ hstep => insert_found hstep)
    (fun _ _ _ _ hb hstep => hb.keep (insert_keeps hstep))

end

/-- The bindings that `closeLeftRight` composes with on the right. -/
theorem mem_add_bindings :
    x ∈ (((m.find? crc.crcTarTs).getD .empty).add crc.crcTarTs crc).bindings ↔
      (x.1 = crc.crcTarTs ∧ x.2 = crc) ∨
        (x.1 ≠ crc.crcTarTs ∧ findCrc m crc.crcTarTs x.1 = some x.2) := by
  rw [TagMap.mem_bindings, TagMap.find?_add, findCrc_getD]
  split
  next h => simp [h, eq_comm]
  next h => simp [h]

theorem mem_getD_bindings :
    x ∈ ((m.find? ts₁).getD .empty).bindings ↔ findCrc m ts₁ x.1 = some x.2 := by
  rw [TagMap.mem_bindings, findCrc_getD]

theorem closeLeftRight_keeps {x : TySymbol × Mts Coercion}
    (h : closeLeftRight crc m x = .ok m') : Keeps m m' := by
  rw [closeLeftRight] at h
  split at h
  · exact closeRight_fold_keeps h
  · cases h
    exact .refl _

theorem closeLeftRight_fold_keeps {xs : List (TySymbol × Mts Coercion)}
    (h : xs.foldlM (closeLeftRight crc) m = .ok m') : Keeps m m' :=
  Except.foldlM_invariant (Keeps m) h (.refl m) fun _ _ _ _ hb hstep =>
    hb.trans (closeLeftRight_keeps hstep)

section

variable (h : addCrc m crc = .ok m')
include h

theorem addCrc_ok : ∃ uc1 uc2, insert crc m = .ok uc1 ∧
      ((uc1.find? crc.crcTarTs).getD .empty).bindings.foldlM (closeRight crc) uc1 = .ok uc2 ∧
      uc2.bindings.foldlM (closeLeftRight crc) uc2 = .ok m' := by
  obtain ⟨uc1, h1, h⟩ := Except.bind_eq_ok.mp h
  obtain ⟨uc2, h2, h⟩ := Except.bind_eq_ok.mp h
  exact ⟨uc1, uc2, h1, h2, h⟩

/-- A property of entries holds after an addition when it is kept by the four
kinds of entries that the addition makes. -/
theorem addCrc_entries (hk : Keyed m) (hm : Entries P m) (hcrc : P crc.crcSrcTs crc.crcTarTs crc)
    (right : ∀ ts c, P crc.crcTarTs ts c → P crc.crcSrcTs ts (compose crc c))
    (left : ∀ ts c, P ts crc.crcSrcTs c → P ts crc.crcTarTs (compose c crc))
    (across : ∀ ts₁ ts₂ c₁ c2, P ts₁ crc.crcSrcTs c₁ → P crc.crcTarTs ts₂ c2 →
      P ts₁ ts₂ (compose c₁ c2)) : Keyed m' ∧ Entries P m' := by
  obtain ⟨uc1, uc2, h1, h2, h3⟩ := addCrc_ok h
  suffices hall : Entries (Filed P) m' from
    ⟨fun _ _ _ hc => (hall _ _ _ hc).1, fun _ _ _ hc => (hall _ _ _ hc).2⟩
  have huc1 : Entries (Filed P) uc1 := insert_entries h1
    (fun _ _ _ hc => ⟨hk _ _ _ hc, hm _ _ _ hc⟩) ⟨⟨rfl, rfl⟩, hcrc⟩
  have huc2 : Entries (Filed P) uc2 := by
    refine closeRight_fold_entries h2 huc1 fun x hx => ?_
    obtain ⟨hkx, hPx⟩ := huc1 _ _ _ (mem_getD_bindings.mp hx)
    rw [hkx.2]
    exact ⟨⟨rfl, hkx.2⟩, right _ _ hPx⟩
  refine Except.foldlM_invariant (Entries (Filed P)) h3 huc2 fun macc x macc' hx hmacc hstep => ?_
  unfold closeLeftRight at hstep
  split at hstep
  next c₁ hc1 =>
    obtain ⟨hkc1, hPc1⟩ := huc2 _ _ _ (findCrc_of_bindings hx hc1)
    refine closeRight_fold_entries hstep hmacc fun y hy => ?_
    rw [hkc1.1]
    cases mem_add_bindings.mp hy with
    | inl hcrc =>
      rw [hcrc.2]
      exact ⟨⟨hkc1.1, rfl⟩, left _ _ hPc1⟩
    | inr hold =>
      obtain ⟨hky, hPy⟩ := hmacc _ _ _ hold.2
      rw [hky.2]
      exact ⟨⟨hkc1.1, hky.2⟩, across _ _ _ _ hPc1 hPy⟩
  next =>
    cases hstep
    exact hmacc

theorem addCrc_keeps : Keeps m m' := by
  obtain ⟨uc1, uc2, h1, h2, h3⟩ := addCrc_ok h
  exact ((insert_keeps h1).trans (closeRight_fold_keeps h2)).trans (closeLeftRight_fold_keeps h3)

theorem addCrc_found : Found m' crc.crcSrcTs crc.crcTarTs crc.crcKind := by
  obtain ⟨uc1, uc2, h1, h2, h3⟩ := addCrc_ok h
  exact (insert_found h1).keep ((closeRight_fold_keeps h2).trans (closeLeftRight_fold_keeps h3))

theorem addCrc_found_right {c : Coercion} (hm : Keyed m) {ts : TySymbol}
    (hts : findCrc m crc.crcTarTs ts = some c) :
    Found m' crc.crcSrcTs ts (compose crc c).crcKind := by
  obtain ⟨uc1, uc2, h1, h2, h3⟩ := addCrc_ok h
  have hfound := closeRight_fold_found h2 (x := (ts, c))
    (mem_getD_bindings.mpr (insert_keeps h1 _ _ _ hts))
  rw [(hm _ _ _ hts).2] at hfound
  exact hfound.keep (closeLeftRight_fold_keeps h3)

/-- From what leads to the source there is a coercion to the target, through the function, and
to what the target leads to, without it. -/
theorem addCrc_found_left (hm : Keyed m) (hts1 : findCrc m ts₁ crc.crcSrcTs = some c₁) :
    Found m' ts₁ crc.crcTarTs (compose c₁ crc).crcKind ∧
      ∀ ts₂ c2, ts₂ ≠ crc.crcTarTs → findCrc m crc.crcTarTs ts₂ = some c2 →
        Found m' ts₁ ts₂ (compose c₁ c2).crcKind := by
  obtain ⟨uc1, uc2, h1, h2, h3⟩ := addCrc_ok h
  have huc2 : Keeps m uc2 := (insert_keeps h1).trans (closeRight_fold_keeps h2)
  obtain ⟨m1, hm1, hc1⟩ := exists_bindings_of_findCrc (huc2 _ _ _ hts1)
  have hsrc := (hm _ _ _ hts1).1
  -- the step for `ts₁` composes with all that the target leads to by then
  have hstage (ts₂ : TySymbol) (c2 : Coercion) (htar : c2.crcTarTs = ts₂)
      (hc2 : ∀ macc, Keeps m macc → (ts₂, c2) ∈
        (((macc.find? crc.crcTarTs).getD .empty).add crc.crcTarTs crc).bindings) :
      Found m' ts₁ ts₂ (compose c₁ c2).crcKind := by
    refine Except.foldlM_establish_of (Keeps m) (Found · ts₁ ts₂ (compose c₁ c2).crcKind)
      h3 hm1 huc2
      (fun _ _ _ _ hmacc hstep => hmacc.trans (closeLeftRight_keeps hstep)) ?_
      fun _ _ _ _ hfound hstep => hfound.keep (closeLeftRight_keeps hstep)
    intro macc macc' hmacc hstep
    simp only [closeLeftRight, hc1] at hstep
    have hfound := closeRight_fold_found hstep (hc2 macc hmacc)
    rwa [hsrc, htar] at hfound
  refine ⟨hstage crc.crcTarTs crc rfl fun macc _ => mem_add_bindings.mpr (.inl ⟨rfl, rfl⟩),
    fun ts₂ c2 hne hts2 => hstage ts₂ c2 (hm _ _ _ hts2).2 fun macc hmacc => ?_⟩
  exact mem_add_bindings.mpr (.inr ⟨hne, hmacc _ _ _ hts2⟩)

end

/-! Maps and the graph of the added functions. -/

theorem createCrc_ok (h : createCrc ls = .ok crc) :
    crc.crcKind = .crcLeaf ls ∧ Coerces ls crc.crcSrcTs crc.crcTarTs ∧
      crc.crcSrcTs ≠ crc.crcTarTs := by
  unfold createCrc at h
  split at h
  next ts₁ tl1 ts₂ tl2 hargs hvalue =>
    split at h
    · cases h
    next hne =>
      cases h
      exact ⟨rfl, ⟨tl1, tl2, hargs, hvalue⟩, hne⟩
  next => cases h

theorem Coerces.unique {ts1' ts2' : TySymbol} (h : Coerces ls ts₁ ts₂)
    (h' : Coerces ls ts1' ts2') : ts₁ = ts1' ∧ ts₂ = ts2' := by
  obtain ⟨tl1, tl2, hargs, hvalue⟩ := h
  obtain ⟨tl1', tl2', hargs', hvalue'⟩ := h'
  rw [hargs] at hargs'
  rw [hvalue] at hvalue'
  simp only [List.cons.injEq, Ty.tyapp.injEq, Option.some.injEq] at hargs' hvalue'
  exact ⟨hargs'.1.1, hvalue'.1⟩

/-- The map has a coercion, filed under its own type symbols, exactly where the
functions have a path. -/
structure ClosureOf (fns : List LSymbol) (m : Map) : Prop where
  keyed : Keyed m
  mem_iff : ∀ ts₁ ts₂, mem m ts₁ ts₂ = true ↔ ∃ l, CoercionPath fns ts₁ l ts₂

theorem not_coercionPath_nil : ¬ CoercionPath [] ts₁ l ts₂ := by
  intro h
  cases h with
  | single hls _ | cons hls _ _ => cases hls

theorem closureOf_empty : ClosureOf [] .empty where
  keyed := fun _ _ _ h => nomatch h
  mem_iff := fun _ _ => ⟨fun h => (nomatch h), fun ⟨_, h⟩ => absurd h not_coercionPath_nil⟩

variable (hm : ClosureOf fns m) (hcrc : createCrc ls = .ok crc) (h : addCrc m crc = .ok m')

include hm hcrc h in
theorem addCrc_path :
    Keyed m' ∧ Entries (fun ts₁ ts₂ _ => ∃ l, CoercionPath (ls :: fns) ts₁ l ts₂) m' := by
  obtain ⟨-, hls, -⟩ := createCrc_ok hcrc
  have hedge : CoercionPath (ls :: fns) crc.crcSrcTs [ls] crc.crcTarTs :=
    .single List.mem_cons_self hls
  refine addCrc_entries h hm.keyed ?_ ⟨_, hedge⟩ ?_ ?_ ?_
  · intro ts₁ ts₂ c hc
    obtain ⟨l, hl⟩ := (hm.mem_iff ts₁ ts₂).mp (mem_iff_findCrc.mpr ⟨c, hc⟩)
    exact ⟨l, hl.mono (List.subset_cons_self _ _)⟩
  · exact fun ts c ⟨l, hl⟩ => ⟨_, hedge.append hl⟩
  · exact fun ts c ⟨l, hl⟩ => ⟨_, hl.append hedge⟩
  · exact fun ts₁ ts₂ c₁ c2 ⟨l1, hl1⟩ ⟨l2, hl2⟩ => ⟨_, (hl1.append hedge).append hl2⟩

/-- A path over a graph with one more function is an old one or passes by the function once,
when nothing leads from its target to its source. -/
theorem CoercionPath.split {a b : TySymbol} (h : CoercionPath (ls :: fns) ts₁ l ts₂)
    (hls : Coerces ls a b) (hne : a ≠ b) (hback : ¬ ∃ l, CoercionPath fns b l a) :
    CoercionPath fns ts₁ l ts₂ ∨ ∃ l1 l2, l = l1 ++ ls :: l2 ∧
      (l1 = [] ∧ ts₁ = a ∨ CoercionPath fns ts₁ l1 a) ∧
      (l2 = [] ∧ ts₂ = b ∨ CoercionPath fns b l2 ts₂) := by
  induction h with
  | single hf hab =>
    cases List.mem_cons.mp hf with
    | inl heq =>
      obtain ⟨rfl, rfl⟩ := (heq ▸ hab).unique hls
      exact .inr ⟨[], [], by rw [heq]; rfl, .inl ⟨rfl, rfl⟩, .inl ⟨rfl, rfl⟩⟩
    | inr hf => exact .inl (.single hf hab)
  | cons hf hab _ ih =>
    cases List.mem_cons.mp hf with
    | inl heq =>
      obtain ⟨rfl, rfl⟩ := (heq ▸ hab).unique hls
      rcases ih with hrest | ⟨l1, l2, rfl, ⟨-, hl1⟩ | hl1, hl2⟩
      · exact .inr ⟨[], _, by rw [heq]; rfl, .inl ⟨rfl, rfl⟩, .inr hrest⟩
      · exact absurd hl1.symm hne
      · exact absurd ⟨l1, hl1⟩ hback
    | inr hf =>
      rcases ih with hrest | ⟨l1, l2, rfl, ⟨rfl, rfl⟩ | hl1, hl2⟩
      · exact .inl (.cons hf hab hrest)
      · exact .inr ⟨[_], l2, rfl, .inr (.single hf hab), hl2⟩
      · exact .inr ⟨_ :: l1, l2, rfl, .inr (.cons hf hab hl1), hl2⟩

/-- Nothing leads from the target of a function that is added to its source. -/
theorem ClosureOf.not_back (hm : ClosureOf fns m) (h : addCrc m crc = .ok m') :
    ¬ ∃ l, CoercionPath fns crc.crcTarTs l crc.crcSrcTs := by
  intro hback
  obtain ⟨uc1, uc2, h1, -, -⟩ := addCrc_ok h
  obtain ⟨c, hc⟩ := mem_iff_findCrc.mp ((hm.mem_iff _ _).mpr hback)
  rw [(insert_ok h1).1] at hc
  nomatch hc

theorem ClosureOf.exists_crc (hm : ClosureOf fns m) (hl : CoercionPath fns ts₁ l ts₂) :
    ∃ c, findCrc m ts₁ ts₂ = some c :=
  mem_iff_findCrc.mp ((hm.mem_iff ts₁ ts₂).mpr ⟨l, hl⟩)

def firstLeaf : CoercionKind → LSymbol
  | .crcLeaf ls => ls
  | .crcComp k₁ _ => firstLeaf k₁

/-- A path has an entry that begins with its first function. -/
def Headed (fns : List LSymbol) (m : Map) : Prop :=
  ∀ ts₁ l ts₂, CoercionPath fns ts₁ l ts₂ →
    ∃ c, findCrc m ts₁ ts₂ = some c ∧ l.head? = some (firstLeaf c.crcKind)

theorem headed_empty : Headed [] .empty := fun _ _ _ h => absurd h not_coercionPath_nil

include hm hcrc h in
theorem addCrc_headed (hh : Headed fns m) : Headed (ls :: fns) m' := by
  intro ts₁ l ts₂ hl
  obtain ⟨hkind, hls, hne⟩ := createCrc_ok hcrc
  have hkeyed := hm.keyed
  have hhead {ts₁ ts₂ : TySymbol} {l : List LSymbol} {k : CoercionKind}
      (hk : Found m' ts₁ ts₂ k) (hl : l.head? = some (firstLeaf k)) :
      ∃ c, findCrc m' ts₁ ts₂ = some c ∧ l.head? = some (firstLeaf c.crcKind) := by
    obtain ⟨c, hc, rfl⟩ := hk
    exact ⟨c, hc, hl⟩
  rcases hl.split hls hne (hm.not_back h) with hold | ⟨l1, l2, rfl, hl1, hl2⟩
  · obtain ⟨c, hc, hfirst⟩ := hh _ _ _ hold
    exact ⟨c, addCrc_keeps h _ _ _ hc, hfirst⟩
  rcases hl1 with ⟨rfl, rfl⟩ | hl1
  · rcases hl2 with ⟨rfl, rfl⟩ | hl2
    · exact hhead (addCrc_found h) (by rw [hkind]; rfl)
    · obtain ⟨c2, hc2⟩ := hm.exists_crc hl2
      exact hhead (addCrc_found_right h hkeyed hc2) (by rw [compose, hkind]; rfl)
  · obtain ⟨c₁, hc1, hfirst⟩ := hh _ _ _ hl1
    have hleft := addCrc_found_left h hkeyed hc1
    have happend : (l1 ++ ls :: l2).head? = some (firstLeaf c₁.crcKind) := by
      rw [List.head?_append, hfirst]
      rfl
    rcases eq_or_ne ts₂ crc.crcTarTs with rfl | htar
    · exact hhead hleft.1 happend
    · obtain ⟨c2, hc2⟩ := hm.exists_crc (hl2.resolve_left fun heq => htar heq.2)
      exact hhead (hleft.2 ts₂ c2 htar hc2) happend

theorem add_closureOf (hm : ClosureOf fns m ∧ Headed fns m) (h : add m ls = .ok m') :
    ClosureOf (ls :: fns) m' ∧ Headed (ls :: fns) m' := by
  obtain ⟨crc, hcrc, h⟩ := Except.bind_eq_ok.mp h
  have hheaded := addCrc_headed hm.1 hcrc h hm.2
  obtain ⟨hkeyed, hpath⟩ := addCrc_path hm.1 hcrc h
  refine ⟨⟨hkeyed, fun ts₁ ts₂ => ⟨fun hmem => ?_, ?_⟩⟩, hheaded⟩
  · obtain ⟨c, hc⟩ := mem_iff_findCrc.mp hmem
    exact hpath _ _ _ hc
  · rintro ⟨l, hl⟩
    obtain ⟨c, hc, -⟩ := hheaded _ _ _ hl
    exact mem_iff_findCrc.mpr ⟨c, hc⟩

/-! The functions kept with a coercion. -/

theorem lsListOf_append (acc : List LSymbol) (k : CoercionKind) :
    lsListOf acc k = lsListOf [] k ++ acc := by
  induction k generalizing acc with
  | crcLeaf ls => rfl
  | crcComp k1 k2 ih1 ih2 =>
    simp only [lsListOf]
    rw [ih1, ih2, ih1 (lsListOf [] k2), List.append_assoc]

@[simp] theorem lsListOf_compose (c₁ c₂ : Coercion) :
    lsListOf [] (compose c₁ c₂).crcKind = lsListOf [] c₁.crcKind ++ lsListOf [] c₂.crcKind :=
  lsListOf_append (lsListOf [] c₂.crcKind) c₁.crcKind

/-- The functions of every coercion of the map form a path between its symbols. -/
def Pathed (fns : List LSymbol) (m : Map) : Prop :=
  Entries (fun ts₁ ts₂ crc => CoercionPath fns ts₁ (lsListOf [] crc.crcKind) ts₂) m

/-- The function does not join a coercion to its source with one from its target. -/
def NotBetween (m : Map) (ls : LSymbol) : Prop :=
  ∀ ts₁ ts₂, Coerces ls ts₁ ts₂ →
    (∀ ts, mem m ts ts₁ = false) ∨ (∀ ts, mem m ts₂ ts = false)

theorem add_pathed (hm : ClosureOf fns m) (hp : Pathed fns m) (hls : NotBetween m ls)
    (h : add m ls = .ok m') : Pathed (ls :: fns) m' := by
  obtain ⟨crc, hcrc, h⟩ := Except.bind_eq_ok.mp h
  obtain ⟨hkind, hedge, hne⟩ := createCrc_ok hcrc
  have hsingle : CoercionPath (ls :: fns) crc.crcSrcTs (lsListOf [] crc.crcKind) crc.crcTarTs := by
    rw [hkind]
    exact .single List.mem_cons_self hedge
  have hold {ts₁ ts₂ : TySymbol} {c : Coercion} (hc : findCrc m ts₁ ts₂ = some c) :
      CoercionPath (ls :: fns) ts₁ (lsListOf [] c.crcKind) ts₂ :=
    (hp _ _ _ hc).mono (List.subset_cons_self _ _)
  have habsent {ts₁ ts₂ : TySymbol} {c : Coercion} (hc : findCrc m ts₁ ts₂ = some c)
      (hf : mem m ts₁ ts₂ = false) : False := by
    rw [mem_iff_findCrc.mpr ⟨c, hc⟩] at hf
    cases hf
  -- compositions are made on one side only
  have hside (Q : TySymbol → TySymbol → Prop)
      (hm' : ∀ {ts₁ ts₂ c}, findCrc m ts₁ ts₂ = some c → Q ts₁ ts₂)
      (hcrc : Q crc.crcSrcTs crc.crcTarTs)
      (right : ∀ {ts}, Q crc.crcTarTs ts → Q crc.crcSrcTs ts)
      (left : ∀ {ts}, Q ts crc.crcSrcTs → Q ts crc.crcTarTs)
      (across : ∀ {ts₁ ts₂}, Q ts₁ crc.crcSrcTs → ¬ Q crc.crcTarTs ts₂) :
      Pathed (ls :: fns) m' := by
    suffices hall : Entries (fun ts₁ ts₂ c => Q ts₁ ts₂ ∧
        CoercionPath (ls :: fns) ts₁ (lsListOf [] c.crcKind) ts₂) m' from
      fun _ _ _ hc => (hall _ _ _ hc).2
    refine (addCrc_entries h hm.keyed (fun _ _ _ hc => ⟨hm' hc, hold hc⟩) ⟨hcrc, hsingle⟩
      ?_ ?_ fun _ _ _ _ hc₁ hc2 => absurd hc2.1 (across hc₁.1)).2
    · rintro ts c ⟨hts, hpath⟩
      exact ⟨right hts, lsListOf_compose crc c ▸ hsingle.append hpath⟩
    · rintro ts c ⟨hts, hpath⟩
      exact ⟨left hts, lsListOf_compose c crc ▸ hpath.append hsingle⟩
  cases hls _ _ hedge with
  | inl hsrc =>
    exact hside (fun _ ts₂ => ts₂ ≠ crc.crcSrcTs) (fun hc heq => habsent hc (heq ▸ hsrc _))
      hne.symm id (absurd rfl) fun hts => absurd rfl hts
  | inr htar =>
    exact hside (fun ts₁ _ => ts₁ ≠ crc.crcTarTs) (fun hc heq => habsent hc (heq ▸ htar _))
      hne (absurd rfl) id fun _ => not_not.mpr rfl

/-! Runs of `add`. -/

/-- Every function of the run meets the condition in the map it is added to. -/
def EachNotBetween : Map → List LSymbol → Prop
  | _, [] => True
  | m, ls :: fns => NotBetween m ls ∧ ∀ m', add m ls = .ok m' → EachNotBetween m' fns

theorem foldlM_add_pathed {fns0 : List LSymbol} (hm : ClosureOf fns0 m ∧ Headed fns0 m)
    (hp : Pathed fns0 m) (hfns : EachNotBetween m fns) (h : fns.foldlM add m = .ok m') :
    Pathed (fns.reverse ++ fns0) m' := by
  induction fns generalizing fns0 m with
  | nil =>
    cases h
    exact hp
  | cons ls fns ih =>
    obtain ⟨m1, h1, h⟩ := Except.foldlM_cons_ok.mp h
    rw [List.reverse_cons, List.append_assoc]
    exact ih (add_closureOf hm h1) (add_pathed hm.1 hp hfns.1 h1) (hfns.2 m1 h1) h

theorem mayMatchList_self {tl : List Ty} (h : ∀ t ∈ tl, mayMatch t t = .ok ()) :
    mayMatchList tl tl = .ok () := by
  induction tl with
  | nil => rfl
  | cons t tl ih =>
    rw [mayMatchList, h t List.mem_cons_self]
    exact ih (List.forall_mem_cons.mp h).2

theorem mayMatch_self (ty : Ty) : mayMatch ty ty = .ok () := by
  induction ty using Ty.induct with
  | tyvar v => rfl
  | tyapp ts tl ih =>
    rw [mayMatch, if_pos rfl]
    exact mayMatchList_self ih

/-- A coercion of the map is found at its own types. -/
theorem find_of_findCrc (h : findCrc m ts₁ ts₂ = some crc) :
    find m (.tyapp ts₁ crc.crcSrcTl) (.tyapp ts₂ crc.crcTarTl) = .ok (lsListOf [] crc.crcKind) := by
  simp only [find, h]
  rw [mayMatchList_self fun t _ => mayMatch_self t, mayMatchList_self fun t _ => mayMatch_self t]
  rfl

theorem findCrc_of_find {tl1 tl2 : List Ty} (h : find m (.tyapp ts₁ tl1) (.tyapp ts₂ tl2) = .ok l) :
    ∃ crc, findCrc m ts₁ ts₂ = some crc ∧ l = lsListOf [] crc.crcKind := by
  unfold find at h
  cases hc : findCrc m ts₁ ts₂ with
  | none =>
    simp only [hc] at h
    cases h
  | some crc =>
    simp only [hc] at h
    obtain ⟨-, -, h⟩ := Except.bind_eq_ok.mp h
    obtain ⟨-, -, h⟩ := Except.bind_eq_ok.mp h
    cases h
    exact ⟨crc, rfl, rfl⟩

/-- After any run of `add` there is a coercion between two type symbols exactly
when the added functions have a path between them, and `find` returns a list for
it. When no function of the run is added between two chains the list is such a
path. -/
theorem find_coercionPath {fns : List LSymbol} {m : Map} (run : fns.foldlM add .empty = .ok m) :
    (∀ ts₁ ts₂, mem m ts₁ ts₂ = true ↔ ∃ l, CoercionPath fns ts₁ l ts₂) ∧
      (∀ ts₁ ts₂, mem m ts₁ ts₂ = true →
        ∃ tl₁ tl₂ l, find m (.tyapp ts₁ tl₁) (.tyapp ts₂ tl₂) = .ok l) ∧
      (EachNotBetween .empty fns → ∀ ts₁ tl₁ ts₂ tl₂ l,
        find m (.tyapp ts₁ tl₁) (.tyapp ts₂ tl₂) = .ok l → CoercionPath fns ts₁ l ts₂) := by
  have hempty : ClosureOf [] .empty ∧ Headed [] .empty := ⟨closureOf_empty, headed_empty⟩
  have hclosure := (Except.foldlM_accumulates
    (P := fun fns m => ClosureOf fns m ∧ Headed fns m) add_closureOf hempty run).1
  have hsub : fns.reverse ++ [] ⊆ fns := by simp
  have hsub' : fns ⊆ fns.reverse ++ [] := by simp
  refine ⟨fun ts₁ ts₂ => ?_, fun ts₁ ts₂ hmem => ?_, fun hfns ts₁ tl₁ ts₂ tl₂ l hfind => ?_⟩
  · rw [hclosure.mem_iff]
    exact ⟨fun ⟨l, hl⟩ => ⟨l, hl.mono hsub⟩, fun ⟨l, hl⟩ => ⟨l, hl.mono hsub'⟩⟩
  · obtain ⟨crc, hcrc⟩ := mem_iff_findCrc.mp hmem
    exact ⟨_, _, _, find_of_findCrc hcrc⟩
  · obtain ⟨crc, hcrc, rfl⟩ := findCrc_of_find hfind
    have hpathed := foldlM_add_pathed hempty (fun _ _ _ h => nomatch h) hfns run
    exact (hpathed _ _ _ hcrc).mono hsub

/-! A chain of three coercions, declared from the left or with the middle last. -/

def chainTs (i : Nat) : TySymbol := ⟨⟨"t", i⟩, [], .noDef⟩

def chainLs (i : Nat) : LSymbol where
  lsName := ⟨"f", i⟩
  lsArgs := [.tyapp (chainTs i) []]
  lsValue := some (.tyapp (chainTs (i + 1)) [])
  lsConstr := 0

theorem coerces_chainLs {i : Nat} (h : Coerces (chainLs i) ts₁ ts₂) :
    ts₁ = chainTs i ∧ ts₂ = chainTs (i + 1) :=
  h.unique ⟨[], [], rfl, rfl⟩

def afterAdds (fns : List LSymbol) : Map :=
  match fns.foldlM add .empty with
  | .ok m => m
  | .error _ => .empty

theorem find_chain : CoercionPath [chainLs 0, chainLs 1, chainLs 2] (chainTs 0)
      [chainLs 0, chainLs 1, chainLs 2] (chainTs 3) := by
  have hrun : [chainLs 0, chainLs 1, chainLs 2].foldlM add .empty =
      .ok (afterAdds [chainLs 0, chainLs 1, chainLs 2]) := rfl
  have hlast (m : Map) (i : Nat) (hm : m.find? (chainTs (i + 1)) = none) :
      NotBetween m (chainLs i) := by
    intro ts₁ ts₂ h
    obtain ⟨rfl, rfl⟩ := coerces_chainLs h
    refine .inr fun ts => ?_
    simp only [mem, hm]
  have hfns : EachNotBetween .empty [chainLs 0, chainLs 1, chainLs 2] := by
    refine ⟨hlast _ 0 rfl, fun m1 h1 => ?_⟩
    cases h1
    refine ⟨hlast _ 1 rfl, fun m2 h2 => ?_⟩
    cases h2
    exact ⟨hlast _ 2 rfl, fun _ _ => trivial⟩
  exact (find_coercionPath hrun).2.2 hfns (chainTs 0) [] (chainTs 3) [] _ rfl

/-- With the middle of the chain declared last, the list found for the whole
chain leaves it out. -/
theorem find_not_coercionPath : ∃ m, [chainLs 0, chainLs 2, chainLs 1].foldlM add .empty = .ok m ∧
      find m (.tyapp (chainTs 0) []) (.tyapp (chainTs 3) []) = .ok [chainLs 0, chainLs 2] ∧
      ¬ CoercionPath [chainLs 0, chainLs 2, chainLs 1] (chainTs 0)
        [chainLs 0, chainLs 2] (chainTs 3) := by
  refine ⟨afterAdds [chainLs 0, chainLs 2, chainLs 1], rfl, rfl, fun h => ?_⟩
  cases h with
  | cons _ h1 h =>
    cases h with
    | single _ h2 =>
      have hmid : chainTs 1 = chainTs 2 :=
        (coerces_chainLs h1).2.symm.trans (coerces_chainLs h2).1
      exact absurd hmid (by decide)
    | cons _ _ h => cases h

end Coercion
end Why3
