import Why3.Semantics.Interp

/-!
The meaning of opening, closing, lifting and substitution, and of the smart
constructors that close a binding.
-/
namespace Why3

open List
open Function (update update_of_ne)

namespace Interp

variable {C : AlgSig} {D : Type} {I : Interp C D}
variable {ρ ρ' : VSymbol → D} {β : List D}

/-- The environment with the symbols `vl` bound to `ds`. -/
def bindVars (vl : List VSymbol) (ds : List D) (ρ : VSymbol → D) (v : VSymbol) : D :=
  match vl.idxOf? v with
  | some j => (ds[j]?).getD (ρ v)
  | none => ρ v

variable {v : VSymbol} {vl : List VSymbol} {ds : List D} {tr : List (List Term)} {f : Term}

theorem bindVars_of_notMem (ds : List D) (h : v ∉ vl) : bindVars vl ds ρ v = ρ v := by
  rw [bindVars, idxOf?_eq_none_iff.mpr h]

theorem bindVars_singleton (v : VSymbol) (d : D) : bindVars [v] [d] ρ = update ρ v d := by
  funext u
  by_cases h : u = v
  · subst h
    simp [bindVars]
  · rw [bindVars_of_notMem _ (by simpa using h), update_of_ne h]

theorem bindVars_get (hnd : vl.Nodup) {i : Nat} {d : D} (hv : vl[i]? = some v)
    (hd : ds[i]? = some d) : bindVars vl ds ρ v = d := by
  have hi : vl.idxOf? v = some i := by
    rw [List.idxOf?, findIdx?_eq_some_iff_getElem]
    obtain ⟨hlt, rfl⟩ := List.getElem?_eq_some_iff.mp hv
    refine ⟨hlt, by simp, ?_⟩
    intro j hj he
    have := (List.Nodup.getElem_inj_iff hnd).mp (beq_iff_eq.mp he)
    omega
  simp only [bindVars, hi, hd, Option.getD_some]

theorem map_bindVars (hnd : vl.Nodup) (hlen : ds.length = vl.length) :
    vl.map (bindVars vl ds ρ) = ds := by
  apply ext_getElem
  · rw [length_map, hlen]
  · intro i hi hi'
    rw [getElem_map]
    exact bindVars_get hnd (List.getElem?_eq_getElem (by omega)) (List.getElem?_eq_getElem hi')

theorem mem_tVarsList {tl : List Term} : v ∈ tVarsList tl ↔ ∃ t ∈ tl, v ∈ tVars t := by
  induction tl with
  | nil => simp [tVarsList]
  | cons t tl ih => simp [tVarsList, ih]

theorem mem_tVarsBranches {bl : List (Pattern × Term)} :
    v ∈ tVarsBranches bl ↔ ∃ b ∈ bl, v ∈ tVars b.2 := by
  induction bl with
  | nil => simp [tVarsBranches]
  | cons b bl ih => simp [tVarsBranches, ih]

/-- Only the free symbols matter. -/
theorem sem_congr_env (t : Term) :
    ∀ β : List D, (∀ v ∈ tVars t, ρ v = ρ' v) → I.sem ρ β t = I.sem ρ' β t := by
  induction t using Term.induct with
  | tvar a v =>
    intro β h
    rw [sem, sem, h v (by simp [tVars])]
  | tapp a ls tl ty ih =>
    intro β h
    have hargs : tl.map (I.val ρ β) = tl.map (I.val ρ' β) := by
      apply map_congr_left
      intro t ht
      rw [val, val, ih t ht β]
      exact fun v hv => h v (by rw [tVars, mem_tVarsList]; exact ⟨t, ht, hv⟩)
    cases ty <;> simp only [sem, semList_eq_map, hargs]
  | tif a f t e hf ht he =>
    intro β h
    simp only [tVars, Finset.mem_union] at h
    rw [sem, sem, hf β fun v hv => h v (.inl (.inl hv)), ht β fun v hv => h v (.inl (.inr hv)),
      he β fun v hv => h v (.inr hv)]
  | tlet a t v e ht he =>
    intro β h
    simp only [tVars, Finset.mem_union] at h
    rw [sem, sem, ht β fun v hv => h v (.inl hv), he _ fun v hv => h v (.inr hv)]
  | tcase a t bl ht hbl =>
    intro β h
    simp only [tVars, Finset.mem_union, mem_tVarsBranches] at h
    rw [sem, ht β fun v hv => h v (.inl hv)]
    refine semBranches_congr (fun _ _ => rfl) (fun _ _ => rfl) _ _ fun b hb β => ?_
    exact hbl b hb β fun v hv => h v (.inr ⟨b, hb, hv⟩)
  | teps a v f hf =>
    intro β h
    simp only [sem, fun d => hf (d :: β) h]
  | tquant a q vl tr f htr hf =>
    intro β h
    simp only [tVars, Finset.mem_union] at h
    have hf := fun ds : List D => hf (ds ++ β) fun v hv => h v (.inl hv)
    cases q <;> simp only [sem, hf]
  | tbinop a op f g hf hg =>
    intro β h
    simp only [tVars, Finset.mem_union] at h
    have hf := hf β fun v hv => h v (.inl hv)
    have hg := hg β fun v hv => h v (.inr hv)
    cases op <;> simp only [sem, hf, hg]
  | tnot a f hf =>
    intro β h
    simp only [sem, hf β h]
  | _ => exact fun β h => rfl

theorem sem_update_of_notMem (d : D) (t : Term) (h : v ∉ tVars t) :
    I.sem (update ρ v d) β t = I.sem ρ β t := by
  apply sem_congr_env
  intro u hu
  apply update_of_ne
  intro he
  exact h (he ▸ hu)

theorem sem_lift (δ : List D) (t : Term) : I.sem ρ (δ ++ β) (t.lift δ.length) = I.sem ρ β t := by
  have h : I.Transports ρ ρ β (δ ++ β) (fun _ a v => .tvar a v)
      (fun k a i ty => if i < k then .bvar a i ty else .bvar a (i + δ.length) ty) := by
    refine ⟨fun γ a v => rfl, ?_⟩
    intro γ a i ty
    simp only [← apply_ite (Term.bvar a · ty), sem, getElem?_append_shift]
  exact h.sem_mapVars t []

theorem sem_openWith (ul : List VSymbol) (t : Term) :
    I.sem ρ β (t.openWith ul) = I.sem ρ (ul.map ρ ++ β) t := by
  refine Transports.sem_mapVars (β := ul.map ρ ++ β) ⟨fun γ a v => rfl, ?_⟩ t []
  intro γ a i ty
  by_cases hi : i < γ.length
  · rw [if_pos hi, sem, getElem?_append_left hi, getElem?_append_left hi]
  · rw [if_neg hi, getElem?_append_right (Nat.le_of_not_lt hi)]
    cases hu : ul[i - γ.length]? with
    | some u =>
      have hlt := (List.getElem?_eq_some_iff.mp hu).1
      rw [getElem?_append_left (by simpa using hlt), getElem?_map, hu]
      rfl
    | none =>
      have hle := List.getElem?_eq_none_iff.mp hu
      rw [sem, getElem?_append_right (by omega),
        getElem?_append_right (by simpa using hle), length_map]
      congr 3
      omega

theorem sem_close (hlen : ds.length = vl.length) (t : Term) :
    I.sem ρ (ds ++ β) (t.close vl) = I.sem (bindVars vl ds ρ) β t := by
  have h : I.Transports (bindVars vl ds ρ) ρ β (ds ++ β)
      (fun k a v => match vl.idxOf? v with
        | some j => .bvar a (k + j) v.vsTy
        | none => .tvar a v)
      (fun k a i ty => if i < k then .bvar a i ty else .bvar a (i + vl.length) ty) := by
    constructor
    · intro γ a v
      cases hv : vl.idxOf? v with
      | none => simp only [sem, bindVars, hv]
      | some j =>
        have hj : j < ds.length := by
          rw [hlen]
          exact (findIdx?_eq_some_iff_getElem.mp hv).1
        simp only [sem, bindVars, hv]
        rw [getElem?_append_right (by omega), Nat.add_sub_cancel_left,
          getElem?_append_left hj, List.getElem?_eq_getElem hj]
        rfl
    · intro γ a i ty
      simp only [← hlen, ← apply_ite (Term.bvar a · ty), sem, getElem?_append_shift]
  exact h.sem_mapVars t []

/-- Substituting a term for a symbol binds it to the value of the term. -/
theorem sem_tSubstSingle {s : Term} (hs : ¬ (I.sem ρ β s).2) (t : Term) :
    I.sem ρ β (tSubstSingle v s t) = I.sem (update ρ v (I.val ρ β s)) β t := by
  refine Transports.sem_mapVars ⟨?_, fun γ a i ty => rfl⟩ t []
  intro γ a u
  by_cases hu : u = v
  · subst hu
    simp only [if_pos, Function.update_self]
    rw [tAttrCopy, sem_setAttrs, sem_lift]
    exact Prod.ext rfl (eq_false hs)
  · simp only [if_neg hu, update_of_ne hu, sem]

theorem tVOccursList_eq_zero {tl : List Term} :
    tVOccursList v tl = 0 ↔ ∀ t ∈ tl, tVOccurs v t = 0 := by
  induction tl with
  | nil => simp [tVOccursList]
  | cons t tl ih => simp [tVOccursList, ih]

theorem tVOccursBranches_eq_zero {bl : List (Pattern × Term)} :
    tVOccursBranches v bl = 0 ↔ ∀ b ∈ bl, tVOccurs v b.2 = 0 := by
  induction bl with
  | nil => simp [tVOccursBranches]
  | cons b bl ih => simp [tVOccursBranches, ih]

theorem tVOccursTrigger_eq_zero :
    tVOccursTrigger v tr = 0 ↔ ∀ l ∈ tr, ∀ t ∈ l, tVOccurs v t = 0 := by
  induction tr with
  | nil => simp [tVOccursTrigger]
  | cons l tr ih => simp [tVOccursTrigger, tVOccursList_eq_zero, ih]

theorem mem_tVarsTrigger : v ∈ tVarsTrigger tr ↔ ∃ l ∈ tr, ∃ t ∈ l, v ∈ tVars t := by
  induction tr with
  | nil => simp [tVarsTrigger]
  | cons l tr ih => simp [tVarsTrigger, mem_tVarsList, ih]

theorem notMem_tVars_of_tVOccurs (t : Term) (h : tVOccurs v t = 0) : v ∉ tVars t := by
  induction t using Term.induct with
  | tvar a u =>
    simp only [tVars, Finset.mem_singleton]
    intro he
    simp [tVOccurs, he] at h
  | tapp a ls tl ty ih =>
    simp only [tVars, mem_tVarsList, not_exists, not_and]
    rw [tVOccurs, tVOccursList_eq_zero] at h
    exact fun t ht => ih t ht (h t ht)
  | tcase a t bl ht hbl =>
    simp only [tVOccurs, Nat.add_eq_zero_iff, tVOccursBranches_eq_zero] at h
    simp only [tVars, Finset.mem_union, mem_tVarsBranches, not_or, not_exists, not_and]
    exact ⟨ht h.1, fun b hb => hbl b hb (h.2 b hb)⟩
  | tquant a q vl tr f htr hf =>
    simp only [tVOccurs, Nat.add_eq_zero_iff, tVOccursTrigger_eq_zero] at h
    simp only [tVars, Finset.mem_union, mem_tVarsTrigger, not_or, not_exists, not_and]
    exact ⟨hf h.1, fun l hl t ht => htr l hl t ht (h.2 l hl t ht)⟩
  | tif a f t e hf ht he =>
    simp only [tVOccurs, Nat.add_eq_zero_iff] at h
    simp [tVars, hf h.1.1, ht h.1.2, he h.2]
  | tlet a t u e ht he | tbinop a op t e ht he =>
    simp only [tVOccurs, Nat.add_eq_zero_iff] at h
    simp [tVars, ht h.1, he h.2]
  | teps a u f hf | tnot a f hf => exact hf h
  | _ => simp [tVars]

theorem sem_tLetClose (v : VSymbol) (t e : Term) :
    I.sem ρ β (tLetClose v t e) = I.sem (update ρ v (I.val ρ β t)) β e := by
  have h : [I.val ρ β t].length = [v].length := rfl
  rw [tLetClose, sem, ← val, ← singleton_append, sem_close h, bindVars_singleton]

theorem sem_tLetCloseSimp {s : Term} (hs : ¬ (I.sem ρ β s).2) (t : Term) :
    I.sem ρ β (tLetCloseSimp v s t) = I.sem (update ρ v (I.val ρ β s)) β t := by
  rw [tLetCloseSimp]
  split
  · rename_i h
    exact (sem_update_of_notMem _ t (notMem_tVars_of_tVOccurs t h)).symm
  · split
    · exact sem_tSubstSingle hs t
    · exact sem_tLetClose v s t

/-! Quantifiers over named symbols. -/

/-- `ρ'` changes the values of the symbols `vl` only, to values of their types. -/
structure Extends (I : Interp C D) (vl : List VSymbol) (ρ ρ' : VSymbol → D) : Prop where
  off : ∀ v, v ∉ vl → ρ' v = ρ v
  dom : ∀ v ∈ vl, I.dom v.vsTy (ρ' v)

theorem Extends.bindVars_map (h : I.Extends vl ρ ρ') : bindVars vl (vl.map ρ') ρ = ρ' := by
  funext v
  cases hv : vl.idxOf? v with
  | none =>
    rw [idxOf?_eq_none_iff] at hv
    rw [bindVars_of_notMem _ hv, h.off v hv]
  | some j =>
    obtain ⟨hj, he, -⟩ := findIdx?_eq_some_iff_getElem.mp hv
    simp only [bindVars, hv, getElem?_map, List.getElem?_eq_getElem hj, Option.map_some,
      Option.getD_some, beq_iff_eq.mp he]

theorem extends_bindVars
    (h : List.Forall₂ (fun v d => I.dom v.vsTy d) vl ds) : I.Extends vl ρ (bindVars vl ds ρ) := by
  refine ⟨fun v hv => bindVars_of_notMem ds hv, ?_⟩
  intro v hv
  cases hi : vl.idxOf? v with
  | none => exact absurd hv (idxOf?_eq_none_iff.mp hi)
  | some j =>
    obtain ⟨hj, he, -⟩ := findIdx?_eq_some_iff_getElem.mp hi
    have hjd : j < ds.length := h.length_eq ▸ hj
    simp only [bindVars, hi, List.getElem?_eq_getElem hjd]
    have := List.forall₂_iff_get.mp h |>.2 j hj hjd
    rwa [get_eq_getElem, get_eq_getElem, beq_iff_eq.mp he] at this

theorem Extends.forall₂ (h : I.Extends vl ρ ρ') :
    List.Forall₂ (fun v d => I.dom v.vsTy d) vl (vl.map ρ') := by
  rw [List.forall₂_map_right_iff]
  exact List.forall₂_same.mpr h.dom

theorem extends_nil : I.Extends [] ρ ρ' ↔ ρ' = ρ := by
  constructor
  · exact fun h => funext fun v => h.off v (by simp)
  · rintro rfl
    exact ⟨fun v _ => rfl, by simp⟩

theorem holds_tForallClose :
    I.holds ρ β (tQuantClose .tforall vl tr f) ↔ ∀ ρ', I.Extends vl ρ ρ' → I.holds ρ' β f := by
  cases vl with
  | nil => simp [tQuantClose, extends_nil]
  | cons v vl =>
    constructor
    · intro h ρ' hρ'
      have := h _ hρ'.forall₂
      rwa [sem_close (by simp), hρ'.bindVars_map] at this
    · intro h ds hds
      rw [sem_close hds.length_eq.symm]
      exact h _ (extends_bindVars hds)

theorem holds_tExistsClose :
    I.holds ρ β (tQuantClose .texists vl tr f) ↔ ∃ ρ', I.Extends vl ρ ρ' ∧ I.holds ρ' β f := by
  cases vl with
  | nil => simp [tQuantClose, extends_nil]
  | cons v vl =>
    constructor
    · intro ⟨ds, hds, h⟩
      rw [sem_close hds.length_eq.symm] at h
      exact ⟨_, extends_bindVars hds, h⟩
    · intro ⟨ρ', hρ', h⟩
      refine ⟨_, hρ'.forall₂, ?_⟩
      rwa [sem_close (by simp), hρ'.bindVars_map]

/-- Restricting an extension to the symbols that matter. -/
theorem Extends.restrict (p : VSymbol → Bool) (h : I.Extends vl ρ ρ') :
    I.Extends (vl.filter p) ρ fun v => if p v then ρ' v else ρ v := by
  constructor
  · intro v hv
    rw [mem_filter, not_and'] at hv
    by_cases hp : p v = true
    · simp only [hp, if_true, h.off v (hv hp)]
    · simp only [hp, Bool.false_eq_true, if_false]
  · intro v hv
    obtain ⟨hv, hp⟩ := mem_filter.mp hv
    simp only [hp, if_true, h.dom v hv]

/-- Every type has an element, so the other symbols can be given a value. -/
theorem Extends.complete (p : VSymbol → Bool) (h : I.Extends (vl.filter p) ρ ρ') :
    ∃ ρ'', I.Extends vl ρ ρ'' ∧ ∀ v, p v = true → ρ'' v = ρ' v := by
  refine ⟨fun v => if p v = true ∨ v ∉ vl then ρ' v else I.witness v.vsTy, ⟨?_, ?_⟩, ?_⟩
  · intro v hv
    simp only [hv, not_false_eq_true, or_true]
    exact h.off v fun hf => hv (mem_filter.mp hf).1
  · intro v hv
    by_cases hp : p v = true
    · simp only [hp]
      exact h.dom v (mem_filter.mpr ⟨hv, hp⟩)
    · rw [if_neg (by simp [hp, hv])]
      exact I.witness_dom v.vsTy
  · intro v hp
    simp only [hp, true_or, if_true]

theorem holds_congr_env (h : ∀ v ∈ tVars f, ρ v = ρ' v) : I.holds ρ β f ↔ I.holds ρ' β f := by
  rw [holds, holds, sem_congr_env f β h]

theorem holds_tForallCloseSimp : I.holds ρ β (tQuantCloseSimp .tforall vl tr f) ↔
      ∀ ρ', I.Extends vl ρ ρ' → I.holds ρ' β f := by
  rw [tQuantCloseSimp]
  split
  · exact holds_tForallClose
  · rw [holds_tForallClose]
    constructor
    · intro h ρ' hρ'
      refine (holds_congr_env ?_).mp (h _ (hρ'.restrict _))
      intro v hv
      simp only [hv, decide_true, if_true]
    · intro h ρ' hρ'
      obtain ⟨ρ'', hρ'', he⟩ := hρ'.complete
      exact (holds_congr_env fun v hv => he v (by simpa using hv)).mp (h ρ'' hρ'')

theorem holds_tExistsCloseSimp : I.holds ρ β (tQuantCloseSimp .texists vl tr f) ↔
      ∃ ρ', I.Extends vl ρ ρ' ∧ I.holds ρ' β f := by
  rw [tQuantCloseSimp]
  split
  · exact holds_tExistsClose
  · rw [holds_tExistsClose]
    constructor
    · intro ⟨ρ', hρ', h⟩
      obtain ⟨ρ'', hρ'', he⟩ := hρ'.complete
      exact ⟨ρ'', hρ'', (holds_congr_env fun v hv => he v (by simpa using hv)).mpr h⟩
    · intro ⟨ρ', hρ', h⟩
      refine ⟨_, hρ'.restrict _, (holds_congr_env ?_).mpr h⟩
      intro v hv
      simp only [hv, decide_true, if_true]

end Interp

end Why3
