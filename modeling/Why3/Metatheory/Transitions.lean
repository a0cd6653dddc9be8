import Why3.Metatheory.RegionFields

/-!
Transitions of regions.

A list of transitions pairs the regions under a written region before and after the
assignments, down to all that is below. The lists that are applied give moves that
are one-to-one and move only regions that are reset: a permutation of the regions.
-/
namespace Why3
namespace Mlw

open List

variable {T : ItsTable}

/-! Transitions. -/

/-- The regions under two regions are paired in the list. -/
def ClosedAt (T : ItsTable) (pl : List (Region × Region)) (rf rt : Region) (fs : FieldTypes) :
    Prop :=
  ∃ l1 l2, regRexp T rf [] = .ok l1 ∧ regRexp T rt fs = .ok l2 ∧ ∀ x ∈ l1.zip l2, x ∈ pl

variable {pl pl' : List (Region × Region)} {acc acc' : ResetAcc}

theorem ClosedAt.mono (hpl : ∀ x ∈ pl, x ∈ pl') {rf rt : Region} {fs : FieldTypes}
    (h : ClosedAt T pl rf rt fs) : ClosedAt T pl' rf rt fs := by
  obtain ⟨l1, l2, h1, h2, hzip⟩ := h
  exact ⟨l1, l2, h1, h2, fun x hx => hpl x (hzip x hx)⟩

/-- A list of pairs grew, by pairs with a property that are closed in it. -/
structure Extends (T : ItsTable) (writes : AssignWrites) (P : Region × Region → Prop)
    (pl pl' : List (Region × Region)) : Prop where
  subset : ∀ x ∈ pl, x ∈ pl'
  added : ∀ x ∈ pl', x ∈ pl ∨ P x ∧ ClosedAt T pl' x.1 x.2 (writes.fieldsOf x.2)

section Stitch

variable {writes : AssignWrites} {P : Region × Region → Prop}

theorem Extends.refl (pl : List (Region × Region)) : Extends T writes P pl pl :=
  ⟨fun _ h => h, fun _ h => .inl h⟩

theorem Extends.trans {pl'' : List (Region × Region)} (h : Extends T writes P pl pl')
    (h' : Extends T writes P pl' pl'') : Extends T writes P pl pl'' := by
  refine ⟨fun x hx => h'.subset x (h.subset x hx), fun x hx => ?_⟩
  cases h'.added x hx with
  | inr hx => exact .inr hx
  | inl hx =>
    cases h.added x hx with
    | inl hx => exact .inl hx
    | inr hx => exact .inr ⟨hx.1, hx.2.mono h'.subset⟩

/-- Each pair is added and closed by the call that it starts. -/
theorem stitchFold_extends {step : List (Region × Region) → Region × Region →
      Except Exn (List (Region × Region))}
    (hstep : ∀ pl x pl', P x → step pl x = .ok pl' → Extends T writes P (x :: pl) pl' ∧
      ClosedAt T pl' x.1 x.2 (writes.fieldsOf x.2)) {zl : List (Region × Region)}
    (hzl : ∀ x ∈ zl, P x) (h : zl.foldlM step pl = .ok pl') :
    Extends T writes P pl pl' ∧ ∀ x ∈ zl, x ∈ pl' := by
  induction zl generalizing pl with
  | nil =>
    cases h
    exact ⟨.refl _, fun x hx => nomatch hx⟩
  | cons x zl ih =>
    obtain ⟨pl1, hx, hrest⟩ := Except.foldlM_cons_ok.mp h
    have hPx := hzl x mem_cons_self
    obtain ⟨hext, hclosed⟩ := hstep pl x pl1 hPx hx
    obtain ⟨hext', hsub⟩ := ih (forall_mem_cons.mp hzl).2 hrest
    have hcons : Extends T writes P pl pl1 := by
      refine ⟨(forall_mem_cons.mp hext.subset).2, fun y hy => ?_⟩
      cases hext.added y hy with
      | inr hy => exact .inr hy
      | inl hy =>
        cases mem_cons.mp hy with
        | inl heq => exact .inr (heq ▸ ⟨hPx, hclosed⟩)
        | inr hy => exact .inl hy
    refine ⟨hcons.trans hext', fun y hy => ?_⟩
    cases mem_cons.mp hy with
    | inl heq => exact heq ▸ hext'.subset x (hext.subset x mem_cons_self)
    | inr hy => exact hsub y hy

/-- The pairs have a property that goes from two regions to the pairs under them. -/
theorem stitch_extends (hP : ∀ x l1 l2, P x → regRexp T x.1 [] = .ok l1 →
      regRexp T x.2 (writes.fieldsOf x.2) = .ok l2 → ∀ y ∈ l1.zip l2, P y) {fuel : Nat}
    {rf rt : Region} (hroot : P (rf, rt))
    (h : stitch T writes fuel pl rf rt (writes.fieldsOf rt) = .ok pl') :
    Extends T writes P pl pl' ∧ ClosedAt T pl' rf rt (writes.fieldsOf rt) := by
  induction fuel generalizing pl pl' rf rt with
  | zero => cases h
  | succ fuel ih =>
    obtain ⟨l1, hl1, h⟩ := Except.bind_eq_ok.mp h
    obtain ⟨l2, hl2, h⟩ := Except.bind_eq_ok.mp h
    split at h
    next => cases h
    next =>
      have hall := hP (rf, rt) l1 l2 hroot hl1 hl2
      obtain ⟨hext, hzip⟩ := stitchFold_extends (fun pl x pl' hx h => ih hx h) hall h
      exact ⟨hext, l1, l2, hl1, hl2, hzip⟩

end Stitch

/-! Moves of regions. -/

/-- The moves are one-to-one, and the regions that move are those reset. -/
structure MovesOk (acc : ResetAcc) : Prop where
  inverse : ∀ r r', acc.mt.lookup r = some r' ↔ acc.mf.lookup r' = some r
  moved : ∀ r r', acc.mt.lookup r = some r' → r ≠ r' → r ∈ acc.rst ∧ r' ∈ acc.rst

/-- Resets and moves are only added. -/
structure MovesLe (acc acc' : ResetAcc) : Prop where
  rst : acc.rst ⊆ acc'.rst
  mt : ∀ r r', acc.mt.lookup r = some r' → acc'.mt.lookup r = some r'

theorem MovesLe.refl (acc : ResetAcc) : MovesLe acc acc :=
  ⟨fun _ h => h, fun _ _ h => h⟩

theorem MovesLe.trans {a b c : ResetAcc} (h : MovesLe a b) (h' : MovesLe b c) : MovesLe a c :=
  ⟨fun _ hr => h'.rst (h.rst hr), fun r r' hr => h'.mt r r' (h.mt r r' hr)⟩

theorem addBind_ok {r1 r2 : Region} {m m' : RegionBinds} (h : addBind r1 r2 m = .ok m') :
    (∀ r, m'.lookup r = if r = r1 then some r2 else m.lookup r) ∧
      ∀ r, m.lookup r1 = some r → r = r2 := by
  simp only [addBind] at h
  split at h
  next r3 hr3 =>
    split at h
    next heq =>
      cases h
      cases heq
      refine ⟨fun r => ?_, fun r hr => Option.some.inj (hr.symm.trans hr3)⟩
      split
      next hr => rw [hr, hr3]
      next => rfl
    next => cases h
  next hnone =>
    cases h
    refine ⟨fun r => ?_, fun r hr => nomatch hnone.symm.trans hr⟩
    rw [lookup_cons]
    by_cases hr : r = r1
    · simp [hr]
    · simp [hr, beq_eq_false_iff_ne.mpr hr]

theorem addPair_ok {p : Region × Region} (hacc : MovesOk acc) (h : addPair acc p = .ok acc') :
    MovesOk acc' ∧ MovesLe acc acc' ∧ acc'.mt.lookup p.1 = some p.2 ∧
      ∀ r ∈ acc'.rst, r ∈ acc.rst ∨ r = p.1 ∨ r = p.2 := by
  obtain ⟨mt, hmt, h⟩ := Except.bind_eq_ok.mp h
  obtain ⟨mf, hmf, h⟩ := Except.bind_eq_ok.mp h
  cases h
  obtain ⟨hmt, hold⟩ := addBind_ok hmt
  obtain ⟨hmf, hold'⟩ := addBind_ok hmf
  have hrst : acc.rst ⊆ if p.1 = p.2 then acc.rst else insert p.1 (insert p.2 acc.rst) := by
    split
    · exact fun _ h => h
    · exact fun r hr => Finset.mem_insert_of_mem (Finset.mem_insert_of_mem hr)
  refine ⟨⟨fun r r' => ?_, fun r r' hr hne => ?_⟩, ⟨hrst, fun r r' hr => ?_⟩, ?_, ?_⟩
  · change mt.lookup r = some r' ↔ mf.lookup r' = some r
    rw [hmt, hmf]
    by_cases h1 : r = p.1 <;> by_cases h2 : r' = p.2
    · rw [if_pos h1, if_pos h2, h1, h2]
      exact ⟨fun _ => rfl, fun _ => rfl⟩
    · rw [if_pos h1, if_neg h2, ← hacc.inverse]
      exact ⟨fun h => absurd (Option.some.inj h).symm h2, fun h => absurd (hold r' (h1 ▸ h)) h2⟩
    · rw [if_neg h1, if_pos h2, hacc.inverse]
      exact ⟨fun h => absurd (hold' r (h2 ▸ h)) h1, fun h => absurd (Option.some.inj h).symm h1⟩
    · rw [if_neg h1, if_neg h2, hacc.inverse]
  · replace hr : mt.lookup r = some r' := hr
    rw [hmt] at hr
    split at hr
    next heq =>
      cases hr
      rw [if_neg (heq ▸ hne), heq]
      exact ⟨Finset.mem_insert_self _ _, Finset.mem_insert_of_mem (Finset.mem_insert_self _ _)⟩
    next => exact ⟨hrst (hacc.moved r r' hr hne).1, hrst (hacc.moved r r' hr hne).2⟩
  · change mt.lookup r = some r'
    rw [hmt]
    split
    next heq => rw [hold r' (heq ▸ hr)]
    next => exact hr
  · change mt.lookup p.1 = some p.2
    rw [hmt, if_pos rfl]
  · intro r hr
    split at hr
    · exact .inl hr
    · rw [Finset.mem_insert, Finset.mem_insert] at hr
      tauto

/-- What each step binds stays bound, and what it resets is related to its argument. -/
theorem foldlM_moves {X : Type} {step : ResetAcc → X → Except Exn ResetAcc}
    (Bound : X → ResetAcc → Prop) {Resets : X → Region → Prop}
    (hstep : ∀ acc x acc', MovesOk acc → step acc x = .ok acc' → MovesOk acc' ∧
      MovesLe acc acc' ∧ Bound x acc' ∧ ∀ r ∈ acc'.rst, r ∈ acc.rst ∨ Resets x r)
    (hkeep : ∀ x acc acc', MovesLe acc acc' → Bound x acc → Bound x acc') {l : List X}
    (hacc : MovesOk acc) (h : l.foldlM step acc = .ok acc') : MovesOk acc' ∧
      MovesLe acc acc' ∧ (∀ x ∈ l, Bound x acc') ∧
      ∀ r ∈ acc'.rst, r ∈ acc.rst ∨ ∃ x ∈ l, Resets x r := by
  induction l generalizing acc with
  | nil =>
    cases h
    exact ⟨hacc, .refl _, nofun, fun r hr => .inl hr⟩
  | cons x l ih =>
    obtain ⟨acc1, hx, hl⟩ := Except.foldlM_cons_ok.mp h
    obtain ⟨hacc1, hle1, hbound1, hrst1⟩ := hstep acc x acc1 hacc hx
    obtain ⟨hacc', hle, hbound, hrst⟩ := ih hacc1 hl
    refine ⟨hacc', hle1.trans hle, forall_mem_cons.mpr ⟨hkeep x _ _ hle hbound1, hbound⟩, ?_⟩
    intro r hr
    cases hrst r hr with
    | inr hr => exact .inr (exists_mem_cons_of_exists hr)
    | inl hr => exact (hrst1 r hr).imp_right fun hr => ⟨x, mem_cons_self, hr⟩

/-- A region that is not reset in the end has all its transitions among the moves. -/
theorem addTransitions_ok {m : Transitions} (hacc : MovesOk acc)
    (h : m.foldlM addTransitions acc = .ok acc') : MovesOk acc' ∧ MovesLe acc acc' ∧
      (∀ x ∈ m, x.1 ∉ acc'.rst → ∀ p ∈ x.2, acc'.mt.lookup p.1 = some p.2) ∧
      ∀ r ∈ acc'.rst, r ∈ acc.rst ∨ ∃ x ∈ m, ∃ p ∈ x.2, r = p.1 ∨ r = p.2 := by
  have hkeep : ∀ (x : Region × List (Region × Region)) (a a' : ResetAcc), MovesLe a a' →
      (x.1 ∉ a.rst → ∀ p ∈ x.2, a.mt.lookup p.1 = some p.2) →
      x.1 ∉ a'.rst → ∀ p ∈ x.2, a'.mt.lookup p.1 = some p.2 :=
    fun x a a' hle h hnot p hp => hle.mt _ _ (h (fun h => hnot (hle.rst h)) p hp)
  refine foldlM_moves _ (fun acc x acc1 hacc hx => ?_) hkeep hacc h
  simp only [addTransitions] at hx
  split at hx
  next hreset =>
    cases hx
    exact ⟨hacc, .refl acc, fun h => absurd hreset h, fun r hr => .inl hr⟩
  next =>
    obtain ⟨h1, h2, h3, h4⟩ := foldlM_moves (fun p a => a.mt.lookup p.1 = some p.2)
      (fun _ _ _ => addPair_ok) (fun p a a' hle => hle.mt p.1 p.2) hacc hx
    exact ⟨h1, h2, fun _ => h3, h4⟩

/-- The moves are those of a permutation of the regions that are reset. -/
theorem MovesOk.exists_perm (h : MovesOk acc) :
    ∃ π : Equiv.Perm Region, (∀ r r', acc.mt.lookup r = some r' → π r = r') ∧
      (∀ r ∉ acc.rst, π r = r) ∧ ∀ r ∈ acc.rst, π r ∈ acc.rst := by
  let move (r : acc.rst) : Region := (acc.mt.lookup r.1).getD r.1
  let source : Finset acc.rst := Finset.univ.filter fun r => (acc.mt.lookup r.1).isSome
  have hsource : ∀ r ∈ source, acc.mt.lookup r.1 = some (move r) := by
    intro r hr
    obtain ⟨r', hr'⟩ := Option.isSome_iff_exists.mp (Finset.mem_filter.mp hr).2
    simp only [move, hr', Option.getD_some]
  have himage : source.image move ⊆ acc.rst := by
    intro r' hr'
    obtain ⟨r, hr, rfl⟩ := Finset.mem_image.mp hr'
    by_cases hne : r.1 = move r
    · exact hne ▸ r.2
    · exact (h.moved r.1 _ (hsource r hr) hne).2
  have hinj : Set.InjOn move source := by
    intro r hr r' hr' heq
    have hr := (h.inverse _ _).mp (hsource r hr)
    have hr' := (h.inverse _ _).mp (hsource r' hr')
    rw [heq, hr'] at hr
    exact Subtype.ext (Option.some.inj hr).symm
  obtain ⟨g, hg⟩ := Finset.exists_equiv_extend_of_card_eq (by simp) himage hinj
  refine ⟨Equiv.Perm.ofSubtype g, fun r r' hr => ?_, fun r hr => ?_, fun r hr => ?_⟩
  · by_cases hmem : r ∈ acc.rst
    · have hin : (⟨r, hmem⟩ : acc.rst) ∈ source := by simp [source, hr]
      rw [Equiv.Perm.ofSubtype_apply_of_mem g hmem, hg _ hin]
      exact Option.some.inj ((hsource _ hin).symm.trans hr)
    · have heq : r = r' := by
        by_contra hne
        exact hmem (h.moved r r' hr hne).1
      rw [Equiv.Perm.ofSubtype_apply_of_not_mem g hmem, heq]
  · exact Equiv.Perm.ofSubtype_apply_of_not_mem g hr
  · rw [Equiv.Perm.ofSubtype_apply_of_mem g hr]
    exact (g ⟨r, hr⟩).2

end Mlw
end Why3
