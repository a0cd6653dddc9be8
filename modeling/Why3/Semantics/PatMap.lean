import Why3.Core.GenMap
import Why3.Semantics.Typing

/-!
Patterns under a renaming of their variables and an instantiation of their types.
-/
namespace Why3

open List

/-- The renaming of a variable. -/
def renameVar (m : List (VSymbol × VSymbol)) (v : VSymbol) : VSymbol := (m.lookup v).getD v

variable {vl : List VSymbol}

theorem map_renameVar_zip {ul : List VSymbol} (hnd : vl.Nodup) (hlen : ul.length = vl.length) :
    vl.map (renameVar (vl.zip ul)) = ul := by
  induction vl generalizing ul with
  | nil => exact (length_eq_zero_iff.mp hlen).symm
  | cons v vl ih =>
    cases ul with
    | nil => cases hlen
    | cons u ul =>
      rw [nodup_cons] at hnd
      have hhead : renameVar ((v :: vl).zip (u :: ul)) v = u := by simp [renameVar]
      have htail : ∀ w ∈ vl,
          renameVar ((v :: vl).zip (u :: ul)) w = renameVar (vl.zip ul) w := by
        intro w hw
        have hne : (w == v) = false := beq_eq_false_iff_ne.mpr fun he => hnd.1 (he ▸ hw)
        simp only [renameVar, zip_cons_cons, lookup_cons, hne]
      rw [map_cons, hhead, map_congr_left htail, ih hnd.2 (by simpa using hlen)]

example : let v (k : Nat) : VSymbol := ⟨⟨"x", k⟩, tyInt⟩
    [v 0, v 1].map (renameVar ([v 0, v 1].zip [v 1, v 2])) = [v 1, v 2] := by decide +kernel

theorem renameVar_injOn {ul : List VSymbol} (hnd : vl.Nodup) (hul : ul.Nodup)
    (hlen : ul.length = vl.length) : Set.InjOn (renameVar (vl.zip ul)) { v | v ∈ vl } := by
  intro x hx y hy he
  rw [← map_renameVar_zip hnd hlen] at hul
  exact inj_on_of_nodup_map hul hx hy he

theorem renameVar_vsTy (k : Nat) (v : VSymbol) :
    (renameVar (vl.zip (renameVars k vl)) v).vsTy = v.vsTy := by
  induction vl generalizing k with
  | nil => rfl
  | cons u vl ih =>
    simp only [renameVar, renameVars, zip_cons_cons, lookup_cons]
    by_cases he : v = u
    · simp [he]
    · simp only [beq_eq_false_iff_ne.mpr he]
      exact ih (k + 1)

section GenMap

variable {s : TySubst} {m : List (VSymbol × VSymbol)}

theorem patGenMapList_eq_map (g : Ty → Ty) (m : List (VSymbol × VSymbol)) (pl : List Pattern) :
    patGenMapList g m pl = pl.map (patGenMap g m) :=
  ListRec.eq_map rfl (fun _ _ => rfl) pl

/-- A renaming keeps the types. -/
theorem patRenameAll_eq (m : List (VSymbol × VSymbol)) (p : Pattern) :
    patRenameAll m p = patGenMap (tyInst []) m p := by
  induction p using Pattern.induct with
  | pwild ty => rw [patRenameAll, patGenMap, tyInst_nil]
  | pvar v => rfl
  | papp cs pl ty ih =>
    rw [patRenameAll, patGenMap, tyInst_nil, patRenameAllList_eq_map, patGenMapList_eq_map,
      map_congr_left ih]
  | por p q ihp ihq => rw [patRenameAll, patGenMap, ihp, ihq]
  | pas p v ih => rw [patRenameAll, patGenMap, ih]

theorem patVars_patGenMap (g : Ty → Ty) (m : List (VSymbol × VSymbol)) (p : Pattern) :
    patVars (patGenMap g m p) = (patVars p).map (renameVar m) := by
  induction p using Pattern.induct with
  | pwild ty => rfl
  | pvar v => rfl
  | papp cs pl ty ih =>
    simp only [patGenMap, patVars, patGenMapList_eq_map, patVarsList_eq_flatMap]
    rw [flatMap_map, map_flatMap, flatMap_def, flatMap_def, map_congr_left ih]
  | por p q ihp ihq => exact ihp
  | pas p v ih => rw [patGenMap, patVars, ih, patVars, map_append]; rfl

theorem patTy_patGenMap {g : Ty → Ty} (p : Pattern) :
    (∀ v ∈ patVars p, (renameVar m v).vsTy = g v.vsTy) → patTy (patGenMap g m p) = g (patTy p) := by
  induction p using Pattern.induct with
  | pvar v | pas p v ih => exact fun hm => hm v (by simp [patVars])
  | por p q ihp ihq => exact ihp
  | _ => exact fun _ => rfl

theorem constrArgTys_map_tyInst {C : AlgSig} {ts : TySymbol} {cs : LSymbol} {tl : List Ty}
    (hcs : cs ∈ C.constrs ts) (hlen : tl.length = ts.tsArgs.length) :
    constrArgTys cs (tyInst s (.tyapp ts tl)) =
      (constrArgTys cs (.tyapp ts tl)).map (tyInst s) := by
  rw [tyInst_tyapp, constrArgTys, constrArgTys, map_map]
  refine map_congr_left fun a ha => ?_
  exact tyInst_tsMatchArgs_map s hlen (C.params hcs ha)

theorem PatTyped.patGenMap {C : AlgSig} (p : Pattern) :
    PatTyped C p → (∀ v ∈ patVars p, (renameVar m v).vsTy = tyInst s v.vsTy) →
      Set.InjOn (renameVar m) { v | v ∈ patVars p } →
      PatTyped C (patGenMap (tyInst s) m p) := by
  induction p using Pattern.induct with
  | pwild ty | pvar v => exact fun _ _ _ => trivial
  | papp cs pl ty ih =>
    intro hp hm hinj
    simp only [PatTyped, patTypedList_iff] at hp
    obtain ⟨⟨ts, tl, rfl, hcs, hlen⟩, htys, hnd, hpl⟩ := hp
    rw [patVars, patVarsList_eq_flatMap] at hm hinj
    have hmap : (pl.map (Why3.patGenMap (tyInst s) m)).flatMap patVars =
        (pl.flatMap patVars).map (renameVar m) := by
      rw [flatMap_map, map_flatMap]
      congr 1
      funext p
      exact patVars_patGenMap _ m p
    simp only [Why3.patGenMap, PatTyped, patTypedList_iff, patGenMapList_eq_map]
    refine ⟨⟨ts, tl.map (tyInst s), tyInst_tyapp s ts tl, hcs, by rw [length_map, hlen]⟩,
      ?_, ?_, ?_⟩
    · rw [constrArgTys_map_tyInst hcs hlen, ← htys, map_map, map_map]
      exact map_congr_left fun p hp =>
        patTy_patGenMap p fun v hv => hm v (mem_flatMap.mpr ⟨p, hp, hv⟩)
    · rw [hmap]
      exact List.Nodup.map_on (fun x hx y hy he => hinj hx hy he) hnd
    · refine forall_mem_map.mpr fun p hmem => ?_
      exact ih p hmem (hpl p hmem) (fun v hv => hm v (mem_flatMap.mpr ⟨p, hmem, hv⟩))
        (hinj.mono fun v hv => mem_flatMap.mpr ⟨p, hmem, hv⟩)
  | por p q ihp ihq =>
    rintro ⟨hp, hq, hty, hvars⟩ hm hinj
    have hmq : ∀ v ∈ patVars q, (renameVar m v).vsTy = tyInst s v.vsTy :=
      fun v hv => hm v ((hvars v).mpr hv)
    refine ⟨ihp hp hm hinj, ihq hq hmq (hinj.mono fun v hv => (hvars v).mpr hv), ?_, ?_⟩
    · rw [patTy_patGenMap p hm, patTy_patGenMap q hmq, hty]
    · intro v
      simp only [patVars_patGenMap, mem_map, hvars]
  | pas p u ih =>
    rintro ⟨hp, hty, hu⟩ hm hinj
    have hmem : ∀ v ∈ patVars p, v ∈ patVars (.pas p u) := by simp +contextual [patVars]
    refine ⟨ih hp (fun v hv => hm v (hmem v hv)) (hinj.mono hmem), ?_, ?_⟩
    · rw [patTy_patGenMap p fun v hv => hm v (hmem v hv), hty]
      exact (hm u (by simp [patVars])).symm
    · rw [patVars_patGenMap, mem_map]
      rintro ⟨v, hv, he⟩
      have hvu : v = u := hinj (hmem v hv) (by simp [patVars]) he
      exact hu (hvu ▸ hv)

end GenMap

namespace Interp

variable {C : AlgSig} {D : Type} {I J : Interp C D} {g : Ty → Ty}

/-! The interpretations may differ, but not in the destructors. -/

theorem patsOk_map {f : Pattern → Pattern} {pl : List Pattern}
    (h : ∀ p ∈ pl, ∀ d, J.patOk (f p) d = I.patOk p d) :
    ∀ ds, J.patsOk (pl.map f) ds = I.patsOk pl ds := by
  induction pl with
  | nil =>
    intro ds
    cases ds <;> rfl
  | cons p pl ih =>
    intro ds
    cases ds with
    | nil => rfl
    | cons d ds =>
      rw [map_cons, patsOk, patsOk, h p mem_cons_self, ih fun q hq => h q (mem_cons_of_mem p hq)]

theorem patOk_patGenMap (hd : J.destr = I.destr) (m : List (VSymbol × VSymbol)) (p : Pattern) :
    ∀ d, J.patOk (patGenMap g m p) d = I.patOk p d := by
  induction p using Pattern.induct with
  | pwild ty | pvar v => exact fun d => rfl
  | papp cs pl ty ih =>
    intro d
    simp only [patGenMap, patOk, patGenMapList_eq_map, hd]
    cases I.destr cs d with
    | none => rfl
    | some args => exact patsOk_map ih args
  | por p q ihp ihq =>
    intro d
    rw [patGenMap, patOk, ihp, ihq, patOk]
  | pas p v ih =>
    intro d
    rw [patGenMap, patOk, ih, patOk]

theorem patsGet_map {f : Pattern → Pattern} {v w : VSymbol} {pl : List Pattern}
    (h : ∀ p ∈ pl, ∀ d, J.patGet (f p) d w = I.patGet p d v) :
    ∀ ds, J.patsGet (pl.map f) ds w = I.patsGet pl ds v := by
  induction pl with
  | nil => exact fun ds => by simp [patsGet]
  | cons p pl ih =>
    intro ds
    cases ds with
    | nil => simp [patsGet]
    | cons d ds =>
      rw [map_cons, patsGet, patsGet, h p mem_cons_self, ih fun q hq => h q (mem_cons_of_mem p hq)]

section

variable (hd : J.destr = I.destr)
include hd

/-- A renaming without clashes renames what the variables are bound to. -/
theorem patGet_patGenMap {m : List (VSymbol × VSymbol)} {s : Set VSymbol}
    (hinj : Set.InjOn (renameVar m) s) {v : VSymbol} (hv : v ∈ s) (p : Pattern) :
    PatTyped C p → (∀ u ∈ patVars p, u ∈ s) →
      ∀ d, J.patGet (patGenMap g m p) d (renameVar m v) = I.patGet p d v := by
  have hvar : ∀ {u : VSymbol}, u ∈ s → (renameVar m v = (m.lookup u).getD u ↔ v = u) :=
    fun hu => Set.InjOn.eq_iff hinj hv hu
  induction p using Pattern.induct with
  | pwild ty => exact fun _ _ d => rfl
  | pvar u =>
    intro _ hs d
    simp only [patGenMap, patGet, hvar (hs u (by simp [patVars]))]
  | papp cs pl ty ih =>
    intro hp hs d
    simp only [PatTyped, patTypedList_iff] at hp
    simp only [patVars, patVarsList_eq_flatMap, mem_flatMap] at hs
    simp only [patGenMap, patGet, patGenMapList_eq_map, hd]
    cases I.destr cs d with
    | none => rfl
    | some args =>
      exact patsGet_map (fun p hmem => ih p hmem (hp.2.2.2 p hmem)
        fun u hu => hs u ⟨p, hmem, hu⟩) args
  | por p q ihp ihq =>
    rintro ⟨hp, hq, _, hvars⟩ hs d
    rw [patGenMap, patGet, patOk_patGenMap hd, ihp hp hs,
      ihq hq fun u hu => hs u ((hvars u).mpr hu), patGet]
  | pas p u ih =>
    intro hp hs d
    have hs' : ∀ w ∈ patVars p, w ∈ s := fun w hw => hs w (by simp [patVars, hw])
    simp only [patGenMap, patGet, hvar (hs u (by simp [patVars])), ih hp.1 hs']

theorem patVals_patGenMap {m : List (VSymbol × VSymbol)} {p : Pattern} (hp : PatTyped C p)
    (hinj : Set.InjOn (renameVar m) { v | v ∈ patVars p })
    (hw : ∀ v ∈ patVars p, J.witness (renameVar m v).vsTy = I.witness v.vsTy) (d : D) :
    J.patVals (patGenMap g m p) d = I.patVals p d := by
  rw [patVals, patVars_patGenMap, map_map]
  refine map_congr_left fun v hv => ?_
  rw [Function.comp_apply, patGet_patGenMap hd hinj hv p hp (fun _ h => h), hw v hv]

theorem patOk_congr (p : Pattern) : ∀ d, J.patOk p d = I.patOk p d := by
  induction p using Pattern.induct with
  | pwild ty | pvar v => exact fun d => rfl
  | papp cs pl ty ih =>
    intro d
    simp only [patOk, hd]
    cases I.destr cs d with
    | none => rfl
    | some args => simpa using patsOk_map (f := id) ih args
  | por p q ihp ihq =>
    intro d
    rw [patOk, ihp, ihq, patOk]
  | pas p v ih => exact fun d => ih d

theorem patGet_congr (v : VSymbol) (p : Pattern) : ∀ d, J.patGet p d v = I.patGet p d v := by
  induction p using Pattern.induct with
  | pwild ty | pvar u => exact fun d => rfl
  | papp cs pl ty ih =>
    intro d
    simp only [patGet, hd]
    cases I.destr cs d with
    | none => rfl
    | some args => simpa using patsGet_map (f := id) ih args
  | por p q ihp ihq =>
    intro d
    rw [patGet, patOk_congr hd, ihp, ihq, patGet]
  | pas p u ih =>
    intro d
    rw [patGet, ih, patGet]

theorem patVals_congr (hw : J.witness = I.witness) (p : Pattern) (d : D) :
    J.patVals p d = I.patVals p d := by
  simp only [patVals, patGet_congr hd, hw]

end

end Interp

end Why3
