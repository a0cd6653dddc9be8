import Why3.Core.Ty
import Why3.Library.AssocList

/-!
Instantiation of types. The types of the source are built by `ty_app`, which
checks the arity of every symbol; `tyWf` states it, and under it instantiating
the parameters of a symbol commutes with a further instantiation.
-/
namespace Why3

mutual
/-- Every symbol of the type has as many arguments as parameters. -/
def tyWf : Ty → Bool
  | .tyvar _ => true
  | .tyapp ts tl => tl.length == ts.tsArgs.length && tyWfList tl
def tyWfList : List Ty → Bool
  | [] => true
  | t :: tl => tyWf t && tyWfList tl
end

variable {tl : List Ty} {ts : TySymbol} {s : TySubst}

@[simp] theorem tyWfList_iff : tyWfList tl = true ↔ ∀ t ∈ tl, tyWf t = true := by
  induction tl with
  | nil => simp [tyWfList]
  | cons t tl ih => simp [tyWfList, ih]

theorem tyWf_tyapp : tyWf (.tyapp ts tl) = true ↔
      tl.length = ts.tsArgs.length ∧ ∀ t ∈ tl, tyWf t = true := by
  simp [tyWf]

theorem tyInst_tyvar (s : TySubst) (v : TvSymbol) :
    tyInst s (.tyvar v) = (s.lookup v).getD (.tyvar v) := by
  rfl

theorem tyInst_tyapp (s : TySubst) (ts : TySymbol) (tl : List Ty) :
    tyInst s (.tyapp ts tl) = .tyapp ts (tl.map (tyInst s)) := by
  simp [tyInst]

theorem tyInst_nil (ty : Ty) : tyInst [] ty = ty := by
  induction ty using Ty.induct with
  | tyvar v => rfl
  | tyapp ts tl ih => rw [tyInst_tyapp, List.map_congr_left ih, List.map_id']

/-- Only the images of the free variables matter. -/
theorem tyInst_congr {s' : TySubst} (ty : Ty)
    (h : ∀ v ∈ tyFreevars ty, tyInst s (.tyvar v) = tyInst s' (.tyvar v)) :
    tyInst s ty = tyInst s' ty := by
  induction ty using Ty.induct with
  | tyvar v => exact h v (by simp [tyFreevars])
  | tyapp ts tl ih =>
    rw [tyInst_tyapp, tyInst_tyapp]
    congr 1
    apply List.map_congr_left
    intro t ht
    apply ih t ht
    intro v hv
    exact h v (by simpa [tyFreevars] using ⟨t, ht, hv⟩)

theorem mem_tyFreevars_tyInst {v : TvSymbol} (ty : Ty) : v ∈ tyFreevars (tyInst s ty) ↔
      ∃ w ∈ tyFreevars ty, v ∈ tyFreevars (tyInst s (.tyvar w)) := by
  induction ty using Ty.induct with
  | tyvar w => simp [tyFreevars]
  | tyapp ts tl ih =>
    simp only [tyInst_tyapp, tyFreevars, mem_tyFreevarsList, List.mem_map]
    constructor
    · rintro ⟨_, ⟨t, ht, rfl⟩, hv⟩
      obtain ⟨w, hw, hv⟩ := (ih t ht).mp hv
      exact ⟨w, ⟨t, ht, hw⟩, hv⟩
    · rintro ⟨w, ⟨t, ht, hw⟩, hv⟩
      exact ⟨_, ⟨t, ht, rfl⟩, (ih t ht).mpr ⟨w, hw, hv⟩⟩

theorem tyWf_tyInst (ty : Ty) (hty : tyWf ty = true)
    (hs : ∀ v ∈ tyFreevars ty, tyWf (tyInst s (.tyvar v)) = true) : tyWf (tyInst s ty) = true := by
  induction ty using Ty.induct with
  | tyvar v => exact hs v (by simp [tyFreevars])
  | tyapp ts tl ih =>
    obtain ⟨hlen, htl⟩ := tyWf_tyapp.mp hty
    rw [tyInst_tyapp, tyWf_tyapp]
    refine ⟨by rw [List.length_map, hlen], ?_⟩
    refine List.forall_mem_map.mpr fun t ht => ?_
    apply ih t ht (htl t ht)
    intro v hv
    exact hs v (by simpa [tyFreevars] using ⟨t, ht, hv⟩)

/-! The substitution that a full application gives to the parameters. -/

/-- A parameter is instantiated by the argument at its position. -/
theorem tyInst_tsMatchArgs {w : TvSymbol} (hlen : tl.length = ts.tsArgs.length)
    (hw : w ∈ ts.tsArgs) : ∃ (i : Nat) (a : Ty), ts.tsArgs[i]? = some w ∧ tl[i]? = some a ∧
      tyInst (tsMatchArgs ts tl) (.tyvar w) = a := by
  obtain ⟨i, a, hi, ha, hl⟩ := AssocList.lookup_zip_mem hlen hw
  refine ⟨i, a, hi, ha, ?_⟩
  rw [tyInst_tyvar, tsMatchArgs, hl, Option.getD_some]

theorem tyInst_tsMatchArgs_map (s : TySubst) {ty : Ty} (hlen : tl.length = ts.tsArgs.length)
    (hty : ∀ v ∈ tyFreevars ty, v ∈ ts.tsArgs) : tyInst (tsMatchArgs ts (tl.map (tyInst s))) ty =
      tyInst s (tyInst (tsMatchArgs ts tl) ty) := by
  induction ty using Ty.induct with
  | tyvar v =>
    obtain ⟨i, a, -, -, hl⟩ := AssocList.lookup_zip_mem hlen (hty v (by simp [tyFreevars]))
    rw [tyInst_tyvar, tyInst_tyvar, tsMatchArgs, tsMatchArgs, AssocList.lookup_zip_map, hl]
    rfl
  | tyapp us ul ih =>
    simp only [tyInst_tyapp, List.map_map]
    congr 1
    apply List.map_congr_left
    intro t ht
    apply ih t ht
    intro v hv
    exact hty v (by simpa [tyFreevars] using ⟨t, ht, hv⟩)

end Why3
