import Why3.Core.Term
import Why3.Metatheory.TyInst

/-!
Matching of types. The extensions of a substitution that instantiate one type to another are
those of the substitution that `tyMatch` returns; there is none if it fails.
-/
namespace Why3
namespace TySubst

open List

def Extends (s s' : TySubst) : Prop := ∀ v ty, s.lookup v = some ty → s'.lookup v = some ty

/-- The substitution is defined on the variables of `ty1` and makes it `ty2`. -/
def InstTo (s : TySubst) (ty1 ty2 : Ty) : Prop :=
  (∀ v ∈ tyFreevars ty1, (s.lookup v).isSome) ∧ tyInst s ty1 = ty2

variable {s s' : TySubst} {ty : Ty}

theorem Extends.refl (s : TySubst) : Extends s s := fun _ _ h => h

theorem extends_nil (s : TySubst) : Extends [] s := fun _ _ h => nomatch h

theorem instTo_tyvar {v : TvSymbol} : InstTo s (.tyvar v) ty ↔ s.lookup v = some ty := by
  simp only [InstTo, tyFreevars, Finset.mem_singleton, forall_eq, tyInst_tyvar]
  cases s.lookup v <;> simp

theorem instTo_tyapp {f g : TySymbol} {l m : List Ty} :
    InstTo s (.tyapp f l) (.tyapp g m) ↔ f = g ∧ List.Forall₂ (InstTo s) l m := by
  have hmap : List.Forall₂ (fun a b => tyInst s a = b) l m ↔ l.map (tyInst s) = m := by
    rw [← List.forall₂_map_left_iff (R := Eq), List.forall₂_eq_eq_eq]
  unfold InstTo
  rw [List.forall₂_and_left, hmap, tyInst_tyapp, Ty.tyapp.injEq, and_left_comm]
  simp only [tyFreevars, mem_tyFreevarsList]
  grind

theorem extends_cons {v : TvSymbol} (hv : s.lookup v = none) :
    Extends ((v, ty) :: s) s' ↔ Extends s s' ∧ s'.lookup v = some ty := by
  constructor
  · intro h
    refine ⟨fun w u hw => h w u ?_, h v ty lookup_cons_self⟩
    have hne : w ≠ v := by
      rintro rfl
      cases hv.symm.trans hw
    rwa [lookup_cons, beq_eq_false_iff_ne.mpr hne]
  · intro ⟨h, hty⟩ w u hw
    rw [lookup_cons] at hw
    split at hw
    next he =>
      cases hw
      rwa [eq_of_beq he]
    next => exact h w u hw

theorem tyMatchList_iff {l : List Ty} (ih : ∀ a ∈ l, ∀ s b,
      Extends s s' ∧ InstTo s' a b ↔ ∃ r, tyMatch s a b = some r ∧ Extends r s')
    (s : TySubst) (m : List Ty) : Extends s s' ∧ List.Forall₂ (InstTo s') l m ↔
      ∃ r, tyMatchList s l m = some r ∧ Extends r s' := by
  induction l generalizing s m with
  | nil => cases m <;> simp [tyMatchList]
  | cons a l ihl =>
    cases m with
    | nil => simp [tyMatchList]
    | cons b m =>
      rw [List.forall₂_cons, ← and_assoc, ih a mem_cons_self, tyMatchList]
      cases tyMatch s a b with
      | none => simp
      | some r => simp [ihl fun c hc => ih c (mem_cons_of_mem a hc)]

theorem tyMatch_iff (ty1 ty2 : Ty) (s : TySubst) :
    Extends s s' ∧ InstTo s' ty1 ty2 ↔ ∃ r, tyMatch s ty1 ty2 = some r ∧ Extends r s' := by
  induction ty1 using Ty.induct generalizing s ty2 with
  | tyvar v =>
    rw [instTo_tyvar, tyMatch]
    cases hv : s.lookup v with
    | none => simp [extends_cons hv]
    | some ty =>
      by_cases he : ty = ty2
      · subst he
        simpa using fun h => h v ty hv
      · simp only [if_neg he]
        refine iff_of_false (fun ⟨h, h2⟩ => ?_) (fun ⟨r, h, _⟩ => nomatch h)
        exact he (Option.some.inj ((h v ty hv).symm.trans h2))
  | tyapp f l ih =>
    cases ty2 with
    | tyvar w => simp [tyMatch, InstTo, tyInst_tyapp]
    | tyapp g m =>
      rw [instTo_tyapp, tyMatch]
      by_cases he : f = g
      · rw [if_pos he, ← tyMatchList_iff (fun a ha s b => ih a ha b s), and_iff_right he]
      · rw [if_neg he]
        exact iff_of_false (fun h => he h.2.1) (fun ⟨r, h, _⟩ => nomatch h)

theorem tyMatchExn_iff {ty1 ty2 : Ty} :
    Extends s s' ∧ InstTo s' ty1 ty2 ↔ ∃ r, tyMatchExn s ty1 ty2 = .ok r ∧ Extends r s' := by
  rw [tyMatch_iff, tyMatchExn]
  cases tyMatch s ty1 ty2 <;> simp

/-! Applications. -/

/-- The substitution gives the argument types and the value type of an application. -/
def AppInstance (ls : LSymbol) (tl : List Term) (ty : Option Ty) (s : TySubst) : Prop :=
  List.Forall₂ (fun a t => ∃ tty, t.tTy = some tty ∧ InstTo s a tty) ls.lsArgs tl ∧
    Option.Rel (InstTo s) ls.lsValue ty

theorem foldMtch_iff (s' : TySubst) (exn : TermExn) (s : TySubst) (tyl : List Ty) (tl : List Term) :
    Extends s s' ∧ List.Forall₂ (fun a t => ∃ tty, t.tTy = some tty ∧ InstTo s' a tty) tyl tl ↔
      ∃ r, foldMtch exn s tyl tl = .ok r ∧ Extends r s' := by
  induction tyl generalizing s tl with
  | nil => cases tl <;> simp [foldMtch]
  | cons a tyl ih =>
    cases tl with
    | nil => simp [foldMtch]
    | cons t tl =>
      rw [List.forall₂_cons, foldMtch, mtch]
      cases t.tTy with
      | none => simp [bind, Except.bind]
      | some tty =>
        simp only [Option.some.injEq, exists_eq_left']
        rw [← and_assoc, tyMatchExn_iff]
        cases tyMatchExn s a tty with
        | error e => simp [bind, Except.bind]
        | ok r => simp [bind, Except.bind, ih]

theorem lsAppInst_iff (ls : LSymbol) (tl : List Term) (ty : Option Ty) :
    AppInstance ls tl ty s' ↔ ∃ r, lsAppInst ls tl ty = .ok r ∧ Extends r s' := by
  have hargs := foldMtch_iff s' (.badArity ls tl.length) [] ls.lsArgs tl
  rw [and_iff_right (extends_nil s')] at hargs
  rw [AppInstance, hargs, lsAppInst, lsArgInst]
  cases foldMtch (.badArity ls tl.length) [] ls.lsArgs tl with
  | error e => simp [bind, Except.bind]
  | ok r =>
    simp only [bind, Except.bind, Except.ok.injEq, exists_eq_left']
    cases ls.lsValue with
    | none => cases ty <;> simp
    | some vty =>
      cases ty with
      | none => simp
      | some ty => rw [Option.rel_some_some, tyMatchExn_iff]

theorem tyMatch_principal (s : TySubst) (ty1 ty2 : Ty) :
    ((∃ s', tyMatchExn s ty1 ty2 = .ok s') ↔ ∃ s', Extends s s' ∧ InstTo s' ty1 ty2) ∧
    (∀ s', tyMatchExn s ty1 ty2 = .ok s' → (Extends s s' ∧ InstTo s' ty1 ty2) ∧
      ∀ s'', Extends s s'' ∧ InstTo s'' ty1 ty2 → Extends s' s'') ∧
    ∀ ls tl ty, ((∃ s, lsAppInst ls tl ty = .ok s) ↔ ∃ s, AppInstance ls tl ty s) ∧
      ((∃ t, tApp ls tl ty = .ok t) ↔ ∃ s, AppInstance ls tl ty s) := by
  have happ : ∀ ls tl ty, (∃ s, lsAppInst ls tl ty = .ok s) ↔ ∃ s, AppInstance ls tl ty s := by
    intro ls tl ty
    simp only [lsAppInst_iff]
    exact ⟨fun ⟨r, h⟩ => ⟨r, r, h, .refl r⟩, fun ⟨_, r, h, _⟩ => ⟨r, h⟩⟩
  refine ⟨?_, fun s' h => ?_, fun ls tl ty => ⟨happ ls tl ty, ?_⟩⟩
  · simp only [tyMatchExn_iff]
    exact ⟨fun ⟨r, h⟩ => ⟨r, r, h, .refl r⟩, fun ⟨_, r, h, _⟩ => ⟨r, h⟩⟩
  · refine ⟨tyMatchExn_iff.mpr ⟨s', h, .refl s'⟩, fun s'' h'' => ?_⟩
    obtain ⟨r, hr, hext⟩ := tyMatchExn_iff.mp h''
    cases h.symm.trans hr
    exact hext
  · rw [← happ, tApp]
    cases lsAppInst ls tl ty <;> simp [bind, Except.bind]

end TySubst
end Why3
