import Why3.Metatheory.Nameless
import Why3.Semantics.Typing

/-!
Well-typed stored terms: the constructors check the types of their arguments, and a deferred
substitution replaces a symbol by a term of its type. Forcing keeps the type and gives a
well-typed term.

The symbols and types of a term come from a session, in which the tags are unique.
-/
namespace Why3
namespace Stored

open Term
open List

/-- The symbols and the types made so far, each with its own tag. -/
structure Session where
  vs : VSymbol → Prop
  ls : LSymbol → Prop
  ty : Ty → Prop
  tyTag : Ty → Nat
  vs_inj : ∀ {u v}, vs u → vs v → u.vsName.idTag = v.vsName.idTag → u = v
  ls_inj : ∀ {s t}, ls s → ls t → s.lsName.idTag = t.lsName.idTag → s = t
  ty_inj : ∀ {a b}, ty a → ty b → tyTag a = tyTag b → a = b

mutual
def patLs : Pattern → List LSymbol
  | .pwild _ | .pvar _ => []
  | .papp cs pl _ => cs :: patLsList pl
  | .por p q => patLs p ++ patLs q
  | .pas p _ => patLs p
def patLsList : List Pattern → List LSymbol
  | [] => []
  | p :: pl => patLs p ++ patLsList pl
end

theorem mem_patLsList {cs : LSymbol} {pl : List Pattern} :
    cs ∈ patLsList pl ↔ ∃ p ∈ pl, cs ∈ patLs p := by
  induction pl with
  | nil => simp [patLsList]
  | cons p pl ih => simp [patLsList, ih]

/-- A deferred substitution replaces a symbol by a term of its type. -/
def SubstTyped (s : Mvs STerm) : Prop := ∀ x ∈ s, tTy x.2 = some x.1.vsTy

inductive Typed (C : AlgSig) (U : Session) : STerm → Prop
  | tvar (a : Attrs) {v : VSymbol} : U.vs v → U.ty v.vsTy → Typed C U (.tvar a v)
  | tconst (a : Attrs) (c : Constant) {ty : Ty} : U.ty ty → Typed C U (.tconst a c ty)
  | tapp (a : Attrs) {ls : LSymbol} {tl : List STerm} {ty : Option Ty} (s : TySubst) :
      U.ls ls → (∀ ty', ty = some ty' → U.ty ty') →
      (0 < ls.lsConstr → ∃ ts, ls ∈ C.constrs ts) →
      tl.map tTy = ls.lsArgs.map (fun a => some (tyInst s a)) →
      ty = ls.lsValue.map (tyInst s) → (∀ t ∈ tl, Typed C U t) → Typed C U (.tapp a ls tl ty)
  | tif (a : Attrs) {f t e : STerm} : Typed C U f → tTy f = none → Typed C U t → Typed C U e →
      tTy t = tTy e → Typed C U (.tif a f t e)
  | tlet (a : Attrs) {t : STerm} {v : VSymbol} {b : BindInfo STerm} {e : STerm} :
      Typed C U t → tTy t = some v.vsTy → SubstTyped b.bvSubst →
      (∀ x ∈ b.bvSubst, Typed C U x.2) → Typed C U e → Typed C U (.tlet a t v b e)
  | tcase (a : Attrs) {t : STerm} {bl : List TermBranch} {ty : Ty} :
      Typed C U t → tTy t = some ty → bl ≠ [] →
      (∀ x ∈ bl, PatTyped C x.1 ∧ patTy x.1 = ty) → (∀ x ∈ bl, ∀ cs ∈ patLs x.1, U.ls cs) →
      (∀ x ∈ bl, tTy x.2.2 = tTy (.tcase a t bl)) → (∀ x ∈ bl, SubstTyped x.2.1.bvSubst) →
      (∀ x ∈ bl, ∀ y ∈ x.2.1.bvSubst, Typed C U y.2) → (∀ x ∈ bl, Typed C U x.2.2) →
      Typed C U (.tcase a t bl)
  | teps (a : Attrs) {v : VSymbol} {b : BindInfo STerm} {f : STerm} :
      U.ty v.vsTy → SubstTyped b.bvSubst → (∀ x ∈ b.bvSubst, Typed C U x.2) → Typed C U f →
      tTy f = none → Typed C U (.teps a v b f)
  | tquant (a : Attrs) (q : Quant) (vl : List VSymbol) {b : BindInfo STerm}
      (tr : List (List STerm)) {f : STerm} : SubstTyped b.bvSubst →
      (∀ x ∈ b.bvSubst, Typed C U x.2) → Typed C U f → tTy f = none →
      Typed C U (.tquant a q vl b tr f)
  | tbinop (a : Attrs) (op : Binop) {f g : STerm} : Typed C U f → tTy f = none → Typed C U g →
      tTy g = none → Typed C U (.tbinop a op f g)
  | tnot (a : Attrs) {f : STerm} : Typed C U f → tTy f = none → Typed C U (.tnot a f)
  | ttrue (a : Attrs) : Typed C U (.ttrue a)
  | tfalse (a : Attrs) : Typed C U (.tfalse a)

variable {C : AlgSig} {U : Session}

variable {t : STerm} {vml : List Frame}

theorem Typed.ty_mem (h : Typed C U t) : ∀ {ty}, tTy t = some ty → U.ty ty := by
  induction h with
  | tvar a hv hty | tconst a c hty | teps a hty _ _ _ _ _ _ =>
    intro ty h
    cases h
    exact hty
  | tapp a s hls hty _ _ _ _ _ => exact fun h => hty _ h
  | tif a _ _ _ _ _ _ iht _ => exact iht
  | tlet a _ _ _ _ _ _ _ ihe => exact ihe
  | @tcase a t bl ty _ _ hne _ _ _ _ _ _ _ _ ihe =>
    cases bl with
    | nil => exact absurd rfl hne
    | cons x bl => exact ihe x mem_cons_self
  | _ =>
    intro ty h
    cases h

/-! Forcing. -/

section ForceBody

variable {Q : CaseCond} {Γ : List Ty}

theorem typedMap_closeBody (vl : List VSymbol) : TypedMap C Q [] (vl.map VSymbol.vsTy)
      (fun k a v => match lastIdx? v vl with
        | some j => .bvar a (k + j) v.vsTy
        | none => .tvar a v)
      (fun k a i ty => if i < k then .bvar a i ty else .bvar a (i + vl.length) ty) := by
  refine ⟨fun k a v => ?_, fun Δ a v => ?_, fun Δ a i ty hi => ?_⟩
  · cases lastIdx? v vl <;> rfl
  · cases hv : lastIdx? v vl with
    | none => trivial
    | some j =>
      simp only [WellTyped]
      rw [List.getElem?_append_right (by omega), Nat.add_sub_cancel_left, List.getElem?_map,
        getElem?_lastIdx? hv]
      rfl
  · rw [append_nil] at hi
    have hlt := (List.getElem?_eq_some_iff.mp hi).1
    rw [if_pos hlt]
    refine ⟨rfl, ?_⟩
    rw [WellTyped, List.getElem?_append_left hlt, hi]

theorem typedMap_tSubst {m : VSymbol → Option Term} (hm : ClosedMap m)
    (hty : ∀ v s, m v = some s → s.tTy = some v.vsTy)
    (hwt : ∀ v s, m v = some s → WellTyped C Q [] s) : TypedMap C Q Γ Γ (fun k a v => match m v with
        | some s => Why3.tAttrCopy (.tvar a v) (s.lift k)
        | none => .tvar a v) (fun _ a i ty => .bvar a i ty) := by
  refine ⟨fun k a v => ?_, fun Δ a v => ?_, fun Δ a i ty hi => ⟨rfl, hi⟩⟩
  · cases hv : m v with
    | none => rfl
    | some s =>
      simp only [Why3.tAttrCopy, tTy_setAttrs, lift_of_scoped (hm v s hv)]
      exact hty v s hv
  · cases hv : m v with
    | none => trivial
    | some s =>
      have hs := ((hwt v s hv).lift (Δ ++ Γ)).1
      rw [lift_of_scoped (hm v s hv), append_nil] at hs
      simp only [Why3.tAttrCopy, wellTyped_setAttrs, lift_of_scoped (hm v s hv)]
      exact hs

theorem wellTyped_bodyOf (vl : List VSymbol) {b : BindInfo STerm} {e : STerm}
    (hb : SubstTyped b.bvSubst)
    (ih : ∀ x ∈ b.bvSubst, WellTyped C Q [] (force x.2) ∧ (force x.2).tTy = tTy x.2)
    (he : WellTyped C Q [] (force e) ∧ (force e).tTy = tTy e) :
    WellTyped C Q (vl.map VSymbol.vsTy) (bodyOf vl b e) ∧ (bodyOf vl b e).tTy = tTy e := by
  obtain ⟨hc, hcty⟩ := (typedMap_closeBody vl).wellTyped (force e) [] he.1
  have hm : TypedMap C Q (vl.map VSymbol.vsTy) (vl.map VSymbol.vsTy) _ _ :=
    typedMap_tSubst (closedMap_substMap b.bvSubst)
      (fun v s hs => by
        obtain ⟨t, ht, rfl⟩ := Option.map_eq_some_iff.mp hs
        have hmem := AssocList.mem_of_lookup ht
        exact (ih (v, t) hmem).2.trans (hb (v, t) hmem))
      (fun v s hs => by
        obtain ⟨t, ht, rfl⟩ := Option.map_eq_some_iff.mp hs
        exact (ih (v, t) (AssocList.mem_of_lookup ht)).1)
  obtain ⟨hs, hsty⟩ := hm.wellTyped (closeBody vl (force e)) [] hc
  rw [bodyOf_eq]
  exact ⟨hs, hsty.trans (hcty.trans he.2)⟩

end ForceBody

/-- The matches need not be exhaustive. -/
theorem Typed.force (h : Typed C U t) :
    WellTyped C (fun _ _ => True) [] (force t) ∧ (Stored.force t).tTy = tTy t := by
  induction h with
  | tvar a _ _ | tconst a c _ | ttrue a | tfalse a => exact ⟨trivial, rfl⟩
  | @tapp a ls tl ty s _ _ hcs hargs hval _ ih =>
    refine ⟨⟨?_, hcs, s, ?_, hval⟩, rfl⟩
    · rw [forceList_eq, wellTypedList_iff]
      refine forall_mem_map.mpr fun u hu => ?_
      exact (ih u hu).1
    · rw [forceList_eq, map_map, ← hargs]
      exact map_congr_left fun t ht => (ih t ht).2
  | tif a _ hf _ _ hty ihf iht ihe =>
    exact ⟨⟨⟨ihf.1, ihf.2.trans hf⟩, iht.1, ihe.1, iht.2.trans (hty.trans ihe.2.symm)⟩, iht.2⟩
  | @tlet a t v b e _ hty hb _ _ iht ihb ihe =>
    obtain ⟨hw, hbody⟩ := wellTyped_bodyOf [v] hb ihb ihe
    exact ⟨⟨⟨iht.1, iht.2.trans hty⟩, hw⟩, hbody⟩
  | @tcase a t bl ty _ hty hne hp _ htys hb _ _ iht ihb ihe =>
    have hbody := fun x hx => wellTyped_bodyOf (patVars x.1) (hb x hx) (ihb x hx) (ihe x hx)
    have htype : (Term.tcase a (Stored.force t) (forceBranches bl)).tTy =
        tTy (.tcase a t bl) := by
      cases bl with
      | nil => rfl
      | cons x bl => exact (hbody x mem_cons_self).2
    refine ⟨⟨iht.1, ⟨ty, iht.2.trans hty, trivial, ?_⟩, ⟨?_, ?_⟩, ?_⟩, htype⟩
    · rw [forceBranches_eq]
      refine forall_mem_map.mpr fun x hx => ?_
      exact hp x hx
    · rw [forceBranches_eq]
      simpa using hne
    · rw [htype, forceBranches_eq]
      refine forall_mem_map.mpr fun x hx => ?_
      exact (hbody x hx).2.trans (htys x hx)
    · rw [forceBranches_eq, wellTypedBranches_iff]
      refine forall_mem_map.mpr fun x hx => ?_
      rw [append_nil]
      exact (hbody x hx).1
  | @teps a v b f _ hb _ _ hty ihb ihf =>
    obtain ⟨hw, hbody⟩ := wellTyped_bodyOf [v] hb ihb ihf
    exact ⟨⟨hw, hbody.trans hty⟩, rfl⟩
  | @tquant a q vl b tr f hb _ _ hty ihb ihf =>
    obtain ⟨hw, hbody⟩ := wellTyped_bodyOf vl hb ihb ihf
    refine ⟨⟨?_, hbody.trans hty⟩, rfl⟩
    rw [append_nil]
    exact hw
  | tbinop a op _ hf _ hg ihf ihg =>
    exact ⟨⟨⟨ihf.1, ihf.2.trans hf⟩, ihg.1, ihg.2.trans hg⟩, rfl⟩
  | tnot a _ hf ihf => exact ⟨⟨ihf.1, ihf.2.trans hf⟩, rfl⟩

/-! Frames. -/

/-- The deferred terms of the frames are well typed. -/
def FramesTyped (C : AlgSig) (U : Session) (vml : List Frame) : Prop :=
  ∀ x ∈ vml, SubstTyped x.2 ∧ ∀ y ∈ x.2, Typed C U y.2

theorem framesTyped_nil : FramesTyped C U [] := nofun

theorem FramesTyped.cons (h : FramesTyped C U vml) (bv : Mvs Nat) {s : Mvs STerm}
    (hs : SubstTyped s) (ht : ∀ x ∈ s, Typed C U x.2) : FramesTyped C U ((bv, s) :: vml) :=
  forall_mem_cons.mpr ⟨⟨hs, ht⟩, h⟩

theorem FramesTyped.tail {x : Frame} (h : FramesTyped C U (x :: vml)) :
    FramesTyped C U vml := (forall_mem_cons.mp h).2

theorem FramesTyped.tTy_frameEnv (h : FramesTyped C U vml) (v : VSymbol)
    (k : Nat) : (frameEnv vml v k).tTy = some v.vsTy := by
  induction vml generalizing v k with
  | nil => rfl
  | cons x vml ih =>
    obtain ⟨bv, vm⟩ := x
    rw [frameEnv]
    cases bv.lookup v with
    | some i => rfl
    | none =>
      cases ht : vm.lookup v with
      | none => exact ih h.tail v k
      | some t =>
        have hmem : (v, t) ∈ vm := AssocList.mem_of_lookup ht
        obtain ⟨hty, htyped⟩ := h (bv, vm) mem_cons_self
        exact (tTy_nameless (ih h.tail) (Stored.force t) [] k).trans
          ((htyped _ hmem).force.2.trans (hty _ hmem))

theorem FramesTyped.tTy_namelessIn (h : FramesTyped C U vml) (ht : Typed C U t)
    (k : Nat) : (namelessIn k vml t).tTy = tTy t :=
  (tTy_nameless h.tTy_frameEnv (Stored.force t) [] k).trans ht.force.2

/-- `descend` finds the node of the nameless term: a level, or a term under the frames it
belongs to. A symbol that is left is free. -/
theorem descend_cases (hvml : FramesTyped C U vml) (ht : Typed C U t) :
    (∃ i ty, descend vml t = .bnd i ∧ ∀ k, namelessIn k vml t = .bnd i ty) ∨
      ∃ t' vml', descend vml t = .trm t' vml' ∧ FramesTyped C U vml' ∧ Typed C U t' ∧
        (∀ k, namelessIn k vml t = namelessIn k vml' t') ∧
        ∀ a v, t' = .tvar a v → vml' = [] := by
  induction vml generalizing t with
  | nil => exact .inr ⟨t, [], by rw [descend]; simp, hvml, ht, fun _ => rfl, fun _ _ _ => rfl⟩
  | cons x vml ih =>
    obtain ⟨bv, vm⟩ := x
    cases t with
    | tvar a v =>
      have hin : ∀ k, namelessIn k ((bv, vm) :: vml) (.tvar a v) =
          frameEnv ((bv, vm) :: vml) v k := fun _ => rfl
      simp only [hin, frameEnv, descend]
      cases bv.lookup v with
      | some i => exact .inl ⟨i, v.vsTy, rfl, fun _ => rfl⟩
      | none =>
        cases hvm : vm.lookup v with
        | none => exact ih hvml.tail ht
        | some s =>
          have hs := (hvml (bv, vm) mem_cons_self).2 (v, s)
            (AssocList.mem_of_lookup hvm)
          exact ih hvml.tail hs
    | _ => exact .inr ⟨_, _, rfl, hvml, ht, fun _ => rfl, by simp⟩

end Stored
end Why3
