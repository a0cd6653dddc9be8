import Why3.Metatheory.Forced

/-!
The strict comparison of located terms.

With enough fuel it finds two terms equal if and only if their forms with the annotations of
the occurrences are.
-/
namespace Why3

open Stored (PatOf)
open List

variable {v : VSymbol}

namespace VTerm

def tTy : VTerm → Option Ty
  | tvar _ v => some v.vsTy
  | bnd _ _ ty => some ty
  | tconst _ _ ty => some ty
  | tapp _ _ _ ty => ty
  | tif _ _ t _ => tTy t
  | tlet _ _ e => tTy e
  | tcase _ _ [] => none
  | tcase _ _ ((_, e) :: _) => tTy e
  | teps _ ty _ => some ty
  | tquant _ _ _ _ _ | tbinop _ _ _ _ | tnot _ _ | ttrue _ | tfalse _ => none

@[simp] theorem tTy_setAnn (a : Ann) (t : VTerm) : (t.setAnn a).tTy = t.tTy := by
  cases t with
  | tcase _ t bl => cases bl <;> rfl
  | _ => rfl

theorem setAnn_ann (t : VTerm) : t.setAnn t.ann = t := by cases t <;> rfl

theorem setAnn_eq_iff {a b : Ann} {s t : VTerm} :
    s.setAnn a = t.setAnn b ↔ a = b ∧ s.setAnn .plain = t.setAnn .plain := by
  constructor
  · intro h
    have ha := congrArg ann h
    have hp := congrArg (setAnn .plain) h
    simp only [ann_setAnn, setAnn_setAnn] at ha hp
    exact ⟨ha, hp⟩
  · rintro ⟨rfl, h⟩
    have h := congrArg (setAnn a) h
    simp only [setAnn_setAnn] at h
    exact h

mutual
/-- The free symbols. -/
def vars : VTerm → List VSymbol
  | tvar _ v => [v]
  | bnd _ _ _ | tconst _ _ _ | ttrue _ | tfalse _ => []
  | tapp _ _ tl _ => varsList tl
  | tif _ f t e => vars f ++ vars t ++ vars e
  | tlet _ t e => vars t ++ vars e
  | tcase _ t bl => vars t ++ varsBranches bl
  | teps _ _ f => vars f
  | tquant _ _ _ tr f => varsTrigger tr ++ vars f
  | tbinop _ _ f g => vars f ++ vars g
  | tnot _ f => vars f
def varsList : List VTerm → List VSymbol
  | [] => []
  | t :: tl => vars t ++ varsList tl
def varsBranches : List (NPat × VTerm) → List VSymbol
  | [] => []
  | (_, e) :: bl => vars e ++ varsBranches bl
def varsTrigger : List (List VTerm) → List VSymbol
  | [] => []
  | l :: tr => varsList l ++ varsTrigger tr
end

attribute [grind =] vars

@[simp] theorem vars_setAnn (a : Ann) (t : VTerm) : (t.setAnn a).vars = t.vars := by
  cases t <;> rfl

theorem mem_varsList {tl : List VTerm} : v ∈ varsList tl ↔ ∃ t ∈ tl, v ∈ t.vars := by
  induction tl with
  | nil => simp [varsList]
  | cons t tl ih => simp [varsList, ih]

theorem mem_varsBranches {bl : List (NPat × VTerm)} :
    v ∈ varsBranches bl ↔ ∃ x ∈ bl, v ∈ x.2.vars := by
  induction bl with
  | nil => simp [varsBranches]
  | cons x bl ih => simp [varsBranches, ih]

theorem mem_varsTrigger {tr : List (List VTerm)} :
    v ∈ varsTrigger tr ↔ ∃ l ∈ tr, ∃ t ∈ l, v ∈ t.vars := by
  induction tr with
  | nil => simp [varsTrigger]
  | cons l tr ih => simp [varsTrigger, mem_varsList, ih]

/-- The order of the constructors, bound symbols first. -/
def rank : VTerm → Nat
  | bnd _ _ _ => 0
  | tvar _ _ => 1
  | tconst _ _ _ => 2
  | tapp _ _ _ _ => 3
  | tif _ _ _ _ => 4
  | tlet _ _ _ => 5
  | tcase _ _ _ => 6
  | teps _ _ _ => 7
  | tquant _ _ _ _ _ => 8
  | tbinop _ _ _ _ => 9
  | tnot _ _ => 10
  | ttrue _ => 11
  | tfalse _ => 12

@[simp] theorem rank_setAnn (a : Ann) (t : VTerm) : (t.setAnn a).rank = t.rank := by
  cases t <;> rfl

end VTerm

namespace Located

open Stored (lastIdx? Levels addLevels levels_addLevels numbered CompExn compRaise patCompare)

/-! Frames. -/

/-- What a free symbol of a term under the frames stands for, with the annotation of the
occurrence. -/
def frameEnv : List Frame → VSymbol → Nat → VTerm
  | [], v, _ => .tvar .plain v
  | (bv, vm) :: vml, v, k =>
    match bv.lookup v with
    | some i => .bnd .plain i v.vsTy
    | none => match vm.lookup v with
        | some t => view VTerm.setAnn (frameEnv vml) k t
        | none => frameEnv vml v k

/-- The form of a term under the frames, as the comparison sees it. -/
def seenIn (k : Nat) (vml : List Frame) (t : LTerm) : VTerm :=
  view VTerm.setAnn (frameEnv vml) k t

/-- The body of a binding of `vl` under the frames. -/
def bodyIn (k : Nat) (vml : List Frame) (vl : List VSymbol) (b : BindInfo LTerm) (e : LTerm) :
    VTerm :=
  seenIn (k + vl.length) (((addLevels k [] vl).2, b.bvSubst) :: vml) e

def branchIn (k : Nat) (vml : List Frame) (x : TermBranch) : NPat × VTerm :=
  (levelPat (patLevel k x.1) x.1, bodyIn k vml (patVars x.1) x.2.1 x.2.2)

section Nodes

variable (k : Nat) (vml : List Frame)

theorem viewBody_eq_bodyIn (vl : List VSymbol) (b : BindInfo LTerm) (e : LTerm) :
    viewBody VTerm.setAnn (frameEnv vml) k vl b e = bodyIn k vml vl b e := by
  have henv : under (frameEnv vml) k vl (viewSubst VTerm.setAnn (frameEnv vml) b) =
      frameEnv (((addLevels k [] vl).2, b.bvSubst) :: vml) := by
    funext v j
    rw [frameEnv, levels_addLevels k vl v, under, viewSubst_eq]
    cases lastIdx? v vl with
    | some i => rfl
    | none => cases b.bvSubst.lookup v <;> rfl
  rw [viewBody, henv, bodyIn, seenIn]

variable (a : Ann)

theorem seenIn_tapp (ls : LSymbol) (tl : List LTerm) (ty : Option Ty) :
    seenIn k vml (.tapp a ls tl ty) = .tapp a ls (tl.map (seenIn k vml)) ty :=
  view_tapp _ _ k a ls tl ty

theorem seenIn_tif (f t e : LTerm) :
    seenIn k vml (.tif a f t e) = .tif a (seenIn k vml f) (seenIn k vml t) (seenIn k vml e) := rfl

theorem seenIn_tlet (t : LTerm) (v : VSymbol) (b : BindInfo LTerm) (e : LTerm) :
    seenIn k vml (.tlet a t v b e) = .tlet a (seenIn k vml t) (bodyIn k vml [v] b e) := by
  rw [seenIn, view_tlet, viewBody_eq_bodyIn]
  rfl

theorem seenIn_tcase (t : LTerm) (bl : List TermBranch) :
    seenIn k vml (.tcase a t bl) = .tcase a (seenIn k vml t) (bl.map (branchIn k vml)) := by
  rw [seenIn, view_tcase]
  refine congrArg (VTerm.tcase a _) (map_congr_left fun x _ => Prod.ext rfl ?_)
  exact viewBody_eq_bodyIn k vml (patVars x.1) x.2.1 x.2.2

theorem seenIn_teps (v : VSymbol) (b : BindInfo LTerm) (f : LTerm) :
    seenIn k vml (.teps a v b f) = .teps a v.vsTy (bodyIn k vml [v] b f) := by
  rw [seenIn, view_teps, viewBody_eq_bodyIn]

theorem seenIn_tquant (q : Quant) (vl : List VSymbol) (b : BindInfo LTerm)
    (tr : List (List LTerm)) (f : LTerm) :
    seenIn k vml (.tquant a q vl b tr f) = .tquant a q vl.length
      (tr.map (·.map (bodyIn k vml vl b))) (bodyIn k vml vl b f) := by
  have hbody : viewBody VTerm.setAnn (frameEnv vml) k vl b = bodyIn k vml vl b :=
    funext fun e => viewBody_eq_bodyIn k vml vl b e
  rw [seenIn, view_tquant, hbody]

theorem seenIn_tbinop (op : Binop) (f g : LTerm) :
    seenIn k vml (.tbinop a op f g) = .tbinop a op (seenIn k vml f) (seenIn k vml g) := rfl

theorem seenIn_tnot (f : LTerm) :
    seenIn k vml (.tnot a f) = .tnot a (seenIn k vml f) := rfl

theorem ann_seenIn (t : LTerm) : (seenIn k vml t).ann = ann t := by
  cases t with
  | tvar a v => exact VTerm.ann_setAnn a _
  | _ => rfl

end Nodes

/-! Types. -/

variable {C : AlgSig} {U : Stored.Session}

/-- The symbols stand for terms of their types. -/
def TypedEnv (ρ : VSymbol → Nat → VTerm) : Prop := ∀ v k, (ρ v k).tTy = some v.vsTy

variable {b : BindInfo LTerm} {vl vl1 vl2 : List VSymbol} {t : LTerm}

theorem TypedEnv.under {ρ : VSymbol → Nat → VTerm} (hρ : TypedEnv ρ) {es : List LTerm}
    (hb : BindWf U vl b es) (hs : ∀ x ∈ b.bvSubst, ∀ k, (view VTerm.setAnn ρ k x.2).tTy = tTy x.2)
    (k : Nat) : TypedEnv (under ρ k vl (viewSubst VTerm.setAnn ρ b)) := by
  intro v j
  cases hi : lastIdx? v vl with
  | some i => rw [under_bound hi, VTerm.tTy]
  | none =>
    rw [under_free (Stored.lastIdx?_eq_none.mp hi), viewSubst_eq]
    cases ht : b.bvSubst.lookup v with
    | none => exact hρ v j
    | some t => exact (hs _ (AssocList.mem_of_lookup ht) j).trans (hb.typed ht)

theorem Wf.tTy_view (h : Wf C U t) : ∀ {ρ}, TypedEnv ρ → ∀ k,
    (view VTerm.setAnn ρ k t).tTy = tTy t := by
  induction h with
  | tvar a _ =>
    intro ρ hρ k
    rw [view, VTerm.tTy_setAnn, hρ]
    rfl
  | tif a _ _ _ _ iht _ => exact fun hρ k => iht hρ k
  | tlet a _ hb _ _ _ ihs ihe => exact fun hρ k => ihe (hρ.under hb (fun x hx => ihs x hx hρ) k) _
  | @tcase a t bl _ _ _ hb _ _ _ ihs ihe =>
    intro ρ hρ k
    cases bl with
    | nil => rfl
    | cons x bl =>
      have hx : x ∈ x :: bl := mem_cons_self
      exact ihe x hx (hρ.under (hb x hx) (fun y hy => ihs x hx y hy hρ) k) _
  | _ => exact fun _ _ => rfl

theorem Wf.ty_mem (h : Wf C U t) : ∀ {ty}, tTy t = some ty → U.ty ty := by
  induction h with
  | tvar a hty | tconst a c hty =>
    intro ty h
    cases h
    exact hty
  | tapp a _ hty _ _ => exact fun h => hty _ h
  | tif a _ _ _ _ iht _ => exact iht
  | tlet a _ _ _ _ _ _ ihe => exact ihe
  | @tcase a t bl _ _ _ _ _ _ _ _ ihe =>
    cases bl with
    | nil => exact nofun
    | cons x bl => exact ihe x mem_cons_self
  | @teps a v b f hb _ _ _ _ =>
    intro ty h
    cases h
    exact hb.types v (mem_singleton.mpr rfl)
  | _ => exact nofun

def FramesWf (C : AlgSig) (U : Stored.Session) (vml : List Frame) : Prop :=
  ∀ fr ∈ vml, MapWf C U fr.2

section

variable {vml : List Frame} (h : FramesWf C U vml)
include h

theorem FramesWf.cons (bv : Mvs Nat) {es : List LTerm} (hb : BindWf U vl b es)
    (hs : ∀ x ∈ b.bvSubst, Wf C U x.2) : FramesWf C U ((bv, b.bvSubst) :: vml) :=
  forall_mem_cons.mpr ⟨⟨hb.typed, hs⟩, h⟩

theorem FramesWf.typedEnv : TypedEnv (frameEnv vml) := by
  induction vml with
  | nil => exact fun v k => rfl
  | cons fr vml ih =>
    obtain ⟨hfr, h⟩ := forall_mem_cons.mp h
    intro v k
    rw [frameEnv]
    cases fr.1.lookup v with
    | some i => rfl
    | none =>
      cases ht : fr.2.lookup v with
      | none => exact ih h v k
      | some t =>
        exact ((hfr.values _ (AssocList.mem_of_lookup ht)).tTy_view (ih h) k).trans
          (hfr.typed ht)

theorem FramesWf.tTy_seenIn (ht : Wf C U t) (k : Nat)
    : (seenIn k vml t).tTy = tTy t := ht.tTy_view h.typedEnv k

end

/-- A symbol is bound at a level or leads to a node. -/
theorem descend_cases {vml : List Frame} : ∀ {t : LTerm}, FramesWf C U vml → Wf C U t →
    (∃ i ty, descend vml t = .bnd i ∧ ∀ k, seenIn k vml t = .bnd (ann t) i ty) ∨
    ∃ t' vml', descend vml t = .trm t' vml' ∧ FramesWf C U vml' ∧ Wf C U t' ∧
      (∀ k, seenIn k vml t = (seenIn k vml' t').setAnn (ann t)) ∧
      ∀ a v, t' = .tvar a v → vml' = [] := by
  have hself : ∀ {vml : List Frame} {t : LTerm} k, seenIn k vml t =
      (seenIn k vml t).setAnn (ann t) := by
    intro vml t k
    rw [← ann_seenIn k vml, VTerm.setAnn_ann]
  induction vml with
  | nil =>
    intro t h ht
    refine Or.inr ⟨t, [], ?_, h, ht, hself, fun _ _ _ => rfl⟩
    rw [descend]
    simp
  | cons fr vml ih =>
    intro t h ht
    obtain ⟨bv, vm⟩ := fr
    obtain ⟨hfr, h'⟩ := forall_mem_cons.mp h
    cases t with
    | tvar a v =>
      rw [descend]
      simp only [seenIn, view, frameEnv, ann]
      cases bv.lookup v with
      | some i => exact Or.inl ⟨i, v.vsTy, rfl, fun k => rfl⟩
      | none =>
        cases hu : vm.lookup v with
        | none => exact ih h' ht
        | some u =>
          have hwf := hfr.values _ (AssocList.mem_of_lookup hu)
          cases ih h' hwf with
          | inl h =>
            obtain ⟨i, ty, hd, hi⟩ := h
            refine Or.inl ⟨i, ty, hd, fun k => ?_⟩
            have hi := hi k
            rw [seenIn] at hi
            simp only [hi, VTerm.setAnn]
          | inr h =>
            obtain ⟨t', vml', hd, hf, hw, hi, hv⟩ := h
            refine Or.inr ⟨t', vml', hd, hf, hw, fun k => ?_, hv⟩
            have hi := hi k
            rw [seenIn, seenIn] at hi
            simp only [hi, VTerm.setAnn_setAnn]
    | _ => exact Or.inr ⟨_, _, rfl, h, ht, hself, by simp⟩

/-! The parts of the comparison. -/

theorem compRaise_eq_ok {o : Ordering} : compRaise o = .ok () ↔ o = .eq := by
  cases o <;> simp [compRaise]

theorem bind_eq_ok_unit {x y : Except CompExn Unit} :
    (x >>= fun _ => y) = .ok () ↔ x = .ok () ∧ y = .ok () := by
  rw [Except.bind_eq_ok]
  exact ⟨fun ⟨_, hx, hy⟩ => ⟨hx, hy⟩, fun ⟨hx, hy⟩ => ⟨(), hx, hy⟩⟩

theorem tagsCompare_eq_iff {l1 l2 : List Nat} : tagsCompare l1 l2 = .eq ↔ l1 = l2 := by
  induction l1 generalizing l2 with
  | nil => cases l2 <;> simp [tagsCompare]
  | cons m l1 ih =>
    cases l2 with
    | nil => simp [tagsCompare]
    | cons n l2 => simp [tagsCompare, ih]

theorem attrsCompare_eq_iff {attrTag : String → Nat} (htag : Function.Injective attrTag)
    {a1 a2 : Attrs} : attrsCompare attrTag a1 a2 = .eq ↔ a1 = a2 := by
  rw [attrsCompare, tagsCompare_eq_iff]
  constructor
  · intro h
    have h := congrArg toFinset h
    rw [Finset.sort_toFinset, Finset.sort_toFinset] at h
    exact Finset.image_injective htag h
  · exact fun h => h ▸ rfl

theorem locCompare_eq_iff {p1 p2 : Option Position} : locCompare p1 p2 = .eq ↔ p1 = p2 := by
  have hchars : Function.Injective fun s : String => s.toList.map Char.toNat := by
    have hinj : Function.Injective Char.toNat := fun a b h => Char.toNat_inj.mp h
    exact fun a b h => String.toList_inj.mp (map_injective_iff.mpr hinj h)
  cases p1 with
  | none => cases p2 <;> simp [locCompare]
  | some p1 =>
    cases p2 with
    | none => simp [locCompare]
    | some p2 =>
      cases p1
      cases p2
      simp only [locCompare, Ordering.then_eq_eq, tagsCompare_eq_iff, hchars.eq_iff,
        compare_eq_iff_eq, Option.some.injEq, Position.mk.injEq]

theorem otyCompare_eq_iff {o1 o2 : Option Ty} (h1 : ∀ ty, o1 = some ty → U.ty ty)
    (h2 : ∀ ty, o2 = some ty → U.ty ty) : Stored.otyCompare U.tyTag o1 o2 = .eq ↔ o1 = o2 := by
  cases o1 with
  | none => cases o2 <;> simp [Stored.otyCompare]
  | some ty1 =>
    cases o2 with
    | none => simp [Stored.otyCompare]
    | some ty2 =>
      rw [Stored.otyCompare, compare_eq_iff_eq, Option.some.injEq]
      exact ⟨U.ty_inj (h1 _ rfl) (h2 _ rfl), fun h => h ▸ rfl⟩

theorem lsCompare_eq_iff {s1 s2 : LSymbol} (h1 : U.ls s1) (h2 : U.ls s2) :
    Stored.lsCompare s1 s2 = .eq ↔ s1 = s2 := by
  rw [Stored.lsCompare, compare_eq_iff_eq]
  exact ⟨U.ls_inj h1 h2, fun h => h ▸ rfl⟩

theorem vsCompare_eq_iff {v1 v2 : VSymbol} (h1 : U.vs v1) (h2 : U.vs v2) :
    Stored.vsCompare v1 v2 = .eq ↔ v1 = v2 := by
  rw [Stored.vsCompare, compare_eq_iff_eq]
  exact ⟨U.vs_inj h1 h2, fun h => h ▸ rfl⟩

theorem compareConst_eq_ok_iff (c1 c2 : Constant) :
    compRaise (Stored.compareConst c1 c2) = .ok () ↔ c1 = c2 :=
  (Stored.decides_const c1 c2).ok_iff fun h => h ▸ rfl

/-- Two patterns are equal up to the names of their variables, which are numbered, or the
comparison raises an exception. -/
theorem patCompare_cases {p1 p2 : Pattern} (hp1 : PatOf C U p1) (hp2 : PatOf C U p2) (k : Nat) :
    (levelPat (patLevel k p1) p1 = levelPat (patLevel k p2) p2 ∧
      (patVars p1).length = (patVars p2).length ∧
      patCompare (k, [], []) p1 p2 = .ok (numbered (k, [], []) (patVars p1) (patVars p2))) ∨
    (levelPat (patLevel k p1) p1 ≠ levelPat (patLevel k p2) p2 ∧
      ∃ e, patCompare (k, [], []) p1 p2 = .error e) := by
  have hdec := Stored.decides_patCompare p1 p2 (k, [], []) hp1 hp2
    (Stored.numberedFrom_patLevel hp1.typed k) (Stored.numberedFrom_patLevel hp2.typed k)
  generalize patCompare (k, [], []) p1 p2 = r at hdec
  generalize hl1 : Stored.patKey (levelPat (patLevel k p1) p1) = l1 at hdec
  generalize hl2 : Stored.patKey (levelPat (patLevel k p2) p2) = l2 at hdec
  cases hdec with
  | eq _ h =>
    obtain ⟨rfl, hp, hlen⟩ := h
    exact Or.inl ⟨hp, hlen, rfl⟩
  | lt h | gt h => exact Or.inr ⟨fun he => h.ne (by rw [← hl1, ← hl2, he]), _, rfl⟩

theorem addVars_eq_ok_iff (k : Nat) (st : Stored.PatState) :
    Stored.addVars (k, [], []) vl1 vl2 = .ok st ↔
      vl1.length = vl2.length ∧ st = numbered (k, [], []) vl1 vl2 := by
  rw [Stored.addVars_eq, Except.bind_eq_ok, ← compare_eq_iff_eq (a := vl1.length),
    ← compRaise_eq_ok]
  constructor
  · rintro ⟨_, hc, hst⟩
    exact ⟨hc, (Except.ok.inj hst).symm⟩
  · rintro ⟨hc, rfl⟩
    exact ⟨(), hc, rfl⟩

/-! The comparison. -/

/-- A term under the frames, with free symbols of the session. -/
structure Side (C : AlgSig) (U : Stored.Session) (k : Nat) (vml : List Frame) (t : LTerm) :
    Prop where
  frames : FramesWf C U vml
  wf : Wf C U t
  known : ∀ v ∈ (seenIn k vml t).vars, U.vs v

/-- A body of a binding of `vl` under the frames. -/
abbrev BodySide (C : AlgSig) (U : Stored.Session) (k : Nat) (vml : List Frame)
    (vl : List VSymbol) (b : BindInfo LTerm) (e : LTerm) : Prop :=
  Side C U (k + vl.length) (((addLevels k [] vl).2, b.bvSubst) :: vml) e

section Sides

variable {k : Nat} {vml : List Frame} {a : Ann}

theorem Side.tapp {ls : LSymbol} {tl : List LTerm} {ty : Option Ty}
    (h : Side C U k vml (.tapp a ls tl ty)) : U.ls ls ∧ ∀ t ∈ tl, Side C U k vml t := by
  obtain ⟨hf, hwf, hk⟩ := h
  cases hwf with
  | tapp _ hls _ hwf =>
    refine ⟨hls, fun t ht => ⟨hf, hwf t ht, fun v hv => hk v ?_⟩⟩
    rw [seenIn_tapp]
    exact VTerm.mem_varsList.mpr ⟨_, mem_map_of_mem ht, hv⟩

variable {f : LTerm}

theorem Side.tif {e : LTerm} (h : Side C U k vml (.tif a f t e)) :
    Side C U k vml f ∧ Side C U k vml t ∧ Side C U k vml e := by
  obtain ⟨hf, hwf, hk⟩ := h
  simp only [seenIn_tif, VTerm.vars, forall_mem_append] at hk
  cases hwf with
  | tif _ h1 h2 h3 => exact ⟨⟨hf, h1, hk.1.1⟩, ⟨hf, h2, hk.1.2⟩, ⟨hf, h3, hk.2⟩⟩

theorem Side.tlet {e : LTerm} (h : Side C U k vml (.tlet a t v b e)) :
    Side C U k vml t ∧ BodySide C U k vml [v] b e := by
  obtain ⟨hf, hwf, hk⟩ := h
  simp only [seenIn_tlet, VTerm.vars, forall_mem_append] at hk
  cases hwf with
  | tlet _ h1 hb hs h2 => exact ⟨⟨hf, h1, hk.1⟩, ⟨hf.cons _ hb hs, h2, hk.2⟩⟩

theorem Side.tcase {bl : List TermBranch} (h : Side C U k vml (.tcase a t bl)) :
    Side C U k vml t ∧
      ∀ x ∈ bl, PatOf C U x.1 ∧ BodySide C U k vml (patVars x.1) x.2.1 x.2.2 := by
  obtain ⟨hf, hwf, hk⟩ := h
  simp only [seenIn_tcase, VTerm.vars, forall_mem_append] at hk
  cases hwf with
  | tcase _ h1 hp hls hb hs h2 =>
    refine ⟨⟨hf, h1, hk.1⟩, fun x hx => ⟨⟨hp x hx, hls x hx⟩, hf.cons _ (hb x hx) (hs x hx),
      h2 x hx, ?_⟩⟩
    exact fun v hv => hk.2 v (VTerm.mem_varsBranches.mpr ⟨_, mem_map_of_mem hx, hv⟩)

theorem Side.teps (h : Side C U k vml (.teps a v b f)) : BodySide C U k vml [v] b f := by
  obtain ⟨hf, hwf, hk⟩ := h
  rw [seenIn_teps] at hk
  cases hwf with
  | teps _ hb hs h2 => exact ⟨hf.cons _ hb hs, h2, hk⟩

theorem Side.tquant {q : Quant} {tr : List (List LTerm)}
    (h : Side C U k vml (.tquant a q vl b tr f)) :
    (∀ l ∈ tr, ∀ t ∈ l, BodySide C U k vml vl b t) ∧ BodySide C U k vml vl b f := by
  obtain ⟨hf, hwf, hk⟩ := h
  simp only [seenIn_tquant, VTerm.vars, forall_mem_append] at hk
  cases hwf with
  | tquant _ _ hb hs htr h2 =>
    refine ⟨fun l hl t ht => ⟨hf.cons _ hb hs, htr l hl t ht, fun v hv => hk.1 v ?_⟩,
      ⟨hf.cons _ hb hs, h2, hk.2⟩⟩
    exact VTerm.mem_varsTrigger.mpr
      ⟨_, mem_map_of_mem hl, _, mem_map_of_mem ht, hv⟩

theorem Side.tbinop {op : Binop} {g : LTerm} (h : Side C U k vml (.tbinop a op f g)) :
    Side C U k vml f ∧ Side C U k vml g := by
  obtain ⟨hf, hwf, hk⟩ := h
  simp only [seenIn_tbinop, VTerm.vars, forall_mem_append] at hk
  cases hwf with
  | tbinop _ _ h1 h2 => exact ⟨⟨hf, h1, hk.1⟩, ⟨hf, h2, hk.2⟩⟩

theorem Side.tnot (h : Side C U k vml (.tnot a f)) : Side C U k vml f := by
  obtain ⟨hf, hwf, hk⟩ := h
  cases hwf with
  | tnot _ h1 => exact ⟨hf, h1, hk⟩

end Sides

/-- A comparison is right on terms whose form has at most `n` nodes. -/
def Right (C : AlgSig) (U : Stored.Session)
    (cmp : Nat → List Frame → List Frame → LTerm → LTerm → Except CompExn Unit) (n : Nat) :
    Prop :=
  ∀ k vml₁ vml₂ t₁ t₂, Side C U k vml₁ t₁ → Side C U k vml₂ t₂ →
    (seenIn k vml₁ t₁).nodes ≤ n →
    (cmp k vml₁ vml₂ t₁ t₂ = .ok () ↔ seenIn k vml₁ t₁ = seenIn k vml₂ t₂)

theorem compareNode_of_rank {fl : Flags}
    {cmp : Nat → List Frame → List Frame → LTerm → LTerm → Except CompExn Unit} {k : Nat}
    {vml₁ vml₂ : List Frame} {t1 t2 : LTerm} (h : termRank t1 ≠ termRank t2) :
    compareNode fl cmp k vml₁ vml₂ t1 t2 = compRaise (compare (termRank t1) (termRank t2)) := by
  cases t1 <;> cases t2 <;> first | rfl | exact absurd rfl h

theorem rank_seenIn {k : Nat} {vml : List Frame} (h : ∀ a v, t = .tvar a v → vml = []) :
    (seenIn k vml t).rank = termRank t + 1 := by
  cases t with
  | tvar a v =>
    rw [h a v rfl]
    rfl
  | _ => rfl

section Right

variable {cmp : Nat → List Frame → List Frame → LTerm → LTerm → Except CompExn Unit} {n : Nat}
  {k : Nat} {vml₁ vml₂ : List Frame} (hcmp : Right C U cmp n)

include hcmp

theorem Right.list {tl1 tl2 : List LTerm} (h1 : ∀ t ∈ tl1, Side C U k vml₁ t)
    (h2 : ∀ t ∈ tl2, Side C U k vml₂ t) (hn : VTerm.nodesList (tl1.map (seenIn k vml₁)) ≤ n) :
    (compareList cmp k vml₁ vml₂ tl1 tl2 = .ok () ↔
      tl1.map (seenIn k vml₁) = tl2.map (seenIn k vml₂)) ∧
    (comparePats cmp k vml₁ vml₂ tl1 tl2 = .ok () ↔
      tl1.map (seenIn k vml₁) = tl2.map (seenIn k vml₂)) := by
  induction tl1 generalizing tl2 with
  | nil => cases tl2 <;> simp [compareList, comparePats]
  | cons t1 tl1 ih =>
    cases tl2 with
    | nil => simp [compareList, comparePats]
    | cons t2 tl2 =>
      rw [forall_mem_cons] at h1 h2
      rw [map_cons, VTerm.nodesList] at hn
      have ht := hcmp k vml₁ vml₂ t1 t2 h1.1 h2.1 (by omega)
      obtain ⟨hl, hp⟩ := ih h1.2 h2.2 (by omega)
      rw [compareList, comparePats, bind_eq_ok_unit, bind_eq_ok_unit, ht, hl, hp,
        map_cons, map_cons, cons.injEq]
      exact ⟨Iff.rfl, Iff.rfl⟩

/-- The bodies of two bindings whose symbols have been numbered. -/
theorem Right.body {b1 b2 : BindInfo LTerm} {e1 e2 : LTerm} (h1 : BodySide C U k vml₁ vl1 b1 e1)
    (h2 : BodySide C U k vml₂ vl2 b2 e2) (hlen : vl1.length = vl2.length)
    (hn : (bodyIn k vml₁ vl1 b1 e1).nodes ≤ n) :
    cmp (k + vl1.length) (((addLevels k [] vl1).2, b1.bvSubst) :: vml₁)
        (((addLevels k [] vl2).2, b2.bvSubst) :: vml₂) e1 e2 = .ok () ↔
      bodyIn k vml₁ vl1 b1 e1 = bodyIn k vml₂ vl2 b2 e2 := by
  rw [BodySide, ← hlen] at h2
  rw [bodyIn, bodyIn, ← hlen]
  exact hcmp _ _ _ e1 e2 h1 h2 hn

theorem Right.trigger {b1 b2 : BindInfo LTerm} {tr1 tr2 : List (List LTerm)}
    (h1 : ∀ l ∈ tr1, ∀ t ∈ l, BodySide C U k vml₁ vl1 b1 t)
    (h2 : ∀ l ∈ tr2, ∀ t ∈ l, BodySide C U k vml₂ vl2 b2 t) (hlen : vl1.length = vl2.length)
    (hn : VTerm.nodesTrigger (tr1.map (·.map (bodyIn k vml₁ vl1 b1))) ≤ n) :
    compareTrigger cmp (k + vl1.length) (((addLevels k [] vl1).2, b1.bvSubst) :: vml₁)
        (((addLevels k [] vl2).2, b2.bvSubst) :: vml₂) tr1 tr2 = .ok () ↔
      tr1.map (·.map (bodyIn k vml₁ vl1 b1)) = tr2.map (·.map (bodyIn k vml₂ vl2 b2)) := by
  induction tr1 generalizing tr2 with
  | nil => cases tr2 <;> simp [compareTrigger]
  | cons l1 tr1 ih =>
    cases tr2 with
    | nil => simp [compareTrigger]
    | cons l2 tr2 =>
      rw [forall_mem_cons] at h1 h2
      rw [map_cons, VTerm.nodesTrigger] at hn
      have hl2 := h2.1
      simp only [BodySide, ← hlen] at hl2
      have hl := (hcmp.list h1.1 hl2 (by change VTerm.nodesList (l1.map (bodyIn k vml₁ vl1 b1)) ≤ n; omega)).2
      rw [compareTrigger, bind_eq_ok_unit, ih h1.2 h2.2 (by omega), hl, map_cons,
        map_cons, cons.injEq]
      have hbody : seenIn (k + vl1.length) (((addLevels k [] vl2).2, b2.bvSubst) :: vml₂) =
          bodyIn k vml₂ vl2 b2 := by
        funext e
        rw [bodyIn, hlen]
      rw [hbody]
      rfl

theorem Right.branches {bl1 bl2 : List TermBranch}
    (h1 : ∀ x ∈ bl1, PatOf C U x.1 ∧ BodySide C U k vml₁ (patVars x.1) x.2.1 x.2.2)
    (h2 : ∀ x ∈ bl2, PatOf C U x.1 ∧ BodySide C U k vml₂ (patVars x.1) x.2.1 x.2.2)
    (hn : VTerm.nodesBranches (bl1.map (branchIn k vml₁)) ≤ n) :
    compareBranches cmp k vml₁ vml₂ bl1 bl2 = .ok () ↔
      bl1.map (branchIn k vml₁) = bl2.map (branchIn k vml₂) := by
  induction bl1 generalizing bl2 with
  | nil => cases bl2 <;> simp [compareBranches]
  | cons x1 bl1 ih =>
    cases bl2 with
    | nil => simp [compareBranches]
    | cons x2 bl2 =>
      obtain ⟨⟨hp1, he1⟩, h1⟩ := forall_mem_cons.mp h1
      obtain ⟨⟨hp2, he2⟩, h2⟩ := forall_mem_cons.mp h2
      rw [map_cons, branchIn, VTerm.nodesBranches] at hn
      have hbl := ih h1 h2 (by omega)
      rw [compareBranches, map_cons, map_cons, cons.injEq, branchIn, branchIn, Prod.mk.injEq, ← hbl]
      cases patCompare_cases hp1 hp2 k with
      | inl h =>
        obtain ⟨hp, hlen, hst⟩ := h
        have hbody := hcmp.body he1 he2 hlen (by omega)
        rw [hst, ← hbody]
        change (cmp _ _ _ _ _ >>= fun _ => compareBranches cmp k vml₁ vml₂ bl1 bl2) = _ ↔ _
        rw [bind_eq_ok_unit]
        exact ⟨fun h => ⟨⟨hp, h.1⟩, h.2⟩, fun h => ⟨h.1.2, h.2⟩⟩
      | inr h =>
        obtain ⟨hne, e, he⟩ := h
        rw [he]
        exact iff_of_false nofun fun h => hne h.1.1

/-- Two nodes of the same type, when the comparison is right on their parts. -/
theorem Right.node {t1 t2 : LTerm} (h1 : Side C U k vml₁ t1) (h2 : Side C U k vml₂ t2)
    (hv1 : ∀ a v, t1 = .tvar a v → vml₁ = []) (hv2 : ∀ a v, t2 = .tvar a v → vml₂ = [])
    (hn : (seenIn k vml₁ t1).nodes ≤ n + 1)
    (hty : (seenIn k vml₁ t1).tTy = (seenIn k vml₂ t2).tTy) :
    compareNode ⟨true, true, true⟩ cmp k vml₁ vml₂ t1 t2 = .ok () ↔
      (seenIn k vml₁ t1).setAnn .plain = (seenIn k vml₂ t2).setAnn .plain := by
  by_cases hrank : termRank t1 = termRank t2
  swap
  · rw [compareNode_of_rank hrank, compRaise_eq_ok, compare_eq_iff_eq]
    refine iff_of_false hrank fun he => hrank ?_
    have he := congrArg VTerm.rank he
    rw [VTerm.rank_setAnn, VTerm.rank_setAnn, rank_seenIn hv1, rank_seenIn hv2] at he
    exact Nat.succ.inj he
  cases t1 with
  | tvar a1 v1 =>
    cases t2 with
    | tvar a2 v2 =>
      cases hv1 a1 v1 rfl
      cases hv2 a2 v2 rfl
      have hk1 : U.vs v1 := h1.known v1 mem_cons_self
      have hk2 : U.vs v2 := h2.known v2 mem_cons_self
      rw [compareNode, compRaise_eq_ok, vsCompare_eq_iff hk1 hk2]
      simp [seenIn, view, frameEnv, VTerm.setAnn]
    | _ => cases hrank
  | tconst a1 c1 ty1 =>
    cases t2 with
    | tconst a2 c2 ty2 =>
      have hty : ty1 = ty2 := Option.some.inj hty
      rw [compareNode, compareConst_eq_ok_iff]
      simp [seenIn, view, VTerm.setAnn, hty]
    | _ => cases hrank
  | tapp a1 ls1 tl1 ty1 =>
    cases t2 with
    | tapp a2 ls2 tl2 ty2 =>
      obtain ⟨hls1, htl1⟩ := h1.tapp
      obtain ⟨hls2, htl2⟩ := h2.tapp
      rw [seenIn_tapp] at hn hty ⊢
      rw [seenIn_tapp] at hty ⊢
      rw [VTerm.nodes] at hn
      have hty : ty1 = ty2 := hty
      rw [compareNode, bind_eq_ok_unit, compRaise_eq_ok, lsCompare_eq_iff hls1 hls2,
        (hcmp.list htl1 htl2 (by omega)).1]
      simp [VTerm.setAnn, hty]
    | _ => cases hrank
  | tif a1 f1 t1 e1 =>
    cases t2 with
    | tif a2 f2 t2 e2 =>
      obtain ⟨hf1, ht1, he1⟩ := h1.tif
      obtain ⟨hf2, ht2, he2⟩ := h2.tif
      rw [seenIn_tif, VTerm.nodes] at hn
      rw [compareNode, bind_eq_ok_unit, bind_eq_ok_unit, hcmp _ _ _ _ _ hf1 hf2 (by omega),
        hcmp _ _ _ _ _ ht1 ht2 (by omega), hcmp _ _ _ _ _ he1 he2 (by omega), seenIn_tif,
        seenIn_tif]
      simp [VTerm.setAnn]
    | _ => cases hrank
  | tlet a1 t1 v1 b1 e1 =>
    cases t2 with
    | tlet a2 t2 v2 b2 e2 =>
      obtain ⟨ht1, he1⟩ := h1.tlet
      obtain ⟨ht2, he2⟩ := h2.tlet
      rw [seenIn_tlet, VTerm.nodes] at hn
      have hbody := hcmp.body he1 he2 rfl (by omega)
      rw [compareNode, bind_eq_ok_unit, hcmp _ _ _ _ _ ht1 ht2 (by omega), seenIn_tlet, seenIn_tlet]
      refine (and_congr_right' hbody).trans ?_
      simp [VTerm.setAnn]
    | _ => cases hrank
  | tcase a1 t1 bl1 =>
    cases t2 with
    | tcase a2 t2 bl2 =>
      obtain ⟨ht1, hb1⟩ := h1.tcase
      obtain ⟨ht2, hb2⟩ := h2.tcase
      rw [seenIn_tcase, VTerm.nodes] at hn
      rw [compareNode, bind_eq_ok_unit, hcmp _ _ _ _ _ ht1 ht2 (by omega),
        hcmp.branches hb1 hb2 (by omega), seenIn_tcase, seenIn_tcase]
      simp [VTerm.setAnn]
    | _ => cases hrank
  | teps a1 v1 b1 f1 =>
    cases t2 with
    | teps a2 v2 b2 f2 =>
      rw [seenIn_teps, VTerm.nodes] at hn
      have hty : v1.vsTy = v2.vsTy := Option.some.inj hty
      have hbody := hcmp.body h1.teps h2.teps rfl (by omega)
      rw [seenIn_teps, seenIn_teps]
      refine hbody.trans ?_
      simp [VTerm.setAnn, hty]
    | _ => cases hrank
  | tquant a1 q1 vl1 b1 tr1 f1 =>
    cases t2 with
    | tquant a2 q2 vl2 b2 tr2 f2 =>
      obtain ⟨htr1, hf1⟩ := h1.tquant
      obtain ⟨htr2, hf2⟩ := h2.tquant
      rw [seenIn_tquant, VTerm.nodes] at hn
      rw [compareNode, bind_eq_ok_unit, compRaise_eq_ok, compare_eq_iff_eq,
        Except.bind_eq_ok, seenIn_tquant, seenIn_tquant]
      simp only [addVars_eq_ok_iff, if_true, bind_eq_ok_unit, VTerm.setAnn,
        VTerm.tquant.injEq, true_and]
      constructor
      · rintro ⟨hq, st, ⟨hlen, rfl⟩, htr, hf⟩
        exact ⟨Stored.quantRank_inj hq, hlen, (hcmp.trigger htr1 htr2 hlen (by omega)).mp htr,
          (hcmp.body hf1 hf2 hlen (by omega)).mp hf⟩
      · rintro ⟨rfl, hlen, htr, hf⟩
        exact ⟨rfl, _, ⟨hlen, rfl⟩, (hcmp.trigger htr1 htr2 hlen (by omega)).mpr htr,
          (hcmp.body hf1 hf2 hlen (by omega)).mpr hf⟩
    | _ => cases hrank
  | tbinop a1 op1 f1 g1 =>
    cases t2 with
    | tbinop a2 op2 f2 g2 =>
      obtain ⟨hf1, hg1⟩ := h1.tbinop
      obtain ⟨hf2, hg2⟩ := h2.tbinop
      rw [seenIn_tbinop, VTerm.nodes] at hn
      rw [compareNode, bind_eq_ok_unit, bind_eq_ok_unit, compRaise_eq_ok, compare_eq_iff_eq,
        hcmp _ _ _ _ _ hg1 hg2 (by omega), hcmp _ _ _ _ _ hf1 hf2 (by omega),
        seenIn_tbinop, seenIn_tbinop]
      simp only [VTerm.setAnn, VTerm.tbinop.injEq, true_and]
      exact ⟨fun h => ⟨Stored.binopRank_inj h.1, h.2.2, h.2.1⟩,
        fun h => ⟨congrArg _ h.1, h.2.2, h.2.1⟩⟩
    | _ => cases hrank
  | tnot a1 f1 =>
    cases t2 with
    | tnot a2 f2 =>
      rw [seenIn_tnot, VTerm.nodes] at hn
      rw [compareNode, hcmp _ _ _ _ _ h1.tnot h2.tnot (by omega), seenIn_tnot, seenIn_tnot]
      simp [VTerm.setAnn]
    | _ => cases hrank
  | ttrue a1 =>
    cases t2 with
    | ttrue a2 => exact iff_of_true rfl rfl
    | _ => cases hrank
  | tfalse a1 =>
    cases t2 with
    | tfalse a2 => exact iff_of_true rfl rfl
    | _ => cases hrank

end Right

/-- With enough fuel the comparison finds two terms equal if and only if their forms are. -/
theorem tCompareRec_right {phys : LTerm → LTerm → Bool}
    (hphys : ∀ s t, phys s t = true → s = t) {attrTag : String → Nat}
    (htag : Function.Injective attrTag) (n : Nat) :
    Right C U (tCompareRec ⟨true, true, true⟩ phys U.tyTag attrTag n) n := by
  induction n with
  | zero =>
    intro k vml₁ vml₂ t1 t2 _ _ hn
    have := (seenIn k vml₁ t1).nodes_pos
    omega
  | succ n ih =>
    intro k vml₁ vml₂ t1 t2 h1 h2 hn
    rw [tCompareRec]
    split
    next hshared =>
      simp only [Bool.and_eq_true, List.isEmpty_iff] at hshared
      obtain ⟨⟨hp, rfl⟩, rfl⟩ := hshared
      exact iff_of_true rfl (by rw [hphys t1 t2 hp])
    next =>
      have hty1 := h1.frames.tTy_seenIn h1.wf k
      have hty2 := h2.frames.tTy_seenIn h2.wf k
      simp only [if_true, bind_eq_ok_unit, compRaise_eq_ok, attrsCompare_eq_iff htag,
        locCompare_eq_iff, otyCompare_eq_iff (U := U) (fun _ => h1.wf.ty_mem)
          (fun _ => h2.wf.ty_mem)]
      rw [← and_assoc (a := (ann t1).attrs = _), ← Ann.eq_iff, ← hty1, ← hty2]
      rcases descend_cases h1.frames h1.wf with
        ⟨i1, ty1, hd1, hi1⟩ | ⟨t1', vml1', hd1, hf1, hw1, hi1, hv1⟩
      · rcases descend_cases h2.frames h2.wf with
          ⟨i2, ty2, hd2, hi2⟩ | ⟨t2', vml2', hd2, hf2, hw2, hi2, hv2⟩
        · rw [hd1, hd2, hi1, hi2]
          simp only [compRaise_eq_ok, compare_eq_iff_eq, VTerm.tTy, VTerm.bnd.injEq,
            Option.some.injEq]
          tauto
        · rw [hd1, hd2]
          refine iff_of_false (fun h => nomatch h.2.2) fun h => ?_
          rw [hi1, hi2] at h
          have hrank := congrArg VTerm.rank h
          rw [VTerm.rank_setAnn, rank_seenIn hv2] at hrank
          cases hrank
      · rcases descend_cases h2.frames h2.wf with
          ⟨i2, ty2, hd2, hi2⟩ | ⟨t2', vml2', hd2, hf2, hw2, hi2, hv2⟩
        · rw [hd1, hd2]
          refine iff_of_false (fun h => nomatch h.2.2) fun h => ?_
          rw [hi1, hi2] at h
          have hrank := congrArg VTerm.rank h
          rw [VTerm.rank_setAnn, rank_seenIn hv1] at hrank
          cases hrank
        · have hk1 := h1.known
          have hk2 := h2.known
          rw [hi1, VTerm.vars_setAnn] at hk1
          rw [hi2, VTerm.vars_setAnn] at hk2
          rw [hi1, VTerm.nodes_setAnn] at hn
          rw [hd1, hd2, hi1, hi2, VTerm.tTy_setAnn, VTerm.tTy_setAnn, VTerm.setAnn_eq_iff]
          have hnode := ih.node ⟨hf1, hw1, hk1⟩ ⟨hf2, hw2, hk2⟩ hv1 hv2 hn
          constructor
          · rintro ⟨hty, ha, hr⟩
            exact ⟨ha, (hnode hty).mp hr⟩
          · rintro ⟨ha, hr⟩
            have hty := congrArg VTerm.tTy hr
            rw [VTerm.tTy_setAnn, VTerm.tTy_setAnn] at hty
            exact ⟨hty, ha, (hnode hty).mpr hr⟩

end Located
end Why3
