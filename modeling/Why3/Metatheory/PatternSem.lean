import Why3.Metatheory.PatternRows
import Why3.Metatheory.TyMatch

/-!
The first-match meaning of the rows of a pattern matrix.

The rows are tried in order on the values of the matched terms; the first that
matches binds its variables and gives the meaning of its action. A row means
what the choices at its head mean in order, and the rows that `dispatch` makes
below a constructor, or below none, have the meaning of the matrix on the values
that the constructor builds, or that no constructor of the column builds.
-/
namespace Why3

open List
open Function (update update_of_ne update_self)

/-! The types of constructors. -/

variable {vl : List TvSymbol} {tl : List Ty} {ty : Ty}

theorem lookup_zip_map_self (f : TvSymbol → Ty) {w : TvSymbol}
    (hw : w ∈ vl) : (vl.zip (vl.map f)).lookup w = some (f w) := by
  induction vl with
  | nil => cases hw
  | cons v vl ih =>
    rw [map_cons, zip_cons_cons, lookup_cons]
    by_cases h : w = v
    · subst h
      simp
    · rw [beq_eq_false_iff_ne.mpr h]
      exact ih ((mem_cons.mp hw).resolve_left h)

theorem map_tyInst_zip (hnd : vl.Nodup) (hlen : tl.length = vl.length) :
    (vl.map Ty.tyvar).map (tyInst (vl.zip tl)) = tl := by
  apply ext_getElem
  · simp [hlen]
  · intro i hi hi'
    have hv : i < vl.length := by omega
    have hmem : (vl.get ⟨i, hv⟩, tl.get ⟨i, hi'⟩) ∈ vl.zip tl := by
      rw [mem_iff_getElem]
      exact ⟨i, by simp; omega, by simp⟩
    have hkeys : ((vl.zip tl).map Prod.fst).Nodup := by
      rw [map_fst_zip hlen.ge]
      exact hnd
    have := AssocList.lookup_of_mem hkeys hmem
    simp only [get_eq_getElem] at this
    simp only [getElem_map, tyInst_tyvar, this, Option.getD_some]

section

variable {C : AlgSig} {ts : TySymbol} {cs : LSymbol}

theorem constr_value (hcs : cs ∈ C.constrs ts) (hlen : tl.length = ts.tsArgs.length) :
    cs.lsValue.map (tyInst (tsMatchArgs ts tl)) = some (.tyapp ts tl) := by
  rw [C.value hcs, Option.map_some, tyInst_tyapp, tsMatchArgs, map_tyInst_zip (C.vars hcs) hlen]

/-- The argument types do not depend on the substitution that gives the value type. -/
theorem constrArgTys_tyInst {s : TySubst} (hcs : cs ∈ C.constrs ts)
    (hty : cs.lsValue.map (tyInst s) = some ty) :
    (∃ tl, ty = .tyapp ts tl ∧ tl.length = ts.tsArgs.length) ∧
      constrArgTys cs ty = cs.lsArgs.map (tyInst s) := by
  rw [C.value hcs, Option.map_some, Option.some.injEq, tyInst_tyapp, map_map] at hty
  subst hty
  refine ⟨⟨_, rfl, by simp⟩, ?_⟩
  apply map_congr_left
  intro a ha
  apply tyInst_congr
  intro v hv
  rw [tyInst_tyvar, tsMatchArgs, lookup_zip_map_self _ (C.params hcs ha v hv)]
  rfl

theorem Interp.fn_constr_dom {D : Type} (I : Interp C D) {args : List D} (hcs : cs ∈ C.constrs ts)
    (hlen : tl.length = ts.tsArgs.length)
    (h : List.Forall₂ I.dom (constrArgTys cs (.tyapp ts tl)) args) :
    I.dom (.tyapp ts tl) (I.fn cs (.tyapp ts tl) args) :=
  I.fn_dom _ (constr_value hcs hlen) h

end

/-- Matching the declared type of a symbol gives the types of the arguments of its
constructors. -/
theorem tyMatch_constrArgTys {C : AlgSig} {ts : TySymbol} {c0 : LSymbol} (hc0 : c0 ∈ C.constrs ts)
    (hlen : tl.length = ts.tsArgs.length) :
    ∃ s, tyMatch [] (.tyapp ts (ts.tsArgs.map .tyvar)) (.tyapp ts tl) = some s ∧
      ∀ c ∈ C.constrs ts, c.lsArgs.map (tyInst s) = constrArgTys c (.tyapp ts tl) := by
  have hinst : TySubst.InstTo (ts.tsArgs.zip tl) (.tyapp ts (ts.tsArgs.map .tyvar))
      (.tyapp ts tl) := by
    refine ⟨fun v hv => ?_, by rw [tyInst_tyapp, map_tyInst_zip (C.vars hc0) hlen]⟩
    rw [AssocList.lookup_isSome_iff, map_fst_zip hlen.ge]
    simpa [tyFreevars] using hv
  obtain ⟨s, hm, -⟩ := (TySubst.tyMatch_iff _ _ []).mp ⟨TySubst.extends_nil _, hinst⟩
  obtain ⟨-, -, hs⟩ := (TySubst.tyMatch_iff _ _ []).mpr ⟨s, hm, .refl s⟩
  refine ⟨s, hm, fun c hc => (constrArgTys_tyInst hc ?_).2.symm⟩
  rw [C.value hc, Option.map_some, hs]

/-- The patterns that the compilation makes: distinct constructors applied to
variables, then a catch-all for the constructors that are left, if there are. -/
def CompiledForm (C : AlgSig) (ty : Ty) (pl : List Pattern) : Prop :=
  ∃ ts tl, ty = .tyapp ts tl ∧ tl.length = ts.tsArgs.length ∧
    ∃ (cvl : List (LSymbol × List VSymbol)) (w : Bool),
      pl = cvl.map (fun c => Pattern.papp c.1 (c.2.map .pvar) ty) ++
        (if w then [Pattern.pwild ty] else []) ∧
      (cvl.map Prod.fst).Nodup ∧
      (∀ c ∈ cvl, c.1 ∈ C.constrs ts ∧ c.2.map VSymbol.vsTy = constrArgTys c.1 ty ∧ c.2.Nodup) ∧
      (w = true → ∃ cs ∈ C.constrs ts, cs ∉ cvl.map Prod.fst) ∧
      (w = false → cvl ≠ [] ∧ ∀ cs ∈ C.constrs ts, cs ∈ cvl.map Prod.fst)

namespace Interp

variable {C : AlgSig} {D : Type} {I : Interp C D}

/-! Matching lists of patterns. -/

variable {l pl : List Pattern} {xs ds : List D} {d : D}

theorem patsOk_append {m : List Pattern} {ys : List D} (h : l.length = xs.length) :
    I.patsOk (l ++ m) (xs ++ ys) = (I.patsOk l xs && I.patsOk m ys) := by
  induction l, xs, h using ListRec.induct₂ with
  | nil => simp [patsOk]
  | cons p l x xs h ih => rw [cons_append, cons_append, patsOk, patsOk, ih, Bool.and_assoc]

theorem patsGet_append {m : List Pattern} {ys : List D} (h : l.length = xs.length) (v : VSymbol) :
    I.patsGet (l ++ m) (xs ++ ys) v = (I.patsGet l xs v).or (I.patsGet m ys v) := by
  induction l, xs, h using ListRec.induct₂ with
  | nil => simp [patsGet]
  | cons p l x xs h ih => rw [cons_append, cons_append, patsGet, patsGet, ih, Option.or_assoc]

theorem patsOk_reverse (h : l.length = xs.length) :
    I.patsOk l.reverse xs.reverse = I.patsOk l xs := by
  induction l, xs, h using ListRec.induct₂ with
  | nil => rfl
  | cons p l x xs h ih =>
    rw [reverse_cons, reverse_cons, patsOk_append (by simpa using h), ih]
    simp [patsOk, Bool.and_comm]

theorem patsGet_of_notMem (hl : ∀ p ∈ l, PatTyped C p) {v : VSymbol} (hv : v ∉ l.flatMap patVars)
    (xs : List D) : I.patsGet l xs v = none := by
  apply patsGet_none
  intro p hp d
  apply patGet_of_notMem p (hl p hp)
  exact fun h => hv (mem_flatMap.mpr ⟨p, hp, h⟩)

/-- No variable is bound twice, so the order of the patterns does not matter. -/
theorem patsGet_reverse (h : l.length = xs.length) (hl : ∀ p ∈ l, PatTyped C p)
    (hnd : (l.flatMap patVars).Nodup) (v : VSymbol) :
    I.patsGet l.reverse xs.reverse v = I.patsGet l xs v := by
  induction l, xs, h using ListRec.induct₂ with
  | nil => rfl
  | cons p l x xs h ih =>
    have htl : ∀ p ∈ l, PatTyped C p := fun q hq => hl q (mem_cons_of_mem p hq)
    rw [flatMap_cons, nodup_append] at hnd
    rw [reverse_cons, reverse_cons, patsGet_append (by simpa using h), ih htl hnd.2.1]
    have hone : I.patsGet [p] [x] v = I.patGet p x v := by
      simp [patsGet]
    rw [hone, patsGet]
    by_cases hp : v ∈ patVars p
    · rw [patsGet_of_notMem htl fun hm => hnd.2.2 v hp v hm rfl]
      simp
    · rw [patGet_of_notMem p (hl p mem_cons_self) hp]
      simp

/-- The environment with the variables of the patterns bound. -/
def bindPats (I : Interp C D) (pl : List Pattern) (ds : List D) (ρ : VSymbol → D)
    (v : VSymbol) : D :=
  (I.patsGet pl ds v).getD (ρ v)

theorem bindPats_of_notMem (hpl : ∀ p ∈ pl, PatTyped C p) {v : VSymbol}
    (hv : v ∉ pl.flatMap patVars) (ds : List D) (ρ : VSymbol → D) : I.bindPats pl ds ρ v = ρ v := by
  rw [bindPats, patsGet_of_notMem hpl hv, Option.getD_none]

theorem bindPats_pwild (ty : Ty) (pl : List Pattern) (d : D) (ds : List D) (ρ : VSymbol → D) :
    I.bindPats (.pwild ty :: pl) (d :: ds) ρ = I.bindPats pl ds ρ := by
  funext v
  rw [bindPats, patsGet, patGet, Option.none_or, bindPats]

theorem bindPats_pvar (x : VSymbol) (pl : List Pattern) (d : D) (ds : List D) (ρ : VSymbol → D) :
    I.bindPats (.pvar x :: pl) (d :: ds) ρ = update (I.bindPats pl ds ρ) x d := by
  funext v
  rw [bindPats, patsGet, patGet]
  by_cases h : v = x
  · subst h
    simp
  · rw [if_neg h, Option.none_or, update_of_ne h, bindPats]

theorem bindPats_pas (p : Pattern) (x : VSymbol) (pl : List Pattern) (d : D) (ds : List D)
    (ρ : VSymbol → D) : I.bindPats (.pas p x :: pl) (d :: ds) ρ =
      update (I.bindPats (p :: pl) (d :: ds) ρ) x d := by
  funext v
  rw [bindPats, patsGet, patGet]
  by_cases h : v = x
  · subst h
    simp
  · rw [if_neg h, update_of_ne h, bindPats, patsGet]

theorem bindPats_por (p q : Pattern) (pl : List Pattern) (d : D) (ds : List D) (ρ : VSymbol → D) :
    I.bindPats (.por p q :: pl) (d :: ds) ρ =
      if I.patOk p d = true then I.bindPats (p :: pl) (d :: ds) ρ
      else I.bindPats (q :: pl) (d :: ds) ρ := by
  by_cases h : I.patOk p d = true
  · funext v
    simp only [if_pos h, bindPats, patsGet, patGet]
  · funext v
    simp only [if_neg h, bindPats, patsGet, patGet]

theorem bindPats_papp {fs : LSymbol} {pl' : List Pattern} {args : List D}
    (hd : I.destr fs d = some args) (hlen : pl'.length = args.length) (ρ : VSymbol → D) :
    I.bindPats (.papp fs pl' ty :: pl) (d :: ds) ρ = I.bindPats (pl' ++ pl) (args ++ ds) ρ := by
  funext v
  simp only [bindPats, patsGet, patGet, hd, patsGet_append hlen]

theorem bindPats_pwilds_append {tyl : List Ty} {args : List D} (h : tyl.length = args.length)
    (pl : List Pattern) (ds : List D) (ρ : VSymbol → D) :
    I.bindPats (tyl.map Pattern.pwild ++ pl) (args ++ ds) ρ = I.bindPats pl ds ρ := by
  funext v
  have hnone : I.patsGet (tyl.map Pattern.pwild) args v = none :=
    patsGet_none (forall_mem_map.mpr fun _ _ _ => rfl) args
  rw [bindPats, patsGet_append (by simpa using h), hnone, Option.none_or, bindPats]

theorem patsOk_of_all (h : l.length = xs.length) (hok : ∀ p ∈ l, ∀ d, I.patOk p d = true) :
    I.patsOk l xs = true := by
  induction l, xs, h using ListRec.induct₂ with
  | nil => rfl
  | cons p l x xs h ih =>
    rw [forall_mem_cons] at hok
    rw [patsOk, hok.1 x, ih hok.2, Bool.true_and]

theorem patsOk_pwilds {tyl : List Ty} {args : List D} (h : tyl.length = args.length) :
    I.patsOk (tyl.map Pattern.pwild) args = true :=
  patsOk_of_all (by simpa using h) (by simp [patOk])

theorem bindPats_nil (ds : List D) (ρ : VSymbol → D) : I.bindPats [] ds ρ = ρ := by
  funext v
  simp [bindPats, patsGet]

/-- Distinct variables are bound to the values at their positions. -/
theorem map_bindPats_pvar {vl : List VSymbol} {args : List D} (hnd : vl.Nodup)
    (hlen : vl.length = args.length) (ρ : VSymbol → D) :
    vl.map (I.bindPats (vl.map .pvar) args ρ) = args := by
  induction vl, args, hlen using ListRec.induct₂ with
  | nil => rfl
  | cons v vl d args hlen ih =>
    rw [nodup_cons] at hnd
    have hcons : (v :: vl).map Pattern.pvar = .pvar v :: vl.map .pvar := rfl
    rw [hcons, bindPats_pvar, map_cons, update_self]
    have hmap : vl.map (update (I.bindPats (vl.map .pvar) args ρ) v d) =
        vl.map (I.bindPats (vl.map .pvar) args ρ) := by
      apply map_congr_left
      intro u hu
      have hne : u ≠ v := fun he => hnd.1 (he ▸ hu)
      rw [update_of_ne hne]
    rw [hmap, ih hnd.2]

theorem patsOk_pvars {vl : List VSymbol} {args : List D} (h : vl.length = args.length) :
    I.patsOk (vl.map .pvar) args = true :=
  patsOk_of_all (by simpa using h) (by simp [patOk])

theorem typedEnv_update {ρ : VSymbol → D} (hρ : I.TypedEnv ρ) {x : VSymbol}
    (hd : I.dom x.vsTy d) : I.TypedEnv (update ρ x d) := by
  intro v
  by_cases h : v = x
  · subst h
    rwa [update_self]
  · rw [update_of_ne h]
    exact hρ v

theorem typedEnv_bindPats {ρ : VSymbol → D} (hρ : I.TypedEnv ρ) (hpl : ∀ p ∈ pl, PatTyped C p)
    (hds : List.Forall₂ I.dom (pl.map patTy) ds)
    (hok : I.patsOk pl ds = true) : I.TypedEnv (I.bindPats pl ds ρ) := by
  intro v
  by_cases hv : v ∈ pl.flatMap patVars
  · obtain ⟨x, hx, hdom⟩ :=
      patsGet_typed hpl (fun p hp => patGet_typed p (hpl p hp)) ds hds hok hv
    rwa [bindPats, hx]
  · rw [bindPats_of_notMem hpl hv]
    exact hρ v

/-! The meaning of rows. -/

section Rows

variable {α S : Type} (asem : (VSymbol → D) → α → S) (ρ : VSymbol → D)

def rowSem (I : Interp C D) (ds : List D) (r : Row α) : Option S :=
  if I.patsOk r.1 ds then some (asem (I.bindPats r.1 ds ρ) r.2) else none

/-- The first row that matches. -/
def rowsSem (I : Interp C D) (ds : List D) (rl : List (Row α)) : Option S :=
  rl.findSome? (I.rowSem asem ρ ds)

/-- The meaning of a choice at the head of a row. -/
def headSem (I : Interp C D) (d : D) (ds : List D) (pl : List Pattern) (h : Head α) : Option S :=
  match h.1 with
  | none => I.rowSem asem ρ ds (pl, h.2)
  | some (fs, pl') => (I.destr fs d).bind fun args => I.rowSem asem ρ (args ++ ds) (pl' ++ pl, h.2)

variable {asem ρ}

theorem rowsSem_isSome {rl : List (Row α)} :
    (I.rowsSem asem ρ ds rl).isSome = true ↔ ∃ r ∈ rl, I.patsOk r.1 ds = true := by
  rw [rowsSem, findSome?_isSome_iff]
  simp only [rowSem]
  constructor
  · intro ⟨r, hr, h⟩
    refine ⟨r, hr, ?_⟩
    by_contra hn
    rw [if_neg hn] at h
    cases h
  · intro ⟨r, hr, h⟩
    exact ⟨r, hr, by rw [if_pos h]; rfl⟩

/-- No row matches the values. -/
def Unmatched (I : Interp C D) (ds : List D) (rl : List (Row α)) : Prop :=
  ∀ r ∈ rl, I.patsOk r.1 ds = false

theorem unmatched_iff (asem : (VSymbol → D) → α → S) (ρ : VSymbol → D)
    {rl : List (Row α)} : I.Unmatched ds rl ↔ I.rowsSem asem ρ ds rl = none := by
  rw [← Option.not_isSome_iff_eq_none, rowsSem_isSome, Unmatched]
  simp

/-- A row means what the choices at its head mean, in order. -/
theorem rowSem_heads {mkLet : VSymbol → Term → α → α} {t : Term} {W : Set VSymbol} (hd : I.dom ty d)
    (hlet : ∀ {ρ' x a}, x.vsTy = ty → (∀ v ∈ W, ρ' v = ρ v) →
      asem ρ' (mkLet x t a) = asem (update ρ' x d) a) (ds : List D)
    (hpl : ∀ p ∈ pl, PatTyped C p) (hplW : ∀ v ∈ pl.flatMap patVars, v ∉ W) (p : Pattern) :
    PatTyped C p → patTy p = ty → (∀ v ∈ patVars p, v ∉ W) → ∀ a : α,
      I.rowSem asem ρ (d :: ds) (p :: pl, a) =
        (heads mkLet t p a).findSome? (I.headSem asem ρ d ds pl) := by
  induction p using Pattern.induct with
  | pwild ty' =>
    intro _ _ _ a
    simp only [rowSem, heads, headSem, patsOk, bindPats_pwild,
      findSome?_cons]
    cases I.patsOk pl ds <;> rfl
  | pvar x =>
    intro _ hty _ a
    have hx : asem (I.bindPats pl ds ρ) (mkLet x t a) =
        asem (update (I.bindPats pl ds ρ) x d) a := by
      apply hlet hty
      exact fun v hv => bindPats_of_notMem hpl (fun h => hplW v h hv) ds ρ
    simp only [rowSem, heads, headSem, patsOk, bindPats_pvar, hx,
      findSome?_cons]
    cases I.patsOk pl ds <;> rfl
  | papp fs pl' ty' ih =>
    intro hp hty _ a
    subst hty
    obtain ⟨⟨ts, tl, rfl, hfs, -⟩, htys, -, -⟩ := hp
    simp only [heads, headSem, findSome?_cons]
    cases hargs : I.destr fs d with
    | none => simp [rowSem, patsOk, patOk, hargs]
    | some args =>
      have hlen : pl'.length = args.length := by
        rw [← (I.fn_destr hfs hd hargs).1.length_eq, ← htys, length_map]
      simp only [rowSem, patsOk, patOk, hargs, bindPats_papp hargs hlen, Option.bind_some,
        patsOk_append hlen]
      cases I.patsOk pl' args && I.patsOk pl ds <;> rfl
  | por p q ihp ihq =>
    rintro ⟨hp, hq, hpq, hvars⟩ hty hW a
    have hW' : ∀ v ∈ patVars q, v ∉ W := fun v hv => hW v ((hvars v).mpr hv)
    rw [heads, findSome?_append, ← ihp hp hty hW a, ← ihq hq (hpq ▸ hty) hW' a]
    simp only [rowSem, patsOk, patOk, bindPats_por]
    by_cases hpd : I.patOk p d = true
    · by_cases hpl : I.patsOk pl ds = true <;> simp [hpd, hpl]
    · simp [hpd]
  | pas p x ih =>
    rintro ⟨hp, hpx, hx⟩ hty hW a
    have hWp : ∀ v ∈ patVars p, v ∉ W := fun v hv => hW v (by simp [patVars, hv])
    rw [heads, ← ih hp (hpx.trans hty) hWp]
    have hall : ∀ q ∈ p :: pl, PatTyped C q := by
      exact forall_mem_cons.mpr ⟨hp, hpl⟩
    have hm : asem (I.bindPats (p :: pl) (d :: ds) ρ) (mkLet x t a) =
        asem (update (I.bindPats (p :: pl) (d :: ds) ρ) x d) a := by
      apply hlet hty
      intro v hv
      apply bindPats_of_notMem hall
      rw [flatMap_cons, mem_append]
      exact fun h => h.elim (fun h => hWp v h hv) (fun h => hplW v h hv)
    simp only [rowSem, patsOk, patOk, bindPats_pas, hm]

end Rows

/-! The rows below a constructor, and below none. -/

section Split

variable {α S : Type} {asem : (VSymbol → D) → α → S} {ρ : VSymbol → D}

theorem rowsSem_splitRows {mkLet : VSymbol → Term → α → α} {t : Term}
    {f : List Pattern → Head α → Option (Row α)} {ds' : List D} {rl : List (Row α)}
    (h : ∀ x ∈ rowHeads mkLet t rl,
      (f x.1 x.2).bind (I.rowSem asem ρ ds') = I.headSem asem ρ d ds x.1 x.2) :
    I.rowsSem asem ρ ds' (splitRows mkLet t f rl) =
      (rowHeads mkLet t rl).findSome? fun x => I.headSem asem ρ d ds x.1 x.2 := by
  rw [rowsSem, splitRows]
  generalize rowHeads mkLet t rl = l at h ⊢
  induction l with
  | nil => rfl
  | cons x l ih =>
    have hx := h x mem_cons_self
    have hl := ih fun y hy => h y (mem_cons_of_mem x hy)
    rw [filterMap_cons, findSome?_cons, ← hx, ← hl]
    cases f x.1 x.2 with
    | none => rfl
    | some r => simp only [findSome?_cons, Option.bind_some]

/-- What a choice must satisfy, as its row below the constructor would. -/
def HeadTyped (C : AlgSig) (ty : Ty) (x : List Pattern × Head α) : Prop :=
  ∀ fs pl', x.2.1 = some (fs, pl') →
    (∃ ts tl, ty = .tyapp ts tl ∧ fs ∈ C.constrs ts ∧ tl.length = ts.tsArgs.length) ∧
      pl'.map patTy = constrArgTys fs ty ∧ (∀ p ∈ pl', PatTyped C p) ∧
      (pl'.flatMap patVars).Nodup

theorem specRow_sem {types : List (LSymbol × List Pattern)} {ts : TySymbol} {cs : LSymbol}
    {ql : List Pattern} {x : List Pattern × Head α} {args : List D}
    (hx : HeadTyped C (.tyapp ts tl) x) (hcs : cs ∈ C.constrs ts) (hd : I.dom (.tyapp ts tl) d)
    (hargs : I.destr cs d = some args) (hql : types.lookup cs = some ql)
    (hlen : ql.length = args.length) :
    (specRow types cs x.1 x.2).bind (I.rowSem asem ρ (args.reverse ++ ds)) =
      I.headSem asem ρ d ds x.1 x.2 := by
  obtain ⟨pl, ⟨_ | ⟨fs, pl'⟩, a⟩⟩ := x
  · have hw : (ql.map fun q => Pattern.pwild (patTy q)).reverse =
        (ql.map patTy).reverse.map Pattern.pwild := by
      rw [map_reverse, map_map]
      rfl
    have hlen' : ((ql.map patTy).reverse).length = args.reverse.length := by simpa using hlen
    simp only [specRow, headSem, hql, Option.map_some, Option.bind_some, rowSem, hw,
      bindPats_pwilds_append hlen', patsOk_append (length_map _ ▸ hlen'),
      patsOk_pwilds hlen', Bool.true_and]
  · obtain ⟨⟨ts', tl', he, hfs, -⟩, htys, hpl', hnd⟩ := hx fs pl' rfl
    cases he
    simp only [specRow, headSem]
    by_cases hf : fs = cs
    · subst hf
      have hl : pl'.length = args.length := by
        rw [← (I.fn_destr hcs hd hargs).1.length_eq, ← htys, length_map]
      have hlr : pl'.reverse.length = args.reverse.length := by simpa using hl
      have hget : I.bindPats (pl'.reverse ++ pl) (args.reverse ++ ds) ρ =
          I.bindPats (pl' ++ pl) (args ++ ds) ρ := by
        funext v
        rw [bindPats, bindPats, patsGet_append hlr, patsGet_append hl, patsGet_reverse hl hpl' hnd]
      simp only [if_true, hargs, Option.bind_some, rowSem, hget, patsOk_append hlr,
        patsOk_reverse hl, patsOk_append hl]
    · have hnone : I.destr fs d = none := by
        cases hn : I.destr fs d with
        | none => rfl
        | some args' => exact absurd (I.disjoint hfs hcs hd hn hargs) hf
      simp only [if_neg hf, hnone, Option.bind_none]

theorem wildRow_sem {x : List Pattern × Head α}
    (hx : ∀ fs pl', x.2.1 = some (fs, pl') → I.destr fs d = none) :
    (wildRow x.1 x.2).bind (I.rowSem asem ρ ds) = I.headSem asem ρ d ds x.1 x.2 := by
  obtain ⟨pl, ⟨_ | ⟨fs, pl'⟩, a⟩⟩ := x
  · rfl
  · simp only [wildRow, headSem, hx fs pl' rfl, Option.bind_none]

end Split

end Interp

end Why3
