import Why3.Library.Except
import Why3.Metatheory.PatternSem

/-!
Correctness of the compilation of pattern matrices.

The compilation of an exhaustive well-typed matrix returns, and the action it
returns has the first-match meaning of the matrix. The actions are those of an
arbitrary `ActionSem`.
-/
namespace Why3

open List

namespace Interp

variable {C : AlgSig} {D : Type} {I : Interp C D}

/-- The meaning of actions, with what the compilation needs to know of `mkCase` and
`mkLet`, and a property of actions that both keep. -/
structure ActionSem {α : Type} (I : Interp C D) (Q : CaseCond) (Γ : List Ty) (β : List D)
    (mkCase : Term → List (Pattern × α) → α) (mkLet : VSymbol → Term → α → α) (S : Type) where
  asem : (VSymbol → D) → α → S
  Good : α → Prop
  sem_mkLet : ∀ {ρ x t a}, WellTyped C Q Γ t → t.tTy = some x.vsTy →
    asem ρ (mkLet x t a) = asem (Function.update ρ x (I.val ρ β t)) a
  good_mkLet : ∀ {x t a}, WellTyped C Q Γ t → t.tTy = some x.vsTy → Good a →
    Good (mkLet x t a)
  sem_mkCase : ∀ {ρ t ty bl}, I.TypedEnv ρ → WellTyped C Q Γ t → t.tTy = some ty →
    CompiledForm C ty (bl.map Prod.fst) →
    some (asem ρ (mkCase t bl)) =
      I.rowsSem asem ρ [I.val ρ β t] (bl.map fun b => ([b.1], b.2))
  good_mkCase : ∀ {t ty bl}, WellTyped C Q Γ t → t.tTy = some ty →
    CompiledForm C ty (bl.map Prod.fst) → (∀ b ∈ bl, Good b.2) → Good (mkCase t bl)

/-- The free symbols are in `W`. -/
def DependsOn (W : Set VSymbol) (t : Term) : Prop := ∀ v ∈ tVars t, v ∈ W

variable {W : Set VSymbol} {t : Term} {ρ ρ' : VSymbol → D} {ty : Ty} {bare : Bool} {cs : LSymbol}
  {css : List LSymbol} {ts : TySymbol} {tyl : List Ty} {types : List (LSymbol × List Pattern)}
  {k : Nat}

theorem DependsOn.val_eq (h : DependsOn W t) {β : List D}
    (he : ∀ v ∈ W, ρ v = ρ' v) : I.val ρ β t = I.val ρ' β t := by
  rw [val, val, sem_congr_env t β fun v hv => he v (h v hv)]

variable {α S : Type} {Q : CaseCond} {Γ : List Ty} {β : List D}
  {mkCase : Term → List (Pattern × α) → α} {mkLet : VSymbol → Term → α → α}
  (A : ActionSem I Q Γ β mkCase mkLet S)

/-- The meaning of actions does not depend on the environment. -/
def ActionSem.Blind : Prop :=
  ∀ ρ ρ' a, A.asem ρ a = A.asem ρ' a

variable {a : α}

theorem ActionSem.let_eq (ht : WellTyped C Q Γ t) (hty : t.tTy = some ty)
    (hdep : A.Blind ∨ DependsOn W t) {x : VSymbol} (hx : x.vsTy = ty) (h : ∀ v ∈ W, ρ' v = ρ v) :
    A.asem ρ' (mkLet x t a) = A.asem (Function.update ρ' x (I.val ρ β t)) a := by
  rw [A.sem_mkLet ht (hx ▸ hty)]
  cases hdep with
  | inl hblind => exact hblind _ _ a
  | inr hdep => rw [hdep.val_eq h]

/-- The source of constructors knows them all or leaves them open. -/
def GetsConstructors (C : AlgSig)
    (getConstructors : TySymbol → Except CompileError (Option (List LSymbol))) : Prop :=
  ∀ ts, getConstructors ts = .ok none ∨
    ∃ css, getConstructors ts = .ok (some css) ∧ ∀ c, c ∈ css ↔ c ∈ C.constrs ts

/-- The source of constructors knows them all. -/
def AllConstructors (C : AlgSig)
    (getConstructors : TySymbol → Except CompileError (Option (List LSymbol))) : Prop :=
  ∀ ts, ∃ css, getConstructors ts = .ok (some css) ∧ ∀ c, c ∈ css ↔ c ∈ C.constrs ts

/-- What `constrSet` answers for a type. -/
def ConstrsOf (C : AlgSig) (ty : Ty) (bare : Bool) (css : List LSymbol) : Prop :=
  ∀ ts tyl, ty = .tyapp ts tyl → bare = true ∨ bare = false ∧ ∀ c, c ∈ css ↔ c ∈ C.constrs ts

section

variable {getConstructors : TySymbol → Except CompileError (Option (List LSymbol))}
  (hget : GetsConstructors C getConstructors)
include hget

theorem constrSet_ok (ty : Ty) :
    ∃ bare css, constrSet getConstructors ty = .ok (bare, css) ∧ ConstrsOf C ty bare css := by
  cases ty with
  | tyvar v => exact ⟨false, [], rfl, fun ts tyl he => nomatch he⟩
  | tyapp ts tyl =>
    cases hget ts with
    | inl h =>
      refine ⟨true, [], ?_, fun _ _ _ => .inl rfl⟩
      rw [constrSet, h]
      rfl
    | inr h =>
      obtain ⟨css, h, hcss⟩ := h
      refine ⟨false, slsOfList css, ?_, ?_⟩
      · rw [constrSet, h]
        rfl
      · intro ts' tyl' he
        cases he
        exact .inr ⟨rfl, fun c => mem_slsOfList.trans (hcss c)⟩

/-- Only a type with constructors is answered by some. -/
theorem constrSet_mem (hset : constrSet getConstructors ty = .ok (bare, css)) (hcs : cs ∈ css) :
    ∃ ts tyl, ty = .tyapp ts tyl ∧ cs ∈ C.constrs ts := by
  cases ty with
  | tyvar v =>
    cases hset
    cases hcs
  | tyapp ts tyl =>
    rw [constrSet] at hset
    cases hget ts with
    | inl h =>
      rw [h] at hset
      cases hset
      cases hcs
    | inr h =>
      obtain ⟨css', h, hcss⟩ := h
      rw [h] at hset
      cases hset
      exact ⟨ts, tyl, rfl, (hcss cs).mp (mem_slsOfList.mp hcs)⟩

end

theorem constrSet_all {getConstructors : TySymbol → Except CompileError (Option (List LSymbol))}
    (hall : AllConstructors C getConstructors)
    (hset : constrSet getConstructors (.tyapp ts tyl) = .ok (bare, css))
    (c : LSymbol) : c ∈ css ↔ c ∈ C.constrs ts := by
  obtain ⟨css', h, hcss⟩ := hall ts
  rw [constrSet, h] at hset
  cases hset
  exact mem_slsOfList.trans (hcss c)

/-- The patterns of the arguments, put together again below the constructor. -/
theorem consPats_append (cs : LSymbol) (ty : Ty) (acc : List Pattern) {vl : List Ty}
    {pl1 : List Pattern} (h : vl.length = pl1.length) (pl2 : List Pattern) :
    consPats cs ty acc vl (pl1 ++ pl2) = .ok (.papp cs (pl1.reverse ++ acc) ty :: pl2) := by
  induction vl, pl1, h using ListRec.induct₂ generalizing acc with
  | nil => rw [nil_append, consPats, reverse_nil, nil_append]
  | cons v vl p pl1 h ih =>
    rw [cons_append, consPats, ih, reverse_cons, append_assoc]
    rfl

theorem lsConstr_pos (hcs : cs ∈ C.constrs ts) : 0 < cs.lsConstr := by
  rw [C.count hcs]
  exact length_pos_of_mem hcs

theorem isConstr_of_mem (h : ConstrsOf C (.tyapp ts tyl) bare css) (hcs : cs ∈ C.constrs ts) :
    isConstr bare css cs = true := by
  rw [isConstr, Bool.and_eq_true, decide_eq_true_iff]
  refine ⟨lsConstr_pos hcs, ?_⟩
  cases h ts tyl rfl with
  | inl hb => rw [hb, Bool.true_or]
  | inr hb => simp [(hb.2 cs).mpr hcs]

private theorem foldl_least_mem (cl : List (LSymbol × List Pattern)) : ∀ c : LSymbol,
      cl.foldl (fun m c => if c.1.lsName.idTag < m.lsName.idTag then c.1 else m) c ∈
        c :: cl.map Prod.fst := by
  induction cl with
  | nil => simp
  | cons d cl ih =>
    intro c
    rw [foldl_cons]
    split
    · exact mem_cons_of_mem _ (ih d.1)
    · have := ih c
      rw [mem_cons] at this ⊢
      exact this.imp id (mem_cons_of_mem _)

theorem noWilds_iff (h : ConstrsOf C (.tyapp ts tyl) bare css) (hne : types ≠ [])
    (hnd : (types.map Prod.fst).Nodup) (hsub : ∀ c ∈ types.map Prod.fst, c ∈ C.constrs ts) :
    noWilds bare css types = true ↔ ∀ c ∈ C.constrs ts, c ∈ types.map Prod.fst := by
  have hperm : (types.map Prod.fst).Subperm (C.constrs ts) := subperm_of_subset hnd hsub
  unfold noWilds
  cases h ts tyl rfl with
  | inl hb =>
    rw [if_pos hb]
    cases types with
    | nil => exact absurd rfl hne
    | cons c cl =>
      have hmem := hsub _ (foldl_least_mem cl c.1)
      simp only [beq_iff_eq]
      rw [C.count hmem, ← length_map Prod.fst]
      constructor
      · intro hlen x hx
        exact (hperm.perm_of_length_le hlen.ge).mem_iff.mpr hx
      · intro hall
        exact Nat.le_antisymm hperm.length_le
          (subperm_of_subset (C.distinct ts) hall).length_le
  | inr hb =>
    rw [if_neg (by simp [hb.1]), all_eq_true]
    simp only [AssocList.lookup_isSome_iff, hb.2]

theorem freshVars_tys (k : Nat) (s : String) (tyl : List Ty) :
    (freshVars k s tyl).map VSymbol.vsTy = tyl := by
  induction tyl generalizing k with
  | nil => rfl
  | cons ty tyl ih => rw [freshVars, map_cons, ih]

theorem freshVars_length (k : Nat) (s : String) (tyl : List Ty) :
    (freshVars k s tyl).length = tyl.length := by
  rw [← length_map VSymbol.vsTy, freshVars_tys]

theorem freshVars_tag {s : String} {v : VSymbol}
    (hv : v ∈ freshVars k s tyl) : k ≤ v.vsName.idTag ∧ v.vsName.idTag < k + tyl.length := by
  induction tyl generalizing k with
  | nil => cases hv
  | cons ty tyl ih =>
    cases mem_cons.mp hv with
    | inl he =>
      subst he
      simp
    | inr hv =>
      have := ih hv
      rw [length_cons]
      omega

theorem freshVars_nodup (k : Nat) (s : String) (tyl : List Ty) : (freshVars k s tyl).Nodup := by
  induction tyl generalizing k with
  | nil => exact nodup_nil
  | cons ty tyl ih =>
    rw [freshVars, nodup_cons]
    refine ⟨fun hv => ?_, ih _⟩
    have := (freshVars_tag hv).1
    simp at this

section Correct

/-- The action depends on symbols of tags below `k` only. -/
def ActBelow (k : Nat) (a : α) : Prop :=
  ∀ ρ ρ', I.TypedEnv ρ → I.TypedEnv ρ' → (∀ v : VSymbol, v.vsName.idTag < k → ρ v = ρ' v) →
    A.asem ρ a = A.asem ρ' a

/-- A well-typed row whose variables are not in `W`. -/
structure RowTyped (W : Set VSymbol) (k : Nat) (tys : List Ty) (r : Row α) : Prop where
  colTys : r.1.map patTy = tys
  typed : ∀ p ∈ r.1, PatTyped C p
  below : ∀ v ∈ r.1.flatMap patVars, v.vsName.idTag < k
  off : ∀ v ∈ r.1.flatMap patVars, v ∉ W
  good : A.Good r.2
  act : ActBelow A k r.2

/-- A well-typed row whose variables are not those that the matched terms depend on. -/
structure RowOk (W : Set VSymbol) (k : Nat) (tys : List Ty) (r : Row α) : Prop where
  colTys : r.1.map patTy = tys
  typed : ∀ p ∈ r.1, PatTyped C p
  linear : (r.1.flatMap patVars).Nodup
  below : ∀ v ∈ r.1.flatMap patVars, v.vsName.idTag < k
  off : ∀ v ∈ r.1.flatMap patVars, v ∉ W
  good : A.Good r.2
  act : ActBelow A k r.2

structure MatrixOk (W : Set VSymbol) (k : Nat) (tys : List Ty) (tl : List Term)
    (rl : List (Row α)) : Prop where
  below : ∀ v ∈ W, v.vsName.idTag < k
  colTys : tl.map Term.tTy = tys.map some
  typed : ∀ t ∈ tl, WellTyped C Q Γ t
  deps : ∀ t ∈ tl, DependsOn W t
  rows : ∀ r ∈ rl, RowOk A W k tys r
  exh : ∀ ds, List.Forall₂ I.dom tys ds → ∃ r ∈ rl, I.patsOk r.1 ds = true

/-- A well-typed matrix, exhaustive or not. No row binds a symbol that the matched
terms depend on, unless the actions cannot tell. -/
structure MatrixTyped (W : Set VSymbol) (k : Nat) (tys : List Ty) (tl : List Term)
    (rl : List (Row α)) : Prop where
  colTys : tl.map Term.tTy = tys.map some
  typed : ∀ t ∈ tl, WellTyped C Q Γ t
  below : ∀ t ∈ tl, ∀ v ∈ tVars t, v.vsName.idTag < k
  deps : A.Blind ∨ ∀ t ∈ tl, DependsOn W t
  rows : ∀ r ∈ rl, RowTyped A W k tys r

variable {A}

variable {rl : List (Row α)} {tl al : List Term} {tys : List Ty} {k' n : Nat} {r : Row α}
  {pl ql : List Pattern} {d : D} {rec : List Term → List (Row α) → Except CompileError α}

theorem MatrixOk.toTyped (h : MatrixOk A W k tys tl rl) : MatrixTyped A W k tys tl rl :=
  { h with
    below := fun t ht v hv => h.below v (h.deps t ht v hv)
    deps := .inr h.deps
    rows := fun r hr => { h.rows r hr with } }

theorem MatrixTyped.dep (h : MatrixTyped A W k tys (t :: tl) rl) : A.Blind ∨ DependsOn W t :=
  h.deps.imp id fun h => h t mem_cons_self

theorem RowTyped.mono {W' : Set VSymbol} (h : RowTyped A W k tys r) (hk : k ≤ k')
    (hW : ∀ v ∈ W', v ∈ W ∨ k ≤ v.vsName.idTag) : RowTyped A W' k' tys r where
  colTys := h.colTys
  typed := h.typed
  below v hv := (h.below v hv).trans_le hk
  off v hv hW' := (hW v hW').elim (h.off v hv) (fun hle => by have := h.below v hv; omega)
  good := h.good
  act ρ ρ' ht ht' hρ := h.act ρ ρ' ht ht' fun v hv => hρ v (hv.trans_le hk)

/-- The row of a choice: its arguments, if it has a constructor, and the others. -/
def headRow (x : List Pattern × Head α) : Row α :=
  match x.2.1 with
  | none => (x.1, x.2.2)
  | some (_, pl') => (pl' ++ x.1, x.2.2)

def headTys (ty : Ty) (tys : List Ty) (x : List Pattern × Head α) : List Ty :=
  match x.2.1 with
  | none => tys
  | some (fs, _) => constrArgTys fs ty ++ tys

variable {p : Pattern}

variable (h : RowTyped A W k (ty :: tys) (p :: pl, a))

include h in
theorem RowTyped.head :
    patTy p = ty ∧ pl.map patTy = tys := by
  have htys := h.colTys
  rwa [map_cons, List.cons.injEq] at htys

/-- A row of other patterns with no other variables. -/
theorem RowTyped.replace {tys' : List Ty} (h : RowTyped A W k tys r) (htys : pl.map patTy = tys')
    (htyped : ∀ p ∈ pl, PatTyped C p) (hvars : ∀ v ∈ pl.flatMap patVars, v ∈ r.1.flatMap patVars)
    (hg : A.Good a) (hb : ActBelow A k a) : RowTyped A W k tys' (pl, a) :=
  ⟨htys, htyped, fun v hv => h.below v (hvars v hv), fun v hv => h.off v (hvars v hv), hg, hb⟩

include h in
/-- The patterns after the first. -/
theorem RowTyped.tail {a' : α} (hg : A.Good a') (hb : ActBelow A k a')
    : RowTyped A W k tys (pl, a') :=
  h.replace h.head.2 (forall_mem_cons.mp h.typed).2
    (fun v hv => by rw [flatMap_cons]; exact mem_append_right _ hv) hg hb

include h in
/-- Another first pattern with no other variables. -/
theorem RowTyped.cons {q : Pattern} {a' : α} (hq : PatTyped C q) (hty : patTy q = patTy p)
    (hvars : ∀ v ∈ patVars q, v ∈ patVars p) (hg : A.Good a') (hb : ActBelow A k a')
    : RowTyped A W k (ty :: tys) (q :: pl, a') := by
  refine h.replace ?_ ?_ ?_ hg hb
  · rw [map_cons, hty]
    exact h.colTys
  · exact forall_mem_cons.mpr ⟨hq, (forall_mem_cons.mp h.typed).2⟩
  · intro v hv
    rw [flatMap_cons, mem_append] at hv ⊢
    exact hv.imp (hvars v) id

variable (hQ : ∀ {ty pl}, Q ty pl → I.Exhaustive ty pl) (hβ : List.Forall₂ I.dom Γ β)

include hQ hβ in
theorem heads_ok
    (ht : WellTyped C Q Γ t) (hty : t.tTy = some ty) (hbelow : ∀ v ∈ tVars t, v.vsName.idTag < k)
    (p : Pattern) : ∀ a, RowTyped A W k (ty :: tys) (p :: pl, a) → ∀ h ∈ heads mkLet t p a,
      RowTyped A W k (headTys ty tys (pl, h)) (headRow (pl, h)) ∧ HeadTyped C ty (pl, h) := by
  have hlet : ∀ {x a}, x.vsTy = ty → x.vsName.idTag < k → A.Good a → ActBelow A k a →
      A.Good (mkLet x t a) ∧ ActBelow A k (mkLet x t a) := by
    intro x a hx hxk hg hb
    refine ⟨A.good_mkLet ht (hx ▸ hty) hg, ?_⟩
    intro ρ ρ' hρt hρt' hρ
    have hval : I.val ρ β t = I.val ρ' β t := by
      rw [val, val, sem_congr_env t β fun v hv => hρ v (hbelow v hv)]
    rw [A.sem_mkLet ht (hx ▸ hty), A.sem_mkLet ht (hx ▸ hty)]
    refine hb _ _ (typedEnv_update hρt (hx ▸ sem_typed hQ hρt t Γ β ty ht hβ hty))
      (typedEnv_update hρt' (hx ▸ sem_typed hQ hρt' t Γ β ty ht hβ hty)) ?_
    rw [hval]
    intro v hv
    by_cases he : v = x
    · rw [he, Function.update_self, Function.update_self]
    · rw [Function.update_of_ne he, Function.update_of_ne he, hρ v hv]
  induction p using Pattern.induct with
  | pwild ty' =>
    intro a h x hx
    rw [heads, mem_singleton] at hx
    subst hx
    exact ⟨h.tail h.good h.act, fun fs pl' he => by cases he⟩
  | pvar u =>
    intro a h x hx
    rw [heads, mem_singleton] at hx
    subst hx
    obtain ⟨hg, hb⟩ := hlet h.head.1 (h.below u (by simp [patVars])) h.good h.act
    exact ⟨h.tail hg hb, fun fs pl' he => by cases he⟩
  | papp fs pl' ty' ih =>
    intro a h x hx
    rw [heads, mem_singleton] at hx
    subst hx
    obtain ⟨hty', htys⟩ := h.head
    have hp := h.typed _ mem_cons_self
    simp only [PatTyped, patTypedList_iff] at hp
    obtain ⟨hts, hargs, hnd, hpl'⟩ := hp
    subst hty'
    constructor
    · refine h.replace ?_ ?_ (fun v hv => ?_) h.good h.act
      · rw [map_append, hargs, htys]
        rfl
      · exact forall_mem_append.mpr ⟨hpl', (forall_mem_cons.mp h.typed).2⟩
      · rwa [flatMap_append, ← patVarsList_eq_flatMap] at hv
    · intro fs' pl'' he'
      cases he'
      exact ⟨hts, hargs, hpl', hnd⟩
  | por p q ihp ihq =>
    intro a h x hx
    rw [heads, mem_append] at hx
    obtain ⟨hp, hq, hpq, hvars⟩ := h.typed _ mem_cons_self
    cases hx with
    | inl hx => exact ihp a (h.cons hp rfl (fun v hv => hv) h.good h.act) x hx
    | inr hx => exact ihq a (h.cons hq hpq.symm (fun v => (hvars v).mpr) h.good h.act) x hx
  | pas p u ih =>
    intro a h x hx
    obtain ⟨hp, hpu, hu⟩ := h.typed _ mem_cons_self
    obtain ⟨hg, hb⟩ := hlet h.head.1 (h.below u (by simp [patVars])) h.good h.act
    exact ih _ (h.cons hp hpu (fun v hv => mem_append_left _ hv) hg hb) x hx

include hQ hβ in
theorem rowHeads_ok
    (ht : WellTyped C Q Γ t) (hty : t.tTy = some ty) (hbelow : ∀ v ∈ tVars t, v.vsName.idTag < k)
    (hrl : ∀ r ∈ rl, RowTyped A W k (ty :: tys) r) : ∀ x ∈ rowHeads mkLet t rl,
      RowTyped A W k (headTys ty tys x) (headRow x) ∧ HeadTyped C ty x := by
  induction rl with
  | nil => simp [rowHeads]
  | cons r rl ih =>
    have ih := ih (forall_mem_cons.mp hrl).2
    obtain ⟨pl, a⟩ := r
    cases pl with
    | nil => exact ih
    | cons p pl =>
      rw [rowHeads, forall_mem_append, forall_mem_map]
      exact ⟨heads_ok hQ hβ ht hty hbelow p a (hrl _ mem_cons_self), ih⟩

theorem rowsSem_rowHeads {S' : Type} {asem : (VSymbol → D) → α → S'} (hd : I.dom ty d)
    (hlet : ∀ {ρ' x a}, x.vsTy = ty → (∀ v ∈ W, ρ' v = ρ v) →
      asem ρ' (mkLet x t a) = asem (Function.update ρ' x d) a)
    (hrl : ∀ r ∈ rl, RowTyped A W k (ty :: tys) r) (ds : List D) : I.rowsSem asem ρ (d :: ds) rl =
      (rowHeads mkLet t rl).findSome? fun x => I.headSem asem ρ d ds x.1 x.2 := by
  induction rl with
  | nil => rfl
  | cons r rl ih =>
    have ih := ih (forall_mem_cons.mp hrl).2
    have hr := hrl r mem_cons_self
    obtain ⟨pl, a⟩ := r
    cases pl with
    | nil => exact absurd hr.colTys (by simp)
    | cons p pl =>
      have htys := hr.colTys
      rw [map_cons, List.cons.injEq] at htys
      have hoff := hr.off
      simp only [flatMap_cons, mem_append] at hoff
      have hrow := rowSem_heads hd hlet ds
        (forall_mem_cons.mp hr.typed).2 (fun v hv => hoff v (.inr hv)) p
        (hr.typed p mem_cons_self) htys.1 (fun v hv => hoff v (.inl hv)) a
      rw [rowsSem] at ih ⊢
      rw [findSome?_cons, hrow, rowHeads, findSome?_append, ih, findSome?_map]
      change _ = ((heads mkLet t p a).findSome? (I.headSem asem ρ d ds pl)).or _
      cases (heads mkLet t p a).findSome? (I.headSem asem ρ d ds pl) <;> rfl

section

variable {x : List Pattern × Head α} (hx : RowTyped A W k (headTys ty tys x) (headRow x))
include hx

theorem specRow_ok (ht : HeadTyped C ty x)
    (hql : ∀ ql, types.lookup cs = some ql → ql.map patTy = constrArgTys cs ty)
    (hr : specRow types cs x.1 x.2 = some r) :
    RowTyped A W k ((constrArgTys cs ty).reverse ++ tys) r := by
  obtain ⟨pl, ⟨_ | ⟨fs, pl'⟩, a⟩⟩ := x
  · simp only [specRow, Option.map_eq_some_iff] at hr
    obtain ⟨ql, hl, rfl⟩ := hr
    have hvars : ((ql.map fun q => Pattern.pwild (patTy q)).reverse ++ pl).flatMap patVars =
        pl.flatMap patVars := by
      rw [flatMap_append, append_left_eq_self, flatMap_eq_nil_iff]
      intro p hp
      obtain ⟨q, -, rfl⟩ := mem_map.mp (mem_reverse.mp hp)
      rfl
    refine hx.replace ?_ (forall_mem_append.mpr ⟨fun p hp => ?_, hx.typed⟩)
      (fun v hv => hvars ▸ hv) hx.good hx.act
    · have htys : pl.map patTy = tys := hx.colTys
      rw [← hql ql hl, ← htys, map_append, map_reverse, map_map]
      rfl
    · obtain ⟨q, -, rfl⟩ := mem_map.mp (mem_reverse.mp hp)
      trivial
  · simp only [specRow] at hr
    split at hr
    · rename_i hf
      subst hf
      cases hr
      have hperm : (pl'.reverse ++ pl).Perm (pl' ++ pl) :=
        (reverse_perm pl').append_right pl
      have htys := hx.colTys
      simp only [headRow, headTys, map_append] at htys
      refine hx.replace ?_ (fun p hp => hx.typed p (hperm.mem_iff.mp hp))
        (fun v hv => (hperm.flatMap_right patVars).mem_iff.mp hv) hx.good hx.act
      rw [(ht _ pl' rfl).2.1, append_cancel_left_eq] at htys
      rw [map_append, map_reverse, (ht _ pl' rfl).2.1, htys]
    · cases hr

theorem wildRow_ok (hr : wildRow x.1 x.2 = some r) : RowTyped A W k tys r := by
  obtain ⟨pl, ⟨_ | c, a⟩⟩ := x
  · cases hr
    exact hx
  · cases hr

end

theorem splitRows_specRow_ok (hheads : ∀ x ∈ rowHeads mkLet t rl,
      RowTyped A W k (headTys ty tys x) (headRow x) ∧ HeadTyped C ty x)
    (hql : types.lookup cs = some ql) (hqty : ql.map patTy = constrArgTys cs ty) :
    ∀ r ∈ splitRows mkLet t (specRow types cs) rl,
      RowTyped A W k ((constrArgTys cs ty).reverse ++ tys) r := by
  intro r hr
  obtain ⟨x, hx, hr⟩ := mem_filterMap.mp hr
  refine specRow_ok (hheads x hx).1 (hheads x hx).2 ?_ hr
  intro ql' hql'
  rw [hql, Option.some.injEq] at hql'
  exact hql' ▸ hqty

theorem MatrixTyped.splitTys (h : MatrixTyped A W k (ty :: tys) (t :: tl) rl) :
    t.tTy = some ty ∧ tl.map Term.tTy = tys.map some := by
  have htys := h.colTys
  rwa [map_cons, map_cons, List.cons.injEq] at htys

theorem MatrixTyped.head (h : MatrixTyped A W k (ty :: tys) (t :: tl) rl) : WellTyped C Q Γ t :=
  h.typed t mem_cons_self

include hQ hβ in
theorem MatrixTyped.dom_head (h : MatrixTyped A W k (ty :: tys) (t :: tl) rl)
    (hρ : I.TypedEnv ρ) : I.dom ty (I.val ρ β t) :=
  sem_typed hQ hρ t Γ β ty h.head hβ h.splitTys.1

include hQ hβ in
theorem MatrixTyped.heads_ok (h : MatrixTyped A W k (ty :: tys) (t :: tl) rl) :
    ∀ x ∈ rowHeads mkLet t rl, RowTyped A W k (headTys ty tys x) (headRow x) ∧ HeadTyped C ty x :=
  rowHeads_ok hQ hβ h.head h.splitTys.1 (h.below t mem_cons_self) h.rows

include hQ hβ in
/-- The matrix without its first column. -/
theorem MatrixTyped.wild (h : MatrixTyped A W k (ty :: tys) (t :: tl) rl) :
    MatrixTyped A W k tys tl (splitRows mkLet t wildRow rl) := by
  refine ⟨h.splitTys.2, (forall_mem_cons.mp h.typed).2, (forall_mem_cons.mp h.below).2,
    h.deps.imp id fun h s hs => h s (mem_cons_of_mem _ hs), ?_⟩
  intro r hr
  obtain ⟨x, hx, hr⟩ := mem_filterMap.mp hr
  exact wildRow_ok (h.heads_ok hQ hβ x hx).1 hr

/-- Whether a row matches a value that no constructor of the column builds is left to
the rows without one. -/
theorem unmatched_wild (hrl : ∀ r ∈ rl, RowTyped A W k (ty :: tys) r) (hd : I.dom ty d)
    (hnone : ∀ x ∈ rowHeads mkLet t rl, ∀ fs pl', x.2.1 = some (fs, pl') → I.destr fs d = none)
    (ds : List D) : I.Unmatched (d :: ds) rl ↔ I.Unmatched ds (splitRows mkLet t wildRow rl) := by
  -- whether a row matches does not depend on the meaning of the actions
  let unit : (VSymbol → D) → α → Unit := fun _ _ => ()
  let ρ : VSymbol → D := fun v => I.witness v.vsTy
  rw [unmatched_iff unit ρ, unmatched_iff unit ρ,
    rowsSem_splitRows fun x hx => wildRow_sem (hnone x hx),
    rowsSem_rowHeads hd (fun _ _ => rfl) hrl ds]

theorem forall₂_append_left {R : Ty → D → Prop} {l m : List Ty} {ds : List D} :
    List.Forall₂ R (l ++ m) ds ↔
      ∃ xs ys, ds = xs ++ ys ∧ List.Forall₂ R l xs ∧ List.Forall₂ R m ys := by
  constructor
  · intro h
    induction l generalizing ds with
    | nil => exact ⟨[], ds, rfl, .nil, h⟩
    | cons a l ih =>
      rw [cons_append, List.forall₂_cons_left_iff] at h
      obtain ⟨x, ds, hx, h, rfl⟩ := h
      obtain ⟨xs, ys, rfl, hxs, hys⟩ := ih h
      exact ⟨x :: xs, ys, rfl, .cons hx hxs, hys⟩
  · intro ⟨xs, ys, he, hxs, hys⟩
    exact he ▸ rel_append hxs hys

/-- The terms `al` can stand for the arguments of the constructor, in a matrix with more
symbols. -/
structure ArgTerms (A : ActionSem I Q Γ β mkCase mkLet S) (W W' : Set VSymbol) (k k' : Nat)
    (tys : List Ty) (al : List Term) : Prop where
  colTys : al.map Term.tTy = tys.map some
  typed : ∀ s ∈ al, WellTyped C Q Γ s
  deps : A.Blind ∨ ∀ s ∈ al, DependsOn W' s
  below : ∀ s ∈ al, ∀ v ∈ tVars s, v.vsName.idTag < k'
  le : k ≤ k'
  sub : W ⊆ W'
  fresh : ∀ v ∈ W', v ∈ W ∨ k ≤ v.vsName.idTag

include hQ hβ in
/-- The matrix below a constructor of the first column. -/
theorem MatrixTyped.constr {W' : Set VSymbol}
    (h : MatrixTyped A W k (.tyapp ts tyl :: tys) (t :: tl) rl) (hql : types.lookup cs = some ql)
    (hqty : ql.map patTy = constrArgTys cs (.tyapp ts tyl))
    (hal : ArgTerms A W W' k k' (constrArgTys cs (.tyapp ts tyl)) al) :
    MatrixTyped A W' k' ((constrArgTys cs (.tyapp ts tyl)).reverse ++ tys) (al.reverse ++ tl)
      (splitRows mkLet t (specRow types cs) rl) := by
  have hrev := fun s (hs : s ∈ al.reverse) => mem_reverse.mp hs
  refine ⟨?_, forall_mem_append.mpr ⟨fun s hs => hal.typed s (hrev s hs),
    (forall_mem_cons.mp h.typed).2⟩, forall_mem_append.mpr ⟨fun s hs => hal.below s (hrev s hs),
    fun s hs v hv => (h.below s (mem_cons_of_mem t hs) v hv).trans_le hal.le⟩, ?_, ?_⟩
  · rw [map_append, map_append, map_reverse, map_reverse, hal.colTys, h.splitTys.2]
  · cases hal.deps with
    | inl hblind => exact .inl hblind
    | inr hald =>
      exact h.deps.imp id fun hdeps => forall_mem_append.mpr ⟨fun s hs => hald s (hrev s hs),
        fun s hs v hv => hal.sub (hdeps s (mem_cons_of_mem t hs) v hv)⟩
  · exact fun r hr => (splitRows_specRow_ok (h.heads_ok hQ hβ) hql hqty r hr).mono hal.le hal.fresh

variable (hrl : ∀ r ∈ rl, RowTyped A W k (.tyapp ts tyl :: tys) r)
  (hheads : ∀ x ∈ rowHeads mkLet t rl, HeadTyped C (.tyapp ts tyl) x)

include hrl hheads in
/-- Whether a row matches a value that a constructor of the column builds is left to the
rows of the constructor. -/
theorem unmatched_constr (hcs : cs ∈ C.constrs ts) (hql : types.lookup cs = some ql)
    (hqty : ql.map patTy = constrArgTys cs (.tyapp ts tyl)) {args : List D}
    (hd : I.dom (.tyapp ts tyl) d) (hdestr : I.destr cs d = some args) (ds : List D)
    : I.Unmatched (d :: ds) rl ↔
      I.Unmatched (args.reverse ++ ds) (splitRows mkLet t (specRow types cs) rl) := by
  have hl : ql.length = args.length := by
    rw [← (I.fn_destr hcs hd hdestr).1.length_eq, ← hqty, length_map]
  let unit : (VSymbol → D) → α → Unit := fun _ _ => ()
  let ρ : VSymbol → D := fun v => I.witness v.vsTy
  rw [unmatched_iff unit ρ, unmatched_iff unit ρ,
    rowsSem_splitRows fun x hx => specRow_sem (hheads x hx) hcs hd hdestr hql hl,
    rowsSem_rowHeads hd (fun _ _ => rfl) hrl ds]

theorem rowsSem_congr (hrl : ∀ r ∈ rl, RowTyped A W k tys r) (hρ : I.TypedEnv ρ)
    (hρ' : I.TypedEnv ρ') (he : ∀ v : VSymbol, v.vsName.idTag < k → ρ v = ρ' v) {ds : List D}
    (hds : List.Forall₂ I.dom tys ds) : I.rowsSem A.asem ρ ds rl = I.rowsSem A.asem ρ' ds rl := by
  induction rl with
  | nil => rfl
  | cons r rl ih =>
    have ih := ih (forall_mem_cons.mp hrl).2
    have hr := hrl r mem_cons_self
    have hrow : I.rowSem A.asem ρ ds r = I.rowSem A.asem ρ' ds r := by
      rw [rowSem, rowSem]
      by_cases hok : I.patsOk r.1 ds = true
      · rw [if_pos hok, if_pos hok, hr.act _ _
          (typedEnv_bindPats hρ hr.typed (hr.colTys ▸ hds) hok)
          (typedEnv_bindPats hρ' hr.typed (hr.colTys ▸ hds) hok)]
        intro v hv
        rw [bindPats, bindPats, he v hv]
      · rw [if_neg hok, if_neg hok]
    rw [rowsSem] at ih ⊢
    rw [findSome?_cons, hrow, ih, rowsSem, rowsSem, findSome?_cons]

include hQ hβ in
theorem vals_typed (hty : tl.map Term.tTy = tys.map some) (ht : ∀ t ∈ tl, WellTyped C Q Γ t)
    (hρ : I.TypedEnv ρ) : List.Forall₂ I.dom tys (tl.map (I.val ρ β)) :=
  forall₂_vals hty fun t hmem ty => sem_typed hQ hρ t Γ β ty (ht t hmem) hβ

theorem forall₂_witness (I : Interp C D) (tys : List Ty) :
    List.Forall₂ I.dom tys (tys.map I.witness) := by
  rw [List.forall₂_map_right_iff]
  exact List.forall₂_same.mpr fun ty _ => I.witness_dom ty

/-! The outcome of a compilation. -/

/-- The patterns of a complaint: they have the types of the columns, and if all
constructors are known, no row matches what they match. -/
structure MissedPats (I : Interp C D) (complete : Prop) (tys : List Ty) (rl : List (Row α))
    (pl : List Pattern) : Prop where
  colTys : pl.map patTy = tys
  typed : ∀ p ∈ pl, PatTyped C p
  ground : ∀ p ∈ pl, patVars p = []
  misses : complete → ∀ ds, List.Forall₂ I.dom tys ds → I.patsOk pl ds = true →
    I.Unmatched ds rl

/-- A complaint about a matrix that misses some values. Where types have the right
arity it says which. -/
structure Missed (I : Interp C D) (complete : Prop) (tys : List Ty) (rl : List (Row α))
    (e : CompileError) : Prop where
  unmatched : ∃ ds, List.Forall₂ I.dom tys ds ∧ I.Unmatched ds rl
  pats : C.Wf → (∀ ty ∈ tys, tyWf ty = true) →
    ∃ pl, e = .nonExhaustive pl ∧ MissedPats I complete tys rl pl

/-- An action with a property or a complaint. -/
def Outcome (P : α → Prop) (M : CompileError → Prop) (r : Except CompileError α) : Prop :=
  (∃ a, r = .ok a ∧ P a) ∨ ∃ e, r = .error e ∧ M e

theorem Outcome.bind {γ : Type} {P : γ → Prop} {P' : α → Prop} {M : CompileError → Prop}
    {r : Except CompileError γ} {f : γ → Except CompileError α} (h : Outcome P M r)
    (hf : ∀ c, P c → Outcome P' M (f c)) : Outcome P' M (r >>= f) := by
  obtain ⟨c, rfl, hc⟩ | ⟨e, rfl, he⟩ := h
  · exact hf c hc
  · exact .inr ⟨e, rfl, he⟩

/-- The action has the meaning of the matrix. -/
def Means (A : ActionSem I Q Γ β mkCase mkLet S) (tl : List Term) (rl : List (Row α)) (a : α) :
    Prop :=
  A.Good a ∧ ∀ ρ, I.TypedEnv ρ →
    some (A.asem ρ a) = I.rowsSem A.asem ρ (tl.map (I.val ρ β)) rl

/-- The action has the meaning of the matrix where `cs` builds the first value and `args`
are the values it is built from. -/
def CaseMeans (A : ActionSem I Q Γ β mkCase mkLet S) (k : Nat) (t : Term) (tl : List Term)
    (rl : List (Row α)) (cs : LSymbol) (args : (VSymbol → D) → List D) (a : α) : Prop :=
  A.Good a ∧ ∀ ρ ρ', I.TypedEnv ρ → I.TypedEnv ρ' →
    (∀ v : VSymbol, v.vsName.idTag < k → ρ' v = ρ v) →
    I.destr cs (I.val ρ β t) = some (args ρ') →
    some (A.asem ρ' a) = I.rowsSem A.asem ρ ((t :: tl).map (I.val ρ β)) rl

/-- The action has the meaning of the matrix where no constructor of the column builds the
first value. -/
def WildMeans (A : ActionSem I Q Γ β mkCase mkLet S) (t : Term) (tl : List Term)
    (rl : List (Row α)) (types : List (LSymbol × List Pattern)) (a : α) : Prop :=
  A.Good a ∧ ∀ ρ, I.TypedEnv ρ →
    (∀ cs ∈ types.map Prod.fst, I.destr cs (I.val ρ β t) = none) →
    some (A.asem ρ a) = I.rowsSem A.asem ρ ((t :: tl).map (I.val ρ β)) rl

/-- Matrices of less than the weight are compiled. -/
def CompilesTo (A : ActionSem I Q Γ β mkCase mkLet S) (complete : Prop) (W : Set VSymbol)
    (k n : Nat) (rec : List Term → List (Row α) → Except CompileError α) : Prop :=
  ∀ {tys tl rl}, MatrixTyped A W k tys tl rl → tl.length + rowsWeight rl < n →
    Outcome (Means A tl rl) (Missed I complete tys rl) (rec tl rl)

theorem missedPats_nil (I : Interp C D) (complete : Prop) (tys : List Ty) :
    MissedPats I complete tys ([] : List (Row α)) (tys.map .pwild) where
  colTys := by
    rw [map_map]
    exact map_id _
  typed := forall_mem_map.mpr fun _ _ => trivial
  ground := forall_mem_map.mpr fun _ _ => rfl
  misses _ _ _ _ r hr := nomatch hr

/-! The constructors of a column. -/

/-- What `populate` finds in the first column. -/
structure Column (mkLet : VSymbol → Term → α → α) (t : Term) (rl : List (Row α))
    (types : List (LSymbol × List Pattern)) : Prop where
  distinct : (types.map Prod.fst).Nodup
  occurs : ∀ c ∈ types, ∃ x ∈ rowHeads mkLet t rl, x.2.1 = some c
  all : ∀ c, (∃ x ∈ rowHeads mkLet t rl, x.2.1 = some c) → c.1 ∈ types.map Prod.fst

theorem patTyped_papp (hlen : tyl.length = ts.tsArgs.length) (hcs : cs ∈ C.constrs ts)
    (pl : List Pattern) (htys : pl.map patTy = constrArgTys cs (.tyapp ts tyl))
    (hpl : ∀ p ∈ pl, PatTyped C p) (hground : ∀ p ∈ pl, patVars p = []) :
    PatTyped C (.papp cs pl (.tyapp ts tyl)) ∧ patVars (.papp cs pl (.tyapp ts tyl)) = [] := by
  have hvars : pl.flatMap patVars = [] := flatMap_eq_nil_iff.mpr hground
  simp only [PatTyped, patTypedList_iff, patVars, patVarsList_eq_flatMap]
  exact ⟨⟨⟨ts, tyl, rfl, hcs, hlen⟩, htys, hvars ▸ nodup_nil, hpl⟩, hvars⟩

theorem tyWf_constrArgTys (hC : C.Wf) (hty : tyWf (.tyapp ts tyl) = true)
    (hcs : cs ∈ C.constrs ts) : ∀ ty ∈ constrArgTys cs (.tyapp ts tyl), tyWf ty = true := by
  intro ty hmem
  obtain ⟨hlen, htyl⟩ := tyWf_tyapp.mp hty
  obtain ⟨a, ha, rfl⟩ := mem_map.mp hmem
  refine tyWf_tyInst a (hC.args hcs a ha) fun v hv => ?_
  have hin : tyInst (tsMatchArgs ts tyl) (.tyvar v) ∈
      (ts.tsArgs.map Ty.tyvar).map (tyInst (tsMatchArgs ts tyl)) :=
    mem_map_of_mem (mem_map_of_mem (C.params hcs ha v hv))
  rw [tsMatchArgs, map_tyInst_zip (C.vars hcs) hlen] at hin
  exact htyl _ hin

variable {complete : Prop}

include hrl hheads in
/-- A complaint about the rows of a constructor. -/
theorem MissedPats.constr (hlen : tyl.length = ts.tsArgs.length) (hcs : cs ∈ C.constrs ts)
    (hql : types.lookup cs = some ql) (hqty : ql.map patTy = constrArgTys cs (.tyapp ts tyl))
    (h : MissedPats I complete ((constrArgTys cs (.tyapp ts tyl)).reverse ++ tys)
      (splitRows mkLet t (specRow types cs) rl) pl) :
    ∃ pl', consPats cs (.tyapp ts tyl) [] cs.lsArgs pl = .ok pl' ∧
      MissedPats I complete (.tyapp ts tyl :: tys) rl pl' := by
  obtain ⟨pl1, pl2, rfl, htys1, htys2⟩ := map_eq_append_iff.mp h.colTys
  have hrev : pl1.reverse.map patTy = constrArgTys cs (.tyapp ts tyl) := by
    rw [map_reverse, htys1, reverse_reverse]
  have hl : cs.lsArgs.length = pl1.length := by
    have := congrArg List.length hrev
    rw [length_map, length_reverse, constrArgTys, length_map] at this
    exact this.symm
  have hpat := patTyped_papp hlen hcs _ hrev
    (fun p hp => h.typed p (mem_append_left _ (mem_reverse.mp hp)))
    (fun p hp => h.ground p (mem_append_left _ (mem_reverse.mp hp)))
  have hcons := consPats_append cs (.tyapp ts tyl) [] hl pl2
  rw [append_nil] at hcons
  refine ⟨_, hcons, ?_, forall_mem_cons.mpr ⟨hpat.1, (forall_mem_append.mp h.typed).2⟩,
    forall_mem_cons.mpr ⟨hpat.2, (forall_mem_append.mp h.ground).2⟩, ?_⟩
  · rw [map_cons, htys2, patTy]
  · intro hc vals hvals hok
    obtain ⟨d, ds, hd, hds, rfl⟩ := List.forall₂_cons_left_iff.mp hvals
    rw [patsOk, Bool.and_eq_true, patOk] at hok
    cases hdestr : I.destr cs d with
    | none =>
      rw [hdestr] at hok
      cases hok.1
    | some args =>
      rw [hdestr] at hok
      have hargs := (I.fn_destr hcs hd hdestr).1
      have hla : pl1.length = args.reverse.length := by
        rw [length_reverse, ← hargs.length_eq, ← hrev, length_map, length_reverse]
      rw [unmatched_constr hrl hheads hcs hql hqty hd hdestr]
      refine h.misses hc _ (rel_append (List.forall₂_reverse_iff.mpr hargs) hds) ?_
      rw [patsOk_append hla, Bool.and_eq_true]
      refine ⟨?_, hok.2⟩
      have := patsOk_reverse (I := I) hla
      rw [reverse_reverse] at this
      rw [← this]
      exact hok.1

/-- A complaint about the rows without a constructor, where the values that the pattern
matches have none of the column. -/
theorem MissedPats.wild (hrl : ∀ r ∈ rl, RowTyped A W k (ty :: tys) r)
    (hcol : Column mkLet t rl types)
    (h : MissedPats I complete tys (splitRows mkLet t wildRow rl) pl) (hty : patTy p = ty)
    (hp : PatTyped C p ∧ patVars p = []) (hnone : complete → ∀ d, I.dom ty d → I.patOk p d = true →
      ∀ cs ∈ types.map Prod.fst, I.destr cs d = none) :
    MissedPats I complete (ty :: tys) rl (p :: pl) where
  colTys := by rw [map_cons, hty, h.colTys]
  typed := forall_mem_cons.mpr ⟨hp.1, h.typed⟩
  ground := forall_mem_cons.mpr ⟨hp.2, h.ground⟩
  misses hc vals hvals hok := by
    obtain ⟨d, ds, hd, hds, rfl⟩ := List.forall₂_cons_left_iff.mp hvals
    rw [patsOk, Bool.and_eq_true] at hok
    rw [unmatched_wild hrl hd fun x hx fs pl' he =>
      hnone hc d hd hok.1 fs (hcol.all (fs, pl') ⟨x, hx, he⟩)]
    exact h.misses hc ds hds hok.2

theorem destr_of_ne {c : LSymbol} {args : List D} (hc : c ∈ C.constrs ts) (hcs : cs ∈ C.constrs ts)
    (hd : I.dom (.tyapp ts tyl) d) (hargs : I.destr c d = some args)
    (hne : cs ≠ c) : I.destr cs d = none := by
  cases hn : I.destr cs d with
  | none => rfl
  | some args' => exact absurd (I.disjoint hcs hc hd hn hargs) hne

/-- The pattern that heads a complaint about the rows without a constructor: a missing
constructor if there is one, a wildcard otherwise. -/
theorem missingPattern {getConstructors : TySymbol → Except CompileError (Option (List LSymbol))}
    (hget : GetsConstructors C getConstructors)
    (hset : constrSet getConstructors ty = .ok (bare, css)) (hwf : tyWf ty = true)
    (hsub : ∀ c ∈ types, ∃ ts tyl, ty = .tyapp ts tyl ∧ c.1 ∈ C.constrs ts) (hd : I.dom ty d)
    (hnone : ∀ cs ∈ types.map Prod.fst, I.destr cs d = none) :
    ∃ p, (∀ (rec : List Term → List (Row α) → Except CompileError α) tl wilds pl,
        rec tl wilds = .error (.nonExhaustive pl) →
        compWilds rec ty css types tl wilds = .error (.nonExhaustive (p :: pl))) ∧
      patTy p = ty ∧ (PatTyped C p ∧ patVars p = []) ∧
      (AllConstructors C getConstructors → ∀ d, I.dom ty d → I.patOk p d = true →
        ∀ cs ∈ types.map Prod.fst, I.destr cs d = none) := by
  cases hfind : css.find? fun cs => (types.lookup cs).isNone with
  | none =>
    refine ⟨.pwild ty, fun rec tl wilds pl he => ?_, rfl, ⟨trivial, rfl⟩, ?_⟩
    · rw [compWilds, he]
      simp only [hfind]
    intro hall d' _ _ cs hcs
    -- the value `d` is built by a constructor of the column: there is none
    obtain ⟨c, hc, rfl⟩ := mem_map.mp hcs
    obtain ⟨ts, tyl, rfl, hcs'⟩ := hsub c hc
    obtain ⟨c', hc', args, hargs⟩ := I.cover (ne_nil_of_mem hcs') hd
    have hmem := (constrSet_all hall hset c').mpr hc'
    have hin := find?_eq_none.mp hfind c' hmem
    rw [Bool.not_eq_true, Option.isNone_eq_false_iff, AssocList.lookup_isSome_iff] at hin
    rw [hnone c' hin] at hargs
    cases hargs
  | some cs =>
    have hcss := mem_of_find?_eq_some hfind
    have hnot := find?_some hfind
    obtain ⟨ts, tyl, rfl, hcs⟩ := constrSet_mem hget hset hcss
    obtain ⟨hlen, -⟩ := tyWf_tyapp.mp hwf
    obtain ⟨tm, htm, hargs⟩ := tyMatch_constrArgTys hcs hlen
    have hpat := patTyped_papp hlen hcs (cs.lsArgs.map fun ty => .pwild (tyInst tm ty))
      (by rw [map_map, ← hargs cs hcs]; rfl)
      (forall_mem_map.mpr fun _ _ => trivial) (forall_mem_map.mpr fun _ _ => rfl)
    refine ⟨_, fun rec tl wilds pl he => ?_, rfl, hpat, ?_⟩
    · rw [compWilds, he]
      simp only [hfind, C.value hcs, Option.bind_some, htm]
    · intro _ d' hd' hok cs' hcs'
      rw [patOk] at hok
      cases hdestr : I.destr cs d' with
      | none =>
        rw [hdestr] at hok
        cases hok
      | some args =>
        obtain ⟨c, hc, rfl⟩ := mem_map.mp hcs'
        obtain ⟨ts', tyl', he, hin⟩ := hsub c hc
        cases he
        refine destr_of_ne hcs hin hd' hdestr fun he => ?_
        rw [Option.isNone_iff_eq_none] at hnot
        have hsome := AssocList.lookup_isSome_iff.mpr hcs'
        rw [he, hnot] at hsome
        cases hsome

variable {getConstructors : TySymbol → Except CompileError (Option (List LSymbol))}

theorem compCases_error (ty : Ty) {cases : Cases α} {e : CompileError}
    (hl : cases.lookup cs = some rl) (he : rec (al.reverse ++ tl) rl = .error e) :
    ∃ e', compCases rec ty cases tl cs al = .error e' := by
  rw [compCases]
  simp only [hl, he]
  cases e with
  | nonExhaustive pl =>
    simp only [Except.bind]
    cases consPats cs ty [] cs.lsArgs pl with
    | error e => exact ⟨e, rfl⟩
    | ok pl => exact ⟨_, rfl⟩
  | _ => exact ⟨_, rfl⟩

include hQ hβ in
/-- The rows of a constructor of the column are compiled. -/
theorem compCases_outcome (W' : Set VSymbol) (al : List Term)
    (h : MatrixTyped A W k (.tyapp ts tyl :: tys) (t :: tl) rl)
    (hrec : CompilesTo A complete W' k' n rec)
    (hn : (t :: tl).length + rowsWeight rl < n + 1) (hlen : tyl.length = ts.tsArgs.length)
    (hcol : Column mkLet t rl types) (hql : types.lookup cs = some ql)
    (hal : ArgTerms A W W' k k' (constrArgTys cs (.tyapp ts tyl)) al) :
    Outcome (CaseMeans A k t tl rl cs fun ρ => al.map (I.val ρ β))
      (Missed I complete (.tyapp ts tyl :: tys) rl)
      (compCases rec (.tyapp ts tyl) ((rl.foldr (dispatchRow mkLet types t) ([], [])).1) tl cs
        al) := by
  have hheads := h.heads_ok hQ hβ
  obtain ⟨x, hx, hxc⟩ := hcol.occurs _ (AssocList.mem_of_lookup hql)
  obtain ⟨⟨ts', tyl', he, hcs, -⟩, hqty, -, -⟩ := (hheads x hx).2 cs ql hxc
  cases he
  have hm := h.constr hQ hβ hql hqty hal
  have hweight : rowsWeight (splitRows mkLet t (specRow types cs) rl) + (ql.length + 1) ≤
      rowsWeight rl := by
    obtain ⟨pl, ⟨c, a⟩⟩ := x
    cases hxc
    exact rowsWeight_specRow mkLet t types hx
  have hal' : al.length = ql.length := by
    have h1 := congrArg List.length hal.colTys
    have h2 := congrArg List.length hqty
    simp only [length_map] at h1 h2
    omega
  have hlookup : ((rl.foldr (dispatchRow mkLet types t) ([], [])).1).lookup cs =
      some (splitRows mkLet t (specRow types cs) rl) := by
    have hrows := (foldr_dispatchRow mkLet hcol.distinct t rl).1 cs
    have hne : splitRows mkLet t (specRow types cs) rl ≠ [] := by
      -- the row in which the constructor occurs is one of them
      obtain ⟨pl, ⟨c, a⟩⟩ := x
      cases hxc
      have hrow : (ql.reverse ++ pl, a) ∈ splitRows mkLet t (specRow types cs) rl := by
        refine mem_filterMap.mpr ⟨_, hx, ?_⟩
        simp only [specRow, if_true]
      exact ne_nil_of_mem hrow
    cases hl : ((rl.foldr (dispatchRow mkLet types t) ([], [])).1).lookup cs with
    | none =>
      rw [hl] at hrows
      exact absurd hrows.symm hne
    | some rl' =>
      rw [hl] at hrows
      exact congrArg some hrows
  cases hrec hm (by
    rw [length_append, length_reverse]
    rw [length_cons] at hn
    omega) with
  | inl hok =>
    obtain ⟨e, hok, hgood, hsem⟩ := hok
    refine .inl ⟨e, ?_, hgood, ?_⟩
    · rw [compCases]
      simp only [hlookup, hok]
    · intro ρ ρ' hρ hρ' heq hdestr
      have hd := h.dom_head hQ hβ hρ
      have hvals : tl.map (I.val ρ' β) = tl.map (I.val ρ β) := by
        apply map_congr_left
        intro s hs
        rw [val, val, sem_congr_env s β fun v hv =>
          heq v (h.below s (mem_cons_of_mem _ hs) v hv)]
      have hl : ql.length = (al.map (I.val ρ' β)).length := by rw [length_map, hal']
      have hds : List.Forall₂ I.dom ((constrArgTys cs (.tyapp ts tyl)).reverse ++ tys)
          ((al.map (I.val ρ' β)).reverse ++ tl.map (I.val ρ β)) := by
        have hv := vals_typed hQ hβ hm.colTys hm.typed hρ'
        rwa [map_append, map_reverse, hvals] at hv
      rw [hsem ρ' hρ', map_append, map_reverse, hvals, map_cons,
        rowsSem_rowHeads hd (A.let_eq h.head h.splitTys.1 h.dep) h.rows,
        rowsSem_congr (splitRows_specRow_ok hheads hql hqty) hρ' hρ heq hds]
      exact rowsSem_splitRows fun x hx => specRow_sem (hheads x hx).2 hcs hd hdestr hql hl
  | inr herr =>
    obtain ⟨e, herr, hmiss⟩ := herr
    obtain ⟨e', he'⟩ := compCases_error (.tyapp ts tyl) hlookup herr
    refine .inr ⟨e', he', ?_, ?_⟩
    · obtain ⟨ds, hds, hun⟩ := hmiss.unmatched
      obtain ⟨xs, ys, rfl, hxs, hys⟩ := forall₂_append_left.mp hds
      have hargs : List.Forall₂ I.dom (constrArgTys cs (.tyapp ts tyl)) xs.reverse := by
        rw [← List.forall₂_reverse_iff, reverse_reverse]
        exact hxs
      have hd := I.fn_constr_dom hcs hlen hargs
      refine ⟨_, .cons hd hys, ?_⟩
      rw [unmatched_constr h.rows (fun x hx => (hheads x hx).2) hcs hql hqty hd
        (I.destr_fn hcs hargs), reverse_reverse]
      exact hun
    · intro hC hwf
      have hargwf := tyWf_constrArgTys hC (hwf _ mem_cons_self) hcs
      obtain ⟨pl, rfl, hpats⟩ := hmiss.pats hC fun ty hty => by
        cases mem_append.mp hty with
        | inl hty => exact hargwf ty (mem_reverse.mp hty)
        | inr hty => exact hwf ty (mem_cons_of_mem _ hty)
      obtain ⟨pl', hcons, hpats'⟩ :=
        hpats.constr h.rows (fun x hx => (hheads x hx).2) hlen hcs hql hqty
      refine ⟨pl', ?_, hpats'⟩
      rw [compCases] at he'
      simp only [hlookup, herr, hcons, bind, Except.bind, Except.error.injEq] at he'
      exact he'.symm

theorem compWilds_error (ty : Ty) (css : List LSymbol) (types : List (LSymbol × List Pattern))
    {wilds : List (Row α)} {e : CompileError} (he : rec tl wilds = .error e) :
    ∃ e', compWilds rec ty css types tl wilds = .error e' := by
  rw [compWilds, he]
  cases e with
  | nonExhaustive pl =>
    simp only
    split
    · split <;> exact ⟨_, rfl⟩
    · exact ⟨_, rfl⟩
  | _ => exact ⟨_, rfl⟩

include hQ hβ in
/-- The rows of no constructor are compiled, if some value of the column needs them. -/
theorem compWilds_outcome (h : MatrixTyped A W k (ty :: tys) (t :: tl) rl)
    (hrec : CompilesTo A (AllConstructors C getConstructors) W k n rec)
    (hn : (t :: tl).length + rowsWeight rl < n + 1) (hget : GetsConstructors C getConstructors)
    (hset : constrSet getConstructors ty = .ok (bare, css)) (hcol : Column mkLet t rl types)
    (hd : I.dom ty d) (hnone : ∀ cs ∈ types.map Prod.fst, I.destr cs d = none) :
    Outcome (WildMeans A t tl rl types)
      (Missed I (AllConstructors C getConstructors) (ty :: tys) rl)
      (compWilds rec ty css types tl ((rl.foldr (dispatchRow mkLet types t) ([], [])).2)) := by
  rw [(foldr_dispatchRow mkLet hcol.distinct t rl).2]
  cases hrec (h.wild hQ hβ) (by
    have := rowsWeight_wildRow mkLet t rl
    rw [length_cons] at hn
    omega) with
  | inl hok =>
    obtain ⟨e, hok, hgood, hsem⟩ := hok
    refine .inl ⟨e, ?_, hgood, ?_⟩
    · rw [compWilds, hok]
    · intro ρ hρ hnone'
      have hd := h.dom_head hQ hβ hρ
      rw [hsem ρ hρ, map_cons, rowsSem_rowHeads hd (A.let_eq h.head h.splitTys.1 h.dep) h.rows]
      exact rowsSem_splitRows fun x hx => wildRow_sem fun fs pl' he =>
        hnone' fs (hcol.all (fs, pl') ⟨x, hx, he⟩)
  | inr herr =>
    obtain ⟨e, herr, hmiss⟩ := herr
    obtain ⟨e', he'⟩ := compWilds_error ty css types herr
    refine .inr ⟨e', he', ?_, ?_⟩
    · obtain ⟨ds, hds, hun⟩ := hmiss.unmatched
      refine ⟨d :: ds, .cons hd hds, ?_⟩
      rw [unmatched_wild h.rows hd fun x hx fs pl' he =>
        hnone fs (hcol.all (fs, pl') ⟨x, hx, he⟩)]
      exact hun
    · intro hC hwf
      have hheads := h.heads_ok hQ hβ
      obtain ⟨pl, rfl, hpats⟩ := hmiss.pats hC (forall_mem_cons.mp hwf).2
      obtain ⟨p, hp, hty, hpt, hpn⟩ := missingPattern hget hset (hwf ty mem_cons_self)
        (fun c hc => by
          obtain ⟨x, hx, hxc⟩ := hcol.occurs c hc
          obtain ⟨⟨ts, tyl, he, hcs, -⟩, -⟩ := (hheads x hx).2 c.1 c.2 hxc
          exact ⟨ts, tyl, he, hcs⟩) hd hnone
      refine ⟨p :: pl, ?_, hpats.wild h.rows hcol hty hpt hpn⟩
      exact Except.error.inj (he'.symm.trans (hp _ _ _ pl herr))

/-- A constructor application as the matched term. -/
theorem knownConstr_typed (I : Interp C D) (β : List D) (ht : WellTyped C Q Γ t)
    (hty : t.tTy = some ty) (hc : knownConstr (isConstr bare css) t = some (cs, al)) :
    ∃ ts tyl, ty = .tyapp ts tyl ∧ tyl.length = ts.tsArgs.length ∧ cs ∈ C.constrs ts ∧
      al.map Term.tTy = (constrArgTys cs ty).map some ∧ (∀ s ∈ al, WellTyped C Q Γ s) ∧
      (∀ ρ, I.val ρ β t = I.fn cs ty (al.map (I.val ρ β))) ∧ ∀ s ∈ al, tVars s ⊆ tVars t := by
  cases t with
  | tapp a ls tl aty =>
    rw [knownConstr] at hc
    split at hc
    · rename_i his
      cases hc
      cases hty
      obtain ⟨htl, hpos, s, hargs, hval⟩ := ht
      rw [isConstr, Bool.and_eq_true, decide_eq_true_iff] at his
      obtain ⟨ts, hcs⟩ := hpos his.1
      obtain ⟨⟨tyl, he, hlen⟩, hatys⟩ := constrArgTys_tyInst hcs hval.symm
      refine ⟨ts, tyl, he, hlen, hcs, ?_, wellTypedList_iff.mp htl, ?_, ?_⟩
      · rw [hatys, map_map]
        exact hargs
      · intro ρ
        rw [val, sem, semList_eq_map]
      · intro s hs v hv
        rw [tVars, mem_tVarsList]
        exact ⟨s, hs, hv⟩
    · cases hc
  | _ => cases hc

theorem findSome?_of_unique {γ δ : Type} {f : γ → Option δ} {l : List γ} {x : γ} {b : δ}
    (hx : x ∈ l) (hb : f x = some b) (h : ∀ y ∈ l, f y = none ∨ f y = some b) :
    l.findSome? f = some b := by
  induction l with
  | nil => cases hx
  | cons y l ih =>
    rw [findSome?_cons]
    cases h y mem_cons_self with
    | inr hy => rw [hy]
    | inl hy =>
      rw [hy]
      cases mem_cons.mp hx with
      | inl he =>
        rw [← he, hb] at hy
        cases hy
      | inr hx => exact ih hx (forall_mem_cons.mp h).2

/-- The branch of a constructor with the variables of its arguments. -/
def constrBranch (k : Nat) (ty : Ty) (c : LSymbol × List Pattern) (a : α) : Pattern × α :=
  (.papp c.1 ((freshVars k "x" (c.2.map patTy)).map .pvar) ty, a)

include hQ hβ in
/-- A match on the constructors of the column. -/
theorem means_compiledMatch (h : MatrixTyped A W k (.tyapp ts tyl :: tys) (t :: tl) rl)
    (hlen : tyl.length = ts.tsArgs.length) (hcol : Column mkLet t rl types)
    (hsub : ∀ c ∈ types, c.1 ∈ C.constrs ts ∧ c.2.map patTy = constrArgTys c.1 (.tyapp ts tyl))
    (hne : types ≠ []) {bl : List ((LSymbol × List Pattern) × α)} (hbl : bl.map Prod.fst = types)
    (hsem : ∀ x ∈ bl, CaseMeans A k t tl rl x.1.1
      (fun ρ => (freshVars k "x" (x.1.2.map patTy)).map ρ) x.2)
    {base : List (Pattern × α)} (hbase : base = [] ∧ (∀ c ∈ C.constrs ts, c ∈ types.map Prod.fst) ∨
      ∃ a, base = [(.pwild (.tyapp ts tyl), a)] ∧ (∃ c ∈ C.constrs ts, c ∉ types.map Prod.fst) ∧
        WildMeans A t tl rl types a) :
    Means A (t :: tl) rl (mkCase t
      ((bl.map fun x => constrBranch k (.tyapp ts tyl) x.1 x.2).reverse ++ base)) := by
  have hmem : ∀ x ∈ bl, x.1 ∈ types := fun x hx => hbl ▸ mem_map_of_mem hx
  have hfst : bl.map (fun x => x.1.1) = types.map Prod.fst := by
    rw [← hbl, map_map]
    rfl
  have hkeys : (bl.map fun x => x.1.1).Nodup := hfst ▸ hcol.distinct
  have hform : CompiledForm C (.tyapp ts tyl)
      (((bl.map fun x => constrBranch k (.tyapp ts tyl) x.1 x.2).reverse ++ base).map Prod.fst) := by
    refine ⟨ts, tyl, rfl, hlen,
      (bl.map fun x => (x.1.1, freshVars k "x" (x.1.2.map patTy))).reverse, !base.isEmpty,
      ?_, ?_, ?_, ?_, ?_⟩
    · rw [map_append, map_reverse, map_reverse, map_map, map_map]
      obtain ⟨rfl, -⟩ | ⟨a, rfl, -⟩ := hbase <;> rfl
    · rw [map_reverse, nodup_reverse, map_map]
      exact hkeys
    · intro c hc
      obtain ⟨x, hx, rfl⟩ := mem_map.mp (mem_reverse.mp hc)
      obtain ⟨hxc, hxty⟩ := hsub x.1 (hmem x hx)
      exact ⟨hxc, (freshVars_tys k "x" _).trans hxty, freshVars_nodup k "x" _⟩
    · intro hw
      obtain ⟨rfl, -⟩ | ⟨a, rfl, ⟨c, hc, hnot⟩, -⟩ := hbase
      · cases hw
      · refine ⟨c, hc, fun hin => hnot ?_⟩
        rw [map_reverse, mem_reverse, map_map] at hin
        rw [← hfst]
        exact hin
    · intro hw
      obtain ⟨rfl, hall⟩ | ⟨a, rfl, -⟩ := hbase
      · refine ⟨?_, fun c hc => ?_⟩
        · rw [reverse_ne_nil_iff, ne_eq, map_eq_nil_iff]
          rintro rfl
          exact hne hbl.symm
        · have hin := hall c hc
          rw [← hfst] at hin
          rw [map_reverse, mem_reverse, map_map]
          exact hin
      · cases hw
  refine ⟨A.good_mkCase h.head h.splitTys.1 hform ?_, ?_⟩
  · intro b hb
    rw [mem_append, mem_reverse, mem_map] at hb
    cases hb with
    | inl hb =>
      obtain ⟨x, hx, rfl⟩ := hb
      exact (hsem x hx).1
    | inr hb =>
      cases hbase with
      | inl he =>
        rw [he.1] at hb
        cases hb
      | inr he =>
        obtain ⟨a, rfl, -, ha, -⟩ := he
        rw [mem_singleton] at hb
        exact hb ▸ ha
  · intro ρ hρ
    rw [A.sem_mkCase hρ h.head h.splitTys.1 hform]
    have hd := h.dom_head hQ hβ hρ
    obtain ⟨c0, hc0⟩ := exists_mem_of_ne_nil types hne
    obtain ⟨c, hc, args, hargs⟩ :=
      I.cover (ne_nil_of_mem (hsub c0 hc0).1) hd
    have hother : ∀ x ∈ bl, x.1.1 ≠ c →
        I.rowSem A.asem ρ [I.val ρ β t]
          ([(constrBranch k (.tyapp ts tyl) x.1 x.2).1], x.2) = none := by
      intro x hx hxc
      have hnone := destr_of_ne hc (hsub x.1 (hmem x hx)).1 hd hargs hxc
      simp [rowSem, constrBranch, patsOk, patOk, hnone]
    rw [rowsSem, map_append, findSome?_append]
    by_cases hck : c ∈ types.map Prod.fst
    · -- the branch of the constructor that builds the value
      rw [← hfst] at hck
      obtain ⟨x, hx, rfl⟩ := mem_map.mp hck
      have hty := (hsub x.1 (hmem x hx)).2
      have hl : (freshVars k "x" (x.1.2.map patTy)).length = args.length := by
        rw [freshVars_length, hty, (I.fn_destr hc hd hargs).1.length_eq]
      have hρ' : I.bindPats [(constrBranch k (.tyapp ts tyl) x.1 x.2).1] [I.val ρ β t] ρ =
          I.bindPats ((freshVars k "x" (x.1.2.map patTy)).map .pvar) args ρ := by
        rw [constrBranch, bindPats_papp hargs (by rw [length_map, hl]), append_nil, append_nil]
      have hrow : I.rowSem A.asem ρ [I.val ρ β t]
            ([(constrBranch k (.tyapp ts tyl) x.1 x.2).1], x.2) =
          some (A.asem (I.bindPats ((freshVars k "x" (x.1.2.map patTy)).map .pvar) args ρ) x.2) := by
        rw [rowSem, hρ']
        simp [constrBranch, patsOk, patOk, hargs, patsOk_pvars hl]
      rw [← (hsem x hx).2 ρ _ hρ (typedEnv_bindPats hρ (by simp [PatTyped]) ?_ (patsOk_pvars hl)) ?_
        (hargs.trans (congrArg some (map_bindPats_pvar (freshVars_nodup k "x" _) hl ρ).symm))]
      · rw [findSome?_of_unique (x := ([(constrBranch k (.tyapp ts tyl) x.1 x.2).1], x.2)) _ hrow,
          Option.some_or]
        · refine forall_mem_map.mpr fun b hb => ?_
          obtain ⟨x', hx', rfl⟩ := mem_map.mp (mem_reverse.mp hb)
          by_cases he : x'.1.1 = x.1.1
          · have := inj_on_of_nodup_map hkeys hx' hx he
            subst this
            exact .inr hrow
          · exact .inl (hother x' hx' he)
        · exact mem_map.mpr ⟨_, mem_reverse.mpr (mem_map_of_mem hx), rfl⟩
      · have hpt : (fun v => patTy (Pattern.pvar v)) = VSymbol.vsTy := rfl
        rw [map_map, Function.comp_def, hpt, freshVars_tys, hty]
        exact (I.fn_destr hc hd hargs).1
      · intro v hv
        apply bindPats_of_notMem (by simp [PatTyped])
        intro hm
        obtain ⟨p, hp, hvp⟩ := mem_flatMap.mp hm
        obtain ⟨u, hu, rfl⟩ := mem_map.mp hp
        rw [patVars, mem_singleton] at hvp
        subst hvp
        have := (freshVars_tag hu).1
        omega
    · obtain ⟨rfl, hall⟩ | ⟨a, rfl, -, -, ha⟩ := hbase
      · exact absurd (hall c hc) hck
      · have hnone : ((bl.map fun x => constrBranch k (.tyapp ts tyl) x.1 x.2).reverse.map
            fun b => ([b.1], b.2)).findSome? (I.rowSem A.asem ρ [I.val ρ β t]) = none := by
          rw [findSome?_eq_none_iff]
          refine forall_mem_map.mpr fun b hb => ?_
          obtain ⟨x, hx, rfl⟩ := mem_map.mp (mem_reverse.mp hb)
          refine hother x hx fun he => hck ?_
          rw [← he]
          exact mem_map_of_mem (hmem x hx)
        rw [hnone, ← ha ρ hρ]
        · simp [rowSem, patsOk, patOk, bindPats_pwild, bindPats_nil]
        · intro cs hcs
          obtain ⟨x, hx, rfl⟩ := mem_map.mp hcs
          exact destr_of_ne hc (hsub x hx).1 hd hargs fun he => hck (he ▸ hcs)

/-- A constructor that is not in the column builds a value of its type. -/
theorem exists_value (hlen : tyl.length = ts.tsArgs.length) {c : LSymbol} (hc : c ∈ C.constrs ts)
    (hsub : ∀ c ∈ types, c.1 ∈ C.constrs ts) (hnot : c ∉ types.map Prod.fst) :
    ∃ d, I.dom (.tyapp ts tyl) d ∧ ∀ cs ∈ types.map Prod.fst, I.destr cs d = none := by
  have hargs := forall₂_witness I (constrArgTys c (.tyapp ts tyl))
  have hd := I.fn_constr_dom hc hlen hargs
  refine ⟨_, hd, fun cs hcs => ?_⟩
  obtain ⟨x, hx, rfl⟩ := mem_map.mp hcs
  exact destr_of_ne hc (hsub x hx) hd (I.destr_fn hc hargs) fun he => hnot (he ▸ hcs)

/-- A compilation that returns an action with the meaning of the matrix. -/
def Compiles (A : ActionSem I Q Γ β mkCase mkLet S) (tl : List Term) (rl : List (Row α))
    (r : Except CompileError α) : Prop :=
  ∃ e, r = .ok e ∧ A.Good e ∧ ∀ ρ, I.TypedEnv ρ →
    some (A.asem ρ e) = I.rowsSem A.asem ρ (tl.map (I.val ρ β)) rl

theorem argTerms_freshVars (A : ActionSem I Q Γ β mkCase mkLet S) (W : Set VSymbol) (k : Nat)
    (s : String) (tys : List Ty) :
    ArgTerms A W (W ∪ {v | v ∈ freshVars k s tys}) k (k + (freshVars k s tys).length) tys
      ((freshVars k s tys).map tVar) where
  colTys := by
    conv_rhs => rw [← freshVars_tys k s tys, map_map]
    rw [map_map]
    rfl
  typed := forall_mem_map.mpr fun _ _ => trivial
  deps := .inr (forall_mem_map.mpr fun _ hu _ hv => .inr (Finset.mem_singleton.mp hv ▸ hu))
  below := by
    refine forall_mem_map.mpr fun u hu v hv => ?_
    rw [Finset.mem_singleton.mp hv, freshVars_length]
    exact (freshVars_tag hu).2
  le := Nat.le_add_right k _
  sub := Set.subset_union_left
  fresh _ hv := hv.imp id fun hv => (freshVars_tag hv).1

include hQ hβ in
theorem constrBranches_ok {complete : Prop}
    (ih : ∀ {W k}, CompilesTo A complete W k n (compileFuel getConstructors mkCase mkLet n k))
    (h : MatrixTyped A W k (.tyapp ts tyl :: tys) (t :: tl) rl)
    (hn : (t :: tl).length + rowsWeight rl < n + 1) (hlen : tyl.length = ts.tsArgs.length)
    (hcol : Column mkLet t rl types) {c : LSymbol × List Pattern} (hc : c ∈ types)
    (hargs : c.2.map patTy = constrArgTys c.1 (.tyapp ts tyl)) :
    Outcome (CaseMeans A k t tl rl c.1 fun ρ => (freshVars k "x" (c.2.map patTy)).map ρ)
      (Missed I complete (.tyapp ts tyl :: tys) rl)
      (compCases (compileFuel getConstructors mkCase mkLet n
          (k + (freshVars k "x" (c.2.map patTy)).length)) (.tyapp ts tyl)
        ((rl.foldr (dispatchRow mkLet types t) ([], [])).1) tl c.1
        ((freshVars k "x" (c.2.map patTy)).map tVar)) := by
  rw [hargs]
  have hql : types.lookup c.1 = some c.2 := AssocList.lookup_of_mem hcol.distinct hc
  refine (compCases_outcome hQ hβ _ _ h ih hn hlen hcol hql
    (argTerms_freshVars A W k "x" _)).imp (fun ⟨a, hok, hgood, hsem⟩ => ⟨a, hok, hgood, ?_⟩) id
  intro ρ ρ' hρ hρ' heq hd
  refine hsem ρ ρ' hρ hρ' heq (hd.trans ?_)
  simp only [map_map]
  rfl

include hQ hβ in
theorem compileStep_outcome (hget : GetsConstructors C getConstructors)
    (ih : ∀ {W k}, CompilesTo A (AllConstructors C getConstructors) W k n
      (compileFuel getConstructors mkCase mkLet n k))
    (h : MatrixTyped A W k (ty :: tys) (t :: tl) (r :: rl))
    (hn : (t :: tl).length + rowsWeight (r :: rl) < n + 1) : Outcome (Means A (t :: tl) (r :: rl))
      (Missed I (AllConstructors C getConstructors) (ty :: tys) (r :: rl))
      (compileFuel getConstructors mkCase mkLet (n + 1) k (t :: tl) (r :: rl)) := by
  have hheads := h.heads_ok hQ hβ
  have htype : tType t = .ok ty := by rw [tType, h.splitTys.1]
  obtain ⟨bare, css, hset, hconstrs⟩ := constrSet_ok hget ty
  have hin : ∀ c, (∃ x ∈ rowHeads mkLet t (r :: rl), x.2.1 = some c) →
      (∃ ts tyl, ty = .tyapp ts tyl ∧ c.1 ∈ C.constrs ts ∧ tyl.length = ts.tsArgs.length) ∧
        c.2.map patTy = constrArgTys c.1 ty := by
    intro c ⟨x, hx, hc⟩
    obtain ⟨hts, hargs, -⟩ := (hheads x hx).2 c.1 c.2 hc
    exact ⟨hts, hargs⟩
  obtain ⟨types, hpop, hnd, hfrom, -, hall⟩ :=
    foldlM_populateRow (isConstr bare css) ty mkLet t (r :: rl) []
      (fun r hr he => by have := (h.rows r hr).colTys; rw [he] at this; cases this)
      (fun c hc => by
        obtain ⟨⟨ts, tyl, rfl, hcs, -⟩, -⟩ := hin c hc
        exact isConstr_of_mem hconstrs hcs) nodup_nil
  have hcol : Column mkLet t (r :: rl) types :=
    ⟨hnd, fun c hc => (hfrom c hc).resolve_left not_mem_nil, hall⟩
  rw [compileFuel, htype]
  simp only [bind, Except.bind, hset, hpop]
  by_cases hne : types = []
  · subst hne
    refine (compWilds_outcome hQ hβ h ih hn hget hset hcol (I.witness_dom ty)
      (fun cs hcs => nomatch hcs)).imp (fun ⟨e, hok, hgood, hsem⟩ => ⟨e, hok, hgood, ?_⟩) id
    exact fun ρ hρ => hsem ρ hρ fun cs hcs => nomatch hcs
  rw [if_neg (by simpa using hne)]
  obtain ⟨c0, hc0⟩ := exists_mem_of_ne_nil types hne
  obtain ⟨⟨ts, tyl, rfl, -, hlen⟩, -⟩ := hin c0 (hcol.occurs c0 hc0)
  have hsub : ∀ c ∈ types, c.1 ∈ C.constrs ts ∧
      c.2.map patTy = constrArgTys c.1 (.tyapp ts tyl) := by
    intro c hc
    obtain ⟨⟨ts', tyl', he, hcs, -⟩, hargs⟩ := hin c (hcol.occurs c hc)
    cases he
    exact ⟨hcs, hargs⟩
  cases hknown : knownConstr (isConstr bare css) t with
  | some ca =>
    obtain ⟨cs, al⟩ := ca
    obtain ⟨ts', tyl', he, -, hcs, halty, hal, hval, hvars⟩ :=
      knownConstr_typed I β h.head h.splitTys.1 hknown
    cases he
    have hdestr : ∀ ρ, I.TypedEnv ρ →
        I.destr cs (I.val ρ β t) = some (al.map (I.val ρ β)) := by
      intro ρ hρ
      rw [hval ρ, I.destr_fn hcs (vals_typed hQ hβ halty hal hρ)]
    simp only
    by_cases hl : (types.lookup cs).isSome = true
    · rw [if_pos hl]
      obtain ⟨ql, hql⟩ := Option.isSome_iff_exists.mp hl
      have hargs : ArgTerms A W W k k (constrArgTys cs (.tyapp ts tyl)) al :=
        ⟨halty, hal, h.dep.imp id fun hdep s hs v hv => hdep v (hvars s hs hv),
          fun s hs v hv => h.below t mem_cons_self v (hvars s hs hv), Nat.le_refl k,
          Set.Subset.refl W, fun v hv => .inl hv⟩
      refine (compCases_outcome hQ hβ W al h ih hn hlen hcol hql hargs).imp
        (fun ⟨e, hok, hgood, hsem⟩ => ⟨e, hok, hgood, ?_⟩) id
      exact fun ρ hρ => hsem ρ ρ hρ hρ (fun v _ => rfl) (hdestr ρ hρ)
    · rw [if_neg hl]
      have hnot : cs ∉ types.map Prod.fst := fun hm => hl (AssocList.lookup_isSome_iff.mpr hm)
      obtain ⟨d, hd, hnone⟩ := exists_value hlen hcs (fun c hc => (hsub c hc).1) hnot
      refine (compWilds_outcome hQ hβ h ih hn hget hset hcol hd hnone).imp
        (fun ⟨e, hok, hgood, hsem⟩ => ⟨e, hok, hgood, fun ρ hρ => hsem ρ hρ fun c hc => ?_⟩) id
      obtain ⟨x, hx, rfl⟩ := mem_map.mp hc
      exact destr_of_ne hcs (hsub x hx).1 (h.dom_head hQ hβ hρ)
        (hdestr ρ hρ) fun he => hnot (he ▸ hc)
  | none =>
    have hfold := Except.foldlM_cons_map_or (constrBranch k (.tyapp ts tyl)) fun c hc =>
      constrBranches_ok hQ hβ ih h hn hlen hcol hc (hsub c hc).2
    simp only [constrBranch, bind, Except.bind] at hfold
    have hnw := noWilds_iff hconstrs hne hnd fun c hc => by
      obtain ⟨x, hx, rfl⟩ := mem_map.mp hc
      exact (hsub x hx).1
    by_cases hw : noWilds bare css types = true
    · rw [if_pos hw]
      refine Outcome.bind (hfold []) fun _ ⟨bl, hbl, hP, hacc⟩ => ?_
      subst hacc
      exact .inl ⟨_, rfl, means_compiledMatch hQ hβ h hlen hcol hsub hne hbl hP
        (.inl ⟨rfl, hnw.mp hw⟩)⟩
    · rw [if_neg hw]
      obtain ⟨c, hc, hnot⟩ : ∃ c ∈ C.constrs ts, c ∉ types.map Prod.fst := by
        by_contra hno
        exact hw (hnw.mpr fun c hc => by_contra fun hn => hno ⟨c, hc, hn⟩)
      obtain ⟨d, hd, hnone⟩ := exists_value hlen hc (fun c hc => (hsub c hc).1) hnot
      refine (compWilds_outcome hQ hβ h ih hn hget hset hcol hd hnone).bind fun a ha => ?_
      refine Outcome.bind (hfold [(.pwild (.tyapp ts tyl), a)]) fun _ ⟨bl, hbl, hP, hacc⟩ => ?_
      subst hacc
      exact .inl ⟨_, rfl, means_compiledMatch hQ hβ h hlen hcol hsub hne hbl hP
        (.inr ⟨a, rfl, ⟨c, hc, hnot⟩, ha⟩)⟩

theorem mapM_tType (h : tl.map Term.tTy = tys.map some) : tl.mapM tType = .ok tys := by
  induction tl generalizing tys with
  | nil =>
    rw [map_eq_nil_iff.mp h.symm]
    rfl
  | cons t tl ih =>
    obtain ⟨ty, tys, rfl, hty, h⟩ := map_eq_cons_iff.mp h.symm
    rw [mapM_cons, tType, ← hty, ih h.symm]
    rfl

include hQ hβ in
/-- The compilation of a well-typed matrix returns an action of its meaning or complains
that the matrix is not exhaustive. -/
theorem compileFuel_outcome (hget : GetsConstructors C getConstructors) (n : Nat) :
    ∀ {W k tys tl rl}, MatrixTyped A W k tys tl rl → tl.length + rowsWeight rl < n →
      Outcome (Means A tl rl) (Missed I (AllConstructors C getConstructors) tys rl)
        (compileFuel getConstructors mkCase mkLet n k tl rl) := by
  induction n with
  | zero => exact fun _ hn => absurd hn (Nat.not_lt_zero _)
  | succ n ih =>
    intro W k tys tl rl h hn
    cases rl with
    | nil =>
      refine .inr ⟨.nonExhaustive (tys.map .pwild), ?_, ?_, ?_⟩
      · rw [compileFuel, mapM_tType h.colTys]
        rfl
      · exact ⟨_, forall₂_witness I tys, fun r hr => nomatch hr⟩
      · exact fun _ _ => ⟨_, rfl, missedPats_nil I _ tys⟩
    | cons r rl =>
      cases tl with
      | nil =>
        have htys : tys = [] := by
          have := congrArg List.length h.colTys
          simpa using this.symm
        subst htys
        have hr := h.rows r mem_cons_self
        have hpl : r.1 = [] := map_eq_nil_iff.mp hr.colTys
        refine .inl ⟨r.2, ?_, hr.good, fun ρ _ => ?_⟩
        · rw [compileFuel]
        · simp [rowsSem, rowSem, hpl, patsOk, bindPats_nil]
      | cons t tl =>
        cases tys with
        | nil => exact absurd h.colTys (by simp)
        | cons ty tys => exact compileStep_outcome hQ hβ hget ih h hn

include hQ hβ in
theorem compile_outcome
    (hget : GetsConstructors C getConstructors) (h : MatrixTyped A W k tys tl rl) :
    Outcome (Means A tl rl) (Missed I (AllConstructors C getConstructors) tys rl)
      (compile getConstructors mkCase mkLet k tl rl) :=
  compileFuel_outcome hQ hβ hget _ h (Nat.lt_succ_self _)

include hQ hβ in
theorem compile_ok (hget : GetsConstructors C getConstructors) (h : MatrixOk A W k tys tl rl) :
    Compiles A tl rl (compile getConstructors mkCase mkLet k tl rl) := by
  cases compile_outcome hQ hβ hget h.toTyped with
  | inl hok => exact hok
  | inr herr =>
    obtain ⟨e, -, hmiss⟩ := herr
    obtain ⟨ds, hds, hun⟩ := hmiss.unmatched
    obtain ⟨r, hr, hok⟩ := h.exh ds hds
    rw [hun r hr] at hok
    cases hok

include hQ hβ in
theorem compileBare_ok (h : MatrixOk A W k tys tl rl) :
    Compiles A tl rl (compileBare mkCase mkLet k tl rl) := by
  have hget : GetsConstructors C fun _ => .ok none := fun ts => .inl rfl
  obtain ⟨e, hok, he⟩ := compile_ok hQ hβ hget h
  refine ⟨e, ?_, he⟩
  rw [compileBare, hok]

end Correct

end Interp

end Why3
