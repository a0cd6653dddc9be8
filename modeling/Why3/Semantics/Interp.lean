import Why3.Core.Term
import Why3.Metatheory.TyInst

/-!
Interpretations of terms and formulas.

All types live in one universe `D` and `dom` gives the elements of each; every
type has an element. Algebraic types are given by a signature of constructors,
which are injective, disjoint and cover the type. A term is interpreted by a
value and a truth value at once, so that terms and formulas share one recursion;
the truth value of a term with a type is `False`.
-/
namespace Why3

open List

/-- The constructors of the algebraic types. -/
structure AlgSig where
  constrs : TySymbol → List LSymbol
  value : ∀ {ts c}, c ∈ constrs ts → c.lsValue = some (.tyapp ts (ts.tsArgs.map .tyvar))
  count : ∀ {ts c}, c ∈ constrs ts → c.lsConstr = (constrs ts).length
  distinct : ∀ ts, (constrs ts).Nodup
  params : ∀ {ts c a}, c ∈ constrs ts → a ∈ c.lsArgs → ∀ v ∈ tyFreevars a, v ∈ ts.tsArgs
  vars : ∀ {ts c}, c ∈ constrs ts → ts.tsArgs.Nodup

/-- No algebraic types. -/
def emptySig : AlgSig where
  constrs _ := []
  value := nofun
  count := nofun
  distinct _ := nodup_nil
  params := nofun
  vars := nofun

/-- The types of the arguments of a constructor that builds a value of a type. -/
def constrArgTys (cs : LSymbol) : Ty → List Ty
  | .tyapp ts tl => cs.lsArgs.map (tyInst (tsMatchArgs ts tl))
  | .tyvar _ => []

structure Interp (C : AlgSig) (D : Type) where
  dom : Ty → D → Prop
  witness : Ty → D
  fn : LSymbol → Ty → List D → D
  pr : LSymbol → List D → Prop
  const : Constant → Ty → D
  choose : Ty → (D → Prop) → D
  /-- The arguments of a value that the constructor builds. -/
  destr : LSymbol → D → Option (List D)
  witness_dom : ∀ ty, dom ty (witness ty)
  fn_dom : ∀ {ls ty args} (s : TySubst), ls.lsValue.map (tyInst s) = some ty →
    List.Forall₂ dom (ls.lsArgs.map (tyInst s)) args → dom ty (fn ls ty args)
  const_dom : ∀ c ty, dom ty (const c ty)
  choose_dom : ∀ ty P, dom ty (choose ty P)
  choose_spec : ∀ {ty d} {P : D → Prop}, dom ty d → P d → P (choose ty P)
  equ : ∀ a b, pr psEqu [a, b] ↔ a = b
  destr_fn : ∀ {ts c tl args}, c ∈ C.constrs ts →
    List.Forall₂ dom (constrArgTys c (.tyapp ts tl)) args →
    destr c (fn c (.tyapp ts tl) args) = some args
  fn_destr : ∀ {ts c tl d args}, c ∈ C.constrs ts → dom (.tyapp ts tl) d →
    destr c d = some args →
    List.Forall₂ dom (constrArgTys c (.tyapp ts tl)) args ∧ fn c (.tyapp ts tl) args = d
  disjoint : ∀ {ts c c' tl d args args'}, c ∈ C.constrs ts → c' ∈ C.constrs ts →
    dom (.tyapp ts tl) d → destr c d = some args → destr c' d = some args' → c = c'
  cover : ∀ {ts tl d}, C.constrs ts ≠ [] → dom (.tyapp ts tl) d →
    ∃ c ∈ C.constrs ts, ∃ args, destr c d = some args

namespace Interp

variable {C : AlgSig} {D : Type} (I : Interp C D)

/-! Patterns: whether a value matches, and what a variable is then bound to. -/

mutual
def patOk : Pattern → D → Bool
  | .pwild _, _ | .pvar _, _ => true
  | .papp cs pl _, d =>
    match I.destr cs d with
    | some args => patsOk pl args
    | none => false
  | .por p q, d => patOk p d || patOk q d
  | .pas p _, d => patOk p d
def patsOk : List Pattern → List D → Bool
  | [], [] => true
  | p :: pl, d :: ds => patOk p d && patsOk pl ds
  | _, _ => false
end

mutual
def patGet : Pattern → D → VSymbol → Option D
  | .pwild _, _, _ => none
  | .pvar u, d, v => if v = u then some d else none
  | .papp cs pl _, d, v =>
    match I.destr cs d with
    | some args => patsGet pl args v
    | none => none
  | .por p q, d, v => if I.patOk p d then patGet p d v else patGet q d v
  | .pas p u, d, v => if v = u then some d else patGet p d v
def patsGet : List Pattern → List D → VSymbol → Option D
  | p :: pl, d :: ds, v => (patGet p d v).or (patsGet pl ds v)
  | _, _, _ => none
end

attribute [grind =] patOk patGet

/-- The values of the indices of a branch. -/
def patVals (p : Pattern) (d : D) : List D :=
  (patVars p).map fun v => (I.patGet p d v).getD (I.witness v.vsTy)

/-- The value of a formula, and of a match that has no branch for its argument. -/
def junk : D := I.witness tyInt

open scoped Classical in
noncomputable def select (c : Prop) (x y : D × Prop) : D × Prop := if c then x else y

theorem select_of {c : Prop} (h : c) (x y : D × Prop) : select c x y = x := if_pos h

theorem select_of_not {c : Prop} (h : ¬ c) (x y : D × Prop) : select c x y = y := if_neg h

theorem select_snd (c : Prop) (x y : D × Prop) : (select c x y).2 ↔ (c → x.2) ∧ (¬ c → y.2) := by
  by_cases h : c
  · rw [select_of h]
    simp [h]
  · rw [select_of_not h]
    simp [h]

mutual
noncomputable def sem (ρ : VSymbol → D) : List D → Term → D × Prop
  | _, .tvar _ v => (ρ v, False)
  | β, .bvar _ i _ => ((β[i]?).getD I.junk, False)
  | _, .tconst _ c ty => (I.const c ty, False)
  | β, .tapp _ ls tl (some ty) => (I.fn ls ty (semList ρ β tl), False)
  | β, .tapp _ ls tl none => (I.junk, I.pr ls (semList ρ β tl))
  | β, .tif _ f t e => select (sem ρ β f).2 (sem ρ β t) (sem ρ β e)
  | β, .tlet _ t _ e => sem ρ ((sem ρ β t).1 :: β) e
  | β, .tcase _ t bl =>
    semBranches ρ β (sem ρ β t).1 (I.junk, False) bl
  | β, .teps _ v f => (I.choose v.vsTy fun d => (sem ρ (d :: β) f).2, False)
  | β, .tquant _ .tforall vl _ f =>
    (I.junk, ∀ ds, List.Forall₂ (fun v d => I.dom v.vsTy d) vl ds → (sem ρ (ds ++ β) f).2)
  | β, .tquant _ .texists vl _ f =>
    (I.junk, ∃ ds, List.Forall₂ (fun v d => I.dom v.vsTy d) vl ds ∧ (sem ρ (ds ++ β) f).2)
  | β, .tbinop _ .tand f g => (I.junk, (sem ρ β f).2 ∧ (sem ρ β g).2)
  | β, .tbinop _ .tor f g => (I.junk, (sem ρ β f).2 ∨ (sem ρ β g).2)
  | β, .tbinop _ .timplies f g => (I.junk, (sem ρ β f).2 → (sem ρ β g).2)
  | β, .tbinop _ .tiff f g => (I.junk, (sem ρ β f).2 ↔ (sem ρ β g).2)
  | β, .tnot _ f => (I.junk, ¬ (sem ρ β f).2)
  | _, .ttrue _ => (I.junk, True)
  | _, .tfalse _ => (I.junk, False)
noncomputable def semList (ρ : VSymbol → D) : List D → List Term → List D
  | _, [] => []
  | β, t :: tl => (sem ρ β t).1 :: semList ρ β tl
noncomputable def semBranches (ρ : VSymbol → D) :
    List D → D → D × Prop → List (Pattern × Term) → D × Prop
  | _, _, x, [] => x
  | β, d, x, (p, e) :: bl =>
    if I.patOk p d then sem ρ (I.patVals p d ++ β) e else semBranches ρ β d x bl
end

attribute [grind =] sem

variable (ρ : VSymbol → D)

noncomputable def val (β : List D) (t : Term) : D := (I.sem ρ β t).1

def holds (β : List D) (f : Term) : Prop := (I.sem ρ β f).2

@[simp] theorem semList_eq_map (β : List D) (tl : List Term) :
    I.semList ρ β tl = tl.map (I.val ρ β) :=
  ListRec.eq_map rfl (fun _ _ => rfl) tl

theorem sem_setAttrs (β : List D) (a : Attrs) (t : Term) :
    I.sem ρ β (t.setAttrs a) = I.sem ρ β t := by
  cases t with
  | tapp b ls tl ty => cases ty <;> rfl
  | tquant b q vl tr f => cases q <;> rfl
  | tbinop b op f g => cases op <;> rfl
  | _ => rfl

theorem semBranches_map {J : Interp C D} {ρ ρ' : VSymbol → D} {β : List D}
    (hok : ∀ p d, J.patOk p d = I.patOk p d) (hvals : ∀ p d, J.patVals p d = I.patVals p d)
    (g : Term → Term) {bl : List (Pattern × Term)} (d : D) (x : D × Prop)
    (h : ∀ b ∈ bl, ∀ β, J.sem ρ' β (g b.2) = I.sem ρ β b.2) :
    J.semBranches ρ' β d x (bl.map fun b => (b.1, g b.2)) = I.semBranches ρ β d x bl := by
  induction bl with
  | nil => rfl
  | cons b bl ih =>
    rw [map_cons, semBranches, semBranches, hok, hvals, h b mem_cons_self,
      ih fun b' hb' => h b' (mem_cons_of_mem _ hb')]

variable {I} in
theorem semBranches_congr {J : Interp C D} {ρ ρ' : VSymbol → D} {β : List D}
    (hok : ∀ p d, J.patOk p d = I.patOk p d) (hvals : ∀ p d, J.patVals p d = I.patVals p d)
    {bl : List (Pattern × Term)} (d : D) (x : D × Prop)
    (h : ∀ b ∈ bl, ∀ β, J.sem ρ' β b.2 = I.sem ρ β b.2) :
    J.semBranches ρ' β d x bl = I.semBranches ρ β d x bl := by
  simpa using semBranches_map I hok hvals id d x h

/-- A map on variables under which the environments `ρ'`, `β'` give every variable
the value that `ρ`, `β` gave to its preimage. -/
structure Transports (ρ ρ' : VSymbol → D) (β β' : List D)
    (fv : Nat → Attrs → VSymbol → Term) (bv : Nat → Attrs → Nat → Ty → Term) : Prop where
  fvSem : ∀ γ a v, I.sem ρ' (γ ++ β') (fv γ.length a v) = (ρ v, False)
  bvSem : ∀ γ a i ty, I.sem ρ' (γ ++ β') (bv γ.length a i ty) =
    (((γ ++ β)[i]?).getD I.junk, False)

@[simp] theorem patVals_length (p : Pattern) (d : D) :
    (I.patVals p d).length = (patVars p).length := by
  rw [patVals, length_map]

variable {I}
variable {ρ ρ' : VSymbol → D} {β β' : List D} {fv : Nat → Attrs → VSymbol → Term}
  {bv : Nat → Attrs → Nat → Ty → Term}

theorem semBranches_mapVars (d : D) (x : D × Prop) (γ : List D) (bl : List (Pattern × Term))
    (ih : ∀ b ∈ bl, ∀ γ : List D,
      I.sem ρ' (γ ++ β') (b.2.mapVars fv bv γ.length) = I.sem ρ (γ ++ β) b.2) :
    I.semBranches ρ' (γ ++ β') d x
        (bl.map fun b => (b.1, b.2.mapVars fv bv (γ.length + (patVars b.1).length))) =
      I.semBranches ρ (γ ++ β) d x bl := by
  induction bl with
  | nil => rfl
  | cons b bl ihbl =>
    simp only [map_cons, semBranches]
    have hb := ih b mem_cons_self (I.patVals b.1 d ++ γ)
    rw [length_append, patVals_length, Nat.add_comm, append_assoc, append_assoc] at hb
    rw [hb, ihbl fun b' hb' => ih b' (mem_cons_of_mem b hb')]

theorem Transports.sem_mapVars (h : I.Transports ρ ρ' β β' fv bv) (t : Term) :
    ∀ γ : List D, I.sem ρ' (γ ++ β') (t.mapVars fv bv γ.length) = I.sem ρ (γ ++ β) t := by
  induction t using Term.induct with
  | tvar a v =>
    intro γ
    rw [Term.mapVars, h.fvSem, sem]
  | bvar a i ty =>
    intro γ
    rw [Term.mapVars, h.bvSem, sem]
  | tconst a c ty | ttrue a | tfalse a => exact fun γ => rfl
  | tapp a ls tl ty ih =>
    intro γ
    have hargs : (tl.map (Term.mapVars fv bv γ.length)).map (I.val ρ' (γ ++ β')) =
        tl.map (I.val ρ (γ ++ β)) := by
      rw [map_map]
      apply map_congr_left
      intro t ht
      rw [Function.comp_apply, val, ih t ht γ, val]
    cases ty <;> simp only [Term.mapVars, Term.mapVarsList_eq_map, sem, semList_eq_map, hargs]
  | tif a f t e hf ht he =>
    intro γ
    simp only [Term.mapVars, sem, hf γ, ht γ, he γ]
  | tlet a t v e ht he =>
    intro γ
    simp only [Term.mapVars, sem, ht γ]
    exact he (_ :: γ)
  | tcase a t bl ht hbl =>
    intro γ
    simp only [Term.mapVars, Term.mapVarsBranches_eq_map]
    rw [sem, ht γ]
    exact semBranches_mapVars _ _ γ bl hbl
  | teps a v f hf =>
    intro γ
    simp only [Term.mapVars, sem]
    congr 2
    funext d
    have := hf (d :: γ)
    rw [length_cons] at this
    rw [← cons_append, this, cons_append]
  | tquant a q vl tr f htr hf =>
    intro γ
    have hds : ∀ ds : List D, List.Forall₂ (fun v d => I.dom v.vsTy d) vl ds →
        I.sem ρ' (ds ++ (γ ++ β')) (f.mapVars fv bv (γ.length + vl.length)) =
          I.sem ρ (ds ++ (γ ++ β)) f := by
      intro ds hds
      have := hf (ds ++ γ)
      rwa [length_append, ← hds.length_eq, Nat.add_comm, append_assoc, append_assoc] at this
    cases q with
    | tforall =>
      simp only [Term.mapVars, sem]
      congr 1
      refine propext (forall_congr' fun ds => ?_)
      exact forall_congr' fun h => by rw [hds ds h]
    | texists =>
      simp only [Term.mapVars, sem]
      congr 1
      refine propext (exists_congr fun ds => ?_)
      exact and_congr_right fun h => by rw [hds ds h]
  | tbinop a op f g hf hg =>
    intro γ
    cases op <;> simp only [Term.mapVars, sem, hf γ, hg γ]
  | tnot a f hf =>
    intro γ
    simp only [Term.mapVars, sem, hf γ]

end Interp

end Why3
