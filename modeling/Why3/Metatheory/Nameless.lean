import Why3.Core.TermCompare
import Why3.Metatheory.Stored

/-!
Terms without the names of their bound symbols.

A bound symbol is the level of its binding, counted from the outside; attributes, triggers
and the types of quantified variables are left out. This is what the comparison of stored
terms sees: the frames around a term say what becomes of its symbols, and `descend` finds
the node of the nameless term.
-/
namespace Why3

open Stored (nodes)
open List

inductive NPat where
  | pwild
  | pvar (i : Nat)
  | papp (cs : LSymbol) (pl : List NPat)
  | por (p q : NPat)
  | pas (p : NPat) (i : Nat)

inductive NTerm where
  | tvar (v : VSymbol)
  | bnd (i : Nat) (ty : Ty)
  | tconst (c : Constant) (ty : Ty)
  | tapp (ls : LSymbol) (tl : List NTerm) (ty : Option Ty)
  | tif (f t e : NTerm)
  | tlet (t e : NTerm)
  | tcase (t : NTerm) (bl : List (NPat × NTerm))
  | teps (ty : Ty) (f : NTerm)
  | tquant (q : Quant) (n : Nat) (f : NTerm)
  | tbinop (op : Binop) (f g : NTerm)
  | tnot (f : NTerm)
  | ttrue
  | tfalse

namespace NTerm

def tTy : NTerm → Option Ty
  | tvar v => some v.vsTy
  | bnd _ ty => some ty
  | tconst _ ty => some ty
  | tapp _ _ ty => ty
  | tif _ t _ => tTy t
  | tlet _ e => tTy e
  | tcase _ [] => none
  | tcase _ ((_, e) :: _) => tTy e
  | teps ty _ => some ty
  | tquant _ _ _ | tbinop _ _ _ | tnot _ | ttrue | tfalse => none

mutual
def nodes : NTerm → Nat
  | tvar _ | bnd _ _ | tconst _ _ | ttrue | tfalse => 1
  | tapp _ tl _ => nodesList tl + 1
  | tif f t e => nodes f + nodes t + nodes e + 1
  | tlet t e => nodes t + nodes e + 1
  | tcase t bl => nodes t + nodesBranches bl + 1
  | teps _ f => nodes f + 1
  | tquant _ _ f => nodes f + 1
  | tbinop _ f g => nodes f + nodes g + 1
  | tnot f => nodes f + 1
def nodesList : List NTerm → Nat
  | [] => 0
  | t :: tl => nodes t + nodesList tl
def nodesBranches : List (NPat × NTerm) → Nat
  | [] => 0
  | (_, e) :: bl => nodes e + nodesBranches bl
end

end NTerm

mutual
def levelPat (lev : VSymbol → Nat) : Pattern → NPat
  | .pwild _ => .pwild
  | .pvar v => .pvar (lev v)
  | .papp cs pl _ => .papp cs (levelPatList lev pl)
  | .por p q => .por (levelPat lev p) (levelPat lev q)
  | .pas p v => .pas (levelPat lev p) (lev v)
def levelPatList (lev : VSymbol → Nat) : List Pattern → List NPat
  | [] => []
  | p :: pl => levelPat lev p :: levelPatList lev pl
end

theorem levelPatList_eq (lev : VSymbol → Nat) (pl : List Pattern) :
    levelPatList lev pl = pl.map (levelPat lev) :=
  ListRec.eq_map rfl (fun _ _ => rfl) pl

/-- The level of a variable of a pattern that is bound at level `k`. -/
def patLevel (k : Nat) (p : Pattern) (v : VSymbol) : Nat := k + (patVars p).idxOf v

section Nameless

variable (ρ : VSymbol → Nat → NTerm)

/-! `ρ` gives what a free symbol stands for under `k` bindings, `env` the levels of the
indices. -/

mutual
def nameless : List Nat → Nat → Term → NTerm
  | _, k, .tvar _ v => ρ v k
  | env, _, .bvar _ i ty => .bnd ((env[i]?).getD 0) ty
  | _, _, .tconst _ c ty => .tconst c ty
  | env, k, .tapp _ ls tl ty => .tapp ls (namelessList env k tl) ty
  | env, k, .tif _ f t e => .tif (nameless env k f) (nameless env k t) (nameless env k e)
  | env, k, .tlet _ t _ e => .tlet (nameless env k t) (nameless (k :: env) (k + 1) e)
  | env, k, .tcase _ t bl => .tcase (nameless env k t) (namelessBranches env k bl)
  | env, k, .teps _ v f => .teps v.vsTy (nameless (k :: env) (k + 1) f)
  | env, k, .tquant _ q vl _ f =>
    .tquant q vl.length (nameless (range' k vl.length ++ env) (k + vl.length) f)
  | env, k, .tbinop _ op f g => .tbinop op (nameless env k f) (nameless env k g)
  | env, k, .tnot _ f => .tnot (nameless env k f)
  | _, _, .ttrue _ => .ttrue
  | _, _, .tfalse _ => .tfalse
termination_by structural _ _ t => t
def namelessList : List Nat → Nat → List Term → List NTerm
  | _, _, [] => []
  | env, k, t :: tl => nameless env k t :: namelessList env k tl
termination_by structural _ _ tl => tl
def namelessBranches : List Nat → Nat → List (Pattern × Term) → List (NPat × NTerm)
  | _, _, [] => []
  | env, k, (p, e) :: bl =>
    (levelPat (patLevel k p) p,
      nameless (range' k (patVars p).length ++ env) (k + (patVars p).length) e) ::
      namelessBranches env k bl
termination_by structural _ _ bl => bl
end

attribute [grind =] nameless

theorem namelessList_eq (env : List Nat) (k : Nat) (tl : List Term) :
    namelessList ρ env k tl = tl.map (nameless ρ env k) :=
  ListRec.eq_map rfl (fun _ _ => rfl) tl

theorem namelessBranches_eq (env : List Nat) (k : Nat) (bl : List (Pattern × Term)) :
    namelessBranches ρ env k bl = bl.map fun b => (levelPat (patLevel k b.1) b.1,
      nameless ρ (range' k (patVars b.1).length ++ env) (k + (patVars b.1).length) b.2) :=
  ListRec.eq_map rfl (fun _ _ => rfl) bl

theorem nameless_setAttrs (env : List Nat) (k : Nat) (a : Attrs) (t : Term) :
    nameless ρ env k (t.setAttrs a) = nameless ρ env k t := by
  cases t <;> rfl

end Nameless

/-! Maps on variables. -/

section MapVars

variable {ρ ρ' : VSymbol → Nat → NTerm} (env env' : List Nat)
  {fv : Nat → Attrs → VSymbol → Term} {bv : Nat → Attrs → Nat → Ty → Term}

theorem nameless_mapVars (hfv : ∀ δ k a v, nameless ρ' (δ ++ env') k (fv δ.length a v) = ρ v k)
    (hbv : ∀ δ k a i ty, nameless ρ' (δ ++ env') k (bv δ.length a i ty) =
      .bnd (((δ ++ env)[i]?).getD 0) ty) (t : Term) :
    ∀ δ k, nameless ρ' (δ ++ env') k (t.mapVars fv bv δ.length) = nameless ρ (δ ++ env) k t := by
  have hblock : ∀ (f : Term), (∀ δ k, nameless ρ' (δ ++ env') k (f.mapVars fv bv δ.length) =
      nameless ρ (δ ++ env) k f) → ∀ δ k n, nameless ρ' (range' k n ++ (δ ++ env')) (k + n)
        (f.mapVars fv bv (δ.length + n)) = nameless ρ (range' k n ++ (δ ++ env)) (k + n) f := by
    intro f hf δ k n
    have := hf (range' k n ++ δ) (k + n)
    rwa [length_append, length_range', Nat.add_comm n, append_assoc, append_assoc] at this
  induction t using Term.induct with
  | tvar a v => exact fun δ k => hfv δ k a v
  | bvar a i ty => exact fun δ k => hbv δ k a i ty
  | tconst a c ty | ttrue a | tfalse a => exact fun δ k => rfl
  | tapp a ls tl ty ih =>
    intro δ k
    rw [Term.mapVars, nameless, nameless, Term.mapVarsList_eq_map, namelessList_eq,
      namelessList_eq, map_map]
    exact congrArg (NTerm.tapp ls · ty) (map_congr_left fun t ht => ih t ht δ k)
  | tif a f t e hf ht he =>
    intro δ k
    rw [Term.mapVars, nameless, nameless, hf, ht, he]
  | tlet a t v e ht he =>
    intro δ k
    rw [Term.mapVars, nameless, ht]
    exact congrArg (NTerm.tlet _) (hblock e he δ k 1)
  | tcase a t bl ht hbl =>
    intro δ k
    rw [Term.mapVars, nameless, nameless, ht, Term.mapVarsBranches_eq_map, namelessBranches_eq,
      namelessBranches_eq, map_map]
    refine congrArg (NTerm.tcase _) (map_congr_left fun b hb => ?_)
    exact Prod.ext rfl (hblock b.2 (hbl b hb) δ k _)
  | teps a v f hf =>
    intro δ k
    exact congrArg (NTerm.teps _) (hblock f hf δ k 1)
  | tquant a q vl tr f htr hf =>
    intro δ k
    rw [Term.mapVars, nameless, nameless, hblock f hf δ k]
  | tbinop a op f g hf hg =>
    intro δ k
    rw [Term.mapVars, nameless, nameless, hf, hg]
  | tnot a f hf =>
    intro δ k
    rw [Term.mapVars, nameless, nameless, hf]

end MapVars

variable (ρ : VSymbol → Nat → NTerm)

theorem nameless_lift (δ env : List Nat) (k : Nat) (t : Term) :
    nameless ρ (δ ++ env) k (t.lift δ.length) = nameless ρ env k t := by
  refine nameless_mapVars env (δ ++ env) (fun _ _ _ _ => rfl) (fun γ j a i ty => ?_) t [] k
  simp only [← apply_ite (Term.bvar a · ty), nameless, getElem?_append_shift]

theorem nameless_of_scoped (env : List Nat) (k : Nat) {t : Term}
    (h : Term.Scoped 0 t) : nameless ρ env k t = nameless ρ [] k t := by
  have hlift := nameless_lift ρ env [] k t
  rwa [Term.lift_of_scoped h, append_nil] at hlift

/-! The number of nodes and the type. -/

theorem nodes_nameless {ρ : VSymbol → Nat → NTerm} (hρ : ∀ v k, (ρ v k).nodes = 1) (t : Term) :
    ∀ env k, (nameless ρ env k t).nodes = nodes t := by
  induction t using Term.induct with
  | tvar a v => exact fun env k => hρ v k
  | tapp a ls tl ty ih =>
    intro env k
    have hlist : NTerm.nodesList (namelessList ρ env k tl) = Stored.nodesList tl := by
      induction tl with
      | nil => rfl
      | cons t tl ihl =>
        rw [namelessList, NTerm.nodesList, Stored.nodesList, ih t mem_cons_self,
          ihl (forall_mem_cons.mp ih).2]
    rw [nameless, NTerm.nodes, nodes, hlist]
  | tcase a t bl ht hbl =>
    intro env k
    have hlist : NTerm.nodesBranches (namelessBranches ρ env k bl) =
        Stored.nodesBranches bl := by
      induction bl with
      | nil => rfl
      | cons b bl ihl =>
        rw [namelessBranches, NTerm.nodesBranches, Stored.nodesBranches,
          hbl b mem_cons_self, ihl (forall_mem_cons.mp hbl).2]
    rw [nameless, NTerm.nodes, nodes, hlist, ht]
  | tif a f t e hf ht he =>
    intro env k
    rw [nameless, NTerm.nodes, nodes, hf, ht, he]
  | tlet a t v e ht he | tbinop a op t e ht he =>
    intro env k
    rw [nameless, NTerm.nodes, nodes, ht, he]
  | teps a v f hf | tquant a q vl tr f htr hf | tnot a f hf =>
    intro env k
    rw [nameless, NTerm.nodes, nodes, hf]
  | _ => exact fun env k => rfl

theorem tTy_nameless {ρ : VSymbol → Nat → NTerm} (hρ : ∀ v k, (ρ v k).tTy = some v.vsTy)
    (t : Term) : ∀ env k, (nameless ρ env k t).tTy = t.tTy := by
  induction t using Term.induct with
  | tvar a v => exact fun env k => hρ v k
  | tif a f t e hf ht he => exact fun env k => ht env k
  | tlet a t v e ht he => exact fun env k => he _ _
  | tcase a t bl ht hbl =>
    intro env k
    cases bl with
    | nil => rfl
    | cons b bl => exact hbl b mem_cons_self _ _
  | _ => exact fun env k => rfl

namespace Stored

/-! Frames. -/

/-- What a free symbol of a term under the frames stands for. -/
def frameEnv : List Frame → VSymbol → Nat → NTerm
  | [], v, _ => .tvar v
  | (bv, vm) :: vml, v, k =>
    match bv.lookup v with
    | some i => .bnd i v.vsTy
    | none => match vm.lookup v with
        | some t => nameless (frameEnv vml) [] k (force t)
        | none => frameEnv vml v k

/-- The nameless form of a term under the frames. -/
def namelessIn (k : Nat) (vml : List Frame) (t : STerm) : NTerm :=
  nameless (frameEnv vml) [] k (force t)

/-- The symbols `vl` are bound at the levels from `k` on; the last one hides the others. -/
def Levels (bv : Mvs Nat) (vl : List VSymbol) (k : Nat) : Prop :=
  ∀ v, bv.lookup v = (lastIdx? v vl).map (k + ·)

theorem nameless_closeBody {ρ ρ' : VSymbol → Nat → NTerm} {vl : List VSymbol} {k : Nat}
    (hρ : ∀ v j, ρ v j = match lastIdx? v vl with
      | some i => .bnd (k + i) v.vsTy
      | none => ρ' v j) (j : Nat) (t : Term) :
    nameless ρ' (range' k vl.length) j (closeBody vl t) = nameless ρ [] j t := by
  refine nameless_mapVars [] (range' k vl.length) (fun δ i a v => ?_)
    (fun δ m a i ty => ?_) t [] j
  · rw [hρ v i]
    cases hv : lastIdx? v vl with
    | none => rfl
    | some n =>
      have hlt := lastIdx?_lt hv
      rw [nameless, List.getElem?_append_right (by omega), Nat.add_sub_cancel_left,
        List.getElem?_range' hlt]
      simp
  · by_cases hi : i < δ.length
    · rw [if_pos hi, nameless, List.getElem?_append_left hi, List.getElem?_append_left hi]
    · rw [if_neg hi, nameless, List.getElem?_eq_none (by simp; omega),
        List.getElem?_eq_none (by simp; omega)]

theorem nameless_tSubst {ρ' : VSymbol → Nat → NTerm}
    {m : VSymbol → Option Term} (hm : Term.ClosedMap m) (hρ : ∀ v k, ρ v k = match m v with
      | some s => nameless ρ' [] k s
      | none => ρ' v k) (env : List Nat) (k : Nat) (t : Term) :
    nameless ρ' env k (Why3.tSubst m t) = nameless ρ env k t := by
  refine nameless_mapVars env env (fun δ j a v => ?_) (fun δ j a i ty => rfl) t [] k
  rw [hρ v j]
  cases hv : m v with
  | none => rfl
  | some s =>
    have hs := hm v s hv
    simp only [Why3.tAttrCopy, nameless_setAttrs, Term.lift_of_scoped hs]
    exact nameless_of_scoped _ _ _ hs

/-- The body of a binding is seen under one more frame. -/
theorem nameless_bodyOf {bv : Mvs Nat} {vl : List VSymbol} {k : Nat} (hbv : Levels bv vl k)
    (vml : List Frame) (j : Nat) (b : BindInfo STerm) (e : STerm) :
    nameless (frameEnv vml) (range' k vl.length) j (bodyOf vl b e) =
      namelessIn j ((bv, b.bvSubst) :: vml) e := by
  let ρ : VSymbol → Nat → NTerm := fun v i =>
    match b.bvSubst.lookup v with
    | some t => nameless (frameEnv vml) [] i (force t)
    | none => frameEnv vml v i
  rw [bodyOf_eq, nameless_tSubst ρ (closedMap_substMap _)]
  · refine nameless_closeBody (fun v i => ?_) j (force e)
    rw [frameEnv, hbv v]
    cases lastIdx? v vl <;> rfl
  · intro v i
    simp only [ρ, substMap]
    cases b.bvSubst.lookup v <;> rfl

theorem addLevels_fst (k : Nat) (bv : Mvs Nat) (vl : List VSymbol) :
    (addLevels k bv vl).1 = k + vl.length := by
  induction vl generalizing k bv with
  | nil => rfl
  | cons v vl ih =>
    rw [addLevels, ih, length_cons]
    omega

theorem addLevels_append (k : Nat) (bv : Mvs Nat) (vl ul : List VSymbol) :
    addLevels k bv (vl ++ ul) = addLevels (addLevels k bv vl).1 (addLevels k bv vl).2 ul := by
  induction vl generalizing k bv with
  | nil => rfl
  | cons v vl ih => exact ih _ _

theorem lookup_addLevels (k : Nat) (bv : Mvs Nat) (vl : List VSymbol) (v : VSymbol) :
    (addLevels k bv vl).2.lookup v = ((lastIdx? v vl).map (k + ·)).or (bv.lookup v) := by
  induction vl generalizing k bv with
  | nil => rfl
  | cons u vl ih =>
    rw [addLevels, ih, lastIdx?]
    cases lastIdx? v vl with
    | some j => simp [Nat.add_assoc, Nat.add_comm 1]
    | none =>
      rw [KeyMap.lookup_add]
      by_cases hu : u = v
      · simp [hu]
      · simp [hu, Ne.symm hu]

theorem levels_addLevels (k : Nat) (vl : List VSymbol) : Levels (addLevels k [] vl).2 vl k := by
  intro v
  rw [lookup_addLevels]
  cases lastIdx? v vl <;> rfl

/-- The body of a binding of `vl` under the frames. -/
def bodyIn (k : Nat) (vml : List Frame) (vl : List VSymbol) (b : BindInfo STerm) (e : STerm) :
    NTerm :=
  namelessIn (k + vl.length) (((addLevels k [] vl).2, b.bvSubst) :: vml) e

def branchIn (k : Nat) (vml : List Frame) (x : TermBranch) : NPat × NTerm :=
  (levelPat (patLevel k x.1) x.1, bodyIn k vml (patVars x.1) x.2.1 x.2.2)

section Nodes

variable (k : Nat) (vml : List Frame)

theorem nameless_body (vl : List VSymbol) (b : BindInfo STerm) (e : STerm) :
    nameless (frameEnv vml) (range' k vl.length ++ []) (k + vl.length)
      (forceBody vl (forceSubst b) (force e)) = bodyIn k vml vl b e := by
  rw [append_nil]
  exact nameless_bodyOf (levels_addLevels k vl) vml _ b e

section

variable (a : Attrs)
include a

theorem namelessIn_tapp (ls : LSymbol) (tl : List STerm) (ty : Option Ty) :
    namelessIn k vml (.tapp a ls tl ty) = .tapp ls (tl.map (namelessIn k vml)) ty := by
  rw [namelessIn, force, nameless, namelessList_eq, forceList_eq, map_map]
  rfl

theorem namelessIn_tif (f t e : STerm) : namelessIn k vml (.tif a f t e) =
      .tif (namelessIn k vml f) (namelessIn k vml t) (namelessIn k vml e) := rfl

theorem namelessIn_tlet (t : STerm) (v : VSymbol) (b : BindInfo STerm) (e : STerm) :
    namelessIn k vml (.tlet a t v b e) = .tlet (namelessIn k vml t) (bodyIn k vml [v] b e) :=
  congrArg (NTerm.tlet _) (nameless_body k vml [v] b e)

theorem namelessIn_tcase (t : STerm) (bl : List TermBranch) : namelessIn k vml (.tcase a t bl) =
      .tcase (namelessIn k vml t) (bl.map (branchIn k vml)) := by
  rw [namelessIn, force, nameless, namelessBranches_eq, forceBranches_eq, map_map]
  refine congrArg (NTerm.tcase _) (map_congr_left fun x _ => ?_)
  exact Prod.ext rfl (nameless_body k vml (patVars x.1) x.2.1 x.2.2)

theorem namelessIn_teps (v : VSymbol) (b : BindInfo STerm) (f : STerm) :
    namelessIn k vml (.teps a v b f) = .teps v.vsTy (bodyIn k vml [v] b f) :=
  congrArg (NTerm.teps _) (nameless_body k vml [v] b f)

theorem namelessIn_tquant (q : Quant) (vl : List VSymbol) (b : BindInfo STerm)
    (tr : List (List STerm)) (f : STerm) :
    namelessIn k vml (.tquant a q vl b tr f) = .tquant q vl.length (bodyIn k vml vl b f) :=
  congrArg (NTerm.tquant q _) (nameless_body k vml vl b f)

theorem namelessIn_tbinop (op : Binop) (f g : STerm) : namelessIn k vml (.tbinop a op f g) =
      .tbinop op (namelessIn k vml f) (namelessIn k vml g) := rfl

theorem namelessIn_tnot (f : STerm) :
    namelessIn k vml (.tnot a f) = .tnot (namelessIn k vml f) := rfl

end

end Nodes

end Stored
end Why3
