import Why3.Core.Located
import Why3.Metatheory.TermOrder

/-!
Located terms without the names of their bound symbols.

There are two such forms of a term. In the one a term that stands for a symbol has the
annotation of the occurrence, as the comparison has it; in the other it has the joined
annotation, as substitution makes it. Opening and closing again all bindings of a term
keeps the second one.
-/
namespace Why3

open List
open KeyMap (lookup_add lookup_mapVals mapVals mem setDisjoint setInter)

/-- Located terms in which a bound symbol is the level of its binding. -/
inductive VTerm where
  | tvar (a : Ann) (v : VSymbol)
  | bnd (a : Ann) (i : Nat) (ty : Ty)
  | tconst (a : Ann) (c : Constant) (ty : Ty)
  | tapp (a : Ann) (ls : LSymbol) (tl : List VTerm) (ty : Option Ty)
  | tif (a : Ann) (f t e : VTerm)
  | tlet (a : Ann) (t e : VTerm)
  | tcase (a : Ann) (t : VTerm) (bl : List (NPat × VTerm))
  | teps (a : Ann) (ty : Ty) (f : VTerm)
  | tquant (a : Ann) (q : Quant) (n : Nat) (tr : List (List VTerm)) (f : VTerm)
  | tbinop (a : Ann) (op : Binop) (f g : VTerm)
  | tnot (a : Ann) (f : VTerm)
  | ttrue (a : Ann)
  | tfalse (a : Ann)

namespace VTerm

def ann : VTerm → Ann
  | tvar a _ | bnd a _ _ | tconst a _ _ | tapp a _ _ _ | tif a _ _ _ | tlet a _ _ | tcase a _ _
  | teps a _ _ | tquant a _ _ _ _ | tbinop a _ _ _ | tnot a _ | ttrue a | tfalse a => a

variable (a : Ann)

def setAnn : VTerm → VTerm
  | tvar _ v => tvar a v
  | bnd _ i ty => bnd a i ty
  | tconst _ c ty => tconst a c ty
  | tapp _ ls tl ty => tapp a ls tl ty
  | tif _ f t e => tif a f t e
  | tlet _ t e => tlet a t e
  | tcase _ t bl => tcase a t bl
  | teps _ ty f => teps a ty f
  | tquant _ q n tr f => tquant a q n tr f
  | tbinop _ op f g => tbinop a op f g
  | tnot _ f => tnot a f
  | ttrue _ => ttrue a
  | tfalse _ => tfalse a

@[simp] theorem ann_setAnn (t : VTerm) : (t.setAnn a).ann = a := by cases t <;> rfl

@[simp] theorem setAnn_setAnn (a b : Ann) (t : VTerm) : (t.setAnn a).setAnn b = t.setAnn b := by
  cases t <;> rfl

/-- The term with the annotations of the symbol it stands for and its own. -/
def joinAnn (t : VTerm) : VTerm := t.setAnn (a.copy t.ann)

mutual
def nodes : VTerm → Nat
  | tvar _ _ | bnd _ _ _ | tconst _ _ _ | ttrue _ | tfalse _ => 1
  | tapp _ _ tl _ => nodesList tl + 1
  | tif _ f t e => nodes f + nodes t + nodes e + 1
  | tlet _ t e => nodes t + nodes e + 1
  | tcase _ t bl => nodes t + nodesBranches bl + 1
  | teps _ _ f => nodes f + 1
  | tquant _ _ _ tr f => nodesTrigger tr + nodes f + 1
  | tbinop _ _ f g => nodes f + nodes g + 1
  | tnot _ f => nodes f + 1
def nodesList : List VTerm → Nat
  | [] => 0
  | t :: tl => nodes t + nodesList tl
def nodesBranches : List (NPat × VTerm) → Nat
  | [] => 0
  | (_, e) :: bl => nodes e + nodesBranches bl
def nodesTrigger : List (List VTerm) → Nat
  | [] => 0
  | l :: tr => nodesList l + nodesTrigger tr
end

@[simp] theorem nodes_setAnn (t : VTerm) : (t.setAnn a).nodes = t.nodes := by
  cases t <;> rfl

theorem nodes_pos (t : VTerm) : 0 < t.nodes := by
  cases t <;> simp [nodes]

theorem le_of_mem {α : Type} {g : α → Nat} {sum : List α → Nat}
    (hsum : ∀ x l, sum (x :: l) = g x + sum l) {x : α} {l : List α} (hx : x ∈ l) : g x ≤ sum l := by
  induction l with
  | nil => cases hx
  | cons y l ih =>
    rw [hsum]
    cases mem_cons.mp hx with
    | inl he =>
      rw [he]
      omega
    | inr hx =>
      have := ih hx
      omega

theorem nodes_le_list {t : VTerm} {tl : List VTerm} (ht : t ∈ tl) : t.nodes ≤ nodesList tl :=
  le_of_mem (fun _ _ => rfl) ht

theorem nodes_le_branches {x : NPat × VTerm} {bl : List (NPat × VTerm)} (hx : x ∈ bl) :
    x.2.nodes ≤ nodesBranches bl :=
  le_of_mem (g := fun x => x.2.nodes) (fun _ _ => rfl) hx

theorem nodes_le_trigger {t : VTerm} {l : List VTerm} {tr : List (List VTerm)} (hl : l ∈ tr)
    (ht : t ∈ l) : t.nodes ≤ nodesTrigger tr :=
  (nodes_le_list ht).trans (le_of_mem (g := nodesList) (fun _ _ => rfl) hl)

end VTerm

namespace Ann

theorem copy_assoc (a b c : Ann) : (a.copy b).copy c = a.copy (b.copy c) := by
  simp [copy, Option.or_assoc]

theorem eq_iff {a b : Ann} : a = b ↔ a.attrs = b.attrs ∧ a.loc = b.loc := by
  rw [mk.injEq]

@[simp] theorem copy_self (a : Ann) : a.copy a = a := by
  cases a with
  | mk attrs loc => cases loc <;> simp [copy]

@[simp] theorem copy_plain (a : Ann) : a.copy plain = a := by
  simp [copy, plain]

@[simp] theorem plain_copy (a : Ann) : plain.copy a = a := by
  simp [copy, plain]

end Ann

namespace Located

open Stored (lastIdx?)
open VTerm (joinAnn)

/-! The two forms. -/

variable {vl : List VSymbol} {v : VSymbol}

section View

variable (mg : Ann → VTerm → VTerm) (ρ : VSymbol → Nat → VTerm)

/-- What the symbols of a body stand for: the bound ones are levels from `k` on, others are
replaced by the deferred terms `s`. -/
def under (k : Nat) (vl : List VSymbol)
    (s : VSymbol → Option (Nat → VTerm)) (v : VSymbol) (j : Nat) : VTerm :=
  match lastIdx? v vl with
  | some i => .bnd .plain (k + i) v.vsTy
  | none => match s v with
      | some f => f j
      | none => ρ v j

theorem under_bound {ρ : VSymbol → Nat → VTerm} {s : VSymbol → Option (Nat → VTerm)} {i : Nat}
    (hi : lastIdx? v vl = some i) (k j : Nat)
    : under ρ k vl s v j = .bnd .plain (k + i) v.vsTy := by
  rw [under, hi]

theorem under_free {ρ : VSymbol → Nat → VTerm} {s : VSymbol → Option (Nat → VTerm)} (hv : v ∉ vl)
    (k j : Nat) : under ρ k vl s v j = match s v with
      | some f => f j
      | none => ρ v j := by
  rw [under, Stored.lastIdx?_eq_none.mpr hv]

/-! `ρ` gives what a free symbol stands for under `k` bindings, `mg` the term that stands for an
annotated occurrence. -/

mutual
def view : (VSymbol → Nat → VTerm) → Nat → LTerm → VTerm
  | ρ, k, .tvar a v => mg a (ρ v k)
  | _, _, .tconst a c ty => .tconst a c ty
  | ρ, k, .tapp a ls tl ty => .tapp a ls (viewList ρ k tl) ty
  | ρ, k, .tif a f t e => .tif a (view ρ k f) (view ρ k t) (view ρ k e)
  | ρ, k, .tlet a t v b e =>
    .tlet a (view ρ k t) (view (under ρ k [v] (viewSubst ρ b)) (k + 1) e)
  | ρ, k, .tcase a t bl => .tcase a (view ρ k t) (viewBranches ρ k bl)
  | ρ, k, .teps a v b f => .teps a v.vsTy (view (under ρ k [v] (viewSubst ρ b)) (k + 1) f)
  | ρ, k, .tquant a q vl b tr f =>
    .tquant a q vl.length
      (viewTrigger (under ρ k vl (viewSubst ρ b)) (k + vl.length) tr)
      (view (under ρ k vl (viewSubst ρ b)) (k + vl.length) f)
  | ρ, k, .tbinop a op f g => .tbinop a op (view ρ k f) (view ρ k g)
  | ρ, k, .tnot a f => .tnot a (view ρ k f)
  | _, _, .ttrue a => .ttrue a
  | _, _, .tfalse a => .tfalse a
termination_by structural _ _ t => t
def viewList : (VSymbol → Nat → VTerm) → Nat → List LTerm → List VTerm
  | _, _, [] => []
  | ρ, k, t :: tl => view ρ k t :: viewList ρ k tl
termination_by structural _ _ tl => tl
def viewBranches : (VSymbol → Nat → VTerm) → Nat → List (Pattern × BindInfo LTerm × LTerm) →
    List (NPat × VTerm)
  | _, _, [] => []
  | ρ, k, (p, b, e) :: bl =>
    (levelPat (patLevel k p) p,
      view (under ρ k (patVars p) (viewSubst ρ b)) (k + (patVars p).length) e) ::
      viewBranches ρ k bl
termination_by structural _ _ bl => bl
def viewTrigger : (VSymbol → Nat → VTerm) → Nat → List (List LTerm) → List (List VTerm)
  | _, _, [] => []
  | ρ, k, l :: tr => viewList ρ k l :: viewTrigger ρ k tr
termination_by structural _ _ tr => tr
def viewSubst : (VSymbol → Nat → VTerm) → BindInfo LTerm → VSymbol → Option (Nat → VTerm)
  | ρ, ⟨_, s⟩, v => viewEntries ρ s v
termination_by structural _ b => b
def viewEntries : (VSymbol → Nat → VTerm) → List (VSymbol × LTerm) → VSymbol →
    Option (Nat → VTerm)
  | _, [], _ => none
  | ρ, (w, t) :: s, v => if v = w then some (fun k => view ρ k t) else viewEntries ρ s v
termination_by structural _ s => s
end

/-- The body of a binding. -/
def viewBody (k : Nat) (vl : List VSymbol) (b : BindInfo LTerm)
    (e : LTerm) : VTerm :=
  view mg (under ρ k vl (viewSubst mg ρ b)) (k + vl.length) e

variable (ρ : VSymbol → Nat → VTerm) (k : Nat)

theorem viewList_eq (tl : List LTerm) : viewList mg ρ k tl = tl.map (view mg ρ k) :=
  ListRec.eq_map rfl (fun _ _ => rfl) tl

theorem viewTrigger_eq (tr : List (List LTerm)) :
    viewTrigger mg ρ k tr = tr.map (·.map (view mg ρ k)) :=
  ListRec.eq_map rfl (fun l tr => by rw [viewTrigger, viewList_eq]) tr

theorem viewBranches_eq (bl : List TermBranch) : viewBranches mg ρ k bl = bl.map fun x =>
      (levelPat (patLevel k x.1) x.1, viewBody mg ρ k (patVars x.1) x.2.1 x.2.2) := by
  induction bl with
  | nil => rfl
  | cons x bl ih =>
    rw [viewBranches, ih]
    rfl

theorem viewSubst_eq (b : BindInfo LTerm) (v : VSymbol) :
    viewSubst mg ρ b v = (b.bvSubst.lookup v).map fun t k => view mg ρ k t := by
  obtain ⟨vars, s⟩ := b
  rw [viewSubst]
  induction s with
  | nil => rfl
  | cons x s ih =>
    rw [viewEntries, lookup_cons]
    by_cases hv : v = x.1
    · simp [hv]
    · rw [if_neg hv, ih, beq_eq_false_iff_ne.mpr hv]

variable (a : Ann)

theorem view_tapp (ls : LSymbol) (tl : List LTerm) (ty : Option Ty) :
    view mg ρ k (.tapp a ls tl ty) = .tapp a ls (tl.map (view mg ρ k)) ty := by
  rw [view, viewList_eq]

theorem view_tlet (t : LTerm) (v : VSymbol) (b : BindInfo LTerm) (e : LTerm) :
    view mg ρ k (.tlet a t v b e) = .tlet a (view mg ρ k t) (viewBody mg ρ k [v] b e) := rfl

theorem view_tcase (t : LTerm) (bl : List TermBranch) :
    view mg ρ k (.tcase a t bl) = .tcase a (view mg ρ k t) (bl.map fun x =>
      (levelPat (patLevel k x.1) x.1, viewBody mg ρ k (patVars x.1) x.2.1 x.2.2)) := by
  rw [view, viewBranches_eq]

theorem view_teps (v : VSymbol) (b : BindInfo LTerm) (f : LTerm) :
    view mg ρ k (.teps a v b f) = .teps a v.vsTy (viewBody mg ρ k [v] b f) := rfl

theorem view_tquant (q : Quant) (vl : List VSymbol) (b : BindInfo LTerm)
    (tr : List (List LTerm)) (f : LTerm) :
    view mg ρ k (.tquant a q vl b tr f) = .tquant a q vl.length
      (tr.map (·.map (viewBody mg ρ k vl b))) (viewBody mg ρ k vl b f) := by
  rw [view, viewTrigger_eq]
  rfl

end View

/-! Free symbols. -/

mutual
def free : LTerm → List VSymbol
  | .tvar _ v => [v]
  | .tconst _ _ _ | .ttrue _ | .tfalse _ => []
  | .tapp _ _ tl _ => freeList tl
  | .tif _ f t e => free f ++ free t ++ free e
  | .tlet _ t v b e => free t ++ ((free e).filter (· ∉ [v])).flatMap (freeSubst b)
  | .tcase _ t bl => free t ++ freeBranches bl
  | .teps _ v b f => ((free f).filter (· ∉ [v])).flatMap (freeSubst b)
  | .tquant _ _ vl b tr f => ((freeTrigger tr ++ free f).filter (· ∉ vl)).flatMap (freeSubst b)
  | .tbinop _ _ f g => free f ++ free g
  | .tnot _ f => free f
def freeList : List LTerm → List VSymbol
  | [] => []
  | t :: tl => free t ++ freeList tl
def freeBranches : List (Pattern × BindInfo LTerm × LTerm) → List VSymbol
  | [] => []
  | (p, b, e) :: bl => ((free e).filter (· ∉ patVars p)).flatMap (freeSubst b) ++ freeBranches bl
def freeTrigger : List (List LTerm) → List VSymbol
  | [] => []
  | l :: tr => freeList l ++ freeTrigger tr
/-- The free symbols of the term that stands for a symbol of a body. -/
def freeSubst : BindInfo LTerm → VSymbol → List VSymbol
  | ⟨_, s⟩, v => freeEntries s v
def freeEntries : List (VSymbol × LTerm) → VSymbol → List VSymbol
  | [], v => [v]
  | (w, t) :: s, v => if v = w then free t else freeEntries s v
end

theorem mem_freeList {tl : List LTerm} : v ∈ freeList tl ↔ ∃ t ∈ tl, v ∈ free t := by
  induction tl with
  | nil => simp [freeList]
  | cons t tl ih => simp [freeList, ih]

theorem mem_freeTrigger {tr : List (List LTerm)} :
    v ∈ freeTrigger tr ↔ ∃ t ∈ tr.flatten, v ∈ free t := by
  induction tr with
  | nil => simp [freeTrigger]
  | cons l tr ih =>
    rw [freeTrigger, mem_append, mem_freeList, ih, flatten_cons]
    simp only [mem_append, or_and_right, exists_or]

/-- The symbols that are free in one of the bodies `es` of a binding. -/
def Reaches (vl : List VSymbol) (b : BindInfo LTerm) (es : List LTerm) (w : VSymbol) : Prop :=
  ∃ e ∈ es, ∃ v ∈ free e, v ∉ vl ∧ w ∈ freeSubst b v

variable {w : VSymbol} {s : Mvs Int63} {t : LTerm} {ul : List VSymbol} {b : BindInfo LTerm}
  {e : LTerm}

theorem mem_free_body :
    w ∈ ((free e).filter (· ∉ vl)).flatMap (freeSubst b) ↔ Reaches vl b [e] w := by
  simp [Reaches, and_assoc]

theorem mem_freeBranches {bl : List TermBranch} :
    w ∈ freeBranches bl ↔ ∃ x ∈ bl, Reaches (patVars x.1) x.2.1 [x.2.2] w := by
  induction bl with
  | nil => simp [freeBranches]
  | cons x bl ih =>
    rw [freeBranches, mem_append, mem_free_body, ih]
    simp

theorem mem_free_tquant {a : Ann} {q : Quant} {tr : List (List LTerm)} {f : LTerm} :
    w ∈ free (.tquant a q vl b tr f) ↔ Reaches vl b (tr.flatten ++ [f]) w := by
  rw [free, mem_flatMap]
  constructor
  · rintro ⟨v, hv, hw⟩
    obtain ⟨hv, hvl⟩ := mem_filter.mp hv
    have hvl : v ∉ vl := by simpa using hvl
    cases mem_append.mp hv with
    | inl hv =>
      obtain ⟨t, ht, hv⟩ := mem_freeTrigger.mp hv
      exact ⟨t, mem_append_left _ ht, v, hv, hvl, hw⟩
    | inr hv => exact ⟨f, mem_append_right _ (mem_singleton.mpr rfl), v, hv, hvl, hw⟩
  · rintro ⟨e, he, v, hv, hvl, hw⟩
    refine ⟨v, mem_filter.mpr ⟨?_, by simpa using hvl⟩, hw⟩
    cases mem_append.mp he with
    | inl he => exact mem_append_left _ (mem_freeTrigger.mpr ⟨e, he, hv⟩)
    | inr he =>
      rw [mem_singleton.mp he] at hv
      exact mem_append_right _ hv

/-- The free symbols of what a substitution puts for a symbol. -/
def image (m : Mvs LTerm) (v : VSymbol) : List VSymbol :=
  match m.lookup v with
  | some t => free t
  | none => [v]

theorem freeSubst_eq (b : BindInfo LTerm) (v : VSymbol) : freeSubst b v = image b.bvSubst v := by
  obtain ⟨vars, s⟩ := b
  rw [freeSubst]
  simp only [image]
  induction s with
  | nil => rfl
  | cons x s ih =>
    rw [freeEntries, lookup_cons]
    by_cases hv : v = x.1
    · simp [hv]
    · rw [if_neg hv, ih, beq_eq_false_iff_ne.mpr hv]

variable {es : List LTerm}

section Congr

variable {mg : Ann → VTerm → VTerm} {ρ ρ' : VSymbol → Nat → VTerm}

theorem under_congr (ih : ∀ x ∈ b.bvSubst, ∀ k, (∀ v ∈ free x.2, ∀ j, ρ v j = ρ' v j) →
      view mg ρ k x.2 = view mg ρ' k x.2) (hv : v ∉ vl → ∀ w ∈ freeSubst b v, ∀ j, ρ w j = ρ' w j)
    (k j : Nat) : under ρ k vl (viewSubst mg ρ b) v j = under ρ' k vl (viewSubst mg ρ' b) v j := by
  cases hidx : lastIdx? v vl with
  | some i => rw [under_bound hidx, under_bound hidx]
  | none =>
    have hvl := Stored.lastIdx?_eq_none.mp hidx
    have hv := hv hvl
    rw [under_free hvl, under_free hvl, viewSubst_eq, viewSubst_eq]
    rw [freeSubst_eq, image] at hv
    cases ht : b.bvSubst.lookup v with
    | some t =>
      rw [ht] at hv
      exact ih (v, t) (AssocList.mem_of_lookup ht) j hv
    | none =>
      rw [ht] at hv
      exact hv v (mem_singleton.mpr rfl) j

theorem viewBody_congr (ihb : ∀ x ∈ b.bvSubst, ∀ k, (∀ v ∈ free x.2, ∀ j, ρ v j = ρ' v j) →
      view mg ρ k x.2 = view mg ρ' k x.2)
    (ihe : ∀ {σ σ' : VSymbol → Nat → VTerm} (k : Nat), (∀ v ∈ free e, ∀ j, σ v j = σ' v j) →
      view mg σ k e = view mg σ' k e) (h : ∀ w, Reaches vl b [e] w → ∀ j, ρ w j = ρ' w j) (k : Nat)
    : viewBody mg ρ k vl b e = viewBody mg ρ' k vl b e := by
  refine ihe _ fun v hv j => under_congr ihb (fun hvl w hw => h w ?_) k j
  exact ⟨e, mem_singleton.mpr rfl, v, hv, hvl, hw⟩

theorem Reaches.mono (he : e ∈ es) (h : Reaches vl b [e] w) : Reaches vl b es w := by
  obtain ⟨e', he', h⟩ := h
  rw [mem_singleton.mp he'] at h
  exact ⟨e, he, h⟩

/-- Only the free symbols of a term matter. -/
theorem view_congr (t : LTerm) : ∀ {ρ ρ' : VSymbol → Nat → VTerm} (k : Nat),
    (∀ v ∈ free t, ∀ j, ρ v j = ρ' v j) → view mg ρ k t = view mg ρ' k t := by
  induction t using LTerm.induct with
  | tvar a v =>
    intro ρ ρ' k h
    rw [view, view, h v mem_cons_self]
  | tapp a ls tl ty ih =>
    intro ρ ρ' k h
    rw [view_tapp, view_tapp]
    refine congrArg (VTerm.tapp a ls · ty) (map_congr_left fun t ht => ?_)
    exact ih t ht k fun v hv => h v (mem_freeList.mpr ⟨t, ht, hv⟩)
  | tif a f t e hf ht he =>
    intro ρ ρ' k h
    simp only [free, forall_mem_append] at h
    rw [view, view, hf k h.1.1, ht k h.1.2, he k h.2]
  | tlet a t v b e ht hb he =>
    intro ρ ρ' k h
    rw [free, forall_mem_append] at h
    rw [view_tlet, ht k h.1]
    refine congrArg (VTerm.tlet a _) (viewBody_congr (fun x hx k => hb x hx k) he ?_ k)
    exact fun w hw => h.2 w (mem_free_body.mpr hw)
  | tcase a t bl ht hb he =>
    intro ρ ρ' k h
    rw [free, forall_mem_append] at h
    rw [view_tcase, view_tcase, ht k h.1]
    refine congrArg (VTerm.tcase a _) (map_congr_left fun x hx => Prod.ext rfl ?_)
    refine viewBody_congr (fun y hy k => hb x hx y hy k) (he x hx) (fun w hw => ?_) k
    exact h.2 w (mem_freeBranches.mpr ⟨x, hx, hw⟩)
  | teps a v b f hb hf =>
    intro ρ ρ' k h
    refine congrArg (VTerm.teps a _) (viewBody_congr (fun x hx k => hb x hx k) hf ?_ k)
    exact fun w hw => h w (mem_free_body.mpr hw)
  | tquant a q vl b tr f hb htr hf =>
    intro ρ ρ' k h
    have hw : ∀ w, Reaches vl b (tr.flatten ++ [f]) w → ∀ j, ρ w j = ρ' w j :=
      fun w hw => h w (mem_free_tquant.mpr hw)
    rw [view_tquant, view_tquant]
    congr 1
    · refine map_congr_left fun l hl => map_congr_left fun t ht => ?_
      refine viewBody_congr (fun x hx k => hb x hx k) (htr l hl t ht) (fun w h => ?_) k
      exact hw w (h.mono (mem_append_left _ (mem_flatten.mpr ⟨l, hl, ht⟩)))
    · refine viewBody_congr (fun x hx k => hb x hx k) hf (fun w h => ?_) k
      exact hw w (h.mono (mem_append_right _ (mem_singleton.mpr rfl)))
  | tbinop a op f g hf hg =>
    intro ρ ρ' k h
    simp only [free, forall_mem_append] at h
    rw [view, view, hf k h.1, hg k h.2]
  | tnot a f hf =>
    intro ρ ρ' k h
    rw [view, view, hf k h]
  | _ => exact fun _ _ => rfl

end Congr

/-! Well-formed terms. -/

/-- What the constructors and substitution keep of a binding: its list of symbols has those
that are free, and a symbol is replaced by a term of its type. -/
structure BindWf (U : Stored.Session) (vl : List VSymbol) (b : BindInfo LTerm)
    (es : List LTerm) : Prop where
  types : ∀ v ∈ vl, U.ty v.vsTy
  typed : ∀ {v t}, b.bvSubst.lookup v = some t → tTy t = some v.vsTy
  covers : ∀ w, Reaches vl b es w → mem b.bvVars w = true

inductive Wf (C : AlgSig) (U : Stored.Session) : LTerm → Prop
  | tvar (a : Ann) {v : VSymbol} : U.ty v.vsTy → Wf C U (.tvar a v)
  | tconst (a : Ann) (c : Constant) {ty : Ty} : U.ty ty → Wf C U (.tconst a c ty)
  | tapp (a : Ann) {ls : LSymbol} {tl : List LTerm} {ty : Option Ty} : U.ls ls →
      (∀ ty', ty = some ty' → U.ty ty') → (∀ t ∈ tl, Wf C U t) → Wf C U (.tapp a ls tl ty)
  | tif (a : Ann) {f t e : LTerm} : Wf C U f → Wf C U t → Wf C U e → Wf C U (.tif a f t e)
  | tlet (a : Ann) {t : LTerm} {v : VSymbol} {b : BindInfo LTerm} {e : LTerm} : Wf C U t →
      BindWf U [v] b [e] → (∀ x ∈ b.bvSubst, Wf C U x.2) → Wf C U e → Wf C U (.tlet a t v b e)
  | tcase (a : Ann) {t : LTerm} {bl : List TermBranch} : Wf C U t →
      (∀ x ∈ bl, PatTyped C x.1) → (∀ x ∈ bl, ∀ cs ∈ Stored.patLs x.1, U.ls cs) →
      (∀ x ∈ bl, BindWf U (patVars x.1) x.2.1 [x.2.2]) →
      (∀ x ∈ bl, ∀ y ∈ x.2.1.bvSubst, Wf C U y.2) → (∀ x ∈ bl, Wf C U x.2.2) →
      Wf C U (.tcase a t bl)
  | teps (a : Ann) {v : VSymbol} {b : BindInfo LTerm} {f : LTerm} : BindWf U [v] b [f] →
      (∀ x ∈ b.bvSubst, Wf C U x.2) → Wf C U f → Wf C U (.teps a v b f)
  | tquant (a : Ann) (q : Quant) {vl : List VSymbol} {b : BindInfo LTerm}
      {tr : List (List LTerm)} {f : LTerm} : BindWf U vl b (tr.flatten ++ [f]) →
      (∀ x ∈ b.bvSubst, Wf C U x.2) → (∀ l ∈ tr, ∀ t ∈ l, Wf C U t) → Wf C U f →
      Wf C U (.tquant a q vl b tr f)
  | tbinop (a : Ann) (op : Binop) {f g : LTerm} : Wf C U f → Wf C U g → Wf C U (.tbinop a op f g)
  | tnot (a : Ann) {f : LTerm} : Wf C U f → Wf C U (.tnot a f)
  | ttrue (a : Ann) : Wf C U (.ttrue a)
  | tfalse (a : Ann) : Wf C U (.tfalse a)

variable {C : AlgSig} {U : Stored.Session}

theorem mem_varsUnion {s1 s2 : Mvs Int63} : mem (Stored.varsUnion s1 s2) w = true ↔
      mem s1 w = true ∨ mem s2 w = true := by
  rw [Stored.varsUnion, mem, KeyMap.lookup_unionWith, mem, mem]
  cases s1.lookup w <;> cases s2.lookup w <;> simp [KeyMap.combine]

theorem mem_foldl_varsUnion {ι : Type} {f : ι → Mvs Int63} {xs : List ι} :
    mem (xs.foldl (fun s x => Stored.varsUnion s (f x)) s) w = true ↔
      mem s w = true ∨ ∃ x ∈ xs, mem (f x) w = true := by
  induction xs generalizing s with
  | nil => simp
  | cons x xs ih => simp [ih, mem_varsUnion, or_assoc]

theorem addListVars_eq (s : Mvs Int63) (tl : List LTerm) :
    addListVars s tl = tl.foldl (fun s t => Stored.varsUnion s (tVars t)) s := by
  induction tl generalizing s with
  | nil => rfl
  | cons t tl ih => rw [addListVars, ih, foldl_cons]

/-- The list of symbols of a term has those that are free. -/
theorem Wf.mem_tVars (h : Wf C U t) : w ∈ free t → mem (tVars t) w = true := by
  induction h with
  | tvar a _ =>
    intro hw
    rw [mem_singleton.mp hw]
    simp [tVars, mem]
  | tapp a _ _ _ ih =>
    intro hw
    obtain ⟨t, ht, hw⟩ := mem_freeList.mp hw
    rw [tVars, addListVars_eq, mem_foldl_varsUnion]
    exact Or.inr ⟨t, ht, ih t ht hw⟩
  | tif a _ _ _ ihf iht ihe =>
    intro hw
    simp only [free, mem_append] at hw
    rw [tVars, mem_varsUnion, mem_varsUnion]
    exact hw.imp (Or.imp ihf iht) ihe
  | tlet a _ hb _ _ iht _ _ =>
    intro hw
    rw [free, mem_append, mem_free_body] at hw
    rw [tVars, mem_varsUnion]
    exact hw.imp iht (hb.covers w)
  | tcase a _ _ _ hb _ _ iht _ _ =>
    intro hw
    rw [free, mem_append, mem_freeBranches] at hw
    rw [tVars, mem_foldl_varsUnion]
    refine hw.imp iht fun hw => ?_
    obtain ⟨x, hx, hw⟩ := hw
    exact ⟨x, hx, (hb x hx).covers w hw⟩
  | teps a hb _ _ _ _ => exact fun hw => hb.covers w (mem_free_body.mp hw)
  | tquant a q hb _ _ _ _ _ _ => exact fun hw => hb.covers w (mem_free_tquant.mp hw)
  | tbinop a op _ _ ihf ihg =>
    intro hw
    rw [free, mem_append] at hw
    rw [tVars, mem_varsUnion]
    exact hw.imp ihf ihg
  | tnot a _ ih => exact ih
  | _ => simp [free]

theorem Wf.setAnn (h : Wf C U t) (a : Ann) : Wf C U (setAnn a t) := by
  cases h with
  | tvar _ h => exact .tvar a h
  | tconst _ c h => exact .tconst a c h
  | tapp _ h1 h2 h3 => exact .tapp a h1 h2 h3
  | tif _ h1 h2 h3 => exact .tif a h1 h2 h3
  | tlet _ h1 h2 h3 h4 => exact .tlet a h1 h2 h3 h4
  | tcase _ h1 h2 h3 h4 h5 h6 => exact .tcase a h1 h2 h3 h4 h5 h6
  | teps _ h1 h2 h3 => exact .teps a h1 h2 h3
  | tquant _ q h1 h2 h3 h4 => exact .tquant a q h1 h2 h3 h4
  | tbinop _ op h1 h2 => exact .tbinop a op h1 h2
  | tnot _ h => exact .tnot a h
  | ttrue _ => exact .ttrue a
  | tfalse _ => exact .tfalse a

@[simp] theorem tTy_setAnn (a : Ann) (t : LTerm) : tTy (setAnn a t) = tTy t := by
  cases t with
  | tcase _ t bl => cases bl <;> rfl
  | _ => rfl

@[simp] theorem free_setAnn (a : Ann) (t : LTerm) : free (setAnn a t) = free t := by
  cases t <;> rfl

/-! Substitution. -/

theorem substList_eq (m : Mvs LTerm) (tl : List LTerm) : substList m tl = tl.map (substRec m) :=
  ListRec.eq_map rfl (fun _ _ => rfl) tl

theorem substEntries_eq (m s : Mvs LTerm) : substEntries m s = mapVals (substRec m) s :=
  ListRec.eq_map rfl (fun _ _ => rfl) s

theorem substBranches_eq (m : Mvs LTerm) (bl : List TermBranch) :
    substBranches m bl = bl.map fun x => (x.1, bSubst m x.2.1, x.2.2) :=
  ListRec.eq_map rfl (fun _ _ => rfl) bl

/-- The terms that a substitution puts for symbols. -/
structure MapWf (C : AlgSig) (U : Stored.Session) (m : Mvs LTerm) : Prop where
  typed : ∀ {v t}, m.lookup v = some t → tTy t = some v.vsTy
  values : ∀ x ∈ m, Wf C U x.2

variable {m : Mvs LTerm}

theorem MapWf.setInter (h : MapWf C U m) (vars : Mvs Int63) : MapWf C U (setInter m vars) := by
  refine ⟨fun {v t} hv => ?_, fun x hx => h.values x (mem_of_mem_filter hx)⟩
  rw [KeyMap.lookup_setInter] at hv
  split at hv
  · exact h.typed hv
  · cases hv

theorem tTy_substRec (hm : ∀ {v t}, m.lookup v = some t → tTy t = some v.vsTy) (t : LTerm)
    : tTy (substRec m t) = tTy t := by
  induction t using LTerm.induct with
  | tvar a v =>
    rw [substRec, tAttrCopy, tTy_setAnn]
    cases hv : m.lookup v with
    | none => rfl
    | some t => exact hm hv
  | tif a f t e _ ht _ => exact ht
  | tcase a t bl _ _ _ =>
    cases bl <;> rfl
  | _ => rfl

theorem mem_addNtVars {n : Int63} : mem (addNtVars n t s) w = true ↔
      mem s w = true ∨ mem (tVars t) w = true := by
  rw [addNtVars, mem_varsUnion]
  split
  · rfl
  · simp only [mem, lookup_mapVals, Option.isSome_map]

/-- The symbols of a binding after a substitution. -/
theorem mem_substVars (hm : MapWf C U m) {vars : Mvs Int63} {x : VSymbol} (hx : mem vars x = true)
    (hw : w ∈ image m x) : mem (substVars m vars) w = true := by
  have hstep {f : Mvs Int63 → VSymbol × LTerm → Mvs Int63}
      (keep : ∀ s y, mem s w = true → mem (f s y) w = true)
      (reach : ∀ s t, mem (tVars t) w = true → mem (f s (x, t)) w = true) (l : Mvs LTerm) :
      ∀ s, mem s w = true ∨ (∃ t, (x, t) ∈ l ∧ mem (tVars t) w = true) →
        mem (l.foldl f s) w = true := by
    induction l with
    | nil =>
      rintro s (h | ⟨t, ht, -⟩)
      · exact h
      · cases ht
    | cons y l ih =>
      rintro s (h | ⟨t, ht, hw⟩)
      · exact ih _ (Or.inl (keep s y h))
      · cases mem_cons.mp ht with
        | inl he => exact ih _ (Or.inl (he ▸ reach s t hw))
        | inr ht => exact ih _ (Or.inr ⟨t, ht, hw⟩)
  refine hstep (fun s y h => ?_) (fun s t h => ?_) m _ ?_
  · split
    · exact mem_addNtVars.mpr (Or.inl h)
    · exact h
  · obtain ⟨n, hn⟩ := Option.isSome_iff_exists.mp hx
    simp only [hn]
    exact mem_addNtVars.mpr (Or.inr h)
  rw [image] at hw
  cases hl : m.lookup x with
  | some t =>
    rw [hl] at hw
    have hmem := AssocList.mem_of_lookup hl
    exact Or.inr ⟨t, hmem, (hm.values _ hmem).mem_tVars hw⟩
  | none =>
    rw [hl] at hw
    rw [mem_singleton.mp hw, mem, KeyMap.lookup_setDiff, mem, hl]
    exact Or.inl hx

/-- What free symbols stand for after a substitution. -/
def withMap (ρ : VSymbol → Nat → VTerm) (m : Mvs LTerm) (v : VSymbol) (j : Nat) : VTerm :=
  match m.lookup v with
  | some t => view joinAnn ρ j t
  | none => ρ v j

/-- Substitution keeps terms well formed, and is a change of what their symbols stand for. -/
def Substitutes (C : AlgSig) (U : Stored.Session) (t : LTerm) : Prop :=
  Wf C U t → ∀ m, MapWf C U m →
    Wf C U (substRec m t) ∧ (∀ w ∈ free (substRec m t), ∃ v ∈ free t, w ∈ image m v) ∧
      ∀ ρ k, view joinAnn ρ k (substRec m t) = view joinAnn (withMap ρ m) k t

section Recorded

variable {vl : List VSymbol} {es : List LTerm} {m : Mvs LTerm}

theorem lookup_setInter_of_mem {vars : Mvs Int63} (hv : mem vars v = true) :
    (setInter m vars).lookup v = m.lookup v := by
  rw [KeyMap.lookup_setInter, if_pos hv]

theorem lookup_of_setDisjoint {vars : Mvs Int63} (h : setDisjoint m vars = true)
    (hv : mem vars v = true) : m.lookup v = none := by
  cases hm : m.lookup v with
  | none => rfl
  | some t =>
    have hnone := KeyMap.setDisjoint_iff.mp h v (by rw [mem, hm]; rfl)
    rw [mem, hnone] at hv
    cases hv

/-- What a binding after a substitution puts for a symbol of its body. -/
theorem lookup_bSubst (v : VSymbol) (hv : ∀ w ∈ image b.bvSubst v, mem b.bvVars w = true) :
    (bSubst m b).bvSubst.lookup v = match b.bvSubst.lookup v with
      | some t => some (if setDisjoint m b.bvVars then t
          else substRec (setInter m b.bvVars) t)
      | none => m.lookup v := by
  obtain ⟨vars, s⟩ := b
  simp only [image] at hv
  rw [bSubst]
  by_cases hdisj : setDisjoint m vars = true
  · rw [if_pos hdisj]
    simp only [hdisj]
    cases ht : s.lookup v with
    | some t => rfl
    | none =>
      rw [ht] at hv
      exact (lookup_of_setDisjoint hdisj (hv v (mem_singleton.mpr rfl))).symm
  · rw [if_neg hdisj]
    simp only [hdisj, KeyMap.lookup_setUnion, substEntries_eq, lookup_mapVals]
    cases ht : s.lookup v with
    | some t => rfl
    | none =>
      rw [ht] at hv
      exact lookup_setInter_of_mem (hv v (mem_singleton.mpr rfl))

section

variable {b : BindInfo LTerm}

theorem bvVars_bSubst : (bSubst m b).bvVars = if setDisjoint m b.bvVars then b.bvVars
    else substVars (setInter m b.bvVars) b.bvVars := by
  rw [bSubst]
  split <;> rfl

variable (hb : BindWf U vl b es) {e : LTerm} (he : e ∈ es) {v : VSymbol} (hv : v ∈ free e)
  (hvl : v ∉ vl)

include hb he hv hvl

theorem BindWf.mem_image (hw : w ∈ image b.bvSubst v) : mem b.bvVars w = true :=
  hb.covers w ⟨e, he, v, hv, hvl, (freeSubst_eq b v).symm ▸ hw⟩

section

variable (hs : ∀ x ∈ b.bvSubst, Wf C U x.2) (ih : ∀ x ∈ b.bvSubst, Substitutes C U x.2)
  (hm : MapWf C U m)
include hs ih hm

/-- The free symbols of what stands for a symbol come from those that did before. -/
theorem image_bSubst (hw : w ∈ image (bSubst m b).bvSubst v)
    : ∃ x ∈ image b.bvSubst v, w ∈ image m x := by
  have hmem := fun w hw => hb.mem_image he hv hvl (w := w) hw
  rw [image, lookup_bSubst v hmem] at hw
  rw [image] at hmem ⊢
  cases ht : b.bvSubst.lookup v with
  | none =>
    rw [ht] at hw
    exact ⟨v, mem_singleton.mpr rfl, hw⟩
  | some t =>
    rw [ht] at hw hmem
    have hin := AssocList.mem_of_lookup ht
    by_cases hdisj : setDisjoint m b.bvVars = true
    · simp only [hdisj] at hw
      refine ⟨w, hw, ?_⟩
      rw [image, lookup_of_setDisjoint hdisj (hmem w hw)]
      exact mem_singleton.mpr rfl
    · simp only [hdisj] at hw
      obtain ⟨x, hx, hw⟩ := (ih _ hin (hs _ hin) _ (hm.setInter b.bvVars)).2.1 w hw
      refine ⟨x, hx, ?_⟩
      rw [image, lookup_setInter_of_mem (hmem x hx)] at hw
      exact hw

theorem under_bSubst (ρ : VSymbol → Nat → VTerm) (k j : Nat) :
    under ρ k vl (viewSubst joinAnn ρ (bSubst m b)) v j =
      under (withMap ρ m) k vl (viewSubst joinAnn (withMap ρ m) b) v j := by
  have hmem := fun w hw => hb.mem_image he hv hvl (w := w) hw
  rw [under_free hvl, under_free hvl, viewSubst_eq, viewSubst_eq, lookup_bSubst v hmem]
  rw [image] at hmem
  cases ht : b.bvSubst.lookup v with
  | none =>
    simp only [withMap]
    cases m.lookup v <;> rfl
  | some t =>
    rw [ht] at hmem
    have hin := AssocList.mem_of_lookup ht
    by_cases hdisj : setDisjoint m b.bvVars = true
    · simp only [hdisj]
      refine view_congr t j fun w hw i => ?_
      rw [withMap, lookup_of_setDisjoint hdisj (hmem w hw)]
    · simp only [hdisj]
      refine ((ih _ hin (hs _ hin) _ (hm.setInter b.bvVars)).2.2 ρ j).trans ?_
      refine view_congr t j fun w hw i => ?_
      rw [withMap, withMap, lookup_setInter_of_mem (hmem w hw)]

end

end

theorem mapWf_bSubst (hb : MapWf C U b.bvSubst) (ih : ∀ x ∈ b.bvSubst, Substitutes C U x.2)
    (hm : MapWf C U m) : MapWf C U (bSubst m b).bvSubst := by
  obtain ⟨vars, s⟩ := b
  rw [bSubst]
  split
  · exact hb
  · have hn := hm.setInter vars
    rw [substEntries_eq]
    refine ⟨fun {v t} hv => ?_, fun x hx => ?_⟩
    · rw [KeyMap.lookup_setUnion, lookup_mapVals] at hv
      cases hs : s.lookup v with
      | none =>
        rw [hs] at hv
        exact hn.typed hv
      | some u =>
        rw [hs] at hv
        cases hv
        exact (tTy_substRec hn.typed u).trans (hb.typed hs)
    · cases mem_append.mp hx with
      | inl hx =>
        obtain ⟨y, hy, rfl⟩ := mem_map.mp hx
        exact (ih y hy (hb.values y hy) _ hn).1
      | inr hx => exact hn.values x (mem_of_mem_filter hx)

/-- A substitution recorded at a binding, when it is right for the deferred terms. -/
theorem bSubst_wf (hb : BindWf U vl b es) (hs : ∀ x ∈ b.bvSubst, Wf C U x.2)
    (ih : ∀ x ∈ b.bvSubst, Substitutes C U x.2) (hm : MapWf C U m) :
    BindWf U vl (bSubst m b) es ∧ (∀ x ∈ (bSubst m b).bvSubst, Wf C U x.2) ∧
      (∀ w, Reaches vl (bSubst m b) es w → ∃ x, Reaches vl b es x ∧ w ∈ image m x) ∧
      ∀ ρ k, ∀ e ∈ es, viewBody joinAnn ρ k vl (bSubst m b) e =
        viewBody joinAnn (withMap ρ m) k vl b e := by
  have hreach : ∀ w, Reaches vl (bSubst m b) es w → ∃ x, Reaches vl b es x ∧ w ∈ image m x := by
    rintro w ⟨e, he, v, hv, hvl, hw⟩
    rw [freeSubst_eq] at hw
    obtain ⟨x, hx, hw⟩ := image_bSubst hb he hv hvl hs ih hm hw
    exact ⟨x, ⟨e, he, v, hv, hvl, (freeSubst_eq b v).symm ▸ hx⟩, hw⟩
  have hmap : MapWf C U (bSubst m b).bvSubst := mapWf_bSubst ⟨hb.typed, hs⟩ ih hm
  refine ⟨⟨hb.types, hmap.typed, fun w hw => ?_⟩, hmap.values, hreach, fun ρ k e he => ?_⟩
  · obtain ⟨x, hx, hw⟩ := hreach w hw
    have hxv := hb.covers x hx
    rw [bvVars_bSubst]
    split
    next hdisj =>
      rw [image, lookup_of_setDisjoint hdisj hxv] at hw
      exact mem_singleton.mp hw ▸ hxv
    next =>
      refine mem_substVars (hm.setInter b.bvVars) hxv ?_
      rw [image, lookup_setInter_of_mem hxv]
      exact hw
  · refine view_congr e _ fun v hv j => ?_
    cases hi : lastIdx? v vl with
    | some i => rw [under_bound hi, under_bound hi]
    | none => exact under_bSubst hb he hv (Stored.lastIdx?_eq_none.mp hi) hs ih hm ρ k j

end Recorded

section

variable (ρ : VSymbol → Nat → VTerm) (k : Nat)
include ρ k

/-- An annotation put on a term is put on its form, if the term is no symbol. -/
theorem view_setAnn {mg : Ann → VTerm → VTerm} (a : Ann) (ht : ∀ b v, t ≠ .tvar b v) :
    view mg ρ k (setAnn a t) = (view mg ρ k t).setAnn a := by
  cases t with
  | tvar b v => exact absurd rfl (ht b v)
  | _ => rfl

theorem ann_view {mg : Ann → VTerm → VTerm} (ht : ∀ b v, t ≠ .tvar b v)
    : (view mg ρ k t).ann = ann t := by
  cases t with
  | tvar b v => exact absurd rfl (ht b v)
  | _ => rfl

theorem view_joined (a : Ann) (t : LTerm) : view joinAnn ρ k (setAnn (a.copy (ann t)) t) =
      (view joinAnn ρ k t).joinAnn a := by
  by_cases ht : ∀ b v, t ≠ .tvar b v
  · rw [view_setAnn ρ k _ ht, joinAnn, ann_view ρ k ht]
  · push Not at ht
    obtain ⟨b, v, rfl⟩ := ht
    simp only [setAnn, ann, view, joinAnn, VTerm.ann_setAnn, VTerm.setAnn_setAnn, Ann.copy_assoc]

end

theorem substitutes (t : LTerm) : Substitutes C U t := by
  intro h
  induction h with
  | @tvar a u h =>
    intro m hm
    rw [substRec, tAttrCopy]
    simp only [view, image, withMap, free, mem_singleton, exists_eq_left]
    cases ht : m.lookup u with
    | none =>
      refine ⟨(Wf.tvar a h).setAnn _, fun w hw => hw, fun ρ k => ?_⟩
      rw [Option.getD_none, Ann.copy_self]
      rfl
    | some t =>
      have hwf := hm.values _ (AssocList.mem_of_lookup ht)
      refine ⟨hwf.setAnn _, fun w hw => ?_, fun ρ k => view_joined ρ k a t⟩
      rw [free_setAnn] at hw
      exact hw
  | tconst a c h => exact fun m _ => ⟨.tconst a c h, nofun, fun ρ k => rfl⟩
  | ttrue a => exact fun m _ => ⟨.ttrue a, nofun, fun ρ k => rfl⟩
  | tfalse a => exact fun m _ => ⟨.tfalse a, nofun, fun ρ k => rfl⟩
  | @tapp a ls tl ty hls hty _ ih =>
    intro m hm
    rw [substRec, substList_eq]
    refine ⟨.tapp a hls hty ?_, fun w hw => ?_, fun ρ k => ?_⟩
    · refine forall_mem_map.mpr fun u hu => ?_
      exact (ih u hu m hm).1
    · obtain ⟨t, ht, hw⟩ := mem_freeList.mp hw
      obtain ⟨u, hu, rfl⟩ := mem_map.mp ht
      obtain ⟨v, hv, hw⟩ := (ih u hu m hm).2.1 w hw
      exact ⟨v, mem_freeList.mpr ⟨u, hu, hv⟩, hw⟩
    · rw [view_tapp, view_tapp, map_map]
      refine congrArg (VTerm.tapp a ls · ty) (map_congr_left fun t ht => ?_)
      exact (ih t ht m hm).2.2 ρ k
  | tif a _ _ _ hf ht he =>
    intro m hm
    obtain ⟨hf1, hf2, hf3⟩ := hf m hm
    obtain ⟨ht1, ht2, ht3⟩ := ht m hm
    obtain ⟨he1, he2, he3⟩ := he m hm
    rw [substRec]
    refine ⟨.tif a hf1 ht1 he1, ?_, fun ρ k => ?_⟩
    · simp only [free, mem_append, or_assoc, or_and_right, exists_or]
      exact fun w => Or.imp (hf2 w) (Or.imp (ht2 w) (he2 w))
    · rw [view, view, hf3, ht3, he3]
  | @tlet a t v b e _ hbind hs h2 ht hb =>
    intro m hm
    obtain ⟨ht1, ht2, ht3⟩ := ht m hm
    obtain ⟨hbind', hs', hreach, hbody⟩ := bSubst_wf hbind hs (fun x hx _ => hb x hx) hm
    rw [substRec]
    refine ⟨.tlet a ht1 hbind' hs' h2, ?_, fun ρ k => ?_⟩
    · simp only [free, mem_append, mem_free_body, or_and_right, exists_or]
      exact fun w => Or.imp (ht2 w) (hreach w)
    · rw [view_tlet, view_tlet, ht3, hbody ρ k e (mem_singleton.mpr rfl)]
  | @tcase a t bl _ hp hls hbind hs h2 ht hb =>
    intro m hm
    obtain ⟨ht1, ht2, ht3⟩ := ht m hm
    have hbr := fun x hx => bSubst_wf (hbind x hx) (hs x hx) (fun y hy _ => hb x hx y hy) hm
    rw [substRec, substBranches_eq]
    refine ⟨.tcase a ht1 ?_ ?_ ?_ ?_ ?_, ?_, fun ρ k => ?_⟩
    · exact forall_mem_map.mpr hp
    · exact forall_mem_map.mpr hls
    · exact forall_mem_map.mpr fun x hx => (hbr x hx).1
    · exact forall_mem_map.mpr fun x hx => (hbr x hx).2.1
    · exact forall_mem_map.mpr h2
    · simp only [free, mem_append, mem_freeBranches, or_and_right, exists_or]
      refine fun w => Or.imp (ht2 w) fun hw => ?_
      obtain ⟨y, hy, hw⟩ := hw
      obtain ⟨x, hx, rfl⟩ := mem_map.mp hy
      obtain ⟨v, hv, hw⟩ := (hbr x hx).2.2.1 w hw
      exact ⟨v, ⟨x, hx, hv⟩, hw⟩
    · rw [view_tcase, view_tcase, ht3, map_map]
      refine congrArg (VTerm.tcase a _) (map_congr_left fun x hx => Prod.ext rfl ?_)
      exact (hbr x hx).2.2.2 ρ k x.2.2 (mem_singleton.mpr rfl)
  | @teps a v b f hbind hs h2 hb =>
    intro m hm
    obtain ⟨hbind', hs', hreach, hbody⟩ := bSubst_wf hbind hs (fun x hx _ => hb x hx) hm
    rw [substRec]
    refine ⟨.teps a hbind' hs' h2, ?_, fun ρ k => ?_⟩
    · simp only [free, mem_free_body]
      exact hreach
    · rw [view_teps, view_teps, hbody ρ k f (mem_singleton.mpr rfl)]
  | @tquant a q vl b tr f hbind hs htr h2 hb =>
    intro m hm
    obtain ⟨hbind', hs', hreach, hbody⟩ := bSubst_wf hbind hs (fun x hx _ => hb x hx) hm
    rw [substRec]
    refine ⟨.tquant a q hbind' hs' htr h2, ?_, fun ρ k => ?_⟩
    · simp only [mem_free_tquant]
      exact hreach
    · rw [view_tquant, view_tquant, hbody ρ k f (mem_append_right _ (mem_singleton.mpr rfl))]
      refine congrArg (VTerm.tquant a q vl.length · _) ?_
      refine map_congr_left fun l hl => map_congr_left fun t ht => ?_
      exact hbody ρ k t (mem_append_left _ (mem_flatten.mpr ⟨l, hl, ht⟩))
  | tbinop a op _ _ hf hg =>
    intro m hm
    obtain ⟨hf1, hf2, hf3⟩ := hf m hm
    obtain ⟨hg1, hg2, hg3⟩ := hg m hm
    rw [substRec]
    refine ⟨.tbinop a op hf1 hg1, ?_, fun ρ k => ?_⟩
    · simp only [free, mem_append, or_and_right, exists_or]
      exact fun w => Or.imp (hf2 w) (hg2 w)
    · rw [view, view, hf3, hg3]
  | tnot a _ hf =>
    intro m hm
    obtain ⟨hf1, hf2, hf3⟩ := hf m hm
    rw [substRec]
    refine ⟨.tnot a hf1, hf2, fun ρ k => ?_⟩
    rw [view, view, hf3]

theorem tSubstUnsafe_wf (h : Wf C U t) (hm : MapWf C U m) : Wf C U (tSubstUnsafe m t) ∧
      (∀ w ∈ free (tSubstUnsafe m t), ∃ v ∈ free t, w ∈ image m v) ∧
      ∀ ρ k, view joinAnn ρ k (tSubstUnsafe m t) = view joinAnn (withMap ρ m) k t := by
  cases m with
  | nil => exact ⟨h, fun w hw => ⟨w, hw, mem_singleton.mpr rfl⟩, fun ρ k => rfl⟩
  | cons x m => exact substitutes t h _ hm

/-! Opening and closing. -/

theorem lookup_vlRename {h : Mvs LTerm} (hlen : ul.length = vl.length) (w : VSymbol) :
    (vlRename h vl ul).lookup w = match lastIdx? w vl with
      | some j => ul[j]?.map tVar
      | none => h.lookup w :=
  Stored.lookup_addEach (F := vlRename) (fun _ => rfl) (fun _ _ _ _ _ => rfl) hlen w

theorem MapWf.vlRename (h : MapWf C U m) (htys : ul.map VSymbol.vsTy = vl.map VSymbol.vsTy)
    (hvl : ∀ v ∈ vl, U.ty v.vsTy) : MapWf C U (Located.vlRename m vl ul) := by
  induction vl generalizing m ul with
  | nil =>
    rw [Located.vlRename]
    · exact h
    · exact nofun
  | cons v vl ih =>
    cases ul with
    | nil => exact h
    | cons u ul =>
      rw [map_cons, map_cons, List.cons.injEq] at htys
      rw [forall_mem_cons] at hvl
      refine ih ⟨fun {w t} hw => ?_, fun x hx => ?_⟩ htys.2 hvl.2
      · rw [lookup_add] at hw
        split at hw
        next he =>
          cases hw
          exact congrArg some (he ▸ htys.1)
        next => exact h.typed hw
      · cases mem_cons.mp hx with
        | inl hx =>
          rw [hx]
          exact .tvar _ (htys.1 ▸ hvl.1)
        | inr hx => exact h.values x (mem_of_mem_filter hx)

theorem lastIdx?_of_nodup (hnd : ul.Nodup) {i : Nat} {u : VSymbol}
    (hi : ul[i]? = some u) : lastIdx? u ul = some i := by
  cases hj : lastIdx? u ul with
  | none => exact absurd (mem_of_getElem? hi) (Stored.lastIdx?_eq_none.mp hj)
  | some j =>
    have hj := Stored.getElem?_lastIdx? hj
    exact congrArg some ((getElem?_inj (List.getElem?_eq_some_iff.mp hj).1 hnd).mp
      (hj.trans hi.symm))

/-- A body opened with new symbols is the body of the binding of these symbols. -/
theorem open_wf (hb : BindWf U vl b es) (hs : ∀ x ∈ b.bvSubst, Wf C U x.2) (he : e ∈ es)
    (hwf : Wf C U e) (htys : ul.map VSymbol.vsTy = vl.map VSymbol.vsTy) (hnd : ul.Nodup)
    (hfresh : ∀ w, Reaches vl b es w → w ∉ ul) :
    Wf C U (tSubstUnsafe (vlRename b.bvSubst vl ul) e) ∧
      ∀ ρ k, view joinAnn (under ρ k ul fun _ => none) (k + ul.length)
        (tSubstUnsafe (vlRename b.bvSubst vl ul) e) = viewBody joinAnn ρ k vl b e := by
  have hlen : ul.length = vl.length := by
    rw [← length_map VSymbol.vsTy, htys, length_map]
  obtain ⟨hwf, -, hview⟩ := tSubstUnsafe_wf hwf (MapWf.vlRename ⟨hb.typed, hs⟩ htys hb.types)
  refine ⟨hwf, fun ρ k => ?_⟩
  rw [hview, hlen]
  refine view_congr e _ fun v hv j => ?_
  rw [withMap, lookup_vlRename hlen]
  cases hi : lastIdx? v vl with
  | some i =>
    have hlt : i < ul.length := hlen ▸ Stored.lastIdx?_lt hi
    have hget := List.getElem?_eq_getElem hlt
    have hty : ul[i].vsTy = v.vsTy := by
      have hvl := congrArg (·[i]?) htys
      simp only [getElem?_map, hget, Stored.getElem?_lastIdx? hi, Option.map_some,
        Option.some.injEq] at hvl
      exact hvl
    simp only [hget, Option.map_some, tVar, view]
    rw [under_bound hi, under_bound (lastIdx?_of_nodup hnd hget), hty]
    rfl
  | none =>
    have hvl := Stored.lastIdx?_eq_none.mp hi
    have hreach : ∀ w ∈ image b.bvSubst v, w ∉ ul := fun w hw =>
      hfresh w ⟨e, he, v, hv, hvl, (freeSubst_eq b v).symm ▸ hw⟩
    simp only [image] at hreach
    rw [under_free hvl, viewSubst_eq]
    cases ht : b.bvSubst.lookup v with
    | some t =>
      rw [ht] at hreach
      exact view_congr t j fun w hw i => under_free (hreach w hw) k i
    | none =>
      rw [ht] at hreach
      exact under_free (hreach v (mem_singleton.mpr rfl)) k j

theorem viewBody_bndNew (mg : Ann → VTerm → VTerm) (ρ : VSymbol → Nat → VTerm) (k : Nat)
    (ul : List VSymbol) (s : Mvs Int63) (e : LTerm) :
    viewBody mg ρ k ul (bndNew s) e = view mg (under ρ k ul fun _ => none) (k + ul.length) e := rfl

theorem bindWf_bndNew (hul : ∀ u ∈ ul, U.ty u.vsTy)
    (hs : ∀ e ∈ es, ∀ w ∈ free e, w ∉ ul → mem s w = true) : BindWf U ul (bndNew s) es := by
  refine ⟨hul, nofun, fun w hw => ?_⟩
  obtain ⟨e, he, v, hv, hvl, hw⟩ := hw
  rw [mem_singleton.mp hw]
  exact hs e he v hv hvl

theorem mem_filter_of_mem {p : VSymbol → Bool} (hs : mem s w = true) (hp : p w = true) :
    mem (s.filter fun x => p x.1) w = true := by
  rw [mem, KeyMap.lookup_filter, if_pos hp]
  exact hs

theorem tCloseBound_wf {u : VSymbol} (hu : U.ty u.vsTy) (he : Wf C U e) :
    BindWf U [u] (tCloseBound u e).2.1 [e] := by
  refine bindWf_bndNew (fun v hv => mem_singleton.mp hv ▸ hu) fun f hf w hw hwu => ?_
  rw [mem_singleton.mp hf] at hw
  exact mem_filter_of_mem (p := fun v => v ≠ u) (he.mem_tVars hw) (by simpa using hwu)

theorem tCloseBranch_wf {p : Pattern} (hp : ∀ v ∈ patVars p, U.ty v.vsTy) (he : Wf C U e)
    : BindWf U (patVars p) (tCloseBranch p e).2.1 [e] := by
  refine bindWf_bndNew hp fun f hf w hw hwp => ?_
  rw [mem_singleton.mp hf] at hw
  exact mem_filter_of_mem (p := fun v => v ∉ patVars p) (he.mem_tVars hw) (by simpa using hwp)

theorem tCloseQuant_wf {tl : List (List LTerm)} {f : LTerm} (hul : ∀ u ∈ ul, U.ty u.vsTy)
    (htl : ∀ l ∈ tl, ∀ t ∈ l, Wf C U t) (hf : Wf C U f) :
    BindWf U ul (tCloseQuant ul tl f).2.1 (tl.flatten ++ [f]) := by
  have hfold : ∀ s : Mvs Int63, tl.foldl (fun s l => l.foldl addTVars s) s =
      tl.flatten.foldl (fun s t => Stored.varsUnion s (tVars t)) s := by
    intro s
    rw [foldl_flatten]
    rfl
  have hremove : ∀ (ul : List VSymbol) (s : Mvs Int63) (w : VSymbol), mem s w = true →
      w ∉ ul → mem (ul.foldl (fun s v => KeyMap.remove v s) s) w = true := by
    intro ul
    induction ul with
    | nil => exact fun s w hs _ => hs
    | cons u ul ih =>
      intro s w hs hw
      rw [mem_cons, not_or] at hw
      exact ih _ w (mem_filter_of_mem (p := fun v => v ≠ u) hs (by simpa using hw.1)) hw.2
  refine bindWf_bndNew hul fun e he w hw hwu => hremove ul _ w ?_ hwu
  rw [hfold, mem_foldl_varsUnion]
  cases mem_append.mp he with
  | inl he =>
    obtain ⟨l, hl, he'⟩ := mem_flatten.mp he
    exact Or.inr ⟨e, he, (htl l hl e he').mem_tVars hw⟩
  | inr he =>
    rw [mem_singleton.mp he] at hw
    exact Or.inl (hf.mem_tVars hw)

end Located
end Why3
