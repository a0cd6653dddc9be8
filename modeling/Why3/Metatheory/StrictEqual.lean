import Why3.Metatheory.StrictCompare

/-!
Strict equality of located terms and of declarations.

The comparison sees the annotations of the occurrences of symbols; forced forms have those
that substitution makes. The two agree when the deferred terms have no annotations of their
own, and then strict equality is that of the forced forms.
-/
namespace Why3

open List
open VTerm (nodes nodesList tapp teps tvar vars)

namespace Located

open Stored (lastIdx? CompExn)

variable {C : AlgSig} {U : Stored.Session}

/-! The number of nodes. -/

theorem sizeSubst_eq (ν : VSymbol → Nat) (vl : List VSymbol) (b : BindInfo LTerm) (v : VSymbol) :
    sizeSubst ν vl b v = if v ∈ vl then 1 else match b.bvSubst.lookup v with
      | some t => size ν t
      | none => ν v := by
  obtain ⟨vars, s⟩ := b
  rw [sizeSubst]
  induction s with
  | nil => rfl
  | cons x s ih =>
    rw [sizeEntries, lookup_cons]
    by_cases hv : v = x.1
    · simp [hv]
    · rw [if_neg hv, ih, beq_eq_false_iff_ne.mpr hv]

example : sizeSubst (fun _ => 2) [] ⟨[], []⟩ ⟨⟨"x", 0⟩, tyInt⟩ = 2 := by decide +kernel

variable {ρ : VSymbol → Nat → VTerm} {v : VSymbol} {t : LTerm}

section Size

variable {mg : Ann → VTerm → VTerm} (hmg : ∀ a t, (mg a t).nodes = t.nodes)

/-- The number of nodes that a term is given is that of its form. -/
def Measured (mg : Ann → VTerm → VTerm) (t : LTerm) : Prop :=
  ∀ (ν : VSymbol → Nat) (ρ : VSymbol → Nat → VTerm) (k : Nat), (∀ v j, ν v = (ρ v j).nodes) →
    size ν t = (view mg ρ k t).nodes

theorem sizeList_eq {tl : List LTerm} (h : ∀ t ∈ tl, Measured mg t) {ν : VSymbol → Nat}
    (hν : ∀ v j, ν v = (ρ v j).nodes) (k : Nat) :
    sizeList ν tl = nodesList (tl.map (view mg ρ k)) := by
  induction tl with
  | nil => rfl
  | cons t tl ih =>
    rw [forall_mem_cons] at h
    rw [sizeList, ih h.2, h.1 ν ρ k hν, map_cons, nodesList]

theorem sizeSubst_under {b : BindInfo LTerm} (hb : ∀ x ∈ b.bvSubst, Measured mg x.2)
    {ν : VSymbol → Nat} (hν : ∀ v j, ν v = (ρ v j).nodes) (vl : List VSymbol) (k : Nat)
    (v : VSymbol) (j : Nat) : sizeSubst ν vl b v = (under ρ k vl (viewSubst mg ρ b) v j).nodes := by
  rw [sizeSubst_eq]
  cases hi : lastIdx? v vl with
  | some i =>
    rw [under_bound hi, if_pos (mem_of_getElem? (Stored.getElem?_lastIdx? hi)), nodes]
  | none =>
    have hvl := Stored.lastIdx?_eq_none.mp hi
    rw [under_free hvl, if_neg hvl, viewSubst_eq]
    cases ht : b.bvSubst.lookup v with
    | none => exact hν v j
    | some t => exact hb _ (AssocList.mem_of_lookup ht) ν ρ j hν

include hmg

theorem measured (t : LTerm) : Measured mg t := by
  induction t using LTerm.induct with
  | tvar a v =>
    intro ν ρ k hν
    rw [view, hmg]
    exact hν v k
  | tapp a ls tl ty ih =>
    intro ν ρ k hν
    rw [size, view_tapp, nodes, sizeList_eq ih hν k]
  | tif a f t e hf ht he =>
    intro ν ρ k hν
    rw [size, view, nodes, hf ν ρ k hν, ht ν ρ k hν, he ν ρ k hν]
  | tlet a t v b e ht hb he =>
    intro ν ρ k hν
    rw [size, view, nodes, ht ν ρ k hν, he _ _ _ (sizeSubst_under hb hν [v] k)]
  | tcase a t bl ht hb he =>
    intro ν ρ k hν
    rw [size, view, ht ν ρ k hν]
    congr 2
    induction bl with
    | nil => rfl
    | cons x bl ih =>
      rw [forall_mem_cons] at hb he
      rw [sizeBranches, viewBranches, VTerm.nodesBranches, ih hb.2 he.2,
        he.1 _ _ _ (sizeSubst_under hb.1 hν (patVars x.1) k)]
  | teps a v b f hb hf =>
    intro ν ρ k hν
    rw [size, view, nodes, hf _ _ _ (sizeSubst_under hb hν [v] k)]
  | tquant a q vl b tr f hb htr hf =>
    intro ν ρ k hν
    have hν' := sizeSubst_under hb hν vl k
    rw [size, view, hf _ _ _ hν']
    congr 2
    induction tr with
    | nil => rfl
    | cons l tr ih =>
      rw [forall_mem_cons] at htr
      rw [sizeTrigger, viewTrigger, VTerm.nodesTrigger, ih htr.2, viewList_eq,
        sizeList_eq htr.1 hν']
  | tbinop a op f g hf hg =>
    intro ν ρ k hν
    rw [size, view, nodes, hf ν ρ k hν, hg ν ρ k hν]
  | tnot a f hf =>
    intro ν ρ k hν
    rw [size, view, nodes, hf ν ρ k hν]
  | _ => exact fun _ _ _ _ => rfl

end Size

/-! Free symbols of the forms. -/

section Vars

variable {mg : Ann → VTerm → VTerm} (hmg : ∀ a t, (mg a t).vars = t.vars)

/-- The free symbols of the form of a term are those of what its free symbols stand for. -/
def VarsFrom (mg : Ann → VTerm → VTerm) (t : LTerm) : Prop :=
  ∀ (ρ : VSymbol → Nat → VTerm) (k : Nat), ∀ v ∈ (view mg ρ k t).vars,
    ∃ w ∈ free t, ∃ j, v ∈ (ρ w j).vars

theorem varsFrom_body {vl : List VSymbol} {b : BindInfo LTerm}
    (hb : ∀ x ∈ b.bvSubst, VarsFrom mg x.2) {e : LTerm} (he : VarsFrom mg e) {k : Nat}
    (hv : v ∈ (viewBody mg ρ k vl b e).vars) : ∃ w, Reaches vl b [e] w ∧ ∃ j, v ∈ (ρ w j).vars := by
  obtain ⟨x, hx, j, hv⟩ := he _ _ v hv
  cases hi : lastIdx? x vl with
  | some i =>
    rw [under_bound hi] at hv
    cases hv
  | none =>
    have hvl := Stored.lastIdx?_eq_none.mp hi
    rw [under_free hvl, viewSubst_eq] at hv
    have hreach : ∀ w ∈ image b.bvSubst x, Reaches vl b [e] w := fun w hw =>
      ⟨e, mem_singleton.mpr rfl, x, hx, hvl, (freeSubst_eq b x).symm ▸ hw⟩
    simp only [image] at hreach
    cases ht : b.bvSubst.lookup x with
    | none =>
      rw [ht] at hv hreach
      exact ⟨x, hreach x (mem_singleton.mpr rfl), j, hv⟩
    | some t =>
      rw [ht] at hv hreach
      obtain ⟨w, hw, i, hv⟩ := hb _ (AssocList.mem_of_lookup ht) ρ j v hv
      exact ⟨w, hreach w hw, i, hv⟩

include hmg

theorem varsFrom (t : LTerm) : VarsFrom mg t := by
  induction t using LTerm.induct with
  | tvar a v =>
    intro ρ k w hw
    rw [view, hmg] at hw
    exact ⟨v, mem_singleton.mpr rfl, k, hw⟩
  | tapp a ls tl ty ih =>
    intro ρ k v hv
    rw [view_tapp] at hv
    obtain ⟨x, hx, hv⟩ := VTerm.mem_varsList.mp hv
    obtain ⟨t, ht, rfl⟩ := mem_map.mp hx
    obtain ⟨w, hw, h⟩ := ih t ht ρ k v hv
    exact ⟨w, mem_freeList.mpr ⟨t, ht, hw⟩, h⟩
  | tif a f t e hf ht he =>
    intro ρ k v hv
    simp only [view, vars, mem_append] at hv
    simp only [free, mem_append, or_and_right, exists_or]
    exact hv.imp (Or.imp (hf ρ k v) (ht ρ k v)) (he ρ k v)
  | tlet a t v b e ht hb he =>
    intro ρ k w hw
    rw [view_tlet, vars, mem_append] at hw
    simp only [free, mem_append, mem_free_body, or_and_right, exists_or]
    exact hw.imp (ht ρ k w) (varsFrom_body hb he)
  | tcase a t bl ht hb he =>
    intro ρ k w hw
    rw [view_tcase, vars, mem_append] at hw
    simp only [free, mem_append, mem_freeBranches, or_and_right, exists_or]
    refine hw.imp (ht ρ k w) fun hw => ?_
    obtain ⟨y, hy, hw⟩ := VTerm.mem_varsBranches.mp hw
    obtain ⟨x, hx, rfl⟩ := mem_map.mp hy
    obtain ⟨v, hv, h⟩ := varsFrom_body (hb x hx) (he x hx) hw
    exact ⟨v, ⟨x, hx, hv⟩, h⟩
  | teps a v b f hb hf =>
    intro ρ k w hw
    simp only [free, mem_free_body]
    exact varsFrom_body hb hf hw
  | tquant a q vl b tr f hb htr hf =>
    intro ρ k w hw
    rw [view_tquant, vars, mem_append] at hw
    simp only [mem_free_tquant]
    cases hw with
    | inl hw =>
      obtain ⟨l', hl', x, hx, hw⟩ := VTerm.mem_varsTrigger.mp hw
      obtain ⟨l, hl, rfl⟩ := mem_map.mp hl'
      obtain ⟨t, ht, rfl⟩ := mem_map.mp hx
      obtain ⟨v, hv, h⟩ := varsFrom_body hb (htr l hl t ht) hw
      exact ⟨v, hv.mono (mem_append_left _ (mem_flatten.mpr ⟨l, hl, ht⟩)), h⟩
    | inr hw =>
      obtain ⟨v, hv, h⟩ := varsFrom_body hb hf hw
      exact ⟨v, hv.mono (mem_append_right _ (mem_singleton.mpr rfl)), h⟩
  | tbinop a op f g hf hg =>
    intro ρ k v hv
    simp only [view, vars, mem_append] at hv
    simp only [free, mem_append, or_and_right, exists_or]
    exact hv.imp (hf ρ k v) (hg ρ k v)
  | tnot a f hf => exact hf
  | _ => exact fun _ _ _ h => by cases h

end Vars

/-! Strict equality. -/

/-- The symbols stand for themselves. -/
abbrev selfEnv : VSymbol → Nat → VTerm := fun v _ => .tvar .plain v

/-- The form of a term that the comparison sees. -/
def seen (t : LTerm) : VTerm := view VTerm.setAnn selfEnv 0 t

/-- The form with the annotations that substitution makes. -/
def opened (t : LTerm) : VTerm := view VTerm.joinAnn selfEnv 0 t

/-- A well-formed term with free symbols of the session. -/
structure Admissible (C : AlgSig) (U : Stored.Session) (t : LTerm) : Prop where
  wf : Wf C U t
  known : ∀ v ∈ free t, U.vs v

theorem Admissible.vs {mg : Ann → VTerm → VTerm} (h : Admissible C U t)
    (hmg : ∀ a t, (mg a t).vars = t.vars) : ∀ v ∈ (view mg selfEnv 0 t).vars, U.vs v := by
  intro v hv
  obtain ⟨w, hw, j, hv⟩ := varsFrom hmg t _ _ v hv
  rw [mem_singleton.mp hv]
  exact h.known w hw

theorem seen_eq_opened (h : plainSubsts t = true) : seen t = opened t :=
  view_plain t h _ (fun _ _ => rfl) 0

theorem Forced.seen_eq {f : LTerm} (h : Forced t f) (ht : Wf C U t) : seen f = opened t := by
  obtain ⟨-, hplain, hview⟩ := h.keeps ht
  rw [seen_eq_opened hplain]
  exact hview _ 0

section Strict

variable {phys : LTerm → LTerm → Bool} (hphys : ∀ s t, phys s t = true → s = t)
  {attrTag : String → Nat} (htag : Function.Injective attrTag)

include hphys htag

variable {t₁ t₂ : LTerm}

theorem tEqualStrict_iff_seen (h1 : Wf C U t₁) (h2 : Wf C U t₂) (hk1 : ∀ v ∈ (seen t₁).vars, U.vs v)
    (hk2 : ∀ v ∈ (seen t₂).vars, U.vs v) :
    tEqualStrict phys U.tyTag attrTag t₁ t₂ = .ok true ↔ seen t₁ = seen t₂ := by
  have hsize : (seenIn 0 [] t₁).nodes ≤ size (fun _ => 1) t₁ :=
    (measured (fun a t => VTerm.nodes_setAnn a t) t₁ (fun _ => 1) selfEnv 0 fun _ _ => rfl).ge
  have hright := tCompareRec_right hphys htag (size (fun _ => 1) t₁) 0 [] [] t₁ t₂
    ⟨nofun, h1, hk1⟩ ⟨nofun, h2, hk2⟩ hsize
  rw [tEqualStrict, tCompare]
  refine Iff.trans ?_ hright
  cases tCompareRec ⟨true, true, true⟩ phys U.tyTag attrTag (size (fun _ => 1) t₁) 0 [] [] t₁ t₂ with
  | ok u => simp [Except.map]
  | error e => cases e <;> simp [Except.map]

theorem Admissible.tEqualStrict_iff (h1 : Admissible C U t₁) (h2 : Admissible C U t₂) :
    tEqualStrict phys U.tyTag attrTag t₁ t₂ = .ok true ↔ seen t₁ = seen t₂ :=
  tEqualStrict_iff_seen hphys htag h1.wf h2.wf (h1.vs VTerm.vars_setAnn) (h2.vs VTerm.vars_setAnn)

/-- Two forced forms are found equal when the annotations that substitution makes are. -/
theorem forced_tEqualStrict_iff {f1 f2 : LTerm} (h1 : Admissible C U t₁) (h2 : Admissible C U t₂)
    (hf1 : Forced t₁ f1) (hf2 : Forced t₂ f2) :
    tEqualStrict phys U.tyTag attrTag f1 f2 = .ok true ↔ opened t₁ = opened t₂ := by
  have hs1 := hf1.seen_eq h1.wf
  have hs2 := hf2.seen_eq h2.wf
  rw [← hs1, ← hs2]
  refine tEqualStrict_iff_seen hphys htag (hf1.keeps h1.wf).1 (hf2.keeps h2.wf).1 ?_ ?_
  · rw [hs1]
    exact h1.vs fun a t => VTerm.vars_setAnn _ t
  · rw [hs2]
    exact h2.vs fun a t => VTerm.vars_setAnn _ t

end Strict

/-! Declarations. -/

theorem listsEqual_ok {α : Type} {eq : α → α → Except CompExn Bool} {l1 l2 : List α}
    (h : listsEqual eq l1 l2 = .ok true) : List.Forall₂ (fun x y => eq x y = .ok true) l1 l2 := by
  induction l1 generalizing l2 with
  | nil =>
    cases l2 with
    | nil => exact .nil
    | cons y l2 => cases h
  | cons x l1 ih =>
    cases l2 with
    | nil => cases h
    | cons y l2 =>
      obtain ⟨b, hb, h⟩ := Except.bind_eq_ok.mp h
      cases b with
      | true => exact .cons hb (ih h)
      | false => cases h

variable {phys : LTerm → LTerm → Bool} {attrTag : String → Nat}

theorem eqNamed_ok {σ : Type} [DecidableEq σ] {d1 d2 : σ × LTerm}
    (h : eqNamed phys U.tyTag attrTag d1 d2 = .ok true) :
    tEqualStrict phys U.tyTag attrTag d1.2 d2.2 = .ok true := by
  rw [eqNamed] at h
  split at h
  · exact h
  · cases h

theorem forall₂_named {σ : Type} [DecidableEq σ] {l1 l2 : List (σ × LTerm)}
    (h : listsEqual (eqNamed phys U.tyTag attrTag) l1 l2 = .ok true) :
    List.Forall₂ (fun f g => tEqualStrict phys U.tyTag attrTag f g = .ok true)
      (l1.map Prod.snd) (l2.map Prod.snd) := by
  rw [List.forall₂_map_left_iff, List.forall₂_map_right_iff]
  exact (listsEqual_ok h).imp fun _ _ h => eqNamed_ok h

theorem forall₂_flatMap {α β : Type} {R : β → β → Prop} {g : α → List β} {l1 l2 : List α}
    (h : List.Forall₂ (fun x y => List.Forall₂ R (g x) (g y)) l1 l2) :
    List.Forall₂ R (l1.flatMap g) (l2.flatMap g) := by
  induction h with
  | nil => exact .nil
  | cons h _ ih =>
    exact rel_append h ih

/-- The formulas of declarations that are found equal are. -/
theorem hsdeclEqual_ok {d1 d2 : DeclNode} (h : hsdeclEqual phys U.tyTag attrTag d1 d2 = .ok true) :
    List.Forall₂ (fun f g => tEqualStrict phys U.tyTag attrTag f g = .ok true) d1.formulas
      d2.formulas := by
  cases d1 with
  | dlogic l1 =>
    cases d2 with
    | dlogic l2 => exact forall₂_named h
    | _ => cases h
  | dind s1 l1 =>
    cases d2 with
    | dind s2 l2 =>
      rw [hsdeclEqual] at h
      split at h
      · refine forall₂_flatMap ((listsEqual_ok h).imp fun x y h => ?_)
        rw [eqInd] at h
        split at h
        · exact forall₂_named h
        · cases h
      · cases h
    | _ => cases h
  | dprop k1 pr1 f1 =>
    cases d2 with
    | dprop k2 pr2 f2 =>
      rw [hsdeclEqual] at h
      split at h
      · exact .cons h .nil
      · cases h
    | _ => cases h
  | _ => cases d2 <;> first | exact .nil | cases h

section Witness

open Stored (symU symV symX psP tsT smallSession)

def attrCode (s : String) : Nat := Encodable.encode (s.toList.map Char.toNat)

theorem attrCode_injective : Function.Injective attrCode := by
  have hinj : Function.Injective Char.toNat := fun a b h => Char.toNat_inj.mp h
  intro s t h
  exact String.toList_inj.mp (map_injective_iff.mpr hinj (Encodable.encode_injective h))

/-- `p u x` for a symbol `u` -/
def pairX (u : VSymbol) : LTerm := .tapp .plain psP [tVar u, tVar symX] none

variable (a : Ann)

/-- `epsilon u. p u x` where `v` with the annotation `a` is substituted for `x` -/
def epsFor : LTerm :=
  tSubstUnsafe [(symX, .tvar a symV)]
    (.teps .plain symU (tCloseBound symU (pairX symU)).2.1 (pairX symU))

def symFresh : VSymbol := ⟨⟨"u", 6⟩, .tyapp tsT []⟩

def pairV : LTerm := .tapp .plain psP [tVar symFresh, .tvar a symV] none

/-- `epsilon u. p u v` -/
def epsV : LTerm :=
  .teps .plain symFresh (tCloseBound symFresh (pairV a)).2.1 (pairV a)

theorem epsFor_eq : epsFor a =
    .teps .plain symU ⟨[(symV, 1)], [(symX, .tvar a symV)]⟩ (pairX symU) := rfl

theorem wf_pair {u : VSymbol} (hu : u.vsTy = .tyapp tsT []) (hv : v.vsTy = .tyapp tsT [])
    (a : Ann) : Wf emptySig smallSession (.tapp .plain psP [tVar u, .tvar a v] none) :=
  .tapp _ rfl nofun (forall_mem_cons.mpr ⟨.tvar _ hu, forall_mem_singleton.mpr (.tvar _ hv)⟩)

theorem admissible_epsFor : Admissible emptySig smallSession (epsFor a) := by
  have hwf : Wf emptySig smallSession (pairX symU) := wf_pair rfl rfl .plain
  have hmap : MapWf emptySig smallSession [(symX, .tvar a symV)] := by
    refine ⟨fun {v t} h => ?_, forall_mem_singleton.mpr (.tvar _ rfl)⟩
    cases mem_singleton.mp (AssocList.mem_of_lookup h)
    rfl
  refine ⟨(tSubstUnsafe_wf (.teps _ (tCloseBound_wf rfl hwf) nofun hwf) hmap).1, fun v hv => ?_⟩
  have hfree : free (epsFor a) = [symV] := rfl
  exact mem_cons.mpr (Or.inl (mem_singleton.mp hv))

theorem forced_epsFor : Forced (epsFor a) (epsV a) := by
  rw [epsFor_eq]
  refine .teps .plain 6 ?_ rfl ?_
  · rintro w ⟨e, he, v, hv, hvu, hw⟩
    rw [mem_singleton.mp he] at hv
    have hv : v = symX := by
      rcases mem_cons.mp hv with rfl | hv
      · exact absurd mem_cons_self hvu
      · exact mem_singleton.mp hv
    rw [hv] at hw
    rw [mem_singleton.mp hw]
    decide
  · have hopen : (tOpenBound 6 (symU, ⟨[(symV, 1)], [(symX, .tvar a symV)]⟩, pairX symU)).2 =
        .tapp .plain psP [.tvar (Ann.plain.copy .plain) symFresh,
          .tvar (Ann.plain.copy a) symV] none := rfl
    rw [hopen, Ann.copy_self, Ann.plain_copy]
    exact .tapp .plain psP none [(tVar symFresh, tVar symFresh), (.tvar a symV, .tvar a symV)]
      (forall_mem_cons.mpr ⟨.tvar _ _, forall_mem_singleton.mpr (.tvar _ _)⟩)

theorem opened_epsFor : opened (epsFor a) = .teps .plain (.tyapp tsT [])
    (.tapp .plain psP [.bnd .plain 0 (.tyapp tsT []), .tvar a symV] none) := by
  have h : opened (epsFor a) = .teps .plain (.tyapp tsT []) (.tapp .plain psP
      [.bnd (Ann.plain.copy .plain) 0 (.tyapp tsT []),
        .tvar (Ann.plain.copy (a.copy .plain)) symV] none) := rfl
  rw [h, Ann.copy_self, Ann.copy_plain, Ann.plain_copy]

end Witness

end Located
end Why3
