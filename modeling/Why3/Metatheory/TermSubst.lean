import Why3.Core.Stored
import Why3.Metatheory.MapVars

/-!
Substitution of terms without dangling indices for the free symbols of a term: how two
substitutions compose and how substitution meets closing and opening.
-/
namespace Why3

open List
variable {n : Nat} {t : Term}

namespace Term

/-! Attributes. -/

theorem scoped_setAttrs {a : Attrs} : Scoped n (t.setAttrs a) ↔ Scoped n t := by
  cases t <;> rfl

theorem tFree_setAttrs (t : Term) (a : Attrs) : (t.setAttrs a).tFree = t.tFree := by
  cases t <;> rfl

theorem setAttrs_setAttrs (t : Term) (a b : Attrs) : (t.setAttrs a).setAttrs b = t.setAttrs b := by
  cases t <;> rfl

theorem attrs_setAttrs (t : Term) (a : Attrs) : (t.setAttrs a).attrs = a := by
  cases t <;> rfl

/-! Substitution. -/

/-- A traversal that keeps the indices of the term stays within closed terms. -/
theorem mapVars_of_scoped {bv : Nat → Attrs → Nat → Ty → Term} (h : Scoped 0 t)
    (hbv : ∀ j a i ty, i < j → bv j a i ty = bvar a i ty) (k : Nat) :
    mapVars (fun _ a v => tvar a v) bv k t = t := by
  have hid := mapVars_id t k
  refine (mapVars_congr (n := 0) (h.mono (Nat.zero_le _)) (fun _ _ _ _ => rfl) ?_).trans hid
  exact fun j a i ty hi => hbv j a i ty hi

theorem lift_of_scoped (h : Scoped 0 t) (n : Nat) : t.lift n = t :=
  mapVars_of_scoped h (fun _ _ _ _ hi => if_pos hi) 0

theorem tFree_lift (n : Nat) (t : Term) : (t.lift n).tFree = t.tFree := by
  rw [lift, tFree_mapVars t 0 (g := fun v => [v]) (fun _ _ _ _ => rfl), flatMap_singleton']
  intro j a i ty
  split
  · rfl
  · rfl

def ClosedMap (m : VSymbol → Option Term) : Prop := ∀ v s, m v = some s → Scoped 0 s

/-- What substitution makes of an occurrence of a symbol. -/
def substVar (m : VSymbol → Option Term) (a : Attrs) (v : VSymbol) : Term :=
  match m v with
  | some s => tAttrCopy (tvar a v) s
  | none => tvar a v

section Subst

variable {m m₁ m₂ : VSymbol → Option Term}

theorem scoped_substVar (hm : ClosedMap m) (n : Nat) (a : Attrs) (v : VSymbol) :
    Scoped n (substVar m a v) := by
  rw [substVar]
  cases hv : m v with
  | none => trivial
  | some s => exact scoped_setAttrs.mpr ((hm v s hv).mono (Nat.zero_le n))

/-- Below binders substitution does the same. -/
theorem mapVars_substVar (hm : ClosedMap m) (k : Nat) (t : Term) :
    mapVars (fun _ a v => substVar m a v) (fun _ a i ty => bvar a i ty) k t = tSubst m t := by
  have hzero : tSubst m t =
      mapVars (fun _ a v => substVar m a v) (fun _ a i ty => bvar a i ty) 0 t := by
    rw [tSubst]
    congr 1
    funext j a v
    rw [substVar]
    cases hv : m v with
    | none => rfl
    | some s => simp only [lift_of_scoped (hm v s hv)]
  have hadd := mapVars_add (fun _ a v => substVar m a v) (fun _ a i ty => bvar a i ty) k t 0
  rw [Nat.zero_add] at hadd
  rw [hzero]
  exact hadd.symm

theorem tSubst_eq (hm : ClosedMap m) (t : Term) :
    tSubst m t = mapVars (fun _ a v => substVar m a v) (fun _ a i ty => bvar a i ty) 0 t :=
  (mapVars_substVar hm 0 t).symm

theorem scoped_tSubst (hm : ClosedMap m) (h : Scoped n t) : Scoped n (tSubst m t) := by
  rw [tSubst_eq hm]
  rw [← Nat.zero_add n] at h ⊢
  exact scoped_mapVars t 0 h (fun j a v _ => scoped_substVar hm _ a v) fun j a i ty hi => hi

/-- The free symbols that an occurrence of a symbol gives. -/
def substFree (m : VSymbol → Option Term) (v : VSymbol) : List VSymbol :=
  match m v with
  | some s => s.tFree
  | none => [v]

theorem tFree_tSubst (m : VSymbol → Option Term) (t : Term) :
    (tSubst m t).tFree = t.tFree.flatMap (substFree m) := by
  refine tFree_mapVars t 0 (fun j a v _ => ?_) fun _ _ _ _ => rfl
  rw [substFree]
  cases m v with
  | none => rfl
  | some s =>
    simp only
    rw [tAttrCopy, tFree_setAttrs, tFree_lift]

theorem tSubst_congr (h1 : ClosedMap m₁) (h2 : ClosedMap m₂) (h : Scoped n t)
    (heq : ∀ v ∈ t.tFree, m₁ v = m₂ v) : tSubst m₁ t = tSubst m₂ t := by
  rw [tSubst_eq h1, tSubst_eq h2]
  refine mapVars_congr (n := n) (by rwa [Nat.zero_add]) (fun j a v hv => ?_) fun _ _ _ _ _ => rfl
  rw [substVar, substVar, heq v hv]

theorem tSubst_of_none (hm : ClosedMap m) (h : Scoped n t)
    (hnone : ∀ v ∈ t.tFree, m v = none) : tSubst m t = t := by
  have hempty : ClosedMap fun _ => none := nofun
  rw [tSubst_congr hm hempty h hnone]
  exact mapVars_id t 0

/-- Substitution in a term whose attributes were extended. -/
theorem tSubst_tAttrCopy (hm : ClosedMap m) (a : Attrs) (v : VSymbol) (s : Term) :
    tSubst m (tAttrCopy (tvar a v) s) = tAttrCopy (tvar a v) (tSubst m s) := by
  rw [tSubst_eq hm, tSubst_eq hm]
  cases s with
  | tvar b w =>
    change substVar m (a ∪ b) w = tAttrCopy (tvar a v) (substVar m b w)
    rw [substVar, substVar]
    cases m w with
    | none => rfl
    | some r =>
      simp only [tAttrCopy, setAttrs_setAttrs, attrs_setAttrs]
      change r.setAttrs (a ∪ b ∪ r.attrs) = r.setAttrs (a ∪ (b ∪ r.attrs))
      rw [Finset.union_assoc]
  | _ => rfl

/-- One substitution after another. -/
def composeSubst (m₂ m₁ : VSymbol → Option Term) (v : VSymbol) : Option Term :=
  match m₁ v with
  | some s => some (tSubst m₂ s)
  | none => m₂ v

theorem closedMap_composeSubst (h1 : ClosedMap m₁) (h2 : ClosedMap m₂) :
    ClosedMap (composeSubst m₂ m₁) := by
  intro v s hs
  rw [composeSubst] at hs
  cases hv : m₁ v with
  | none =>
    rw [hv] at hs
    exact h2 v s hs
  | some r =>
    rw [hv] at hs
    cases hs
    exact scoped_tSubst h2 (h1 v r hv)

theorem tSubst_tSubst (h1 : ClosedMap m₁) (h2 : ClosedMap m₂)
    (h : Scoped n t) : tSubst m₂ (tSubst m₁ t) = tSubst (composeSubst m₂ m₁) t := by
  rw [tSubst_eq (closedMap_composeSubst h1 h2), tSubst_eq h1, tSubst_eq h2]
  refine mapVars_mapVars (n := n) t 0 (by rwa [Nat.zero_add]) (fun j a v _ => ?_)
    fun _ _ _ _ _ => rfl
  rw [mapVars_substVar h2, substVar, substVar, composeSubst]
  cases hv : m₁ v with
  | none =>
    rw [tSubst_eq h2]
    rfl
  | some s => exact tSubst_tAttrCopy h2 a v s

end Subst

/-! Instantiation of the indices of the innermost binding. -/

def instWith (tl : List Term) (t : Term) : Term :=
  mapVars (fun _ a v => tvar a v)
    (fun k a i ty => if i < k then bvar a i ty else
      match tl[i - k]? with
      | some s => tAttrCopy (bvar a i ty) (s.lift k)
      | none => bvar a (i - tl.length) ty) 0 t

theorem openWith_eq_instWith (ul : List VSymbol) (t : Term) :
    t.openWith ul = t.instWith (ul.map (tvar ∅)) := by
  rw [openWith]
  congr 1
  funext k a i ty
  rw [List.getElem?_map, length_map]
  split
  · rfl
  · cases ul[i - k]? with
    | none => rfl
    | some u =>
      change tvar a u = tvar (a ∪ ∅) u
      rw [Finset.union_empty]

/-- Substitution and instantiation of the indices, when it does not touch what they are
instantiated with. -/
theorem tSubst_instWith {m : VSymbol → Option Term} (hm : ClosedMap m) {tl : List Term}
    (htl : ∀ s ∈ tl, Scoped 0 s ∧ ∀ v ∈ s.tFree, m v = none)
    (h : Scoped n t) : tSubst m (t.instWith tl) = (tSubst m t).instWith tl := by
  have hfirst : tSubst m (t.instWith tl) = mapVars (fun _ a v => substVar m a v)
      (fun k a i ty => if i < k then bvar a i ty else
        match tl[i - k]? with
        | some s => tAttrCopy (bvar a i ty) (s.lift k)
        | none => bvar a (i - tl.length) ty) 0 t := by
    rw [tSubst_eq hm]
    refine mapVars_mapVars (n := n) t 0 (by rwa [Nat.zero_add]) (fun j a v _ => rfl)
      fun j a i ty _ => ?_
    split
    · rfl
    · cases hs : tl[i - j]? with
      | none => rfl
      | some s =>
        obtain ⟨hclosed, hnone⟩ := htl s (mem_of_getElem? hs)
        simp only [lift_of_scoped hclosed]
        have hscoped : Scoped 0 (tAttrCopy (bvar a i ty) s) := scoped_setAttrs.mpr hclosed
        rw [mapVars_substVar hm]
        refine tSubst_of_none hm hscoped fun v hv => hnone v ?_
        rwa [tAttrCopy, tFree_setAttrs] at hv
  rw [hfirst, tSubst_eq hm]
  symm
  refine mapVars_mapVars (n := n) t 0 (by rwa [Nat.zero_add]) (fun j a v _ => ?_)
    fun j a i ty _ => rfl
  exact mapVars_of_scoped (scoped_substVar hm 0 a v) (fun _ _ _ _ hi => if_pos hi) j

theorem tSubst_openWith {m : VSymbol → Option Term} (hm : ClosedMap m) {ul : List VSymbol}
    (hul : ∀ u ∈ ul, m u = none) (h : Scoped n t) :
    tSubst m (t.openWith ul) = (tSubst m t).openWith ul := by
  rw [openWith_eq_instWith, openWith_eq_instWith]
  refine tSubst_instWith hm (fun s hs => ?_) h
  obtain ⟨u, hu, rfl⟩ := mem_map.mp hs
  refine ⟨trivial, fun v hv => ?_⟩
  rw [mem_singleton.mp hv]
  exact hul u hu

end Term

namespace Stored

open Term

theorem lastIdx?_cons (v u : VSymbol) (vl : List VSymbol) :
    lastIdx? v (u :: vl) = ((lastIdx? v vl).map (· + 1)).or (if u = v then some 0 else none) := by
  rw [lastIdx?]
  cases lastIdx? v vl <;> rfl

variable {vl : List VSymbol}

theorem getElem?_lastIdx? {w : VSymbol} {j : Nat} (h : lastIdx? w vl = some j) :
    vl[j]? = some w := by
  induction vl generalizing j with
  | nil => cases h
  | cons v vl ih =>
    rw [lastIdx?_cons] at h
    cases hl : lastIdx? w vl with
    | some i =>
      rw [hl] at h
      cases h
      exact ih hl
    | none =>
      rw [hl, Option.map_none] at h
      split at h
      next hv =>
        cases h
        exact congrArg some hv
      next => cases h

theorem lastIdx?_lt {v : VSymbol} {j : Nat} (h : lastIdx? v vl = some j) : j < vl.length :=
  (List.getElem?_eq_some_iff.mp (getElem?_lastIdx? h)).1

theorem lastIdx?_eq_none {v : VSymbol} : lastIdx? v vl = none ↔ v ∉ vl := by
  induction vl with
  | nil => exact ⟨fun _ => not_mem_nil, fun _ => rfl⟩
  | cons u vl ih =>
    rw [lastIdx?_cons, Option.or_eq_none_iff, Option.map_eq_none_iff, ih, mem_cons, not_or]
    by_cases hu : u = v
    · simp [hu]
    · simp [hu, Ne.symm hu]

theorem lastIdx?_of_nodup (h : vl.Nodup) (v : VSymbol) : lastIdx? v vl = vl.idxOf? v := by
  induction vl with
  | nil => rfl
  | cons u vl ih =>
    obtain ⟨hu, hvl⟩ := nodup_cons.mp h
    rw [lastIdx?_cons, ih hvl, List.idxOf?_cons]
    by_cases huv : u = v
    · subst huv
      simp [List.idxOf?_eq_none_iff.mpr hu]
    · cases hv : vl.idxOf? v with
      | none | some j => simp [huv]

/-- The symbols of a binding are those of `close` when they are distinct. -/
theorem closeBody_of_nodup (h : vl.Nodup) (t : Term) : closeBody vl t = t.close vl := by
  rw [closeBody]
  congr 1
  funext k a v
  cases hv : vl.idxOf? v with
  | none | some j => simp only [lastIdx?_of_nodup h, hv]

theorem scoped_closeBody (vl : List VSymbol) (h : Scoped n t) :
    Scoped (n + vl.length) (closeBody vl t) := by
  rw [← Nat.zero_add (n + vl.length)]
  refine scoped_mapVars (n := n) t 0 (by rwa [Nat.zero_add]) (fun j a v _ => ?_) ?_
  · cases hv : lastIdx? v vl with
    | none => trivial
    | some i =>
      have := lastIdx?_lt hv
      simp only [Scoped]
      omega
  · intro j a i ty hi
    split
    · simp only [Scoped]
      omega
    · simp only [Scoped]
      omega

theorem tFree_closeBody (vl : List VSymbol) (t : Term) :
    (closeBody vl t).tFree = t.tFree.filter (· ∉ vl) := by
  rw [closeBody, tFree_mapVars t 0 (g := fun v => if v ∈ vl then [] else [v])]
  · induction t.tFree with
    | nil => rfl
    | cons v l ih =>
      rw [flatMap_cons, ih]
      by_cases hv : v ∈ vl
      · simp [hv]
      · simp [hv]
  · intro j a v _
    by_cases hv : v ∈ vl
    · obtain ⟨i, hi⟩ := Option.ne_none_iff_exists'.mp (mt lastIdx?_eq_none.mp (not_not.mpr hv))
      simp [hi, hv, tFree]
    · simp [lastIdx?_eq_none.mpr hv, hv, tFree]
  · intro j a i ty
    split
    · rfl
    · rfl

section ForceBody

variable {vl : List VSymbol} {s : Mvs Term} {f : Term}

/-- The symbols of the deferred substitution and the terms for the indices. -/
def bodyMap (vl : List VSymbol) (tl : List Term) (s : Mvs Term) (v : VSymbol) : Option Term :=
  match lastIdx? v vl with
  | some j => tl[j]?
  | none => s.lookup v

theorem scoped_forceBody (hs : ClosedMap fun v => s.lookup v) (hf : Scoped 0 f) :
    Scoped vl.length (forceBody vl s f) := by
  have hclose := scoped_closeBody vl hf
  rw [Nat.zero_add] at hclose
  exact scoped_tSubst hs hclose

/-- Instantiating the body of a binding is one substitution. -/
theorem instWith_forceBody {tl : List Term} (hlen : tl.length = vl.length)
    (hs : ClosedMap fun v => s.lookup v) (htl : ∀ t ∈ tl, Scoped 0 t) (hf : Scoped 0 f) :
    (forceBody vl s f).instWith tl = Why3.tSubst (bodyMap vl tl s) f := by
  have hmap : ClosedMap (bodyMap vl tl s) := by
    intro v t ht
    rw [bodyMap] at ht
    cases hv : lastIdx? v vl with
    | none =>
      rw [hv] at ht
      exact hs v t ht
    | some j =>
      rw [hv] at ht
      exact htl t (mem_of_getElem? ht)
  rw [forceBody, tSubst_eq hs, closeBody, tSubst_eq hmap]
  rw [mapVars_mapVars (n := 0) f 0 hf (fun _ _ _ _ => rfl) fun _ _ _ _ _ => rfl]
  refine mapVars_mapVars (n := 0) f 0 hf (fun j a v _ => ?_) fun j a i ty hi => ?_
  · cases hv : lastIdx? v vl with
    | none =>
      have hvar : substVar (bodyMap vl tl s) a v = substVar (fun v => s.lookup v) a v := by
        rw [substVar, substVar, bodyMap, hv]
      rw [hvar]
      exact mapVars_of_scoped (scoped_substVar hs 0 a v) (fun _ _ _ _ hi => if_pos hi) j
    | some i =>
      have hlt := lastIdx?_lt hv
      obtain ⟨t, ht⟩ : ∃ t, tl[i]? = some t :=
        ⟨_, List.getElem?_eq_getElem (hlen ▸ hlt)⟩
      have hclosed := htl t (mem_of_getElem? ht)
      simp only [mapVars]
      rw [if_neg (by omega), Nat.add_sub_cancel_left, substVar, bodyMap, hv]
      simp only [ht, lift_of_scoped hclosed]
      rfl
  · rw [Nat.add_zero] at hi
    simp only [mapVars, if_pos hi]

end ForceBody

end Stored
end Why3
