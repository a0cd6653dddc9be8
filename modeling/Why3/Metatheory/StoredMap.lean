import Why3.Core.StoredMap
import Why3.Library.Except
import Why3.Metatheory.Stored
import Why3.Semantics.PatMap

/-!
Maps over the types and symbols of stored terms.

The numbers of occurrences are renamed with the symbols. They stay right when the renaming
keeps distinct free symbols apart and sends each to itself or to a symbol that the term does
not have.
-/
namespace Why3

open List
open Except (bind_eq_ok error ok)
open KeyMap (add lookup_add lookup_setUnion mem mem_iff setUnion)

/-! Counters. -/

variable {u : VSymbol} {k : Nat}

section Counter

variable (g : Ty → Ty)

theorem le_genFreshVsymbol (k : Nat) (v : VSymbol) : k ≤ (genFreshVsymbol g k v).2 := by
  rw [genFreshVsymbol]
  split
  · exact Nat.le_refl k
  · exact Nat.le_succ k

/-- A symbol stays or gets a new tag. -/
theorem genFreshVsymbol_moved (k : Nat) (v : VSymbol) : (genFreshVsymbol g k v).1 = v ∨
      k ≤ (genFreshVsymbol g k v).1.vsName.idTag ∧
        (genFreshVsymbol g k v).1.vsName.idTag < (genFreshVsymbol g k v).2 := by
  rw [genFreshVsymbol]
  split
  · exact .inl rfl
  · exact .inr ⟨Nat.le_refl k, Nat.lt_succ_self k⟩

/-- Symbols with old tags that are moved one after the other stay apart. -/
theorem eq_of_moved {k₁ k₂ : Nat} {v w : VSymbol} (hv : v.vsName.idTag < k)
    (hw : w.vsName.idTag < k) (hk : k ≤ k₁) (h : u = v ∨ k ≤ u.vsName.idTag ∧ u.vsName.idTag < k₁)
    (h' : u = w ∨ k₁ ≤ u.vsName.idTag ∧ u.vsName.idTag < k₂) : v = w := by
  rcases h with rfl | h
  · exact h'.elim id fun h' => by omega
  · rcases h' with rfl | h' <;> omega

theorem le_genVlRename (k : Nat) (vl : List VSymbol) : k ≤ (genVlRename g k vl).2 := by
  induction vl generalizing k with
  | nil => exact Nat.le_refl k
  | cons v vl ih => exact (le_genFreshVsymbol g k v).trans (ih _)

theorem length_genVlRename (k : Nat) (vl : List VSymbol) :
    (genVlRename g k vl).1.length = vl.length := by
  induction vl generalizing k with
  | nil => rfl
  | cons v vl ih => exact congrArg Nat.succ (ih _)

theorem genVlRename_getElem {vl : List VSymbol} {v : VSymbol} {i : Nat} (hi : vl[i]? = some v)
    (hu : (genVlRename g k vl).1[i]? = some u) :
    u = v ∨ k ≤ u.vsName.idTag ∧ u.vsName.idTag < (genVlRename g k vl).2 := by
  induction vl generalizing k i with
  | nil => cases hi
  | cons x vl ih =>
    have hle := le_genVlRename g (genFreshVsymbol g k x).2 vl
    have hk := le_genFreshVsymbol g k x
    cases i with
    | zero =>
      cases hi
      cases hu
      exact (genFreshVsymbol_moved g k v).imp_right fun h => ⟨h.1, h.2.trans_le hle⟩
    | succ i => exact (ih hi hu).imp_right fun h => ⟨hk.trans h.1, h.2⟩

/-- The renamed symbols are old ones or have new tags. -/
theorem mem_genVlRename {vl : List VSymbol} (hu : u ∈ (genVlRename g k vl).1) :
    u ∈ vl ∨ k ≤ u.vsName.idTag ∧ u.vsName.idTag < (genVlRename g k vl).2 := by
  obtain ⟨i, hi⟩ := mem_iff_getElem?.mp hu
  have hlt : i < vl.length := length_genVlRename g k vl ▸ (List.getElem?_eq_some_iff.mp hi).1
  refine (genVlRename_getElem g (List.getElem?_eq_getElem hlt) hi).imp_left fun h => ?_
  exact h ▸ getElem_mem hlt

end Counter
namespace Stored

open Term

/-! All symbols of a term: free, bound and with a deferred term. -/

mutual
def syms : STerm → List VSymbol
  | .tvar _ v => [v]
  | .tconst _ _ _ | .ttrue _ | .tfalse _ => []
  | .tapp _ _ tl _ => symsList tl
  | .tif _ f t e => syms f ++ (syms t ++ syms e)
  | .tlet _ t v b e => syms t ++ ([v] ++ (symsBnd b ++ syms e))
  | .tcase _ t bl => syms t ++ symsBranches bl
  | .teps _ v b f => [v] ++ (symsBnd b ++ syms f)
  | .tquant _ _ vl b tr f => vl ++ (symsBnd b ++ (syms f ++ symsTrigger tr))
  | .tbinop _ _ f g => syms f ++ syms g
  | .tnot _ f => syms f
def symsList : List STerm → List VSymbol
  | [] => []
  | t :: tl => syms t ++ symsList tl
def symsBnd : BindInfo STerm → List VSymbol
  | ⟨_, s⟩ => symsEntries s
def symsEntries : List (VSymbol × STerm) → List VSymbol
  | [] => []
  | (v, t) :: s => v :: (syms t ++ symsEntries s)
def symsBranches : List (Pattern × BindInfo STerm × STerm) → List VSymbol
  | [] => []
  | (p, b, e) :: bl => patVars p ++ (symsBnd b ++ (syms e ++ symsBranches bl))
def symsTrigger : List (List STerm) → List VSymbol
  | [] => []
  | l :: tr => symsList l ++ symsTrigger tr
end

theorem symsList_eq (tl : List STerm) : symsList tl = tl.flatMap syms :=
  ListRec.eq_flatMap rfl (fun _ _ => rfl) tl

theorem symsTrigger_eq (tr : List (List STerm)) : symsTrigger tr = tr.flatten.flatMap syms := by
  induction tr with
  | nil => rfl
  | cons l tr ih => rw [symsTrigger, ih, symsList_eq, flatten_cons, flatMap_append]

theorem symsBnd_eq (b : BindInfo STerm) :
    symsBnd b = b.bvSubst.flatMap fun x => x.1 :: syms x.2 := by
  obtain ⟨vars, s⟩ := b
  rw [symsBnd]
  induction s with
  | nil => rfl
  | cons x s ih =>
    rw [symsEntries, ih]
    rfl

theorem symsBranches_eq (bl : List TermBranch) : symsBranches bl =
      bl.flatMap fun x => patVars x.1 ++ (symsBnd x.2.1 ++ syms x.2.2) := by
  induction bl with
  | nil => rfl
  | cons x bl ih =>
    rw [symsBranches, ih, flatMap_cons]
    simp only [append_assoc]

/-! The free symbols of a body. -/

/-- The free symbols of a body whose forced form has those of `l`. -/
def bodyFree (vl : List VSymbol) (s : Mvs STerm) (l : List VSymbol) : List VSymbol :=
  (l.filter (· ∉ vl)).flatMap (substFree (substMap s))

theorem tFree_bodyOf (vl : List VSymbol) (b : BindInfo STerm) (e : STerm) :
    (bodyOf vl b e).tFree = bodyFree vl b.bvSubst (force e).tFree := by
  rw [bodyOf_eq, tFree_tSubst, tFree_closeBody, bodyFree]

theorem tFree_force_tquant (a : Attrs) (q : Quant) (vl : List VSymbol) (b : BindInfo STerm)
    (tr : List (List STerm)) (f : STerm) : (force (.tquant a q vl b tr f)).tFree =
      (f :: tr.flatten).flatMap fun e => (bodyOf vl b e).tFree := by
  rw [flatMap_cons, ← flatMap_id, flatMap_assoc]
  simp only [force, tFree, forceTrigger_eq, tFreeTrigger_eq, flatMap_map]
  rfl

theorem tFree_force_tcase (a : Attrs) (t : STerm) (bl : List TermBranch) :
    (force (.tcase a t bl)).tFree =
      (force t).tFree ++ bl.flatMap fun x => (bodyOf (patVars x.1) x.2.1 x.2.2).tFree := by
  rw [force, tFree, forceBranches_eq, tFreeBranches_eq, flatMap_map]
  rfl

theorem tFree_force_tapp (a : Attrs) (ls : LSymbol) (tl : List STerm) (ty : Option Ty) :
    (force (.tapp a ls tl ty)).tFree = tl.flatMap fun t => (force t).tFree := by
  rw [force, tFree, forceList_eq, tFreeList_eq, flatMap_map]

theorem bodyFree_subset_syms (vl : List VSymbol) {b : BindInfo STerm} {e : STerm}
    (hb : ∀ x ∈ b.bvSubst, (force x.2).tFree ⊆ syms x.2) (he : (force e).tFree ⊆ syms e) :
    (bodyOf vl b e).tFree ⊆ symsBnd b ++ syms e := by
  intro w hw
  rw [tFree_bodyOf] at hw
  obtain ⟨v, hv, hw⟩ := mem_flatMap.mp hw
  rw [substFree, substMap] at hw
  cases ht : b.bvSubst.lookup v with
  | none =>
    rw [ht] at hw
    rw [mem_singleton.mp hw]
    exact mem_append_right _ (he (mem_of_mem_filter hv))
  | some t =>
    rw [ht] at hw
    have hmem := AssocList.mem_of_lookup ht
    refine mem_append_left _ ?_
    rw [symsBnd_eq]
    exact mem_flatMap.mpr ⟨_, hmem, mem_cons_of_mem _ (hb _ hmem hw)⟩

theorem tFree_subset_syms (t : STerm) : (force t).tFree ⊆ syms t := by
  induction t using STerm.induct with
  | tapp a ls tl ty ih =>
    rw [tFree_force_tapp, syms, symsList_eq]
    intro w hw
    obtain ⟨t, ht, hw⟩ := mem_flatMap.mp hw
    exact mem_flatMap.mpr ⟨t, ht, ih t ht hw⟩
  | tif a f t e hf ht he =>
    intro w hw
    simp only [force, tFree, syms, mem_append] at hw ⊢
    exact hw.elim (fun h => h.elim (fun h => .inl (hf h)) fun h => .inr (.inl (ht h)))
      fun h => .inr (.inr (he h))
  | tlet a t v b e ht hb he =>
    intro w hw
    have hbody := bodyFree_subset_syms [v] hb he
    cases mem_append.mp hw with
    | inl hw => exact mem_append_left _ (ht hw)
    | inr hw => exact mem_append_right _ (mem_append_right _ (hbody hw))
  | tcase a t bl ht hb he =>
    rw [tFree_force_tcase, syms, symsBranches_eq]
    intro w hw
    cases mem_append.mp hw with
    | inl hw => exact mem_append_left _ (ht hw)
    | inr hw =>
      obtain ⟨x, hx, hw⟩ := mem_flatMap.mp hw
      refine mem_append_right _ (mem_flatMap.mpr ⟨x, hx, ?_⟩)
      exact mem_append_right _ (bodyFree_subset_syms _ (hb x hx) (he x hx) hw)
  | teps a v b f hb hf =>
    intro w hw
    exact mem_append_right _ (bodyFree_subset_syms [v] hb hf hw)
  | tquant a q vl b tr f hb htr hf =>
    intro w hw
    rw [tFree_force_tquant] at hw
    obtain ⟨e, he, hw⟩ := mem_flatMap.mp hw
    rw [syms, symsTrigger_eq]
    refine mem_append_right _ ?_
    have hsub : (force e).tFree ⊆ syms e := by
      cases mem_cons.mp he with
      | inl h => exact h ▸ hf
      | inr h =>
        obtain ⟨l, hl, h⟩ := mem_flatten.mp h
        exact htr l hl e h
    cases mem_append.mp (bodyFree_subset_syms vl hb hsub hw) with
    | inl hw => exact mem_append_left _ hw
    | inr hw =>
      refine mem_append_right _ ?_
      have := mem_flatMap.mpr ⟨e, he, hw⟩
      rwa [flatMap_cons] at this
  | tbinop a op f g hf hg =>
    intro w hw
    cases mem_append.mp hw with
    | inl hw => exact mem_append_left _ (hf hw)
    | inr hw => exact mem_append_right _ (hg hw)
  | tnot a f hf => exact hf
  | _ => exact List.Subset.refl _

/-! Renamings. -/

def renVar (m : Mvs VSymbol) (v : VSymbol) : VSymbol := (m.lookup v).getD v

/-- The renaming keeps the symbols of `fv` apart, sends each to itself or to a symbol that is
not in `sy`, and all tags are below `k`. -/
structure RenOk (m : Mvs VSymbol) (fv sy : List VSymbol) (k : Nat) : Prop where
  inj : ∀ v ∈ fv, ∀ w ∈ fv, renVar m v = renVar m w → v = w
  apart : ∀ v ∈ fv, renVar m v = v ∨ renVar m v ∉ sy
  below : ∀ v ∈ fv, (renVar m v).vsName.idTag < k
  symsBelow : ∀ v ∈ sy, v.vsName.idTag < k

variable {k' : Nat} {w v : VSymbol} {ul : List VSymbol} {m : Mvs VSymbol}

theorem RenOk.mono {fv fv' sy sy' : List VSymbol} (h : RenOk m fv sy k) (hfv : fv' ⊆ fv)
    (hsy : sy' ⊆ sy) (hk : k ≤ k') : RenOk m fv' sy' k' where
  inj v hv w hw := h.inj v (hfv hv) w (hfv hw)
  apart v hv := (h.apart v (hfv hv)).imp_right fun hnot hmem => hnot (hsy hmem)
  below v hv := (h.below v (hfv hv)).trans_le hk
  symsBelow v hv := (h.symsBelow v (hsy hv)).trans_le hk

theorem RenOk.le {fv sy : List VSymbol} (h : RenOk m fv sy k) (hk : k ≤ k') : RenOk m fv sy k' :=
  h.mono (List.Subset.refl _) (List.Subset.refl _) hk

/-- Renaming the symbols `vl` from the counter `k` on, to themselves or to new symbols. -/
structure Freshens (f : VSymbol → VSymbol) (vl : List VSymbol) (k k' : Nat) : Prop where
  le : k ≤ k'
  moved : ∀ v ∈ vl, f v = v ∨ k ≤ (f v).vsName.idTag ∧ (f v).vsName.idTag < k'
  inj : ∀ v ∈ vl, ∀ w ∈ vl, f v = f w → v = w

section Binding

variable {m m₁ m₂ : Mvs VSymbol} {vl keys fv sy l : List VSymbol} {k k₁ k₂ : Nat}

/-- The renaming below a binding: of the symbols with deferred terms, and then of the bound
ones. -/
structure Below (m m₁ m₂ : Mvs VSymbol) (keys vl : List VSymbol) (k k₁ k₂ : Nat) : Prop where
  keysFresh : Freshens (renVar m₁) keys k k₁
  keysOther : ∀ w, w ∉ keys → renVar m₁ w = renVar m w
  fresh : Freshens (renVar m₂) vl k₁ k₂
  other : ∀ w, w ∉ vl → renVar m₂ w = renVar m₁ w

section

variable (h : Below m m₁ m₂ keys vl k k₁ k₂) (hren : RenOk m fv sy k)
include h hren

/-- A symbol of the body goes to itself or to a symbol that the term does not have: as a bound
symbol or one with a deferred term to a new one, as a free symbol of the binding to an old one. -/
theorem Below.cases (hw : w ∉ vl → w ∉ keys → w ∈ fv) :
    renVar m₂ w = w ∨ renVar m₂ w ∉ sy ∧
      ((w ∈ vl ∧ k₁ ≤ (renVar m₂ w).vsName.idTag ∧ (renVar m₂ w).vsName.idTag < k₂) ∨
      (w ∈ keys ∧ renVar m₂ w = renVar m₁ w ∧ k ≤ (renVar m₂ w).vsName.idTag ∧
        (renVar m₂ w).vsName.idTag < k₁) ∨
      (w ∈ fv ∧ renVar m₂ w = renVar m w ∧ (renVar m₂ w).vsName.idTag < k)) := by
  have hnew : k ≤ (renVar m₂ w).vsName.idTag → renVar m₂ w ∉ sy :=
    fun hk hmem => Nat.not_lt.mpr hk (hren.symsBelow _ hmem)
  by_cases hvl : w ∈ vl
  · exact (h.fresh.moved w hvl).imp_right fun hm =>
      ⟨hnew (h.keysFresh.le.trans hm.1), .inl ⟨hvl, hm⟩⟩
  · have hone := h.other w hvl
    by_cases hkeys : w ∈ keys
    · have hmoved := h.keysFresh.moved w hkeys
      rw [← hone] at hmoved
      exact hmoved.imp_right fun hm => ⟨hnew hm.1, .inr (.inl ⟨hkeys, hone, hm⟩)⟩
    · have hfv := hw hvl hkeys
      have htwo := hone.trans (h.keysOther w hkeys)
      have hapart := hren.apart w hfv
      have hlt := hren.below w hfv
      rw [← htwo] at hapart hlt
      exact hapart.imp_right fun hm => ⟨hm, .inr (.inr ⟨hfv, htwo, hlt⟩)⟩

/-- The renaming of a binding is one of its bodies. -/
theorem Below.renOk (hl : l ⊆ sy) (hfree : ∀ w ∈ l, w ∉ vl → w ∉ keys → w ∈ fv)
    : RenOk m₂ l sy k₂ := by
  have hle1 := h.keysFresh.le
  have hle2 := h.fresh.le
  refine ⟨fun v hv w hw heq => ?_, fun v hv => (h.cases hren (hfree v hv)).imp_right And.left,
    fun v hv => ?_, fun v hv => ?_⟩
  · rcases h.cases hren (hfree v hv) with hv1 | ⟨hv0, hv1⟩
    · rcases h.cases hren (hfree w hw) with hw1 | ⟨hw0, -⟩
      · exact hv1.symm.trans (heq.trans hw1)
      · rw [← heq, hv1] at hw0
        exact absurd (hl hv) hw0
    · rcases h.cases hren (hfree w hw) with hw1 | ⟨-, hw1⟩
      · rw [heq, hw1] at hv0
        exact absurd (hl hw) hv0
      · -- symbols of different kinds have tags in disjoint ranges
        rw [heq] at hv1
        rcases hv1 with ⟨hv1, hv2, hv3⟩ | ⟨hv1, hv2, hv3, hv4⟩ | ⟨hv1, hv2, hv3⟩ <;>
        rcases hw1 with ⟨hw1, hw2, hw3⟩ | ⟨hw1, hw2, hw3, hw4⟩ | ⟨hw1, hw2, hw3⟩ <;>
        first
        | omega
        | exact h.fresh.inj v hv1 w hw1 heq
        | exact h.keysFresh.inj v hv1 w hw1 (hv2.symm.trans hw2)
        | exact hren.inj v hv1 w hw1 (hv2.symm.trans hw2)
  · rcases h.cases hren (hfree v hv) with hv1 | ⟨-, hv1⟩
    · have := hren.symsBelow v (hl hv)
      rw [hv1]
      omega
    · rcases hv1 with ⟨-, -, hv3⟩ | ⟨-, -, -, hv4⟩ | ⟨-, -, hv3⟩ <;> omega
  · have := hren.symsBelow v hv
    omega

/-- A new or unmoved symbol among the renamed ones comes from a bound symbol. -/
theorem Below.mem_iff (hvl : vl ⊆ sy)
    (hul : ∀ u ∈ ul, u ∈ vl ∨ k₁ ≤ u.vsName.idTag ∧ u.vsName.idTag < k₂)
    (hmem : ∀ w ∈ vl, renVar m₂ w ∈ ul) (hw : w ∈ sy) (hfree : w ∉ vl → w ∉ keys → w ∈ fv)
    : renVar m₂ w ∈ ul ↔ w ∈ vl := by
  refine ⟨fun hu => ?_, hmem w⟩
  have hle1 := h.keysFresh.le
  have hwk := hren.symsBelow w hw
  rcases h.cases hren hfree with hw1 | ⟨hw0, hw1⟩
  · rw [hw1] at hu
    exact (hul _ hu).resolve_right (by omega)
  · have hul := (hul _ hu).resolve_left fun h => hw0 (hvl h)
    rcases hw1 with ⟨hw1, -⟩ | ⟨-, -, -, hw4⟩ | ⟨-, -, hw3⟩
    · exact hw1
    · omega
    · omega

/-- A free symbol of the binding is not renamed to a symbol with a deferred term. -/
theorem Below.ne_keys (hkeys : keys ⊆ sy) (hw : w ∈ fv) (hnot : w ∉ keys) (hv : v ∈ keys)
    : renVar m₁ v ≠ renVar m w := by
  intro heq
  have hlt := hren.below w hw
  cases h.keysFresh.moved v hv with
  | inl h =>
    cases hren.apart w hw with
    | inl hw =>
      rw [h, hw] at heq
      exact hnot (heq ▸ hv)
    | inr hw =>
      rw [← heq, h] at hw
      exact hw (hkeys hv)
  | inr h =>
    rw [heq] at h
    omega

end

end Binding

theorem renVar_add (v u : VSymbol) (m : Mvs VSymbol) (w : VSymbol) :
    renVar (add v u m) w = if w = v then u else renVar m w := by
  rw [renVar, lookup_add]
  split
  · rfl
  · rfl

/-! The symbols of the binding. -/

variable {l : List VSymbol}

section Vars

variable {m : Mvs VSymbol}

theorem foldlM_rename {vars : Mvs Int63} {acc r : Mvs Int63} (hvars : KeyMap.Distinct vars)
    (hinj : ∀ v ∈ vars.map Prod.fst, ∀ w ∈ vars.map Prod.fst, renVar m v = renVar m w → v = w)
    (h : vars.foldlM (fun acc x => match m.lookup x.1 with
      | some u => ok (add u x.2 acc)
      | none => error TermError.notFound) acc = ok r) (hacc : KeyMap.Distinct acc) :
    KeyMap.Distinct r ∧ (∀ x ∈ vars, r.lookup (renVar m x.1) = some x.2) ∧
      ∀ w, (∀ x ∈ vars, renVar m x.1 ≠ w) → r.lookup w = acc.lookup w := by
  induction vars generalizing acc with
  | nil =>
    cases h
    exact ⟨hacc, nofun, fun _ _ => rfl⟩
  | cons x vars ih =>
    obtain ⟨acc', hx, h⟩ := Except.foldlM_cons_ok.mp h
    cases hu : m.lookup x.1 with
    | none =>
      rw [hu] at hx
      cases hx
    | some u =>
      rw [hu] at hx
      cases hx
      have hren : renVar m x.1 = u := by rw [renVar, hu, Option.getD_some]
      rw [KeyMap.Distinct, map_cons, nodup_cons] at hvars
      obtain ⟨hr, hmem, hother⟩ := ih hvars.2
        (fun v hv w hw => hinj v (mem_cons_of_mem _ hv) w (mem_cons_of_mem _ hw)) h
        (hacc.add u x.2)
      refine ⟨hr, fun y hy => ?_, fun w hw => ?_⟩
      · cases mem_cons.mp hy with
        | inr hy => exact hmem y hy
        | inl hy =>
          subst hy
          rw [hother, lookup_add, if_pos hren]
          intro z hz heq
          have hz : z.1 ∈ vars.map Prod.fst := mem_map.mpr ⟨z, hz, rfl⟩
          refine hvars.1 ?_
          rw [hinj y.1 mem_cons_self z.1 (mem_cons_of_mem _ hz) heq.symm]
          exact hz
      · rw [hother w (forall_mem_cons.mp hw).2, lookup_add,
          if_neg fun heq => hw x mem_cons_self (hren.trans heq.symm)]

theorem count_map_of_inj {f : VSymbol → VSymbol} (hinj : ∀ v ∈ l, ∀ w ∈ l, f v = f w → v = w)
    (hv : v ∈ l) : (l.map f).count (f v) = l.count v := by
  rw [count_eq_countP, countP_map]
  refine countP_congr fun w hw => ?_
  simp only [Function.comp_apply, beq_iff_eq]
  exact ⟨hinj w hw v hv, fun h => h ▸ rfl⟩

theorem genBndVars_ok {vars vars' : Mvs Int63} (hvars : KeyMap.Distinct vars)
    (hrep : Represents vars l) (hinj : ∀ v ∈ l, ∀ w ∈ l, renVar m v = renVar m w → v = w)
    (h : genBndVars m vars = .ok vars') :
    KeyMap.Distinct vars' ∧ Represents vars' (l.map (renVar m)) := by
  have hperm := perm_insertionSort
    (fun (x y : VSymbol × Int63) => x.1.vsName.idTag ≤ y.1.vsName.idTag) vars
  have hkeys : ∀ v ∈ vars.map Prod.fst, v ∈ l := fun v hv => hrep.mem.mp (mem_iff.mpr hv)
  have hsorted := (hperm.map Prod.fst).nodup_iff.mpr hvars
  obtain ⟨hdist, hmem, hother⟩ := foldlM_rename (m := m) hsorted
    (fun v hv w hw => hinj v (hkeys v ((hperm.map Prod.fst).mem_iff.mp hv)) w
      (hkeys w ((hperm.map Prod.fst).mem_iff.mp hw))) h nodup_nil
  refine ⟨hdist, fun w => ?_⟩
  by_cases hw : w ∈ l.map (renVar m)
  · obtain ⟨v, hv, rfl⟩ := mem_map.mp hw
    rw [count_map_of_inj hinj hv, ← hrep v]
    cases hn : vars.lookup v with
    | none =>
      have := hrep.mem.mpr hv
      rw [mem, hn] at this
      cases this
    | some n => exact hmem (v, n) (hperm.mem_iff.mpr (AssocList.mem_of_lookup hn))
  · rw [count_eq_zero.mpr hw, hother w]
    · rfl
    · intro x hx heq
      refine hw (mem_map.mpr ⟨x.1, hkeys _ ?_, heq⟩)
      exact mem_map.mpr ⟨x, hperm.mem_iff.mp hx, rfl⟩

end Vars

/-! The bound symbols. -/

section Bound

variable (fnT : Ty → Ty) {k : Nat} {vl : List VSymbol}

/-- Distinct symbols are renamed to distinct ones, position by position. -/
theorem genVlRename_inj (hk : ∀ v ∈ vl, v.vsName.idTag < k) {i j : Nat} (hi : vl[i]? = some v)
    (hj : vl[j]? = some w) (hui : (genVlRename fnT k vl).1[i]? = some u)
    (huj : (genVlRename fnT k vl).1[j]? = some u) : v = w := by
  induction vl generalizing k i j v w u with
  | nil => cases hi
  | cons x vl ih =>
    have hle := le_genFreshVsymbol fnT k x
    have hk' : ∀ v ∈ vl, v.vsName.idTag < (genFreshVsymbol fnT k x).2 :=
      fun v hv => (hk v (mem_cons_of_mem _ hv)).trans_le hle
    -- the first symbol against a later one
    have hhead : ∀ {i : Nat} {v u : VSymbol}, vl[i]? = some v →
        (genVlRename fnT (genFreshVsymbol fnT k x).2 vl).1[i]? = some u →
        u = (genFreshVsymbol fnT k x).1 → x = v := by
      intro i v u hi hu heq
      have hv := hk v (mem_cons_of_mem _ (mem_of_getElem? hi))
      have hx := hk x mem_cons_self
      have hu := genVlRename_getElem fnT hi hu
      rw [heq] at hu
      exact eq_of_moved hx hv hle (genFreshVsymbol_moved fnT k x) hu
    cases i with
    | zero =>
      cases hi
      cases hui
      cases j with
      | zero =>
        cases hj
        rfl
      | succ j => exact hhead hj huj rfl
    | succ i =>
      cases j with
      | zero =>
        cases hj
        cases huj
        exact (hhead hi hui rfl).symm
      | succ j => exact ih hk' hi hj hui huj

/-- Each bound symbol is renamed to the symbol at one of its positions. -/
def Picks (f : VSymbol → VSymbol) (vl ul : List VSymbol) : Prop :=
  ∀ w ∈ vl, ∃ i : Nat, vl[i]? = some w ∧ ul[i]? = some (f w)

theorem Picks.freshens {f : VSymbol → VSymbol} (h : Picks f vl (genVlRename fnT k vl).1)
    (hk : ∀ v ∈ vl, v.vsName.idTag < k) : Freshens f vl k (genVlRename fnT k vl).2 := by
  refine ⟨le_genVlRename fnT k vl, fun v hv => ?_, fun v hv w hw heq => ?_⟩
  · obtain ⟨i, hi, hu⟩ := h v hv
    exact genVlRename_getElem fnT hi hu
  · obtain ⟨i, hi, hui⟩ := h v hv
    obtain ⟨j, hj, huj⟩ := h w hw
    exact genVlRename_inj fnT hk hi hj hui (heq ▸ huj)

theorem lookup_genVlMap {h : Mvs VSymbol} (hlen : ul.length = vl.length) (w : VSymbol) :
    (genVlMap h vl ul).lookup w = match lastIdx? w vl with
      | some j => ul[j]?
      | none => h.lookup w := by
  rw [lookup_addEach (F := genVlMap) (g := id) (fun _ => rfl) (fun _ _ _ _ _ => rfl) hlen]
  simp only [Option.map_id_fun]
  rfl

theorem picks_genVlMap (m : Mvs VSymbol) (k : Nat) (vl : List VSymbol) :
    Picks (renVar (genVlMap m vl (genVlRename fnT k vl).1)) vl (genVlRename fnT k vl).1 := by
  intro w hw
  have hlen := length_genVlRename fnT k vl
  obtain ⟨j, hj⟩ := Option.ne_none_iff_exists'.mp (mt lastIdx?_eq_none.mp (not_not.mpr hw))
  have hlt := lastIdx?_lt hj
  refine ⟨j, getElem?_lastIdx? hj, ?_⟩
  have hu := List.getElem?_eq_getElem (l := (genVlRename fnT k vl).1) (i := j) (hlen ▸ hlt)
  rw [renVar, lookup_genVlMap hlen, hj]
  simp only
  rw [hu, Option.getD_some]

theorem renVar_genVlMap (hw : w ∉ vl) :
    renVar (genVlMap m vl (genVlRename fnT k vl).1) w = renVar m w := by
  rw [renVar, lookup_genVlMap (length_genVlRename fnT k vl), lastIdx?_eq_none.mpr hw, renVar]

theorem picks_zip (m : Mvs VSymbol) (k : Nat) (vl : List VSymbol) :
    Picks (renVar (setUnion (vl.zip (genVlRename fnT k vl).1) m)) vl (genVlRename fnT k vl).1 := by
  intro w hw
  have hlen := length_genVlRename fnT k vl
  have hkeys : (vl.zip (genVlRename fnT k vl).1).map Prod.fst = vl :=
    map_fst_zip (by rw [hlen])
  have hmem : mem (vl.zip (genVlRename fnT k vl).1) w = true := by
    rw [mem_iff, hkeys]
    exact hw
  rw [renVar, lookup_setUnion]
  cases hu : (vl.zip (genVlRename fnT k vl).1).lookup w with
  | none =>
    rw [mem, hu] at hmem
    cases hmem
  | some u =>
    obtain ⟨i, hi⟩ := mem_iff_getElem?.mp (AssocList.mem_of_lookup hu)
    obtain ⟨hv, hu⟩ := getElem?_zip_eq_some.mp hi
    exact ⟨i, hv, hu⟩

theorem renVar_zip (hw : w ∉ vl) : renVar (setUnion (vl.zip ul) m) w = renVar m w := by
  rw [renVar, lookup_setUnion]
  cases hu : (vl.zip ul).lookup w with
  | none => rfl
  | some u => exact absurd (of_mem_zip (AssocList.mem_of_lookup hu)).1 hw

variable (fnL : LSymbol → LSymbol)

theorem patVars_patGenMap (m : Mvs VSymbol) (p : Pattern) :
    patVars (patGenMap fnT fnL m p) = (patVars p).map (renVar m) := by
  induction p using Pattern.induct with
  | pwild ty => rfl
  | pvar v => rfl
  | papp cs pl ty ih =>
    rw [patGenMap, patVars, patVars]
    induction pl with
    | nil => rfl
    | cons p pl ihl =>
      rw [patGenMapList, patVarsList, patVarsList, map_append,
        ih p mem_cons_self, ihl (forall_mem_cons.mp ih).2]
  | por p q hp hq => exact hp
  | pas p v hp =>
    rw [patGenMap, patVars, patVars, map_append, hp]
    rfl

end Bound

/-! Mapping a term. -/

section GenMap

variable (fnT : Ty → Ty) (fnL : LSymbol → LSymbol)

/-- Mapping a term keeps it right and renames its free symbols. -/
def GenMaps (t : STerm) : Prop :=
  Ok t → ∀ {m : Mvs VSymbol} {k : Nat} {t' : STerm} {k' : Nat}, RenOk m (force t).tFree (syms t) k →
    genMap fnT fnL m t k = .ok (t', k') →
    k ≤ k' ∧ Ok t' ∧ (force t').tFree = (force t).tFree.map (renVar m)

variable {fnT fnL}

theorem genEntries_ok {s : Mvs STerm} (ih : ∀ x ∈ s, GenMaps fnT fnL x.2) (hok : ∀ x ∈ s, Ok x.2)
    (hdist : KeyMap.Distinct s) {h h' : Mvs VSymbol} {s' : Mvs STerm}
    (hren : ∀ x ∈ s, RenOk m (force x.2).tFree (syms x.2) k) (hkeys : ∀ x ∈ s, x.1.vsName.idTag < k)
    (hgen : genEntries fnT fnL m h s k = .ok (h', s', k')) :
    Freshens (renVar h') (s.map Prod.fst) k k' ∧
      (∀ w, w ∉ s.map Prod.fst → renVar h' w = renVar h w) ∧ MapOk s' ∧
      (∀ x ∈ s, ∃ t', s'.lookup (renVar h' x.1) = some t' ∧
        (force t').tFree = (force x.2).tFree.map (renVar m)) ∧
      ∀ y ∈ s', ∃ x ∈ s, y.1 = renVar h' x.1 ∧
        (force y.2).tFree = (force x.2).tFree.map (renVar m) := by
  induction s generalizing h s' k with
  | nil =>
    cases hgen
    exact ⟨⟨Nat.le_refl _, nofun, nofun⟩, fun _ _ => rfl, ⟨nodup_nil, nofun⟩, nofun, nofun⟩
  | cons x s ihs =>
    obtain ⟨v, t⟩ := x
    rw [KeyMap.Distinct, map_cons, nodup_cons] at hdist
    obtain ⟨⟨t', k₂⟩, ht, hgen⟩ := bind_eq_ok.mp hgen
    obtain ⟨⟨h1, s1, k3⟩, hs, hgen⟩ := bind_eq_ok.mp hgen
    obtain ⟨rfl, rfl, rfl⟩ : h' = h1 ∧ s' = add (genFreshVsymbol fnT k v).1 t' s1 ∧
        k' = k3 := by
      simpa only [ok.injEq, Prod.mk.injEq] using hgen.symm
    have hle := le_genFreshVsymbol fnT k v
    have hv : v.vsName.idTag < k := hkeys (v, t) mem_cons_self
    obtain ⟨hle2, hok', hfree⟩ := ih (v, t) mem_cons_self (hok _ mem_cons_self)
      ((hren _ mem_cons_self).le hle) ht
    have hkeys' : ∀ y ∈ s, y.1.vsName.idTag < k₂ := fun y hy =>
      (hkeys y (mem_cons_of_mem _ hy)).trans_le (hle.trans hle2)
    obtain ⟨hfresh, hother, hmap, hin, hout⟩ := ihs
      (forall_mem_cons.mp ih).2
      (forall_mem_cons.mp hok).2 hdist.2
      (fun y hy => (hren y (mem_cons_of_mem _ hy)).le (hle.trans hle2)) hkeys' hs
    have hhead : renVar h' v = (genFreshVsymbol fnT k v).1 := by
      rw [hother v hdist.1, renVar_add, if_pos rfl]
    have hle3 := hfresh.le
    have hmoved : renVar h' v = v ∨
        k ≤ (renVar h' v).vsName.idTag ∧ (renVar h' v).vsName.idTag < k₂ := by
      rw [hhead]
      exact (genFreshVsymbol_moved fnT k v).imp_right fun h => ⟨h.1, h.2.trans_le hle2⟩
    -- the first symbol and a later one stay apart
    have hne : ∀ w ∈ s.map Prod.fst, renVar h' v ≠ renVar h' w := by
      intro w hw heq
      obtain ⟨y, hy, rfl⟩ := mem_map.mp hw
      have hwk := hkeys y (mem_cons_of_mem _ hy)
      have hvw := eq_of_moved hv hwk (hle.trans hle2) hmoved (heq ▸ hfresh.moved y.1 hw)
      exact hdist.1 (hvw ▸ hw)
    refine ⟨⟨by omega, ?_, ?_⟩, fun w hw => ?_, hmap.add _ hok', ?_, ?_⟩
    · exact forall_mem_cons.mpr ⟨hmoved.imp_right fun h => ⟨h.1, h.2.trans_le hle3⟩,
        fun w h => (hfresh.moved w h).imp_right fun h => ⟨by omega, h.2⟩⟩
    · intro w hw w' hw' heq
      cases mem_cons.mp hw with
      | inl h =>
        cases mem_cons.mp hw' with
        | inl h' => exact h.trans h'.symm
        | inr h' =>
          subst h
          exact absurd heq (hne w' h')
      | inr h =>
        cases mem_cons.mp hw' with
        | inl h' =>
          subst h'
          exact absurd heq.symm (hne w h)
        | inr h' => exact hfresh.inj w h w' h' heq
    · rw [map_cons, mem_cons, not_or] at hw
      rw [hother w hw.2, renVar_add, if_neg hw.1]
    · refine forall_mem_cons.mpr ⟨⟨t', by rw [lookup_add, if_pos hhead], hfree⟩, fun y h => ?_⟩
      obtain ⟨t1, ht1, hfree1⟩ := hin y h
      refine ⟨t1, ?_, hfree1⟩
      rw [lookup_add, if_neg, ht1]
      rw [← hhead]
      exact (hne y.1 (mem_map.mpr ⟨y, h, rfl⟩)).symm
    · exact forall_mem_cons.mpr ⟨⟨(v, t), mem_cons_self, hhead.symm, hfree⟩,
        fun y h => exists_mem_cons_of_exists (hout y (mem_of_mem_filter h))⟩

section Binding

variable {vl : List VSymbol} {b b' : BindInfo STerm} {es : List STerm} {m m₁ m₂ : Mvs VSymbol}
  {sy : List VSymbol} {k k₁ : Nat}

/-- The free symbols of the bodies of a renamed binding. -/
theorem bodyFree_rename {s s' : Mvs STerm} (hul : ∀ w ∈ l, (renVar m₂ w ∈ ul ↔ w ∈ vl))
    (hsubst : ∀ w ∈ l, w ∉ vl → substFree (substMap s') (renVar m₂ w) =
      (substFree (substMap s) w).map (renVar m)) :
    bodyFree ul s' (l.map (renVar m₂)) = (bodyFree vl s l).map (renVar m) := by
  rw [bodyFree, bodyFree, filter_map, flatMap_map, map_flatMap]
  have hfilter : l.filter ((fun u => decide (u ∉ ul)) ∘ renVar m₂) =
      l.filter fun w => decide (w ∉ vl) := by
    refine filter_congr fun w hw => ?_
    simp only [Function.comp_apply, hul w hw]
  rw [hfilter]
  refine flatMap_congr fun w hw => ?_
  obtain ⟨hw, hnot⟩ := mem_filter.mp hw
  exact hsubst w hw (of_decide_eq_true hnot)

/-- The binding `b'` of `ul` is that of `vl` renamed, if its bodies are mapped with `m₂`. -/
def BindRenamed (fnT : Ty → Ty) (m m₂ : Mvs VSymbol) (vl ul : List VSymbol) (b b' : BindInfo STerm)
    (es : List STerm) (k k₁ : Nat) : Prop :=
  k ≤ k₁ ∧ (∀ x ∈ b'.bvSubst, Ok x.2) ∧
    (∀ e ∈ es, RenOk m₂ (force e).tFree (syms e) (genVlRename fnT k₁ vl).2) ∧
    ∀ es' : List STerm, es'.map (fun e => (force e).tFree) =
        es.map (fun e => (force e).tFree.map (renVar m₂)) →
      BindOk ul b' es' ∧ (es'.flatMap fun e => (bodyOf ul b' e).tFree) =
        (es.flatMap fun e => (bodyOf vl b e).tFree).map (renVar m)

variable (hb : BindOk vl b es) (hs : ∀ x ∈ b.bvSubst, Ok x.2)
  (ih : ∀ x ∈ b.bvSubst, GenMaps fnT fnL x.2)
  (hren : RenOk m (es.flatMap fun e => (bodyOf vl b e).tFree)
    (vl ++ (symsBnd b ++ es.flatMap syms)) k)
  (hbnd : genBnd fnT fnL m b k = .ok (m₁, b', k₁))
include hb hs ih hren hbnd

/-- Mapping a binding, when its bodies are mapped with the renaming below it. -/
theorem genBnd_ok (ul : List VSymbol) (hpicks : Picks (renVar m₂) vl (genVlRename fnT k₁ vl).1)
    (hother : ∀ w, w ∉ vl → renVar m₂ w = renVar m₁ w)
    (hul : ∀ u ∈ ul, u ∈ (genVlRename fnT k₁ vl).1) (hmem : ∀ w ∈ vl, renVar m₂ w ∈ ul) :
    BindRenamed fnT m m₂ vl ul b b' es k k₁ := by
  have hvl := subset_append_left vl (symsBnd b ++ es.flatMap syms)
  have hsy : symsBnd b ⊆ vl ++ (symsBnd b ++ es.flatMap syms) :=
    fun w hw => mem_append_right _ (mem_append_left _ hw)
  have hes : ∀ e ∈ es, syms e ⊆ vl ++ (symsBnd b ++ es.flatMap syms) := fun e he w hw =>
    mem_append_right _ (mem_append_right _ (mem_flatMap.mpr ⟨e, he, hw⟩))
  generalize vl ++ (symsBnd b ++ es.flatMap syms) = sy at hren hvl hsy hes
  obtain ⟨vars, s⟩ := b
  obtain ⟨vars', hvars, hbnd⟩ := bind_eq_ok.mp hbnd
  obtain ⟨⟨m', s', k'⟩, hentries, hbnd⟩ := bind_eq_ok.mp hbnd
  cases hbnd
  have hsub : ∀ x ∈ s, x.1 ∈ sy ∧ syms x.2 ⊆ sy := by
    intro x hx
    rw [symsBnd_eq] at hsy
    have hmem : ∀ w ∈ x.1 :: syms x.2, w ∈ sy :=
      fun w hw => hsy (mem_flatMap.mpr ⟨x, hx, hw⟩)
    exact ⟨hmem _ mem_cons_self, (forall_mem_cons.mp hmem).2⟩
  have hrenEntry : ∀ x ∈ s, RenOk m (force x.2).tFree (syms x.2) k := fun x hx =>
    hren.mono (fun w hw => hb.counts.mem.mp (hb.entries x hx w hw)) (hsub x hx).2 (Nat.le_refl k)
  obtain ⟨hkeysFresh, hkeysOther, hmap, hin, hout⟩ := genEntries_ok ih hs hb.distinct hrenEntry
    (fun x hx => hren.symsBelow _ (hsub x hx).1) hentries
  have hfresh := hpicks.freshens fnT fun v hv =>
    (hren.symsBelow v (hvl hv)).trans_le hkeysFresh.le
  have hbelow : Below m m₁ m₂ (s.map Prod.fst) vl k k₁ (genVlRename fnT k₁ vl).2 :=
    ⟨hkeysFresh, hkeysOther, hfresh, hother⟩
  have hul := fun u hu => mem_genVlRename fnT (hul u hu)
  have hkeys : s.map Prod.fst ⊆ sy := by
    refine forall_mem_map.mpr fun x hx => ?_
    exact (hsub x hx).1
  have hnone : ∀ {w : VSymbol}, w ∉ s.map Prod.fst → s.lookup w = none := by
    intro w hw
    cases ht : s.lookup w with
    | none => rfl
    | some t => exact absurd (mem_map.mpr ⟨_, AssocList.mem_of_lookup ht, rfl⟩) hw
  -- a symbol of a body that is neither bound nor replaced is one of the binding
  have hfree : ∀ e ∈ es, ∀ w ∈ (force e).tFree, w ∉ vl → w ∉ s.map Prod.fst →
      w ∈ es.flatMap fun e => (bodyOf vl ⟨vars, s⟩ e).tFree := by
    intro e he w hw hvl hkeys
    refine mem_flatMap.mpr ⟨e, he, ?_⟩
    rw [tFree_bodyOf]
    refine mem_flatMap.mpr ⟨w, mem_filter.mpr ⟨hw, decide_eq_true hvl⟩, ?_⟩
    rw [substFree, substMap, hnone hkeys]
    exact mem_singleton.mpr rfl
  have hfreeSy : ∀ e ∈ es, (force e).tFree ⊆ sy :=
    fun e he w hw => hes e he (tFree_subset_syms e hw)
  refine ⟨hkeysFresh.le, hmap.values, fun e he => ?_, fun es' hes' => ?_⟩
  · exact (hbelow.renOk hren (hfreeSy e he) (hfree e he)).mono (List.Subset.refl _) (hes e he)
      (Nat.le_refl _)
  · have hbody : (es'.flatMap fun e => (bodyOf ul ⟨vars', s'⟩ e).tFree) =
        (es.flatMap fun e => (bodyOf vl ⟨vars, s⟩ e).tFree).map (renVar m) := by
      have hflat : (es'.flatMap fun e => (bodyOf ul ⟨vars', s'⟩ e).tFree) =
          (es'.map fun e => (force e).tFree).flatMap (bodyFree ul s') := by
        rw [flatMap_map]
        exact flatMap_congr fun e _ => tFree_bodyOf ul _ e
      rw [hflat, hes', flatMap_map, map_flatMap]
      refine flatMap_congr fun e he => ?_
      rw [tFree_bodyOf]
      refine bodyFree_rename (fun w hw => ?_) fun w hw hnot => ?_
      · exact hbelow.mem_iff hren hvl hul hmem (hfreeSy e he hw) (hfree e he w hw)
      · rw [hother w hnot]
        by_cases hkey : w ∈ s.map Prod.fst
        · obtain ⟨x, hx, rfl⟩ := mem_map.mp hkey
          obtain ⟨t', ht', hfree'⟩ := hin x hx
          rw [substFree, substMap, ht', substFree, substMap, AssocList.lookup_of_mem hb.distinct hx]
          exact hfree'
        · have hlookup : s'.lookup (renVar m₁ w) = none := by
            cases ht : s'.lookup (renVar m₁ w) with
            | none => rfl
            | some t =>
              obtain ⟨x, hx, heq, -⟩ := hout _ (AssocList.mem_of_lookup ht)
              rw [hkeysOther w hkey] at heq
              exact absurd heq.symm (hbelow.ne_keys hren hkeys (hfree e he w hw hnot hkey) hkey
                (mem_map.mpr ⟨x, hx, rfl⟩))
          rw [substFree, substMap, hlookup, substFree, substMap, hnone hkey, hkeysOther w hkey]
          rfl
    obtain ⟨hdist, hrep⟩ := genBndVars_ok hb.varsDistinct hb.counts hren.inj hvars
    refine ⟨⟨hmap.distinct, hdist, hbody ▸ hrep, fun y hy w hw => ?_⟩, hbody⟩
    obtain ⟨x, hx, -, heq⟩ := hout y hy
    rw [heq] at hw
    obtain ⟨v, hv, rfl⟩ := mem_map.mp hw
    exact hrep.mem.mpr (mem_map.mpr ⟨v, hb.counts.mem.mp (hb.entries x hx v hv), rfl⟩)

theorem genBndVl_ok : BindRenamed fnT m (genVlMap m₁ vl (genVlRename fnT k₁ vl).1) vl
    (genVlRename fnT k₁ vl).1 b b' es k k₁ := by
  have hpicks := picks_genVlMap fnT m₁ k₁ vl
  refine genBnd_ok hb hs ih hren hbnd _ hpicks (fun w hw => renVar_genVlMap fnT hw)
    (fun _ hu => hu) fun w hw => ?_
  obtain ⟨i, -, hi⟩ := hpicks w hw
  exact mem_of_getElem? hi

end Binding

theorem genMapList_ok {tl : List STerm} (ih : ∀ t ∈ tl, GenMaps fnT fnL t) (hok : ∀ t ∈ tl, Ok t)
    {tl' : List STerm} (hren : ∀ t ∈ tl, RenOk m (force t).tFree (syms t) k)
    (h : genMapList fnT fnL m tl k = .ok (tl', k')) :
    k ≤ k' ∧ (∀ t ∈ tl', Ok t) ∧ tl'.map (fun t => (force t).tFree) =
      tl.map fun t => (force t).tFree.map (renVar m) := by
  induction tl generalizing k tl' with
  | nil =>
    cases h
    exact ⟨Nat.le_refl _, nofun, rfl⟩
  | cons t tl ihl =>
    obtain ⟨⟨t1, k₁⟩, ht, h⟩ := bind_eq_ok.mp h
    obtain ⟨⟨tl1, k₂⟩, htl, h⟩ := bind_eq_ok.mp h
    cases h
    obtain ⟨hle, hok1, hfree⟩ := ih t mem_cons_self (hok t mem_cons_self)
      (hren t mem_cons_self) ht
    obtain ⟨hle', hok', hfree'⟩ := ihl (forall_mem_cons.mp ih).2
      (forall_mem_cons.mp hok).2
      (fun u hu => (hren u (mem_cons_of_mem _ hu)).le hle) htl
    exact ⟨hle.trans hle', forall_mem_cons.mpr ⟨hok1, hok'⟩, by
      rw [map_cons, map_cons, hfree, hfree']⟩

theorem genMapTrigger_ok {tr : List (List STerm)} (ih : ∀ l ∈ tr, ∀ t ∈ l, GenMaps fnT fnL t)
    (hok : ∀ l ∈ tr, ∀ t ∈ l, Ok t) {tr' : List (List STerm)}
    (hren : ∀ l ∈ tr, ∀ t ∈ l, RenOk m (force t).tFree (syms t) k)
    (h : genMapTrigger fnT fnL m tr k = .ok (tr', k')) :
    k ≤ k' ∧ (∀ l ∈ tr', ∀ t ∈ l, Ok t) ∧ tr'.flatten.map (fun t => (force t).tFree) =
      tr.flatten.map fun t => (force t).tFree.map (renVar m) := by
  induction tr generalizing k tr' with
  | nil =>
    cases h
    exact ⟨Nat.le_refl _, nofun, rfl⟩
  | cons l tr ihl =>
    obtain ⟨⟨l1, k₁⟩, hl, h⟩ := bind_eq_ok.mp h
    obtain ⟨⟨tr1, k₂⟩, htr, h⟩ := bind_eq_ok.mp h
    cases h
    obtain ⟨hle, hok1, hfree⟩ := genMapList_ok (ih l mem_cons_self)
      (hok l mem_cons_self) (hren l mem_cons_self) hl
    obtain ⟨hle', hok', hfree'⟩ := ihl (forall_mem_cons.mp ih).2
      (forall_mem_cons.mp hok).2
      (fun l hl t ht => (hren l (mem_cons_of_mem _ hl) t ht).le hle) htr
    exact ⟨hle.trans hle', forall_mem_cons.mpr ⟨hok1, hok'⟩, by
      rw [flatten_cons, flatten_cons, map_append, map_append, hfree, hfree']⟩

theorem genMapBranches_ok {bl : List TermBranch} (hb : ∀ x ∈ bl, BindOk (patVars x.1) x.2.1 [x.2.2])
    (hs : ∀ x ∈ bl, ∀ y ∈ x.2.1.bvSubst, Ok y.2) (he : ∀ x ∈ bl, Ok x.2.2)
    (ihs : ∀ x ∈ bl, ∀ y ∈ x.2.1.bvSubst, GenMaps fnT fnL y.2)
    (ihe : ∀ x ∈ bl, GenMaps fnT fnL x.2.2) {bl' : List TermBranch}
    (hren : ∀ x ∈ bl, RenOk m (bodyOf (patVars x.1) x.2.1 x.2.2).tFree
      (patVars x.1 ++ (symsBnd x.2.1 ++ syms x.2.2)) k)
    (h : genMapBranches fnT fnL m bl k = .ok (bl', k')) :
    k ≤ k' ∧ (∀ x ∈ bl', BindOk (patVars x.1) x.2.1 [x.2.2]) ∧
      (∀ x ∈ bl', ∀ y ∈ x.2.1.bvSubst, Ok y.2) ∧ (∀ x ∈ bl', Ok x.2.2) ∧
      (bl'.flatMap fun x => (bodyOf (patVars x.1) x.2.1 x.2.2).tFree) =
        (bl.flatMap fun x => (bodyOf (patVars x.1) x.2.1 x.2.2).tFree).map (renVar m) := by
  induction bl generalizing k bl' k' with
  | nil =>
    cases h
    exact ⟨Nat.le_refl _, nofun, nofun, nofun, rfl⟩
  | cons x bl ih =>
    obtain ⟨p, b, e⟩ := x
    obtain ⟨⟨m₁, b', k₁⟩, hbnd, h⟩ := bind_eq_ok.mp h
    obtain ⟨⟨e', k₂⟩, hbody, h⟩ := bind_eq_ok.mp h
    obtain ⟨⟨bl1, k3⟩, hbl, h⟩ := bind_eq_ok.mp h
    have hren1 := hren (p, b, e) mem_cons_self
    have hpicks := picks_zip fnT m₁ k₁ (patVars p)
    have hvars := patVars_patGenMap fnT fnL ((patVars p).zip (genVlRename fnT k₁ (patVars p)).1) p
    -- in the pattern and in the body a variable is renamed to the same symbol
    have hsame : ∀ w ∈ patVars p,
        renVar (setUnion ((patVars p).zip (genVlRename fnT k₁ (patVars p)).1) m₁) w =
          renVar ((patVars p).zip (genVlRename fnT k₁ (patVars p)).1) w := by
      intro w hw
      have hmem : mem ((patVars p).zip (genVlRename fnT k₁ (patVars p)).1) w = true := by
        rw [mem_iff, map_fst_zip (by rw [length_genVlRename])]
        exact hw
      rw [renVar, renVar, lookup_setUnion]
      rw [Option.or_of_isSome hmem]
    obtain ⟨hle1, hs', hrene, hbind⟩ := genBnd_ok
      (hb (p, b, e) mem_cons_self) (hs (p, b, e) mem_cons_self)
      (ihs (p, b, e) mem_cons_self)
      (by rw [flatMap_singleton, flatMap_singleton]; exact hren1) hbnd
      (patVars (patGenMap fnT fnL ((patVars p).zip (genVlRename fnT k₁ (patVars p)).1) p)) hpicks
      (fun w hw => renVar_zip hw)
      (fun u hu => by
        rw [hvars] at hu
        obtain ⟨w, hw, rfl⟩ := mem_map.mp hu
        obtain ⟨i, -, hi⟩ := hpicks w hw
        rw [← hsame w hw]
        exact mem_of_getElem? hi)
      (fun w hw => by
        rw [hvars, hsame w hw]
        exact mem_map.mpr ⟨w, hw, rfl⟩)
    obtain ⟨hle2, hok, hfree⟩ := ihe (p, b, e) mem_cons_self (he _ mem_cons_self)
      (hrene e (mem_singleton.mpr rfl)) hbody
    have hle3 := le_genVlRename fnT k₁ (patVars p)
    obtain ⟨hle4, hb', hs'', he', hfree'⟩ := ih
      (forall_mem_cons.mp hb).2
      (forall_mem_cons.mp hs).2
      (forall_mem_cons.mp he).2
      (forall_mem_cons.mp ihs).2
      (forall_mem_cons.mp ihe).2
      (fun x hx => (hren x (mem_cons_of_mem _ hx)).le (hle1.trans (hle3.trans hle2))) hbl
    obtain ⟨hbind, hbodies⟩ := hbind [e'] (by rw [map_singleton, map_singleton, hfree])
    rw [flatMap_singleton, flatMap_singleton] at hbodies
    cases h
    refine ⟨hle1.trans (hle3.trans (hle2.trans hle4)), forall_mem_cons.mpr ⟨hbind, hb'⟩,
      forall_mem_cons.mpr ⟨hs', hs''⟩, forall_mem_cons.mpr ⟨hok, he'⟩, ?_⟩
    rw [flatMap_cons, flatMap_cons, map_append, hfree', hbodies]

/-- Mapping keeps right terms right and renames their free symbols. -/
theorem genMaps (t : STerm) : GenMaps fnT fnL t := by
  intro hok
  induction hok with
  | tvar a v =>
    intro m k t' k' _ h
    rw [genMap] at h
    split at h
    · cases h
      exact ⟨Nat.le_refl _, .tvar _ _, rfl⟩
    · cases h
  | tconst | ttrue | tfalse =>
    intro m k t' k' _ h
    cases h
    exact ⟨Nat.le_refl _, by constructor, rfl⟩
  | tapp hok ih =>
    intro m k t' k' hren h
    obtain ⟨⟨tl', k₁⟩, htl, h⟩ := bind_eq_ok.mp h
    cases h
    rw [tFree_force_tapp, syms, symsList_eq] at hren
    obtain ⟨hle, hok', hfree⟩ := genMapList_ok (fun t ht _ => ih t ht) hok
      (fun t ht => hren.mono (fun w hw => mem_flatMap.mpr ⟨t, ht, hw⟩)
        (fun w hw => mem_flatMap.mpr ⟨t, ht, hw⟩) (Nat.le_refl k)) htl
    refine ⟨hle, .tapp hok', ?_⟩
    rw [tFree_force_tapp, tFree_force_tapp, map_flatMap, flatMap_def, hfree, flatMap_def]
  | tif _ _ _ hf ht he =>
    intro m k t' k' hren h
    obtain ⟨⟨f', k₁⟩, hf', h⟩ := bind_eq_ok.mp h
    obtain ⟨⟨t1, k₂⟩, ht', h⟩ := bind_eq_ok.mp h
    obtain ⟨⟨e', k3⟩, he', h⟩ := bind_eq_ok.mp h
    cases h
    obtain ⟨hle1, hf1, hf2⟩ := hf (hren.mono
      (fun w hw => mem_append_left _ (mem_append_left _ hw))
      (subset_append_left _ _) (Nat.le_refl k)) hf'
    obtain ⟨hle2, ht1, ht2⟩ := ht (hren.mono
      (fun w hw => mem_append_left _ (mem_append_right _ hw))
      (fun w hw => mem_append_right _ (mem_append_left _ hw)) hle1) ht'
    obtain ⟨hle3, he1, he2⟩ := he (hren.mono (subset_append_right _ _)
      (fun w hw => mem_append_right _ (mem_append_right _ hw)) (hle1.trans hle2)) he'
    refine ⟨hle1.trans (hle2.trans hle3), .tif hf1 ht1 he1, ?_⟩
    simp only [force, tFree, map_append, hf2, ht2, he2]
  | @tlet a t v b e _ hbind hs _ ht hb he =>
    intro m k t' k' hren h
    obtain ⟨⟨m₁, b', k₁⟩, hbnd, h⟩ := bind_eq_ok.mp h
    obtain ⟨⟨t1, k₂⟩, ht', h⟩ := bind_eq_ok.mp h
    obtain ⟨⟨e', k3⟩, he', h⟩ := bind_eq_ok.mp h
    obtain ⟨hle1, hs', hrene, hbind'⟩ := genBndVl_ok hbind hs (fun x hx _ => hb x hx)
      (by
        rw [flatMap_singleton, flatMap_singleton]
        exact hren.mono (subset_append_right _ _) (subset_append_right _ _)
          (Nat.le_refl k)) hbnd
    have hle2 := le_genFreshVsymbol fnT k₁ v
    obtain ⟨hle3, ht1, ht2⟩ := ht (hren.mono (subset_append_left _ _)
      (subset_append_left _ _) (hle1.trans hle2)) ht'
    obtain ⟨hle4, he1, he2⟩ := he ((hrene e (mem_singleton.mpr rfl)).le hle3) he'
    obtain ⟨hbind', hbody⟩ := hbind' [e'] (by
      rw [map_singleton, map_singleton, he2])
    rw [flatMap_singleton, flatMap_singleton] at hbody
    cases h
    refine ⟨hle1.trans (hle2.trans (hle3.trans hle4)), .tlet ht1 hbind' hs' he1, ?_⟩
    change (force t1).tFree ++ (bodyOf _ b' e').tFree =
      List.map (renVar m) ((force t).tFree ++ (bodyOf [v] b e).tFree)
    rw [map_append, ht2, ← hbody]
    rfl
  | tcase _ hbind hs hok ht hb he =>
    intro m k t' k' hren h
    obtain ⟨⟨t1, k₁⟩, ht', h⟩ := bind_eq_ok.mp h
    obtain ⟨⟨bl', k₂⟩, hbl', h⟩ := bind_eq_ok.mp h
    cases h
    rw [tFree_force_tcase, syms, symsBranches_eq] at hren
    obtain ⟨hle1, ht1, ht2⟩ := ht (hren.mono (subset_append_left _ _)
      (subset_append_left _ _) (Nat.le_refl k)) ht'
    obtain ⟨hle2, hbind', hs', hok', hfree⟩ := genMapBranches_ok hbind hs hok
      (fun x hx y hy _ => hb x hx y hy) (fun x hx _ => he x hx)
      (fun x hx => hren.mono
        (fun w hw => mem_append_right _ (mem_flatMap.mpr ⟨x, hx, hw⟩))
        (fun w hw => mem_append_right _ (mem_flatMap.mpr ⟨x, hx, hw⟩)) hle1) hbl'
    refine ⟨hle1.trans hle2, .tcase ht1 hbind' hs' hok', ?_⟩
    rw [tFree_force_tcase, tFree_force_tcase, map_append, ht2, hfree]
  | @teps a v b f hbind hs _ hb hf =>
    intro m k t' k' hren h
    obtain ⟨⟨m₁, b', k₁⟩, hbnd, h⟩ := bind_eq_ok.mp h
    obtain ⟨⟨f', k₂⟩, hf', h⟩ := bind_eq_ok.mp h
    obtain ⟨hle1, hs', hrene, hbind'⟩ := genBndVl_ok hbind hs (fun x hx _ => hb x hx)
      (by
        rw [flatMap_singleton, flatMap_singleton]
        exact hren) hbnd
    have hle2 := le_genFreshVsymbol fnT k₁ v
    obtain ⟨hle3, hf1, hf2⟩ := hf (hrene f (mem_singleton.mpr rfl)) hf'
    obtain ⟨hbind', hbody⟩ := hbind' [f'] (by
      rw [map_singleton, map_singleton, hf2])
    rw [flatMap_singleton, flatMap_singleton] at hbody
    cases h
    exact ⟨hle1.trans (hle2.trans hle3), .teps hbind' hs' hf1, hbody⟩
  | @tquant a q vl b tr f hbind hs hok _ hb htr hf =>
    intro m k t' k' hren h
    obtain ⟨⟨m₁, b', k₁⟩, hbnd, h⟩ := bind_eq_ok.mp h
    obtain ⟨⟨tr', k₂⟩, htr', h⟩ := bind_eq_ok.mp h
    obtain ⟨⟨f', k3⟩, hf', h⟩ := bind_eq_ok.mp h
    cases h
    rw [tFree_force_tquant, syms, symsTrigger_eq] at hren
    obtain ⟨hle1, hs', hrene, hbind'⟩ := genBndVl_ok hbind hs (fun x hx _ => hb x hx) hren hbnd
    have hle2 := le_genVlRename fnT k₁ vl
    obtain ⟨hle3, htr1, htr2⟩ := genMapTrigger_ok (fun l hl t ht _ => htr l hl t ht) hok
      (fun l hl t ht => hrene t (mem_cons_of_mem _ (mem_flatten.mpr ⟨l, hl, ht⟩))) htr'
    obtain ⟨hle4, hf1, hf2⟩ := hf ((hrene f mem_cons_self).le hle3) hf'
    obtain ⟨hbind', hbody⟩ := hbind' (f' :: tr'.flatten) (by
      rw [map_cons, map_cons, hf2, htr2])
    refine ⟨hle1.trans (hle2.trans (hle3.trans hle4)), .tquant hbind' hs' htr1 hf1, ?_⟩
    rw [tFree_force_tquant, tFree_force_tquant, hbody]
  | tbinop _ _ hf hg =>
    intro m k t' k' hren h
    obtain ⟨⟨f', k₁⟩, hf', h⟩ := bind_eq_ok.mp h
    obtain ⟨⟨g', k₂⟩, hg', h⟩ := bind_eq_ok.mp h
    cases h
    obtain ⟨hle1, hf1, hf2⟩ := hf (hren.mono (subset_append_left _ _)
      (subset_append_left _ _) (Nat.le_refl k)) hf'
    obtain ⟨hle2, hg1, hg2⟩ := hg (hren.mono (subset_append_right _ _)
      (subset_append_right _ _) hle1) hg'
    refine ⟨hle1.trans hle2, .tbinop hf1 hg1, ?_⟩
    simp only [force, tFree, map_append, hf2, hg2]
  | tnot _ hf =>
    intro m k t' k' hren h
    obtain ⟨⟨f', k₁⟩, hf', h⟩ := bind_eq_ok.mp h
    cases h
    obtain ⟨hle, hf1, hf2⟩ := hf hren hf'
    exact ⟨hle, .tnot hf1, hf2⟩

end GenMap

end Stored
end Why3
