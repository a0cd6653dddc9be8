import Why3.Core.Term

/-!
The traversal of terms: how two traversals compose, and what they do to the scope and to the
free symbols of a term.
-/
namespace Why3

open List

namespace Term

/-! Scope: every index refers to one of `n` bindings around the term. -/

mutual
def Scoped : Nat → Term → Prop
  | _, tvar _ _ | _, tconst _ _ _ | _, ttrue _ | _, tfalse _ => True
  | n, bvar _ i _ => i < n
  | n, tapp _ _ tl _ => ScopedList n tl
  | n, tif _ f t e => Scoped n f ∧ Scoped n t ∧ Scoped n e
  | n, tlet _ t _ e => Scoped n t ∧ Scoped (n + 1) e
  | n, tcase _ t bl => Scoped n t ∧ ScopedBranches n bl
  | n, teps _ _ f => Scoped (n + 1) f
  | n, tquant _ _ vl tr f => ScopedTrigger (n + vl.length) tr ∧ Scoped (n + vl.length) f
  | n, tbinop _ _ f g => Scoped n f ∧ Scoped n g
  | n, tnot _ f => Scoped n f
def ScopedList : Nat → List Term → Prop
  | _, [] => True
  | n, t :: tl => Scoped n t ∧ ScopedList n tl
def ScopedBranches : Nat → List (Pattern × Term) → Prop
  | _, [] => True
  | n, (p, e) :: bl => Scoped (n + (patVars p).length) e ∧ ScopedBranches n bl
def ScopedTrigger : Nat → List (List Term) → Prop
  | _, [] => True
  | n, l :: tr => ScopedList n l ∧ ScopedTrigger n tr
end

variable {n : Nat}

@[simp] theorem scopedList_iff {tl : List Term} : ScopedList n tl ↔ ∀ t ∈ tl, Scoped n t := by
  induction tl with
  | nil => simp [ScopedList]
  | cons t tl ih => simp [ScopedList, ih]

@[simp] theorem scopedBranches_iff {bl : List (Pattern × Term)} :
    ScopedBranches n bl ↔ ∀ b ∈ bl, Scoped (n + (patVars b.1).length) b.2 := by
  induction bl with
  | nil => simp [ScopedBranches]
  | cons b bl ih => simp [ScopedBranches, ih]

@[simp] theorem scopedTrigger_iff {tr : List (List Term)} :
    ScopedTrigger n tr ↔ ∀ l ∈ tr, ∀ t ∈ l, Scoped n t := by
  induction tr with
  | nil => simp [ScopedTrigger]
  | cons l tr ih => simp [ScopedTrigger, ih]

theorem Scoped.mono {t : Term} : ∀ {n m : Nat}, Scoped n t → n ≤ m → Scoped m t := by
  induction t using Term.induct with
  | bvar a i ty => exact fun h hle => Nat.lt_of_lt_of_le h hle
  | tapp a ls tl ty ih =>
    intro n m h hle
    rw [Scoped, scopedList_iff] at h ⊢
    exact fun t ht => ih t ht (h t ht) hle
  | tif a f t e hf ht he => exact fun h hle => ⟨hf h.1 hle, ht h.2.1 hle, he h.2.2 hle⟩
  | tlet a t v e ht he => exact fun h hle => ⟨ht h.1 hle, he h.2 (by omega)⟩
  | tcase a t bl ht hbl =>
    intro n m h hle
    rw [Scoped, scopedBranches_iff] at h ⊢
    exact ⟨ht h.1 hle, fun b hb => hbl b hb (h.2 b hb) (by omega)⟩
  | teps a v f hf => exact fun h hle => hf (n := _ + 1) h (by omega)
  | tquant a q vl tr f htr hf =>
    intro n m h hle
    rw [Scoped, scopedTrigger_iff] at h ⊢
    exact ⟨fun l hl t ht => htr l hl t ht (h.1 l hl t ht) (by omega), hf h.2 (by omega)⟩
  | tbinop a op f g hf hg => exact fun h hle => ⟨hf h.1 hle, hg h.2 hle⟩
  | tnot a f hf => exact fun h hle => hf (n := _) h hle
  | _ => exact fun _ _ => trivial

/-! Free symbols, one for each occurrence. -/

mutual
def tFree : Term → List VSymbol
  | tvar _ v => [v]
  | bvar _ _ _ | tconst _ _ _ | ttrue _ | tfalse _ => []
  | tapp _ _ tl _ => tFreeList tl
  | tif _ f t e => tFree f ++ tFree t ++ tFree e
  | tlet _ t _ e => tFree t ++ tFree e
  | tcase _ t bl => tFree t ++ tFreeBranches bl
  | teps _ _ f => tFree f
  | tquant _ _ _ tr f => tFree f ++ tFreeTrigger tr
  | tbinop _ _ f g => tFree f ++ tFree g
  | tnot _ f => tFree f
def tFreeList : List Term → List VSymbol
  | [] => []
  | t :: tl => tFree t ++ tFreeList tl
def tFreeBranches : List (Pattern × Term) → List VSymbol
  | [] => []
  | (_, e) :: bl => tFree e ++ tFreeBranches bl
def tFreeTrigger : List (List Term) → List VSymbol
  | [] => []
  | l :: tr => tFreeList l ++ tFreeTrigger tr
end

@[simp] theorem tFreeList_eq (tl : List Term) : tFreeList tl = tl.flatMap tFree :=
  ListRec.eq_flatMap rfl (fun _ _ => rfl) tl

@[simp] theorem tFreeBranches_eq (bl : List (Pattern × Term)) :
    tFreeBranches bl = bl.flatMap fun b => tFree b.2 :=
  ListRec.eq_flatMap rfl (fun _ _ => rfl) bl

@[simp] theorem tFreeTrigger_eq (tr : List (List Term)) :
    tFreeTrigger tr = tr.flatMap fun l => l.flatMap tFree :=
  ListRec.eq_flatMap rfl (fun _ _ => by simp [tFreeTrigger]) tr

/-! Relations that the nodes keep. -/

/-- A relation between terms under `k` binders that the nodes of terms keep. -/
structure Congruent (R : Nat → Term → Term → Prop) : Prop where
  tconst : ∀ k a c ty, R k (.tconst a c ty) (.tconst a c ty)
  tapp : ∀ {k tl} {g : Term → Term} a ls ty, (∀ t ∈ tl, R k (g t) t) →
    R k (.tapp a ls (tl.map g) ty) (.tapp a ls tl ty)
  tif : ∀ {k f f' t t' e e'} a, R k f f' → R k t t' → R k e e' →
    R k (.tif a f t e) (.tif a f' t' e')
  tlet : ∀ {k t t' e e'} a v, R k t t' → R (k + 1) e e' → R k (.tlet a t v e) (.tlet a t' v e')
  tcase : ∀ {k t t' bl} {g : Pattern × Term → Term} a, R k t t' →
    (∀ b ∈ bl, R (k + (patVars b.1).length) (g b) b.2) →
    R k (.tcase a t (bl.map fun b => (b.1, g b))) (.tcase a t' bl)
  teps : ∀ {k f f'} a v, R (k + 1) f f' → R k (.teps a v f) (.teps a v f')
  tquant : ∀ {k vl tr f f'} {g : Term → Term} a q, (∀ l ∈ tr, ∀ t ∈ l, R (k + vl.length) (g t) t) →
    R (k + vl.length) f f' → R k (.tquant a q vl (tr.map (List.map g)) f) (.tquant a q vl tr f')
  tbinop : ∀ {k f f' g g'} a op, R k f f' → R k g g' → R k (.tbinop a op f g) (.tbinop a op f' g')
  tnot : ∀ {k f f'} a, R k f f' → R k (.tnot a f) (.tnot a f')
  ttrue : ∀ k a, R k (.ttrue a) (.ttrue a)
  tfalse : ∀ k a, R k (.tfalse a) (.tfalse a)

section Traversal

variable {R : Nat → Term → Term → Prop} {fv fv2 fv3 : Nat → Attrs → VSymbol → Term}
  {bv bv2 bv3 : Nat → Attrs → Nat → Ty → Term}

/-- A term is related to its traversal if its symbols and its indices are. Where the term is
known to be in scope, only the indices in scope count. -/
theorem Congruent.mapVars {P : Prop} (hR : Congruent R) (t : Term) :
    ∀ k, (P → Scoped (k + n) t) → (∀ j a, ∀ v ∈ tFree t, R j (fv j a v) (tvar a v)) →
    (∀ j a i ty, (P → i < j + n) → R j (bv j a i ty) (bvar a i ty)) →
    R k (t.mapVars fv bv k) t := by
  induction t using Term.induct with
  | tvar a v => exact fun k _ hfv _ => hfv k a v (mem_singleton.mpr rfl)
  | bvar a i ty => exact fun k h _ hbv => hbv k a i ty h
  | tconst a c ty => exact fun k _ _ _ => hR.tconst k a c ty
  | tapp a ls tl ty ih =>
    intro k h hfv hbv
    simp only [Scoped, scopedList_iff, tFree, tFreeList_eq, mem_flatMap] at h hfv
    rw [Term.mapVars, mapVarsList_eq_map]
    exact hR.tapp a ls ty fun t ht =>
      ih t ht k (fun hi => h hi t ht) (fun j a v hv => hfv j a v ⟨t, ht, hv⟩) hbv
  | tif a f t e hf ht he =>
    intro k h hfv hbv
    simp only [tFree, mem_append] at hfv
    exact hR.tif a (hf k (fun hi => (h hi).1) (fun j a v hv => hfv j a v (.inl (.inl hv))) hbv)
      (ht k (fun hi => (h hi).2.1) (fun j a v hv => hfv j a v (.inl (.inr hv))) hbv)
      (he k (fun hi => (h hi).2.2) (fun j a v hv => hfv j a v (.inr hv)) hbv)
  | tlet a t v e ht he =>
    intro k h hfv hbv
    simp only [tFree, mem_append] at hfv
    refine hR.tlet a v (ht k (fun hi => (h hi).1) (fun j a v hv => hfv j a v (.inl hv)) hbv)
      (he _ (fun hi => ?_) (fun j a v hv => hfv j a v (.inr hv)) hbv)
    exact Nat.add_right_comm k n 1 ▸ (h hi).2
  | tcase a t bl ht hbl =>
    intro k h hfv hbv
    simp only [Scoped, scopedBranches_iff, tFree, tFreeBranches_eq, mem_append,
      mem_flatMap] at h hfv
    rw [Term.mapVars, mapVarsBranches_eq_map]
    refine hR.tcase a (ht k (fun hi => (h hi).1) (fun j a v hv => hfv j a v (.inl hv)) hbv)
      fun b hb => hbl b hb _ (fun hi => ?_) (fun j a v hv => hfv j a v (.inr ⟨b, hb, hv⟩)) hbv
    rw [Nat.add_right_comm]
    exact (h hi).2 b hb
  | teps a v f hf =>
    intro k h hfv hbv
    exact hR.teps a v (hf _ (fun hi => Nat.add_right_comm k n 1 ▸ h hi) hfv hbv)
  | tquant a q vl tr f htr hf =>
    intro k h hfv hbv
    simp only [Scoped, scopedTrigger_iff, tFree, tFreeTrigger_eq, mem_append, mem_flatMap] at h hfv
    rw [Term.mapVars, mapVarsTrigger_eq_map]
    refine hR.tquant a q (fun l hl t ht => htr l hl t ht _ (fun hi => ?_)
      (fun j a v hv => hfv j a v (.inr ⟨l, hl, t, ht, hv⟩)) hbv)
      (hf _ (fun hi => ?_) (fun j a v hv => hfv j a v (.inl hv)) hbv)
    · rw [Nat.add_right_comm]
      exact (h hi).1 l hl t ht
    · rw [Nat.add_right_comm]
      exact (h hi).2
  | tbinop a op f g hf hg =>
    intro k h hfv hbv
    simp only [tFree, mem_append] at hfv
    exact hR.tbinop a op (hf k (fun hi => (h hi).1) (fun j a v hv => hfv j a v (.inl hv)) hbv)
      (hg k (fun hi => (h hi).2) (fun j a v hv => hfv j a v (.inr hv)) hbv)
  | tnot a f hf => exact fun k h hfv hbv => hR.tnot a (hf k h hfv hbv)
  | ttrue a => exact fun k _ _ _ => hR.ttrue k a
  | tfalse a => exact fun k _ _ _ => hR.tfalse k a

/-- Where no index is looked at. -/
theorem Congruent.mapVars_all (hR : Congruent R) (t : Term) (k : Nat)
    (hfv : ∀ j a, ∀ v ∈ tFree t, R j (fv j a v) (tvar a v))
    (hbv : ∀ j a i ty, R j (bv j a i ty) (bvar a i ty)) : R k (t.mapVars fv bv k) t :=
  hR.mapVars (n := 0) (P := False) t k False.elim hfv fun j a i ty _ => hbv j a i ty

theorem Congruent.mapVars_scoped (hR : Congruent R) (t : Term) (k : Nat) (h : Scoped (k + n) t)
    (hfv : ∀ j a, ∀ v ∈ tFree t, R j (fv j a v) (tvar a v))
    (hbv : ∀ j a i ty, i < j + n → R j (bv j a i ty) (bvar a i ty)) : R k (t.mapVars fv bv k) t :=
  hR.mapVars t k (fun _ => h) hfv fun j a i ty hi => hbv j a i ty (hi trivial)

/-! Composition. -/

theorem congruent_eq : Congruent fun _ s t => s = t where
  tconst _ _ _ _ := rfl
  tapp a ls ty h := by rw [map_congr_left h, map_id']
  tif a hf ht he := by rw [hf, ht, he]
  tlet a v ht he := by rw [ht, he]
  tcase {k t t' bl g} a ht hbl := by
    have hmap : bl.map (fun b => (b.1, g b)) = bl.map id :=
      map_congr_left fun b hb => Prod.ext rfl (hbl b hb)
    rw [ht, hmap, map_id]
  teps a v hf := by rw [hf]
  tquant {k vl tr f f' g} a q htr hf := by
    have hmap : tr.map (List.map g) = tr.map id := map_congr_left fun l hl =>
      (map_congr_left (htr l hl)).trans (map_id' l)
    rw [hf, hmap, map_id]
  tbinop a op hf hg := by rw [hf, hg]
  tnot a hf := by rw [hf]
  ttrue _ _ := rfl
  tfalse _ _ := rfl

theorem mapVars_id (t : Term) (k : Nat) :
    mapVars (fun _ a v => tvar a v) (fun _ a i ty => bvar a i ty) k t = t :=
  congruent_eq.mapVars_all t k (fun _ _ _ _ => rfl) fun _ _ _ _ => rfl

/-- Two traversals, the second of which starts under `d` more binders. -/
theorem congruent_mapVars (d : Nat) : Congruent fun k s t =>
    mapVars fv2 bv2 k s = mapVars fv3 bv3 (k + d) t where
  tconst _ _ _ _ := rfl
  tapp a ls ty h := by
    simp only [mapVars, mapVarsList_eq_map, map_map]
    exact congrArg (tapp a ls · ty) (map_congr_left h)
  tif a hf ht he := by rw [mapVars, mapVars, hf, ht, he]
  tlet a v ht he := by rw [mapVars, mapVars, ht, he, Nat.add_right_comm]
  tcase {k t t' bl g} a ht hbl := by
    simp only [mapVars, mapVarsBranches_eq_map, map_map, ht]
    refine congrArg (tcase a _) (map_congr_left fun b hb => Prod.ext rfl ?_)
    rw [Nat.add_right_comm]
    exact hbl b hb
  teps a v hf := by rw [mapVars, mapVars, hf, Nat.add_right_comm]
  tquant a q htr hf := by
    simp only [mapVars, mapVarsTrigger_eq_map, map_map, hf]
    rw [Nat.add_right_comm]
    refine congrArg (tquant a q _ · _) (map_congr_left fun l hl => ?_)
    rw [Function.comp_apply, map_map, Nat.add_right_comm]
    exact map_congr_left (htr l hl)
  tbinop a op hf hg := by rw [mapVars, mapVars, hf, hg]
  tnot a hf := by rw [mapVars, mapVars, hf]
  ttrue _ _ := rfl
  tfalse _ _ := rfl

/-- Two traversals of a term, on whose symbols and indices they compose. -/
theorem mapVars_mapVars (t : Term) (k : Nat) (h : Scoped (k + n) t)
    (hfv : ∀ j a, ∀ v ∈ tFree t, mapVars fv2 bv2 j (fv j a v) = fv3 j a v)
    (hbv : ∀ j a i ty, i < j + n → mapVars fv2 bv2 j (bv j a i ty) = bv3 j a i ty) :
    mapVars fv2 bv2 k (mapVars fv bv k t) = mapVars fv3 bv3 k t :=
  (congruent_mapVars 0).mapVars_scoped t k h hfv hbv

theorem mapVars_congr {k : Nat} {t : Term} (h : Scoped (k + n) t)
    (hfv : ∀ j a, ∀ v ∈ tFree t, fv j a v = fv2 j a v)
    (hbv : ∀ j a i ty, i < j + n → bv j a i ty = bv2 j a i ty) :
    mapVars fv bv k t = mapVars fv2 bv2 k t := by
  rw [← mapVars_id (mapVars fv bv k t) k]
  refine mapVars_mapVars t k h (fun j a v hv => ?_) fun j a i ty hi => ?_
  · rw [mapVars_id, hfv j a v hv]
  · rw [mapVars_id, hbv j a i ty hi]

/-- A traversal that starts under `d` more binders. -/
theorem mapVars_add (fv : Nat → Attrs → VSymbol → Term) (bv : Nat → Attrs → Nat → Ty → Term)
    (d : Nat) (t : Term) (k : Nat) : mapVars (fun j => fv (j + d)) (fun j => bv (j + d)) k t =
      mapVars fv bv (k + d) t := by
  rw [← mapVars_id (mapVars (fun j => fv (j + d)) (fun j => bv (j + d)) k t) k]
  refine (congruent_mapVars d).mapVars_all t k (fun j a v _ => ?_) fun j a i ty => ?_
  · rw [mapVars_id, mapVars]
  · rw [mapVars_id, mapVars]

/-! Scope and free symbols of the result. -/

theorem congruent_scoped (m : Nat) : Congruent fun k s _ => Scoped (k + m) s where
  tconst _ _ _ _ := trivial
  tapp a ls ty h := by
    simp only [Scoped, scopedList_iff, mem_map]
    rintro _ ⟨t, ht, rfl⟩
    exact h t ht
  tif a hf ht he := ⟨hf, ht, he⟩
  tlet {k t t' e e'} a v ht he := ⟨ht, Nat.add_right_comm k 1 m ▸ he⟩
  tcase a ht hbl := by
    simp only [Scoped, scopedBranches_iff, mem_map]
    refine ⟨ht, ?_⟩
    rintro _ ⟨b, hb, rfl⟩
    rw [Nat.add_right_comm]
    exact hbl b hb
  teps {k f f'} a v hf := by
    rw [Nat.add_right_comm] at hf
    exact hf
  tquant a q htr hf := by
    simp only [Scoped, scopedTrigger_iff, mem_map]
    rw [Nat.add_right_comm]
    refine ⟨?_, hf⟩
    rintro _ ⟨l, hl, rfl⟩ _ hmem
    obtain ⟨t, ht, rfl⟩ := mem_map.mp hmem
    exact htr l hl t ht
  tbinop a op hf hg := ⟨hf, hg⟩
  tnot a hf := hf
  ttrue _ _ := trivial
  tfalse _ _ := trivial

theorem scoped_mapVars {m : Nat} (t : Term) (k : Nat) (h : Scoped (k + n) t)
    (hfv : ∀ j a, ∀ v ∈ tFree t, Scoped (j + m) (fv j a v))
    (hbv : ∀ j a i ty, i < j + n → Scoped (j + m) (bv j a i ty)) :
    Scoped (k + m) (mapVars fv bv k t) :=
  (congruent_scoped m).mapVars_scoped t k h hfv hbv

theorem congruent_tFree (g : VSymbol → List VSymbol) :
    Congruent fun _ s t => tFree s = (tFree t).flatMap g where
  tconst _ _ _ _ := rfl
  tapp a ls ty h := by
    simp only [tFree, tFreeList_eq, flatMap_map, flatMap_assoc]
    exact flatMap_congr h
  tif a hf ht he := by simp only [tFree, flatMap_append, hf, ht, he]
  tlet a v ht he := by simp only [tFree, flatMap_append, ht, he]
  tcase a ht hbl := by
    simp only [tFree, tFreeBranches_eq, flatMap_append, flatMap_map,
      flatMap_assoc, ht, flatMap_congr hbl]
  teps a v hf := hf
  tquant a q htr hf := by
    simp only [tFree, tFreeTrigger_eq, flatMap_append, flatMap_map, flatMap_assoc, hf]
    rw [flatMap_congr fun l hl => flatMap_congr (htr l hl)]
  tbinop a op hf hg := by simp only [tFree, flatMap_append, hf, hg]
  tnot a hf := hf
  ttrue _ _ := rfl
  tfalse _ _ := rfl

theorem tFree_mapVars {g : VSymbol → List VSymbol} (t : Term) (k : Nat)
    (hfv : ∀ j a, ∀ v ∈ tFree t, tFree (fv j a v) = g v)
    (hbv : ∀ j a i ty, tFree (bv j a i ty) = []) :
    tFree (mapVars fv bv k t) = (tFree t).flatMap g := by
  refine (congruent_tFree g).mapVars_all t k (fun j a v hv => ?_) hbv
  rw [tFree, flatMap_singleton, hfv j a v hv]

end Traversal

end Term

open Term

end Why3
