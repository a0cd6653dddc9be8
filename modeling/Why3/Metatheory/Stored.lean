import Why3.Metatheory.TermSubst

/-!
The stored form of terms: the numbers of free occurrences that bindings keep, and
substitution.

A binding is right when it has one number for each symbol that occurs in its forced body,
modulo the range of the machine integers. Substitution keeps that, and forcing its result
is substitution in the forced term.
-/
namespace Why3

open List
open KeyMap (lookup_add lookup_mapVals mapVals setInter setUnion)

namespace Stored

open Term

/-! Numbers of occurrences. -/

/-- What a map has for a symbol with `n` occurrences. -/
def countOpt (n : Nat) : Option Int63 := if n = 0 then none else some (BitVec.ofNat 63 n)

/-- The map has the numbers of occurrences in the list. -/
def Represents (vars : Mvs Int63) (l : List VSymbol) : Prop :=
  ∀ v, vars.lookup v = countOpt (l.count v)

/-- It has one entry for each of them. -/
structure Numbers (vars : Mvs Int63) (l : List VSymbol) : Prop where
  represents : Represents vars l
  distinct : KeyMap.Distinct vars

theorem countOpt_add (m n : Nat) :
    countOpt (m + n) = KeyMap.combine (· + ·) (countOpt m) (countOpt n) := by
  simp only [countOpt]
  by_cases hm : m = 0
  · simp [hm, KeyMap.combine]
  · by_cases hn : n = 0
    · simp [hn, hm, KeyMap.combine]
    · simp [hm, hn, BitVec.ofNat_add, KeyMap.combine]

theorem countOpt_mul {m : Nat} (hm : m ≠ 0) (n : Nat) :
    countOpt (m * n) = (countOpt n).map (BitVec.ofNat 63 m * ·) := by
  simp only [countOpt]
  by_cases hn : n = 0
  · simp [hn]
  · have hmn : m * n ≠ 0 := Nat.mul_ne_zero hm hn
    simp [hn, hmn, BitVec.ofNat_mul]

variable {v : VSymbol} {t : STerm}

section Represents

variable {s s1 s2 : Mvs Int63} {l l1 l2 : List VSymbol}

theorem Numbers.perm (h : Numbers s l1) (hperm : l1.Perm l2) : Numbers s l2 := by
  refine { h with represents := fun v => ?_ }
  rw [h.represents v, hperm.count_eq]

theorem numbers_nil : Numbers [] [] := ⟨fun _ => rfl, nodup_nil⟩

theorem represents_singleton (v : VSymbol) : Represents [(v, 1)] [v] := by
  intro w
  rw [lookup_cons, count_singleton]
  by_cases h : w = v
  · subst h
    simp [countOpt]
  · simp [countOpt, beq_eq_false_iff_ne.mpr h, beq_eq_false_iff_ne.mpr (Ne.symm h)]

theorem Represents.mem (h : Represents s l) : KeyMap.mem s v = true ↔ v ∈ l := by
  rw [KeyMap.mem, h v, countOpt]
  by_cases hv : v ∈ l
  · simp [count_eq_zero]
  · simp [hv, count_eq_zero.mpr hv]

theorem Represents.union (h1 : Represents s1 l1) (h2 : Represents s2 l2) :
    Represents (varsUnion s1 s2) (l1 ++ l2) := by
  intro v
  rw [varsUnion, KeyMap.lookup_unionWith, h1 v, h2 v, count_append, countOpt_add]

theorem Numbers.union (h1 : Numbers s1 l1) (h2 : Numbers s2 l2) :
    Numbers (varsUnion s1 s2) (l1 ++ l2) :=
  ⟨h1.represents.union h2.represents, h1.distinct.unionWith h2.distinct _⟩

theorem Numbers.filter (h : Numbers s l) (p : VSymbol → Bool) :
    Numbers (List.filter (fun x => p x.1) s) (l.filter p) := by
  refine ⟨fun v => ?_, h.distinct.filter _⟩
  rw [KeyMap.lookup_filter, h.represents v]
  by_cases hp : p v = true
  · rw [if_pos hp, count_filter hp]
  · have hnot : v ∉ l.filter p := fun hv => hp (mem_filter.mp hv).2
    rw [if_neg hp, count_eq_zero.mpr hnot]
    rfl

theorem Represents.scale (h : Represents s l) {n : Nat} (hn : n ≠ 0) :
    Represents (mapVals (BitVec.ofNat 63 n * ·) s) (List.replicate n l).flatten := by
  intro v
  have hcount : (List.replicate n l).flatten.count v = n * l.count v := by
    rw [count_flatten, map_replicate, sum_replicate_nat]
  rw [lookup_mapVals, h v, hcount, countOpt_mul hn]

theorem Numbers.foldl {ι : Type} {f : ι → Mvs Int63} {g : ι → List VSymbol} {xs : List ι}
    (h : ∀ x ∈ xs, Numbers (f x) (g x)) (hs : Numbers s l) :
    Numbers (xs.foldl (fun s x => varsUnion s (f x)) s) (l ++ xs.flatMap g) := by
  induction xs generalizing s l with
  | nil =>
    rw [flatMap_nil, append_nil]
    exact hs
  | cons x xs ih =>
    rw [flatMap_cons, ← append_assoc]
    exact ih (forall_mem_cons.mp h).2 (hs.union (h x mem_cons_self))

end Represents

/-! Forcing. -/

theorem forceList_eq (tl : List STerm) : forceList tl = tl.map force :=
  ListRec.eq_map rfl (fun _ _ => rfl) tl

theorem forceEntries_eq (s : Mvs STerm) : forceEntries s = mapVals force s :=
  ListRec.eq_map rfl (fun _ _ => rfl) s

theorem forceBranches_eq (bl : List TermBranch) : forceBranches bl =
      bl.map fun x => (x.1, forceBody (patVars x.1) (forceSubst x.2.1) (force x.2.2)) :=
  ListRec.eq_map rfl (fun _ _ => rfl) bl

theorem forceTrigger_eq (tr : List (List STerm)) : forceTrigger tr = tr.map (·.map force) :=
  ListRec.eq_map rfl (fun l tr => by rw [forceTrigger, forceList_eq]) tr

/-- The substitution that a map of stored terms stands for. -/
def substMap (m : Mvs STerm) (v : VSymbol) : Option Term := (m.lookup v).map force

theorem lookup_forceSubst (b : BindInfo STerm) :
    (fun v => (forceSubst b).lookup v) = substMap b.bvSubst := by
  funext v
  rw [forceSubst, forceEntries_eq, lookup_mapVals, substMap]

variable {m : Mvs STerm}

theorem closedMap_of_forall (h : ∀ x ∈ m, Scoped 0 (force x.2)) : ClosedMap (substMap m) := by
  intro v s hs
  obtain ⟨t, ht, rfl⟩ := Option.map_eq_some_iff.mp hs
  exact h (v, t) (AssocList.mem_of_lookup ht)

/-- The forced body of a binding. -/
def bodyOf (vl : List VSymbol) (b : BindInfo STerm) (e : STerm) : Term :=
  forceBody vl (forceSubst b) (force e)

theorem bodyOf_eq (vl : List VSymbol) (b : BindInfo STerm) (e : STerm) :
    bodyOf vl b e = Why3.tSubst (substMap b.bvSubst) (closeBody vl (force e)) := by
  rw [bodyOf, forceBody, lookup_forceSubst]

variable {b : BindInfo STerm} {e : STerm}

theorem scoped_bodyOf_of (vl : List VSymbol) (hb : ∀ x ∈ b.bvSubst, Scoped 0 (force x.2))
    (he : Scoped 0 (force e)) (n : Nat) : Scoped (n + vl.length) (bodyOf vl b e) := by
  refine (scoped_forceBody ?_ he).mono (Nat.le_add_left _ n)
  rw [lookup_forceSubst]
  exact closedMap_of_forall hb

/-- A forced term has no dangling index. -/
theorem scoped_force (t : STerm) : Scoped 0 (force t) := by
  induction t using STerm.induct with
  | tapp a ls tl ty ih =>
    rw [force, Scoped, forceList_eq, scopedList_iff]
    refine forall_mem_map.mpr fun u hu => ?_
    exact ih u hu
  | tif a f t e hf ht he => exact ⟨hf, ht, he⟩
  | tlet a t v b e ht hb he => exact ⟨ht, scoped_bodyOf_of [v] hb he 0⟩
  | tcase a t bl ht hb he =>
    rw [force, Scoped, forceBranches_eq, scopedBranches_iff]
    refine ⟨ht, fun y hy => ?_⟩
    obtain ⟨x, hx, rfl⟩ := mem_map.mp hy
    exact scoped_bodyOf_of _ (hb x hx) (he x hx) 0
  | teps a v b f hb hf => exact scoped_bodyOf_of [v] hb hf 0
  | tquant a q vl b tr f hb htr hf =>
    rw [force, Scoped, forceTrigger_eq, scopedTrigger_iff]
    refine ⟨?_, scoped_bodyOf_of vl hb hf 0⟩
    intro l hl t ht
    obtain ⟨l', hl', rfl⟩ := mem_map.mp hl
    obtain ⟨l'', hl'', rfl⟩ := mem_map.mp hl'
    obtain ⟨t', ht', rfl⟩ := mem_map.mp ht
    obtain ⟨u, hu, rfl⟩ := mem_map.mp ht'
    exact scoped_bodyOf_of vl hb (htr l'' hl'' u hu) 0
  | tbinop a op f g hf hg => exact ⟨hf, hg⟩
  | tnot a f hf => exact hf
  | _ => trivial

theorem closedMap_substMap (m : Mvs STerm) : ClosedMap (substMap m) :=
  closedMap_of_forall fun x _ => scoped_force x.2

theorem scoped_bodyOf (vl : List VSymbol) (b : BindInfo STerm) (e : STerm) :
    Scoped vl.length (bodyOf vl b e) := by
  have h := scoped_bodyOf_of vl (b := b) (fun x _ => scoped_force x.2) (scoped_force e) 0
  rwa [Nat.zero_add] at h

/-! Right bindings. -/

/-- The bodies `es` of a binding of `vl`: a deferred substitution has one term for each of
its symbols, the numbers are those of the forced bodies, and the symbols of a deferred term
are among them, also when the bodies do not use it. -/
structure BindOk (vl : List VSymbol) (b : BindInfo STerm) (es : List STerm) : Prop where
  distinct : KeyMap.Distinct b.bvSubst
  varsDistinct : KeyMap.Distinct b.bvVars
  counts : Represents b.bvVars (es.flatMap fun e => (bodyOf vl b e).tFree)
  entries : ∀ x ∈ b.bvSubst, ∀ w ∈ (force x.2).tFree, KeyMap.mem b.bvVars w = true

theorem BindOk.numbers {vl : List VSymbol} {es : List STerm} (h : BindOk vl b es) :
    Numbers b.bvVars (es.flatMap fun e => (bodyOf vl b e).tFree) :=
  ⟨h.counts, h.varsDistinct⟩

/-- Every binding in the term, and in its deferred substitutions, is right. -/
inductive Ok : STerm → Prop
  | tvar (a : Attrs) (v : VSymbol) : Ok (.tvar a v)
  | tconst (a : Attrs) (c : Constant) (ty : Ty) : Ok (.tconst a c ty)
  | tapp {a ls tl ty} : (∀ t ∈ tl, Ok t) → Ok (.tapp a ls tl ty)
  | tif {a f t e} : Ok f → Ok t → Ok e → Ok (.tif a f t e)
  | tlet {a t v b e} : Ok t → BindOk [v] b [e] → (∀ x ∈ b.bvSubst, Ok x.2) → Ok e →
      Ok (.tlet a t v b e)
  | tcase {a t bl} : Ok t → (∀ x ∈ bl, BindOk (patVars x.1) x.2.1 [x.2.2]) →
      (∀ x ∈ bl, ∀ y ∈ x.2.1.bvSubst, Ok y.2) → (∀ x ∈ bl, Ok x.2.2) → Ok (.tcase a t bl)
  | teps {a v b f} : BindOk [v] b [f] → (∀ x ∈ b.bvSubst, Ok x.2) → Ok f → Ok (.teps a v b f)
  | tquant {a q vl b tr f} : BindOk vl b (f :: tr.flatten) → (∀ x ∈ b.bvSubst, Ok x.2) →
      (∀ l ∈ tr, ∀ t ∈ l, Ok t) → Ok f → Ok (.tquant a q vl b tr f)
  | tbinop {a op f g} : Ok f → Ok g → Ok (.tbinop a op f g)
  | tnot {a f} : Ok f → Ok (.tnot a f)
  | ttrue (a : Attrs) : Ok (.ttrue a)
  | tfalse (a : Attrs) : Ok (.tfalse a)

theorem force_setAttrs (t : STerm) (a : Attrs) : force (setAttrs a t) = (force t).setAttrs a := by
  cases t <;> rfl

theorem attrs_force (t : STerm) : (force t).attrs = attrs t := by
  cases t <;> rfl

theorem Ok.setAttrs (h : Ok t) (a : Attrs) : Ok (Stored.setAttrs a t) := by
  cases h with
  | tvar => exact .tvar ..
  | tconst => exact .tconst ..
  | tapp h => exact .tapp h
  | tif hf ht he => exact .tif hf ht he
  | tlet ht hb hs he => exact .tlet ht hb hs he
  | tcase ht hb hs he => exact .tcase ht hb hs he
  | teps hb hs hf => exact .teps hb hs hf
  | tquant hb hs htr hf => exact .tquant hb hs htr hf
  | tbinop hf hg => exact .tbinop hf hg
  | tnot hf => exact .tnot hf
  | ttrue => exact .ttrue _
  | tfalse => exact .tfalse _

theorem addListVars_eq (s : Mvs Int63) (tl : List STerm) :
    addListVars s tl = tl.foldl addTVars s := by
  induction tl generalizing s with
  | nil => rfl
  | cons t tl ih => exact ih _

variable {s : Mvs Int63}

/-- `t_vars` counts the free occurrences in the forced term. -/
theorem Ok.vars (h : Ok t) : Numbers (tVars t) (force t).tFree := by
  induction h with
  | tvar a v => exact ⟨represents_singleton v, nodup_singleton v⟩
  | tapp h ih =>
    rw [tVars, addListVars_eq, force, tFree, forceList_eq, tFreeList_eq, flatMap_map]
    exact Numbers.foldl ih numbers_nil
  | tif _ _ _ hf ht he => exact (hf.union ht).union he
  | tlet _ hbind _ _ ht =>
    have hcounts := hbind.numbers
    rw [flatMap_singleton] at hcounts
    exact ht.union hcounts
  | @tcase a t bl _ hbind _ _ ht =>
    have hcounts : ∀ x ∈ bl,
        Numbers x.2.1.bvVars (bodyOf (patVars x.1) x.2.1 x.2.2).tFree := by
      intro x hx
      have hx := (hbind x hx).numbers
      rwa [flatMap_singleton] at hx
    rw [force, tFree, forceBranches_eq, tFreeBranches_eq, flatMap_map]
    exact Numbers.foldl hcounts ht
  | teps hbind =>
    have hcounts := hbind.numbers
    rwa [flatMap_singleton] at hcounts
  | tquant hbind =>
    have hcounts := hbind.numbers
    rw [flatMap_cons, ← flatMap_id, flatMap_assoc] at hcounts
    simp only [force, tFree, forceTrigger_eq, tFreeTrigger_eq, flatMap_map]
    exact hcounts
  | tbinop _ _ hf hg => exact hf.union hg
  | tnot _ hf => exact hf
  | _ => exact numbers_nil

theorem Ok.represents (h : Ok t) : Represents (tVars t) (force t).tFree := h.vars.1

/-! Substitution. -/

theorem substList_eq (m : Mvs STerm) (tl : List STerm) : substList m tl = tl.map (substRec m) :=
  ListRec.eq_map rfl (fun _ _ => rfl) tl

theorem substEntries_eq (m s : Mvs STerm) : substEntries m s = mapVals (substRec m) s :=
  ListRec.eq_map rfl (fun _ _ => rfl) s

theorem substBranches_eq (m : Mvs STerm) (bl : List TermBranch) :
    substBranches m bl = bl.map fun x => (x.1, bSubst m x.2.1, x.2.2) :=
  ListRec.eq_map rfl (fun _ _ => rfl) bl

theorem lookup_scaled (n : Int63) (s : Mvs Int63) (v : VSymbol) :
    (if n = 1 then s else mapVals (n * ·) s).lookup v = (s.lookup v).map (n * ·) := by
  by_cases hn : n = 1
  · subst hn
    simp
  · rw [if_neg hn, lookup_mapVals]

variable {vars : Mvs Int63}

/-- The numbers after a substitution for symbols of the binding. -/
theorem Numbers.substVars {l : List VSymbol} (h : Numbers vars l) (hm : KeyMap.Distinct m)
    (hval : ∀ x ∈ m, Numbers (tVars x.2) (force x.2).tFree) :
    Numbers (Stored.substVars m vars) (l.flatMap (substFree (substMap m))) := by
  have hdiff : Numbers (KeyMap.setDiff vars m) (l.filter fun v => !KeyMap.mem m v) :=
    h.filter fun v => !KeyMap.mem m v
  have hfold : Numbers (Stored.substVars m vars) ((l.filter fun v => !KeyMap.mem m v) ++
      KeyMap.copies l (fun t => (force t).tFree) m) := by
    refine ListRec.foldl_flatMap (fun x hx s acc hs => ?_) hdiff
    have hx := hval x hx
    rw [h.represents x.1, countOpt]
    by_cases hzero : l.count x.1 = 0
    · simp only [hzero, replicate_zero, flatten_nil, append_nil]
      exact hs
    · rw [if_neg hzero]
      refine hs.union ⟨fun v => ?_, ?_⟩
      · rw [lookup_scaled, ← lookup_mapVals]
        exact hx.represents.scale hzero v
      · split
        · exact hx.distinct
        · exact KeyMap.distinct_mapVals.mpr hx.distinct
  refine hfold.perm ?_
  have hperm := KeyMap.perm_flatMap_lookup hm (fun t => (force t).tFree) l
  refine hperm.trans (List.Perm.of_eq (flatMap_congr fun v _ => ?_))
  rw [substFree, substMap]
  cases m.lookup v with
  | none => rfl
  | some t => rfl

variable {vl : List VSymbol}

section Subst

variable {m : Mvs STerm}

/-- A map of right terms with one term for each symbol. -/
structure MapOk (m : Mvs STerm) : Prop where
  distinct : KeyMap.Distinct m
  values : ∀ x ∈ m, Ok x.2

theorem MapOk.filter (h : MapOk m) (p : VSymbol × STerm → Bool) : MapOk (m.filter p) :=
  ⟨h.distinct.filter p, fun x hx => h.values x (mem_of_mem_filter hx)⟩

theorem MapOk.setUnion {n : Mvs STerm} (hm : MapOk m) (hn : MapOk n) : MapOk (setUnion m n) := by
  refine ⟨hm.distinct.setUnion hn.distinct, fun x hx => ?_⟩
  cases mem_append.mp hx with
  | inl hx => exact hm.values x hx
  | inr hx => exact hn.values x (mem_of_mem_filter hx)

/-- Substitution in a term, as the property that is proved of all terms. -/
def Substitutes (t : STerm) : Prop :=
  Ok t → ∀ m, MapOk m → Ok (substRec m t) ∧
    force (substRec m t) = Why3.tSubst (substMap m) (force t)

section Recorded

variable {vl : List VSymbol} {vars : Mvs Int63} {s : Mvs STerm} {es : List STerm}

theorem mem_vars (hb : BindOk vl ⟨vars, s⟩ es) (he : e ∈ es)
    (hv : v ∈ (bodyOf vl ⟨vars, s⟩ e).tFree) : KeyMap.mem vars v = true :=
  hb.counts.mem.mpr (mem_flatMap.mpr ⟨e, he, hv⟩)

/-- On the symbols of a binding the map may be restricted to them. -/
theorem substMap_setInter (m : Mvs STerm) (hv : KeyMap.mem vars v = true) :
    substMap (setInter m vars) v = substMap m v := by
  rw [substMap, substMap, KeyMap.lookup_setInter, if_pos hv]

theorem mem_tFree_bodyOf {w : VSymbol} (hv : v ∈ (closeBody vl (force e)).tFree)
    (hw : w ∈ substFree (substMap b.bvSubst) v) : w ∈ (bodyOf vl b e).tFree := by
  rw [bodyOf_eq, tFree_tSubst]
  exact mem_flatMap.mpr ⟨v, hv, hw⟩

section

variable (hb : BindOk vl ⟨vars, s⟩ es)
include hb

/-- The map restricted to the symbols of the binding, applied to the deferred terms and
joined to them. -/
theorem bodyOf_recorded {vars' : Mvs Int63} (hs : ∀ x ∈ s, force (substRec (setInter m vars) x.2) =
      Why3.tSubst (substMap (setInter m vars)) (force x.2)) (he : e ∈ es) :
    bodyOf vl ⟨vars', setUnion (substEntries (setInter m vars) s) (setInter m vars)⟩ e =
      Why3.tSubst (substMap m) (bodyOf vl ⟨vars, s⟩ e) := by
  have hclosed := scoped_closeBody vl (scoped_force e)
  rw [bodyOf_eq, bodyOf_eq, tSubst_tSubst (closedMap_substMap s) (closedMap_substMap m) hclosed]
  refine tSubst_congr (closedMap_substMap _)
    (closedMap_composeSubst (closedMap_substMap s) (closedMap_substMap m)) hclosed fun v hv => ?_
  rw [substMap, KeyMap.lookup_setUnion, substEntries_eq, lookup_mapVals, composeSubst, substMap]
  cases ht : s.lookup v with
  | none =>
    have hfree : v ∈ substFree (substMap s) v := by
      rw [substFree, substMap, ht]
      exact mem_singleton.mpr rfl
    have hmem := mem_vars hb he (mem_tFree_bodyOf (b := ⟨vars, s⟩) hv hfree)
    exact substMap_setInter m hmem
  | some t =>
    have hfree : substFree (substMap s) v = (force t).tFree := by
      rw [substFree, substMap, ht]
      rfl
    change some (force (substRec _ t)) = some (Why3.tSubst (substMap m) (force t))
    rw [hs (v, t) (AssocList.mem_of_lookup ht)]
    refine congrArg some (tSubst_congr (closedMap_substMap _) (closedMap_substMap m)
      (scoped_force t) fun w hw => ?_)
    exact substMap_setInter m
      (mem_vars hb he (mem_tFree_bodyOf (b := ⟨vars, s⟩) hv (hfree ▸ hw)))

/-- The symbols of the deferred terms stay among those of the binding. -/
theorem mem_substVars {n : Mvs STerm} (hn : MapOk n) {w : VSymbol} (hv : KeyMap.mem vars v = true)
    (hw : w ∈ substFree (substMap n) v) : KeyMap.mem (substVars n vars) w = true := by
  have hrep := hb.numbers.substVars hn.distinct fun x hx => (hn.values x hx).vars
  exact hrep.represents.mem.mpr (mem_flatMap.mpr ⟨v, hb.counts.mem.mp hv, hw⟩)

theorem entries_recorded (hm : MapOk m) (hs : ∀ x ∈ s, force (substRec (setInter m vars) x.2) =
      Why3.tSubst (substMap (setInter m vars)) (force x.2)) :
    ∀ x ∈ setUnion (substEntries (setInter m vars) s) (setInter m vars), ∀ w ∈ (force x.2).tFree,
        KeyMap.mem (substVars (setInter m vars) vars) w = true := by
  have hn : MapOk (setInter m vars) := hm.filter _
  intro x hx w hw
  rw [substEntries_eq] at hx
  cases mem_append.mp hx with
  | inl hx =>
    obtain ⟨y, hy, rfl⟩ := mem_map.mp hx
    rw [hs y hy, tFree_tSubst] at hw
    obtain ⟨v, hv, hw⟩ := mem_flatMap.mp hw
    exact mem_substVars hb hn (hb.entries y hy v hv) hw
  | inr hx =>
    have hx := mem_of_mem_filter hx
    have hlookup := AssocList.lookup_of_mem hn.distinct hx
    refine mem_substVars hb hn (v := x.1) (mem_filter.mp hx).2 ?_
    rw [substFree, substMap, hlookup]
    exact hw

theorem counts_recorded (hm : MapOk m) : Numbers (substVars (setInter m vars) vars)
      (es.flatMap fun e => (Why3.tSubst (substMap m) (bodyOf vl ⟨vars, s⟩ e)).tFree) := by
  have hn : MapOk (setInter m vars) := hm.filter _
  have hrep := hb.numbers.substVars hn.distinct fun x hx => (hn.values x hx).vars
  refine hrep.perm (List.Perm.of_eq ?_)
  rw [flatMap_assoc]
  refine flatMap_congr fun e he => ?_
  rw [tFree_tSubst]
  refine flatMap_congr fun v hv => ?_
  rw [substFree, substFree, substMap_setInter m (mem_vars hb he hv)]

end

end Recorded

/-- A substitution recorded at a binding, when it is right for the deferred terms. -/
theorem bSubst_ok {es : List STerm} (hb : BindOk vl b es) (hs : ∀ x ∈ b.bvSubst, Ok x.2)
    (ih : ∀ x ∈ b.bvSubst, Substitutes x.2) (hm : MapOk m) :
    BindOk vl (bSubst m b) es ∧ (∀ x ∈ (bSubst m b).bvSubst, Ok x.2) ∧
      ∀ e ∈ es, bodyOf vl (bSubst m b) e = Why3.tSubst (substMap m) (bodyOf vl b e) := by
  obtain ⟨vars, s⟩ := b
  rw [bSubst]
  by_cases hdisj : KeyMap.setDisjoint m vars = true
  · rw [if_pos hdisj]
    refine ⟨hb, hs, fun e he => ?_⟩
    -- no symbol of the map occurs in the body
    refine (tSubst_of_none (closedMap_substMap m) (scoped_bodyOf vl _ e) fun v hv => ?_).symm
    have hmem := mem_vars hb he hv
    cases ht : m.lookup v with
    | none => rw [substMap, ht, Option.map_none]
    | some t =>
      have hnone := KeyMap.setDisjoint_iff.mp hdisj v (by rw [KeyMap.mem, ht]; rfl)
      rw [KeyMap.mem, hnone] at hmem
      cases hmem
  · rw [if_neg hdisj]
    have hn : MapOk (setInter m vars) := hm.filter _
    have hentries : MapOk (substEntries (setInter m vars) s) := by
      rw [substEntries_eq]
      refine ⟨KeyMap.distinct_mapVals.mpr hb.distinct, fun x hx => ?_⟩
      obtain ⟨y, hy, rfl⟩ := mem_map.mp hx
      exact (ih y hy (hs y hy) _ hn).1
    have hunion := hentries.setUnion hn
    have hbody : ∀ e ∈ es, bodyOf vl ⟨substVars (setInter m vars) vars,
        setUnion (substEntries (setInter m vars) s) (setInter m vars)⟩ e =
          Why3.tSubst (substMap m) (bodyOf vl ⟨vars, s⟩ e) := fun e he =>
      bodyOf_recorded hb (fun x hx => (ih x hx (hs x hx) _ hn).2) he
    have hcounts := counts_recorded hb hm
    refine ⟨⟨hunion.distinct, hcounts.distinct, ?_, ?_⟩, hunion.values, hbody⟩
    · rw [flatMap_congr fun e he => congrArg tFree (hbody e he)]
      exact hcounts.represents
    · exact entries_recorded hb hm fun x hx => (ih x hx (hs x hx) _ hn).2

theorem force_tAttrCopy (s t : STerm) :
    force (tAttrCopy s t) = Why3.tAttrCopy (force s) (force t) := by
  rw [tAttrCopy, Why3.tAttrCopy, force_setAttrs, attrs_force, attrs_force]

/-- Substitution keeps right terms right, and forcing its result is substitution in the
forced term. -/
theorem substitutes (t : STerm) : Substitutes t := by
  have hclosed := closedMap_substMap
  intro h
  induction h with
  | tvar a u =>
    intro m hm
    rw [substRec, force, tSubst_eq (hclosed m), mapVars, substVar, force_tAttrCopy, substMap]
    cases ht : m.lookup u with
    | none =>
      refine ⟨(Ok.tvar a u).setAttrs _, ?_⟩
      change Term.tvar (a ∪ a) u = Term.tvar a u
      rw [Finset.union_self]
    | some t => exact ⟨(hm.values (u, t) (AssocList.mem_of_lookup ht)).setAttrs _, rfl⟩
  | tconst a c ty => exact fun m hm => ⟨.tconst a c ty, rfl⟩
  | ttrue a => exact fun m hm => ⟨.ttrue a, rfl⟩
  | tfalse a => exact fun m hm => ⟨.tfalse a, rfl⟩
  | @tapp a ls tl ty _ ih =>
    intro m hm
    rw [substRec, substList_eq, force, forceList_eq, force, forceList_eq, tSubst_eq (hclosed m),
      mapVars, mapVarsList_eq_map, map_map, map_map]
    refine ⟨.tapp ?_, congrArg (Term.tapp a ls · ty) (map_congr_left fun t ht => ?_)⟩
    · refine forall_mem_map.mpr fun u hu => ?_
      exact (ih u hu m hm).1
    · rw [Function.comp_apply, Function.comp_apply, mapVars_substVar (hclosed m)]
      exact (ih t ht m hm).2
  | tif _ _ _ hf ht he =>
    intro m hm
    obtain ⟨hf1, hf2⟩ := hf m hm
    obtain ⟨ht1, ht2⟩ := ht m hm
    obtain ⟨he1, he2⟩ := he m hm
    refine ⟨.tif hf1 ht1 he1, ?_⟩
    simp only [substRec, force, tSubst_eq (hclosed m), mapVars] at hf2 ht2 he2 ⊢
    rw [hf2, ht2, he2]
  | @tlet a t v b e _ hbind hs h2 ht hb =>
    intro m hm
    obtain ⟨ht1, ht2⟩ := ht m hm
    obtain ⟨hbind', hs', hbody⟩ := bSubst_ok hbind hs (fun x hx _ => hb x hx) hm
    refine ⟨.tlet ht1 hbind' hs' h2, ?_⟩
    rw [substRec, force, force, tSubst_eq (hclosed m), mapVars, mapVars_substVar (hclosed m),
      mapVars_substVar (hclosed m), ht2]
    exact congrArg (Term.tlet a _ v) (hbody e (mem_singleton.mpr rfl))
  | @tcase a t bl _ hbind hs h2 ht hb =>
    intro m hm
    obtain ⟨ht1, ht2⟩ := ht m hm
    have hbr := fun x hx => bSubst_ok (hbind x hx) (hs x hx) (fun y hy _ => hb x hx y hy) hm
    rw [substRec, substBranches_eq]
    refine ⟨.tcase ht1 ?_ ?_ ?_, ?_⟩
    · exact forall_mem_map.mpr fun y hy => (hbr y hy).1
    · exact forall_mem_map.mpr fun y hy => (hbr y hy).2.1
    · exact forall_mem_map.mpr h2
    · rw [force, force, tSubst_eq (hclosed m), mapVars, mapVars_substVar (hclosed m), ht2,
        forceBranches_eq, forceBranches_eq, mapVarsBranches_eq_map, map_map, map_map]
      refine congrArg (Term.tcase a _) (map_congr_left fun x hx => Prod.ext rfl ?_)
      simp only [mapVars_substVar (hclosed m)]
      exact (hbr x hx).2.2 x.2.2 (mem_singleton.mpr rfl)
  | @teps a v b f hbind hs h2 hb =>
    intro m hm
    obtain ⟨hbind', hs', hbody⟩ := bSubst_ok hbind hs (fun x hx _ => hb x hx) hm
    refine ⟨.teps hbind' hs' h2, ?_⟩
    rw [substRec, force, force, tSubst_eq (hclosed m), mapVars, mapVars_substVar (hclosed m)]
    exact congrArg (Term.teps a v) (hbody f (mem_singleton.mpr rfl))
  | @tquant a q vl b tr f hbind hs htr h2 hb =>
    intro m hm
    obtain ⟨hbind', hs', hbody⟩ := bSubst_ok hbind hs (fun x hx _ => hb x hx) hm
    refine ⟨.tquant hbind' hs' htr h2, ?_⟩
    have htrigger : (tr.map (·.map force)).map (·.map (forceBody vl (forceSubst (bSubst m b)))) =
        ((tr.map (·.map force)).map (·.map (forceBody vl (forceSubst b)))).map
          (·.map (mapVars (fun _ a v => substVar (substMap m) a v)
            (fun _ a i ty => bvar a i ty) (0 + vl.length))) := by
      simp only [map_map]
      refine map_congr_left fun l hl => ?_
      simp only [Function.comp_apply, map_map]
      refine map_congr_left fun t ht => ?_
      rw [Function.comp_apply, Function.comp_apply, mapVars_substVar (hclosed m)]
      exact hbody t (mem_cons_of_mem _ (mem_flatten.mpr ⟨l, hl, ht⟩))
    rw [substRec, force, force, tSubst_eq (hclosed m), mapVars, mapVars_substVar (hclosed m),
      mapVarsTrigger_eq_map, forceTrigger_eq, htrigger]
    exact congrArg (Term.tquant a q vl _) (hbody f mem_cons_self)
  | tbinop _ _ hf hg =>
    intro m hm
    obtain ⟨hf1, hf2⟩ := hf m hm
    obtain ⟨hg1, hg2⟩ := hg m hm
    refine ⟨.tbinop hf1 hg1, ?_⟩
    simp only [substRec, force, tSubst_eq (hclosed m), mapVars] at hf2 hg2 ⊢
    rw [hf2, hg2]
  | tnot _ hf =>
    intro m hm
    obtain ⟨hf1, hf2⟩ := hf m hm
    refine ⟨.tnot hf1, ?_⟩
    simp only [substRec, force, tSubst_eq (hclosed m), mapVars] at hf2 ⊢
    rw [hf2]

theorem tSubstUnsafe_ok (h : Ok t) (hm : MapOk m) :
    Ok (tSubstUnsafe m t) ∧ force (tSubstUnsafe m t) = Why3.tSubst (substMap m) (force t) := by
  cases m with
  | nil => exact ⟨h, (tSubst_of_none (closedMap_substMap []) (scoped_force t) fun _ _ => rfl).symm⟩
  | cons x m => exact substitutes t h _ hm

end Subst

/-! Closing. -/

theorem bodyOf_bndNew (vl : List VSymbol) (vars : Mvs Int63) (e : STerm) :
    bodyOf vl (bndNew vars) e = closeBody vl (force e) := by
  exact tSubst_of_none (closedMap_substMap []) (scoped_closeBody vl (scoped_force e))
    fun _ _ => rfl

theorem bindOk_bndNew {es : List STerm}
    (h : Numbers vars ((es.flatMap fun e => (force e).tFree).filter (· ∉ vl))) :
    BindOk vl (bndNew vars) es := by
  refine ⟨nodup_nil, h.distinct, (h.perm (List.Perm.of_eq ?_)).represents, nofun⟩
  rw [filter_flatMap]
  refine flatMap_congr fun e _ => ?_
  rw [bodyOf_bndNew, tFree_closeBody]

theorem tCloseBound_ok (h : Ok t) (v : VSymbol) : BindOk [v] (tCloseBound v t).2.1 [t] := by
  refine bindOk_bndNew ?_
  have hfilter := h.vars.filter fun u => decide (u ∉ [v])
  simpa [KeyMap.remove] using hfilter

theorem tCloseBranch_ok (h : Ok t) (p : Pattern) :
    BindOk (patVars p) (tCloseBranch p t).2.1 [t] := by
  refine bindOk_bndNew ?_
  rw [flatMap_singleton]
  exact h.vars.filter fun u => decide (u ∉ patVars p)

theorem Numbers.removeAll {l : List VSymbol} (h : Numbers s l) (vl : List VSymbol) :
    Numbers (vl.foldl (fun s v => KeyMap.remove v s) s) (l.filter (· ∉ vl)) := by
  induction vl generalizing s l with
  | nil => simpa using h
  | cons v vl ih =>
    have hone := ih (h.filter fun u => decide (u ≠ v))
    rw [filter_filter] at hone
    refine hone.perm (List.Perm.of_eq (filter_congr fun u _ => ?_))
    simp [Bool.and_comm]

theorem tCloseQuant_ok {tl : List (List STerm)} {f : STerm} (vl : List VSymbol)
    (htl : ∀ l ∈ tl, ∀ t ∈ l, Ok t) (hf : Ok f) :
    BindOk vl (tCloseQuant vl tl f).2.1 (f :: tl.flatten) := by
  have hfold : tl.foldl (fun s l => l.foldl addTVars s) (tVars f) =
      tl.flatten.foldl addTVars (tVars f) := by rw [foldl_flatten]
  have hok : ∀ t ∈ tl.flatten, Ok t := by
    intro t ht
    obtain ⟨l, hl, ht⟩ := mem_flatten.mp ht
    exact htl l hl t ht
  refine bindOk_bndNew (Numbers.removeAll ?_ vl)
  rw [hfold]
  exact Numbers.foldl (fun t ht => (hok t ht).vars) hf.vars

/-! Opening. -/

/-- A map to which the symbols of a list are added one by one. -/
theorem lookup_addEach {α β : Type} {F : Mvs β → List VSymbol → List α → Mvs β} {g : α → β}
    (hnil : ∀ h, F h [] [] = h)
    (hcons : ∀ h v vl u ul, F h (v :: vl) (u :: ul) = F (KeyMap.add v (g u) h) vl ul) {h : Mvs β}
    {ul : List α} (hlen : ul.length = vl.length) (w : VSymbol) :
    (F h vl ul).lookup w = match lastIdx? w vl with
      | some j => ul[j]?.map g
      | none => h.lookup w := by
  induction vl generalizing h ul with
  | nil => rw [length_eq_zero_iff.mp hlen, hnil, lastIdx?]
  | cons v vl ih =>
    cases ul with
    | nil => cases hlen
    | cons u ul =>
      rw [hcons, ih (by simpa using hlen), lastIdx?]
      cases lastIdx? w vl with
      | some j => rfl
      | none =>
        rw [lookup_add]
        by_cases hv : v = w
        · simp [hv]
        · simp [hv, Ne.symm hv]

theorem lookup_vlRename {h : Mvs STerm} {ul : List VSymbol} (hlen : ul.length = vl.length)
    (w : VSymbol) : (vlRename h vl ul).lookup w = match lastIdx? w vl with
      | some j => ul[j]?.map tVar
      | none => h.lookup w :=
  lookup_addEach (F := vlRename) (fun _ => rfl) (fun _ _ _ _ _ => rfl) hlen w

theorem MapOk.add (h : MapOk m) (v : VSymbol) (ht : Ok t) : MapOk (KeyMap.add v t m) := by
  refine ⟨h.distinct.add v t, fun x hx => ?_⟩
  cases mem_cons.mp hx with
  | inl hx => exact hx ▸ ht
  | inr hx => exact h.values x (mem_of_mem_filter hx)

theorem MapOk.vlRename (h : MapOk m) (vl ul : List VSymbol) : MapOk (Stored.vlRename m vl ul) := by
  induction vl generalizing m ul with
  | nil =>
    rw [Stored.vlRename]
    · exact h
    · exact nofun
  | cons v vl ih =>
    cases ul with
    | nil => exact h
    | cons u ul => exact ih (h.add v (.tvar ∅ u)) ul

section Open

variable {b : BindInfo STerm} {e : STerm}

/-- Instantiating a binding is one substitution. -/
theorem instWith_ok {n : Mvs STerm} {tl : List Term} (hn : MapOk n) (he : Ok e)
    (hlen : tl.length = vl.length) (htl : ∀ s ∈ tl, Scoped 0 s)
    (hmap : substMap n = bodyMap vl tl (forceSubst b)) : Ok (tSubstUnsafe n e) ∧
      force (tSubstUnsafe n e) = (bodyOf vl b e).instWith tl := by
  obtain ⟨hok, hforce⟩ := tSubstUnsafe_ok he hn
  refine ⟨hok, ?_⟩
  rw [hforce, hmap, bodyOf, instWith_forceBody hlen _ htl (scoped_force e)]
  rw [lookup_forceSubst]
  exact closedMap_substMap _

/-- Opening a binding with some symbols. -/
theorem open_ok (vl ul : List VSymbol) (hb : MapOk b.bvSubst) (he : Ok e)
    (hlen : ul.length = vl.length) : Ok (tSubstUnsafe (vlRename b.bvSubst vl ul) e) ∧
      force (tSubstUnsafe (vlRename b.bvSubst vl ul) e) = (bodyOf vl b e).openWith ul := by
  rw [openWith_eq_instWith]
  refine instWith_ok (hb.vlRename vl ul) he ((length_map _).trans hlen)
    (forall_mem_map.mpr fun _ _ => trivial) (funext fun w => ?_)
  rw [substMap, lookup_vlRename hlen, bodyMap]
  cases lastIdx? w vl with
  | some j =>
    simp only [getElem?_map]
    cases ul[j]? with
    | none => rfl
    | some u => rfl
  | none => exact (congrFun (lookup_forceSubst b) w).symm

/-- Instantiating a binding of one symbol. -/
theorem openWith_ok (hb : MapOk b.bvSubst) (he : Ok e) (ht : Ok t) :
    Ok (tSubstUnsafe (KeyMap.add v t b.bvSubst) e) ∧
      force (tSubstUnsafe (KeyMap.add v t b.bvSubst) e) =
        (bodyOf [v] b e).instWith [force t] := by
  refine instWith_ok (hb.add v ht) he rfl (forall_mem_singleton.mpr (scoped_force t))
    (funext fun w => ?_)
  rw [substMap, lookup_add, bodyMap, lastIdx?, lastIdx?]
  by_cases hv : v = w
  · simp [hv]
  · simp only [hv, Ne.symm hv]
    exact (congrFun (lookup_forceSubst b) w).symm

end Open

end Stored
end Why3
