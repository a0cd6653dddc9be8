import Why3.Metatheory.StoredBuilt

/-!
The numbers of free occurrences that built terms carry, and the functions that read them.
-/
namespace Why3

open List

namespace Stored

open Term

/-! All bindings of a term, with the symbols they bind and their bodies. -/

mutual
def bindings : STerm → List (List VSymbol × BindInfo STerm × List STerm)
  | .tvar _ _ | .tconst _ _ _ | .ttrue _ | .tfalse _ => []
  | .tapp _ _ tl _ => bindingsList tl
  | .tif _ f t e => bindings f ++ (bindings t ++ bindings e)
  | .tlet _ t v b e => bindings t ++ (([v], b, [e]) :: (bindingsBnd b ++ bindings e))
  | .tcase _ t bl => bindings t ++ bindingsBranches bl
  | .teps _ v b f => ([v], b, [f]) :: (bindingsBnd b ++ bindings f)
  | .tquant _ _ vl b tr f =>
    (vl, b, f :: tr.flatten) :: (bindingsBnd b ++ (bindingsTrigger tr ++ bindings f))
  | .tbinop _ _ f g => bindings f ++ bindings g
  | .tnot _ f => bindings f
def bindingsList : List STerm → List (List VSymbol × BindInfo STerm × List STerm)
  | [] => []
  | t :: tl => bindings t ++ bindingsList tl
def bindingsBnd : BindInfo STerm → List (List VSymbol × BindInfo STerm × List STerm)
  | ⟨_, s⟩ => bindingsEntries s
def bindingsEntries : List (VSymbol × STerm) →
    List (List VSymbol × BindInfo STerm × List STerm)
  | [] => []
  | (_, t) :: s => bindings t ++ bindingsEntries s
def bindingsBranches : List (Pattern × BindInfo STerm × STerm) →
    List (List VSymbol × BindInfo STerm × List STerm)
  | [] => []
  | (p, b, e) :: bl =>
    (patVars p, b, [e]) :: (bindingsBnd b ++ (bindings e ++ bindingsBranches bl))
def bindingsTrigger : List (List STerm) → List (List VSymbol × BindInfo STerm × List STerm)
  | [] => []
  | l :: tr => bindingsList l ++ bindingsTrigger tr
end

theorem bindingsList_eq (tl : List STerm) : bindingsList tl = tl.flatMap bindings :=
  ListRec.eq_flatMap rfl (fun _ _ => rfl) tl

theorem bindingsBnd_eq (b : BindInfo STerm) :
    bindingsBnd b = b.bvSubst.flatMap fun x => bindings x.2 := by
  obtain ⟨vars, s⟩ := b
  rw [bindingsBnd]
  induction s with
  | nil => rfl
  | cons x s ih => rw [bindingsEntries, ih, flatMap_cons]

theorem bindingsTrigger_eq (tr : List (List STerm)) :
    bindingsTrigger tr = tr.flatMap fun l => l.flatMap bindings :=
  ListRec.eq_flatMap rfl (fun l tr => by rw [bindingsTrigger, bindingsList_eq]) tr

theorem bindingsBranches_eq (bl : List TermBranch) : bindingsBranches bl = bl.flatMap fun x =>
      (patVars x.1, x.2.1, [x.2.2]) :: (bindingsBnd x.2.1 ++ bindings x.2.2) := by
  induction bl with
  | nil => rfl
  | cons x bl ih =>
    rw [bindingsBranches, ih, flatMap_cons]
    simp only [cons_append, append_assoc]

variable {t t' : STerm} {l : List VSymbol} {vars : Mvs Int63} {k k' : Nat} {mapV : Mvs STerm}

theorem Ok.bindings (h : Ok t) : ∀ x ∈ Stored.bindings t, BindOk x.1 x.2.1 x.2.2 := by
  have hbnd : ∀ {b : BindInfo STerm},
      (∀ x ∈ b.bvSubst, ∀ y ∈ Stored.bindings x.2, BindOk y.1 y.2.1 y.2.2) →
      ∀ y ∈ bindingsBnd b, BindOk y.1 y.2.1 y.2.2 := by
    intro b ih y hy
    rw [bindingsBnd_eq] at hy
    obtain ⟨x, hx, hy⟩ := mem_flatMap.mp hy
    exact ih x hx y hy
  induction h with
  | tapp _ ih =>
    intro x hx
    rw [Stored.bindings, bindingsList_eq] at hx
    obtain ⟨t, ht, hx⟩ := mem_flatMap.mp hx
    exact ih t ht x hx
  | tif _ _ _ hf ht he =>
    simp only [Stored.bindings, forall_mem_append]
    exact ⟨hf, ht, he⟩
  | tlet _ hbind _ _ ht hb he =>
    simp only [Stored.bindings, forall_mem_append, forall_mem_cons]
    exact ⟨ht, hbind, hbnd hb, he⟩
  | tcase _ hbind _ _ ht hb he =>
    rw [Stored.bindings, bindingsBranches_eq, forall_mem_append]
    refine ⟨ht, fun y hy => ?_⟩
    obtain ⟨x, hx, hy⟩ := mem_flatMap.mp hy
    cases mem_cons.mp hy with
    | inl hy => exact hy ▸ hbind x hx
    | inr hy => exact forall_mem_append.mpr ⟨hbnd (hb x hx), he x hx⟩ y hy
  | teps hbind _ _ hb hf =>
    simp only [Stored.bindings, forall_mem_append, forall_mem_cons]
    exact ⟨hbind, hbnd hb, hf⟩
  | tquant hbind _ _ _ hb htr hf =>
    rw [Stored.bindings, forall_mem_cons, forall_mem_append, forall_mem_append]
    refine ⟨hbind, hbnd hb, fun x hx => ?_, hf⟩
    rw [bindingsTrigger_eq] at hx
    obtain ⟨l, hl, hx⟩ := mem_flatMap.mp hx
    obtain ⟨t, ht, hx⟩ := mem_flatMap.mp hx
    exact htr l hl t ht x hx
  | tbinop _ _ hf hg => exact forall_mem_append.mpr ⟨hf, hg⟩
  | tnot _ hf => exact hf
  | _ => exact nofun

/-! Reading the numbers. -/

/-- The map has, for each symbol that occurs fewer than `2 ^ 62` times in the list, the number
of its occurrences, and nothing when there is none. -/
def Counts (vars : Mvs Int63) (l : List VSymbol) : Prop :=
  ∀ v, l.count v < 2 ^ 62 → (vars.lookup v).map BitVec.toInt =
    if l.count v = 0 then none else some (l.count v : Int)

theorem toInt_ofNat {n : Nat} (h : n < 2 ^ 62) : (BitVec.ofNat 63 n).toInt = n := by
  rw [BitVec.toInt_eq_toNat_of_lt]
  · rw [BitVec.toNat_ofNat, Nat.mod_eq_of_lt (by omega)]
  · rw [BitVec.toNat_ofNat]
    omega

theorem Represents.counts (h : Represents vars l) : Counts vars l := by
  intro v hlt
  rw [h v, countOpt]
  split
  · rfl
  · rw [Option.map_some, toInt_ofNat hlt]

theorem foldl_count (hvars : KeyMap.Distinct vars) (v : VSymbol) (c : Int63) :
    vars.foldl (fun c x => if x.1 = v then c + x.2 else c) c = c + (vars.lookup v).getD 0 := by
  induction vars generalizing c with
  | nil => simp
  | cons x vars ih =>
    obtain ⟨u, n⟩ := x
    rw [KeyMap.Distinct, map_cons, nodup_cons] at hvars
    rw [foldl_cons, ih hvars.2, lookup_cons]
    by_cases hu : u = v
    · subst hu
      have hnone : vars.lookup u = none := by
        cases hl : vars.lookup u with
        | none => rfl
        | some n => exact absurd (mem_map.mpr ⟨_, AssocList.mem_of_lookup hl, rfl⟩) hvars.1
      simp [hnone]
    · simp [hu, beq_eq_false_iff_ne.mpr (Ne.symm hu)]

theorem Represents.getD (h : Represents vars l)
    (v : VSymbol) : (vars.lookup v).getD 0 = BitVec.ofNat 63 (l.count v) := by
  rw [h v, countOpt]
  split
  next hzero => rw [hzero]; rfl
  next => rfl

theorem ofNat_count_append (c : Int63) (l1 l2 : List VSymbol) (v : VSymbol) :
    c + BitVec.ofNat 63 ((l1 ++ l2).count v) =
      c + BitVec.ofNat 63 (l1.count v) + BitVec.ofNat 63 (l2.count v) := by
  rw [count_append, BitVec.ofNat_add, BitVec.add_assoc]

section Folds

variable {A : Type} {fn : A → VSymbol → Int63 → A} {m : A → List VSymbol → A}

/-- What `fn` gathers from the stored numbers is `m` of the occurrences. -/
structure Folds (fn : A → VSymbol → Int63 → A) (m : A → List VSymbol → A) : Prop where
  nil : ∀ c, m c [] = c
  append : ∀ c l1 l2, m c (l1 ++ l2) = m (m c l1) l2
  one : ∀ c v, fn c v 1 = m c [v]
  vars : ∀ {vars l} c, KeyMap.Distinct vars → Represents vars l →
    vars.foldl (fun c x => fn c x.1 x.2) c = m c l

variable (hm : Folds fn m)
include hm

theorem Folds.bind {vl : List VSymbol} {b : BindInfo STerm} {es : List STerm}
    (h : BindOk vl b es) (c : A) : b.bvVars.foldl (fun c x => fn c x.1 x.2) c =
      m c (es.flatMap fun e => (bodyOf vl b e).tFree) :=
  hm.vars c h.varsDistinct h.counts

theorem Folds.branches {bl : List TermBranch}
    (hbind : ∀ x ∈ bl, BindOk (patVars x.1) x.2.1 [x.2.2]) (c : A) :
    bl.foldl (fun c y => y.2.1.bvVars.foldl (fun c x => fn c x.1 x.2) c) c =
      m c (bl.flatMap fun x => (bodyOf (patVars x.1) x.2.1 x.2.2).tFree) := by
  induction bl generalizing c with
  | nil => exact (hm.nil c).symm
  | cons x bl ih =>
    rw [foldl_cons, hm.bind (hbind x mem_cons_self), flatMap_singleton, flatMap_cons, hm.append]
    exact ih (forall_mem_cons.mp hbind).2 _

theorem Folds.tVCount_eq (h : Ok t) : ∀ c, Stored.tVCount fn c t = m c (force t).tFree := by
  induction h with
  | tvar a u => exact fun c => hm.one c u
  | @tapp a ls tl ty h ih =>
    intro c
    rw [Stored.tVCount, tFree_force_tapp]
    clear h
    induction tl generalizing c with
    | nil => exact (hm.nil c).symm
    | cons t tl ihl =>
      rw [forall_mem_cons] at ih
      rw [tVCountList, ih.1, ihl ih.2, flatMap_cons, hm.append]
  | tif _ _ _ hf ht he =>
    intro c
    rw [Stored.tVCount, hf, ht, he, force, tFree, hm.append, hm.append]
  | tlet _ hbind _ _ ht =>
    intro c
    rw [Stored.tVCount, ht, hm.bind hbind, flatMap_singleton, force, tFree, hm.append]
    rfl
  | tcase _ hbind _ _ ht =>
    intro c
    rw [Stored.tVCount, ht, tFree_force_tcase, hm.append]
    exact hm.branches hbind _
  | teps hbind =>
    intro c
    rw [Stored.tVCount, hm.bind hbind, flatMap_singleton]
    rfl
  | tquant hbind =>
    intro c
    rw [Stored.tVCount, hm.bind hbind, tFree_force_tquant]
  | tbinop _ _ hf hg =>
    intro c
    rw [Stored.tVCount, hf, hg, force, tFree, hm.append]
  | tnot _ hf => exact hf
  | _ => exact fun c => (hm.nil c).symm

omit hm in
theorem tVFold_eq (fn : A → VSymbol → A) (t : STerm) :
    ∀ acc, Stored.tVFold fn acc t = Stored.tVCount (fun acc v _ => fn acc v) acc t := by
  induction t using STerm.induct with
  | tapp a ls tl ty ih =>
    intro acc
    rw [Stored.tVFold, Stored.tVCount]
    induction tl generalizing acc with
    | nil => rfl
    | cons t tl ihl =>
      rw [tVFoldList, tVCountList, ih t mem_cons_self, ihl (forall_mem_cons.mp ih).2]
  | tif a f t e hf ht he => exact fun acc => by rw [Stored.tVFold, Stored.tVCount, hf, ht, he]
  | tlet a t v b e ht hb he => exact fun acc => by rw [Stored.tVFold, Stored.tVCount, ht]
  | tcase a t bl ht hb he => exact fun acc => by rw [Stored.tVFold, Stored.tVCount, ht]
  | tbinop a op f g hf hg => exact fun acc => by rw [Stored.tVFold, Stored.tVCount, hf, hg]
  | tnot a f hf => exact hf
  | _ => exact fun acc => rfl

end Folds

/-- `t_v_count` adds the numbers of the free occurrences. -/
theorem Ok.tVCount (h : Ok t) (v : VSymbol) (c : Int63) :
    Stored.tVCount (fun c u n => if u = v then c + n else c) c t =
      c + BitVec.ofNat 63 ((force t).tFree.count v) := by
  refine Folds.tVCount_eq (m := fun c l => c + BitVec.ofNat 63 (l.count v))
    ⟨fun c => by simp, fun c l1 l2 => ofNat_count_append c l1 l2 v, fun c u => ?_,
      fun c hvars h => by rw [foldl_count hvars, h.getD]⟩ h c
  by_cases hu : u = v
  · simp [hu]
  · simp [hu]

theorem Ok.tVOccurs (h : Ok t) (v : VSymbol) :
    Stored.tVOccurs v t = BitVec.ofNat 63 ((force t).tFree.count v) := by
  rw [Stored.tVOccurs, h.tVCount v]
  exact BitVec.zero_add _

theorem foldl_false (vars : Mvs Int63) (b : Bool) :
    vars.foldl (fun _ _ => false) b = (b && vars.isEmpty) := by
  induction vars generalizing b with
  | nil => simp
  | cons x vars ih => simp [ih]

theorem Represents.isEmpty (h : Represents vars l) : vars.isEmpty = l.isEmpty := by
  cases vars with
  | nil =>
    cases l with
    | nil => rfl
    | cons v l => cases h.mem.mpr (mem_cons_self (a := v) (l := l))
  | cons x vars =>
    have hmem := h.mem.mp (KeyMap.mem_iff.mpr (mem_map.mpr ⟨x, mem_cons_self, rfl⟩))
    cases l with
    | nil => cases hmem
    | cons v l => rfl

/-- `t_v_fold` sees a symbol exactly when there is a free one. -/
theorem Ok.tVFold (h : Ok t) (b : Bool) :
    Stored.tVFold (fun _ _ => false) b t = (b && (force t).tFree.isEmpty) := by
  rw [tVFold_eq]
  refine Folds.tVCount_eq (m := fun b l => b && l.isEmpty) ⟨by simp, fun b l1 l2 => ?_, by simp,
    fun b _ h => by rw [foldl_false, h.isEmpty]⟩ h b
  cases l1 with
  | nil | cons v l1 => simp

theorem Ok.tClosed (h : Ok t) : Stored.tClosed t = true ↔ (force t).tFree = [] := by
  rw [Stored.tClosed, h.tVFold, Bool.true_and, List.isEmpty_iff]

/-! Instances of the types of a term. -/

section SubstTypes

variable (fnT : Ty → Ty)

theorem genMapV_eq (k : Nat) (vl : List VSymbol) :
    genMapV fnT k vl = (vl.zip (genVlRename fnT k vl).1, (genVlRename fnT k vl).2) := by
  induction vl generalizing k with
  | nil => rfl
  | cons v vl ih => rw [genMapV, ih, genVlRename, zip_cons_cons]

/-- The renaming of the free symbols whose types change keeps them apart. -/
theorem keepsApart_genMapV (h : Ok t) (hk : ∀ v ∈ syms t, v.vsName.idTag < k) :
    KeepsApart (genMapV fnT k ((tVars t).map Prod.fst)).1 t := by
  have hkeys : ∀ v, v ∈ (tVars t).map Prod.fst ↔ v ∈ (force t).tFree := fun v =>
    KeyMap.mem_iff.symm.trans h.represents.mem
  have hpicks := picks_zip fnT [] k ((tVars t).map Prod.fst)
  rw [KeyMap.setUnion, KeyMap.setDiff, filter_nil, append_nil] at hpicks
  have hfresh := hpicks.freshens fnT fun v hv => hk v (tFree_subset_syms t ((hkeys v).mp hv))
  rw [genMapV_eq]
  refine ⟨fun v hv w hw => hfresh.inj v ((hkeys v).mpr hv) w ((hkeys w).mpr hw), fun v hv => ?_⟩
  cases hfresh.moved v ((hkeys v).mpr hv) with
  | inl h => exact .inl h
  | inr h => exact .inr fun hmem => absurd (hk _ hmem) (Nat.not_lt.mpr h.1)

theorem built_genMapV (ht : Built KeepsApart t) {fnL : LSymbol → LSymbol}
    (hk : ∀ v ∈ syms t, v.vsName.idTag < k)
    (h : genMap fnT fnL (genMapV fnT k ((tVars t).map Prod.fst)).1 t
      (genMapV fnT k ((tVars t).map Prod.fst)).2 = .ok (t', k')) : Built KeepsApart t' := by
  have hkeys : ∀ v ∈ (tVars t).map Prod.fst, v.vsName.idTag < k := fun v hv =>
    hk v (tFree_subset_syms t (ht.ok.represents.mem.mp (KeyMap.mem_iff.mpr hv)))
  have hle := le_genVlRename fnT k ((tVars t).map Prod.fst)
  refine .genMap ht (keepsApart_genMapV fnT ht.ok hk) ?_ ?_ h
  · intro v hv
    rw [genMapV_eq]
    exact (hk v hv).trans_le hle
  · intro x hx
    rw [genMapV_eq] at hx ⊢
    cases mem_genVlRename fnT (of_mem_zip hx).2 with
    | inl h => exact (hkeys _ h).trans_le hle
    | inr h => exact h.2

theorem vsCheck_eq_ok {v : VSymbol} {r : Unit} (h : vsCheck v t = .ok r) : tTy t = some v.vsTy := by
  rw [vsCheck] at h
  cases hty : tTy t with
  | none =>
    rw [hty] at h
    cases h
  | some ty =>
    rw [hty] at h
    simp only at h
    split at h
    next heq => rw [heq]
    next => cases h

theorem renameSubst_ok {s : Mvs STerm} {m : Mvs VSymbol} (h : renameSubst mapV m = .ok s) :
    KeyMap.Distinct s ∧ ∀ x ∈ s, tTy x.2 = some x.1.vsTy ∧ ∃ y ∈ mapV, y.2 = x.2 := by
  induction m generalizing s with
  | nil =>
    cases h
    exact ⟨nodup_nil, nofun⟩
  | cons x m ih =>
    rw [renameSubst] at h
    cases ht : mapV.lookup x.1 with
    | none =>
      rw [ht] at h
      exact ih h
    | some t =>
      rw [ht] at h
      obtain ⟨_, hcheck, h⟩ := Except.bind_eq_ok.mp h
      obtain ⟨s', hs, h⟩ := Except.bind_eq_ok.mp h
      cases h
      obtain ⟨hdist, hmem⟩ := ih hs
      refine ⟨hdist.add _ _, fun y hy => ?_⟩
      cases mem_cons.mp hy with
      | inl hy =>
        subst hy
        exact ⟨vsCheck_eq_ok hcheck, _, AssocList.mem_of_lookup ht, rfl⟩
      | inr hy => exact hmem y (mem_of_mem_filter hy)

end SubstTypes

section

variable (ht : Built KeepsApart t) (hk : ∀ v ∈ syms t, v.vsName.idTag < k)
  (hmap : ∀ x ∈ mapV, Built KeepsApart x.2)
include ht hk hmap

/-- Instantiating types stays within the built terms. -/
theorem built_tSubstTypes {mapT : TySubst} {s : Mvs STerm}
    (h : tSubstTypes mapT mapV t k = .ok (s, t', k')) : Built KeepsApart t' ∧ SubstMap s := by
  obtain ⟨⟨t1, k1⟩, hgen, h⟩ := Except.bind_eq_ok.mp h
  obtain ⟨s1, hs, h⟩ := Except.bind_eq_ok.mp h
  cases h
  obtain ⟨hdist, hmem⟩ := renameSubst_ok hs
  refine ⟨built_genMapV (tyInst mapT) ht hk hgen, hdist, fun x hx => ?_, fun x hx => (hmem x hx).1⟩
  obtain ⟨-, y, hy, heq⟩ := hmem x hx
  exact heq ▸ hmap y hy

theorem built_tTySubst {mapT : TySubst} (h : tTySubst mapT mapV t k = .ok (t', k')) :
    Built KeepsApart t' := by
  obtain ⟨⟨s, t1, k1⟩, htypes, h⟩ := Except.bind_eq_ok.mp h
  cases h
  obtain ⟨ht1, hs⟩ := built_tSubstTypes ht hk hmap htypes
  exact .subst ht1 hs.distinct hs.built (hs.tSubst_eq t1)

end

/-- In a built term every binding has the numbers of free occurrences in its forced bodies, and
the functions that read them agree with the forced term. Mapping a caller's function and
instantiating types stay within the built terms. -/
theorem freeVars_cached (t : STerm) (ht : Built KeepsApart t) : (∀ x ∈ bindings t,
      Counts x.2.1.bvVars (x.2.2.flatMap fun e => (bodyOf x.1 x.2.1 e).tFree)) ∧
    Counts (tVars t) (force t).tFree ∧ (∀ v, (force t).tFree.count v < 2 ^ 62 →
      (tVOccurs v t).toInt = (force t).tFree.count v) ∧
    (tClosed t = true ↔ (force t).tFree = []) ∧
    (∀ s l, Represents s l → Counts (tFreevars s t) (l ++ (force t).tFree)) ∧
    (∀ {A : Type} (phys : STerm → STerm → Bool) (fn : A → STerm → A × STerm) k acc,
      (∀ acc u, Built KeepsApart u → Built KeepsApart (fn acc u).2) →
      Built KeepsApart (tMapFold phys fn k acc t).2) ∧
    ∀ mapT mapV k, (∀ v ∈ syms t, v.vsName.idTag < k) → (∀ x ∈ mapV, Built KeepsApart x.2) →
      (∀ s t' k', tSubstTypes mapT mapV t k = .ok (s, t', k') → Built KeepsApart t' ∧ SubstMap s) ∧
      ∀ t' k', tTySubst mapT mapV t k = .ok (t', k') → Built KeepsApart t' := by
  refine ⟨fun x hx => (ht.ok.bindings x hx).counts.counts, ht.ok.represents.counts,
    fun v hv => ?_, ht.ok.tClosed, fun s l hs => (hs.union ht.ok.represents).counts,
    fun phys fn k acc hfn => built_tMapFold phys hfn ht k acc,
    fun mapT mapV k hk hmap => ⟨fun s t' k' h => built_tSubstTypes ht hk hmap h,
      fun t' k' h => built_tTySubst ht hk hmap h⟩⟩
  rw [ht.ok.tVOccurs, toInt_ofNat hv]

theorem freeVars_cached_eps : (tVOccurs symX epsVX).toInt = 1 ∧ tClosed epsVX = false := by
  obtain ⟨-, -, hoccurs, hclosed, -⟩ := freeVars_cached epsVX (built_epsVX _)
  refine ⟨hoccurs symX (by decide), ?_⟩
  rw [← Bool.not_eq_true, hclosed]
  exact fun h => cons_ne_nil _ _ h

/-! Where the numbers go wrong. -/

def symY : VSymbol := ⟨⟨"y", 4⟩, .tyapp tsT []⟩

def symZ : VSymbol := ⟨⟨"z", 5⟩, .tyapp tsT []⟩

/-- `epsilon v. p x y` -/
def epsXY (x y : VSymbol) : STerm := tEpsClose symV (.tapp ∅ psP [tVar x, tVar y] none)

theorem built_epsXY (S : Mvs VSymbol → STerm → Prop) (x y : VSymbol) : Built S (epsXY x y) :=
  .teps (.close _ (.tapp (forall_mem_cons.mpr ⟨.tvar _ _, forall_mem_singleton.mpr (.tvar _ _)⟩)))

/-- Each step substitutes the term for both occurrences of its symbol. -/
def doubled : Nat → STerm
  | 0 => tVar symX
  | n + 1 => tSubstUnsafe [(symX, doubled n)] (epsXY symX symX)

theorem tTy_doubled (n : Nat) : tTy (doubled n) = some symX.vsTy := by
  cases n with
  | zero => rfl
  | succ n =>
    rfl

theorem built_doubled (n : Nat) : Built KeepsApart (doubled n) := by
  induction n with
  | zero => exact .tvar _ _
  | succ n ih =>
    have hmap : SubstMap [(symX, doubled n)] := by
      refine ⟨nodup_singleton _, fun x hx => ?_, fun x hx => ?_⟩
      · rw [mem_singleton.mp hx]
        exact ih
      · rw [mem_singleton.mp hx]
        exact tTy_doubled n
    exact .subst (built_epsXY _ symX symX) hmap.distinct hmap.built (hmap.tSubst_eq _)

theorem count_doubled (n : Nat) : (force (doubled n)).tFree.count symX = 2 ^ n := by
  induction n with
  | zero => rfl
  | succ n ih =>
    have hmap : MapOk [(symX, doubled n)] :=
      ⟨nodup_singleton _, fun x hx => mem_singleton.mp hx ▸ (built_doubled n).ok⟩
    have hfree : (force (epsXY symX symX)).tFree = [symX, symX] := rfl
    have hone : substFree (substMap [(symX, doubled n)]) symX = (force (doubled n)).tFree := by
      rfl
    rw [doubled, (tSubstUnsafe_ok (built_epsXY KeepsApart symX symX).ok hmap).2, tFree_tSubst,
      hfree, flatMap_cons, flatMap_singleton, hone, count_append]
    omega

/-- A map that sends two free symbols to one gives that one occurrence where there are two, and
a map to a bound symbol leaves an occurrence of it where there is none. After 63 substitutions
the number wraps around to zero. -/
theorem genMap_miscounts :
    (∃ t, Built (fun _ _ => True) t ∧ ∃ x ∈ bindings t, x.2.1.bvVars.lookup symZ = some 1 ∧
      (x.2.2.flatMap fun e => (bodyOf x.1 x.2.1 e).tFree).count symZ = 2) ∧
    (∃ t, Built (fun _ _ => True) t ∧ ∃ x ∈ bindings t, x.2.1.bvVars.lookup symV = some 1 ∧
      (x.2.2.flatMap fun e => (bodyOf x.1 x.2.1 e).tFree).count symV = 0) ∧
    ∃ t, Built KeepsApart t ∧ tVOccurs symX t = 0 ∧ ∃ x ∈ bindings t,
      x.2.1.bvVars.lookup symX = some 0 ∧
      (x.2.2.flatMap fun e => (bodyOf x.1 x.2.1 e).tFree).count symX = 2 ^ 63 := by
  refine ⟨⟨.teps ∅ symV ⟨[(symZ, 1)], []⟩ (.tapp ∅ psP [tVar symZ, tVar symZ] none), ?_,
      _, mem_cons_self, rfl, rfl⟩,
    ⟨.teps ∅ symV ⟨[(symV, 1)], []⟩ (.tapp ∅ psP [tVar symV, tVar symV] none), ?_,
      _, mem_cons_self, rfl, rfl⟩, doubled 63, built_doubled 63, ?_, ?_⟩
  · have hgen : genMap id id [(symX, symZ), (symY, symZ)] (epsXY symX symY) 6 = .ok
        (.teps ∅ symV ⟨[(symZ, 1)], []⟩ (.tapp ∅ psP [tVar symZ, tVar symZ] none), 6) := rfl
    exact .genMap (built_epsXY _ symX symY) trivial (by decide) (by decide) hgen
  · have hgen : genMap id id [(symX, symV)] epsVX 6 = .ok
        (.teps ∅ symV ⟨[(symV, 1)], []⟩ (.tapp ∅ psP [tVar symV, tVar symV] none), 6) := rfl
    exact .genMap (built_epsVX _) trivial (by decide) (by decide) hgen
  · rw [(built_doubled 63).ok.tVOccurs, count_doubled]
    decide
  · have hcount := count_doubled 63
    have hok := (built_doubled 63).ok
    have hlookup := (hok.represents symX).trans (congrArg countOpt hcount)
    refine ⟨_, mem_cons_self, hlookup.trans (by decide), ?_⟩
    rw [flatMap_singleton]
    exact hcount

end Stored
end Why3
