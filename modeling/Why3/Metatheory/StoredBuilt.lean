import Why3.Metatheory.StoredMap

/-!
The terms that the interface of terms can build, and what holds of all of them.

`Built` is closed under the constructors, closing and opening of bindings, substitution and
maps over types and symbols. The interface also maps a caller's function over the immediate
subterms; that keeps `Built` when the function does.
-/
namespace Why3

open List

namespace Stored

open Term

section Built

variable (S : Mvs VSymbol → STerm → Prop)

mutual
/-- The terms built with maps over symbols that meet the condition `S`. The counter of tags is
above those of the symbols at hand when fresh ones are made. -/
inductive Built : STerm → Prop
  | tvar (a : Attrs) (v : VSymbol) : Built (.tvar a v)
  | tconst (a : Attrs) (c : Constant) (ty : Ty) : Built (.tconst a c ty)
  | tapp {a ls tl ty} : (∀ t ∈ tl, Built t) → Built (.tapp a ls tl ty)
  | tif {a f t e} : Built f → Built t → Built e → Built (.tif a f t e)
  | tbinop {a op f g} : Built f → Built g → Built (.tbinop a op f g)
  | tnot {a f} : Built f → Built (.tnot a f)
  | ttrue (a : Attrs) : Built (.ttrue a)
  | tfalse (a : Attrs) : Built (.tfalse a)
  | tlet {t b} : Built t → BuiltBound b → Built (tLet t b)
  | tcase {t bl} : Built t → (∀ b ∈ bl, BuiltBranch b) → Built (tCase t bl)
  | teps {b} : BuiltBound b → Built (tEps b)
  | tquant {q b} : BuiltQuant b → Built (tQuant q b)
  | setAttrs {t} (a : Attrs) : Built t → Built (setAttrs a t)
  | subst {m t t'} : Built t → KeyMap.Distinct m → (∀ x ∈ m, Built x.2) →
      tSubst m t = .ok t' → Built t'
  | genMap {fnT fnL m t k t' k'} : Built t → S m t → (∀ v ∈ syms t, v.vsName.idTag < k) →
      (∀ x ∈ m, x.2.vsName.idTag < k) → genMap fnT fnL m t k = .ok (t', k') → Built t'
  | openBound (k : Nat) {b} : BuiltBound b → Built (tOpenBound k b).2
  | openBoundWith {b e t} : BuiltBound b → Built e → tOpenBoundWith e b = .ok t → Built t
  | openBranch (k : Nat) {b} : BuiltBranch b → Built (tOpenBranch k b).2
  | openQuant (k : Nat) {b} : BuiltQuant b → Built (tOpenQuant k b).2.2
  | openTrigger (k : Nat) {b l t} : BuiltQuant b → l ∈ (tOpenQuant k b).2.1 → t ∈ l → Built t
  | appArg {a ls tl ty t} : Built (.tapp a ls tl ty) → t ∈ tl → Built t
  | ifArg {a f t e u} : Built (.tif a f t e) → u ∈ [f, t, e] → Built u
  | binopArg {a op f g u} : Built (.tbinop a op f g) → u ∈ [f, g] → Built u
  | notArg {a f} : Built (.tnot a f) → Built f
  | letArg {a t v b e} : Built (.tlet a t v b e) → Built t
  | caseArg {a t bl} : Built (.tcase a t bl) → Built t
inductive BuiltBound : TermBound → Prop
  | close {t} (v : VSymbol) : Built t → BuiltBound (tCloseBound v t)
  | ofLet {a t v b e} : Built (.tlet a t v b e) → BuiltBound (v, b, e)
  | ofEps {a v b f} : Built (.teps a v b f) → BuiltBound (v, b, f)
inductive BuiltBranch : TermBranch → Prop
  | close {t} (p : Pattern) : Built t → BuiltBranch (tCloseBranch p t)
  | ofCase {a t bl b} : Built (.tcase a t bl) → b ∈ bl → BuiltBranch b
inductive BuiltQuant : TermQuant → Prop
  | close {tl f} (vl : List VSymbol) : (∀ l ∈ tl, ∀ t ∈ l, Built t) → Built f →
      BuiltQuant (tCloseQuant vl tl f)
  | ofQuant {a q vl b tr f} : Built (.tquant a q vl b tr f) → BuiltQuant (vl, b, tr, f)
end

end Built

/-! Mapping a function over the immediate subterms. -/

section MapFold

variable {S : Mvs VSymbol → STerm → Prop} {A : Type} {fn : A → STerm → A × STerm}

theorem built_mapFoldList (hfn : ∀ acc t, Built S t → Built S (fn acc t).2) {tl : List STerm}
    (htl : ∀ t ∈ tl, Built S t) (acc : A) : ∀ t ∈ (mapFoldList fn acc tl).2, Built S t := by
  induction tl generalizing acc with
  | nil => exact nofun
  | cons t tl ih =>
    rw [forall_mem_cons] at htl
    exact forall_mem_cons.mpr ⟨hfn acc t htl.1, ih htl.2 _⟩

theorem built_mapFoldTrigger (hfn : ∀ acc t, Built S t → Built S (fn acc t).2)
    {tr : List (List STerm)} (htr : ∀ l ∈ tr, ∀ t ∈ l, Built S t) (acc : A) :
    ∀ l ∈ (mapFoldTrigger fn acc tr).2, ∀ t ∈ l, Built S t := by
  induction tr generalizing acc with
  | nil => exact nofun
  | cons l tr ih =>
    rw [forall_mem_cons] at htr
    exact forall_mem_cons.mpr ⟨built_mapFoldList hfn htr.1 acc, ih htr.2 _⟩

variable (phys : STerm → STerm → Bool)

theorem built_mapFoldBranches (hfn : ∀ acc t, Built S t → Built S (fn acc t).2)
    {bl : List TermBranch} (hbl : ∀ b ∈ bl, BuiltBranch S b) (k : Nat) (acc : A) :
    ∀ b ∈ (mapFoldBranches phys fn k acc bl).2.2, BuiltBranch S b := by
  induction bl generalizing k acc with
  | nil => exact nofun
  | cons b bl ih =>
    rw [forall_mem_cons] at hbl
    have hrest := ih hbl.2 (k + (patVars b.1).length) (fn acc (tOpenBranch k b).2).1
    rw [mapFoldBranches]
    split
    · exact forall_mem_cons.mpr ⟨hbl.1, hrest⟩
    · exact forall_mem_cons.mpr ⟨.close _ (hfn _ _ (.openBranch k hbl.1)), hrest⟩

/-- Mapping a function that keeps `Built` over the immediate subterms keeps it. -/
theorem built_tMapFold (hfn : ∀ acc t, Built S t → Built S (fn acc t).2) {t : STerm}
    (ht : Built S t) (k : Nat) (acc : A) : Built S (tMapFold phys fn k acc t).2 := by
  cases t with
  | tvar a v | tconst a c ty | ttrue a | tfalse a => exact ht
  | tapp a ls tl ty => exact .tapp (built_mapFoldList hfn (fun t h => .appArg ht h) acc)
  | tif a f t e =>
    exact .tif (hfn _ _ (.ifArg ht (by simp))) (hfn _ _ (.ifArg ht (by simp)))
      (hfn _ _ (.ifArg ht (by simp)))
  | tbinop a op f g =>
    exact .tbinop (hfn _ _ (.binopArg ht (by simp))) (hfn _ _ (.binopArg ht (by simp)))
  | tnot a f => exact .tnot (hfn _ _ (.notArg ht))
  | tlet a t v b e =>
    have hb := BuiltBound.ofLet ht
    have h1 := fun acc => hfn acc t (.letArg ht)
    have h2 := fun acc => hfn acc _ (.openBound k hb)
    rw [tMapFold]
    split
    · split
      · exact ht
      · exact .setAttrs _ (.tlet (h1 _) hb)
    · exact .setAttrs _ (.tlet (h1 _) (.close _ (h2 _)))
  | tcase a t bl =>
    have hbl := built_mapFoldBranches phys hfn (fun b h => BuiltBranch.ofCase ht h) k
      (fn acc t).1
    rw [tMapFold]
    split
    · exact ht
    · exact .setAttrs _ (.tcase (hfn _ _ (.caseArg ht)) hbl)
  | teps a v b f =>
    have h1 := fun acc => hfn acc _ (.openBound k (BuiltBound.ofEps ht))
    rw [tMapFold]
    split
    · exact ht
    · exact .setAttrs _ (.teps (.close _ (h1 _)))
  | tquant a q vl b tr f =>
    have hb := BuiltQuant.ofQuant ht
    have htr := built_mapFoldTrigger hfn (fun l hl t h => Built.openTrigger k hb hl h) acc
    have h1 := fun acc => hfn acc _ (.openQuant k hb)
    rw [tMapFold]
    split
    · exact ht
    · refine .setAttrs _ ?_
      rw [tQuantClose]
      split
      · exact h1 _
      · exact .tquant (.close _ htr (h1 _))

end MapFold

/-- A binding that is right, with right bodies and deferred terms. -/
structure BindingOk (vl : List VSymbol) (b : BindInfo STerm) (es : List STerm) : Prop where
  bind : BindOk vl b es
  deferred : ∀ x ∈ b.bvSubst, Ok x.2
  bodies : ∀ e ∈ es, Ok e

variable {b : BindInfo STerm} {es : List STerm} {vl : List VSymbol} {v : VSymbol} {m : Mvs STerm}
  {k : Nat}

theorem BindingOk.mapOk (h : BindingOk vl b es) : MapOk b.bvSubst := ⟨h.bind.distinct, h.deferred⟩

theorem BindingOk.opened (h : BindingOk vl b es) (k : Nat) {e : STerm} (he : e ∈ es) :
    Ok (tSubstUnsafe (vlRename b.bvSubst vl (renameVars k vl)) e) :=
  (open_ok vl _ h.mapOk (h.bodies e he) (renameVars_length k vl)).1

theorem tOpenBoundWith_ok {e s t : STerm} (h : BindingOk [v] b [e]) (hs : Ok s)
    (ht : tOpenBoundWith s (v, b, e) = .ok t) :
    Ok t ∧ force t = (bodyOf [v] b e).instWith [force s] := by
  obtain ⟨_, -, ht⟩ := Except.bind_eq_ok.mp ht
  cases ht
  exact openWith_ok h.mapOk (h.bodies e (mem_singleton.mpr rfl)) hs

theorem tSubst_eq_ok {t t' : STerm} (h : tSubst m t = .ok t') :
    t' = tSubstUnsafe m t := by
  obtain ⟨_, -, h⟩ := Except.bind_eq_ok.mp h
  cases h
  rfl

/-- What a map over symbols has to do with the free symbols of a term: to keep them apart and
send each to itself or to a symbol that the term does not have. -/
structure KeepsApart (m : Mvs VSymbol) (t : STerm) : Prop where
  inj : ∀ v ∈ (force t).tFree, ∀ w ∈ (force t).tFree, renVar m v = renVar m w → v = w
  apart : ∀ v ∈ (force t).tFree, renVar m v = v ∨ renVar m v ∉ syms t

theorem renVar_below {m : Mvs VSymbol} (hm : ∀ x ∈ m, x.2.vsName.idTag < k)
    (hv : v.vsName.idTag < k) : (renVar m v).vsName.idTag < k := by
  rw [renVar]
  cases hu : m.lookup v with
  | none => exact hv
  | some u => exact hm _ (AssocList.mem_of_lookup hu)

theorem KeepsApart.renOk {m : Mvs VSymbol} {t : STerm} (h : KeepsApart m t)
    (ht : ∀ v ∈ syms t, v.vsName.idTag < k) (hm : ∀ x ∈ m, x.2.vsName.idTag < k) :
    RenOk m (force t).tFree (syms t) k where
  inj := h.inj
  apart := h.apart
  below v hv := renVar_below hm (ht v (tFree_subset_syms t hv))
  symsBelow := ht

mutual
theorem Built.ok {t : STerm} : Built KeepsApart t → Ok t
  | .tvar a v => .tvar a v
  | .tconst a c ty => .tconst a c ty
  | .tapp h => .tapp fun t ht => (h t ht).ok
  | .tif hf ht he => .tif hf.ok ht.ok he.ok
  | .tbinop hf hg => .tbinop hf.ok hg.ok
  | .tnot hf => .tnot hf.ok
  | .ttrue a => .ttrue a
  | .tfalse a => .tfalse a
  | .tlet ht hb => .tlet ht.ok hb.ok.bind hb.ok.deferred (hb.ok.bodies _ (mem_singleton.mpr rfl))
  | .tcase ht hb => .tcase ht.ok (fun x hx => (hb x hx).ok.bind)
      (fun x hx => (hb x hx).ok.deferred)
      fun x hx => (hb x hx).ok.bodies _ (mem_singleton.mpr rfl)
  | .teps hb => .teps hb.ok.bind hb.ok.deferred (hb.ok.bodies _ (mem_singleton.mpr rfl))
  | .tquant hb => by
    rw [tQuant]
    split
    · exact hb.ok.bodies _ mem_cons_self
    · exact .tquant hb.ok.bind hb.ok.deferred
        (fun l hl t ht => hb.ok.bodies t (mem_cons_of_mem _ (mem_flatten.mpr ⟨l, hl, ht⟩)))
        (hb.ok.bodies _ mem_cons_self)
  | .setAttrs a ht => ht.ok.setAttrs a
  | .subst ht hm hval h => by
    rw [tSubst_eq_ok h]
    exact (tSubstUnsafe_ok ht.ok ⟨hm, fun x hx => (hval x hx).ok⟩).1
  | .genMap ht hS hk hm h => (genMaps _ ht.ok (hS.renOk hk hm) h).2.1
  | .openBound k hb => hb.ok.opened k (mem_singleton.mpr rfl)
  | .openBoundWith hb he h => (tOpenBoundWith_ok hb.ok he.ok h).1
  | .openBranch k hb => hb.ok.opened k (mem_singleton.mpr rfl)
  | .openQuant k hb => hb.ok.opened k mem_cons_self
  | .openTrigger k hb hl ht => by
    obtain ⟨l', hl', rfl⟩ := mem_map.mp hl
    obtain ⟨e, he, rfl⟩ := mem_map.mp ht
    exact hb.ok.opened k (mem_cons_of_mem _ (mem_flatten.mpr ⟨l', hl', he⟩))
  | .appArg h ht => by
    cases h.ok with
    | tapp h => exact h _ ht
  | .ifArg h hu => by
    cases h.ok with
    | tif hf ht he =>
      exact forall_mem_cons.mpr ⟨hf, forall_mem_cons.mpr ⟨ht, forall_mem_singleton.mpr he⟩⟩ _ hu
  | .binopArg h hu => by
    cases h.ok with
    | tbinop hf hg =>
      exact forall_mem_cons.mpr ⟨hf, forall_mem_singleton.mpr hg⟩ _ hu
  | .notArg h => by
    cases h.ok with
    | tnot hf => exact hf
  | .letArg h => by
    cases h.ok with
    | tlet ht _ _ _ => exact ht
  | .caseArg h => by
    cases h.ok with
    | tcase ht _ _ _ => exact ht
theorem BuiltBound.ok {b : TermBound} : BuiltBound KeepsApart b → BindingOk [b.1] b.2.1 [b.2.2]
  | .close v ht => ⟨tCloseBound_ok ht.ok v, nofun, forall_mem_singleton.mpr ht.ok⟩
  | .ofLet h => by
    cases h.ok with
    | tlet _ hb hs he => exact ⟨hb, hs, forall_mem_singleton.mpr he⟩
  | .ofEps h => by
    cases h.ok with
    | teps hb hs hf => exact ⟨hb, hs, forall_mem_singleton.mpr hf⟩
theorem BuiltBranch.ok {b : TermBranch} :
    BuiltBranch KeepsApart b → BindingOk (patVars b.1) b.2.1 [b.2.2]
  | .close p ht => ⟨tCloseBranch_ok ht.ok p, nofun, forall_mem_singleton.mpr ht.ok⟩
  | .ofCase h hb => by
    cases h.ok with
    | tcase _ hbind hs he => exact ⟨hbind _ hb, hs _ hb, forall_mem_singleton.mpr (he _ hb)⟩
theorem BuiltQuant.ok {b : TermQuant} :
    BuiltQuant KeepsApart b → BindingOk b.1 b.2.1 (b.2.2.2 :: b.2.2.1.flatten)
  | .close vl htl hf => by
    have htr := fun l hl t ht => (htl l hl t ht).ok
    exact ⟨tCloseQuant_ok vl htr hf.ok, nofun,
      forall_mem_cons.mpr ⟨hf.ok, forall_mem_flatten.mpr htr⟩⟩
  | .ofQuant h => by
    cases h.ok with
    | tquant hb hs htr hf =>
      exact ⟨hb, hs, forall_mem_cons.mpr ⟨hf, forall_mem_flatten.mpr htr⟩⟩
end

/-! Substitutions one after another. -/

/-- A map that `t_subst` accepts, of built terms. -/
structure SubstMap (m : Mvs STerm) : Prop where
  distinct : KeyMap.Distinct m
  built : ∀ x ∈ m, Built KeepsApart x.2
  typed : ∀ x ∈ m, tTy x.2 = some x.1.vsTy

theorem SubstMap.mapOk (h : SubstMap m) : MapOk m :=
  ⟨h.distinct, fun x hx => (h.built x hx).ok⟩

theorem forM_vsCheck (h : ∀ x ∈ m, tTy x.2 = some x.1.vsTy) :
    (m.forM fun x => vsCheck x.1 x.2) = Except.ok () := by
  refine Except.forM_ok.mpr fun x hx => ?_
  rw [vsCheck, h x hx]
  exact if_pos rfl

theorem SubstMap.tSubst_eq (h : SubstMap m) (t : STerm) :
    tSubst m t = .ok (tSubstUnsafe m t) := by
  rw [tSubst, forM_vsCheck h.typed]
  rfl

def substAll (ms : List (Mvs STerm)) (t : STerm) : Except TermError STerm :=
  ms.foldlM (fun t m => tSubst m t) t

/-- The substitutions in a forced term. -/
def applyAll (ms : List (Mvs STerm)) (t : Term) : Term :=
  ms.foldl (fun t m => Why3.tSubst (substMap m) t) t

/-- The substitutions recorded at a binding. -/
def recordAll (ms : List (Mvs STerm)) (b : BindInfo STerm) : BindInfo STerm :=
  ms.foldl (fun b m => bSubst m b) b

section SubstAll

variable {ms : List (Mvs STerm)}

theorem BindingOk.recordAll (h : BindingOk vl b es) (hms : ∀ m ∈ ms, SubstMap m) :
    BindingOk vl (recordAll ms b) es ∧
      ∀ e ∈ es, bodyOf vl (recordAll ms b) e = applyAll ms (bodyOf vl b e) := by
  induction ms generalizing b with
  | nil => exact ⟨h, fun _ _ => rfl⟩
  | cons m ms ih =>
    rw [forall_mem_cons] at hms
    obtain ⟨hbind, hdeferred, hbody⟩ := bSubst_ok h.bind h.deferred
      (fun x _ => substitutes x.2) hms.1.mapOk
    obtain ⟨hok, hbodies⟩ := ih ⟨hbind, hdeferred, h.bodies⟩ hms.2
    refine ⟨hok, fun e he => ?_⟩
    rw [applyAll, foldl_cons, ← hbody e he]
    exact hbodies e he

/-- The substitutions do not touch the symbols that a binding is opened with. -/
theorem applyAll_openWith {ul : List VSymbol} (hul : ∀ u ∈ ul, ∀ m ∈ ms, m.lookup u = none)
    {n : Nat} {t : Term} (h : Scoped n t) :
    applyAll ms (t.openWith ul) = (applyAll ms t).openWith ul := by
  induction ms generalizing t with
  | nil => rfl
  | cons m ms ih =>
    have hm : ∀ u ∈ ul, substMap m u = none := by
      intro u hu
      rw [substMap, hul u hu m mem_cons_self, Option.map_none]
    have hone := tSubst_openWith (closedMap_substMap m) hm h
    rw [applyAll, foldl_cons, hone]
    exact ih (fun u hu m hm => hul u hu m (mem_cons_of_mem _ hm))
      (scoped_tSubst (closedMap_substMap m) h)

/-- Symbols with tags from the counter on are in no map. -/
theorem lookup_renameVars (hk : ∀ m ∈ ms, ∀ x ∈ m, x.1.vsName.idTag < k)
    (vl : List VSymbol) : ∀ u ∈ renameVars k vl, ∀ m ∈ ms, m.lookup u = none := by
  intro u hu m hm
  cases ht : m.lookup u with
  | none => rfl
  | some t => exact absurd (hk m hm _ (AssocList.mem_of_lookup ht)) (renameVars_tag hu).1.not_gt

/-- What opening a binding gives after the substitutions. -/
theorem BindingOk.open_recordAll (h : BindingOk vl b es) (hms : ∀ m ∈ ms, SubstMap m)
    (ul : List VSymbol) (hlen : ul.length = vl.length) (hul : ∀ u ∈ ul, ∀ m ∈ ms, m.lookup u = none)
    {e : STerm} (he : e ∈ es) :
    force (tSubstUnsafe (vlRename (Stored.recordAll ms b).bvSubst vl ul) e) =
      applyAll ms ((bodyOf vl b e).openWith ul) := by
  obtain ⟨hok, hbody⟩ := h.recordAll hms
  rw [(open_ok vl ul hok.mapOk (h.bodies e he) hlen).2, hbody e he,
    applyAll_openWith hul (scoped_bodyOf vl b e)]

/-! Substitution in a term with a binding. -/

theorem bSubst_nil (b : BindInfo STerm) : bSubst [] b = b := by
  obtain ⟨vars, s⟩ := b
  rfl

theorem substAll_cons (hm : SubstMap m) (t : STerm) :
    substAll (m :: ms) t = substAll ms (tSubstUnsafe m t) := by
  rw [substAll, foldlM_cons, hm.tSubst_eq]
  rfl

theorem tSubstUnsafe_tcase (m : Mvs STerm) (a : Attrs) (t : STerm) (bl : List TermBranch) :
    tSubstUnsafe m (.tcase a t bl) =
      .tcase a (tSubstUnsafe m t) (bl.map fun x => (x.1, bSubst m x.2.1, x.2.2)) := by
  cases m with
  | nil =>
    simp only [bSubst_nil]
    exact congrArg (STerm.tcase a t) (map_id bl).symm
  | cons x m => exact congrArg (STerm.tcase a _) (substBranches_eq _ bl)

section

variable (hms : ∀ m ∈ ms, SubstMap m)
include hms

theorem substAll_record {F : STerm → BindInfo STerm → STerm}
    (hF : ∀ m t b, substRec m (F t b) = F (substRec m t) (bSubst m b)) (t : STerm)
    (b : BindInfo STerm) : ∃ t', substAll ms (F t b) = .ok (F t' (recordAll ms b)) := by
  induction ms generalizing t b with
  | nil => exact ⟨t, rfl⟩
  | cons m ms ih =>
    rw [forall_mem_cons] at hms
    have hone : tSubstUnsafe m (F t b) = F (tSubstUnsafe m t) (bSubst m b) := by
      cases m with
      | nil => exact congrArg (F t) (bSubst_nil b).symm
      | cons x m => exact hF _ t b
    rw [substAll_cons hms.1, hone]
    exact ih hms.2 _ _

theorem substAll_tcase (a : Attrs) (t : STerm) (bl : List TermBranch) :
    ∃ t', substAll ms (.tcase a t bl) =
      .ok (.tcase a t' (bl.map fun x => (x.1, recordAll ms x.2.1, x.2.2))) := by
  induction ms generalizing t bl with
  | nil => exact ⟨t, congrArg (fun bl => Except.ok (STerm.tcase a t bl)) (map_id bl).symm⟩
  | cons m ms ih =>
    rw [forall_mem_cons] at hms
    rw [substAll_cons hms.1, tSubstUnsafe_tcase]
    obtain ⟨t', ht'⟩ := ih hms.2 (tSubstUnsafe m t) (bl.map fun x => (x.1, bSubst m x.2.1, x.2.2))
    rw [map_map] at ht'
    exact ⟨t', ht'⟩

end

/-- What opening the binding of one symbol gives after the substitutions `ms`, when the binding
was `b` and is `b'` after them. -/
def BoundOpens (ms : List (Mvs STerm)) (k : Nat) (v : VSymbol) (b b' : BindInfo STerm)
    (e : STerm) : Prop :=
  force (tOpenBound k (v, b', e)).2 =
      applyAll ms ((bodyOf [v] b e).openWith [(tOpenBound k (v, b', e)).1]) ∧
    ∀ s, Built KeepsApart s → tTy s = some v.vsTy →
      ∃ r, tOpenBoundWith s (v, b', e) = .ok r ∧
        force r = (applyAll ms (bodyOf [v] b e)).instWith [force s]

theorem boundOpens_recordAll {e : STerm} (h : BuiltBound KeepsApart (v, b, e))
    (hms : ∀ m ∈ ms, SubstMap m)
    (hk : ∀ m ∈ ms, ∀ x ∈ m, x.1.vsName.idTag < k) : BoundOpens ms k v b (recordAll ms b) e := by
  have he : e ∈ [e] := mem_singleton.mpr rfl
  refine ⟨h.ok.open_recordAll hms (renameVars k [v]) rfl (lookup_renameVars hk [v]) he, ?_⟩
  intro s hs hty
  obtain ⟨hok, hbody⟩ := h.ok.recordAll hms
  have hcheck : tOpenBoundWith s (v, recordAll ms b, e) =
      .ok (tSubstUnsafe (KeyMap.add v s (recordAll ms b).bvSubst) e) := by
    rw [tOpenBoundWith, vsCheck, hty]
    simp only [if_true]
    rfl
  refine ⟨_, hcheck, ?_⟩
  rw [(tOpenBoundWith_ok hok hs.ok hcheck).2, ← hbody e he]

end SubstAll

section Witness

def tsT : TySymbol := ⟨⟨"t", 0⟩, [], .noDef⟩

def symV : VSymbol := ⟨⟨"v", 1⟩, .tyapp tsT []⟩

def symX : VSymbol := ⟨⟨"x", 2⟩, .tyapp tsT []⟩

def psP : LSymbol := ⟨⟨"p", 3⟩, [.tyapp tsT [], .tyapp tsT []], none, 0⟩

/-- `epsilon v. p v x` -/
def epsVX : STerm := tEpsClose symV (.tapp ∅ psP [tVar symV, tVar symX] none)

theorem built_epsVX (S : Mvs VSymbol → STerm → Prop) : Built S epsVX :=
  .teps (.close _ (.tapp (forall_mem_cons.mpr ⟨.tvar _ _, forall_mem_singleton.mpr (.tvar _ _)⟩)))

end Witness

end Stored
end Why3
