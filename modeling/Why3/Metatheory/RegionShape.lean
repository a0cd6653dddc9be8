import Why3.Library.AssocList
import Why3.Library.Except
import Why3.Library.Zip
import Why3.Mlw.Store

/-!
Shapes of types and the regions of instances.

Two types have one shape when they differ in the names of regions only. Types of
one shape expose regions one by one, and so do instances of a field type under
two substitutions of one shape.
-/
namespace Why3

open List
open Except (bind_eq_ok)

namespace Mlw

variable {T : ItsTable}

/-! Shapes. -/

def noName : Ident := ⟨"", 0⟩

mutual
def ityShape : Ity → Ity
  | .ityvar v => .ityvar v
  | .ityreg _ s tl rl => .ityreg noName s (ityShapeList tl) (ityShapeList rl)
  | .ityapp s tl rl => .ityapp s (ityShapeList tl) (ityShapeList rl)
def ityShapeList : List Ity → List Ity
  | [] => []
  | t :: tl => ityShape t :: ityShapeList tl
end

theorem ityShapeList_eq_map (tl : List Ity) : ityShapeList tl = tl.map ityShape :=
  ListRec.eq_map rfl (fun _ _ => rfl) tl

def regShape (r : Region) : Region :=
  ⟨noName, r.regIts, ityShapeList r.regArgs, ityShapeList r.regRegs⟩

theorem ityPureList_iff (tl : List Ity) : ityPureList tl = true ↔ ∀ t ∈ tl, ityPure t = true := by
  induction tl with
  | nil => simp [ityPureList]
  | cons t tl ih => simp [ityPureList, ih]

theorem ityPure_app (s : ItySymbol) (tl rl : List Ity) : ityPure (.ityapp s tl rl) = true ↔
      (∀ t ∈ tl, ityPure t = true) ∧ ∀ t ∈ rl, ityPure t = true := by
  rw [ityPure, Bool.and_eq_true, ityPureList_iff, ityPureList_iff]

/-- The components with a flag, with a list for each. -/
def flagged {β : Type} (flag : ItsFlag → Bool) (g : Ity → List β) (fl : List ItsFlag)
    (tl : List Ity) : List β :=
  (fl.zip tl).flatMap fun x => if flag x.1 then g x.2 else []

variable {β : Type} {rl tl ts ts' : List Ity} {flag : ItsFlag → Bool} {t t' : Ity}
  {a b sbs sbs' : ItySubst} {s : ItySymbol} {leaf : Leaf}

theorem flagged_nil (flag : ItsFlag → Bool) (g : Ity → List β) (fl : List ItsFlag) :
    flagged flag g fl [] = [] := by
  rw [flagged, zip_nil_right, flatMap_nil]

theorem flagged_cons (flag : ItsFlag → Bool) (g : Ity → List β) (x : ItsFlag) (fl : List ItsFlag)
    (t : Ity) (tl : List Ity) : flagged flag g (x :: fl) (t :: tl) =
      (if flag x then g t else []) ++ flagged flag g fl tl := by
  rfl

theorem flagged_append (flag : ItsFlag → Bool) (g : Ity → List β) {fl fr : List ItsFlag}
    (h : fl.length = tl.length) :
    flagged flag g (fl ++ fr) (tl ++ rl) = flagged flag g fl tl ++ flagged flag g fr rl := by
  simp only [flagged, zip_append h, flatMap_append]

variable (fl : List ItsFlag)

theorem ityExpRegsList_eq (tl : List Ity) :
    ityExpRegsList T fl tl = flagged (·.itsExposed) (ityExpRegs T) fl tl := by
  induction fl generalizing tl with
  | nil => cases tl <;> rfl
  | cons x fl ih =>
    cases tl with
    | nil => rfl
    | cons t tl => rw [ityExpRegsList, flagged_cons, ih]

theorem ityExpLeavesList_eq (tl : List Ity) :
    ityExpLeavesList T fl tl = flagged (·.itsExposed) (ityExpLeaves T) fl tl := by
  induction fl generalizing tl with
  | nil => cases tl <;> rfl
  | cons x fl ih =>
    cases tl with
    | nil => rfl
    | cons t tl => rw [ityExpLeavesList, flagged_cons, ih]

theorem flagged_eq_nil {g : Ity → List β} (h : ∀ t ∈ tl, g t = [])
    (fl : List ItsFlag) : flagged flag g fl tl = [] := by
  rw [flagged, flatMap_eq_nil_iff]
  intro x hx
  split
  · exact h _ (of_mem_zip hx).2
  · rfl

/-- A pure type exposes no region, so the test for purity changes nothing. -/
theorem ityExpRegs_of_pure (ity : Ity) (h : ityPure ity = true) : ityExpRegs T ity = [] := by
  cases ity with
  | ityvar v => rfl
  | ityreg name s tl rl => cases h
  | ityapp s tl rl => rw [ityExpRegs, if_pos h]

theorem ityExpRegs_app (s : ItySymbol) (tl rl : List Ity) : ityExpRegs T (.ityapp s tl rl) =
      flagged (·.itsExposed) (ityExpRegs T) (T s).itsArgFlg tl ++
        flagged (·.itsExposed) (ityExpRegs T) (T s).itsRegFlg rl := by
  rw [ityExpRegs, ityExpRegsList_eq, ityExpRegsList_eq]
  split
  next hpure =>
    obtain ⟨htl, hrl⟩ := (ityPure_app s tl rl).mp hpure
    rw [flagged_eq_nil fun t ht => ityExpRegs_of_pure t (htl t ht),
      flagged_eq_nil fun t ht => ityExpRegs_of_pure t (hrl t ht)]
    rfl
  next => rfl

theorem ityExpLeaves_app (s : ItySymbol) (tl rl : List Ity) : ityExpLeaves T (.ityapp s tl rl) =
      flagged (·.itsExposed) (ityExpLeaves T) (T s).itsArgFlg tl ++
        flagged (·.itsExposed) (ityExpLeaves T) (T s).itsRegFlg rl := by
  rw [ityExpLeaves, ityExpLeavesList_eq, ityExpLeavesList_eq]

theorem flagged_map {γ : Type} {g : Ity → List β} {g' : Ity → List γ} {k : β → γ} {e : Ity → Ity}
    (h : ∀ t ∈ tl, g' (e t) = (g t).map k) (fl : List ItsFlag) :
    flagged flag g' fl (tl.map e) = (flagged flag g fl tl).map k := by
  induction tl generalizing fl with
  | nil => rw [map_nil, flagged_nil, flagged_nil, map_nil]
  | cons t tl ih =>
    cases fl with
    | nil => rfl
    | cons x fl =>
      rw [map_cons, flagged_cons, flagged_cons, map_append,
        ih (forall_mem_cons.mp h).2, h t mem_cons_self]
      cases flag x <;> rfl

theorem ityExpRegs_shape (ity : Ity) :
    ityExpRegs T (ityShape ity) = (ityExpRegs T ity).map regShape := by
  induction ity using Ity.induct with
  | ityvar v => rfl
  | ityreg name s tl rl htl hrl => rfl
  | ityapp s tl rl htl hrl =>
    rw [ityShape, ityShapeList_eq_map, ityShapeList_eq_map, ityExpRegs_app, ityExpRegs_app,
      map_append, flagged_map htl, flagged_map hrl]

/-- Types of one shape expose as many regions, and those at one place have one
shape. -/
theorem length_ityExpRegs (h : ityShape t = ityShape t') :
    (ityExpRegs T t).length = (ityExpRegs T t').length := by
  have hmap := congrArg List.length (congrArg (ityExpRegs T) h)
  rwa [ityExpRegs_shape, ityExpRegs_shape, length_map, length_map] at hmap

theorem shape_of_mem_zip (h : ts.map ityShape = ts'.map ityShape) {x : Ity × Ity}
    (hx : x ∈ ts.zip ts') : ityShape x.1 = ityShape x.2 := by
  obtain ⟨i, hi, rfl⟩ := getElem_of_mem hx
  have hget := getElem_of_eq h (by simp at hi ⊢; exact hi.1)
  simpa using hget

theorem itySkelCheck_shape (t1 t2 : Ity) (h : itySkelCheck t1 t2 = .ok ()) :
    ityShape t1 = ityShape t2 := by
  have hlist (l1 l2 : List Ity) (ih : ∀ t ∈ l1, ∀ t2, itySkelCheck t t2 = .ok () →
      ityShape t = ityShape t2) (h : itySkelCheckList l1 l2 = .ok ()) :
      ityShapeList l1 = ityShapeList l2 := by
    induction l1 generalizing l2 with
    | nil =>
      cases l2 with
      | nil => rfl
      | cons t2 l2 => cases h
    | cons t1 l1 ihl =>
      cases l2 with
      | nil => cases h
      | cons t2 l2 =>
        obtain ⟨⟨⟩, ht, hl⟩ := bind_eq_ok.mp h
        rw [ityShapeList, ityShapeList, ih t1 mem_cons_self t2 ht,
          ihl l2 (forall_mem_cons.mp ih).2 hl]
  induction t1 using Ity.induct generalizing t2 with
  | ityvar v =>
    cases t2 with
    | ityvar w =>
      simp only [itySkelCheck] at h
      split at h
      next heq => rw [heq]
      next => cases h
    | ityreg n2 s2 tl2 rl2 | ityapp s2 tl2 rl2 => cases h
  | ityreg n1 s1 tl1 rl1 htl hrl | ityapp s1 tl1 rl1 htl hrl =>
    -- the other constructors give an error
    cases t2 <;> try cases h
    simp only [itySkelCheck] at h
    split at h
    next heq => rw [heq]
    next =>
      split at h
      next hs =>
        obtain ⟨⟨⟩, ht, hr⟩ := bind_eq_ok.mp h
        rw [ityShape, ityShape, hs, hlist _ _ htl ht, hlist _ _ hrl hr]
      next => cases h

/-! Substitutions. -/

def leafType (sbs : ItySubst) : Leaf → Option Ity
  | .var v => sbs.isbVar.lookup v
  | .reg r => sbs.isbReg.lookup r

/-- Bindings are only added. -/
def Grows (sbs sbs' : ItySubst) : Prop :=
  ∀ leaf t, leafType sbs leaf = some t → leafType sbs' leaf = some t

theorem Grows.refl (sbs : ItySubst) : Grows sbs sbs := fun _ _ h => h

theorem Grows.trans {c : ItySubst} (h : Grows a b) (h' : Grows b c) : Grows a c :=
  fun leaf t ht => h' leaf t (h leaf t ht)

theorem lookup_cons_of_none {κ : Type} [BEq κ] [LawfulBEq κ] {l : List (κ × Ity)} {k k' : κ}
    (h : l.lookup k = none) (t : Ity) (hu : l.lookup k' = some t') :
    ((k, t) :: l).lookup k' = some t' := by
  have hne : k' ≠ k := by
    rintro rfl
    rw [h] at hu
    cases hu
  rw [lookup_cons, beq_eq_false_iff_ne.mpr hne]
  exact hu

theorem grows_addReg {r : Region} (h : sbs.isbReg.lookup r = none) (t : Ity) :
    Grows sbs { sbs with isbReg := (r, t) :: sbs.isbReg } := by
  intro leaf u hu
  cases leaf with
  | var v => exact hu
  | reg r' => exact lookup_cons_of_none h t hu

theorem grows_addVar {v : TvSymbol} (h : sbs.isbVar.lookup v = none) (t : Ity) :
    Grows sbs { sbs with isbVar := (v, t) :: sbs.isbVar } := by
  intro leaf u hu
  cases leaf with
  | reg r => exact hu
  | var v' => exact lookup_cons_of_none h t hu

theorem ityMatchList_grows {l1 : List Ity}
    (h : ∀ t ∈ l1, ∀ sbs t2 sbs', ityMatchRec sbs t t2 = .ok sbs' → Grows sbs sbs') {l2 : List Ity}
    (hm : ityMatchList sbs l1 l2 = .ok sbs') : Grows sbs sbs' := by
  induction l1 generalizing sbs l2 with
  | nil =>
    cases l2 with
    | nil =>
      cases hm
      exact .refl _
    | cons t2 l2 => cases hm
  | cons t1 l1 ih =>
    cases l2 with
    | nil => cases hm
    | cons t2 l2 =>
      obtain ⟨sbs1, ht, hl⟩ := bind_eq_ok.mp hm
      exact (h t1 mem_cons_self _ _ _ ht).trans
        (ih (forall_mem_cons.mp h).2 hl)

theorem ityMatchRec_grows (t1 : Ity) (sbs : ItySubst) (t2 : Ity) (sbs' : ItySubst)
    (h : ityMatchRec sbs t1 t2 = .ok sbs') : Grows sbs sbs' := by
  induction t1 using Ity.induct generalizing sbs t2 sbs' with
  | ityvar v =>
    simp only [ityMatchRec] at h
    split at h
    next =>
      split at h
      · cases h
        exact .refl _
      · cases h
    next hnone =>
      cases h
      exact grows_addVar hnone t2
  | ityapp s tl rl htl hrl =>
    simp only [ityMatchRec] at h
    split at h
    next =>
      split at h
      · obtain ⟨sbs1, ht, hr⟩ := bind_eq_ok.mp h
        exact (ityMatchList_grows htl ht).trans (ityMatchList_grows hrl hr)
      · cases h
    next => cases h
  | ityreg name s tl rl htl hrl =>
    simp only [ityMatchRec] at h
    split at h
    next =>
      split at h
      · cases h
        exact .refl _
      · cases h
    next hnone =>
      split at h
      case h_3 => cases h
      all_goals
        split at h
        · obtain ⟨sbs1, ht, hr⟩ := bind_eq_ok.mp h
          exact (grows_addReg hnone _).trans
            ((ityMatchList_grows htl ht).trans (ityMatchList_grows hrl hr))
        · cases h

/-- A region that was matched is bound to the type it was matched with. -/
theorem ityMatchRec_reg {r : Region}
    (h : ityMatchRec sbs (ityReg r) t = .ok sbs') : leafType sbs' (.reg r) = some t := by
  cases hlookup : sbs.isbReg.lookup r with
  | some o =>
    simp only [ityReg, ityMatchRec] at h
    rw [hlookup] at h
    simp only at h
    split at h
    next heq =>
      cases h
      rw [leafType, hlookup, heq]
    next => cases h
  | none =>
    simp only [ityReg, ityMatchRec] at h
    rw [hlookup] at h
    have hlists {s2 : ItySymbol} {tl2 rl2 : List Ity}
        (h : (if r.regIts = s2 then do
            let sbs ← ityMatchList { sbs with isbReg := (r, t) :: sbs.isbReg } r.regArgs tl2
            ityMatchList sbs r.regRegs rl2
          else .error .exit) = .ok sbs') : leafType sbs' (.reg r) = some t := by
      split at h
      · obtain ⟨sbs1, ht, hr⟩ := bind_eq_ok.mp h
        have hg := (ityMatchList_grows (fun t _ => ityMatchRec_grows t) ht).trans
          (ityMatchList_grows (fun t _ => ityMatchRec_grows t) hr)
        exact hg _ _ (by simp [leafType])
      · cases h
    simp only at h
    split at h
    · exact hlists h
    · exact hlists h
    · cases h

theorem regMatchList_ok {rl0 : List Ity} {regs : List Region}
    (h : regMatchList s rl0 sbs regs rl = .ok sbs') : Grows sbs sbs' ∧ regs.length = rl.length ∧
      ∀ r t, (r, t) ∈ regs.zip rl → leafType sbs' (.reg r) = some t := by
  induction regs generalizing rl sbs with
  | nil =>
    cases rl with
    | nil =>
      cases h
      exact ⟨.refl _, rfl, by simp⟩
    | cons t rl => cases h
  | cons r regs ih =>
    cases rl with
    | nil => cases h
    | cons t rl =>
      simp only [regMatchList] at h
      split at h
      next sbs1 hmatch =>
        obtain ⟨hgrows, hlen, hmem⟩ := ih h
        refine ⟨(ityMatchRec_grows _ _ _ _ hmatch).trans hgrows, by simp [hlen], ?_⟩
        intro r' t' hr'
        rcases mem_cons.mp hr' with heq | hr'
        · cases heq
          exact hgrows _ _ (ityMatchRec_reg hmatch)
        · exact hmem r' t' hr'
      next => cases h
      next => cases h

/-- A component of a symbol is bound to the type at its place. -/
structure Applied (T : ItsTable) (s : ItySymbol) (tl rl : List Ity) (sbs : ItySubst) : Prop where
  args : tl.length = s.itsTs.tsArgs.length
  regs : rl.length = (T s).itsRegions.length
  leaf : ∀ leaf t, (leaf, t) ∈ (keysOf T s).zip (tl ++ rl) → leafType sbs leaf = some t

theorem itsMatchRegs_applied (hnodup : (keysOf T s).Nodup) (h : itsMatchRegs T s tl rl = .ok sbs) :
    Applied T s tl rl sbs := by
  obtain ⟨sbs0, hargs, hregs⟩ := bind_eq_ok.mp h
  simp only [itsMatchArgs] at hargs
  split at hargs
  next hlen =>
    cases hargs
    obtain ⟨hgrows, hlen', hmem⟩ := regMatchList_ok hregs
    refine ⟨hlen.symm, hlen'.symm, ?_⟩
    intro leaf t hleaf
    rw [keysOf, zip_append (by simpa using hlen), mem_append] at hleaf
    have hargs : s.itsTs.tsArgs.Nodup := (nodup_append.mp hnodup).1.of_map
    cases hleaf with
    | inl hleaf =>
      rw [zip_map_left] at hleaf
      obtain ⟨⟨v, t'⟩, hv, heq⟩ := mem_map.mp hleaf
      cases heq
      apply hgrows
      refine AssocList.lookup_of_mem ?_ hv
      rw [map_fst_zip (by omega)]
      exact hargs
    | inr hleaf =>
      rw [zip_map_left] at hleaf
      obtain ⟨⟨r, t'⟩, hr, heq⟩ := mem_map.mp hleaf
      cases heq
      exact hmem r _ hr
  next => cases hargs

/-! Instances of field types. -/

/-- The regions exposed by what a leaf is bound to. -/
def leafRegs (T : ItsTable) (sbs : ItySubst) (leaf : Leaf) : List Region :=
  match leafType sbs leaf with
  | some t => ityExpRegs T t
  | none => []

theorem flagged_instList {tl' : List Ity} (h : ∀ t ∈ tl, ∀ t', ityInstRec sbs t = .ok t' →
      ityExpRegs T t' = (ityExpLeaves T t).flatMap (leafRegs T sbs))
    (hinst : ityInstList sbs tl = .ok tl') (flag : ItsFlag → Bool) (fl : List ItsFlag) :
    flagged flag (ityExpRegs T) fl tl' =
      (flagged flag (ityExpLeaves T) fl tl).flatMap (leafRegs T sbs) := by
  induction tl generalizing tl' fl with
  | nil =>
    cases hinst
    rw [flagged_nil, flagged_nil, flatMap_nil]
  | cons t tl ih =>
    obtain ⟨u, hu, hinst⟩ := bind_eq_ok.mp hinst
    obtain ⟨ul, hul, hinst⟩ := bind_eq_ok.mp hinst
    cases hinst
    cases fl with
    | nil => rfl
    | cons x fl =>
      rw [flagged_cons, flagged_cons, flatMap_append,
        ih (forall_mem_cons.mp h).2 hul, h t mem_cons_self u hu]
      cases flag x <;> rfl

/-- An instance exposes what its exposed leaves are bound to. -/
theorem ityExpRegs_inst (t : Ity) (t' : Ity) (h : ityInstRec sbs t = .ok t') :
    ityExpRegs T t' = (ityExpLeaves T t).flatMap (leafRegs T sbs) := by
  induction t using Ity.induct generalizing t' with
  | ityvar v | ityreg name s tl rl htl hrl =>
    simp only [ityInstRec] at h
    split at h
    next u hu =>
      cases h
      simp [ityExpLeaves, leafRegs, leafType, hu]
    next => cases h
  | ityapp s tl rl htl hrl =>
    obtain ⟨tl', htl', h⟩ := bind_eq_ok.mp h
    obtain ⟨rl', hrl', h⟩ := bind_eq_ok.mp h
    cases h
    rw [ityExpRegs_app, ityExpLeaves_app, flatMap_append, flagged_instList htl htl',
      flagged_instList hrl hrl']

theorem shape_instList (h : ∀ t ∈ tl, ∀ t1 t2, ityInstRec a t = .ok t1 → ityInstRec b t = .ok t2 →
      ityShape t1 = ityShape t2) {l1 l2 : List Ity} (h1 : ityInstList a tl = .ok l1)
    (h2 : ityInstList b tl = .ok l2) : ityShapeList l1 = ityShapeList l2 := by
  induction tl generalizing l1 l2 with
  | nil =>
    cases h1
    cases h2
    rfl
  | cons t tl ih =>
    obtain ⟨t1, ht1, h1⟩ := bind_eq_ok.mp h1
    obtain ⟨m1, hm1, h1⟩ := bind_eq_ok.mp h1
    obtain ⟨t2, ht2, h2⟩ := bind_eq_ok.mp h2
    obtain ⟨m2, hm2, h2⟩ := bind_eq_ok.mp h2
    cases h1
    cases h2
    rw [ityShapeList, ityShapeList, h t mem_cons_self t1 t2 ht1 ht2,
      ih (forall_mem_cons.mp h).2 hm1 hm2]

theorem mem_ityLeavesList (ht : t ∈ tl) (h : leaf ∈ ityLeaves t) : leaf ∈ ityLeavesList tl := by
  induction tl with
  | nil => cases ht
  | cons u tl ih =>
    cases mem_cons.mp ht with
    | inl heq => exact mem_append_left _ (heq ▸ h)
    | inr ht => exact mem_append_right _ (ih ht)

/-- Instances under substitutions of one shape have one shape. -/
theorem shape_inst (t : Ity)
    (hleaf : ∀ leaf ∈ ityLeaves t, ∀ u v, leafType a leaf = some u → leafType b leaf = some v →
      ityShape u = ityShape v) (t1 t2 : Ity) (h1 : ityInstRec a t = .ok t1)
    (h2 : ityInstRec b t = .ok t2) : ityShape t1 = ityShape t2 := by
  induction t using Ity.induct generalizing t1 t2 with
  | ityvar v | ityreg name s tl rl htl hrl =>
    simp only [ityInstRec] at h1 h2
    split at h1
    next u hu =>
      split at h2
      next w hw =>
        cases h1
        cases h2
        exact hleaf _ (mem_singleton.mpr rfl) _ _ hu hw
      next => cases h2
    next => cases h1
  | ityapp s tl rl htl hrl =>
    obtain ⟨tl1, htl1, h1⟩ := bind_eq_ok.mp h1
    obtain ⟨rl1, hrl1, h1⟩ := bind_eq_ok.mp h1
    obtain ⟨tl2, htl2, h2⟩ := bind_eq_ok.mp h2
    obtain ⟨rl2, hrl2, h2⟩ := bind_eq_ok.mp h2
    cases h1
    cases h2
    rw [ityShape, ityShape, shape_instList (fun t ht => htl t ht ?_) htl1 htl2,
      shape_instList (fun t ht => hrl t ht ?_) hrl1 hrl2]
    · exact fun leaf hl => hleaf leaf (mem_append_right _ (mem_ityLeavesList ht hl))
    · exact fun leaf hl => hleaf leaf (mem_append_left _ (mem_ityLeavesList ht hl))

/-! Components of a symbol. -/

theorem length_flagsOf (hs : WellFlagged T s) : (flagsOf T s).length = (keysOf T s).length := by
  simp [flagsOf, keysOf, hs.args, hs.regs]

theorem Applied.length (h : Applied T s tl rl sbs) : (tl ++ rl).length = (keysOf T s).length := by
  simp [keysOf, h.args, h.regs]

theorem exists_mem_zip {keys : List Leaf} {l : List Ity} (hlen : l.length = keys.length)
    (h : leaf ∈ keys) : ∃ t, (leaf, t) ∈ keys.zip l := by
  obtain ⟨-, t, -, -, ht⟩ := AssocList.lookup_zip_mem hlen h
  exact ⟨t, AssocList.mem_of_lookup ht⟩

theorem HasFlag.mem_zip (h : HasFlag T s flag leaf) :
    ∃ x, (leaf, x) ∈ (keysOf T s).zip (flagsOf T s) ∧ flag x = true := by
  obtain ⟨x, hx, hflag⟩ := h
  exact ⟨x, AssocList.mem_of_lookup hx, hflag⟩

theorem hasFlag_of_mem (hs : WellFlagged T s) {x : ItsFlag}
    (h : (leaf, x) ∈ (keysOf T s).zip (flagsOf T s)) (hflag : flag x = true) :
    HasFlag T s flag leaf := by
  refine ⟨x, AssocList.lookup_of_mem ?_ h, hflag⟩
  rw [map_fst_zip (by rw [length_flagsOf hs])]
  exact hs.nodup

theorem flagged_eq_pairs (flag : ItsFlag → Bool) (g : Ity → List β) (fl : List ItsFlag)
    (hlen : ts.length = ts'.length) : flagged flag g fl ts =
        ((fl.zip (ts.zip ts')).flatMap fun c => if flag c.1 then g c.2.1 else []) ∧
      flagged flag g fl ts' =
        ((fl.zip (ts.zip ts')).flatMap fun c => if flag c.1 then g c.2.2 else []) := by
  have hfst : (ts.zip ts').map Prod.fst = ts := map_fst_zip hlen.le
  have hsnd : (ts.zip ts').map Prod.snd = ts' := map_snd_zip hlen.ge
  constructor
  · conv_lhs => rw [← hfst]
    rw [flagged, zip_map_right, flatMap_map]
    rfl
  · conv_lhs => rw [← hsnd]
    rw [flagged, zip_map_right, flatMap_map]
    rfl

theorem mem_zip_flagged {fl : List ItsFlag} (hshape : ts.map ityShape = ts'.map ityShape)
    {x : Region × Region} :
    x ∈ (flagged flag (ityExpRegs T) fl ts).zip (flagged flag (ityExpRegs T) fl ts') ↔
      ∃ c ∈ fl.zip (ts.zip ts'), flag c.1 = true ∧
        x ∈ (ityExpRegs T c.2.1).zip (ityExpRegs T c.2.2) := by
  have hlen : ts.length = ts'.length := by simpa using congrArg List.length hshape
  obtain ⟨hl, hr⟩ := flagged_eq_pairs flag (ityExpRegs T) fl hlen
  rw [hl, hr, Zip.mem_zip_flatMap]
  · constructor
    · rintro ⟨c, hc, hx⟩
      cases hflag : flag c.1 with
      | true => exact ⟨c, hc, hflag, by simpa [hflag] using hx⟩
      | false => simp [hflag] at hx
    · rintro ⟨c, hc, hflag, hx⟩
      exact ⟨c, hc, by simpa [hflag] using hx⟩
  · intro c hc
    have hc' := (of_mem_zip hc).2
    split
    · exact length_ityExpRegs (shape_of_mem_zip hshape hc')
    · rfl

theorem ityExpLeaves_subset (t : Ity) : ∀ leaf ∈ ityExpLeaves T t, leaf ∈ ityLeaves t := by
  have hlist (tl : List Ity) (h : ∀ t ∈ tl, ∀ leaf ∈ ityExpLeaves T t, leaf ∈ ityLeaves t)
      (fl : List ItsFlag) : ∀ leaf ∈ flagged (·.itsExposed) (ityExpLeaves T) fl tl,
        leaf ∈ ityLeavesList tl := by
    intro leaf hleaf
    obtain ⟨c, hc, hleaf⟩ := mem_flatMap.mp hleaf
    have htl := (of_mem_zip hc).2
    split at hleaf
    · exact mem_ityLeavesList htl (h _ htl leaf hleaf)
    · cases hleaf
  induction t using Ity.induct with
  | ityvar v | ityreg name s tl rl htl hrl => exact fun leaf h => h
  | ityapp s tl rl htl hrl =>
    intro leaf hleaf
    rw [ityExpLeaves_app] at hleaf
    cases mem_append.mp hleaf with
    | inl h => exact mem_append_left _ (hlist tl htl _ leaf h)
    | inr h => exact mem_append_right _ (hlist rl hrl _ leaf h)

/-- The regions exposed by an instance of a field type. -/
theorem ityExpRegs_fullInst (hs : WellFlagged T s) {f : PvSymbol} (hf : f ∈ itsFields T s)
    (h : ityFullInst sbs f.pvIty = .ok t) :
    ityExpRegs T t = (ityExpLeaves T f.pvIty).flatMap (leafRegs T sbs) := by
  simp only [ityFullInst] at h
  split at h
  next hclosed =>
    cases h
    rw [Bool.and_eq_true, decide_eq_true_eq] at hclosed
    rw [hs.closed f hf hclosed.1 hclosed.2, ityExpRegs_of_pure _ hclosed.1]
    rfl
  next => exact ityExpRegs_inst _ _ h

/-- A symbol applied in two ways of one shape. -/
structure AppliedTwice (T : ItsTable) (s : ItySymbol) (ts ts' : List Ity) (a b : ItySubst) :
    Prop where
  flags : WellFlagged T s
  shape : ts.map ityShape = ts'.map ityShape
  leaf : ∀ leaf ∈ keysOf T s, ∃ u v, (leaf, (u, v)) ∈ (keysOf T s).zip (ts.zip ts') ∧
    leafType a leaf = some u ∧ leafType b leaf = some v

theorem appliedTwice (hs : WellFlagged T s) {tl' rl' : List Ity}
    (ha : itsMatchRegs T s tl rl = .ok a) (hb : itsMatchRegs T s tl' rl' = .ok b)
    (htl : tl.map ityShape = tl'.map ityShape) (hrl : rl.map ityShape = rl'.map ityShape) :
    AppliedTwice T s (tl ++ rl) (tl' ++ rl') a b := by
  have happ := itsMatchRegs_applied hs.nodup ha
  have happ' := itsMatchRegs_applied hs.nodup hb
  refine ⟨hs, by rw [map_append, map_append, htl, hrl], ?_⟩
  intro leaf hleaf
  obtain ⟨u, hu⟩ := exists_mem_zip happ.length hleaf
  obtain ⟨v, hv⟩ := exists_mem_zip happ'.length hleaf
  exact ⟨u, v, Zip.mem_zip_of_keys hs.nodup hu hv, happ.leaf leaf u hu, happ'.leaf leaf v hv⟩

/-- A field has types of one shape in both applications, and a pair of regions it
exposes is one of those under the components with a flag, when its leaves have the
flag. -/
theorem AppliedTwice.field (h : AppliedTwice T s ts ts' a b) {f : PvSymbol} (hf : f ∈ itsFields T s)
    (ht : ityFullInst a f.pvIty = .ok t) (ht' : ityFullInst b f.pvIty = .ok t') :
    ityShape t = ityShape t' ∧ ∀ flag, (∀ leaf ∈ ityExpLeaves T f.pvIty, HasFlag T s flag leaf) →
        ∀ x ∈ (ityExpRegs T t).zip (ityExpRegs T t'),
          x ∈ (flagged flag (ityExpRegs T) (flagsOf T s) ts).zip
            (flagged flag (ityExpRegs T) (flagsOf T s) ts') := by
  have hleaf : ∀ leaf ∈ ityLeaves f.pvIty, ∀ u v, leafType a leaf = some u →
      leafType b leaf = some v → ityShape u = ityShape v := by
    intro leaf hl u v hu hv
    obtain ⟨u', v', hmem, hu', hv'⟩ := h.leaf leaf (h.flags.leaves f hf leaf hl)
    cases hu.symm.trans hu'
    cases hv.symm.trans hv'
    exact shape_of_mem_zip h.shape (of_mem_zip hmem).2
  constructor
  · simp only [ityFullInst] at ht ht'
    split at ht
    · cases ht
      split at ht'
      · cases ht'
        rfl
      · contradiction
    · split at ht'
      · contradiction
      · exact shape_inst f.pvIty hleaf t t' ht ht'
  · intro flag hflag x hx
    rw [ityExpRegs_fullInst h.flags hf ht, ityExpRegs_fullInst h.flags hf ht',
      Zip.mem_zip_flatMap] at hx
    · obtain ⟨leaf, hl, hx⟩ := hx
      obtain ⟨u, v, hmem, hu, hv⟩ :=
        h.leaf leaf (h.flags.leaves f hf leaf (ityExpLeaves_subset _ leaf hl))
      obtain ⟨y, hy, hyflag⟩ := (hflag leaf hl).mem_zip
      simp only [leafRegs, hu, hv] at hx
      exact (mem_zip_flagged h.shape).mpr
        ⟨_, Zip.mem_of_keys h.flags.nodup hy hmem, hyflag, hx⟩
    · intro leaf hl
      have hl' := ityExpLeaves_subset _ leaf hl
      obtain ⟨u, v, hmem, hu, hv⟩ := h.leaf leaf (h.flags.leaves f hf leaf hl')
      simp only [leafRegs, hu, hv]
      exact length_ityExpRegs (hleaf leaf hl' u v hu hv)

end Mlw
end Why3
