import Why3.Metatheory.Effect
import Why3.Metatheory.RegionShape

/-!
Typed values and the regions under the fields of a region.

A value keeps its type under a second map of regions when what its type exposes
moves with the map. The regions under the fields of two regions of one shape stand
beside each other, also where fields of the second have new types of their shape.
-/
namespace Why3

open List

namespace Mlw

variable {T : ItsTable} {ρ ρ' : Region → Nat}

/-! Types under two maps of regions. -/

/-- Types all of whose symbols are applied as declared. -/
inductive WfIty (T : ItsTable) : Ity → Prop
  | reg (r : Region) : WfIty T (ityReg r)
  | app {s : ItySymbol} {tl rl : List Ity} {t : PvSymbol → Ity} :
      FieldInst T s tl rl t → (∀ f ∈ itsFields T s, WfIty T (t f)) → WfIty T (.ityapp s tl rl)
  | var (v : TvSymbol) : WfIty T (.ityvar v)

theorem HasType.wf {v : Value} {t : Ity} (h : HasType T ρ v t) : WfIty T t := by
  induction h with
  | reg r => exact .reg r
  | app hinst _ ih => exact .app hinst ih
  | var n v => exact .var v

variable {f : PvSymbol} {s : ItySymbol} {rl tl : List Ity} {t : PvSymbol → Ity} {r : Region}
  {l : List Region}

theorem WellFlagged.exposed_of_field (hs : WellFlagged T s)
    (hf : f ∈ itsFields T s) : ∀ leaf ∈ ityExpLeaves T f.pvIty, HasFlag T s (·.itsExposed) leaf := by
  intro leaf hleaf
  cases mem_append.mp hf with
  | inl hf => exact (hs.exposed leaf).mpr (.inr ⟨f, hf, hleaf⟩)
  | inr hf => exact (hs.exposed leaf).mpr (.inl (hs.fixed f hf leaf hleaf))

theorem FieldInst.args_length (h : FieldInst T s tl rl t) : (T s).itsArgFlg.length = tl.length := by
  obtain ⟨hs, sbs, hsbs, -⟩ := h
  rw [hs.args, (itsMatchRegs_applied hs.nodup hsbs).args]

theorem FieldInst.expRegs_app (h : FieldInst T s tl rl t) :
    ityExpRegs T (.ityapp s tl rl) =
      flagged (·.itsExposed) (ityExpRegs T) (flagsOf T s) (tl ++ rl) := by
  rw [ityExpRegs_app, flagsOf, flagged_append _ _ h.args_length]

theorem FieldInst.regExpRegs_eq (h : FieldInst T r.regIts r.regArgs r.regRegs t) :
    regExpRegs T r =
      flagged (·.itsExposed) (ityExpRegs T) (flagsOf T r.regIts) (r.regArgs ++ r.regRegs) := by
  rw [regExpRegs, ityExpRegsList_eq, ityExpRegsList_eq, flagsOf,
    flagged_append _ _ h.args_length]

/-- The types of a field in two applications of one shape. -/
theorem FieldInst.field {tl' rl' : List Ity} {t' : PvSymbol → Ity} (h : FieldInst T s tl rl t)
    (h' : FieldInst T s tl' rl' t') (htl : ityShapeList tl = ityShapeList tl')
    (hrl : ityShapeList rl = ityShapeList rl') (hf : f ∈ itsFields T s) :
    ityShape (t f) = ityShape (t' f) ∧
      ∀ flag, (∀ leaf ∈ ityExpLeaves T f.pvIty, HasFlag T s flag leaf) →
        ∀ x ∈ (ityExpRegs T (t f)).zip (ityExpRegs T (t' f)),
          x ∈ (flagged flag (ityExpRegs T) (flagsOf T s) (tl ++ rl)).zip
            (flagged flag (ityExpRegs T) (flagsOf T s) (tl' ++ rl')) := by
  obtain ⟨hs, a, ha, hat⟩ := h
  obtain ⟨-, b, hb, hbt⟩ := h'
  rw [ityShapeList_eq_map, ityShapeList_eq_map] at htl hrl
  exact (appliedTwice hs ha hb htl hrl).field hf (hat f hf) (hbt f hf)

/-- A value keeps its type when the regions that it exposes move with the map. -/
theorem HasType.transport {v : Value} {t : Ity}
    (h : HasType T ρ v t) {t' : Ity} (hwf : WfIty T t') (hshape : ityShape t' = ityShape t)
    (hmove : ∀ x ∈ (ityExpRegs T t').zip (ityExpRegs T t), ρ' x.1 = ρ x.2) :
    HasType T ρ' v t' := by
  induction h generalizing t' with
  | reg r =>
    cases hwf with
    | reg r' =>
      have heq := hmove (r', r) (by simp [ityReg, ityExpRegs])
      rw [← heq]
      exact .reg r'
    | app | var => simp [ityShape, ityReg] at hshape
  | var n v =>
    cases hwf with
    | reg r' => simp [ityShape, ityReg] at hshape
    | app => simp [ityShape] at hshape
    | var w =>
      simp only [ityShape] at hshape
      rw [hshape]
      exact .var n v
  | @app s tl rl fields t hinst _ ih =>
    cases hwf with
    | reg r' => simp [ityShape, ityReg] at hshape
    | var => simp [ityShape] at hshape
    | @app s' tl' rl' u hinst' hwf' =>
      simp only [ityShape, Ity.ityapp.injEq] at hshape
      obtain ⟨rfl, htl, hrl⟩ := hshape
      rw [hinst'.expRegs_app, hinst.expRegs_app] at hmove
      refine .app hinst' fun f hf => ?_
      obtain ⟨hfshape, hfpairs⟩ := hinst'.field hinst htl hrl hf
      exact ih f hf (hwf' f hf) hfshape fun x hx =>
        hmove x (hfpairs _ (hinst.flags.exposed_of_field hf) x hx)

/-! The regions under the fields of a region. -/

theorem ityRexp_eq (xl : List Region) (t : Ity) :
    ityRexp T xl t = (ityExpRegs T t).reverse ++ xl := by
  rw [ityRexp, foldl_flip_cons_eq_append, map_id']

theorem fixedRexp_eq (fl : List ItsFlag) (tl : List Ity) (xl : List Region) :
    fixedRexp T xl fl tl = (flagged (·.itsFixed) (ityExpRegs T) fl tl).reverse ++ xl := by
  induction tl generalizing fl xl with
  | nil =>
    cases fl with
    | nil => rfl
    | cons x fl => rfl
  | cons t tl ih =>
    cases fl with
    | nil => rfl
    | cons x fl =>
      rw [fixedRexp, ih, flagged_cons, reverse_append, append_assoc]
      cases x.itsFixed with
      | true => rw [if_pos rfl, if_pos rfl, ityRexp_eq]
      | false => rfl

/-- The type of a field after the assignments. -/
def newType (fs : FieldTypes) (t : PvSymbol → Ity) (f : PvSymbol) : Ity := (fs.lookup f).getD (t f)

theorem mfieldsRexp_ok {sbs : ItySubst} {fs : FieldTypes} {fields : List PvSymbol}
    (hinst : ∀ f ∈ fields, ityFullInst sbs f.pvIty = .ok (t f)) {xl : List Region}
    (h : fields.foldlM (fun xl f => do
      let tf ← ityFullInst sbs f.pvIty
      let tt := (fs.lookup f).getD tf
      itySkelCheck tf tt
      .ok (ityRexp T xl tt)) xl = .ok l) :
    l = (fields.flatMap fun f => ityExpRegs T (newType fs t f)).reverse ++ xl ∧
      ∀ f ∈ fields, ityShape (t f) = ityShape (newType fs t f) := by
  induction fields generalizing xl with
  | nil =>
    cases h
    exact ⟨rfl, fun f hf => nomatch hf⟩
  | cons f fields ih =>
    obtain ⟨xl', hstep, hrest⟩ := Except.bind_eq_ok.mp h
    obtain ⟨tf, htf, hstep⟩ := Except.bind_eq_ok.mp hstep
    obtain ⟨u, hskel, hstep⟩ := Except.bind_eq_ok.mp hstep
    cases (hinst f mem_cons_self).symm.trans htf
    cases hstep
    obtain ⟨hl, hshape⟩ := ih (forall_mem_cons.mp hinst).2 hrest
    constructor
    · rw [hl, ityRexp_eq, flatMap_cons, reverse_append, append_assoc]
      rfl
    · exact forall_mem_cons.mpr ⟨itySkelCheck_shape _ _ hskel, hshape⟩

theorem regRexp_ok {fs : FieldTypes} (hinst : FieldInst T r.regIts r.regArgs r.regRegs t)
    (h : regRexp T r fs = .ok l) :
    l.reverse = ((T r.regIts).itsMfields.flatMap fun f => ityExpRegs T (newType fs t f)) ++
        flagged (·.itsFixed) (ityExpRegs T) (flagsOf T r.regIts) (r.regArgs ++ r.regRegs) ∧
      ∀ f ∈ (T r.regIts).itsMfields, ityShape (t f) = ityShape (newType fs t f) := by
  have hlen := hinst.args_length
  obtain ⟨-, sbs, hsbs, hfields⟩ := hinst
  obtain ⟨sbs', hsbs', h⟩ := Except.bind_eq_ok.mp h
  cases hsbs.symm.trans hsbs'
  obtain ⟨xl, hxl, h⟩ := Except.bind_eq_ok.mp h
  cases h
  obtain ⟨rfl, hshape⟩ := mfieldsRexp_ok (fun f hf => hfields f (mem_append_left _ hf)) hxl
  refine ⟨?_, hshape⟩
  rw [fixedRexp_eq, fixedRexp_eq, flagsOf, flagged_append _ _ hlen]
  simp only [reverse_append, reverse_reverse, append_nil, append_assoc]

/-- A field of a symbol exposes regions that the application exposes. -/
theorem FieldInst.expRegs_field (h : FieldInst T r.regIts r.regArgs r.regRegs t)
    (hf : f ∈ itsFields T r.regIts) : ∀ r' ∈ ityExpRegs T (t f), r' ∈ regExpRegs T r := by
  intro r' hr'
  have hpair : (r', r') ∈ (ityExpRegs T (t f)).zip (ityExpRegs T (t f)) := by
    obtain ⟨i, hi, rfl⟩ := getElem_of_mem hr'
    rw [mem_iff_getElem]
    exact ⟨i, by simpa using hi, by simp⟩
  obtain ⟨-, hfield⟩ := h.field h rfl rfl hf
  rw [h.regExpRegs_eq]
  exact (of_mem_zip (hfield _ (h.flags.exposed_of_field hf) _ hpair)).1

/-- What a region exposes is under one of its fields that can be written or is
fixed. -/
theorem mem_regRexp_nil (hinst : FieldInst T r.regIts r.regArgs r.regRegs t)
    (h : regRexp T r [] = .ok l) {r' : Region} (hr' : r' ∈ regExpRegs T r) : r' ∈ l := by
  rw [hinst.regExpRegs_eq] at hr'
  obtain ⟨⟨x, u⟩, hc, hr'⟩ := mem_flatMap.mp hr'
  rw [← mem_reverse, (regRexp_ok hinst h).1, mem_append]
  obtain ⟨hs, sbs, hsbs, hfields⟩ := hinst
  have happ := itsMatchRegs_applied hs.nodup hsbs
  obtain ⟨leaf, hx, hu⟩ := Zip.exists_key (length_flagsOf hs) hc
  split at hr'
  next hexp =>
    cases (hs.exposed leaf).mp (hasFlag_of_mem hs hx hexp) with
    | inl hfixed =>
      obtain ⟨y, hy, hyfixed⟩ := hfixed.mem_zip
      refine .inr (mem_flatMap.mpr ⟨(y, u), Zip.mem_of_keys hs.nodup hy hu, ?_⟩)
      rwa [if_pos hyfixed]
    | inr hfield =>
      obtain ⟨f, hf, hleaf⟩ := hfield
      have hf' : f ∈ itsFields T r.regIts := mem_append_left _ hf
      refine .inl (mem_flatMap.mpr ⟨f, hf, ?_⟩)
      change r' ∈ ityExpRegs T (t f)
      rw [ityExpRegs_fullInst hs hf' (hfields f hf')]
      refine mem_flatMap.mpr ⟨leaf, hleaf, ?_⟩
      simpa only [leafRegs, happ.leaf leaf u hu] using hr'
  next => cases hr'

/-- Two regions of one shape with the regions under their fields, where the fields of
the second have new types. -/
structure Matched (T : ItsTable) (rf rt : Region) (fs : FieldTypes) (tf tt : PvSymbol → Ity)
    (l1 l2 : List Region) : Prop where
  its : rf.regIts = rt.regIts
  args : ityShapeList rf.regArgs = ityShapeList rt.regArgs
  regs : ityShapeList rf.regRegs = ityShapeList rt.regRegs
  instf : FieldInst T rf.regIts rf.regArgs rf.regRegs tf
  instt : FieldInst T rf.regIts rt.regArgs rt.regRegs tt
  mutable : ∀ f, (fs.lookup f).isSome → f ∈ (T rf.regIts).itsMfields
  rexpf : regRexp T rf [] = .ok l1
  rexpt : regRexp T rt fs = .ok l2

namespace Matched

variable {rf rt : Region} {fs : FieldTypes} {tf tt : PvSymbol → Ity} {l1 l2 : List Region}

section

variable (h : Matched T rf rt fs tf tt l1 l2)
include h

theorem listf :
    l1.reverse = ((T rf.regIts).itsMfields.flatMap fun f => ityExpRegs T (tf f)) ++
      flagged (·.itsFixed) (ityExpRegs T) (flagsOf T rf.regIts) (rf.regArgs ++ rf.regRegs) :=
  (regRexp_ok h.instf h.rexpf).1

theorem listt :
    (l2.reverse = ((T rf.regIts).itsMfields.flatMap fun f => ityExpRegs T (newType fs tt f)) ++
        flagged (·.itsFixed) (ityExpRegs T) (flagsOf T rf.regIts) (rt.regArgs ++ rt.regRegs)) ∧
      ∀ f ∈ (T rf.regIts).itsMfields, ityShape (tt f) = ityShape (newType fs tt f) := by
  have hinst := h.instt
  rw [h.its] at hinst ⊢
  exact regRexp_ok hinst h.rexpt

theorem newType_immutable (hf : f ∉ (T rf.regIts).itsMfields) : newType fs tt f = tt f := by
  have hnone : fs.lookup f = none := by
    cases hfs : fs.lookup f with
    | none => rfl
    | some t => exact absurd (h.mutable f (by rw [hfs]; rfl)) hf
  rw [newType, hnone, Option.getD_none]

theorem field_shape (hf : f ∈ itsFields T rf.regIts)
    : ityShape (tf f) = ityShape (newType fs tt f) := by
  have hshape := (h.instf.field h.instt h.args h.regs hf).1
  by_cases hm : f ∈ (T rf.regIts).itsMfields
  · exact hshape.trans (h.listt.2 f hm)
  · rw [h.newType_immutable hm, hshape]

theorem components_shape :
    (rf.regArgs ++ rf.regRegs).map ityShape = (rt.regArgs ++ rt.regRegs).map ityShape := by
  rw [map_append, map_append, ← ityShapeList_eq_map, ← ityShapeList_eq_map,
    ← ityShapeList_eq_map, ← ityShapeList_eq_map, h.args, h.regs]

theorem regs_shape :
    l1.map regShape = l2.map regShape := by
  apply reverse_injective
  rw [← map_reverse, ← map_reverse, h.listf, h.listt.1, map_append, map_append,
    map_flatMap, map_flatMap]
  congr 1
  · refine flatMap_congr fun f hf => ?_
    rw [← ityExpRegs_shape, ← ityExpRegs_shape, h.field_shape (mem_append_left _ hf)]
  · rw [← flagged_map fun t _ => ityExpRegs_shape t, ← flagged_map fun t _ => ityExpRegs_shape t,
      h.components_shape]

theorem length : l1.length = l2.length := by
  simpa using congrArg List.length h.regs_shape

theorem shape_of_mem {x : Region × Region} (hx : x ∈ l1.zip l2) : regShape x.1 = regShape x.2 := by
  obtain ⟨i, hi, rfl⟩ := getElem_of_mem hx
  have hget := getElem_of_eq h.regs_shape (by simp at hi ⊢; exact hi.1)
  simpa using hget

/-- The regions of a field before the assignments stand beside those after. -/
theorem field_pairs (hf : f ∈ itsFields T rf.regIts) {x : Region × Region}
    (hx : x ∈ (ityExpRegs T (tf f)).zip (ityExpRegs T (newType fs tt f))) : x ∈ l1.zip l2 := by
  have hlen : ∀ g ∈ (T rf.regIts).itsMfields,
      (ityExpRegs T (tf g)).length = (ityExpRegs T (newType fs tt g)).length :=
    fun g hg => length_ityExpRegs (h.field_shape (mem_append_left _ hg))
  have hlen' : ((T rf.regIts).itsMfields.flatMap fun f => ityExpRegs T (tf f)).length =
      ((T rf.regIts).itsMfields.flatMap fun f => ityExpRegs T (newType fs tt f)).length := by
    rw [length_flatMap, length_flatMap, map_congr_left hlen]
  rw [← Zip.mem_zip_reverse h.length, h.listf, h.listt.1, zip_append hlen', mem_append,
    Zip.mem_zip_flatMap hlen]
  by_cases hm : f ∈ (T rf.regIts).itsMfields
  · exact .inl ⟨f, hm, hx⟩
  · rw [h.newType_immutable hm] at hx
    have ho : f ∈ (T rf.regIts).itsOfields := (mem_append.mp hf).resolve_left hm
    exact .inr ((h.instf.field h.instt h.args h.regs hf).2 _ (h.instf.flags.fixed f ho) x hx)

/-- What the first region exposes stands beside a region under the second. -/
theorem exists_pair (hr : r ∈ regExpRegs T rf) :
    ∃ r', (r, r') ∈ l1.zip l2 := by
  have hmem := mem_regRexp_nil h.instf h.rexpf hr
  obtain ⟨i, hi, rfl⟩ := getElem_of_mem hmem
  have hi' : i < l2.length := h.length ▸ hi
  exact ⟨l2[i], mem_iff_getElem.mpr ⟨i, by simp [hi, hi'], by simp⟩⟩

/-- A region under the second is exposed by it or by the type of an assigned value. -/
theorem mem_listt (hr : r ∈ l2) :
    r ∈ regExpRegs T rt ∨ ∃ f t, fs.lookup f = some t ∧ r ∈ ityExpRegs T t := by
  have hinst := h.instt
  rw [h.its] at hinst
  have hflags := hinst.flags
  rw [← mem_reverse, h.listt.1, mem_append, h.its] at hr
  cases hr with
  | inl hr =>
    obtain ⟨f, hf, hr⟩ := mem_flatMap.mp hr
    rw [newType] at hr
    cases hfs : fs.lookup f with
    | none =>
      rw [hfs] at hr
      exact .inl (hinst.expRegs_field (mem_append_left _ hf) r hr)
    | some t =>
      rw [hfs] at hr
      exact .inr ⟨f, t, hfs, hr⟩
  | inr hr =>
    left
    obtain ⟨⟨x, u⟩, hc, hr⟩ := mem_flatMap.mp hr
    split at hr
    next hfixed =>
      obtain ⟨leaf, hx, hu⟩ := Zip.exists_key (length_flagsOf hflags) hc
      obtain ⟨y, hy, hyexp⟩ :=
        ((hflags.exposed leaf).mpr (.inl (hasFlag_of_mem hflags hx hfixed))).mem_zip
      rw [hinst.regExpRegs_eq]
      refine mem_flatMap.mpr ⟨(y, u), Zip.mem_of_keys hflags.nodup hy hu, ?_⟩
      rwa [if_pos hyexp]
    next => cases hr

end

end Matched

end Mlw
end Why3
