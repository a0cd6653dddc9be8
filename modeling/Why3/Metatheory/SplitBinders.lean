import Why3.Metatheory.SplitConnectives
import Why3.Semantics.Typing

/-!
Goal splitting below bindings.

The truth values of an interpretation are a valuation for the connectives. Below
a `let`, a quantifier and the branches of a match the parts of the result are
closed again with the same binding.
-/
namespace Why3

open M
open Interp (holds select_of sem semBranches val)

/-! Maps on the parts of a result, for a family of valuations. -/

section Map

variable {ι : Type} {h : Term → Prop} {g : ι → Term → Prop} {f : Term → Term} {m : Monoid}

/-- A family of valuations is evaluated at each index. -/
theorem eval_family {op : Prop → Prop → Prop} {u : Prop} (i : ι) (m : Monoid) :
    eval (fun x y i => op (x i) (y i)) (fun _ => u) (fun t i => g i t) m i = eval op u (g i) m := by
  cases m with
  | zero t | unit => rfl
  | comb c =>
    simp only [eval]
    induction c with
    | base t => rfl
    | op a b iha ihb => simp only [evalComb, iha, ihb]

/-- A binding is closed over each part and keeps the zeros. -/
theorem conj_close [Nonempty ι] (hv : Valuation h) (hg : ∀ i, Valuation (g i))
    (hm : ZeroOf IsFalse m) (hf : ∀ t, h (f t) ↔ ∀ i, g i t) :
    conj h (map .zero f m) ↔ ∀ i, conj (g i) m := by
  have hzero : ∀ t, m = .zero t → h t = ∀ i, g i t := fun t ht =>
    propext (iff_of_false (hv.false (hm t ht)) fun hall =>
      (hg _).false (hm t ht) (hall (Classical.arbitrary ι)))
  refine (iff_of_eq (eval_map (h := fun t i => g i t) (fun p => ∀ i, p i)
    (fun t _ => propext (hf t)) (fun x y => propext forall_and) (propext (forall_const ι)) hzero)).trans ?_
  exact forall_congr' fun i => iff_of_eq (eval_family i m)

theorem disj_close [Nonempty ι] (hv : Valuation h) (hg : ∀ i, Valuation (g i))
    (hm : ZeroOf IsTrue m) (hf : ∀ t, h (f t) ↔ ∃ i, g i t) :
    disj h (map .zero f m) ↔ ∃ i, disj (g i) m := by
  have hzero : ∀ t, m = .zero t → h t = ∃ i, g i t := fun t ht =>
    propext (iff_of_true (hv.true (hm t ht)) ⟨Classical.arbitrary ι, (hg _).true (hm t ht)⟩)
  refine (iff_of_eq (eval_map (h := fun t i => g i t) (fun p => ∃ i, p i)
    (fun t _ => propext (hf t)) (fun x y => propext exists_or) (propext (exists_const ι)) hzero)).trans ?_
  exact exists_congr fun i => iff_of_eq (eval_family i m)

end Map

section Interp

variable {C : AlgSig} {D : Type} {I : Interp C D} {ρ : VSymbol → D} {β : List D}

theorem formulaVal_holds : FormulaVal (I.holds ρ β) where
  false := by
    rintro _ ⟨a, rfl⟩
    exact id
  true := by
    rintro _ ⟨a, rfl⟩
    trivial
  attrs a t := by rw [holds, I.sem_setAttrs, holds]
  and a f g := Iff.rfl
  or a f g := Iff.rfl
  imp a f g := Iff.rfl
  iff a f g := Iff.rfl
  not a f := Iff.rfl
  cond a f g k := by
    rw [holds, sem]
    by_cases hc : (I.sem ρ β f).2
    · rw [select_of hc]
      simp [holds, hc]
    · rw [Interp.select_of_not hc]
      simp [holds, hc]

theorem valuation_holds (I : Interp C D) (ρ : VSymbol → D) (β : List D) : Valuation (I.holds ρ β) :=
  formulaVal_holds.toValuation

variable {Q : CaseCond} {d : D} {x y : D × Prop} {b : SplitBranch} {c : Term}

/-- A well-typed formula has no value. -/
theorem sem_fst_of_formula (t : Term) :
    ∀ Γ β, WellTyped C Q Γ t → t.tTy = none → (I.sem ρ β t).1 = I.junk := by
  induction t using Term.induct with
  | tapp a ls tl ty ih =>
    intro Γ β _ hty
    cases hty
    rfl
  | tif a f t e hf ht he =>
    intro Γ β ⟨_, hwt, hwe, heq⟩ hty
    rw [sem]
    by_cases hc : (I.sem ρ β f).2
    · rw [select_of hc]
      exact ht Γ β hwt hty
    · rw [Interp.select_of_not hc]
      exact he Γ β hwe (heq ▸ hty)
  | tlet a t v e ht he => exact fun Γ β hw hty => he _ _ hw.2 hty
  | tcase a t bl ht hbl =>
    intro Γ β ⟨_, _, ⟨_, htys⟩, hwb⟩ hty
    rw [wellTypedBranches_iff] at hwb
    rw [sem]
    by_cases hm : ∃ b ∈ bl, I.patOk b.1 (I.sem ρ β t).1 = true
    · obtain ⟨b, hb, -, he⟩ := Interp.semBranches_eq ρ β (I.junk, False) hm
      rw [he]
      exact hbl b hb _ _ (hwb b hb) ((htys b hb).trans hty)
    · rw [Interp.semBranches_of_not hm]
  | tquant a q vl tr f htr hf => intro Γ β _ _; cases q <;> rfl
  | tbinop a op f g hf hg => intro Γ β _ _; cases op <;> rfl
  | tnot a f hf | ttrue a | tfalse a => exact fun Γ β _ _ => rfl
  | _ => intro Γ β _ hty; cases hty

theorem dropBysoList_eq_map (tl : List Term) : dropBysoList tl = tl.map dropByso :=
  ListRec.eq_map rfl (fun _ _ => rfl) tl

theorem dropBysoBranches_eq_map (bl : List (Pattern × Term)) :
    dropBysoBranches bl = bl.map fun b => (b.1, dropByso b.2) :=
  ListRec.eq_map rfl (fun _ _ => rfl) bl

variable {f : Term}

theorem orTrue_iff : orTrue f = true ↔ ∃ a b g, f = .tbinop a .tor g (.ttrue b) := by
  constructor
  · intro h
    unfold orTrue at h
    split at h
    · exact ⟨_, _, _, rfl⟩
    · cases h
  · rintro ⟨a, b, g, rfl⟩
    rfl

/-- `by` and `so` say nothing about the truth of a formula. -/
theorem sem_dropByso (t : Term) :
    ∀ Γ β, WellTyped C Q Γ t → I.sem ρ β (dropByso t) = I.sem ρ β t := by
  induction t using Term.induct with
  | tapp a ls tl ty ih =>
    intro Γ β hw
    obtain ⟨htl, -, -⟩ := hw
    rw [wellTypedList_iff] at htl
    have hargs : (tl.map dropByso).map (I.val ρ β) = tl.map (I.val ρ β) := by
      rw [List.map_map]
      apply List.map_congr_left
      intro t ht
      rw [Function.comp_apply, val, ih t ht Γ β (htl t ht), val]
    cases ty <;> simp only [dropByso, dropBysoList_eq_map, sem, Interp.semList_eq_map, hargs]
  | tif a f t e hf ht he =>
    rintro Γ β ⟨⟨hwf, _⟩, hwt, hwe, _⟩
    simp only [dropByso, sem, hf Γ β hwf, ht Γ β hwt, he Γ β hwe]
  | tlet a t v e ht he =>
    rintro Γ β ⟨⟨hwt, _⟩, hwe⟩
    simp only [dropByso, sem, ht Γ β hwt, he _ _ hwe]
  | tcase a t bl ht hbl =>
    intro Γ β hw
    obtain ⟨hwt, -, -, hwb⟩ := hw
    rw [wellTypedBranches_iff] at hwb
    simp only [dropByso, sem, ht Γ β hwt, dropBysoBranches_eq_map]
    induction bl with
    | nil => rfl
    | cons b bl ih =>
      simp only [List.map_cons, semBranches]
      rw [hbl b List.mem_cons_self _ _ (hwb b List.mem_cons_self),
        ih (fun b' hb' => hbl b' (List.mem_cons_of_mem b hb'))
          (fun b' hb' => hwb b' (List.mem_cons_of_mem b hb'))]
  | teps a v f hf =>
    rintro Γ β ⟨hwf, _⟩
    simp only [dropByso, sem, fun d => hf _ (d :: β) hwf]
  | tquant a q vl tr f htr hf =>
    rintro Γ β ⟨hwf, _⟩
    cases q <;> simp only [dropByso, sem, fun ds => hf _ (ds ++ β) hwf]
  | tbinop a op f g hf hg =>
    rintro Γ β ⟨⟨hwf, hfty⟩, hwg, hgty⟩
    have hf' := hf Γ β hwf
    have hg' := hg Γ β hwg
    cases op with
    | timplies =>
      rw [dropByso]
      split
      · rename_i hor
        obtain ⟨b, c, k, rfl⟩ := orTrue_iff.mp hor
        rw [hg']
        exact Prod.ext (sem_fst_of_formula g Γ β hwg hgty) (by simp [sem])
      · simp only [sem, hf', hg']
    | tand =>
      rw [dropByso]
      split
      · rename_i hor
        obtain ⟨b, c, k, rfl⟩ := orTrue_iff.mp hor
        rw [hf']
        exact Prod.ext (sem_fst_of_formula f Γ β hwf hfty) (by simp [sem])
      · simp only [sem, hf', hg']
    | tor | tiff => simp only [dropByso, sem, hf', hg']
  | tnot a f hf =>
    rintro Γ β ⟨hwf, _⟩
    simp only [dropByso, sem, hf Γ β hwf]
  | _ => exact fun Γ β _ => rfl

theorem holds_dropByso {Γ : List Ty} (hf : WellTyped C Q Γ f) :
    I.holds ρ β (dropByso f) ↔ I.holds ρ β f := by
  rw [holds, sem_dropByso f Γ β hf, holds]

/-! `let` and quantifiers. -/

section Quant

variable {byso : Bool} {phys : Term → Term → Bool} {a : Attrs} {f : Term} {sf : SplitRet}

theorem holds_alias1 (hphys : ∀ {s t}, phys s t = true → s = t) (a : Attrs) (f1 : Term)
    (op : Term → Term) (g : Term) :
    I.holds ρ β (alias1 phys ((op f1).setAttrs a) f1 op g) ↔ I.holds ρ β (op g) := by
  rw [alias1]
  split
  · rename_i hc
    rw [hphys hc]
    exact formulaVal_holds.attrs _ _
  · exact formulaVal_holds.attrs _ _

theorem splitLet_shape {t : Term} {v : VSymbol} {f1 : Term} (s : SplitShape byso sf) :
    SplitShape byso (splitLet phys f t v f1 sf) := by
  refine ⟨ZeroOf.map_zero s.pos, ZeroOf.map_zero s.neg, ZeroOf.map_zero s.side, fun hb => ?_⟩
  simp only [splitLet, s.unit hb, map]

theorem splitLet_sound (hphys : ∀ {s t}, phys s t = true → s = t) {t : Term} {v : VSymbol}
    (s : SplitShape byso sf)
    (h : SplitSound byso (I.holds ρ (I.val ρ β t :: β)) (I.holds ρ (I.val ρ β t :: β) f) sf) :
    SplitSound byso (I.holds ρ β) (I.holds ρ β (.tlet a t v f))
      (splitLet phys (.tlet a t v f) t v f sf) := by
  have hclose : ∀ g, I.holds ρ β (alias1 phys (.tlet a t v f) f (.tlet ∅ t v) g) ↔
      I.holds ρ (I.val ρ β t :: β) g := fun g => holds_alias1 hphys a f (.tlet ∅ t v) g
  have hconj : ∀ {m}, ZeroOf IsFalse m →
      (conj (I.holds ρ β) (map .zero (alias1 phys (.tlet a t v f) f (.tlet ∅ t v)) m) ↔
        conj (I.holds ρ (I.val ρ β t :: β)) m) := by
    intro m hm
    rw [conj_close (g := fun _ : Unit => I.holds ρ (I.val ρ β t :: β)) formulaVal_holds.toValuation
      (fun _ => formulaVal_holds.toValuation) hm fun g => (hclose g).trans (by simp)]
    simp
  refine h.transfer Iff.rfl (hconj s.side) (hconj s.pos) ?_ (hclose _) (hclose _)
  rw [splitLet, disj_close (g := fun _ : Unit => I.holds ρ (I.val ρ β t :: β))
    formulaVal_holds.toValuation (fun _ => formulaVal_holds.toValuation) s.neg
    fun g => (hclose g).trans (by simp)]
  simp

/-- The values that a quantifier ranges over. -/
def Assignment (I : Interp C D) (vl : List VSymbol) : Type :=
  { ds : List D // List.Forall₂ (fun v d => I.dom v.vsTy d) vl ds }

instance (vl : List VSymbol) : Nonempty (Assignment I vl) := by
  refine ⟨⟨vl.map fun v => I.witness v.vsTy, ?_⟩⟩
  rw [List.forall₂_map_right_iff, List.forall₂_same]
  exact fun v _ => I.witness_dom v.vsTy

theorem splitQuant_shape {q : Quant} {vl : List VSymbol} {tr : List (List Term)} {f1 : Term}
    (s : SplitShape byso sf) : SplitShape byso (splitQuant phys f q vl tr f1 sf) := by
  have hunit : byso = false → map .zero (.tquant ∅ .tforall vl tr) sf.side = .unit := by
    intro hb
    rw [s.unit hb, map]
  cases q with
  | tforall => exact ⟨ZeroOf.map_zero s.pos, zeroOf_inject _, ZeroOf.map_zero s.side, hunit⟩
  | texists => exact ⟨zeroOf_inject _, ZeroOf.map_zero s.neg, ZeroOf.map_zero s.side, hunit⟩

theorem splitQuant_sound (hphys : ∀ {s t}, phys s t = true → s = t) {q : Quant}
    {vl : List VSymbol} {tr : List (List Term)} (s : SplitShape byso sf)
    (h : ∀ ds : Assignment I vl,
      SplitSound byso (I.holds ρ (ds.1 ++ β)) (I.holds ρ (ds.1 ++ β) f) sf) :
    SplitSound byso (I.holds ρ β) (I.holds ρ β (.tquant a q vl tr f))
      (splitQuant phys (.tquant a q vl tr f) q vl tr f sf) := by
  have hv : ∀ β : List D, Valuation (I.holds ρ β) := fun β => formulaVal_holds.toValuation
  have hall : ∀ b g, I.holds ρ β (.tquant b .tforall vl tr g) ↔
      ∀ ds : Assignment I vl, I.holds ρ (ds.1 ++ β) g :=
    fun b g => ⟨fun hg ds => hg ds.1 ds.2, fun hg ds hds => hg ⟨ds, hds⟩⟩
  have hex : ∀ b g, I.holds ρ β (.tquant b .texists vl tr g) ↔
      ∃ ds : Assignment I vl, I.holds ρ (ds.1 ++ β) g :=
    fun b g => ⟨fun h => h.elim fun ds h => ⟨⟨ds, h.1⟩, h.2⟩,
      fun h => h.elim fun ds h => ⟨ds.1, ds.2, h⟩⟩
  have hside := conj_close (hv β) (fun ds : Assignment I vl => hv (ds.1 ++ β)) s.side (hall ∅)
  cases q with
  | tforall =>
    have hclose : ∀ g, I.holds ρ β (alias1 phys (.tquant a .tforall vl tr f) f
        (.tquant ∅ .tforall vl tr) g) ↔ ∀ ds : Assignment I vl, I.holds ρ (ds.1 ++ β) g :=
      fun g => (holds_alias1 hphys a f (.tquant ∅ .tforall vl tr) g).trans (hall ∅ g)
    have hpos := conj_close (hv β) (fun ds : Assignment I vl => hv (ds.1 ++ β)) s.pos hclose
    constructor
    all_goals simp only [splitQuant, hside, hpos, hall, hclose, disj_inject]
    · exact fun hs hp ds => (h ds).pos (hs ds) (hp ds)
    · exact fun hs hp ds => (h ds).fwd (hs ds) (hp ds)
    · exact fun hs hp ds => (h ds).bwd (hs ds) (hp ds)
    · exact fun hs hp ds => (h ds).fwd (hs ds) (hp ds)
    · exact fun he => forall_congr' fun ds => (h ds).exactPos he
    · exact fun he => forall_congr' fun ds => (h ds).exactFwd he
    · exact fun he => forall_congr' fun ds => (h ds).exactBwd he
    · exact fun he => forall_congr' fun ds => (h ds).exactFwd he
  | texists =>
    have hclose : ∀ g, I.holds ρ β (alias1 phys (.tquant a .texists vl tr f) f
        (.tquant ∅ .texists vl tr) g) ↔ ∃ ds : Assignment I vl, I.holds ρ (ds.1 ++ β) g :=
      fun g => (holds_alias1 hphys a f (.tquant ∅ .texists vl tr) g).trans (hex ∅ g)
    have hneg := disj_close (hv β) (fun ds : Assignment I vl => hv (ds.1 ++ β)) s.neg hclose
    constructor
    all_goals simp only [splitQuant, hside, hneg, hex, hclose, conj_inject]
    · exact fun hs => Exists.imp fun ds => (h ds).bwd (hs ds)
    · exact fun hs => Exists.imp fun ds => (h ds).neg (hs ds)
    · exact fun hs => Exists.imp fun ds => (h ds).bwd (hs ds)
    · exact fun hs => Exists.imp fun ds => (h ds).fwd (hs ds)
    · exact fun he => exists_congr fun ds => (h ds).exactBwd he
    · exact fun he => exists_congr fun ds => (h ds).exactNeg he
    · exact fun he => exists_congr fun ds => (h ds).exactBwd he
    · exact fun he => exists_congr fun ds => (h ds).exactFwd he

end Quant

/-! Matches that are not compiled. -/

theorem semBranches_append {l m : List (Pattern × Term)} :
    I.semBranches ρ β d x (l ++ m) = I.semBranches ρ β d (I.semBranches ρ β d x m) l := by
  induction l with
  | nil => rfl
  | cons b l ih => rw [List.cons_append, semBranches, ih, semBranches]

/-- The branch that a value selects. -/
def selected (I : Interp C D) (d : D) (sbl : List SplitBranch) : Option SplitBranch :=
  sbl.find? fun b => I.patOk b.1 d

theorem selected_mem {sbl : List SplitBranch}
    (hb : selected I d sbl = some b) : b ∈ sbl ∧ I.patOk b.1 d = true := by
  exact ⟨List.mem_of_find?_eq_some hb, by simpa using List.find?_some hb⟩

theorem semBranches_selected (g : SplitBranch → Term) {sbl : List SplitBranch}
    (hb : selected I d sbl = some b) : I.semBranches ρ β d x (sbl.map fun b => (b.1, g b)) =
      I.sem ρ (I.patVals b.1 d ++ β) (g b) := by
  induction sbl with
  | nil => cases hb
  | cons c sbl ih =>
    rw [selected, List.find?_cons] at hb
    rw [List.map_cons, semBranches]
    cases hc : I.patOk c.1 d with
    | true =>
      simp only [hc, Option.some.injEq] at hb
      rw [hb, if_pos rfl]
    | false =>
      simp only [hc] at hb
      exact ih hb

/-- Branches that are all the same formula without indices. -/
theorem semBranches_const (hc : ∀ β, I.sem ρ β c = y) {bl : List (Pattern × Term)}
    (hbl : ∀ b ∈ bl, b.2 = c)
    (hm : ∃ b ∈ bl, I.patOk b.1 d = true) : I.semBranches ρ β d x bl = y := by
  obtain ⟨b, hb, -, he⟩ := Interp.semBranches_eq ρ β x hm
  rw [he, hbl b hb, hc]

section Case

variable {byso : Bool} {phys : Term → Term → Bool} {a : Attrs} {t : Term}
  {sbl : List SplitBranch}

/-- The branch `p` is selected by `d` after the branches `bf`. -/
def Selects (I : Interp C D) (d : D) (bf : List (Pattern × Term)) (p : Pattern) : Prop :=
  (∀ b ∈ bf, I.patOk b.1 d = false) ∧ I.patOk p d = true

theorem sem_zip (β : List D) (hc : ∀ β, I.sem ρ β c = y) {bf af : List (Pattern × Term)}
    (hbf : ∀ b ∈ bf, b.2 = c) (haf : ∀ b ∈ af, b.2 = c) {p : Pattern}
    (hm : (∃ b ∈ bf, I.patOk b.1 d = true) ∨ I.patOk p d = true ∨
      ∃ b ∈ af, I.patOk b.1 d = true) (mid : Term) :
    (Selects I d bf p → I.semBranches ρ β d x (bf ++ (p, mid) :: af) =
        I.sem ρ (I.patVals p d ++ β) mid) ∧
      (¬ Selects I d bf p → I.semBranches ρ β d x (bf ++ (p, mid) :: af) = y) := by
  rw [semBranches_append]
  by_cases hbm : ∃ b ∈ bf, I.patOk b.1 d = true
  · rw [semBranches_const hc hbf hbm]
    obtain ⟨b, hb, hok⟩ := hbm
    exact ⟨fun hsel => absurd hok (by simp [hsel.1 b hb]), fun _ => rfl⟩
  · rw [Interp.semBranches_of_not hbm, semBranches]
    have hno : ∀ b ∈ bf, I.patOk b.1 d = false := by
      intro b hb
      by_contra hok
      exact hbm ⟨b, hb, by simpa using hok⟩
    by_cases hp : I.patOk p d = true
    · rw [if_pos hp]
      exact ⟨fun _ => rfl, fun hsel => absurd ⟨hno, hp⟩ hsel⟩
    · rw [if_neg hp]
      refine ⟨fun hsel => absurd hsel.2 hp, fun _ => ?_⟩
      exact semBranches_const hc haf ((hm.resolve_left hbm).resolve_left hp)

/-- Whether the branch `b` or one of `bf` is selected, `f` and the unit `c` being as in
`zipAll`. -/
theorem holds_zip (mid : Term) (hc : ∀ β, I.sem ρ β c = y) {bf : List (Pattern × Term)}
    (hbf : ∀ b ∈ bf, b.2 = c) (hm : (∃ b ∈ bf, I.patOk b.1 (I.val ρ β t) = true) ∨
      ∃ b' ∈ b :: sbl, I.patOk b'.1 (I.val ρ β t) = true) :
    (Selects I (I.val ρ β t) bf b.1 →
        (I.holds ρ β (tAttrCopy f (.tcase ∅ t (bf.reverse ++ (b.1, mid) ::
          sbl.map fun b => (b.1, c)))) ↔ I.holds ρ (I.patVals b.1 (I.val ρ β t) ++ β) mid)) ∧
      (¬ Selects I (I.val ρ β t) bf b.1 →
        (I.holds ρ β (tAttrCopy f (.tcase ∅ t (bf.reverse ++ (b.1, mid) ::
          sbl.map fun b => (b.1, c)))) ↔ y.2)) := by
  have hrev : Selects I (I.val ρ β t) bf.reverse b.1 ↔ Selects I (I.val ρ β t) bf b.1 := by
    simp [Selects]
  have hbf' : ∀ b ∈ bf.reverse, b.2 = c := fun b hb => hbf b (List.mem_reverse.mp hb)
  have haf : ∀ b ∈ sbl.map fun b => (b.1, c), b.2 = c := by simp +contextual
  obtain ⟨hsel, hnot⟩ := sem_zip β (x := (I.junk, False)) (p := b.1) (d := I.val ρ β t) hc hbf' haf
    (by simpa using hm) mid
  rw [tAttrCopy, formulaVal_holds.attrs, holds, sem, ← val]
  refine ⟨fun hs => ?_, fun hs => ?_⟩
  · rw [hsel (hrev.mpr hs), holds]
  · rw [hnot (hrev.not.mpr hs)]

theorem zeroOf_zipAll {K : Term → Prop} (g : SplitRet → Monoid) :
    ∀ bf, ZeroOf K (zipAll f t g c bf sbl) := by
  induction sbl with
  | nil => exact fun bf => zeroOf_unit
  | cons b sbl ih => exact fun bf => zeroOf_map_inject.law (ih _)

/-- Of the parts that `zipAll` combines, all but those of the selected branch have the value
of the unit. -/
theorem eval_zipAll {op : Prop → Prop → Prop} {u z : Prop} (hzl : ∀ x, op z x = z)
    (hzr : ∀ x, op x z = z) (hul : ∀ x, op u x = x) (hur : ∀ x, op x u = x)
    (hc : ∀ β, I.sem ρ β c = (I.junk, u)) (g : SplitRet → Monoid) (bf : List (Pattern × Term))
    (hbf : ∀ b ∈ bf, b.2 = c) (hm : (∃ b ∈ bf, I.patOk b.1 (I.val ρ β t) = true) ∨
      ∃ b ∈ sbl, I.patOk b.1 (I.val ρ β t) = true) :
    ((∃ b ∈ bf, I.patOk b.1 (I.val ρ β t) = true) →
      eval op u (I.holds ρ β) (zipAll f t g c bf sbl) = u) ∧
    ((∀ b ∈ bf, I.patOk b.1 (I.val ρ β t) = false) →
      ∀ b, selected I (I.val ρ β t) sbl = some b →
        eval op u (I.holds ρ β) (zipAll f t g c bf sbl) =
          eval op u (I.holds ρ (I.patVals b.1 (I.val ρ β t) ++ β)) (g b.2.2)) := by
  induction sbl generalizing bf with
  | nil => exact ⟨fun _ => rfl, fun _ _ => nofun⟩
  | cons b sbl ih =>
    obtain ⟨p, e, sf⟩ := b
    have hzip := fun mid => holds_zip mid (f := f) hc hbf (b := (p, e, sf)) hm
    obtain ⟨hseen, hlater⟩ := ih ((p, c) :: bf) (by simpa using hbf) (by
      simp only [List.mem_cons, exists_eq_or_imp] at hm ⊢
      exact or_assoc.mpr (or_left_comm.mp hm))
    have hnot (hs : ¬ Selects I (I.val ρ β t) bf p) :
        eval op u (I.holds ρ β) (zipAll f t g c bf ((p, e, sf) :: sbl)) =
          eval op u (I.holds ρ β) (zipAll f t g c ((p, c) :: bf) sbl) := by
      rw [zipAll]
      rw [eval_law hzl hzr hul hur zeroOf_map_inject (zeroOf_zipAll g _),
        eval_map_inject (h := fun _ => u) fun mid => propext ((hzip mid).2 hs),
        eval_const (hul u), hul]
    refine ⟨fun hb => ?_, fun hno b hb => ?_⟩
    · obtain ⟨b, hb, hok⟩ := hb
      rw [hnot fun hs => by simp [hs.1 b hb] at hok]
      exact hseen ⟨b, List.mem_cons_of_mem _ hb, hok⟩
    · cases hp : I.patOk p (I.val ρ β t) with
      | true =>
        simp only [selected, List.find?_cons, hp] at hb
        cases hb
        rw [zipAll]
        rw [eval_law hzl hzr hul hur zeroOf_map_inject (zeroOf_zipAll g _),
          eval_map_inject fun mid => propext ((hzip mid).1 ⟨hno, hp⟩),
          hseen ⟨(p, c), List.mem_cons_self, hp⟩, hur]
      | false =>
        simp only [selected, List.find?_cons, hp] at hb
        rw [hnot fun hs => by simp [hs.2] at hp]
        exact hlater (List.forall_mem_cons.mpr ⟨hp, hno⟩) b hb

theorem holds_caseClose (hphys : ∀ {s t}, phys s t = true → s = t) (g : SplitRet → Term)
    (hb : selected I (I.val ρ β t) sbl = some b) :
    I.holds ρ β (caseClose phys (.tcase a t (sbl.map fun b => (b.1, b.2.1))) t g sbl) ↔
      I.holds ρ (I.patVals b.1 (I.val ρ β t) ++ β) (g b.2.2) := by
  rw [caseClose]
  split
  · rename_i hall
    rw [List.all_eq_true] at hall
    rw [holds, sem, ← val,
      semBranches_selected (fun b => b.2.1) hb, hphys (hall b (selected_mem hb).1),
      holds]
  · rw [tAttrCopy, formulaVal_holds.attrs, holds, sem, ← val,
      semBranches_selected (fun b => g b.2.2) hb, holds]

theorem splitCase_shape (s : ∀ b ∈ sbl, SplitShape byso b.2.2) :
    SplitShape byso (splitCase phys f t sbl) := by
  refine ⟨zeroOf_zipAll _ _, zeroOf_zipAll _ _, zeroOf_zipAll _ _, fun hb => ?_⟩
  have hunit : ∀ bf, zipAll f t SplitRet.side tTrue bf sbl = .unit := by
    induction sbl with
    | nil => exact fun bf => rfl
    | cons b sbl ih =>
      intro bf
      rw [zipAll, (s b List.mem_cons_self).unit hb]
      simp only [map, ih (List.forall_mem_cons.mp s).2, law]
  exact hunit []

/-- The parts of a match have the values of the parts of the selected branch. -/
theorem splitCase_sound (hphys : ∀ {s t}, phys s t = true → s = t)
    (hb : selected I (I.val ρ β t) sbl = some b)
    (h : SplitSound byso (I.holds ρ (I.patVals b.1 (I.val ρ β t) ++ β))
      (I.holds ρ (I.patVals b.1 (I.val ρ β t) ++ β) b.2.1) b.2.2) :
    SplitSound byso (I.holds ρ β) (I.holds ρ β (.tcase a t (sbl.map fun b => (b.1, b.2.1))))
      (splitCase phys (.tcase a t (sbl.map fun b => (b.1, b.2.1))) t sbl) := by
  have hm : (∃ b ∈ ([] : List (Pattern × Term)), I.patOk b.1 (I.val ρ β t) = true) ∨
      ∃ b ∈ sbl, I.patOk b.1 (I.val ρ β t) = true :=
    .inr ⟨b, selected_mem hb⟩
  have hconj : ∀ g f, conj (I.holds ρ β) (zipAll f t g tTrue [] sbl) ↔
      conj (I.holds ρ (I.patVals b.1 (I.val ρ β t) ++ β)) (g b.2.2) := fun g f =>
    iff_of_eq ((eval_zipAll (z := False) (by simp) (by simp) (by simp) (by simp) (fun _ => rfl) g []
      (by simp) hm).2 (by simp) b hb)
  refine h.transfer ?_ (hconj _ _) (hconj _ _) ?_ (holds_caseClose hphys _ hb)
    (holds_caseClose hphys _ hb)
  · rw [holds, sem, ← val, semBranches_selected (fun b => b.2.1) hb,
      holds]
  · exact iff_of_eq ((eval_zipAll (z := True) (by simp) (by simp) (by simp) (by simp)
      (fun _ => rfl) _ [] (by simp) hm).2 (by simp) b hb)

end Case

end Interp

end Why3
