import Why3.Metatheory.SplitMonoid

/-!
Goal splitting at the connectives.

One lemma for each propositional connective: the result that the source builds
from sound results for the subformulas is sound for the formula, and exact when
`by` and `so` are not split. The valuation of formulas is abstract.
-/
namespace Why3

open M

/-- A valuation that respects the connectives and ignores attributes. -/
structure FormulaVal (h : Term → Prop) : Prop extends Valuation h where
  attrs : ∀ a t, h (t.setAttrs a) ↔ h t
  and : ∀ a f g, h (.tbinop a .tand f g) ↔ h f ∧ h g
  or : ∀ a f g, h (.tbinop a .tor f g) ↔ h f ∨ h g
  imp : ∀ a f g, h (.tbinop a .timplies f g) ↔ (h f → h g)
  iff : ∀ a f g, h (.tbinop a .tiff f g) ↔ (h f ↔ h g)
  not : ∀ a f, h (.tnot a f) ↔ ¬ h f
  cond : ∀ a f g k, h (.tif a f g k) ↔ (h f → h g) ∧ (¬ h f → h k)

/-- The result is sound for the formula, and exact without `by` and `so`. -/
structure SplitSound (byso : Bool) (h : Term → Prop) (φ : Prop) (r : SplitRet) : Prop where
  pos : conj h r.side → conj h r.pos → φ
  neg : conj h r.side → φ → disj h r.neg
  bwd : conj h r.side → h r.bwd → φ
  fwd : conj h r.side → φ → h r.fwd
  exactPos : byso = false → (conj h r.pos ↔ φ)
  exactNeg : byso = false → (disj h r.neg ↔ φ)
  exactBwd : byso = false → (h r.bwd ↔ φ)
  exactFwd : byso = false → (h r.fwd ↔ φ)

/-- The zeros have their values, and only `by` and `so` make side conditions. -/
structure SplitShape (byso : Bool) (r : SplitRet) : Prop where
  pos : ZeroOf IsFalse r.pos
  neg : ZeroOf IsTrue r.neg
  side : ZeroOf IsFalse r.side
  unit : byso = false → r.side = .unit

section

variable {byso : Bool} {h : Term → Prop} {φ φ1 φ2 φ3 : Prop} {r sf sf1 sf2 sf3 : SplitRet}
  {sp : Split} {phys : Term → Term → Bool}

theorem conj_unit : conj h .unit ↔ True := Iff.rfl

@[simp] theorem disj_unit : disj h .unit ↔ False := Iff.rfl

@[simp] theorem conj_inject (t : Term) : conj h (inject t) ↔ h t := Iff.rfl

@[simp] theorem disj_inject (t : Term) : disj h (inject t) ↔ h t := Iff.rfl

theorem bimapZero_unit (f_0 f : Term → Term → Term) (a : Monoid) :
    bimapZero f_0 f a .unit = .unit := by
  cases a <;> rfl

theorem SplitShape.conj_side (s : SplitShape byso r) (hb : byso = false) : conj h r.side := by
  rw [s.unit hb]
  trivial

/-- A result whose parts have the values of the parts of a sound one. -/
theorem SplitSound.transfer {h' : Term → Prop} {φ' : Prop} {r' : SplitRet}
    (hr : SplitSound byso h φ r) (hφ : φ' ↔ φ) (hside : conj h' r'.side ↔ conj h r.side)
    (hpos : conj h' r'.pos ↔ conj h r.pos) (hneg : disj h' r'.neg ↔ disj h r.neg)
    (hbwd : h' r'.bwd ↔ h r.bwd) (hfwd : h' r'.fwd ↔ h r.fwd) : SplitSound byso h' φ' r' := by
  constructor
  all_goals simp only [hside, hpos, hneg, hbwd, hfwd, hφ]
  · exact hr.pos
  · exact hr.neg
  · exact hr.bwd
  · exact hr.fwd
  · exact hr.exactPos
  · exact hr.exactNeg
  · exact hr.exactBwd
  · exact hr.exactFwd

/-- What a sound result gives when a decomposition or the formula itself is chosen. -/
theorem SplitSound.ncaset (hr : SplitSound byso h φ sf) (sp : Split) (bs : List Monoid) :
    (conj h sf.side → φ → disj h (ncaset sp bs sf).1) ∧
      (byso = false → (disj h (ncaset sp bs sf).1 ↔ φ)) := by
  rw [Why3.ncaset]
  split
  · exact ⟨hr.neg, hr.exactNeg⟩
  · exact ⟨hr.fwd, hr.exactFwd⟩

theorem SplitSound.pcaset (hr : SplitSound byso h φ sf) (sp : Split) (bs : List Monoid) :
    (conj h sf.side → conj h (pcaset sp bs sf).1 → φ) ∧
      (byso = false → (conj h (pcaset sp bs sf).1 ↔ φ)) := by
  rw [Why3.pcaset]
  split
  · exact ⟨hr.pos, hr.exactPos⟩
  · exact ⟨hr.bwd, hr.exactBwd⟩

theorem SplitShape.ncaset (hr : SplitShape byso sf) (sp : Split) (bs : List Monoid) :
    ZeroOf IsTrue (ncaset sp bs sf).1 := by
  rw [Why3.ncaset]
  split
  · exact hr.neg
  · exact zeroOf_inject _

theorem SplitShape.pcaset (hr : SplitShape byso sf) (sp : Split) (bs : List Monoid) :
    ZeroOf IsFalse (pcaset sp bs sf).1 := by
  rw [Why3.pcaset]
  split
  · exact hr.pos
  · exact zeroOf_inject _

variable {b : Monoid} {f1 f2 f : Term}

theorem ZeroOf.iclose {K : Term → Prop} {a : Monoid} (hb : ZeroOf K b) : ZeroOf K (iclose a b) :=
  hb.bimapZero

theorem ZeroOf.aclose {K : Term → Prop} {a : Monoid} (hb : ZeroOf K b) : ZeroOf K (aclose a b) :=
  hb.bimapZero

variable (hphys : ∀ {s t}, phys s t = true → s = t) (hv : FormulaVal h)

include hphys hv in
theorem holds_alias2 {a : Attrs} {op : Binop} (g1 g2 : Term) :
    h (alias2 phys (.tbinop a op f1 f2) f1 f2 (tBinary op) g1 g2) ↔ h (tBinary op g1 g2) := by
  rw [alias2]
  split
  · rename_i hc
    rw [Bool.and_eq_true] at hc
    rw [hphys hc.1, hphys hc.2]
    exact (hv.attrs ∅ (.tbinop a op g1 g2)).symm
  · exact hv.attrs _ _

include hv in
theorem conj_iclose {a : Monoid} (ha : ZeroOf IsTrue a) (hb : ZeroOf IsFalse b) :
    conj h (iclose a b) ↔ (disj h a → conj h b) :=
  conj_imp hv.toValuation (fun _ s => hv.not ∅ s) (fun s t => hv.imp ∅ s t) ha hb

include hv in
theorem disj_aclose {a : Monoid} (ha : ZeroOf IsTrue a) (hb : ZeroOf IsTrue b) :
    disj h (aclose a b) ↔ disj h a ∧ disj h b :=
  disj_and hv.toValuation (fun s t => hv.and ∅ s t) ha hb

include hv in
theorem disj_nclose {a : Monoid} (ha : ZeroOf IsFalse a) : disj h (nclose a) ↔ ¬ conj h a :=
  disj_map_not hv.toValuation ha (fun t => hv.not ∅ t) fun _ => hv.true ⟨_, rfl⟩

/-! A part that stands below another one only if the split is asymmetric. -/

variable {x y z : Monoid} (c : Bool)

include hv in
theorem conj_law_guard (hx : ZeroOf IsFalse x) (hy : ZeroOf IsFalse y) (hz : ZeroOf IsTrue z) :
    conj h (law x (if !c then y else iclose z y)) ↔
      conj h x ∧ ((c = true → disj h z) → conj h y) := by
  cases c with
  | false => simp [conj_law hv.toValuation hx hy]
  | true => simp [conj_law hv.toValuation hx hy.iclose, conj_iclose hv hz hy]

include hv in
theorem disj_law_guard (hx : ZeroOf IsTrue x) (hy : ZeroOf IsTrue y) (hz : ZeroOf IsTrue z) :
    disj h (law x (if !c then y else aclose z y)) ↔
      disj h x ∨ (c = true → disj h z) ∧ disj h y := by
  cases c with
  | false => simp [disj_law hv.toValuation hx hy]
  | true => simp [disj_law hv.toValuation hx hy.aclose, disj_aclose hv hz hy]

section

variable {a : Attrs} (h1 : SplitSound byso h φ1 sf1) (h2 : SplitSound byso h φ2 sf2)
  (s1 : SplitShape byso sf1) (s2 : SplitShape byso sf2)
include s1 s2

theorem splitAnd_shape : SplitShape byso (splitAnd phys sp f f1 f2 sf1 sf2) := by
  refine ⟨s1.pos.law ?_, (s2.ncaset sp []).bimapZero, s1.side.law ?_, ?_⟩
  · split
    · exact s2.pos
    · exact s2.pos.bimapZero
  · split
    · exact s2.side
    · exact s2.side.bimapZero
  · intro hb
    simp only [splitAnd, s1.unit hb, s2.unit hb, iclose, bimapZero_unit, ite_self, law]

include hphys hv h1 h2 in
theorem splitAnd_sound :
    SplitSound byso h (φ1 ∧ φ2) (splitAnd phys sp (.tbinop a .tand f1 f2) f1 f2 sf1 sf2) := by
  have hand : ∀ g1 g2, h (alias2 phys (.tbinop a .tand f1 f2) f1 f2 tAnd g1 g2) ↔ h g1 ∧ h g2 :=
    fun g1 g2 => (holds_alias2 hphys hv g1 g2).trans (hv.and ∅ g1 g2)
  have n1 := fun bs => h1.ncaset sp bs
  have n2 := fun bs => h2.ncaset sp bs
  constructor
  all_goals simp only [splitAnd, ncase, hand, conj_law_guard hv, disj_and hv.toValuation hand,
    s1.ncaset, s2.ncaset, s1.side, s2.side, s1.pos, s2.pos]
  · intro hs hp
    have hφ1 := h1.pos hs.1 hp.1
    exact ⟨hφ1, h2.pos (hs.2 fun _ => (n1 _).1 hs.1 hφ1) (hp.2 fun _ => (n1 _).1 hs.1 hφ1)⟩
  · exact fun hs hφ =>
      ⟨(n1 _).1 hs.1 hφ.1, (n2 _).1 (hs.2 fun _ => (n1 _).1 hs.1 hφ.1) hφ.2⟩
  · intro hs hp
    have hφ1 := h1.bwd hs.1 hp.1
    exact ⟨hφ1, h2.bwd (hs.2 fun _ => (n1 _).1 hs.1 hφ1) hp.2⟩
  · exact fun hs hφ => ⟨h1.fwd hs.1 hφ.1, h2.fwd (hs.2 fun _ => (n1 _).1 hs.1 hφ.1) hφ.2⟩
  · intro he
    rw [h1.exactPos he, (n1 _).2 he, h2.exactPos he]
    exact and_congr_right_iff.mpr fun hφ => ⟨fun hi => hi fun _ => hφ, fun hφ2 _ => hφ2⟩
  · exact fun he => and_congr ((n1 _).2 he) ((n2 _).2 he)
  · exact fun he => and_congr (h1.exactBwd he) (h2.exactBwd he)
  · exact fun he => and_congr (h1.exactFwd he) (h2.exactFwd he)

theorem splitOr_shape : SplitShape byso (splitOr phys sp f f1 f2 sf1 sf2) := by
  refine ⟨(s2.pcaset sp []).bimapZero, s1.neg.law ?_, s1.side.law ?_, ?_⟩
  · split
    · exact s2.neg
    · exact s2.neg.aclose
  · split
    · exact s2.side
    · exact s2.side.bimapZero
  · intro hb
    simp only [splitOr, s1.unit hb, s2.unit hb, bimapZero_unit, ite_self, law]

include hphys hv h1 h2 in
theorem splitOr_sound :
    SplitSound byso h (φ1 ∨ φ2) (splitOr phys sp (.tbinop a .tor f1 f2) f1 f2 sf1 sf2) := by
  have hor : ∀ g1 g2, h (alias2 phys (.tbinop a .tor f1 f2) f1 f2 tOr g1 g2) ↔ h g1 ∨ h g2 :=
    fun g1 g2 => (holds_alias2 hphys hv g1 g2).trans (hv.or ∅ g1 g2)
  have p1 := fun bs => h1.pcaset sp bs
  have p2 := fun bs => h2.pcaset sp bs
  have hside : ∀ bs, conj h (law sf1.side (if !(sp.asymSplit && asym f1) then sf2.side else
      bimapZero cpy (alias2 phys (.tbinop a .tor f1 f2) f1 f2 tOr) (pcaset sp bs sf1).1 sf2.side)) ↔
        conj h sf1.side ∧ ((sp.asymSplit && asym f1) = true ∧ conj h (pcaset sp bs sf1).1 ∨
          conj h sf2.side) := by
    intro bs
    cases (sp.asymSplit && asym f1) with
    | false => simp [conj_law hv.toValuation s1.side s2.side]
    | true =>
      simp [conj_law hv.toValuation s1.side s2.side.bimapZero,
        conj_or hv.toValuation hor (s1.pcaset sp bs) s2.side]
  constructor
  all_goals simp only [splitOr, pcase, hside, hor, conj_or hv.toValuation hor, disj_law_guard hv,
    disj_nclose hv, ZeroOf.nclose, s1.pcaset, s2.pcaset, s1.neg, s2.neg]
  -- the side condition of the second part is needed only if the first fails
  · intro ⟨hs1, hs⟩ hp
    cases hs with
    | inl hs => exact .inl ((p1 _).1 hs1 hs.2)
    | inr hs2 => exact hp.imp ((p1 _).1 hs1) ((p2 _).1 hs2)
  · intro ⟨hs1, hs⟩ hφ
    by_cases hp : φ1
    · exact .inl (h1.neg hs1 hp)
    · cases hs with
      | inl hs => exact absurd ((p1 _).1 hs1 hs.2) hp
      | inr hs2 =>
        exact .inr ⟨fun _ hc => hp ((p1 _).1 hs1 hc), h2.neg hs2 (hφ.resolve_left hp)⟩
  · intro ⟨hs1, hs⟩ hp
    cases hs with
    | inl hs => exact .inl ((p1 _).1 hs1 hs.2)
    | inr hs2 => exact hp.imp (h1.bwd hs1) (h2.bwd hs2)
  · intro ⟨hs1, hs⟩ hφ
    cases hs with
    | inl hs => exact .inl (h1.fwd hs1 ((p1 _).1 hs1 hs.2))
    | inr hs2 => exact hφ.imp (h1.fwd hs1) (h2.fwd hs2)
  · exact fun he => or_congr ((p1 _).2 he) ((p2 _).2 he)
  · intro he
    rw [h1.exactNeg he, (p1 _).2 he, h2.exactNeg he]
    tauto
  · exact fun he => or_congr (h1.exactBwd he) (h2.exactBwd he)
  · exact fun he => or_congr (h1.exactFwd he) (h2.exactFwd he)

theorem splitImplies_shape : SplitShape byso (splitImplies phys sp f f1 f2 sf1 sf2) := by
  refine ⟨s2.pos.bimapZero, ZeroOf.nclose.law ?_, s1.side.law s2.side.iclose, ?_⟩
  · split
    · exact s2.neg
    · exact s2.neg.aclose
  · intro hb
    simp only [splitImplies, s1.unit hb, s2.unit hb, iclose, bimapZero_unit, law]

include hphys hv h1 h2 in
theorem splitImplies_sound :
    SplitSound byso h (φ1 → φ2)
      (splitImplies phys sp (.tbinop a .timplies f1 f2) f1 f2 sf1 sf2) := by
  have himp : ∀ g1 g2, h (alias2 phys (.tbinop a .timplies f1 f2) f1 f2 tImplies g1 g2) ↔
      (h g1 → h g2) :=
    fun g1 g2 => (holds_alias2 hphys hv g1 g2).trans (hv.imp ∅ g1 g2)
  have hpos : ∀ bs, conj h (bimapZero (fun _ g => tAttrCopy (.tbinop a .timplies f1 f2) (tNot g))
      (alias2 phys (.tbinop a .timplies f1 f2) f1 f2 tImplies) (ncaset sp bs sf1).1 sf2.pos) ↔
        (disj h (ncaset sp bs sf1).1 → conj h sf2.pos) :=
    fun bs => conj_imp hv.toValuation (fun _ s => (hv.attrs _ _).trans (hv.not ∅ s)) himp
      (s1.ncaset sp bs) s2.pos
  have n1 := fun bs => h1.ncaset sp bs
  constructor
  all_goals simp only [splitImplies, ncase, hpos, himp, conj_law hv.toValuation,
    disj_law_guard hv, conj_iclose hv, disj_nclose hv, ZeroOf.iclose, ZeroOf.nclose, s1.ncaset,
    s1.side, s2.side, s1.pos, s2.neg]
  · exact fun hs hp hφ1 => h2.pos (hs.2 ((n1 _).1 hs.1 hφ1)) (hp ((n1 _).1 hs.1 hφ1))
  · intro hs hφ
    by_cases hp : conj h sf1.pos
    · have hφ1 := h1.pos hs.1 hp
      exact .inr ⟨fun _ => (n1 _).1 hs.1 hφ1, h2.neg (hs.2 ((n1 _).1 hs.1 hφ1)) (hφ hφ1)⟩
    · exact .inl hp
  · exact fun hs hp hφ1 => h2.bwd (hs.2 ((n1 _).1 hs.1 hφ1)) (hp (h1.fwd hs.1 hφ1))
  · intro hs hφ hb1
    have hφ1 := h1.bwd hs.1 hb1
    exact h2.fwd (hs.2 ((n1 _).1 hs.1 hφ1)) (hφ hφ1)
  · exact fun he => imp_congr ((n1 _).2 he) (h2.exactPos he)
  · intro he
    rw [h1.exactPos he, h2.exactNeg he, (n1 _).2 he]
    tauto
  · exact fun he => imp_congr (h1.exactFwd he) (h2.exactBwd he)
  · exact fun he => imp_congr (h1.exactBwd he) (h2.exactFwd he)

end

/-! `so` and `by` are split only with side conditions. -/

theorem zeroOf_lside {c : Bool} {t : Term} (hy : ZeroOf IsFalse y) :
    ZeroOf IsFalse (if c then iclose x y else inject t) := by
  split
  · exact hy.iclose
  · exact zeroOf_inject _

section

variable (h1 : SplitSound true h φ1 sf1) (h2 : SplitSound true h φ2 sf2)
  (s1 : SplitShape true sf1) (s2 : SplitShape true sf2)
include s1 s2

theorem splitSo_shape : SplitShape true (splitSo sp f sf1 sf2) := by
  exact ⟨s1.pos, (s2.ncaset sp []).bimapZero,
    (s1.side.law (zeroOf_lside s2.pos)).law s2.side.iclose, nofun⟩

include hv h1 h2 in
theorem splitSo_sound : SplitSound true h φ1 (splitSo sp f sf1 sf2) := by
  have hand : ∀ g1 g2, h (tAttrCopy f (tAnd g1 g2)) ↔ h g1 ∧ h g2 :=
    fun g1 g2 => (hv.attrs _ _).trans (hv.and ∅ g1 g2)
  have n1 := fun bs => h1.ncaset sp bs
  -- the side condition gives the second formula below the first
  have hside : conj h (splitSo sp f sf1 sf2).side →
      conj h sf1.side ∧ (φ1 → conj h sf2.side ∧ φ2) := by
    intro hs
    simp only [splitSo] at hs
    rw [conj_law hv.toValuation (s1.side.law (zeroOf_lside s2.pos)) s2.side.iclose,
      conj_law hv.toValuation s1.side (zeroOf_lside s2.pos), conj_iclose hv (s1.ncaset sp _) s2.side] at hs
    refine ⟨hs.1.1, fun hφ1 => ?_⟩
    have hn := (n1 [(ncaset sp [] sf2).1, sf2.side, sf2.pos]).1 hs.1.1 hφ1
    refine ⟨hs.2 hn, ?_⟩
    have hl := hs.1.2
    split at hl
    · rw [conj_iclose hv (s1.ncaset sp _) s2.pos] at hl
      exact h2.pos (hs.2 hn) (hl hn)
    · exact h2.bwd (hs.2 hn) ((hv.imp ∅ _ _).mp hl (h1.fwd hs.1.1 hφ1))
  constructor
  · exact fun hs hp => h1.pos (hside hs).1 hp
  · intro hs hφ1
    obtain ⟨hs1, hs2⟩ := hside hs
    simp only [splitSo, disj_and hv.toValuation hand, s1.ncaset, s2.ncaset]
    exact ⟨(n1 _).1 hs1 hφ1, (h2.ncaset sp _).1 (hs2 hφ1).1 (hs2 hφ1).2⟩
  · exact fun hs hp => h1.bwd (hside hs).1 hp
  · intro hs hφ1
    obtain ⟨hs1, hs2⟩ := hside hs
    simp only [splitSo, hand]
    exact ⟨h1.fwd hs1 hφ1, h2.fwd (hs2 hφ1).1 (hs2 hφ1).2⟩
  all_goals exact nofun

theorem splitBy_shape : SplitShape true (splitBy sp sf1 sf2) := by
  exact ⟨s2.pos, s1.neg, (s2.side.law (zeroOf_lside s1.pos)).law s1.side, nofun⟩

include hv h1 h2 in
theorem splitBy_sound : SplitSound true h φ1 (splitBy sp sf1 sf2) := by
  -- the side condition gives the first formula below the second
  have hside : conj h (splitBy sp sf1 sf2).side →
      conj h sf1.side ∧ conj h sf2.side ∧ (φ2 → φ1) := by
    intro hs
    simp only [splitBy] at hs
    rw [conj_law hv.toValuation (s2.side.law (zeroOf_lside s1.pos)) s1.side,
      conj_law hv.toValuation s2.side (zeroOf_lside s1.pos)] at hs
    refine ⟨hs.2, hs.1.1, fun hφ2 => ?_⟩
    have hl := hs.1.2
    split at hl
    · rw [ncase, conj_iclose hv (s2.ncaset sp _) s1.pos] at hl
      exact h1.pos hs.2 (hl ((h2.ncaset sp _).1 hs.1.1 hφ2))
    · exact h1.bwd hs.2 ((hv.imp ∅ _ _).mp hl (h2.fwd hs.1.1 hφ2))
  constructor
  · intro hs hp
    obtain ⟨-, hs2, hby⟩ := hside hs
    exact hby (h2.pos hs2 hp)
  · exact fun hs hφ1 => h1.neg (hside hs).1 hφ1
  · intro hs hp
    obtain ⟨-, hs2, hby⟩ := hside hs
    exact hby (h2.bwd hs2 hp)
  · exact fun hs hφ1 => h1.fwd (hside hs).1 hφ1
  all_goals exact nofun

end

/-! Equivalence, conditional and negation. -/

theorem splitIff_shape (s1 : SplitShape byso sf1) (s2 : SplitShape byso sf2) :
    SplitShape byso (splitIff phys sp f f1 f2 sf1 sf2) := by
  refine ⟨s2.pos.iclose.law s1.pos.iclose, (s2.ncaset sp []).aclose.law ZeroOf.nclose.aclose,
    s1.side.law s2.side, fun hb => ?_⟩
  simp only [splitIff, s1.unit hb, s2.unit hb, law]

include hphys in
/-- Backward and forward parts that are the same formula have the value of the formula. -/
theorem SplitSound.same (hr : SplitSound byso h φ sf) (he : phys sf.fwd sf.bwd = true)
    (hs : conj h sf.side) : h sf.fwd ↔ φ :=
  ⟨fun hf => hr.bwd hs (hphys he ▸ hf), hr.fwd hs⟩

include hphys hv in
theorem splitIff_sound {a : Attrs}
    (hdrop : h (dropByso (.tbinop a .tiff f1 f2)) ↔ h (.tbinop a .tiff f1 f2))
    (h1 : SplitSound byso h (h f1) sf1) (h2 : SplitSound byso h (h f2) sf2)
    (s1 : SplitShape byso sf1) (s2 : SplitShape byso sf2) :
    SplitSound byso h (h f1 ↔ h f2) (splitIff phys sp (.tbinop a .tiff f1 f2) f1 f2 sf1 sf2) := by
  have hdf : conj h sf1.side → conj h sf2.side →
      (h (if phys sf1.fwd sf1.bwd && phys sf2.fwd sf2.bwd
        then alias2 phys (.tbinop a .tiff f1 f2) f1 f2 tIff sf1.fwd sf2.fwd
        else dropByso (.tbinop a .tiff f1 f2)) ↔ (h f1 ↔ h f2)) := by
    intro hs1 hs2
    split
    · rename_i hc
      rw [Bool.and_eq_true] at hc
      rw [tIff, holds_alias2 hphys hv, tBinary, hv.iff, h1.same hphys hc.1 hs1,
        h2.same hphys hc.2 hs2]
    · rw [hdrop, hv.iff]
  have n1 := fun bs => h1.ncaset sp bs
  have n2 := fun bs => h2.ncaset sp bs
  have p1 := fun bs => h1.pcaset sp bs
  have p2 := fun bs => h2.pcaset sp bs
  constructor
  all_goals simp only [splitIff, ncase, pcase, conj_law hv.toValuation, disj_law hv.toValuation,
    conj_iclose hv, disj_aclose hv, disj_nclose hv, ZeroOf.iclose, ZeroOf.aclose, ZeroOf.nclose,
    s1.ncaset, s2.ncaset, s1.pcaset, s2.pcaset, s1.side, s2.side, s1.pos, s2.pos]
  · intro hs hp
    exact ⟨fun hφ => h2.pos hs.2 (hp.1 ((n1 _).1 hs.1 hφ)),
      fun hφ => h1.pos hs.1 (hp.2 ((n2 _).1 hs.2 hφ))⟩
  · intro hs hφ
    by_cases hφ1 : h f1
    · exact .inl ⟨(n1 _).1 hs.1 hφ1, (n2 _).1 hs.2 (hφ.mp hφ1)⟩
    · exact .inr ⟨fun hc => hφ1 ((p1 _).1 hs.1 hc), fun hc => hφ1 (hφ.mpr ((p2 _).1 hs.2 hc))⟩
  · exact fun hs => (hdf hs.1 hs.2).mp
  · exact fun hs => (hdf hs.1 hs.2).mpr
  · intro he
    rw [(n1 _).2 he, (n2 _).2 he, h1.exactPos he, h2.exactPos he]
    exact iff_def.symm
  · intro he
    rw [(n1 _).2 he, (n2 _).2 he, (p1 _).2 he, (p2 _).2 he]
    exact iff_iff_and_or_not_and_not.symm
  · exact fun he => hdf (s1.conj_side he) (s2.conj_side he)
  · exact fun he => hdf (s1.conj_side he) (s2.conj_side he)

theorem splitIf_shape {f3 : Term} (s1 : SplitShape byso sf1) (s2 : SplitShape byso sf2)
    (s3 : SplitShape byso sf3) : SplitShape byso (splitIf phys sp f f1 f2 f3 sf1 sf2 sf3) := by
  refine ⟨s2.pos.iclose.law s3.pos.iclose, s2.neg.aclose.law s3.neg.aclose,
    (s1.side.law s2.side.iclose).law s3.side.iclose, fun hb => ?_⟩
  simp only [splitIf, s1.unit hb, s2.unit hb, s3.unit hb, iclose, bimapZero_unit, law]

include hphys hv in
theorem splitIf_sound {a : Attrs} {f3 : Term} (hdrop : h (dropByso f1) ↔ h f1)
    (h1 : SplitSound byso h (h f1) sf1) (h2 : SplitSound byso h φ2 sf2)
    (h3 : SplitSound byso h φ3 sf3) (s1 : SplitShape byso sf1) (s2 : SplitShape byso sf2)
    (s3 : SplitShape byso sf3) : SplitSound byso h ((h f1 → φ2) ∧ (¬ h f1 → φ3))
      (splitIf phys sp (.tif a f1 f2 f3) f1 f2 f3 sf1 sf2 sf3) := by
  have hdf : conj h sf1.side →
      (h (if phys sf1.fwd sf1.bwd then sf1.fwd else dropByso f1) ↔ h f1) := by
    intro hs1
    split
    · rename_i hc
      exact h1.same hphys hc hs1
    · exact hdrop
  have hre : ∀ g1 g2 g3, h (if phys f1 g1 && phys f2 g2 && phys f3 g3 then .tif a f1 f2 f3
      else tAttrCopy (.tif a f1 f2 f3) (tIf g1 g2 g3)) ↔ (h g1 → h g2) ∧ (¬ h g1 → h g3) := by
    intro g1 g2 g3
    split
    · rename_i hc
      rw [Bool.and_eq_true, Bool.and_eq_true] at hc
      rw [hphys hc.1.1, hphys hc.1.2, hphys hc.2, hv.cond]
    · rw [tAttrCopy, hv.attrs, tIf, hv.cond]
  have n1 := fun bs => h1.ncaset sp bs
  have p1 := fun bs => h1.pcaset sp bs
  constructor
  all_goals simp only [splitIf, ncase, pcase, hre, conj_law hv.toValuation,
    disj_law hv.toValuation, conj_iclose hv, disj_aclose hv, disj_nclose hv, ZeroOf.iclose,
    ZeroOf.aclose, ZeroOf.nclose, s1.ncaset, s1.pcaset, s1.side, s1.side.law s2.side.iclose,
    s2.side, s3.side, s2.pos, s3.pos, s2.neg, s3.neg]
  · intro ⟨⟨hs1, hs2⟩, hs3⟩ ⟨hp2, hp3⟩
    refine ⟨fun hc => ?_, fun hc => ?_⟩
    · exact h2.pos (hs2 ((n1 _).1 hs1 hc)) (hp2 ((n1 _).1 hs1 hc))
    · exact h3.pos (hs3 fun hp => hc ((p1 _).1 hs1 hp)) (hp3 fun hp => hc ((p1 _).1 hs1 hp))
  · intro ⟨⟨hs1, hs2⟩, hs3⟩ ⟨hφ2, hφ3⟩
    by_cases hc : h f1
    · exact .inl ⟨(n1 _).1 hs1 hc, h2.neg (hs2 ((n1 _).1 hs1 hc)) (hφ2 hc)⟩
    · exact .inr ⟨fun hp => hc ((p1 _).1 hs1 hp),
        h3.neg (hs3 fun hp => hc ((p1 _).1 hs1 hp)) (hφ3 hc)⟩
  · intro ⟨⟨hs1, hs2⟩, hs3⟩ ⟨hb2, hb3⟩
    rw [hdf hs1] at hb2 hb3
    refine ⟨fun hc => ?_, fun hc => ?_⟩
    · exact h2.bwd (hs2 ((n1 _).1 hs1 hc)) (hb2 hc)
    · exact h3.bwd (hs3 fun hp => hc ((p1 _).1 hs1 hp)) (hb3 hc)
  · intro ⟨⟨hs1, hs2⟩, hs3⟩ ⟨hφ2, hφ3⟩
    rw [hdf hs1]
    refine ⟨fun hc => ?_, fun hc => ?_⟩
    · exact h2.fwd (hs2 ((n1 _).1 hs1 hc)) (hφ2 hc)
    · exact h3.fwd (hs3 fun hp => hc ((p1 _).1 hs1 hp)) (hφ3 hc)
  · intro he
    rw [(n1 _).2 he, (p1 _).2 he, h2.exactPos he, h3.exactPos he]
  · intro he
    rw [(n1 _).2 he, (p1 _).2 he, h2.exactNeg he, h3.exactNeg he]
    tauto
  · intro he
    rw [hdf (s1.conj_side he), h2.exactBwd he, h3.exactBwd he]
  · intro he
    rw [hdf (s1.conj_side he), h2.exactFwd he, h3.exactFwd he]

theorem splitNot_shape (s1 : SplitShape byso sf) : SplitShape byso (splitNot phys f f1 sf) :=
  ⟨zeroOf_map_inject, zeroOf_map_inject, s1.side, s1.unit⟩

include hphys hv in
theorem splitNot_sound {a : Attrs} (h1 : SplitSound byso h φ sf)
    (s1 : SplitShape byso sf) : SplitSound byso h (¬ φ) (splitNot phys (.tnot a f1) f1 sf) := by
  have hnot : ∀ g, h (alias1 phys (.tnot a f1) f1 tNot g) ↔ ¬ h g := by
    intro g
    rw [alias1]
    split
    · rename_i hc
      rw [hphys hc, hv.not]
    · rw [tAttrCopy, hv.attrs, tNot, hv.not]
  have hpos : conj h (map (fun t => inject (tAttrCopy t tFalse))
      (alias1 phys (.tnot a f1) f1 tNot) sf.neg) ↔ ¬ disj h sf.neg :=
    conj_map_not hv.toValuation s1.neg hnot fun t => hv.false ⟨_, rfl⟩
  have hneg : disj h (map (fun t => inject (tAttrCopy t tTrue))
      (alias1 phys (.tnot a f1) f1 tNot) sf.pos) ↔ ¬ conj h sf.pos :=
    disj_map_not hv.toValuation s1.pos hnot fun t => hv.true ⟨_, rfl⟩
  constructor
  all_goals simp only [splitNot, hpos, hneg, hnot]
  · exact fun hs hn hφ => hn (h1.neg hs hφ)
  · exact fun hs hφ hp => hφ (h1.pos hs hp)
  · exact fun hs hw hφ => hw (h1.fwd hs hφ)
  · exact fun hs hφ hw => hφ (h1.bwd hs hw)
  · exact fun he => not_congr (h1.exactNeg he)
  · exact fun he => not_congr (h1.exactPos he)
  · exact fun he => not_congr (h1.exactFwd he)
  · exact fun he => not_congr (h1.exactBwd he)

/-! The end of a step. -/

/-- The parts of the result do not depend on the case marks. -/
theorem splitFinish_parts (sp : Split) (f : Term) (r : SplitRet) :
    (splitFinish sp f r).side = r.side ∧
      ((∃ t, r.side = .zero t) ∧ (splitFinish sp f r).pos = .unit ∧
          (splitFinish sp f r).neg = .unit ∨
        (splitFinish sp f r).pos = r.pos ∧ (splitFinish sp f r).neg = r.neg ∧
          (splitFinish sp f r).bwd = r.bwd ∧ (splitFinish sp f r).fwd = r.fwd) := by
  rw [splitFinish]
  cases case f <;> cases hside : r.side <;> simp [hside]

theorem splitFinish_shape (s : SplitShape byso r) : SplitShape byso (splitFinish sp f r) := by
  obtain ⟨hside, ⟨-, hpos, hneg⟩ | ⟨hpos, hneg, -, -⟩⟩ := splitFinish_parts sp f r
  · exact ⟨hpos ▸ zeroOf_unit, hneg ▸ zeroOf_unit, hside ▸ s.side, fun hb => hside ▸ s.unit hb⟩
  · exact ⟨hpos ▸ s.pos, hneg ▸ s.neg, hside ▸ s.side, fun hb => hside ▸ s.unit hb⟩

include hv in
theorem splitFinish_sound (hr : SplitSound byso h φ r) (s : SplitShape byso r) :
    SplitSound byso h φ (splitFinish sp f r) := by
  obtain ⟨hside, ⟨⟨t, ht⟩, -, -⟩ | ⟨hpos, hneg, hbwd, hfwd⟩⟩ := splitFinish_parts sp f r
  · -- a side condition that is false makes the result sound for every formula
    have hno : ¬ conj h (splitFinish sp f r).side := by
      rw [hside, ht]
      exact hv.false (s.side t ht)
    have hby : byso ≠ false := fun hb => nomatch ht.symm.trans (s.unit hb)
    constructor
    all_goals intro hs
    all_goals exact absurd hs (by assumption)
  · apply hr.transfer Iff.rfl
    all_goals simp only [hside, hpos, hneg, hbwd, hfwd]

end

end Why3
