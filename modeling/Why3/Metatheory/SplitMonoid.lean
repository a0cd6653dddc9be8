import Why3.Transform.SplitGoal

/-!
The values of the monoids of goal splitting.

A monoid element is evaluated to a combination of the values of its formulas: a
conjunction or a disjunction. The maps of the source are morphisms, as the comments in it
require, when the functions on formulas are; the zero of the element must then
be the zero of its law.
-/
namespace Why3

open M

variable {f0 : Term → Monoid} {f_0 : Term → Term → Term} {f : Term → Term}

section Eval

variable {X Y Z : Type} (op : X → X → X) (u : X) (h : Term → X)

def evalComb : Comb → X
  | .base t => h t
  | .op a b => op (evalComb a) (evalComb b)

def eval : Monoid → X
  | .zero t => h t
  | .unit => u
  | .comb c => evalComb op h c

variable {op u h} {op' : Y → Y → Y} {u' : Y} {h' : Term → Y} {op'' : Z → Z → Z} {u'' : Z}
  {h'' : Term → Z}

theorem mem_combToList {t : Term} (c : Comb) :
    ∀ acc, t ∈ combToList c acc ↔ t ∈ combToList c [] ∨ t ∈ acc := by
  induction c with
  | base s => simp [combToList]
  | op a b iha ihb =>
    intro acc
    simp only [combToList]
    rw [iha (combToList b acc), ihb acc, iha (combToList b []), or_assoc]

theorem mem_combToList_op {t : Term} {a b : Comb} :
    t ∈ combToList (.op a b) [] ↔ t ∈ combToList a [] ∨ t ∈ combToList b [] :=
  mem_combToList a _

theorem evalComb_cmap (G : X → Y) {c : Comb} (hf : ∀ t ∈ combToList c [], h' (f t) = G (h t))
    (hop : ∀ x y, G (op x y) = op' (G x) (G y)) :
    evalComb op' h' (cmap f c) = G (evalComb op h c) := by
  induction c with
  | base t => exact hf t List.mem_cons_self
  | op a b iha ihb =>
    rw [cmap, evalComb, iha fun t ht => hf t (mem_combToList_op.mpr (.inl ht)),
      ihb fun t ht => hf t (mem_combToList_op.mpr (.inr ht)), evalComb, hop]

theorem evalComb_cbind (F : X → Y → Z) {f : Term → Term → Term} {ca cb : Comb}
    (hf : ∀ s ∈ combToList ca [], ∀ t ∈ combToList cb [], h'' (f s t) = F (h s) (h' t))
    (hop : ∀ x y z, F (op x y) z = op'' (F x z) (F y z))
    (hop' : ∀ x y z, F x (op' y z) = op'' (F x y) (F x z)) :
    evalComb op'' h'' (cbind (fun s => cmap (f s) cb) ca) =
      F (evalComb op h ca) (evalComb op' h' cb) := by
  induction ca with
  | base s => exact evalComb_cmap (F (h s)) (hf s List.mem_cons_self) (hop' (h s))
  | op a b iha ihb =>
    rw [cbind, evalComb, iha fun s hs => hf s (mem_combToList_op.mpr (.inl hs)),
      ihb fun s hs => hf s (mem_combToList_op.mpr (.inr hs)), evalComb, hop]

theorem eval_map (G : X → Y) {m : Monoid} (hf : ∀ t ∈ toList m, h' (f t) = G (h t))
    (hop : ∀ x y, G (op x y) = op' (G x) (G y)) (hu : G u = u')
    (h0 : ∀ t, m = .zero t → eval op' u' h' (f0 t) = G (h t)) :
    eval op' u' h' (map f0 f m) = G (eval op u h m) := by
  cases m with
  | zero t => exact h0 t rfl
  | unit => exact hu.symm
  | comb c => exact evalComb_cmap G hf hop

theorem eval_map_inject {h h' : Term → X} {m : Monoid} (hf : ∀ t, h' (f t) = h t) :
    eval op u h' (map (fun t => inject (f t)) f m) = eval op u h m :=
  eval_map id (fun t _ => hf t) (fun _ _ => rfl) rfl fun t _ => hf t

theorem eval_const (hu : op u u = u) (m : Monoid) : eval op u (fun _ => u) m = u := by
  cases m with
  | zero t | unit => rfl
  | comb c =>
    induction c with
    | base t => rfl
    | op a b iha ihb =>
      rw [eval] at iha ihb ⊢
      rw [evalComb, iha, ihb, hu]

theorem eval_bimapZero (F : X → Y → Z) {f : Term → Term → Term} {a b : Monoid}
    (hf : ∀ s ∈ toList a, ∀ t ∈ toList b, h'' (f s t) = F (h s) (h' t))
    (hop : ∀ x y z, F (op x y) z = op'' (F x z) (F y z))
    (hop' : ∀ x y z, F x (op' y z) = op'' (F x y) (F x z)) (hu : ∀ y, F u y = u'')
    (hu' : ∀ x, F x u' = u'') (hz : ∀ s, a = .zero s → ∀ t ∈ toList b, h'' t = F (h s) (h' t))
    (hz' : ∀ t, b = .zero t → ∀ s ∈ toList a, h'' (f_0 t s) = F (h s) (h' t)) :
    eval op'' u'' h'' (bimapZero f_0 f a b) = F (eval op u h a) (eval op' u' h' b) := by
  cases a with
  | unit => exact (hu _).symm
  | zero s =>
    cases b with
    | unit => exact (hu' _).symm
    | zero t => exact hz s rfl t List.mem_cons_self
    | comb cb => exact evalComb_cmap (F (h s)) (hz s rfl) (hop' (h s))
  | comb ca =>
    cases b with
    | unit => exact (hu' _).symm
    | zero t =>
      exact evalComb_cmap (fun x => F x (h' t)) (hz' t rfl) (fun x y => hop x y _)
    | comb cb => exact evalComb_cbind F hf hop hop'

theorem eval_law {z : X} (hzl : ∀ x, op z x = z) (hzr : ∀ x, op x z = z)
    (hul : ∀ x, op u x = x) (hur : ∀ x, op x u = x) {a b : Monoid}
    (ha : ∀ t, a = .zero t → h t = z) (hb : ∀ t, b = .zero t → h t = z) :
    eval op u h (law a b) = op (eval op u h a) (eval op u h b) := by
  cases a with
  | zero s =>
    have hs := ha s rfl
    cases b with
    | unit => exact (hur _).symm
    | zero t | comb cb => simp only [law, eval, hs, hzl]
  | unit =>
    cases b with
    | unit | zero t | comb cb => exact (hul _).symm
  | comb ca =>
    cases b with
    | unit => exact (hur _).symm
    | zero t => simp only [law, eval, hb t rfl, hzr]
    | comb cb => rfl

end Eval

/-! Which formula can be a zero. -/

def ZeroOf (K : Term → Prop) (m : Monoid) : Prop := ∀ t, m = .zero t → K t

def IsFalse (t : Term) : Prop := ∃ a, t = .tfalse a

def IsTrue (t : Term) : Prop := ∃ a, t = .ttrue a

section Zero

variable {K K' : Term → Prop} {a b m : Monoid}

theorem zeroOf_unit : ZeroOf K .unit := fun _ h => nomatch h

theorem zeroOf_inject (t : Term) : ZeroOf K (inject t) := fun _ h => nomatch h

theorem ZeroOf.law (ha : ZeroOf K a) (hb : ZeroOf K b) : ZeroOf K (law a b) := by
  intro t ht
  cases a with
  | zero s => cases b <;> exact ha t ht
  | unit => cases b <;> exact hb t ht
  | comb ca => cases b <;> first | exact hb t ht | exact nomatch ht

theorem ZeroOf.bimapZero {f : Term → Term → Term} (hb : ZeroOf K b) :
    ZeroOf K (bimapZero f_0 f a b) := by
  intro t ht
  cases a <;> cases b <;> first | exact hb t ht | exact nomatch ht

theorem ZeroOf.map_zero {g : Term → Term} (hm : ∀ t, m = .zero t → K (g t)) :
    ZeroOf K (map (fun t => .zero (g t)) f m) := by
  intro t ht
  cases m with
  | zero s =>
    cases ht
    exact hm s rfl
  | unit | comb c => cases ht

theorem zeroOf_map_inject {g : Term → Term} : ZeroOf K (map (fun t => inject (g t)) f m) := by
  intro t ht
  cases m <;> cases ht

theorem ZeroOf.nclose : ZeroOf IsTrue (nclose m) :=
  ZeroOf.map_zero fun _ _ => ⟨_, rfl⟩

end Zero

/-! Conjunctions and disjunctions of truth values. -/

def conj (h : Term → Prop) (m : Monoid) : Prop := eval And True h m

def disj (h : Term → Prop) (m : Monoid) : Prop := eval Or False h m

section Truth

variable {h : Term → Prop} {a b m : Monoid}

theorem conj_iff : conj h m ↔ ∀ t ∈ toList m, h t := by
  cases m with
  | zero s | unit => simp [conj, eval, toList]
  | comb c =>
    simp only [conj, eval, toList]
    induction c with
    | base s => simp [evalComb, combToList]
    | op a b iha ihb =>
      simp only [evalComb, mem_combToList_op, iha, ihb, or_imp, forall_and]

theorem disj_iff : disj h m ↔ ∃ t ∈ toList m, h t := by
  cases m with
  | zero s | unit => simp [disj, eval, toList]
  | comb c =>
    simp only [disj, eval, toList]
    induction c with
    | base s => simp [evalComb, combToList]
    | op a b iha ihb =>
      simp only [evalComb, mem_combToList_op, iha, ihb, or_and_right, exists_or]

/-- A valuation under which the zeros have their values. -/
structure Valuation (h : Term → Prop) : Prop where
  false : ∀ {t}, IsFalse t → ¬ h t
  true : ∀ {t}, IsTrue t → h t

section

variable (hv : Valuation h)
include hv

theorem conj_law (ha : ZeroOf IsFalse a) (hb : ZeroOf IsFalse b) :
    conj h (law a b) ↔ conj h a ∧ conj h b := by
  rw [conj, eval_law (z := False) (by simp) (by simp) (by simp) (by simp)
    (fun t ht => eq_false (hv.false (ha t ht))) (fun t ht => eq_false (hv.false (hb t ht)))]
  exact Iff.rfl

theorem disj_law (ha : ZeroOf IsTrue a) (hb : ZeroOf IsTrue b) :
    disj h (law a b) ↔ disj h a ∨ disj h b := by
  rw [disj, eval_law (z := True) (by simp) (by simp) (by simp) (by simp)
    (fun t ht => eq_true (hv.true (ha t ht))) (fun t ht => eq_true (hv.true (hb t ht)))]
  exact Iff.rfl

theorem conj_imp {f : Term → Term → Term} (hf_0 : ∀ t s, h (f_0 t s) ↔ ¬ h s)
    (hf : ∀ s t, h (f s t) ↔ (h s → h t)) (ha : ZeroOf IsTrue a) (hb : ZeroOf IsFalse b) :
    conj h (bimapZero f_0 f a b) ↔ (disj h a → conj h b) := by
  refine iff_of_eq (eval_bimapZero (fun x y => x → y) (fun s _ t _ => propext (hf s t))
    (fun x y z => propext or_imp) (fun x y z => propext imp_and) (by simp) (by simp) ?_ ?_)
  · intro s hs t _
    simp [hv.true (ha s hs)]
  · intro t ht s _
    simp [hf_0, hv.false (hb t ht)]

theorem disj_and {f : Term → Term → Term} (hf : ∀ s t, h (f s t) ↔ (h s ∧ h t))
    (ha : ZeroOf IsTrue a) (hb : ZeroOf IsTrue b) :
    disj h (bimapZero cpy f a b) ↔ disj h a ∧ disj h b := by
  refine iff_of_eq (eval_bimapZero And (fun s _ t _ => propext (hf s t))
    (fun x y z => propext or_and_right) (fun x y z => propext and_or_left) (by simp) (by simp) ?_ ?_)
  · intro s hs t _
    simp [hv.true (ha s hs)]
  · intro t ht s _
    simp [cpy, hv.true (hb t ht)]

theorem conj_or {f : Term → Term → Term} (hf : ∀ s t, h (f s t) ↔ (h s ∨ h t))
    (ha : ZeroOf IsFalse a) (hb : ZeroOf IsFalse b) :
    conj h (bimapZero cpy f a b) ↔ conj h a ∨ conj h b := by
  refine iff_of_eq (eval_bimapZero Or (fun s _ t _ => propext (hf s t))
    (fun x y z => propext and_or_right) (fun x y z => propext or_and_left) (by simp) (by simp) ?_ ?_)
  · intro s hs t _
    simp [hv.false (ha s hs)]
  · intro t ht s _
    simp [cpy, hv.false (hb t ht)]

/-- A negation exchanges the two laws. -/
theorem disj_map_not (hm : ZeroOf IsFalse m) (hf : ∀ t, h (f t) ↔ ¬ h t) (hf0 : ∀ t, disj h (f0 t))
    : disj h (map f0 f m) ↔ ¬ conj h m := by
  refine iff_of_eq (eval_map Not (fun t _ => propext (hf t)) (fun x y => propext not_and_or) (by simp) ?_)
  intro t ht
  exact propext (iff_of_true (hf0 t) (hv.false (hm t ht)))

theorem conj_map_not (hm : ZeroOf IsTrue m) (hf : ∀ t, h (f t) ↔ ¬ h t) (hf0 : ∀ t, ¬ conj h (f0 t))
    : conj h (map f0 f m) ↔ ¬ disj h m := by
  refine iff_of_eq (eval_map Not (fun t _ => propext (hf t)) (fun x y => propext not_or) (by simp) ?_)
  intro t ht
  exact propext (iff_of_false (hf0 t) (not_not_intro (hv.true (hm t ht))))

end

end Truth

end Why3
