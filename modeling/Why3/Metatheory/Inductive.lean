import Why3.Core.Inductive
import Why3.Library.Polarity
import Why3.Semantics.PatMap

/-!
Clauses of inductive declarations are monotone.

Two interpretations that differ in the predicates of a set only give the same value
to a term without these predicates. A formula accepted by `fPosPs` then follows the
predicates in the direction of the polarity, by induction on the formula with one
lemma for each connective. The clauses of an accepted declaration so define a
monotone operator on the predicates, and its fixpoints are those of complete lattices.
-/
namespace Why3

open Except (allM_eq_true bind_eq_ok exists_of_allM)
open List

/-! What the checks have visited. -/

theorem andAlso_eq_true {x y : Except LSymbol Bool} :
    andAlso x y = .ok true ↔ x = .ok true ∧ y = .ok true := by
  rw [andAlso, bind_eq_ok]
  constructor
  · rintro ⟨b, hx, hy⟩
    cases b with
    | true => exact ⟨hx, hy⟩
    | false => nomatch hy
  · rintro ⟨hx, hy⟩
    exact ⟨true, hx, hy⟩

theorem andAlso_ne_false {x y : Except LSymbol Bool} (hx : x ≠ .ok false) (hy : y ≠ .ok false) :
    andAlso x y ≠ .ok false := by
  intro h
  obtain ⟨b, hb, h⟩ := bind_eq_ok.mp h
  cases b with
  | true => exact hy h
  | false => exact hx hb

example : andAlso (.ok false) (.error psEqu) = .ok false := by decide +kernel

variable {bl : List (Pattern × Term)} {pol : Option Bool}

section Visited

variable {sps : List LSymbol}

theorem lsMem_not_eq_ok {s : LSymbol} {b : Bool} :
    ((!·) <$> lsMem sps s) = .ok b ↔ s ∉ sps ∧ b = true := by
  rw [lsMem]
  split
  next h => simp [h]
  next h => simp [h]

theorem tPosPs_eq_ok {t : Term} {b : Bool} (h : tPosPs sps t = .ok b) :
    b = true ∧ ∀ s ∈ lsymsTerm t, s ∉ sps := by
  cases b with
  | true => exact ⟨rfl, fun s hs => (lsMem_not_eq_ok.mp (allM_eq_true h s hs)).1⟩
  | false =>
    obtain ⟨s, -, hs⟩ := exists_of_allM h nofun
    nomatch (lsMem_not_eq_ok.mp hs).2

theorem tPosPs_ne_false (t : Term) : tPosPs sps t ≠ .ok false :=
  fun h => nomatch (tPosPs_eq_ok h).1

theorem fPosBranches_eq_true :
    fPosBranches sps pol bl = .ok true ↔ ∀ b ∈ bl, fPosPs sps pol b.2 = .ok true := by
  induction bl with
  | nil => simp [fPosBranches]
  | cons b bl ih => simp [fPosBranches, andAlso_eq_true, ih]

theorem headPosPs_ne_false (s : LSymbol) (pol : Option Bool) : headPosPs sps s pol ≠ .ok false := by
  intro h
  rcases pol with _ | _ | _
  · nomatch (lsMem_not_eq_ok.mp h).2
  · nomatch (lsMem_not_eq_ok.mp h).2
  · nomatch h

/-- The boolean of the check is never `false`: a predicate in the wrong place is raised. -/
theorem fPosPs_ne_false (f : Term) (pol : Option Bool) : fPosPs sps pol f ≠ .ok false := by
  induction f using Term.induct generalizing pol with
  | tvar _ _ | bvar _ _ _ | tconst _ _ _ | ttrue _ | tfalse _ => exact fun h => nomatch h
  | tapp a s tl ty _ =>
    refine andAlso_ne_false (headPosPs_ne_false s pol) fun h => ?_
    obtain ⟨t, -, ht⟩ := exists_of_allM h nofun
    exact tPosPs_ne_false t ht
  | tif a f g h hf hg hh => exact andAlso_ne_false (hf _) (andAlso_ne_false (hg _) (hh _))
  | tlet a t v e _ he => exact andAlso_ne_false (tPosPs_ne_false t) (he _)
  | tcase a t bl _ hbl =>
    refine andAlso_ne_false (tPosPs_ne_false t) ?_
    induction bl with
    | nil => exact fun h => nomatch h
    | cons b bl ih =>
      exact andAlso_ne_false (hbl b mem_cons_self _)
        (ih fun b' hb' => hbl b' (mem_cons_of_mem _ hb'))
  | teps a v f hf => exact hf pol
  | tquant a q vl tr f htr hf =>
    refine andAlso_ne_false (hf _) ?_
    have hlist (l : List Term) (hl : ∀ t ∈ l, ∀ pol, fPosPs sps pol t ≠ .ok false) :
        fPosList sps pol l ≠ .ok false := by
      induction l with
      | nil => exact fun h => nomatch h
      | cons t l ih =>
        refine andAlso_ne_false ?_ (ih fun t' ht' => hl t' (mem_cons_of_mem _ ht'))
        split
        · exact hl t mem_cons_self pol
        · exact tPosPs_ne_false t
    induction tr with
    | nil => exact fun h => nomatch h
    | cons l tr ih =>
      exact andAlso_ne_false (hlist l (htr l mem_cons_self))
        (ih fun l' hl' => htr l' (mem_cons_of_mem _ hl'))
  | tbinop a op f g hf hg => cases op <;> exact andAlso_ne_false (hf _) (hg _)
  | tnot a f hf => exact hf _

end Visited

/-! Interpretations that differ in their predicates. -/

namespace Interp

variable {C : AlgSig} {D : Type}

/-- The interpretation with other predicates. -/
def withPr (I : Interp C D) (q : LSymbol → List D → Prop) (hq : ∀ a b, q psEqu [a, b] ↔ a = b) :
    Interp C D :=
  { I with pr := q, equ := hq }

variable {I J : Interp C D} {q : LSymbol → List D → Prop} {hq : ∀ a b, q psEqu [a, b] ↔ a = b}
  {ρ : VSymbol → D}

@[simp] theorem patOk_withPr (p : Pattern) (d : D) : (I.withPr q hq).patOk p d = I.patOk p d :=
  patOk_congr (J := I.withPr q hq) (I := I) rfl p d

@[simp] theorem patVals_withPr (p : Pattern) (d : D) :
    (I.withPr q hq).patVals p d = I.patVals p d :=
  patVals_congr (J := I.withPr q hq) (I := I) rfl rfl p d

theorem lsymsList_eq (tl : List Term) : lsymsList tl = tl.flatMap lsymsTerm :=
  ListRec.eq_flatMap rfl (fun _ _ => rfl) tl

theorem lsymsBranches_eq (bl : List (Pattern × Term)) :
    lsymsBranches bl = bl.flatMap fun b => lsymsPat b.1 ++ lsymsTerm b.2 :=
  ListRec.eq_flatMap rfl (fun _ _ => rfl) bl

/-- A term has the same value when its predicates have the same meaning. -/
theorem sem_withPr (t : Term) :
    ∀ β, (∀ s ∈ lsymsTerm t, q s = I.pr s) → (I.withPr q hq).sem ρ β t = I.sem ρ β t := by
  induction t using Term.induct with
  | tvar _ _ | bvar _ _ _ | tconst _ _ _ | ttrue _ | tfalse _ => exact fun _ _ => rfl
  | tapp a ls tl ty ih =>
    intro β h
    rw [lsymsTerm, lsymsList_eq] at h
    have hargs : tl.map ((I.withPr q hq).val ρ β) = tl.map (I.val ρ β) :=
      map_congr_left fun t ht => congrArg Prod.fst (ih t ht β fun s hs =>
        h s (mem_cons_of_mem _ (mem_flatMap.mpr ⟨t, ht, hs⟩)))
    cases ty with
    | none =>
      simp only [sem, semList_eq_map, hargs]
      exact congrArg (fun p : List D → Prop => (I.junk, p (tl.map (I.val ρ β))))
        (h ls mem_cons_self)
    | some ty =>
      simp only [sem, semList_eq_map, hargs]
      rfl
  | tif a f t e hf ht he =>
    intro β h
    simp only [lsymsTerm, mem_append] at h
    simp only [sem, hf β fun s hs => h s (.inl (.inl hs)), ht β fun s hs => h s (.inl (.inr hs)),
      he β fun s hs => h s (.inr hs)]
  | tlet a t v e ht he =>
    intro β h
    simp only [lsymsTerm, mem_append] at h
    simp only [sem, ht β fun s hs => h s (.inl hs), he _ fun s hs => h s (.inr hs)]
  | tcase a t bl ht hbl =>
    intro β h
    simp only [lsymsTerm, mem_append, lsymsBranches_eq, mem_flatMap] at h
    rw [sem, ht β fun s hs => h s (.inl hs)]
    exact semBranches_congr patOk_withPr patVals_withPr _ _ fun b hb β =>
      hbl b hb β fun s hs => h s (.inr ⟨b, hb, .inr hs⟩)
  | teps a v f hf =>
    intro β h
    simp only [sem, hf _ h]
    rfl
  | tquant a q' vl tr f _ hf =>
    intro β h
    simp only [lsymsTerm, mem_append] at h
    cases q' <;> simp only [sem, hf _ fun s hs => h s (.inr hs)] <;> rfl
  | tbinop a op f g hf hg =>
    intro β h
    simp only [lsymsTerm, mem_append] at h
    cases op <;> simp only [sem, hf β fun s hs => h s (.inl hs),
      hg β fun s hs => h s (.inr hs)] <;> rfl
  | tnot a f hf =>
    intro β h
    simp only [sem, hf β h]
    rfl

/-- The interpretations agree, but the predicates of `sps` are larger in `J`. -/
structure Below (sps : List LSymbol) (I J : Interp C D) : Prop where
  dom : J.dom = I.dom
  witness : J.witness = I.witness
  fn : J.fn = I.fn
  const : J.const = I.const
  choose : J.choose = I.choose
  destr : J.destr = I.destr
  other : ∀ s ∉ sps, J.pr s = I.pr s
  le : ∀ s ∈ sps, I.pr s ≤ J.pr s

theorem Below.eq_withPr {sps : List LSymbol} (h : Below sps I J) : J = I.withPr J.pr J.equ := by
  obtain ⟨hdom, hwitness, hfn, hconst, hchoose, hdestr, -, -⟩ := h
  cases J
  cases hdom
  cases hwitness
  cases hfn
  cases hconst
  cases hchoose
  cases hdestr
  rfl

variable {sps : List LSymbol}

theorem sem_of_tPosPs {t : Term} (hother : ∀ s ∉ sps, q s = I.pr s)
    (h : tPosPs sps t = .ok true) (β : List D) : (I.withPr q hq).sem ρ β t = I.sem ρ β t :=
  sem_withPr t β fun s hs => hother s ((tPosPs_eq_ok h).2 s hs)

theorem semBranches_follows {β : List D} (d : D)
    (h : ∀ b ∈ bl, ∀ β, Follows pol (I.sem ρ β b.2).2 ((I.withPr q hq).sem ρ β b.2).2) :
    Follows pol (I.semBranches ρ β d (I.junk, False) bl).2
      ((I.withPr q hq).semBranches ρ β d (I.junk, False) bl).2 := by
  induction bl with
  | nil => exact .of_iff Iff.rfl
  | cons b bl ih =>
    simp only [semBranches, patOk_withPr, patVals_withPr]
    split
    · exact h b mem_cons_self _
    · exact ih fun b' hb' => h b' (mem_cons_of_mem _ hb')

/-- An accepted formula follows the predicates in the direction of the polarity. -/
theorem fPosPs_follows (hother : ∀ s ∉ sps, q s = I.pr s) (hle : ∀ s ∈ sps, I.pr s ≤ q s)
    (f : Term) : ∀ pol β, fPosPs sps pol f = .ok true →
      Follows pol (I.sem ρ β f).2 ((I.withPr q hq).sem ρ β f).2 := by
  induction f using Term.induct with
  | tvar _ _ | bvar _ _ _ | tconst _ _ _ | ttrue _ | tfalse _ =>
    exact fun _ _ _ => .of_iff Iff.rfl
  | tapp a s tl ty _ =>
    intro pol β h
    cases ty with
    | some ty => exact .of_iff Iff.rfl
    | none =>
      obtain ⟨hhead, htl⟩ := andAlso_eq_true.mp h
      have hargs : tl.map ((I.withPr q hq).val ρ β) = tl.map (I.val ρ β) := by
        refine map_congr_left fun t ht => congrArg Prod.fst ?_
        exact sem_of_tPosPs hother (allM_eq_true htl t ht) β
      simp only [sem, semList_eq_map, hargs]
      by_cases hs : s ∈ sps
      · rcases pol with _ | _ | _
        · exact absurd hs (lsMem_not_eq_ok.mp hhead).1
        · exact absurd hs (lsMem_not_eq_ok.mp hhead).1
        · exact hle s hs _
      · exact .of_iff (iff_of_eq (congrFun (hother s hs) _).symm)
  | tif a f g h hf hg hh =>
    intro pol β hpos
    obtain ⟨hfp, hgh⟩ := andAlso_eq_true.mp hpos
    obtain ⟨hgp, hhp⟩ := andAlso_eq_true.mp hgh
    have hcond : (I.sem ρ β f).2 ↔ ((I.withPr q hq).sem ρ β f).2 := hf none β hfp
    simp only [sem, select_snd]
    exact .and (.imp (.of_iff hcond) (hg pol β hgp))
      (.imp (.of_iff (not_congr hcond)) (hh pol β hhp))
  | tlet a t v e _ he =>
    intro pol β h
    obtain ⟨ht, h⟩ := andAlso_eq_true.mp h
    simp only [sem, sem_of_tPosPs hother ht]
    exact he pol _ h
  | tcase a t bl _ hbl =>
    intro pol β h
    obtain ⟨ht, h⟩ := andAlso_eq_true.mp h
    rw [sem, sem, sem_of_tPosPs hother ht]
    exact semBranches_follows _ fun b hb β => hbl b hb pol β (fPosBranches_eq_true.mp h b hb)
  | teps a v f _ => exact fun _ _ _ => .of_iff Iff.rfl
  | tquant a q' vl tr f _ hf =>
    intro pol β h
    obtain ⟨hbody, -⟩ := andAlso_eq_true.mp h
    cases q' with
    | tforall => exact .all fun ds => .imp (.of_iff Iff.rfl) (hf pol _ hbody)
    | texists => exact .ex fun ds => .and (.of_iff Iff.rfl) (hf pol _ hbody)
  | tbinop a op f g hf hg =>
    intro pol β h
    cases op with
    | tand =>
      obtain ⟨h1, h2⟩ := andAlso_eq_true.mp h
      exact .and (hf pol β h1) (hg pol β h2)
    | tor =>
      obtain ⟨h1, h2⟩ := andAlso_eq_true.mp h
      exact .or (hf pol β h1) (hg pol β h2)
    | timplies =>
      obtain ⟨h1, h2⟩ := andAlso_eq_true.mp h
      exact .imp (hf _ β h1) (hg pol β h2)
    | tiff =>
      obtain ⟨h1, h2⟩ := andAlso_eq_true.mp h
      exact .of_iff (iff_congr (hf none β h1) (hg none β h2))
  | tnot a f hf => exact fun pol β h => .not (hf _ β h)

theorem Below.follows (h : Below sps I J) {f : Term} (hf : fPosPs sps pol f = .ok true) (β : List D)
    : Follows pol (I.holds ρ β f) (J.holds ρ β f) := by
  rw [h.eq_withPr]
  exact fPosPs_follows h.other h.le f pol β hf

/-! The operator of a set of clauses. -/

/-- The interpretation with the candidate `X` for the predicates of `sps`. -/
def withPreds (I : Interp C D) (sps : List LSymbol) (X : LSymbol → List D → Prop) : Interp C D :=
  I.withPr
    (fun s args => (s ∈ sps ∧ s ≠ psEqu → X s args) ∧ (¬ (s ∈ sps ∧ s ≠ psEqu) → I.pr s args))
    fun a b => by simp [I.equ a b]

theorem below_withPreds {X Y : LSymbol → List D → Prop} (h : X ≤ Y) :
    Below sps (I.withPreds sps X) (I.withPreds sps Y) where
  dom := rfl
  witness := rfl
  fn := rfl
  const := rfl
  choose := rfl
  destr := rfl
  other := fun s hs => by simp [withPreds, withPr, hs]
  le := fun s _ args hX => ⟨fun hs => h s args (hX.1 hs), hX.2⟩

/-- What one application of the clauses derives from `X`. -/
def indOperator (I : Interp C D) (idl : List IndDecl) (X : LSymbol → List D → Prop) :
    LSymbol → List D → Prop :=
  fun ps args => ∃ d ∈ idl, d.1 = ps ∧ ∃ ax ∈ d.2, ∃ ρ : VSymbol → D, (∀ v, I.dom v.vsTy (ρ v)) ∧
    (∀ g ∈ (clause 0 [] [] ax.2).1, (I.withPreds (idl.map (·.1)) X).holds ρ [] g) ∧
    ∃ a tl ty, (clause 0 [] [] ax.2).2 = .tapp a ps tl ty ∧ args = tl.map (I.val ρ [])

end Interp

/-! Accepted declarations. -/

theorem checkAx_ok {sps : List LSymbol} {ps : LSymbol} {news news' : List Ident}
    {ax : PrSymbol × Term} (h : checkAx sps ps news ax = .ok news') :
    ∀ g ∈ (clause 0 [] [] ax.2).1, fPosPs sps (some true) g = .ok true := by
  obtain ⟨f, hf, h⟩ := bind_eq_ok.mp h
  have hfeq : f = ax.2 := by
    rw [checkFvs] at hf
    split at hf
    · nomatch hf
    · split at hf
      · exact (Except.ok.inj hf).symm
      · nomatch hf
  subst hfeq
  dsimp only at h
  split at h
  next =>
    split at h
    next =>
      obtain ⟨⟨⟩, -, h⟩ := bind_eq_ok.mp h
      obtain ⟨⟨⟩, hpos, -⟩ := bind_eq_ok.mp h
      rw [checkPosPs] at hpos
      split at hpos
      next b hall =>
        cases b with
        | true => exact fun g hg => allM_eq_true hall g (mem_cons_of_mem _ hg)
        | false =>
          obtain ⟨g, -, hg⟩ := exists_of_allM hall nofun
          exact absurd hg (fPosPs_ne_false g _)
      next => nomatch hpos
    next => nomatch h
  next => nomatch h

theorem createIndDecl_ok {tag : Nat} {s : IndSign} {idl : List IndDecl} {d : Decl}
    (h : createIndDecl tag s idl = .ok d) : ∀ id ∈ idl, ∀ ax ∈ id.2, ∀ g ∈ (clause 0 [] [] ax.2).1,
      fPosPs (idl.map (·.1)) (some true) g = .ok true := by
  intro id hid ax hax
  rw [createIndDecl] at h
  split at h
  · nomatch h
  · obtain ⟨news, hnews, -⟩ := bind_eq_ok.mp h
    obtain ⟨news1, news2, hcheck⟩ := Except.foldlM_run_mem hnews hid
    rw [checkIndDecl] at hcheck
    split at hcheck
    · nomatch hcheck
    · obtain ⟨news3, -, hfold⟩ := bind_eq_ok.mp hcheck
      obtain ⟨news4, news5, hrun⟩ := Except.foldlM_run_mem hfold hax
      exact checkAx_ok hrun

/-- The premises of an accepted declaration are monotone, a formula accepted by
`fPosPs` follows the predicates in the direction of the polarity, and the operator of
the clauses is monotone with a least and a greatest fixpoint. -/
theorem createIndDecl_monotone {tag : Nat} {s : IndSign} {idl : List IndDecl} {d : Decl}
    (h : createIndDecl tag s idl = .ok d) {C : AlgSig} {D : Type} (I : Interp C D) :
    (∀ J, I.Below (idl.map (·.1)) J → ∀ id ∈ idl, ∀ ax ∈ id.2, ∀ g ∈ (clause 0 [] [] ax.2).1,
      ∀ ρ, I.holds ρ [] g → J.holds ρ [] g) ∧
    (∀ sps J, I.Below sps J → ∀ pol f, fPosPs sps pol f = .ok true →
      ∀ ρ β, Follows pol (I.holds ρ β f) (J.holds ρ β f)) ∧
    Monotone (I.indOperator idl) ∧ (∃ X, IsLeast (Function.fixedPoints (I.indOperator idl)) X) ∧
    ∃ X, IsGreatest (Function.fixedPoints (I.indOperator idl)) X := by
  have hpos := createIndDecl_ok h
  have hmono : Monotone (I.indOperator idl) := by
    rintro X Y hXY ps args ⟨id, hid, rfl, ax, hax, ρ, hρ, hprem, hhead⟩
    refine ⟨id, hid, rfl, ax, hax, ρ, hρ, fun g hg => ?_, hhead⟩
    exact (Interp.below_withPreds hXY).follows (hpos id hid ax hax g hg) [] (hprem g hg)
  refine ⟨fun J hJ id hid ax hax g hg ρ => hJ.follows (hpos id hid ax hax g hg) [],
    fun sps J hJ pol f hf ρ β => hJ.follows hf β, hmono, ?_, ?_⟩
  · exact ⟨_, OrderHom.isLeast_lfp ⟨I.indOperator idl, hmono⟩⟩
  · exact ⟨_, OrderHom.isGreatest_gfp ⟨I.indOperator idl, hmono⟩⟩

def psEven : LSymbol := ⟨⟨"even", 50⟩, [tyInt], none, 0⟩

def fsStep : LSymbol := ⟨⟨"step", 51⟩, [tyInt], some tyInt, 0⟩

/-- `inductive even int = step_even: forall x. let y = step x in even x -> even y` -/
def evenDecl : List IndDecl :=
  let x : VSymbol := ⟨⟨"x", 52⟩, tyInt⟩
  let y : VSymbol := ⟨⟨"y", 53⟩, tyInt⟩
  let even (t : Term) : Term := .tapp ∅ psEven [t] none
  [(psEven, [(⟨⟨"step_even", 54⟩⟩, .tquant ∅ .tforall [x] []
    (.tlet ∅ (fsApp fsStep [.bvar ∅ 0 tyInt] tyInt) y
      (tImplies (even (.bvar ∅ 1 tyInt)) (even (.bvar ∅ 0 tyInt)))))])]

theorem createIndDecl_monotone_even : createIndDecl 0 .ind evenDecl =
        .ok ⟨.dind .ind evenDecl, [⟨"step_even", 54⟩, ⟨"even", 50⟩], 0⟩ ∧
      ∀ (C : AlgSig) (D : Type) (I : Interp C D), Monotone (I.indOperator evenDecl) := by
  have haccepted : createIndDecl 0 .ind evenDecl =
      .ok ⟨.dind .ind evenDecl, [⟨"step_even", 54⟩, ⟨"even", 50⟩], 0⟩ := rfl
  exact ⟨haccepted, fun C D I => (createIndDecl_monotone haccepted I).2.2.1⟩

end Why3
