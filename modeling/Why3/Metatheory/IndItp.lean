import Why3.Semantics.PatMap
import Why3.Transform.IndItp

/-!
Integer induction is sound when the bound and the hypotheses that are left out do not
depend on what is generalised.

The recursive hypothesis is about interpretations that differ from the given one in the
values of constants only. Those of the smaller values satisfy the hypotheses again, so
the goal follows by induction on the distance of the constant from the bound.
-/
namespace Why3

open List

variable {C : AlgSig} {D : Type}

namespace Interp

/-- The interpretation with another value of the constant `c`. -/
def withConst (I : Interp C D) (c : LSymbol) (ty : Ty) (d : D) (hc : c.lsConstr = 0)
    (hd : I.dom ty d) : Interp C D :=
  have hne {ts : TySymbol} {c' : LSymbol} (h : c' ∈ C.constrs ts) : c' ≠ c := by
    rintro rfl
    exact absurd (List.length_pos_of_mem h) (by rw [← C.count h, hc]; exact lt_irrefl 0)
  { I with
    fn := fun ls ty' args => if ls = c ∧ args.isEmpty ∧ ty' = ty then d else I.fn ls ty' args
    fn_dom := by
      intro ls ty' args s hval hargs
      split
      next h => exact h.2.2 ▸ hd
      next => exact I.fn_dom s hval hargs
    destr_fn := fun h hargs => by
      rw [if_neg fun h' => hne h h'.1]
      exact I.destr_fn h hargs
    fn_destr := fun h hdom hargs => by
      rw [if_neg fun h' => hne h h'.1]
      exact I.fn_destr h hdom hargs }

end Interp

namespace IndItp

open Interp

/-! Replacing a constant by a variable. -/

section Replace

variable {c : LSymbol} {ty : Ty} {v : VSymbol} {tl : List Term} {bl : List (Pattern × Term)}
  {tr : List (List Term)}

theorem tReplaceList_eq_map : tReplaceList c ty v tl = tl.map (tReplace c ty v) :=
  ListRec.eq_map rfl (fun _ _ => rfl) tl

theorem tReplaceBranches_eq_map :
    tReplaceBranches c ty v bl = bl.map fun b => (b.1, tReplace c ty v b.2) :=
  ListRec.eq_map rfl (fun _ _ => rfl) bl

/-- A list without the constant `c` stays as it is if its elements do. -/
theorem eq_self_of_notMem {α : Type} {F : List α → List α} {S : List α → Finset LSymbol}
    {f : α → α} {g : α → Finset LSymbol} (hnil : F [] = [])
    (hF : ∀ a l, F (a :: l) = f a :: F l) (hS : ∀ a l, S (a :: l) = g a ∪ S l) {l : List α}
    (h : c ∉ S l) (ih : ∀ a ∈ l, c ∉ g a → f a = a) : F l = l := by
  induction l with
  | nil => exact hnil
  | cons a l ihl =>
    rw [hS, Finset.mem_union, not_or] at h
    rw [hF, ih a mem_cons_self h.1, ihl h.2 fun b hb => ih b (mem_cons_of_mem a hb)]

theorem tReplaceList_of_notMem (h : c ∉ addLsList tl)
    (ih : ∀ t ∈ tl, c ∉ addLsTerm t → tReplace c ty v t = t) : tReplaceList c ty v tl = tl :=
  eq_self_of_notMem rfl (fun _ _ => rfl) (fun _ _ => rfl) h ih

theorem tReplace_of_notMem (t : Term) (h : c ∉ addLsTerm t) : tReplace c ty v t = t := by
  induction t using Term.induct with
  | tapp a s tl sty ih =>
    rw [addLsTerm] at h
    rw [tReplace, if_neg]
    · split at h
      next hnil =>
        rw [List.isEmpty_iff.mp hnil]
        rfl
      next => rw [tReplaceList_of_notMem h ih]
    · rintro ⟨rfl, hnil, -⟩
      simp [hnil] at h
  | tcase a t bl ht hbl =>
    simp only [addLsTerm, Finset.mem_union, not_or] at h
    rw [tReplace, ht h.1, eq_self_of_notMem (F := tReplaceBranches c ty v) rfl
      (fun _ _ => rfl) (fun _ _ => rfl) h.2 fun b hb hc => Prod.ext rfl (hbl b hb hc)]
  | tquant a q vl tr f htr hf =>
    simp only [addLsTerm, Finset.mem_union, not_or] at h
    rw [tReplace, hf h.2, eq_self_of_notMem (F := tReplaceTrigger c ty v) rfl
      (fun _ _ => rfl) (fun _ _ => rfl) h.1 fun l hl hc => tReplaceList_of_notMem hc (htr l hl)]
  | _ => simp_all [tReplace, addLsTerm]

variable {I : Interp C D} {ρ : VSymbol → D} (hc : c.lsConstr = 0)

/-- The variable has the value that the constant has in the other interpretation. -/
theorem sem_tReplace (hd : I.dom ty (ρ v)) (t : Term) : ∀ β,
    I.sem ρ β (tReplace c ty v t) = (I.withConst c ty (ρ v) hc hd).sem ρ β t := by
  induction t using Term.induct with
  | tvar _ _ | bvar _ _ _ | tconst _ _ _ | ttrue _ | tfalse _ => exact fun _ => rfl
  | tapp a s tl sty ih =>
    intro β
    rw [tReplace]
    split
    next heq =>
      obtain ⟨rfl, hnil, rfl⟩ := heq
      simp [List.isEmpty_iff.mp hnil, tVar, sem, withConst]
    next hne =>
      have hargs : (tl.map (tReplace c ty v)).map (I.val ρ β) =
          tl.map ((I.withConst c ty (ρ v) hc hd).val ρ β) := by
        rw [map_map]
        exact map_congr_left fun t ht => congrArg Prod.fst (ih t ht β)
      simp only [tReplaceList_eq_map]
      cases sty with
      | none =>
        simp only [sem, semList_eq_map, hargs]
        rfl
      | some sty =>
        simp only [sem, semList_eq_map, hargs, withConst]
        rw [if_neg]
        simpa using hne
  | tif a f t e hf ht he =>
    intro β
    simp only [tReplace, sem, hf β, ht β, he β]
  | tlet a t u e ht he =>
    intro β
    simp only [tReplace, sem, ht β, he]
  | tcase a t bl ht hbl =>
    intro β
    rw [tReplace, tReplaceBranches_eq_map, sem, ht β]
    exact semBranches_map (J := I) (I.withConst c ty (ρ v) hc hd) (patOk_congr rfl)
      (patVals_congr rfl rfl) _ _ _ hbl
  | teps a u f hf =>
    intro β
    simp only [tReplace, sem, hf]
    rfl
  | tquant a q vl tr f _ hf =>
    intro β
    cases q <;> simp only [tReplace, sem, hf] <;> rfl
  | tbinop a op f g hf hg =>
    intro β
    cases op <;> simp only [tReplace, sem, hf β, hg β] <;> rfl
  | tnot a f hf =>
    intro β
    simp only [tReplace, sem, hf β]
    rfl

theorem sem_withConst {d : D} (hd : I.dom ty d) {t : Term} (ht : tVars t = ∅)
    (h : c ∉ addLsTerm t) (β : List D) : (I.withConst c ty d hc hd).sem ρ β t = I.sem ρ β t := by
  let v : VSymbol := ⟨⟨"", 0⟩, ty⟩
  have hv : v ∉ tVars t := by simp [ht]
  have hself : Function.update ρ v d v = d := Function.update_self v d ρ
  have hsem := sem_tReplace hc (hself.symm ▸ hd : I.dom ty (Function.update ρ v d v)) t β
  rw [tReplace_of_notMem t h, sem_update_of_notMem d t hv, sem_update_of_notMem d t hv] at hsem
  simpa only [hself] using hsem.symm

end Replace

/-! The declarations that are generalised. -/

def Sat (I : Interp C D) (f : Term) : Prop := ∀ ρ, I.holds ρ [] f

theorem sat_of_holds {I : Interp C D} {f : Term} (hf : tVars f = ∅) {ρ : VSymbol → D}
    (h : I.holds ρ [] f) : Sat I f := by
  intro ρ'
  rw [holds, sem_congr_env f [] (by simp [hf] : ∀ v ∈ tVars f, ρ' v = ρ v)]
  exact h

theorem sat_forall {I : Interp C D} {v : VSymbol} {f : Term}
    (h : ∀ ρ : VSymbol → D, I.dom v.vsTy (ρ v) → I.holds ρ [] f) :
    Sat I (tQuantClose .tforall [v] [] f) := by
  intro ρ
  rw [holds_tForallClose]
  exact fun ρ' hρ' => h ρ' (hρ'.dom v mem_cons_self)

/-- The declarations, from the last one up, that share a constant with `s` or with a later
one of them. -/
def linked (s : Finset LSymbol) : List DeclNode → List DeclNode
  | [] => []
  | d :: l =>
    if s ∩ collectLsymbol d = ∅ then linked s l else d :: linked (s ∪ collectLsymbol d) l

theorem linked_sublist (l : List DeclNode) : ∀ s, (linked s l).Sublist l := by
  induction l with
  | nil => exact fun s => List.Sublist.slnil
  | cons d l ih =>
    intro s
    rw [linked]
    split
    · exact (ih s).cons d
    · exact (ih _).cons_cons d

variable {n : DeclNode}

theorem notMem_of_not_linked {c : LSymbol} {l : List DeclNode} (hn : n ∈ l) :
    ∀ {s}, c ∈ s → n ∉ linked s l → c ∉ collectLsymbol n := by
  induction l with
  | nil => nomatch hn
  | cons d l ih =>
    intro s hc hlinked
    rw [linked] at hlinked
    split at hlinked
    next hdisj =>
      cases mem_cons.mp hn with
      | inl heq =>
        exact fun h => Finset.eq_empty_iff_forall_notMem.mp hdisj c (by simp [hc, ← heq, h])
      | inr hn => exact ih hn hc hlinked
    next =>
      rw [mem_cons, not_or] at hlinked
      exact ih ((mem_cons.mp hn).resolve_left hlinked.1) (Finset.mem_union_left _ hc) hlinked.2

variable {k : Nat}

theorem foldlM_linked (l : List DeclNode) : ∀ {g s r},
    l.foldlM (revertChosenDecls k) (g, s) = .ok r → (linked s l).foldlM (revert k) g = .ok r.1 := by
  induction l with
  | nil =>
    intro g s r h
    cases h
    rfl
  | cons d l ih =>
    intro g s r h
    obtain ⟨r', hr', h⟩ := Except.foldlM_cons_ok.mp h
    rw [revertChosenDecls] at hr'
    rw [linked]
    split at hr'
    next hdisj =>
      cases hr'
      rw [if_pos hdisj]
      exact ih h
    next hdisj =>
      obtain ⟨g', hg', rfl⟩ := Except.map_eq_ok.mp hr'
      rw [if_neg hdisj]
      exact Except.foldlM_cons_ok.mpr ⟨g', hg', ih h⟩

/-- The interpretations that the generalisation over `l` is about. -/
inductive Varies (I : Interp C D) : List DeclNode → Interp C D → Prop
  | nil : Varies I [] I
  | param {l : List DeclNode} {J : Interp C D} {c : LSymbol} {ty : Ty} {d : D}
    (h : Varies I l J) (hc : c.lsConstr = 0) (hd : J.dom ty d) :
    Varies I (.dparam c :: l) (J.withConst c ty d hc hd)
  | prop {l : List DeclNode} {J : Interp C D} {f : Term} (k : PropKind) (pr : PrSymbol)
    (h : Varies I l J) (hf : Sat J f) : Varies I (.dprop k pr f :: l) J

variable {I J : Interp C D} {l : List DeclNode}

theorem Varies.invariant {P : Interp C D → Prop} (h : Varies I l J)
    (hP : ∀ J c ty d hc hd, .dparam c ∈ l → P J → P (withConst J c ty d hc hd)) (hI : P I) :
    P J := by
  induction h with
  | nil => exact hI
  | param h hc hd ih =>
    refine hP _ _ _ _ hc hd mem_cons_self (ih ?_)
    exact fun J c ty d hc hd hmem => hP J c ty d hc hd (mem_cons_of_mem _ hmem)
  | prop k pr h hf ih =>
    exact ih fun J c ty d hc hd hmem => hP J c ty d hc hd (mem_cons_of_mem _ hmem)

theorem Varies.sem_eq (h : Varies I l J) {t : Term} (ht : tVars t = ∅)
    (hl : ∀ c, .dparam c ∈ l → c ∉ addLsTerm t) (ρ : VSymbol → D) (β : List D) :
    J.sem ρ β t = I.sem ρ β t := by
  refine h.invariant (P := fun J => J.sem ρ β t = I.sem ρ β t) ?_ rfl
  exact fun J c ty d hc hd hmem hJ => (sem_withConst hc hd ht (hl c hmem) β).trans hJ

/-- A declaration does not mention the constants that are declared after it. -/
def Scoped (n n' : DeclNode) : Prop := ∀ c, n' = .dparam c → c ∉ collectLsymbol n

def Closed (n : DeclNode) : Prop := ∀ k pr f, n = .dprop k pr f → tVars f = ∅

theorem Varies.sat (h : Varies I l J) (hscoped : l.Pairwise fun n n' => Scoped n' n)
    (hclosed : ∀ n ∈ l, Closed n) : ∀ k pr f, .dprop k pr f ∈ l → Sat J f := by
  induction h with
  | nil => exact fun k pr f hf => nomatch hf
  | param h hc hd ih =>
    obtain ⟨hhead, htail⟩ := pairwise_cons.mp hscoped
    intro k pr f hf ρ
    have hf := (mem_cons.mp hf).resolve_left (nomatch ·)
    have hfv := hclosed _ (mem_cons_of_mem _ hf) k pr f rfl
    rw [holds, sem_withConst hc hd hfv (hhead _ hf _ rfl)]
    exact ih htail (forall_mem_cons.mp hclosed).2 k pr f hf ρ
  | prop k pr h hf ih =>
    intro k' pr' f' hf'
    cases mem_cons.mp hf' with
    | inl heq =>
      cases heq
      exact hf
    | inr hf' =>
      exact ih (pairwise_cons.mp hscoped).2
        (forall_mem_cons.mp hclosed).2 k' pr' f' hf'

/-- The generalised goal holds if the goal does in all these interpretations. -/
theorem sat_revert (hconst : ∀ c, .dparam c ∈ l → c.lsConstr = 0) (hclosed : ∀ n ∈ l, Closed n)
    : ∀ {g g'}, l.foldlM (revert k) g = .ok g' → (∀ J, Varies I l J → Sat J g) → Sat I g' := by
  induction l with
  | nil =>
    intro g g' h hg
    cases h
    exact hg I .nil
  | cons n l ih =>
    intro g g' h hg
    obtain ⟨g1, hg1, h⟩ := Except.foldlM_cons_ok.mp h
    refine ih (fun c hc => hconst c (mem_cons_of_mem _ hc))
      (fun n hn => hclosed n (mem_cons_of_mem _ hn)) h fun J hJ => ?_
    cases n with
    | dparam c =>
      rw [revert] at hg1
      split at hg1
      next ty _ hval =>
        cases hg1
        refine sat_forall fun ρ hd => ?_
        rw [holds, sem_tReplace (hconst c mem_cons_self) hd]
        exact hg _ (hJ.param _ hd) ρ
      next => cases hg1
    | dprop kind pr f =>
      cases kind with
      | pgoal => cases hg1
      | paxiom | plemma =>
        cases hg1
        intro ρ hf
        exact hg J (hJ.prop _ pr (sat_of_holds (hclosed _ mem_cons_self _ pr f rfl) hf)) ρ
    | _ => cases hg1

/-! Validity. -/

theorem dom_const {c : LSymbol} (h : c.lsArgs = [] ∧ c.lsValue = some tyInt) (I : Interp C D) :
    I.dom tyInt (I.fn c tyInt []) := by
  refine I.fn_dom [] ?_ ?_
  · rw [h.2]
    rfl
  · rw [h.1]
    exact .nil

/-- The integers are those of the theory. -/
structure Standard (leInt ltInt : LSymbol) (I : Interp C D) (toInt : D → Int) : Prop where
  bij : Set.BijOn toInt { d | I.dom tyInt d } Set.univ
  le : ∀ {a b}, I.dom tyInt a → I.dom tyInt b → (I.pr leInt [a, b] ↔ toInt a ≤ toInt b)
  lt : ∀ {a b}, I.dom tyInt a → I.dom tyInt b → (I.pr ltInt [a, b] ↔ toInt a < toInt b)

def isGoal : DeclNode → Bool
  | .dprop .pgoal _ _ => true
  | _ => false

def DeclHolds (I : Interp C D) : DeclNode → Prop
  | .dprop _ _ f => Sat I f
  | _ => True

/-- What is known of the models beside the formulas of the task: the meaning of the other
declarations and the instances of the polymorphic formulas. -/
abbrev Context (C : AlgSig) := (D : Type) → Interp C D → Prop

def Valid (K : Context C) (leInt ltInt : LSymbol) (task : List DeclNode) : Prop :=
  ∀ (D : Type) (I : Interp C D) (toInt : D → Int), Standard leInt ltInt I toInt → K D I →
    (∀ n ∈ task, isGoal n = false → DeclHolds I n) → ∀ n ∈ task, isGoal n = true → DeclHolds I n

/-- A task with the integer constant `x`, followed by constants and hypotheses only. -/
structure IntTask where
  pre : List DeclNode
  x : LSymbol
  post : List DeclNode
  pr : PrSymbol
  goal : Term
  value : x.lsArgs = [] ∧ x.lsValue = some tyInt
  const : ∀ c, .dparam c ∈ .dparam x :: post → c.lsConstr = 0
  plain : ∀ n ∈ pre, isGoal n = false
  hyps : ∀ n ∈ post, (∃ c, n = .dparam c) ∨ ∃ k pr f, n = .dprop k pr f ∧ k ≠ .pgoal
  inScope : (pre ++ .dparam x :: post).Pairwise Scoped
  closed : ∀ n ∈ pre ++ post, Closed n

namespace IntTask

variable (t : IntTask)

def hypotheses : List DeclNode := t.pre ++ .dparam t.x :: t.post

def decls : List DeclNode := t.hypotheses ++ [.dprop .pgoal t.pr t.goal]

/-- What the pass from the goal up generalises. -/
def generalised : List DeclNode := linked ({t.x} ∪ addLsTerm t.goal) t.post.reverse

theorem isGoal_hypotheses (hn : n ∈ t.hypotheses) : isGoal n = false := by
  rcases mem_append.mp hn with hn | hn
  · exact t.plain n hn
  · rcases mem_cons.mp hn with rfl | hn
    · rfl
    · rcases t.hyps n hn with ⟨c, rfl⟩ | ⟨k, pr, f, rfl, hk⟩
      · rfl
      · cases k <;> first | rfl | exact absurd rfl hk

theorem ne_x_of_pre (hn : n ∈ t.pre) : n ≠ .dparam t.x := by
  rintro rfl
  exact (pairwise_append.mp t.inScope).2.2 _ hn _ mem_cons_self t.x rfl
    (Finset.mem_singleton_self t.x)

theorem ne_x_of_post (hn : n ∈ t.post) : n ≠ .dparam t.x := by
  rintro rfl
  exact (pairwise_cons.mp (pairwise_append.mp t.inScope).2.1).1 _ hn t.x rfl
    (Finset.mem_singleton_self t.x)

theorem flatMap_initTrans (leInt : LSymbol) (k : Nat) (x bound : Term) :
    t.decls.flatMap (initTrans leInt k x bound) = t.hypotheses ++
      [createAxiom k "Init" (.tapp ∅ leInt [x, bound] none),
        createGoal "base case" t.pr t.goal] := by
  have hid (l : List DeclNode) (h : ∀ n ∈ l, isGoal n = false) :
      l.flatMap (initTrans leInt k x bound) = l := by
    induction l with
    | nil => rfl
    | cons n l ih =>
      have hn : initTrans leInt k x bound n = [n] := by
        rw [initTrans]
        rintro pr f rfl
        nomatch h _ mem_cons_self
      rw [flatMap_cons, hn, ih fun n' hn' => h n' (mem_cons_of_mem n hn')]
      rfl
  rw [decls, flatMap_append, hid _ fun n hn => t.isGoal_hypotheses hn]
  rfl

variable {ltInt : LSymbol} {k : Nat} {x bound : Term} {r : List DeclNode}

theorem recTrans_cons {lsx : LSymbol} {passed : Bool} {delta l : List DeclNode}
    (hgoal : isGoal n = false) (hne : n ≠ .dparam lsx)
    (h : recTrans ltInt k lsx x bound passed delta (n :: l) = .ok r) :
    ∃ r', recTrans ltInt k lsx x bound passed (if passed then n :: delta else delta) l = .ok r' ∧
      n :: r' = r := by
  cases n with
  | dparam c =>
    have hc : c ≠ lsx := fun heq => hne (congrArg _ heq)
    simp only [recTrans, if_neg hc] at h
    exact Except.map_eq_ok.mp h
  | dprop kind pr f =>
    cases kind with
    | pgoal => nomatch hgoal
    | _ => exact Except.map_eq_ok.mp h
  | _ =>
    cases passed with
    | true => nomatch h
    | false => exact Except.map_eq_ok.mp h

theorem recTrans_append {lsx : LSymbol} {passed : Bool} {l1 l : List DeclNode}
    (hl1 : ∀ n ∈ l1, isGoal n = false ∧ n ≠ .dparam lsx) : ∀ {delta r},
    recTrans ltInt k lsx x bound passed delta (l1 ++ l) = .ok r →
      ∃ r', recTrans ltInt k lsx x bound passed (if passed then l1.reverse ++ delta else delta) l =
        .ok r' ∧ l1 ++ r' = r := by
  induction l1 with
  | nil =>
    intro delta r h
    exact ⟨r, by simpa using h, rfl⟩
  | cons n l1 ih =>
    intro delta r h
    obtain ⟨hgoal, hne⟩ := hl1 n mem_cons_self
    obtain ⟨r1, hr1, rfl⟩ := recTrans_cons hgoal hne h
    obtain ⟨r', hr', rfl⟩ := ih (fun n' hn' => hl1 n' (mem_cons_of_mem n hn')) hr1
    cases passed <;> exact ⟨r', by simpa using hr', rfl⟩

theorem recTrans_decls (h : recTrans ltInt k t.x x bound false [] t.decls = .ok r) :
    ∃ g, t.generalised.foldlM (revert k) t.goal = .ok g ∧ r = t.hypotheses ++
      [createAxiom k "Init" (.tapp ∅ ltInt [bound, x] none),
        createAxiom k "Hrec" (hrec ltInt k t.x x g),
        createGoal "recursive case" t.pr t.goal] := by
  rw [decls, hypotheses, append_assoc] at h
  obtain ⟨r1, hr1, rfl⟩ := recTrans_append (fun n hn => ⟨t.plain n hn, t.ne_x_of_pre hn⟩) h
  rw [if_neg Bool.false_ne_true, cons_append, recTrans, if_pos rfl] at hr1
  obtain ⟨r2, hr2, rfl⟩ := Except.map_eq_ok.mp hr1
  obtain ⟨r3, hr3, rfl⟩ := recTrans_append (fun n hn => ⟨t.isGoal_hypotheses
    (mem_append_right _ (mem_cons_of_mem _ hn)), t.ne_x_of_post hn⟩) hr2
  rw [append_nil] at hr3
  obtain ⟨g, hg, hr3⟩ := Except.bind_eq_ok.mp hr3
  cases hr3
  obtain ⟨gs, hgs, rfl⟩ := Except.map_eq_ok.mp hg
  exact ⟨gs.1, foldlM_linked _ hgs, by simp [hypotheses]⟩

/-! Interpretations in which the hypotheses of the task hold. -/

structure Models (K : Context C) (leInt ltInt : LSymbol) (I : Interp C D) (toInt : D → Int) :
    Prop where
  standard : Standard leInt ltInt I toInt
  context : K D I
  holds : ∀ n ∈ t.hypotheses, DeclHolds I n

variable {t} {K : Context C} {leInt : LSymbol} {toInt : D → Int}

theorem Models.sat_goal (h : t.Models K leInt ltInt I toInt) (axs : List DeclNode) {e : String}
    (hvalid : Valid K leInt ltInt (t.hypotheses ++ (axs ++ [createGoal e t.pr t.goal])))
    (haxs : ∀ n ∈ axs, DeclHolds I n) : Sat I t.goal := by
  intro ρ
  have hgoal := hvalid D I toInt h.standard h.context ?_ (createGoal e t.pr t.goal) (by simp) rfl ρ
  · rwa [Interp.holds, tAttrAdd, sem_setAttrs] at hgoal
  · intro n hn hn'
    simp only [mem_append, mem_singleton] at hn
    rcases hn with hn | hn | rfl
    · exact h.holds n hn
    · exact haxs n hn
    · cases hn'

/-- The hypotheses that are not generalised mention none of the generalised constants. -/
def Separate (t : IntTask) : Prop :=
  ∀ n ∈ t.post, n ∉ t.generalised → ∀ c, .dparam c ∈ t.generalised → c ∉ collectLsymbol n

theorem mem_post (h : n ∈ t.generalised) : n ∈ t.post :=
  mem_reverse.mp ((linked_sublist _ _).subset h)

/-- The hypotheses hold again for another value of `x` and of the generalised constants. -/
theorem Models.varies (h : t.Models K leInt ltInt I toInt) (hsep : t.Separate)
    (hK : ∀ (I : Interp C D) c ty d hc hd, .dparam c ∈ .dparam t.x :: t.post → K D I →
      K D (I.withConst c ty d hc hd))
    {d : D} {hc : t.x.lsConstr = 0} {hd : I.dom tyInt d}
    (hJ : Varies (I.withConst t.x tyInt d hc hd) t.generalised J) :
    t.Models K leInt ltInt J toInt where
  standard := hJ.invariant (P := fun J => Standard leInt ltInt J toInt)
    (fun _ _ _ _ _ _ _ hJ => { hJ with }) { h.standard with }
  context := hJ.invariant (P := K D)
    (fun J c ty d hc hd hmem => hK J c ty d hc hd (mem_cons_of_mem _ (mem_post hmem)))
    (hK I _ _ _ _ _ mem_cons_self h.context)
  holds := by
    obtain ⟨-, hpost, hcross⟩ := pairwise_append.mp t.inScope
    -- a formula without the changed constants has the value it had
    have hkeep (k pr f) (hmem : .dprop k pr f ∈ t.hypotheses) (hf : tVars f = ∅)
        (hx : t.x ∉ addLsTerm f) (hl : ∀ c, .dparam c ∈ t.generalised → c ∉ addLsTerm f) :
        Sat J f := by
      intro ρ
      rw [Interp.holds, hJ.sem_eq hf hl, sem_withConst hc hd hf hx]
      exact h.holds _ hmem ρ
    intro n hn
    cases n with
    | dprop k pr f =>
      rcases mem_append.mp hn with hpre | hmem
      · refine hkeep k pr f hn (t.closed _ (mem_append_left _ hpre) k pr f rfl)
          (hcross _ hpre _ mem_cons_self t.x rfl) fun c hc' => ?_
        exact hcross _ hpre _ (mem_cons_of_mem _ (mem_post hc')) c rfl
      · have hmem := (mem_cons.mp hmem).resolve_left (by simp)
        by_cases hgen : .dprop k pr f ∈ t.generalised
        · refine hJ.sat ?_ (fun n hn => t.closed n (mem_append_right _ (mem_post hn))) k pr f
            hgen
          exact (pairwise_reverse.mpr (pairwise_cons.mp hpost).2).sublist
            (linked_sublist _ _)
        · refine hkeep k pr f hn (t.closed _ (mem_append_right _ hmem) k pr f rfl) ?_
            (hsep _ hmem hgen)
          exact notMem_of_not_linked (mem_reverse.mpr hmem) (by simp) hgen
    | _ => trivial

end IntTask

variable {leInt ltInt : LSymbol} {K : Context C}

/-- The goal holds for every value of `x`, by induction on its distance from the bound. -/
theorem IntTask.Models.sat {t : IntTask} {a : Attrs} {b g : Term} {toInt : D → Int}
    (hsep : t.Separate) (hclosed : tVars b = ∅)
    (hfixed : ∀ c, .dparam c ∈ .dparam t.x :: t.post → c ∉ addLsTerm b)
    (hK : ∀ (I : Interp C D) c ty d hc hd, .dparam c ∈ .dparam t.x :: t.post → K D I →
      K D (I.withConst c ty d hc hd)) (hg : t.generalised.foldlM (revert k) t.goal = .ok g)
    (hbase : Valid K leInt ltInt (t.hypotheses ++
      [createAxiom k "Init" (.tapp ∅ leInt [.tapp a t.x [] (some tyInt), b] none),
        createGoal "base case" t.pr t.goal]))
    (hrec : Valid K leInt ltInt (t.hypotheses ++
      [createAxiom k "Init" (.tapp ∅ ltInt [b, .tapp a t.x [] (some tyInt)] none),
        createAxiom k "Hrec" (hrec ltInt k t.x (.tapp a t.x [] (some tyInt)) g),
        createGoal "recursive case" t.pr t.goal])) {z : D} (m : Nat)
    : ∀ I : Interp C D, t.Models K leInt ltInt I toInt → I.dom tyInt z →
      (∀ ρ, I.val ρ [] b = z) → (toInt (I.fn t.x tyInt []) - toInt z).toNat = m →
        Sat I t.goal := by
  have hc := t.const t.x mem_cons_self
  induction m using Nat.strong_induction_on with
  | _ m ih =>
    intro I hI hz hb hm
    have hx := dom_const t.value I
    by_cases hle : toInt (I.fn t.x tyInt []) ≤ toInt z
    · refine hI.sat_goal [_] hbase fun n hn => ?_
      rw [mem_singleton.mp hn]
      intro ρ
      simp only [Interp.holds, sem, semList_eq_map, map_cons, hb]
      exact (hI.standard.le hx hz).mpr hle
    · refine hI.sat_goal [_, _] hrec fun n hn => ?_
      simp only [mem_cons, not_mem_nil, or_false] at hn
      rcases hn with rfl | rfl
      · intro ρ
        simp only [Interp.holds, sem, semList_eq_map, map_cons, hb]
        exact (hI.standard.lt hz hx).mpr (not_le.mp hle)
      · refine sat_forall fun ρ hd hlt => ?_
        have hlt := (hI.standard.lt hd hx).mp hlt
        rw [sem_tReplace hc hd]
        refine sat_revert
          (fun c hmem => t.const c (mem_cons_of_mem _ (mem_post hmem)))
          (fun n hn => t.closed n (mem_append_right _ (mem_post hn))) hg (fun J hJ => ?_) ρ
        have hxJ : J.fn t.x tyInt [] = ρ ⟨⟨"n", k⟩, tyInt⟩ := by
          refine hJ.invariant (P := fun J => J.fn t.x tyInt [] = _) ?_ (if_pos ⟨rfl, rfl, rfl⟩)
          intro J c ty d hc hd hmem hJ
          refine (if_neg fun heq => ?_).trans hJ
          exact t.ne_x_of_post (mem_post hmem) (congrArg _ heq.1.symm)
        refine ih _ ?_ J (hI.varies hsep hK hJ) ?_ (fun ρ => ?_) rfl
        · rw [hxJ]
          omega
        · exact hJ.invariant (P := fun J => J.dom tyInt z) (fun _ _ _ _ _ _ _ h => h) hz
        · rw [val, hJ.sem_eq hclosed fun c hmem => hfixed c (mem_cons_of_mem _ (mem_post hmem)),
            sem_withConst hc hd hclosed (hfixed _ mem_cons_self)]
          exact hb ρ

section Order

def lsLe : LSymbol := ⟨⟨"infix <=", 1⟩, [tyInt, tyInt], none, 0⟩

def lsLt : LSymbol := ⟨⟨"infix <", 2⟩, [tyInt, tyInt], none, 0⟩

def lsX : LSymbol := ⟨⟨"x", 3⟩, [], some tyInt, 0⟩

def lsY : LSymbol := ⟨⟨"y", 4⟩, [], some tyInt, 0⟩

def constOf (ls : LSymbol) : Term := .tapp ∅ ls [] (some tyInt)

def yBelowX : Term := .tapp ∅ lsLt [constOf lsY, constOf lsX] none

def orderTask (goal : Term) : IntTask where
  pre := []
  x := lsX
  post := [.dparam lsY, .dprop PropKind.paxiom ⟨⟨"H", 5⟩⟩ yBelowX]
  pr := ⟨⟨"G", 6⟩⟩
  goal := goal
  value := ⟨rfl, rfl⟩
  const c hc := by
    simp only [List.mem_cons, DeclNode.dparam.injEq, reduceCtorEq, List.not_mem_nil, or_false] at hc
    rcases hc with rfl | rfl <;> rfl
  plain := nofun
  hyps n hn := by
    simp only [List.mem_cons, List.not_mem_nil, or_false] at hn
    rcases hn with rfl | rfl
    · exact .inl ⟨lsY, rfl⟩
    · exact .inr ⟨_, _, _, rfl, nofun⟩
  inScope := by
    simp only [Scoped, List.nil_append, List.pairwise_cons, List.mem_cons, List.not_mem_nil,
      or_false, forall_eq_or_imp, forall_eq, DeclNode.dparam.injEq, reduceCtorEq, false_implies,
      implies_true, and_true, List.Pairwise.nil]
    rintro c rfl
    decide
  closed n hn k pr f hf := by
    subst hf
    simp only [List.nil_append, List.mem_cons, reduceCtorEq, List.not_mem_nil, or_false,
      false_or, DeclNode.dprop.injEq] at hn
    rw [hn.2.2]
    decide

/-- The integers, with `x = 1` and `y = 0`. -/
noncomputable def intInterp : Interp emptySig Int where
  dom _ _ := True
  witness _ := 0
  fn ls _ _ := if ls = lsX then 1 else 0
  pr ls args := if ls = lsLt then args[0]! < args[1]! else
    if ls = lsLe then args[0]! ≤ args[1]! else args[0]! = args[1]!
  const _ _ := 0
  choose _ P := Classical.epsilon P
  destr _ _ := none
  witness_dom _ := trivial
  fn_dom _ _ _ := trivial
  const_dom _ _ := trivial
  choose_dom _ _ := trivial
  choose_spec _ h := Classical.epsilon_spec ⟨_, h⟩
  equ a b := by
    rw [if_neg (by decide), if_neg (by decide)]
    rfl
  destr_fn := nofun
  fn_destr := nofun
  disjoint := nofun
  cover h := absurd rfl h

theorem standard_intInterp : Standard lsLe lsLt intInterp id :=
  ⟨⟨fun _ _ => trivial, fun _ _ _ _ h => h, fun z _ => ⟨z, trivial, rfl⟩⟩,
    fun _ _ => Iff.rfl, fun _ _ => Iff.rfl⟩

def varN : VSymbol := ⟨⟨"n", 9⟩, tyInt⟩

def varY : VSymbol := ⟨⟨"y", 9⟩, tyInt⟩

/-- No `y` is below an `n` that is below `x`. -/
def nothingBelow : Term :=
  tQuantClose .tforall [varN] [] (tImplies (.tapp ∅ lsLt [tVar varN, constOf lsX] none)
    (tQuantClose .tforall [varY] []
      (tImplies (.tapp ∅ lsLt [tVar varY, tVar varN] none) (.tfalse ∅))))

theorem not_sat_nothingBelow {toInt : D → Int} (hI : Standard leInt lsLt I toInt) :
    ¬ Sat I nothingBelow := by
  intro h
  have hx : I.dom tyInt (I.fn lsX tyInt []) := dom_const ⟨rfl, rfl⟩ I
  obtain ⟨n, hn, hnx⟩ := hI.bij.surjOn (Set.mem_univ (toInt (I.fn lsX tyInt []) - 1))
  obtain ⟨y, hy, hyn⟩ := hI.bij.surjOn (Set.mem_univ (toInt n - 1))
  have hext (ρ : VSymbol → D) (v : VSymbol) (d : D) (hd : I.dom v.vsTy d) :
      I.Extends [v] ρ (Function.update ρ v d) := by
    refine ⟨fun u hu => Function.update_of_ne (ne_of_not_mem_cons hu) d ρ, fun u hu => ?_⟩
    rw [mem_singleton.mp hu, Function.update_self]
    exact hd
  have hbelow := holds_tForallClose.mp (h fun v => I.witness v.vsTy) _ (hext _ varN n hn)
    ((hI.lt hn hx).mpr (by omega))
  exact holds_tForallClose.mp hbelow _ (hext _ varY y hy) ((hI.lt hy hn).mpr (by omega))

end Order

end IndItp
end Why3
