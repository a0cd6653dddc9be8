import Why3.Metatheory.CallSemantics

/-!
Soundness of the call graph: every call that the evaluation of a body requires is
recorded with a vector that describes its arguments. The alternatives of the
analysis come from or-patterns; at each point of the evaluation one of them
describes the values of the bound variables.
-/
namespace Why3

open List
open Bool (and_eq_true)

open Relation

variable {A : Type}

/-! Patterns. -/

variable {p : Pattern} {pl : List Pattern} {u : VSymbol} {x : Tree A} {tl : List Term}
  {vsg : List VsMap} {c : Call}

section Patterns

variable {θ : VSymbol → Tree A}

theorem MatchesList.exists_mem {xs : List (Tree A)} (h : MatchesList θ pl xs)
    (hp : p ∈ pl) : ∃ x ∈ xs, Matches θ p x := by
  induction pl generalizing xs with
  | nil => cases hp
  | cons q pl ih =>
    cases xs with
    | nil => exact h.elim
    | cons x xs =>
      obtain ⟨hq, hrest⟩ := h
      cases mem_cons.mp hp with
      | inl heq => exact ⟨x, mem_cons_self, heq ▸ hq⟩
      | inr hp =>
        exact exists_mem_cons_of_exists (ih hrest hp)

/-- A pattern variable is bound to the matched tree or to a sub-tree. -/
theorem Matches.subEq (h : Matches θ p x) (hwf : patWf p = true)
    (hu : u ∈ patVars p) : ReflTransGen Tree.Child (θ u) x := by
  induction p using Pattern.induct generalizing x with
  | pwild ty => cases hu
  | pvar v =>
    have huv : u = v := by simpa [patVars] using hu
    have hx : θ v = x := h
    rw [huv, hx]
  | papp cs pl ty ih =>
    obtain ⟨-, xs, rfl, hxs⟩ := h
    simp only [patVars, patVarsList_eq_flatMap, mem_flatMap] at hu
    obtain ⟨p, hp, hu⟩ := hu
    obtain ⟨y, hy, hpy⟩ := hxs.exists_mem hp
    simp only [patWf, and_eq_true, patWfList_iff] at hwf
    exact (ih p hp hpy (hwf.2 p hp) hu).tail (.mk hy)
  | por p q ihp ihq =>
    simp only [patWf, and_eq_true, all_eq_true, contains_iff_mem] at hwf
    obtain ⟨⟨⟨hp, hq⟩, hpq⟩, -⟩ := hwf
    cases h with
    | inl h => exact ihp h hp hu
    | inr h => exact ihq h hq (hpq u hu)
  | pas p v ih =>
    simp only [patWf, and_eq_true] at hwf
    obtain ⟨hp, hv⟩ := h
    rw [patVars, mem_append, mem_singleton] at hu
    cases hu with
    | inl hu => exact ih hp hwf.1 hu
    | inr hu => rw [hu, hv]

/-- Below a constructor it is bound to a strict sub-tree. -/
theorem Matches.sub {cs : LSymbol} {ty : Ty} (h : Matches θ (.papp cs pl ty) x)
    (hwf : patWf (.papp cs pl ty) = true) (hu : u ∈ patVarsList pl) : Tree.Sub (θ u) x := by
  obtain ⟨-, xs, rfl, hxs⟩ := h
  rw [patVarsList_eq_flatMap, mem_flatMap] at hu
  obtain ⟨p, hp, hu⟩ := hu
  obtain ⟨y, hy, hpy⟩ := hxs.exists_mem hp
  simp only [patWf, and_eq_true, patWfList_iff] at hwf
  exact TransGen.tail' (hpy.subEq (hwf.2 p hp) hu) (.mk hy)

end Patterns

/-! The maps of the analysis. -/

/-- The entries of pattern variables are right. -/
def PatDesc (v : List (Tree A)) (θ : VSymbol → Tree A) (m : PatMap) : Prop :=
  ∀ u d, m u = some d → Desc v (θ u) d

/-- The entries of indices are right for values of the indices. -/
def VsDesc (v β : List (Tree A)) (vm : VsMap) : Prop :=
  ∀ (i : Nat) (d : Descent), vm[i]? = some (some d) → ∃ x, β[i]? = some x ∧ Desc v x d

section PatMaps

variable {v : List (Tree A)} {θ : VSymbol → Tree A} {m : PatMap}

variable {link : Descent}

theorem PatDesc.ite (h : PatDesc v θ m) {P : VSymbol → Prop} [DecidablePred P]
    {o : Option Descent} (ho : ∀ u d, P u → o = some d → Desc v (θ u) d) :
    PatDesc v θ fun u => if P u then o else m u := by
  intro u d hd
  dsimp only at hd
  split at hd
  next hu => exact ho u d hu hd
  next => exact h u d hd

theorem PatDesc.add (h : PatDesc v θ m) (hu : Desc v (θ u) link) : PatDesc v θ (m.add u link) :=
  h.ite fun _ _ heq hd => Option.some.inj hd ▸ heq ▸ hu

theorem PatDesc.addAll (h : PatDesc v θ m) {ul : List VSymbol}
    (hul : ∀ u ∈ ul, Desc v (θ u) link) : PatDesc v θ (m.addAll ul link) :=
  h.ite fun u _ hmem hd => Option.some.inj hd ▸ hul u hmem

theorem PatDesc.remove (h : PatDesc v θ m) (u : VSymbol) : PatDesc v θ (m.remove u) :=
  h.ite fun _ _ _ hd => nomatch hd

theorem PatDesc.setDiff (h : PatDesc v θ m) (ul : List VSymbol) : PatDesc v θ (m.setDiff ul) :=
  h.ite fun _ _ _ hd => nomatch hd

private theorem exists_map_mem {α β : Type} {P : α → Prop} {Q : β → Prop} {l : List α}
    {f : α → β} (h : ∃ x ∈ l, P x) (hf : ∀ x, P x → Q (f x)) : ∃ y ∈ l.map f, Q y := by
  obtain ⟨x, hx, hP⟩ := h
  exact ⟨_, mem_map_of_mem hx, hf x hP⟩

private theorem exists_mem_append {α : Type} {P : α → Prop} {l l' : List α}
    (h : (∃ x ∈ l, P x) ∨ ∃ x ∈ l', P x) : ∃ x ∈ l ++ l', P x := by
  simpa only [mem_append, or_and_right, exists_or] using h

theorem matchVar_sound {acc : List PatMap} (hlink : Desc v x link) (hwf : patWf p = true)
    (hp : Matches θ p x)
    (hacc : ∃ m ∈ acc, PatDesc v θ m) : ∃ m ∈ matchVar link acc p, PatDesc v θ m := by
  induction p using Pattern.induct with
  | pwild ty => exact hacc
  | pvar u =>
    have hu : θ u = x := hp
    exact exists_map_mem hacc fun m h => h.add (hu ▸ hlink)
  | papp cs pl ty _ =>
    exact exists_map_mem hacc fun m h => h.addAll fun u hu => hlink.toLess (hp.sub hwf hu)
  | por p q ihp ihq =>
    simp only [patWf, and_eq_true] at hwf
    exact exists_mem_append (hp.imp (ihp hwf.1.1.1) (ihq hwf.1.1.2))
  | pas p u ih =>
    simp only [patWf, and_eq_true] at hwf
    obtain ⟨hp, hu⟩ := hp
    exact exists_map_mem (ih hwf.1 hp) fun m h => h.add (hu ▸ hlink)

end PatMaps

variable {t : Term} {θ : VSymbol → Tree A}

section Matching

variable (E : Evaluation A) {v β : List (Tree A)} {vm : VsMap}

theorem varLink_sound (hvm : VsDesc v β vm) {d : Descent} (h : varLink vm t = some d) :
    Desc v (E.val β t) d := by
  cases t with
  | bvar a i ty =>
    rw [varLink, Option.join_eq_some_iff] at h
    obtain ⟨x, hx, hdesc⟩ := hvm i d h
    rw [E.val_bvar hx]
    exact hdesc
  | _ => cases h

theorem describe_sound (hvm : VsDesc v β vm) (t : Term) : Desc v (E.val β t) (describe vm t) := by
  rw [describe]
  cases h : varLink vm t with
  | none => trivial
  | some d => exact varLink_sound E hvm h

private theorem matchTermList_sound {acc : List PatMap}
    (ih : ∀ p ∈ pl, ∀ {t : Term} {acc : List PatMap}, patWf p = true →
      Matches θ p (E.val β t) → (∃ m ∈ acc, PatDesc v θ m) →
      ∃ m ∈ matchTerm vm t acc p, PatDesc v θ m) (hwf : ∀ p ∈ pl, patWf p = true)
    (hxs : MatchesList θ pl (tl.map (E.val β))) (hacc : ∃ m ∈ acc, PatDesc v θ m)
    : ∃ m ∈ matchTermList vm tl acc pl, PatDesc v θ m := by
  induction pl generalizing tl acc with
  | nil => cases tl <;> exact hacc
  | cons p pl ihpl =>
    cases tl with
    | nil => exact hacc
    | cons t tl =>
      obtain ⟨hp, hrest⟩ := hxs
      have hhead := ih p mem_cons_self (hwf p mem_cons_self) hp hacc
      exact ihpl (forall_mem_cons.mp ih).2
        (forall_mem_cons.mp hwf).2 hrest hhead

theorem matchTerm_sound (hvm : VsDesc v β vm) {acc : List PatMap} (hwf : patWf p = true)
    (hp : Matches θ p (E.val β t)) (hacc : ∃ m ∈ acc, PatDesc v θ m)
    : ∃ m ∈ matchTerm vm t acc p, PatDesc v θ m := by
  induction p using Pattern.induct generalizing t acc with
  | pwild ty => exact hacc
  | pvar u =>
    unfold matchTerm
    split
    next link hlink => exact matchVar_sound (varLink_sound E hvm hlink) hwf hp hacc
    next => exact exists_map_mem hacc fun m h => h.remove u
    next => exact exists_map_mem hacc fun m h => h.setDiff _
  | papp c2 pl ty ih =>
    unfold matchTerm
    split
    next link hlink => exact matchVar_sound (varLink_sound E hvm hlink) hwf hp hacc
    next =>
      split
      next heq =>
        -- The arguments of the constructor are matched one by one.
        subst heq
        obtain ⟨hc, xs, hx, hxs⟩ := hp
        rw [E.val_constr hc] at hx
        cases hx
        simp only [patWf, and_eq_true, patWfList_iff] at hwf
        exact matchTermList_sound E ih hwf.2 hxs hacc
      next => exact exists_map_mem hacc fun m h => h.setDiff _
    next => exact exists_map_mem hacc fun m h => h.setDiff _
  | por p q ihp ihq =>
    unfold matchTerm
    split
    next link hlink => exact matchVar_sound (varLink_sound E hvm hlink) hwf hp hacc
    next =>
      simp only [patWf, and_eq_true] at hwf
      exact exists_mem_append (hp.imp (ihp hwf.1.1.1 · hacc) (ihq hwf.1.1.2 · hacc))
    next => exact exists_map_mem hacc fun m h => h.setDiff _
  | pas p u ih =>
    unfold matchTerm
    split
    next link hlink => exact matchVar_sound (varLink_sound E hvm hlink) hwf hp hacc
    next =>
      simp only [patWf, and_eq_true] at hwf
      exact ih hwf.1 hp.1 (exists_map_mem hacc fun m h => h.remove u)
    next => exact exists_map_mem hacc fun m h => h.setDiff _

end Matching

/-! Bindings. -/

section Bindings

variable {v β : List (Tree A)} {vm : VsMap}

theorem VsDesc.append (hvm : VsDesc v β vm) {os : VsMap} {xs : List (Tree A)}
    (hlen : os.length = xs.length)
    (hos : ∀ (i : Nat) (d : Descent), os[i]? = some (some d) → ∃ x, xs[i]? = some x ∧ Desc v x d) :
    VsDesc v (xs ++ β) (os ++ vm) := by
  intro i d hi
  by_cases hlt : i < os.length
  · rw [getElem?_append_left hlt] at hi
    rw [getElem?_append_left (hlen ▸ hlt)]
    exact hos i d hi
  · rw [getElem?_append_right (by omega)] at hi
    rw [getElem?_append_right (by omega), ← hlen]
    exact hvm _ d hi

theorem VsDesc.fresh (hvm : VsDesc v β vm) (xs : List (Tree A)) :
    VsDesc v (xs ++ β) (List.replicate xs.length none ++ vm) := by
  apply hvm.append length_replicate
  intro i d hi
  rw [getElem?_replicate] at hi
  split at hi <;> cases hi

theorem VsDesc.cons (hvm : VsDesc v β vm) {o : Option Descent}
    (ho : ∀ d, o = some d → Desc v x d) : VsDesc v (x :: β) (o :: vm) := by
  intro i d hi
  cases i with
  | zero =>
    cases hi
    exact ⟨x, rfl, ho d rfl⟩
  | succ i => exact hvm i d hi

theorem createVsGraph_sound {vl : List VSymbol} (hlen : v.length = vl.length) :
    ∃ vm ∈ createVsGraph vl, VsDesc v v vm := by
  refine ⟨_, mem_singleton_self _, ?_⟩
  intro i d hi
  rw [getElem?_map, Option.map_eq_some_iff] at hi
  obtain ⟨j, hj, hd⟩ := hi
  obtain ⟨hlt, rfl⟩ := List.getElem?_eq_some_iff.mp hj
  cases hd
  rw [length_range] at hlt
  have hi : v[i]? = some v[i] := List.getElem?_eq_getElem (by omega)
  refine ⟨v[i], hi, v[i], ?_, .refl⟩
  rw [getElem_range, hi]

variable (E : Evaluation A)

theorem vsGraphLet_sound (h : ∃ vm ∈ vsg, VsDesc v β vm) (t : Term) :
    ∃ vm ∈ vsGraphLet vsg t, VsDesc v (E.val β t :: β) vm :=
  exists_map_mem h fun _ hvm => hvm.cons fun _ hd => varLink_sound E hvm hd

theorem vsGraphFresh_sound (h : ∃ vm ∈ vsg, VsDesc v β vm)
    (xs : List (Tree A)) : ∃ vm ∈ vsGraphFresh xs.length vsg, VsDesc v (xs ++ β) vm :=
  exists_map_mem h fun _ hvm => hvm.fresh xs

theorem vsGraphPat_sound (h : ∃ vm ∈ vsg, VsDesc v β vm) (hwf : patWf p = true)
    (hp : Matches θ p (E.val β t)) :
    ∃ vm ∈ vsGraphPat vsg t p, VsDesc v ((patVars p).map θ ++ β) vm := by
  obtain ⟨vm, hmem, hvm⟩ := h
  have hempty : PatDesc v θ PatMap.empty := fun u d hd => by cases hd
  obtain ⟨m, hm, hdesc⟩ := matchTerm_sound E hvm hwf hp ⟨_, mem_singleton_self _, hempty⟩
  refine ⟨(patVars p).map m ++ vm, ?_, ?_⟩
  · exact mem_flatMap.mpr ⟨vm, hmem, mem_map_of_mem hm⟩
  · apply hvm.append (by rw [length_map, length_map])
    intro i d hi
    rw [getElem?_map, Option.map_eq_some_iff] at hi
    obtain ⟨u, hu, hd⟩ := hi
    refine ⟨θ u, ?_, hdesc u d hd⟩
    rw [getElem?_map, hu]
    rfl

end Bindings

/-! Bodies. -/

section Calls

variable (E : Evaluation A) (syms : List LSymbol) (caller : Ident)

theorem termCallsList_eq (vsg : List VsMap) (tl : List Term) :
    termCallsList syms caller vsg tl = tl.flatMap (termCalls syms caller vsg) :=
  ListRec.eq_flatMap rfl (fun _ _ => rfl) tl

theorem termCallsBranches_eq (vsg : List VsMap) (t : Term) (bl : List (Pattern × Term)) :
    termCallsBranches syms caller vsg t bl =
      bl.flatMap fun b => termCalls syms caller (vsGraphPat vsg t b.1) b.2 :=
  ListRec.eq_flatMap rfl (fun _ _ => rfl) bl

theorem registerCall_sound {v β : List (Tree A)} (h : ∃ vm ∈ vsg, VsDesc v β vm) (callee : Ident)
    (tl : List Term) :
    ∃ c ∈ registerCall caller vsg callee tl, c.callee = callee ∧ c.caller = caller ∧
      VecDesc v (tl.map (E.val β)) c.args := by
  obtain ⟨vm, hmem, hvm⟩ := h
  refine ⟨_, mem_map_of_mem hmem, rfl, rfl, by simp, ?_⟩
  intro k x hx
  rw [getElem?_map, Option.map_eq_some_iff] at hx
  obtain ⟨t, ht, rfl⟩ := hx
  rw [getD_eq_getElem?_getD, getElem?_map, ht]
  exact describe_sound E hvm t

/-- A required call is recorded, and one of its records describes it. -/
theorem Requires.recorded {v β w : List (Tree A)} {s : LSymbol} (h : Requires E syms β t s w)
    (hwf : termWf t = true) (hvsg : ∃ vm ∈ vsg, VsDesc v β vm) :
    ∃ c ∈ termCalls syms caller vsg t, c.callee = s.lsName ∧ c.caller = caller ∧
      VecDesc v w c.args := by
  induction h generalizing vsg with
  | @call β a s tl ty hs =>
    obtain ⟨c, hc, hcall⟩ := registerCall_sound E caller hvsg s.lsName tl
    refine ⟨c, ?_, hcall⟩
    rw [termCalls, if_pos hs]
    exact mem_append_right _ hc
  | @arg β a ls tl ty t s w ht _ ih =>
    simp only [termWf, and_eq_true, termWfList_iff] at hwf
    obtain ⟨c, hc, hcall⟩ := ih (hwf.2 t ht) hvsg
    refine ⟨c, ?_, hcall⟩
    rw [termCalls, termCallsList_eq]
    exact mem_append_left _ (mem_flatMap.mpr ⟨t, ht, hc⟩)
  | ifCond _ ih =>
    simp only [termWf, and_eq_true] at hwf
    obtain ⟨c, hc, hcall⟩ := ih hwf.1.1 hvsg
    exact ⟨c, by simp [termCalls, hc], hcall⟩
  | ifThen _ ih =>
    simp only [termWf, and_eq_true] at hwf
    obtain ⟨c, hc, hcall⟩ := ih hwf.1.2 hvsg
    exact ⟨c, by simp [termCalls, hc], hcall⟩
  | ifElse _ ih | binopRight _ ih =>
    simp only [termWf, and_eq_true] at hwf
    obtain ⟨c, hc, hcall⟩ := ih hwf.2 hvsg
    exact ⟨c, by simp [termCalls, hc], hcall⟩
  | letDef _ ih | scrutinee _ ih | binopLeft _ ih =>
    simp only [termWf, and_eq_true] at hwf
    obtain ⟨c, hc, hcall⟩ := ih hwf.1 hvsg
    exact ⟨c, by simp [termCalls, hc], hcall⟩
  | @letBody β a t u e s w _ ih =>
    simp only [termWf, and_eq_true] at hwf
    obtain ⟨c, hc, hcall⟩ := ih hwf.2 (vsGraphLet_sound E hvsg t)
    exact ⟨c, by simp [termCalls, hc], hcall⟩
  | @branch β a t bl p e θ s w hb hp _ ih =>
    simp only [termWf, and_eq_true, termWfBranches_iff] at hwf
    obtain ⟨hpwf, hewf⟩ := hwf.2 (p, e) hb
    obtain ⟨c, hc, hcall⟩ := ih hewf (vsGraphPat_sound E hvsg hpwf hp)
    refine ⟨c, ?_, hcall⟩
    rw [termCalls, termCallsBranches_eq]
    exact mem_append_right _ (mem_flatMap.mpr ⟨(p, e), hb, hc⟩)
  | @eps β a u f x s w _ ih =>
    obtain ⟨c, hc, hcall⟩ := ih hwf (vsGraphFresh_sound hvsg [x])
    exact ⟨c, hc, hcall⟩
  | @quant β a q vl tr f xs s w hxs _ ih =>
    simp only [termWf, and_eq_true] at hwf
    obtain ⟨c, hc, hcall⟩ := ih hwf.2 (vsGraphFresh_sound hvsg xs)
    refine ⟨c, ?_, hcall⟩
    rw [termCalls, ← hxs]
    exact hc
  | not _ ih =>
    obtain ⟨c, hc, hcall⟩ := ih hwf hvsg
    exact ⟨c, hc, hcall⟩

end Calls

/-! The recorded vectors have the length of the callee's arguments. -/

section Arity

variable (syms : List LSymbol) (caller : Ident)

/-- The call is one of a symbol of the group, with all its arguments. -/
def CallOf (c : Call) : Prop := ∃ s ∈ syms, c.callee = s.lsName ∧ c.args.length = s.lsArgs.length

theorem termCalls_callOf (hwf : termWf t = true) (hc : c ∈ termCalls syms caller vsg t)
    : CallOf syms c := by
  induction t using Term.induct generalizing vsg with
  | tvar _ _ | bvar _ _ _ | tconst _ _ _ | ttrue _ | tfalse _ => cases hc
  | tapp a ls tl ty ih =>
    simp only [termWf, and_eq_true, termWfList_iff, beq_iff_eq] at hwf
    rw [termCalls, termCallsList_eq, mem_append] at hc
    cases hc with
    | inl hc =>
      obtain ⟨t, ht, hc⟩ := mem_flatMap.mp hc
      exact ih t ht (hwf.2 t ht) hc
    | inr hc =>
      split at hc
      next hs =>
        obtain ⟨vm, -, rfl⟩ := mem_map.mp hc
        exact ⟨ls, hs, rfl, by rw [length_map, hwf.1]⟩
      next => cases hc
  | tif a f t e ihf iht ihe =>
    simp only [termWf, and_eq_true] at hwf
    simp only [termCalls, mem_append] at hc
    obtain (hc | hc) | hc := hc
    · exact ihf hwf.1.1 hc
    · exact iht hwf.1.2 hc
    · exact ihe hwf.2 hc
  | tlet a t v e iht ihe | tbinop a op t e iht ihe =>
    simp only [termWf, and_eq_true] at hwf
    rw [termCalls, mem_append] at hc
    cases hc with
    | inl hc => exact iht hwf.1 hc
    | inr hc => exact ihe hwf.2 hc
  | tcase a t bl iht ihb =>
    simp only [termWf, and_eq_true, termWfBranches_iff] at hwf
    rw [termCalls, termCallsBranches_eq, mem_append] at hc
    cases hc with
    | inl hc => exact iht hwf.1 hc
    | inr hc =>
      obtain ⟨b, hb, hc⟩ := mem_flatMap.mp hc
      exact ihb b hb (hwf.2 b hb).2 hc
  | teps a v f ih | tnot a f ih => exact ih hwf hc
  | tquant a q vl tr f _ ih =>
    simp only [termWf, and_eq_true] at hwf
    exact ih hwf.2 hc

end Arity

/-- Every step between calls is an edge of the call graph. -/
theorem CallStep.edge {E : Evaluation A} {ldl : List LogicDecl}
    (hwf : ∀ ld ∈ ldl, termWf ld.2.body = true) {callee caller : LSymbol × List (Tree A)}
    (h : CallStep ldl E callee caller) :
    ∃ c ∈ callGraph ldl, c.callee = callee.1.lsName ∧ c.caller = caller.1.lsName ∧
      VecDesc caller.2 callee.2 c.args := by
  obtain ⟨ld, hld, hls, hlen, hreq⟩ := h
  obtain ⟨c, hc, hcall⟩ := hreq.recorded E _ ld.1.lsName (hwf ld hld) (createVsGraph_sound hlen)
  rw [← hls]
  exact ⟨c, mem_flatMap.mpr ⟨ld, hld, hc⟩, hcall⟩

end Why3
