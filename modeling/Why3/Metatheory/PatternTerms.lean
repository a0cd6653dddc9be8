import Why3.Metatheory.PatternCompile

/-!
Compilation of matches on terms, and exhaustiveness.

A compiled match has the value that the first matching row gives, and the
compilation complains about a matrix exactly when some values are matched by no
row. Terms are the actions of the first result. For the second the actions do not
matter, so their meaning is trivial.
-/
namespace Why3

open List
open VSymbol (vsTy)
open Interp (bindPats patOk patsGet patsOk patsOk_pvars rowSem rowsSem sem sem_tLetClose sem_typed val)

variable {pl : List Pattern} {α : Type}

section

variable {C : AlgSig} {D : Type} {I : Interp C D} {ρ : VSymbol → D} {β : List D}

variable {d : D} {ty : Ty}

theorem patOk_constr {cs : LSymbol} {vl : List VSymbol} {args : List D}
    (hargs : I.destr cs d = some args)
    (hlen : vl.length = args.length) : I.patOk (.papp cs (vl.map .pvar) ty) d = true := by
  simp only [patOk, hargs]
  exact patsOk_pvars hlen

theorem CompiledForm.exhaustive (h : CompiledForm C ty pl) : I.Exhaustive ty pl := by
  obtain ⟨ts, tl, rfl, hlen, cvl, w, rfl, -, hcvl, -, hw⟩ := h
  intro d hd
  cases w with
  | true => exact ⟨.pwild (.tyapp ts tl), by simp, rfl⟩
  | false =>
    obtain ⟨hne, hall⟩ := hw rfl
    obtain ⟨c0, hc0⟩ := exists_mem_of_ne_nil cvl hne
    obtain ⟨cs, hcs, args, hargs⟩ := I.cover (ne_nil_of_mem (hcvl c0 hc0).1) hd
    obtain ⟨c, hc, rfl⟩ := mem_map.mp (hall cs hcs)
    refine ⟨.papp c.1 (c.2.map .pvar) (.tyapp ts tl), ?_, patOk_constr hargs ?_⟩
    · simp only [Bool.false_eq_true, if_false, append_nil]
      exact mem_map.mpr ⟨c, hc, rfl⟩
    · rw [← (I.fn_destr hcs hd hargs).1.length_eq, ← (hcvl c hc).2.1, length_map]

theorem CompiledForm.typed (h : CompiledForm C ty pl) : ∀ p ∈ pl, PatTyped C p ∧ patTy p = ty := by
  obtain ⟨ts, tl, rfl, hlen, cvl, w, rfl, -, hcvl, -⟩ := h
  intro p hp
  cases mem_append.mp hp with
  | inl hp =>
    obtain ⟨c, hc, rfl⟩ := mem_map.mp hp
    obtain ⟨hcs, htys, hnd⟩ := hcvl c hc
    simp only [PatTyped, patTypedList_iff]
    refine ⟨⟨⟨ts, tl, rfl, hcs, hlen⟩, ?_, ?_, ?_⟩, rfl⟩
    · rw [map_map, ← htys]
      rfl
    · rw [flatMap_map]
      exact (flatMap_singleton' c.2).symm ▸ hnd
    · exact forall_mem_map.mpr fun _ _ => trivial
  | inr hp =>
    split at hp
    · rw [mem_singleton] at hp
      subst hp
      exact ⟨trivial, rfl⟩
    · cases hp

/-- The values of the variables of a pattern that matches. -/
theorem map_bindPats_vars (ρ : VSymbol → D) {p : Pattern} (hp : PatTyped C p)
    (hd : I.dom (patTy p) d)
    (hok : I.patOk p d = true) : (patVars p).map (I.bindPats [p] [d] ρ) = I.patVals p d := by
  apply map_congr_left
  intro v hv
  obtain ⟨x, hx, -⟩ := Interp.patGet_typed p hp d hd hok hv
  simp [bindPats, patsGet, hx]

theorem bindVars_patVals {p : Pattern} (hp : PatTyped C p) (hd : I.dom (patTy p) d)
    (hok : I.patOk p d = true) :
    Interp.bindVars (patVars p) (I.patVals p d) ρ = I.bindPats [p] [d] ρ := by
  rw [← map_bindPats_vars ρ hp hd hok]
  funext v
  by_cases hv : v ∈ patVars p
  · obtain ⟨i, hi⟩ := getElem?_of_mem hv
    refine Interp.bindVars_get (PatTyped.nodup p hp) hi ?_
    rw [getElem?_map, hi, Option.map_some]
  · rw [Interp.bindVars_of_notMem _ hv, Interp.bindPats_of_notMem (by simpa using hp)
      (by simpa using hv)]

theorem patsOk_singleton (p : Pattern) (d : D) : I.patsOk [p] [d] = I.patOk p d := by
  rw [patsOk, patsOk, Bool.and_true]

/-- Branches and the rows of one pattern have the same meaning if their bodies have. -/
theorem semBranches_eq_rowsSem {x : D × Prop} {bl : List α} {g : α → Pattern × Term}
    {row : α → Row Term} (hok : ∀ b ∈ bl, I.patsOk (row b).1 [d] = I.patOk (g b).1 d)
    (h : ∀ b ∈ bl, I.patOk (g b).1 d = true → I.sem (I.bindPats (row b).1 [d] ρ) β (row b).2 =
        I.sem ρ (I.patVals (g b).1 d ++ β) (g b).2) (hm : ∃ b ∈ bl, I.patOk (g b).1 d = true) :
    I.rowsSem (fun ρ a => I.sem ρ β a) ρ [d] (bl.map row) =
      some (I.semBranches ρ β d x (bl.map g)) := by
  induction bl with
  | nil => simp at hm
  | cons b bl ih =>
    rw [map_cons, map_cons, rowsSem, findSome?_cons, Interp.semBranches,
      rowSem, hok b mem_cons_self]
    cases hb : I.patOk (g b).1 d with
    | true =>
      simp only [if_true]
      rw [h b mem_cons_self hb]
    | false =>
      refine ih (fun b' hb' => hok b' (mem_cons_of_mem _ hb'))
        (fun b' hb' => h b' (mem_cons_of_mem _ hb')) ?_
      obtain ⟨b', hmem, hok'⟩ := hm
      cases mem_cons.mp hmem with
      | inl he =>
        rw [he, hb] at hok'
        cases hok'
      | inr hmem => exact ⟨b', hmem, hok'⟩

theorem sem_tCaseClose (ρ : VSymbol → D) {t : Term} {bl : List (Pattern × Term)}
    (hd : I.dom ty (I.val ρ β t)) (hform : CompiledForm C ty (bl.map Prod.fst)) :
    some (I.sem ρ β (tCaseClose t bl)) =
      I.rowsSem (fun ρ a => I.sem ρ β a) ρ [I.val ρ β t] (bl.map fun b => ([b.1], b.2)) := by
  refine (semBranches_eq_rowsSem (fun b _ => patsOk_singleton b.1 _) ?_ ?_).symm
  · intro b hb hok
    obtain ⟨hp, hty⟩ := hform.typed b.1 (mem_map_of_mem hb)
    rw [Interp.sem_close (I.patVals_length _ _), bindVars_patVals hp (hty ▸ hd) hok]
  · obtain ⟨p, hp, hok⟩ := hform.exhaustive (I := I) _ hd
    obtain ⟨b, hb, rfl⟩ := mem_map.mp hp
    exact ⟨b, hb, hok⟩

/-- Terms as actions. -/
noncomputable def termAction {Γ : List Ty} (hβ : List.Forall₂ I.dom Γ β) :
    I.ActionSem I.Exhaustive Γ β tCaseClose tLetClose (D × Prop) where
  asem ρ a := I.sem ρ β a
  Good _ := True
  sem_mkLet _ _ := sem_tLetClose _ _ _
  good_mkLet _ _ _ := trivial
  sem_mkCase hρ ht hty hform :=
    sem_tCaseClose _ (sem_typed (fun h => h) hρ _ _ _ _ ht hβ hty) hform
  good_mkCase _ _ _ _ := trivial

/-- A property of actions that is kept when they are put together. -/
structure Kept {α : Type} (mkCase : Term → List (Pattern × α) → α)
    (mkLet : VSymbol → Term → α → α) (P : α → Prop) : Prop where
  case : ∀ t bl, (∀ b ∈ bl, P b.2) → P (mkCase t bl)
  lets : ∀ x t a, P a → P (mkLet x t a)

/-- Actions of no meaning. -/
def unitAction {α : Type} {mkCase : Term → List (Pattern × α) → α}
    {mkLet : VSymbol → Term → α → α} {P : α → Prop} (hP : Kept mkCase mkLet P) {Γ : List Ty}
    (hβ : List.Forall₂ I.dom Γ β) : I.ActionSem I.Exhaustive Γ β mkCase mkLet Unit where
  asem _ _ := ()
  Good := P
  sem_mkLet _ _ := rfl
  good_mkLet _ _ := hP.lets _ _ _
  sem_mkCase hρ ht hty hform := by
    have hd := sem_typed (fun h => h) hρ _ _ _ _ ht hβ hty
    obtain ⟨p, hp, hok⟩ := hform.exhaustive (I := I) _ hd
    obtain ⟨b, hb, rfl⟩ := List.mem_map.mp hp
    refine (Option.isSome_iff_exists.mp (Interp.rowsSem_isSome.mpr ?_)).elim fun u hu => hu.symm
    exact ⟨([b.1], b.2), List.mem_map_of_mem hb, (patsOk_singleton _ _).trans hok⟩
  good_mkCase _ _ _ := hP.case _ _

/-- The first row that matches gives the meaning of the rows. -/
theorem rowsSem_eq_some {S : Type} {asem : (VSymbol → D) → α → S} {ds : List D} {rl : List (Row α)}
    {s : S} (h : I.rowsSem asem ρ ds rl = some s) :
    ∃ r, rl.find? (fun r => I.patsOk r.1 ds) = some r ∧ s = asem (I.bindPats r.1 ds ρ) r.2 := by
  induction rl with
  | nil => cases h
  | cons r rl ih =>
    rw [rowsSem, findSome?_cons, rowSem] at h
    rw [find?_cons]
    cases hok : I.patsOk r.1 ds with
    | true =>
      simp only [hok, if_true, Option.some.injEq] at h
      exact ⟨r, rfl, h.symm⟩
    | false =>
      simp only [hok] at h
      exact ih h

end

/-! A type with two constants. -/

def tsBit : TySymbol := ⟨⟨"bit", 100⟩, [], .noDef⟩

def tyBit : Ty := .tyapp tsBit []

def csZero : LSymbol := ⟨⟨"Zero", 101⟩, [], some tyBit, 2⟩

def csOne : LSymbol := ⟨⟨"One", 102⟩, [], some tyBit, 2⟩

def bitConstrs (ts : TySymbol) : List LSymbol := if ts = tsBit then [csZero, csOne] else []

theorem mem_bitConstrs {ts : TySymbol} {c : LSymbol} :
    c ∈ bitConstrs ts ↔ ts = tsBit ∧ (c = csZero ∨ c = csOne) := by
  rw [bitConstrs]
  split <;> simp_all

def bitSig : AlgSig where
  constrs := bitConstrs
  value hc := by obtain ⟨rfl, rfl | rfl⟩ := mem_bitConstrs.mp hc <;> rfl
  count hc := by obtain ⟨rfl, rfl | rfl⟩ := mem_bitConstrs.mp hc <;> rfl
  distinct ts := by
    rw [bitConstrs]
    split
    · decide
    · exact List.nodup_nil
  params hc ha := by obtain ⟨rfl, rfl | rfl⟩ := mem_bitConstrs.mp hc <;> cases ha
  vars hc := by
    obtain ⟨rfl, -⟩ := mem_bitConstrs.mp hc
    exact List.nodup_nil

def bitDestr (c : LSymbol) (d : Bool) : Option (List Bool) :=
  if c = (if d then csOne else csZero) then some [] else none

theorem bitDestr_eq_some {c : LSymbol} {d : Bool} {args : List Bool}
    (h : bitDestr c d = some args) : c = (if d then csOne else csZero) ∧ args = [] := by
  obtain ⟨hc, h⟩ := Option.ite_none_right_eq_some.mp h
  exact ⟨hc, (Option.some.inj h).symm⟩

open Classical in
noncomputable def bitInterp : Interp bitSig Bool where
  dom _ _ := True
  witness _ := false
  fn c _ _ := decide (c = csOne)
  pr _ args := args[0]? = args[1]?
  const _ _ := false
  choose _ P := decide (P true)
  destr := bitDestr
  witness_dom _ := trivial
  fn_dom _ _ _ := trivial
  const_dom _ _ := trivial
  choose_dom _ _ := trivial
  choose_spec {_ d P} _ h := by
    by_cases ht : P true
    · rwa [decide_eq_true ht]
    · rw [decide_eq_false ht]
      cases d with
      | false => exact h
      | true => exact absurd h ht
  equ _ _ := by simp
  destr_fn hc hargs := by
    obtain ⟨rfl, rfl | rfl⟩ := mem_bitConstrs.mp hc
    · cases hargs
      rfl
    · cases hargs
      rfl
  fn_destr {_ _ _ d _} hc _ hd := by
    obtain ⟨rfl, -⟩ := mem_bitConstrs.mp hc
    obtain ⟨rfl, rfl⟩ := bitDestr_eq_some hd
    cases d with
    | false => exact ⟨.nil, rfl⟩
    | true => exact ⟨.nil, rfl⟩
  disjoint _ _ _ hd hd' := (bitDestr_eq_some hd).1.trans (bitDestr_eq_some hd').1.symm
  cover {_ _ d} hne _ := by
    obtain ⟨c, hc⟩ := List.exists_mem_of_ne_nil _ hne
    obtain ⟨rfl, -⟩ := mem_bitConstrs.mp hc
    refine ⟨if d then csOne else csZero, mem_bitConstrs.mpr ⟨rfl, ?_⟩, [], if_pos rfl⟩
    cases d with
    | false => exact .inl rfl
    | true => exact .inr rfl

def bitVar (s : String) (n : Nat) : VSymbol := ⟨⟨s, n⟩, tyBit⟩

/-- A pattern matrix on columns of the given types. -/
def MatrixPats (C : AlgSig) (tys : List Ty) (rows : List (List Pattern)) : Prop :=
  ∀ pl ∈ rows, pl.map patTy = tys ∧ ∀ p ∈ pl, PatTyped C p

section

variable {C : AlgSig} {D : Type}

/-- `match x with Zero -> y | (_ as z) -> z` -/
def bitRows : List (Row Term) :=
  [([.papp csZero [] tyBit], tVar (bitVar "y" 2)),
    ([.pas (.pwild tyBit) (bitVar "z" 3)], tVar (bitVar "z" 3))]

theorem patTyped_zero : PatTyped bitSig (.papp csZero [] tyBit) :=
  ⟨⟨tsBit, [], rfl, mem_bitConstrs.mpr ⟨rfl, .inl rfl⟩, rfl⟩, rfl, nodup_nil, trivial⟩

theorem bitRows_typed : MatrixPats bitSig [tyBit] (bitRows.map Prod.fst) := by
  simp only [MatrixPats, bitRows, map_cons, map_nil, forall_mem_cons,
    not_mem_nil, false_implies, implies_true, and_true]
  exact ⟨⟨rfl, patTyped_zero⟩, rfl, trivial, rfl, nofun⟩

/-- An environment that gives the values to distinct symbols. -/
theorem exists_env (I : Interp C D) {vl : List VSymbol} (hnd : vl.Nodup) {ds : List D}
    (hds : List.Forall₂ I.dom (vl.map vsTy) ds) : ∃ ρ, I.TypedEnv ρ ∧ vl.map ρ = ds := by
  have hlen : vl.length = ds.length := by rw [← hds.length_eq, length_map]
  refine ⟨I.bindPats (vl.map .pvar) ds fun v => I.witness v.vsTy, ?_,
    Interp.map_bindPats_pvar hnd hlen _⟩
  refine Interp.typedEnv_bindPats (fun v => I.witness_dom v.vsTy) (by simp [PatTyped]) ?_
    (patsOk_pvars hlen)
  rw [map_map]
  exact hds

section Vars

variable (I : Interp C D) (hC : C.Wf)
  {getConstructors : TySymbol → Except CompileError (Option (List LSymbol))}
  (hget : Interp.GetsConstructors C getConstructors) {k : Nat} {vl : List VSymbol}
  (hvl : vl.Nodup) (hvk : ∀ v ∈ vl, v.vsName.idTag < k ∧ tyWf v.vsTy = true)

include hC hget hvl hvk

/-- A matrix on distinct variables is compiled, and then every vector of values is matched
by a row, or it is not exhaustive. -/
theorem compile_vars {mkCase : Term → List (Pattern × α) → α} {mkLet : VSymbol → Term → α → α}
    {P : α → Prop} (hP : Kept mkCase mkLet P) {rl : List (Row α)}
    (hrl : MatrixPats C (vl.map vsTy) (rl.map Prod.fst))
    (hrk : ∀ r ∈ rl, ∀ v ∈ r.1.flatMap patVars, v.vsName.idTag < k) (hact : ∀ r ∈ rl, P r.2) :
    (∃ a, compile getConstructors mkCase mkLet k (vl.map tVar) rl = .ok a ∧ P a ∧
      ∀ ds, List.Forall₂ I.dom (vl.map vsTy) ds → ¬ I.Unmatched ds rl) ∨
    ∃ pl, compile getConstructors mkCase mkLet k (vl.map tVar) rl = .error (.nonExhaustive pl) ∧
      (∃ ds, List.Forall₂ I.dom (vl.map vsTy) ds ∧ I.Unmatched ds rl) ∧
      I.MissedPats (Interp.AllConstructors C getConstructors) (vl.map vsTy) rl pl := by
  have hm : Interp.MatrixTyped (unitAction (I := I) hP .nil) ∅ k (vl.map vsTy)
      (vl.map tVar) rl := by
    refine ⟨?_, ?_, ?_, .inl fun _ _ _ => rfl, fun r hr => ?_⟩
    · rw [map_map, map_map]
      rfl
    · exact forall_mem_map.mpr fun _ _ => trivial
    · refine forall_mem_map.mpr fun v hv u hu => ?_
      rw [tVar, tVars, Finset.mem_singleton] at hu
      exact hu ▸ (hvk v hv).1
    · obtain ⟨hcol, htyped⟩ := hrl r.1 (mem_map_of_mem hr)
      exact ⟨hcol, htyped, hrk r hr, fun v _ => Set.notMem_empty v, hact r hr, fun _ _ _ _ _ => rfl⟩
  cases Interp.compile_outcome (fun h => h) .nil hget hm with
  | inl hok =>
    obtain ⟨a, hok, ha, hsem⟩ := hok
    refine .inl ⟨a, hok, ha, fun ds hds hun => ?_⟩
    obtain ⟨ρ, hρ, hvals⟩ := exists_env I hvl hds
    have hrow := hsem ρ hρ
    have hds' : (vl.map tVar).map (I.val ρ []) = ds := by
      rw [map_map, ← hvals]
      rfl
    rw [hds', (Interp.unmatched_iff _ _).mp hun] at hrow
    cases hrow
  | inr herr =>
    obtain ⟨e, herr, hmiss⟩ := herr
    obtain ⟨pl, rfl, hpats⟩ := hmiss.pats hC (forall_mem_map.mpr fun v hv => (hvk v hv).2)
    exact .inr ⟨pl, herr, hmiss.unmatched, hpats⟩

/-- A matrix on distinct variables is rejected exactly when some values are matched by no
row. If all constructors are known the rejection says which. -/
theorem compile_nonExhaustive_iff {α : Type} (mkCase : Term → List (Pattern × α) → α)
    (mkLet : VSymbol → Term → α → α) {rl : List (Row α)}
    (hrl : MatrixPats C (vl.map vsTy) (rl.map Prod.fst))
    (hrk : ∀ r ∈ rl, ∀ v ∈ r.1.flatMap patVars, v.vsName.idTag < k) :
    ((∃ pl, compile getConstructors mkCase mkLet k (vl.map tVar) rl = .error (.nonExhaustive pl)) ↔
      ∃ ds, List.Forall₂ I.dom (vl.map vsTy) ds ∧
        ∀ r ∈ rl, I.patsOk r.1 ds = false) ∧
    ((∃ a, compile getConstructors mkCase mkLet k (vl.map tVar) rl = .ok a) ∨
      ∃ pl, compile getConstructors mkCase mkLet k (vl.map tVar) rl =
        .error (.nonExhaustive pl)) ∧
    (Interp.AllConstructors C getConstructors → ∀ pl,
      compile getConstructors mkCase mkLet k (vl.map tVar) rl = .error (.nonExhaustive pl) →
      pl.length = vl.length ∧ pl.map patTy = vl.map vsTy ∧
        ∀ ds, List.Forall₂ I.dom (vl.map vsTy) ds → I.patsOk pl ds = true →
          ∀ r ∈ rl, I.patsOk r.1 ds = false) := by
  have hkept : Kept mkCase mkLet fun _ => True := ⟨fun _ _ _ => trivial, fun _ _ _ _ => trivial⟩
  cases compile_vars I hC hget hvl hvk hkept hrl hrk fun _ _ => trivial with
  | inl hok =>
    obtain ⟨a, hok, -, hall⟩ := hok
    rw [hok]
    refine ⟨⟨nofun, fun ⟨ds, hds, hun⟩ => absurd hun (hall ds hds)⟩, .inl ⟨a, rfl⟩, nofun⟩
  | inr herr =>
    obtain ⟨pl, herr, hun, hpats⟩ := herr
    rw [herr]
    refine ⟨⟨fun _ => hun, fun _ => ⟨pl, rfl⟩⟩, .inr ⟨pl, rfl⟩, ?_⟩
    intro hall pl' he
    cases he
    have hlen := congrArg List.length hpats.colTys
    rw [length_map, length_map] at hlen
    exact ⟨hlen, hpats.colTys, hpats.misses hall⟩

/-- The rows of patterns, all with one action that every action equals. -/
theorem compile_rows {mkCase : Term → List (Pattern × α) → α} {mkLet : VSymbol → Term → α → α}
    {a : α} (ha : Kept mkCase mkLet (· = a)) {ppl : List (List Pattern)} (hvne : vl ≠ [])
    (hrl : MatrixPats C (vl.map vsTy) (pl :: ppl))
    (hrk : ∀ ql ∈ pl :: ppl, ∀ v ∈ ql.flatMap patVars, v.vsName.idTag < k) :
    (compile getConstructors mkCase mkLet (k + pl.length) (matchedTerms k (vl.map tVar) pl)
        ((pl :: ppl).map fun pl => (pl, a)) = .ok a ∧
      ∀ ds, List.Forall₂ I.dom (vl.map vsTy) ds →
        ∃ ql ∈ pl :: ppl, I.patsOk ql ds = true) ∨
    ∃ ql, compile getConstructors mkCase mkLet (k + pl.length) (matchedTerms k (vl.map tVar) pl)
        ((pl :: ppl).map fun pl => (pl, a)) = .error (.nonExhaustive ql) ∧
      ∃ ds, List.Forall₂ I.dom (vl.map vsTy) ds ∧
        ¬ ∃ ql ∈ pl :: ppl, I.patsOk ql ds = true := by
  have hmatched : matchedTerms k (vl.map tVar) pl = vl.map tVar := by
    rw [matchedTerms, if_neg (by simpa using hvne)]
  have hun : ∀ ds, I.Unmatched ds ((pl :: ppl).map fun pl => (pl, a)) ↔
      ¬ ∃ ql ∈ pl :: ppl, I.patsOk ql ds = true := by
    simp [Interp.Unmatched]
  have hrows : ((pl :: ppl).map fun pl => (pl, a)).map Prod.fst = pl :: ppl := by
    rw [map_map]
    exact map_id _
  have hvk' : ∀ v ∈ vl, v.vsName.idTag < k + pl.length ∧ tyWf v.vsTy = true :=
    fun v hv => ⟨(hvk v hv).1.trans_le (Nat.le_add_right _ _), (hvk v hv).2⟩
  have hrow : ∀ r ∈ (pl :: ppl).map fun pl => (pl, a),
      (∀ v ∈ r.1.flatMap patVars, v.vsName.idTag < k + pl.length) ∧ r.2 = a := by
    refine forall_mem_map.mpr fun q hq => ?_
    exact ⟨fun v hv => (hrk q hq v hv).trans_le (Nat.le_add_right _ _), rfl⟩
  rw [hmatched]
  cases compile_vars I hC hget hvl hvk' ha (hrows.symm ▸ hrl) (fun r hr => (hrow r hr).1)
      (fun r hr => (hrow r hr).2) with
  | inl hok =>
    obtain ⟨b, hok, rfl, hall⟩ := hok
    exact .inl ⟨hok, fun ds hds => by_contra fun hno => hall ds hds ((hun ds).mpr hno)⟩
  | inr herr =>
    obtain ⟨ql, herr, ⟨ds, hds, hmiss⟩, -⟩ := herr
    exact .inr ⟨ql, herr, ds, hds, (hun ds).mp hmiss⟩

variable {rows : List (List Pattern)} (hvne : vl ≠ []) (hrl : MatrixPats C (vl.map vsTy) rows)
  (hrk : ∀ pl ∈ rows, ∀ v ∈ pl.flatMap patVars, v.vsName.idTag < k)
include hvne hrl hrk

/-- Only an exhaustive matrix is accepted by the check of declarations. -/
theorem checkCompile_ok_iff :
    checkCompile getConstructors k (vl.map tVar) rows = .ok () ↔
      ∀ ds, List.Forall₂ I.dom (vl.map vsTy) ds → ∃ pl ∈ rows, I.patsOk pl ds = true := by
  cases rows with
  | nil =>
    constructor
    · intro h
      obtain ⟨tyl, -, h⟩ := Except.bind_eq_ok.mp h
      cases h
    · intro h
      obtain ⟨pl, hpl, -⟩ := h _ (Interp.forall₂_witness I _)
      cases hpl
  | cons pl ppl =>
    rw [checkCompile]
    cases compile_rows I hC hget hvl hvk ⟨fun _ _ _ => rfl, fun _ _ _ _ => rfl⟩ hvne hrl hrk with
    | inl hok =>
      rw [hok.1]
      exact iff_of_true rfl hok.2
    | inr herr =>
      obtain ⟨ql, herr, ds, hds, hmiss⟩ := herr
      rw [herr]
      exact iff_of_false nofun fun h => hmiss (h ds hds)

omit hget in
/-- The answer without a known map is the same. -/
theorem isExhaustive_iff :
    ∃ b, isExhaustive k (vl.map tVar) rows = .ok b ∧ (b = true ↔
      ∀ ds, List.Forall₂ I.dom (vl.map vsTy) ds → ∃ pl ∈ rows, I.patsOk pl ds = true) := by
  cases rows with
  | nil =>
    refine ⟨false, rfl, iff_of_false nofun fun h => ?_⟩
    obtain ⟨pl, hpl, -⟩ := h _ (Interp.forall₂_witness I _)
    cases hpl
  | cons pl ppl =>
    have hbare : Interp.GetsConstructors C fun _ => .ok none := fun _ => .inl rfl
    rw [isExhaustive]
    cases compile_rows I hC hbare hvl hvk ⟨fun _ _ _ => rfl, fun _ _ _ _ => rfl⟩ hvne hrl hrk with
    | inl hok =>
      rw [hok.1]
      exact ⟨true, rfl, iff_of_true rfl hok.2⟩
    | inr herr =>
      obtain ⟨ql, herr, ds, hds, hmiss⟩ := herr
      rw [herr]
      exact ⟨false, rfl, iff_of_false nofun fun h => hmiss (h ds hds)⟩

end Vars

theorem bitSig_wf : bitSig.Wf where
  args hc a ha := by obtain ⟨rfl, rfl | rfl⟩ := mem_bitConstrs.mp hc <;> cases ha

/-- `match x with Zero -> _` misses the other constructor. -/
theorem compile_nonExhaustive_bit :
    (∃ pl, compile (fun ts => .ok (some (bitConstrs ts))) (fun _ _ => ()) (fun _ _ _ => ()) 2
        [tVar (bitVar "x" 1)] [([.papp csZero [] tyBit], ())] = .error (.nonExhaustive pl)) ↔
      ∃ ds, List.Forall₂ bitInterp.dom [tyBit] ds ∧
        ∀ r ∈ [([Pattern.papp csZero [] tyBit], ())], bitInterp.patsOk r.1 ds = false := by
  have hx : [bitVar "x" 1].Nodup := by decide
  refine (compile_nonExhaustive_iff bitInterp bitSig_wf ?_ hx ?_ (fun _ _ => ())
    (fun _ _ _ => ()) ?_ ?_).1
  · exact fun ts => .inr ⟨_, rfl, fun c => Iff.rfl⟩
  · decide
  · simp only [MatrixPats, map_cons, map_nil, mem_singleton, forall_eq]
    exact ⟨rfl, patTyped_zero⟩
  · decide

end

end Why3
