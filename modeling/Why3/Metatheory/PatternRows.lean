import Why3.Core.Pattern
import Why3.Semantics.Typing

/-!
Rows of a pattern matrix: their first-match meaning, and how one step of the
compilation splits them.

The head of a row is a list of choices, each a constructor or a catch-all. The
first-match meaning of a row is that of its choices in order, and the rows that
`dispatch` puts under a constructor, or under none, are the choices that apply.
-/
namespace Why3

open List

variable {α : Type}

/-! The weight of the rows. -/

theorem patAltsList_append (l m : List Pattern) :
    patAltsList (l ++ m) = patAltsList l * patAltsList m := by
  induction l with
  | nil => simp [patAltsList]
  | cons p l ih => rw [cons_append, patAltsList, ih, patAltsList, Nat.mul_assoc]

theorem patWeightList_append (l m : List Pattern) : patWeightList (l ++ m) =
      patWeightList l * patAltsList m + patAltsList l * patWeightList m := by
  induction l with
  | nil => simp [patWeightList, patAltsList]
  | cons p l ih =>
    rw [cons_append, patWeightList, ih, patAltsList_append, patWeightList, patAltsList]
    ring

theorem patAltsList_reverse (l : List Pattern) : patAltsList l.reverse = patAltsList l := by
  induction l with
  | nil => rfl
  | cons p l ih =>
    rw [reverse_cons, patAltsList_append, ih]
    simp only [patAltsList]
    ring

theorem patWeightList_reverse (l : List Pattern) : patWeightList l.reverse = patWeightList l := by
  induction l with
  | nil => rfl
  | cons p l ih =>
    rw [reverse_cons, patWeightList_append, ih, patAltsList_reverse]
    simp only [patAltsList, patWeightList]
    ring

variable {pl : List Pattern} {types : List (LSymbol × List Pattern)}

theorem patAltsList_pos (h : ∀ p ∈ pl, 0 < patAlts p) : 0 < patAltsList pl := by
  induction pl with
  | nil => simp [patAltsList]
  | cons p pl ih =>
    exact Nat.mul_pos (h p mem_cons_self) (ih fun q hq => h q (mem_cons_of_mem p hq))

theorem patAlts_pos (p : Pattern) : 0 < patAlts p := by
  induction p using Pattern.induct with
  | papp cs pl ty ih => exact patAltsList_pos ih
  | por p q hp hq => exact Nat.add_pos_left hp _
  | pas p v ih => exact ih
  | _ => simp [patAlts]

/-- Wildcards weigh nothing. -/
theorem patWeightList_wild_append (tyl : List Ty) (pl : List Pattern) :
    patWeightList ((tyl.map Pattern.pwild).reverse ++ pl) = patWeightList pl := by
  have hz : patWeightList (tyl.map Pattern.pwild) = 0 ∧
      patAltsList (tyl.map Pattern.pwild) = 1 := by
    induction tyl with
    | nil => simp [patWeightList, patAltsList]
    | cons ty tyl ih => simp [patWeightList, patAltsList, patWeight, patAlts, ih]
  rw [patWeightList_append, patWeightList_reverse, patAltsList_reverse, hz.1, hz.2]
  ring

/-! The choices at the head of a row. -/

/-- A constructor with its arguments, or a catch-all, and the action with the
variables of the head bound. -/
abbrev Head (α : Type) := Option (LSymbol × List Pattern) × α

variable (mkLet : VSymbol → Term → α → α)

def heads (t : Term) : Pattern → α → List (Head α)
  | .pwild _, a => [(none, a)]
  | .pvar x, a => [(none, mkLet x t a)]
  | .papp fs pl _, a => [(some (fs, pl), a)]
  | .por p q, a => heads t p a ++ heads t q a
  | .pas p x, a => heads t p (mkLet x t a)

def headConstrs : Pattern → List (LSymbol × List Pattern)
  | .pwild _ | .pvar _ => []
  | .papp fs pl _ => [(fs, pl)]
  | .por p q => headConstrs p ++ headConstrs q
  | .pas p _ => headConstrs p

theorem heads_filterMap (t : Term) (p : Pattern) (a : α) :
    (heads mkLet t p a).filterMap Prod.fst = headConstrs p := by
  induction p using Pattern.induct generalizing a with
  | por p q ihp ihq => rw [heads, filterMap_append, ihp, ihq, headConstrs]
  | pas p x ih => rw [heads, ih, headConstrs]
  | _ => rfl

/-- The weight of a row is that of its choices. -/
def headWeight (pl : List Pattern) (h : Head α) : Nat :=
  match h.1 with
  | none => patWeightList pl
  | some (_, pl') =>
    (patAltsList pl' * (pl'.length + 1) + patWeightList pl') * patAltsList pl +
      patAltsList pl' * patWeightList pl

theorem sum_headWeight (t : Term) (p : Pattern)
    (pl : List Pattern) (a : α) :
    ((heads mkLet t p a).map (headWeight pl)).sum = patWeightList (p :: pl) := by
  induction p using Pattern.induct generalizing a with
  | por p q ihp ihq =>
    rw [heads, map_append, sum_append, ihp, ihq]
    simp only [patWeightList, patWeight, patAlts]
    ring
  | pas p x ih => rw [heads, ih, patWeightList, patWeightList, patWeight, patAlts]
  | _ => simp [heads, headWeight, patWeightList, patWeight, patAlts]

/-- The row of a choice below the constructor `cs`. -/
def specRow (types : List (LSymbol × List Pattern)) (cs : LSymbol) (pl : List Pattern) :
    Head α → Option (Row α)
  | (some (fs, pl'), a) => if fs = cs then some (pl'.reverse ++ pl, a) else none
  | (none, a) => (types.lookup cs).map fun ql =>
    ((ql.map fun q => Pattern.pwild (patTy q)).reverse ++ pl, a)

/-- The row of a choice below no constructor. -/
def wildRow (pl : List Pattern) : Head α → Option (Row α)
  | (some _, _) => none
  | (none, a) => some (pl, a)

/-- The choices of all rows, each with the other patterns of its row. -/
def rowHeads (t : Term) :
    List (Row α) → List (List Pattern × Head α)
  | [] => []
  | ([], _) :: rl => rowHeads t rl
  | (p :: pl, a) :: rl => (heads mkLet t p a).map (fun h => (pl, h)) ++ rowHeads t rl

/-- The rows that a function of the choices gives. -/
def splitRows (t : Term)
    (f : List Pattern → Head α → Option (Row α)) (rl : List (Row α)) : List (Row α) :=
  (rowHeads mkLet t rl).filterMap fun x => f x.1 x.2

section

variable (t : Term)

theorem splitRows_cons (f : List Pattern → Head α → Option (Row α)) (p : Pattern)
    (pl : List Pattern) (a : α) (rl : List (Row α)) : splitRows mkLet t f ((p :: pl, a) :: rl) =
      (heads mkLet t p a).filterMap (f pl) ++ splitRows mkLet t f rl := by
  rw [splitRows, rowHeads, filterMap_append, filterMap_map]
  rfl

theorem sum_rowHeads (rl : List (Row α)) :
    ((rowHeads mkLet t rl).map fun x => headWeight x.1 x.2).sum = rowsWeight rl := by
  induction rl with
  | nil => rfl
  | cons r rl ih =>
    obtain ⟨pl, a⟩ := r
    cases pl with
    | nil => simpa [rowHeads, rowsWeight, patWeightList] using ih
    | cons p pl =>
      rw [rowHeads, map_append, sum_append, ih, map_map]
      have := sum_headWeight mkLet t p pl a
      simp only [rowsWeight, map_cons, ← this]
      rfl

theorem rowsWeight_splitRows (f : List Pattern → Head α → Option (Row α)) (rl : List (Row α)) :
    rowsWeight (splitRows mkLet t f rl) = ((rowHeads mkLet t rl).map fun x =>
        ((f x.1 x.2).map fun r => patWeightList r.1).getD 0).sum := by
  rw [splitRows, rowsWeight]
  induction rowHeads mkLet t rl with
  | nil => rfl
  | cons x l ih =>
    rw [filterMap_cons, map_cons, sum_cons, ← ih]
    cases f x.1 x.2 with
    | none => simp
    | some r => simp

theorem rowsWeight_wildRow (rl : List (Row α)) :
    rowsWeight (splitRows mkLet t wildRow rl) ≤ rowsWeight rl := by
  rw [rowsWeight_splitRows, ← sum_rowHeads mkLet t]
  apply sum_le_sum
  intro x _
  obtain ⟨pl, ⟨_ | c, a⟩⟩ := x
  · exact Nat.le_refl _
  · exact Nat.zero_le _

end

theorem specRow_weight_le (types : List (LSymbol × List Pattern)) (cs : LSymbol)
    (pl : List Pattern) (h : Head α) :
    ((specRow types cs pl h).map fun r => patWeightList r.1).getD 0 ≤ headWeight pl h := by
  obtain ⟨_ | ⟨fs, pl'⟩, a⟩ := h
  · rw [specRow]
    cases types.lookup cs with
    | none => exact Nat.zero_le _
    | some ql =>
      have := patWeightList_wild_append (ql.map patTy) pl
      rw [map_map] at this
      exact this.le
  · rw [specRow, headWeight]
    by_cases hf : fs = cs
    · simp only [if_pos hf, Option.map_some, Option.getD_some, patWeightList_append,
        patWeightList_reverse, patAltsList_reverse]
      gcongr
      exact Nat.le_add_left _ _
    · simp [if_neg hf]

/-- Going below a constructor pays for its arguments. -/
theorem specRow_weight_lt (types : List (LSymbol × List Pattern)) (cs : LSymbol)
    (pl pl' : List Pattern) (a : α) :
    ((specRow types cs pl (some (cs, pl'), a)).map fun r => patWeightList r.1).getD 0 +
        (pl'.length + 1) ≤ headWeight pl (some (cs, pl'), a) := by
  have hpos : 0 < patAltsList pl' := patAltsList_pos fun p _ => patAlts_pos p
  have hpos' : 0 < patAltsList pl := patAltsList_pos fun p _ => patAlts_pos p
  simp only [specRow, headWeight, if_pos, Option.map_some,
    patWeightList_append, patWeightList_reverse, patAltsList_reverse]
  have hle : pl'.length + 1 ≤ patAltsList pl' * (pl'.length + 1) * patAltsList pl := by
    calc pl'.length + 1 = 1 * (pl'.length + 1) * 1 := by ring
      _ ≤ patAltsList pl' * (pl'.length + 1) * patAltsList pl := by gcongr <;> omega
  calc patWeightList pl' * patAltsList pl + patAltsList pl' * patWeightList pl + (pl'.length + 1)
      ≤ patWeightList pl' * patAltsList pl + patAltsList pl' * patWeightList pl +
          patAltsList pl' * (pl'.length + 1) * patAltsList pl := by gcongr
    _ = _ := by ring

theorem rowsWeight_specRow (t : Term)
    (types : List (LSymbol × List Pattern)) {cs : LSymbol} {pl' : List Pattern} {a : α}
    {rl : List (Row α)} (h : (pl, (some (cs, pl'), a)) ∈ rowHeads mkLet t rl) :
    rowsWeight (splitRows mkLet t (specRow types cs) rl) + (pl'.length + 1) ≤ rowsWeight rl := by
  rw [rowsWeight_splitRows, ← sum_rowHeads mkLet t]
  obtain ⟨l, m, he⟩ := append_of_mem h
  simp only [he, map_append, map_cons, sum_append, sum_cons]
  have hle : ∀ l : List (List Pattern × Head α),
      (l.map fun x => ((specRow types cs x.1 x.2).map fun r => patWeightList r.1).getD 0).sum ≤
        (l.map fun x => headWeight x.1 x.2).sum :=
    fun l => sum_le_sum fun x _ => specRow_weight_le types cs x.1 x.2
  have hl := hle l
  have hm := hle m
  have hx := specRow_weight_lt types cs pl pl' a
  omega

/-! `dispatch` computes these rows. -/

theorem lookup_addCase (fs cs : LSymbol) (r : Row α) (cases : Cases α) :
    ((addCase fs r cases).lookup cs).getD [] =
      (if fs = cs then [r] else []) ++ (cases.lookup cs).getD [] := by
  induction cases with
  | nil =>
    by_cases h : fs = cs
    · simp [addCase, h]
    · simp [addCase, h, lookup_cons, beq_eq_false_iff_ne.mpr (Ne.symm h)]
  | cons c cases ih =>
    obtain ⟨gs, rl⟩ := c
    rw [addCase]
    by_cases hg : gs = fs
    · rw [if_pos hg]
      by_cases h : fs = cs
      · simp [hg, h]
      · simp [hg, h, lookup_cons, beq_eq_false_iff_ne.mpr (Ne.symm h)]
    · rw [if_neg hg, lookup_cons, lookup_cons]
      by_cases hc : cs = gs
      · subst hc
        simp [Ne.symm hg]
      · rw [beq_eq_false_iff_ne.mpr hc]
        exact ih

theorem lookup_unionCases (hnd : (types.map Prod.fst).Nodup) (pl : List Pattern) (a : α)
    (cs : LSymbol) (cases : Cases α) : ((unionCases types pl a cases).lookup cs).getD [] =
      ((specRow types cs pl (none, a)).toList) ++ (cases.lookup cs).getD [] := by
  induction types with
  | nil => rfl
  | cons c types ih =>
    rw [map_cons, nodup_cons] at hnd
    have hrec := ih hnd.2
    simp only [unionCases, foldr_cons] at hrec ⊢
    rw [lookup_addCase, hrec, specRow, specRow, lookup_cons]
    by_cases h : c.1 = cs
    · have hnone : types.lookup cs = none := Option.not_isSome_iff_eq_none.mp
        fun hs => hnd.1 (h ▸ AssocList.lookup_isSome_iff.mp hs)
      simp [h, hnone]
    · simp [h, beq_eq_false_iff_ne.mpr (Ne.symm h)]

section

variable (hnd : (types.map Prod.fst).Nodup) (t : Term)
include hnd

theorem dispatch_eq (pl : List Pattern) (p : Pattern) (a : α) (cw : Cases α × List (Row α)) :
    (∀ cs, (((dispatch mkLet types t pl p a cw).1).lookup cs).getD [] =
        (heads mkLet t p a).filterMap (specRow types cs pl) ++ (cw.1.lookup cs).getD []) ∧
      (dispatch mkLet types t pl p a cw).2 =
        (heads mkLet t p a).filterMap (wildRow pl) ++ cw.2 := by
  induction p using Pattern.induct generalizing a cw with
  | pwild ty =>
    refine ⟨fun cs => ?_, rfl⟩
    rw [dispatch, lookup_unionCases hnd, heads, filterMap_cons]
    cases specRow types cs pl (none, a) <;> rfl
  | pvar x =>
    refine ⟨fun cs => ?_, rfl⟩
    rw [dispatch, lookup_unionCases hnd, heads, filterMap_cons]
    cases specRow types cs pl (none, mkLet x t a) <;> rfl
  | papp fs pl' ty =>
    refine ⟨fun cs => ?_, rfl⟩
    rw [dispatch, lookup_addCase, heads, filterMap_cons, specRow]
    by_cases h : fs = cs <;> simp [h]
  | por p q ihp ihq =>
    obtain ⟨hpc, hpw⟩ := ihp a (dispatch mkLet types t pl q a cw)
    obtain ⟨hqc, hqw⟩ := ihq a cw
    refine ⟨fun cs => ?_, ?_⟩
    · rw [dispatch, hpc, hqc, heads, filterMap_append, append_assoc]
    · rw [dispatch, hpw, hqw, heads, filterMap_append, append_assoc]
  | pas p x ih => exact ih (mkLet x t a) cw

theorem foldr_dispatchRow (rl : List (Row α)) :
    (∀ cs, (((rl.foldr (dispatchRow mkLet types t) ([], [])).1).lookup cs).getD [] =
        splitRows mkLet t (specRow types cs) rl) ∧
      (rl.foldr (dispatchRow mkLet types t) ([], [])).2 = splitRows mkLet t wildRow rl := by
  induction rl with
  | nil => exact ⟨fun cs => rfl, rfl⟩
  | cons r rl ih =>
    obtain ⟨hc, hw⟩ := ih
    obtain ⟨pl, a⟩ := r
    cases pl with
    | nil => exact ⟨hc, hw⟩
    | cons p pl =>
      rw [splitRows_cons]
      obtain ⟨hdc, hdw⟩ :=
        dispatch_eq mkLet hnd t pl p a (rl.foldr (dispatchRow mkLet types t) ([], []))
      refine ⟨fun cs => ?_, ?_⟩
      · rw [foldr_cons, dispatchRow, hdc, hc, splitRows_cons]
      · rw [foldr_cons, dispatchRow, hdw, hw]

end

/-! The constructors of a column. -/

/-- The distinct constructors `csl'` are those of `csl` and, by their symbols, those that `P`
accepts. -/
structure Populates (csl csl' : List (LSymbol × List Pattern))
    (P : LSymbol × List Pattern → Prop) : Prop where
  nodup : (csl'.map Prod.fst).Nodup
  from_or : ∀ c ∈ csl', c ∈ csl ∨ P c
  subset : csl ⊆ csl'
  all : ∀ c, P c → c.1 ∈ csl'.map Prod.fst

theorem Populates.trans {l l' l'' : List (LSymbol × List Pattern)}
    {P Q : LSymbol × List Pattern → Prop} (h : Populates l l' P) (h' : Populates l' l'' Q) :
    Populates l l'' fun c => P c ∨ Q c := by
  refine ⟨h'.nodup, fun c hc => ?_, List.Subset.trans h.subset h'.subset, fun c hc => ?_⟩
  · cases h'.from_or c hc with
    | inl hc => exact (h.from_or c hc).imp_right .inl
    | inr hc => exact .inr (.inr hc)
  · cases hc with
    | inl hc => exact map_subset _ h'.subset (h.all c hc)
    | inr hc => exact h'.all c hc

theorem populate_ok {isConstr : LSymbol → Bool} {ty : Ty} (p : Pattern) :
    ∀ csl, (∀ c ∈ headConstrs p, isConstr c.1 = true) → (csl.map Prod.fst).Nodup →
      ∃ csl', populate isConstr ty csl p = .ok csl' ∧ Populates csl csl' (· ∈ headConstrs p) := by
  induction p using Pattern.induct with
  | papp fs pl ty' ih =>
    intro csl hc hnd
    rw [populate, if_pos (hc (fs, pl) (by simp [headConstrs]))]
    by_cases hl : (csl.lookup fs).isSome = true
    · rw [if_pos hl]
      refine ⟨csl, rfl, hnd, fun c hc => .inl hc, List.Subset.refl _, ?_⟩
      simp only [headConstrs, mem_singleton, forall_eq]
      exact AssocList.lookup_isSome_iff.mp hl
    · rw [if_neg hl]
      have hnone : fs ∉ csl.map Prod.fst := fun hmem => hl (AssocList.lookup_isSome_iff.mpr hmem)
      refine ⟨_, rfl, nodup_cons.mpr ⟨hnone, hnd⟩, ?_, subset_cons_self _ _, ?_⟩
      · intro c hcm
        rw [mem_cons] at hcm
        rw [headConstrs, mem_singleton]
        exact hcm.symm
      · simp [headConstrs]
  | por p q ihp ihq =>
    intro csl hc hnd
    simp only [headConstrs, mem_append] at hc
    obtain ⟨csl1, h1, hp1⟩ := ihp csl (fun c h => hc c (.inl h)) hnd
    obtain ⟨csl2, h2, hp2⟩ := ihq csl1 (fun c h => hc c (.inr h)) hp1.nodup
    simp only [headConstrs, mem_append]
    refine ⟨csl2, ?_, hp1.trans hp2⟩
    rw [populate, h1]
    exact h2
  | pas p x ih => exact ih
  | _ =>
    intro csl _ hnd
    exact ⟨csl, rfl, hnd, fun c hc => .inl hc, List.Subset.refl _, by simp [headConstrs]⟩

theorem mem_rowHeads_cons {mkLet : VSymbol → Term → α → α} {t : Term} {p : Pattern} {a : α}
    {rl : List (Row α)} {c : LSymbol × List Pattern} :
    (∃ x ∈ rowHeads mkLet t ((p :: pl, a) :: rl), x.2.1 = some c) ↔
      c ∈ headConstrs p ∨ ∃ x ∈ rowHeads mkLet t rl, x.2.1 = some c := by
  rw [← heads_filterMap mkLet t p a]
  simp only [rowHeads, mem_append, mem_map, mem_filterMap, or_and_right, exists_or,
    exists_exists_and_eq_and]

theorem foldlM_populateRow (isConstr : LSymbol → Bool) (ty : Ty)
    (mkLet : VSymbol → Term → α → α) (t : Term) (rl : List (Row α)) : ∀ csl, (∀ r ∈ rl, r.1 ≠ []) →
      (∀ c, (∃ x ∈ rowHeads mkLet t rl, x.2.1 = some c) → isConstr c.1 = true) →
      (csl.map Prod.fst).Nodup →
      ∃ types, rl.foldlM (populateRow isConstr ty) csl = .ok types ∧
        Populates csl types fun c => ∃ x ∈ rowHeads mkLet t rl, x.2.1 = some c := by
  induction rl with
  | nil =>
    intro csl _ _ hnd
    exact ⟨csl, rfl, hnd, fun c hc => .inl hc, List.Subset.refl _, by simp [rowHeads]⟩
  | cons r rl ih =>
    intro csl hne hc hnd
    obtain ⟨pl, a⟩ := r
    cases pl with
    | nil => exact absurd rfl (hne _ mem_cons_self)
    | cons p pl =>
      simp only [mem_rowHeads_cons] at hc ⊢
      obtain ⟨csl1, h1, hp1⟩ := populate_ok p csl (fun c h => hc c (.inl h)) hnd
      obtain ⟨csl2, h2, hp2⟩ :=
        ih csl1 (forall_mem_cons.mp hne).2 (fun c h => hc c (.inr h)) hp1.nodup
      refine ⟨csl2, ?_, hp1.trans hp2⟩
      rw [foldlM_cons, populateRow, h1]
      exact h2

end Why3
