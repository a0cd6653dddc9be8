import Why3.Session.Pairing
import Why3.Library.AssocList
import Why3.Library.Except

/-!
The pairing of goals loses none and is maximal.

The first phase pairs, for each checksum, the last old goals with the last new ones.
In the second phase the queue always has the neighbours of different sides, so that
none are left when it is empty and the goals that remain are all of one side.
-/
namespace Why3

open List
open Option (bind_some some)

namespace Pairing

variable {χ α β : Type} {Old : GoalSig χ α} {New : GoalSig χ β} {oldgoals : List α}
  {newgoals : List β}

/-- The result in which the new goals at the given positions have the given old goals. -/
def resultOf (oldgoals : List α) (newgoals : List β) (prs : List (Nat × (Nat × Bool))) :
    Result α β :=
  newgoals.zipIdx.map fun x =>
    (x.1, (prs.lookup x.2).bind fun p => (oldgoals[p.1]?).map fun o => (o, p.2))

variable {i : Nat} {δ ξ γ : Type} {t : List (χ × Nat)} {l : List GoalIndex}

theorem foldl_cons_perm (f : ξ → δ) (l : List ξ) (acc : List δ) :
    (l.foldl (fun acc x => f x :: acc) acc).Perm (l.map f ++ acc) := by
  induction l generalizing acc with
  | nil => exact .refl _
  | cons x l ih => exact (ih _).trans perm_middle

theorem find_newGoalIndex (hnames : (newgoals.map New.name).Nodup) {g : β}
    (hi : newgoals[i]? = some g) :
    MultiTable.find (newGoalIndex New newgoals) (New.name g) = some i := by
  have hperm : (newGoalIndex New newgoals).Perm
      (newgoals.zipIdx.map (fun x => (New.name x.1, x.2)) ++ []) := foldl_cons_perm _ _ _
  rw [append_nil] at hperm
  apply AssocList.lookup_of_mem
  · rw [(hperm.map _).nodup_iff, map_map]
    have hkeys : newgoals.zipIdx.map ((·.1) ∘ fun x => (New.name x.1, x.2)) =
        newgoals.map New.name := by
      rw [← zipIdx_map_fst 0 newgoals, map_map, zipIdx_map_fst]
      rfl
    rw [hkeys]
    exact hnames
  · exact hperm.mem_iff.mpr (mem_map.mpr ⟨(g, i), mem_zipIdx_iff_getElem?.mpr hi, rfl⟩)

theorem setResult_ok (hnames : (newgoals.map New.name).Nodup) (prs : List (Nat × (Nat × Bool)))
    {newi oldi : Nat} (hn : newi < newgoals.length) (ho : oldi < oldgoals.length) (b : Bool) :
    setResult New oldgoals newgoals (resultOf oldgoals newgoals prs) newi oldi b =
      .ok (resultOf oldgoals newgoals ((newi, (oldi, b)) :: prs)) := by
  have hn' := List.getElem?_eq_getElem hn
  have ho' := List.getElem?_eq_getElem ho
  rw [setResult, hn', ho']
  simp only [find_newGoalIndex hnames hn', Except.ok.injEq]
  apply ext_getElem?
  intro j
  simp only [resultOf, getElem?_set, length_map, length_zipIdx, getElem?_map,
    getElem?_zipIdx]
  by_cases hj : newi = j
  · subst hj
    rw [if_pos hn]
    simp [ho']
  · rw [if_neg hj]
    cases newgoals[j]? with
    | none => rfl
    | some g => simp [lookup_cons, beq_eq_false_iff_ne.mpr (Ne.symm hj)]

/-! The last elements of two lists side by side. -/

def matchLast {ξ δ : Type} (as : List ξ) (bs : List δ) : List (ξ × δ) :=
  (as.drop (as.length - bs.length)).zip (bs.drop (bs.length - as.length))

theorem matchLast_length (as : List ξ) (bs : List δ) :
    (matchLast as bs).length = min bs.length as.length := by
  simp only [matchLast, length_zip, length_drop]
  omega

theorem matchLast_map {ξ' δ' : Type} (f : ξ → ξ') (g : δ → δ') (as : List ξ) (bs : List δ) :
    matchLast (as.map f) (bs.map g) = (matchLast as bs).map (Prod.map f g) := by
  rw [matchLast, matchLast, length_map, length_map, ← map_drop, ← map_drop, zip_map]

theorem matchLast_cons_of_le {as : List ξ} {bs : List δ} (x : ξ)
    (h : bs.length ≤ as.length) : matchLast (x :: as) bs = matchLast as bs := by
  have h1 : (x :: as).length - bs.length = as.length - bs.length + 1 := by
    rw [length_cons]
    omega
  have h2 : bs.length - (x :: as).length = bs.length - as.length := by
    omega
  rw [matchLast, matchLast, h1, h2, drop_succ_cons]

theorem matchLast_reverse {as : List ξ} {bs : List δ} (h : as.length ≤ bs.length) :
    matchLast as bs.reverse = as.zip (bs.take as.length).reverse := by
  rw [matchLast, length_reverse, Nat.sub_eq_zero_of_le h, drop_zero, reverse_take]

/-- One element more takes the one before those that are taken. -/
theorem matchLast_cons_reverse {as : List ξ} {bs : List δ} (x : ξ) {b : δ}
    (hb : bs[as.length]? = some b) :
    matchLast (x :: as) bs.reverse = (x, b) :: matchLast as bs.reverse := by
  have hlt := (List.getElem?_eq_some_iff.mp hb).1
  have hle : (x :: as).length ≤ bs.length := hlt
  rw [matchLast_reverse hle, matchLast_reverse hlt.le, length_cons, take_add_one, hb,
    reverse_append]
  rfl

/-! The first phase. -/

section Exact

variable [DecidableEq χ] (New)

/-- The new goals of a checksum. -/
def ofChecksum (c : χ) (xs : List (β × Nat)) : List (β × Nat) :=
  xs.filter fun x => New.checksum x.1 = some c

/-- The pairs of the first phase, as positions. -/
def exact (prs : List ((β × Nat) × Nat)) : List (Nat × (Nat × Bool)) :=
  prs.map fun p => (p.1.2, (p.2, false))

variable (oldgoals newgoals)

/-- The state of the first phase after the new goals `xs`, with the pairs made; the table
was `t` before and the goals without a checksum are `nl`. -/
structure ExactState (t : List (χ × Nat)) (nl : List GoalIndex) (xs : List (β × Nat))
    (prs : List ((β × Nat) × Nat)) (unpaired : List Nat) (s : Phase1 χ α β) : Prop where
  result : s.result = resultOf oldgoals newgoals (exact prs)
  sublist : (prs.map Prod.fst).Sublist xs
  olds : (prs.map Prod.snd ++ s.table.map Prod.snd).Perm (t.map Prod.snd)
  table : s.table.Sublist t
  acc : s.acc = unpaired.map .new ++ nl
  news : (prs.map (fun p => p.1.2) ++ unpaired).Perm (xs.map Prod.snd)
  bindings : ∀ c, MultiTable.bindings s.table c =
    (MultiTable.bindings t c).drop (ofChecksum New c xs).length
  same : ∀ c, (prs.filter fun p => New.checksum p.1.1 = some c) =
    matchLast (ofChecksum New c xs) (MultiTable.bindings t c).reverse
  summed : ∀ p ∈ prs, (New.checksum p.1.1).isSome
  left : ∀ i ∈ unpaired, ∃ g, (g, i) ∈ xs ∧ ∀ c, New.checksum g = some c →
    (MultiTable.bindings t c).length ≤ (ofChecksum New c xs).length

variable {New oldgoals newgoals}

theorem ofChecksum_cons (c : χ) (x : β × Nat) (xs : List (β × Nat)) : ofChecksum New c (x :: xs) =
      if New.checksum x.1 = some c then x :: ofChecksum New c xs else ofChecksum New c xs := by
  rw [ofChecksum, filter_cons]
  simp only [decide_eq_true_eq]
  rfl

theorem length_ofChecksum_le (c : χ) (x : β × Nat) (xs : List (β × Nat)) :
    (ofChecksum New c xs).length ≤ (ofChecksum New c (x :: xs)).length := by
  rw [ofChecksum_cons]
  split <;> simp

variable {nl : List GoalIndex} {unpaired : List Nat} {xs : List (β × Nat)}

section

variable {prs : List ((β × Nat) × Nat)} {s : Phase1 χ α β}
  (h : ExactState New oldgoals newgoals t nl xs prs unpaired s) (x : β × Nat)
include h x

/-- A new goal that no old one is left for. -/
theorem ExactState.skip (hx : ∀ c, New.checksum x.1 = some c →
      (MultiTable.bindings t c).length ≤ (ofChecksum New c xs).length) :
    ExactState New oldgoals newgoals t nl (x :: xs) prs (x.2 :: unpaired)
      { s with acc := .new x.2 :: s.acc } where
  result := h.result
  sublist := h.sublist.cons x
  olds := h.olds
  table := h.table
  acc := by rw [h.acc, map_cons, cons_append]
  news := perm_middle.trans (h.news.cons x.2)
  bindings c := by
    rw [h.bindings, ofChecksum_cons]
    split
    · next hc =>
        rw [drop_eq_nil_of_le (hx c hc), drop_eq_nil_of_le]
        exact (hx c hc).trans (Nat.le_succ _)
    · rfl
  same c := by
    rw [h.same, ofChecksum_cons]
    split
    · next hc =>
        rw [matchLast_cons_of_le]
        rw [length_reverse]
        exact hx c hc
    · rfl
  summed := h.summed
  left i hi := by
    cases mem_cons.mp hi with
    | inl he =>
      subst he
      exact ⟨x.1, mem_cons_self, fun c hc =>
        (hx c hc).trans (length_ofChecksum_le c x xs)⟩
    | inr hi =>
      obtain ⟨g, hg, hc⟩ := h.left i hi
      exact ⟨g, mem_cons_of_mem _ hg, fun c h => (hc c h).trans (length_ofChecksum_le c x xs)⟩

/-- A new goal takes an old one of its checksum. -/
theorem ExactState.take {c : χ} {oldi : Nat} (hc : New.checksum x.1 = some c)
    (hfind : MultiTable.find s.table c = some oldi) :
    ExactState New oldgoals newgoals t nl (x :: xs) ((x, oldi) :: prs) unpaired { s with
        table := MultiTable.remove s.table c
        result := resultOf oldgoals newgoals ((x.2, (oldi, false)) :: exact prs) } where
  result := rfl
  sublist := h.sublist.cons_cons x
  olds := by
    have hperm := (MultiTable.perm_remove hfind).map Prod.snd
    exact (perm_middle.symm.trans (hperm.symm.append_left _)).trans h.olds
  table := eraseP_sublist.trans h.table
  acc := h.acc
  news := h.news.cons x.2
  bindings d := by
    rw [MultiTable.bindings_remove, ofChecksum_cons]
    by_cases hd : d = c
    · subst hd
      rw [if_pos rfl, if_pos hc, h.bindings, length_cons, tail_drop]
    · rw [if_neg hd, if_neg fun hc' => hd (some.inj (hc'.symm.trans hc)), h.bindings]
  same d := by
    rw [filter_cons, ofChecksum_cons]
    simp only [decide_eq_true_eq]
    by_cases hd : New.checksum x.1 = some d
    · have hdc : d = c := some.inj (hd.symm.trans hc)
      subst hdc
      rw [if_pos hd, if_pos hd, h.same]
      refine (matchLast_cons_reverse x ?_).symm
      rw [MultiTable.find_eq_head?, h.bindings, head?_drop] at hfind
      exact hfind
    · rw [if_neg hd, if_neg hd, h.same]
  summed p hp := by
    cases mem_cons.mp hp with
    | inl he =>
      subst he
      exact Option.isSome_of_eq_some hc
    | inr hp => exact h.summed p hp
  left i hi := by
    obtain ⟨g, hg, hd⟩ := h.left i hi
    exact ⟨g, mem_cons_of_mem _ hg, fun d h => (hd d h).trans (length_ofChecksum_le d x xs)⟩

end

section

variable (hnames : (newgoals.map New.name).Nodup) (ht : ∀ b ∈ t, b.2 < oldgoals.length)
include hnames ht

theorem pairExact_ok {prs : List ((β × Nat) × Nat)} {s : Phase1 χ α β}
    (h : ExactState New oldgoals newgoals t nl xs prs unpaired s) {x : β × Nat}
    (hx : newgoals[x.2]? = some x.1) :
    ∃ prs' unpaired' s', pairExact New oldgoals newgoals x s = .ok s' ∧
      ExactState New oldgoals newgoals t nl (x :: xs) prs' unpaired' s' := by
  have hskip : ((New.checksum x.1).bind fun c =>
      (MultiTable.find s.table c).map fun oldi => (c, oldi)) = none →
      ∀ c, New.checksum x.1 = some c →
        (MultiTable.bindings t c).length ≤ (ofChecksum New c xs).length := by
    intro hnone c hc
    rw [hc, bind_some, Option.map_eq_none_iff, MultiTable.find_eq_head?, h.bindings,
      head?_eq_none_iff, drop_eq_nil_iff] at hnone
    exact hnone
  rw [pairExact]
  cases hf : (New.checksum x.1).bind fun c =>
      (MultiTable.find s.table c).map fun oldi => (c, oldi) with
  | none => exact ⟨prs, x.2 :: unpaired, _, rfl, h.skip x (hskip hf)⟩
  | some p =>
    obtain ⟨c, hc, hp⟩ := Option.bind_eq_some_iff.mp hf
    obtain ⟨oldi, hfind, rfl⟩ := Option.map_eq_some_iff.mp hp
    have hmem : oldi ∈ t.map Prod.snd := by
      refine h.olds.mem_iff.mp (mem_append_right _ ?_)
      exact (((MultiTable.perm_remove hfind).map Prod.snd).mem_iff).mpr mem_cons_self
    obtain ⟨b, hb, rfl⟩ := mem_map.mp hmem
    have hn : x.2 < newgoals.length := (List.getElem?_eq_some_iff.mp hx).1
    refine ⟨(x, b.2) :: prs, unpaired, _, ?_, h.take x hc hfind⟩
    simp only [h.result, setResult_ok hnames _ hn (ht b hb) false, bind, Except.bind]

/-- The first phase over any part of the new goals at their end. -/
theorem foldrM_pairExact (nl : List GoalIndex) (xs : List (β × Nat))
    (hxs : ∀ x ∈ xs, newgoals[x.2]? = some x.1) :
    ∃ prs unpaired s, xs.foldrM (pairExact New oldgoals newgoals)
        ⟨t, nl, resultOf oldgoals newgoals []⟩ = .ok s ∧
      ExactState New oldgoals newgoals t nl xs prs unpaired s := by
  induction xs with
  | nil =>
    refine ⟨[], [], _, rfl, rfl, .refl _, .refl _, .refl _, rfl, .refl _, ?_, ?_, nofun, nofun⟩
    · exact fun c => (drop_zero).symm
    · intro c
      simp [matchLast, ofChecksum]
  | cons x xs ih =>
    obtain ⟨prs, unpaired, s, hs, h⟩ := ih (forall_mem_cons.mp hxs).2
    obtain ⟨prs', unpaired', s', hs', h'⟩ :=
      pairExact_ok hnames ht h (hxs x mem_cons_self)
    refine ⟨prs', unpaired', s', ?_, h'⟩
    rw [foldrM_cons, hs]
    exact hs'

end

end Exact

/-! The old goals by their checksums. -/

section OldTable

variable [DecidableEq χ] (Old oldgoals)

/-- The positions of the old goals of a checksum. -/
def oldPositions (c : χ) (xs : List (α × Nat)) : List Nat :=
  (xs.filter fun x => Old.checksum x.1 = some c).map Prod.snd

/-- What the loop over the old goals has made of `xs`. -/
structure OldTable (xs : List (α × Nat)) (t : List (χ × Nat)) (ol : List Nat) : Prop where
  bindings : ∀ c, MultiTable.bindings t c = (oldPositions Old c xs).reverse
  olds : (t.map Prod.snd ++ ol).Perm (xs.map Prod.snd)
  keys : ∀ b ∈ t, ∃ g, (g, b.2) ∈ xs ∧ Old.checksum g = some b.1
  none : ∀ i ∈ ol, ∃ g, (g, i) ∈ xs ∧ Old.checksum g = none

variable {Old oldgoals}

theorem oldTable_snoc {xs : List (α × Nat)} {ol : List Nat} (h : OldTable Old xs t ol)
    (x : α × Nat) : (Old.checksum x.1 = none → OldTable Old (xs ++ [x]) t (x.2 :: ol)) ∧
    ∀ c, Old.checksum x.1 = some c → OldTable Old (xs ++ [x]) (MultiTable.add t c x.2) ol := by
  have hlast : x ∈ xs ++ [x] := mem_append_right _ (mem_singleton.mpr rfl)
  have hleft {o : Option χ} {i : Nat} (h : ∃ g, (g, i) ∈ xs ∧ Old.checksum g = o) :
      ∃ g, (g, i) ∈ xs ++ [x] ∧ Old.checksum g = o := by
    obtain ⟨g, hg, hc⟩ := h
    exact ⟨g, mem_append_left _ hg, hc⟩
  have hperm : ∀ l : List Nat, l.Perm (xs.map Prod.snd) →
      (x.2 :: l).Perm ((xs ++ [x]).map Prod.snd) := by
    intro l hl
    rw [map_append]
    exact (hl.cons x.2).trans (perm_append_singleton x.2 _).symm
  have hpos : ∀ c, oldPositions Old c (xs ++ [x]) = if Old.checksum x.1 = some c then
      oldPositions Old c xs ++ [x.2] else oldPositions Old c xs := by
    intro c
    by_cases hc : Old.checksum x.1 = some c
    · simp [oldPositions, hc]
    · simp [oldPositions, hc]
  constructor
  · intro hx
    refine ⟨?_, perm_middle.trans (hperm _ h.olds), ?_, ?_⟩
    · intro c
      rw [h.bindings, hpos, hx, if_neg nofun]
    · exact fun b hb => hleft (h.keys b hb)
    · exact forall_mem_cons.mpr ⟨⟨x.1, hlast, hx⟩, fun i hi => hleft (h.none i hi)⟩
  · intro c hx
    refine ⟨?_, hperm _ h.olds, ?_, ?_⟩
    · intro d
      rw [MultiTable.add, MultiTable.bindings_cons, h.bindings, hpos, hx]
      by_cases hd : c = d
      · rw [if_pos hd, if_pos (congrArg some hd), reverse_append]
        rfl
      · rw [if_neg hd, if_neg fun he => hd (some.inj he)]
    · exact forall_mem_cons.mpr ⟨⟨x.1, hlast, hx⟩, fun b hb => hleft (h.keys b hb)⟩
    · exact fun i hi => hleft (h.none i hi)

theorem oldChecksums_ok (Old : GoalSig χ α) (oldgoals : List α) :
    ∃ ol, (oldChecksums Old oldgoals).2 = ol.map .old ∧
      OldTable Old oldgoals.zipIdx (oldChecksums Old oldgoals).1 ol := by
  rw [oldChecksums]
  induction oldgoals.zipIdx using List.reverseRecOn with
  | nil => exact ⟨[], rfl, fun _ => rfl, .refl _, by simp, by simp⟩
  | append_singleton xs x ih =>
    obtain ⟨ol, hol, h⟩ := ih
    obtain ⟨hnone, hsome⟩ := oldTable_snoc h x
    simp only [foldl_append, foldl_cons, foldl_nil]
    cases hc : Old.checksum x.1 with
    | none =>
      refine ⟨x.2 :: ol, ?_, hnone hc⟩
      simp only [hol, map_cons]
    | some c => exact ⟨ol, hol, hsome c hc⟩

end OldTable

/-! What the first phase leaves. -/

def oldsOf (l : List GoalIndex) : List Nat :=
  l.filterMap fun g => match g with
    | .old i => some i
    | .new _ => none

def newsOf (l : List GoalIndex) : List Nat :=
  l.filterMap fun g => match g with
    | .new i => some i
    | .old _ => none

@[simp] theorem oldsOf_map_old (l : List Nat) : oldsOf (l.map .old) = l := by
  simp [oldsOf]

@[simp] theorem oldsOf_map_new (l : List Nat) : oldsOf (l.map .new) = [] := by
  simp [oldsOf]

@[simp] theorem newsOf_map_old (l : List Nat) : newsOf (l.map .old) = [] := by
  simp [newsOf]

@[simp] theorem newsOf_map_new (l : List Nat) : newsOf (l.map .new) = l := by
  simp [newsOf]

@[simp] theorem oldsOf_append (l m : List GoalIndex) : oldsOf (l ++ m) = oldsOf l ++ oldsOf m :=
  filterMap_append

@[simp] theorem newsOf_append (l m : List GoalIndex) : newsOf (l ++ m) = newsOf l ++ newsOf m :=
  filterMap_append

theorem mem_filterMap_iff {f : ξ → Option δ} {k : δ → ξ} (h : ∀ x y, f x = some y ↔ x = k y)
    {l : List ξ} {y : δ} : y ∈ l.filterMap f ↔ k y ∈ l := by
  simp only [mem_filterMap, h, exists_eq_right]

@[simp] theorem mem_oldsOf : i ∈ oldsOf l ↔ .old i ∈ l :=
  mem_filterMap_iff fun g i => by cases g <;> simp

@[simp] theorem mem_newsOf : i ∈ newsOf l ↔ .new i ∈ l :=
  mem_filterMap_iff fun g i => by cases g <;> simp

theorem oldsOf_perm {m : List GoalIndex} (h : l.Perm m) : (oldsOf l).Perm (oldsOf m) :=
  h.filterMap _

theorem newsOf_perm {m : List GoalIndex} (h : l.Perm m) : (newsOf l).Perm (newsOf m) :=
  h.filterMap _

theorem nodup_of_sides (ho : (oldsOf l).Nodup) (hn : (newsOf l).Nodup) : l.Nodup := by
  induction l with
  | nil => exact nodup_nil
  | cons g l ih =>
    cases g with
    | old i =>
      have ho : (i :: oldsOf l).Nodup := ho
      rw [nodup_cons, mem_oldsOf] at ho
      exact nodup_cons.mpr ⟨ho.1, ih ho.2 hn⟩
    | new i =>
      have hn : (i :: newsOf l).Nodup := hn
      rw [nodup_cons, mem_newsOf] at hn
      exact nodup_cons.mpr ⟨hn.1, ih ho hn.2⟩

section Left

variable [DecidableEq χ] (Old New oldgoals newgoals)

/-- The exact pairs and the goals that are left. -/
structure LeftOver (prs : List ((β × Nat) × Nat)) (all : List GoalIndex)
    (result : Result α β) : Prop where
  result : result = resultOf oldgoals newgoals (exact prs)
  sublist : (prs.map Prod.fst).Sublist newgoals.zipIdx
  olds : (prs.map Prod.snd ++ oldsOf all).Perm (List.range oldgoals.length)
  news : (prs.map (fun p => p.1.2) ++ newsOf all).Perm (List.range newgoals.length)
  same : ∀ c, (prs.filter fun p => New.checksum p.1.1 = some c) =
    matchLast (ofChecksum New c newgoals.zipIdx) (oldPositions Old c oldgoals.zipIdx)
  summed : ∀ p ∈ prs, (New.checksum p.1.1).isSome
  apart : ∀ {i o g og c}, .new i ∈ all → .old o ∈ all → newgoals[i]? = some g →
    oldgoals[o]? = some og → New.checksum g = some c → Old.checksum og ≠ some c

variable {Old New oldgoals newgoals}

theorem zipIdx_snd (l : List γ) : l.zipIdx.map Prod.snd = List.range l.length := by
  rw [zipIdx_map_snd, range_eq_range']

theorem phase1_ok (hnames : (newgoals.map New.name).Nodup) (order : MultiTable.IterOrder χ Nat) :
    ∃ s prs, phase1 Old New oldgoals newgoals = .ok s ∧
      LeftOver Old New oldgoals newgoals prs (allgoals Old New order oldgoals newgoals s)
        s.result := by
  obtain ⟨ol, hol, hold⟩ := oldChecksums_ok Old oldgoals
  have hlt : ∀ b ∈ (oldChecksums Old oldgoals).1, b.2 < oldgoals.length := by
    intro b hb
    obtain ⟨g, hg, -⟩ := hold.keys b hb
    exact (List.getElem?_eq_some_iff.mp (mem_zipIdx_iff_getElem?.mp hg)).1
  have hinit : resultOf oldgoals newgoals [] = newgoals.map fun g => (g, none) := by
    rw [resultOf]
    simp only [lookup_nil]
    rw [← zipIdx_map_fst 0 newgoals, map_map, zipIdx_map_fst]
    rfl
  obtain ⟨prs, unpaired, s, hs, h⟩ := foldrM_pairExact hnames hlt
    (oldChecksums Old oldgoals).2 newgoals.zipIdx
    fun x hx => mem_zipIdx_iff_getElem?.mp hx
  rw [hinit] at hs
  refine ⟨s, prs, hs, ?_⟩
  have hall : (allgoals Old New order oldgoals newgoals s).Perm
      ((s.table.map Prod.snd).map .old ++ (unpaired.map .new ++ ol.map .old)) := by
    refine (mergeSort_perm _ _).trans ((foldl_cons_perm _ _ _).trans ?_)
    rw [h.acc, hol, map_map]
    exact ((order.visit_perm s.table).map _).append_right _
  have holds : (oldsOf (allgoals Old New order oldgoals newgoals s)).Perm
      (s.table.map Prod.snd ++ ol) := by
    have hperm := oldsOf_perm hall
    rw [oldsOf_append, oldsOf_append, oldsOf_map_old, oldsOf_map_new, oldsOf_map_old] at hperm
    exact hperm
  have hnews : (newsOf (allgoals Old New order oldgoals newgoals s)).Perm unpaired := by
    have hperm := newsOf_perm hall
    rw [newsOf_append, newsOf_append, newsOf_map_old, newsOf_map_new, newsOf_map_old,
      append_nil] at hperm
    exact hperm
  refine ⟨h.result, h.sublist, ?_, ?_, ?_, h.summed, ?_⟩
  · rw [← zipIdx_snd]
    refine (holds.append_left _).trans ?_
    rw [← append_assoc]
    exact (h.olds.append_right _).trans hold.olds
  · rw [← zipIdx_snd]
    exact (hnews.append_left _).trans h.news
  · intro c
    rw [h.same, hold.bindings, reverse_reverse]
  · intro i o g og c hi ho hg hog hc hoc
    -- the old goal has a checksum, so it is in the table, where its checksum has no binding
    obtain ⟨g', hg', hle⟩ := h.left i (hnews.mem_iff.mp (mem_newsOf.mpr hi))
    rw [mem_zipIdx_iff_getElem?, hg, some.injEq] at hg'
    subst hg'
    have hempty : MultiTable.bindings s.table c = [] := by
      rw [h.bindings, drop_eq_nil_iff]
      exact hle c hc
    cases mem_append.mp (holds.mem_iff.mp (mem_oldsOf.mpr ho)) with
    | inl hin =>
      obtain ⟨b, hb, rfl⟩ := mem_map.mp hin
      obtain ⟨og', hog', hkey⟩ := hold.keys b (h.table.subset hb)
      rw [mem_zipIdx_iff_getElem?, hog, some.injEq] at hog'
      subst hog'
      have hbc : b.1 = c := some.inj (hkey.symm.trans hoc)
      have hmem : b.2 ∈ MultiTable.bindings s.table c := by
        rw [MultiTable.bindings, mem_map]
        exact ⟨b, mem_filter.mpr ⟨hb, by simpa using hbc⟩, rfl⟩
      rw [hempty] at hmem
      cases hmem
    | inr hin =>
      obtain ⟨og', hog', hnone⟩ := hold.none o hin
      rw [mem_zipIdx_iff_getElem?, hog, some.injEq] at hog'
      subst hog'
      rw [hoc] at hnone
      cases hnone

end Left

/-! The second phase. -/

def GoalIndex.isOld : GoalIndex → Bool
  | .old _ => true
  | .new _ => false

section Loop

variable (Old New oldgoals newgoals)

variable {x y : GoalIndex} {k : Nat × Nat} {pq : List Entry}

/-- The second queue is the first with entries for the pairs of nodes `new`. -/
structure Adds (pq pq' : List Entry) (new : GoalIndex → GoalIndex → Prop) : Prop where
  keep : ∀ e ∈ pq, e ∈ pq'
  queued : ∀ {x y}, new x y → ∃ k, (k, (x, y)) ∈ pq'
  origin : ∀ {k x y}, (k, (x, y)) ∈ pq' → (k, (x, y)) ∈ pq ∨ new x y

section

variable {pq' pq'' : List Entry} {new new' : GoalIndex → GoalIndex → Prop}

theorem Adds.refl (h : ∀ x y, ¬ new x y) : Adds pq pq new :=
  ⟨fun _ he => he, fun hn => absurd hn (h _ _), .inl⟩

theorem Adds.trans (h : Adds pq pq' new) (h' : Adds pq' pq'' new') :
    Adds pq pq'' fun x y => new x y ∨ new' x y where
  keep e he := h'.keep e (h.keep e he)
  queued hn := by
    cases hn with
    | inl hn =>
      obtain ⟨k, hk⟩ := h.queued hn
      exact ⟨k, h'.keep _ hk⟩
    | inr hn => exact h'.queued hn
  origin hin := by
    cases h'.origin hin with
    | inl hin => exact (h.origin hin).imp_right .inl
    | inr hn => exact .inr (.inr hn)

theorem Adds.congr (h : Adds pq pq' new) (he : ∀ x y, new x y ↔ new' x y) : Adds pq pq' new' := by
  have heq : new = new' := funext₂ fun x y => propext (he x y)
  exact heq ▸ h

theorem adds_insert (e : Entry) (pq : List Entry) :
    Adds pq (Pqueue.insert compareEntry e pq) fun x y => (x, y) = e.2 := by
  have hmem : ∀ {f}, f ∈ Pqueue.insert compareEntry e pq ↔ f = e ∨ f ∈ pq :=
    (Pqueue.insert_perm compareEntry e pq).mem_iff.trans mem_cons
  refine ⟨fun f hf => hmem.mpr (.inr hf), fun he => ⟨e.1, hmem.mpr (.inl ?_)⟩, fun hin => ?_⟩
  · rw [he]
  · exact (hmem.mp hin).symm.imp_right (congrArg Prod.snd)

end

theorem adds_addPair (x y : GoalIndex) (pq : List Entry) :
    Adds pq (addPair Old New oldgoals newgoals x y pq)
      fun u v => x.isOld ≠ y.isOld ∧ (u, v) = (x, y) := by
  cases x with
  | old i =>
    cases y with
    | old j => exact .refl fun _ _ h => h.1 rfl
    | new j => exact (adds_insert _ pq).congr fun _ _ => (and_iff_right nofun).symm
  | new i =>
    cases y with
    | old j => exact (adds_insert _ pq).congr fun _ _ => (and_iff_right nofun).symm
    | new j => exact .refl fun _ _ h => h.1 rfl

theorem length_addPair_le (x y : GoalIndex) (pq : List Entry) :
    (addPair Old New oldgoals newgoals x y pq).length ≤ pq.length + 1 := by
  cases x <;> cases y <;>
    first | exact Nat.le_succ _ | exact (Pqueue.insert_perm compareEntry _ pq).length_eq.le

/-- Neighbours by their position. -/
theorem infix_iff {l : List ξ} {x y : ξ} :
    (∃ i : Nat, l[i]? = some x ∧ l[i + 1]? = some y) ↔ [x, y] <:+: l := by
  constructor
  · rintro ⟨i, hx, hy⟩
    obtain ⟨_, rfl⟩ := List.getElem?_eq_some_iff.mp hx
    obtain ⟨hi, rfl⟩ := List.getElem?_eq_some_iff.mp hy
    refine ⟨l.take i, l.drop (i + 2), ?_⟩
    rw [append_assoc]
    change l.take i ++ l[i] :: l[i + 1] :: l.drop (i + 2) = l
    rw [← drop_eq_getElem_cons hi, ← drop_eq_getElem_cons (by omega), take_append_drop]
  · rintro ⟨a, b, rfl⟩
    exact ⟨a.length, by simp, by simp⟩

/-- The nodes of a pair, new goal first. -/
def nodesOf (p : Nat × Nat) : List GoalIndex := [.new p.1, .old p.2]

/-- The state of the second phase: `all` the goals it began with, `made` the pairs made,
new goal first, and `cur` the goals that are left, in order. -/
structure LoopState (prs : List ((β × Nat) × Nat)) (all : List GoalIndex)
    (made : List (Nat × Nat)) (cur : List GoalIndex) (s : Phase2 α β) : Prop where
  links : s.nodes.links.Rep cur
  valid : ∀ g ∈ all, s.nodes.valid g = true ↔ g ∈ cur
  goals : (cur ++ made.flatMap nodesOf).Perm all
  queued : ∀ {i x y}, cur[i]? = some x → cur[i + 1]? = some y → x.isOld ≠ y.isOld →
    ∃ k, (k, (x, y)) ∈ s.pq
  entries : ∀ {k x y}, (k, (x, y)) ∈ s.pq → x.isOld ≠ y.isOld ∧ x ∈ all ∧ y ∈ all ∧
    (x ∈ cur → y ∈ cur → ∃ i, cur[i]? = some x ∧ cur[i + 1]? = some y)
  result : s.result =
    resultOf oldgoals newgoals (made.map (fun p => (p.1, (p.2, true))) ++ exact prs)

variable {Old New oldgoals newgoals} {prs : List ((β × Nat) × Nat)} {all : List GoalIndex}
  {made : List (Nat × Nat)} {cur : List GoalIndex} {s : Phase2 α β}

variable (h : LoopState oldgoals newgoals prs all made cur s) (hpq : s.pq.Perm ((k, (x, y)) :: pq))

include h hpq in
/-- An entry of which a node is gone is dropped. -/
theorem LoopState.drop (hgone : ¬ (x ∈ cur ∧ y ∈ cur)) :
    LoopState oldgoals newgoals prs all made cur { s with pq } := by
  refine { h with
    queued := fun hu hv huv => ?_
    entries := fun hin => h.entries (hpq.mem_iff.mpr (mem_cons_of_mem _ hin)) }
  obtain ⟨k', hin⟩ := h.queued hu hv huv
  cases mem_cons.mp (hpq.mem_iff.mp hin) with
  | inl he =>
    cases he
    exact absurd ⟨mem_of_getElem? hu, mem_of_getElem? hv⟩ hgone
  | inr hin => exact ⟨k', hin⟩

/-- The pair of old and new goal that two nodes of different sides are. -/
theorem oldNew_ok (h : x.isOld ≠ y.isOld) :
    ∃ o n, oldNew x y = .ok (o, n) ∧ [x, y].Perm (nodesOf (n, o)) := by
  cases x with
  | old i =>
    cases y with
    | old j => exact absurd rfl h
    | new j => exact ⟨i, j, rfl, .swap _ _ _⟩
  | new i =>
    cases y with
    | old j => exact ⟨j, i, rfl, .refl _⟩
    | new j => exact absurd rfl h

variable {a b : List GoalIndex}

/-- Those around a pair of neighbours, of different sides. -/
def Beside (a b : List GoalIndex) (u v : GoalIndex) : Prop :=
  u.isOld ≠ v.isOld ∧ a.getLast? = some u ∧ b.head? = some v

/-- The neighbours in two lists one after the other. -/
theorem infix_append_iff' {u v : GoalIndex} : [u, v] <:+: a ++ b ↔
    [u, v] <:+: a ∨ [u, v] <:+: b ∨ a.getLast? = some u ∧ b.head? = some v := by
  rw [infix_append_iff_ne_nil, ← singleton_suffix_iff_getLast?_eq_some,
    ← singleton_prefix_iff_head?_eq_some]
  refine or_congr_right (or_congr_right ⟨?_, fun h => ⟨[u], [v], nofun, nofun, rfl, h⟩⟩)
  rintro ⟨_ | ⟨p, _ | ⟨q, l₁⟩⟩, l₂, hne, hne', he, h⟩
  · exact absurd rfl hne
  · cases he
    exact h
  · simp [hne'] at he

/-- The queue after a pair is gone has the pair that is new. -/
theorem LoopState.pair_queue
    (h : LoopState oldgoals newgoals prs all made (a ++ x :: y :: b) s)
    (hpq : s.pq.Perm ((k, (x, y)) :: pq)) {pq' : List Entry} (hadds : Adds pq pq' (Beside a b))
    {u v : GoalIndex} (huv : [u, v] <:+: a ++ b) (hside : u.isOld ≠ v.isOld) :
    ∃ k, (k, (u, v)) ∈ pq' := by
  have hx : x ∉ a ++ y :: b := (nodup_cons.mp (nodup_middle.mp h.links.nodup)).1
  have hkeep : [u, v] <:+: a ++ x :: y :: b → u ≠ x → ∃ k, (k, (u, v)) ∈ pq' := by
    intro hin hu
    obtain ⟨i, hui, hvi⟩ := infix_iff.mpr hin
    obtain ⟨k', hin⟩ := h.queued hui hvi hside
    refine ⟨k', hadds.keep _ ((mem_cons.mp (hpq.mem_iff.mp hin)).resolve_left fun he => ?_)⟩
    cases he
    exact hu rfl
  obtain huv | huv | ⟨hu, hv⟩ := infix_append_iff'.mp huv
  · refine hkeep (infix_append_iff'.mpr (.inl huv)) fun he => hx (mem_append_left _ ?_)
    exact he ▸ huv.mem mem_cons_self
  · refine hkeep (huv.trans ⟨a ++ [x, y], [], by simp⟩) fun he => hx (mem_append_right _ ?_)
    exact mem_cons_of_mem y (he ▸ huv.mem mem_cons_self)
  · exact hadds.queued ⟨hside, hu, hv⟩

/-- Neighbours that stay are still neighbours. -/
theorem infix_of_ne {u v : GoalIndex} (h : [u, v] <:+: a ++ x :: y :: b) (hux : u ≠ x)
    (huy : u ≠ y) (hvx : v ≠ x) : [u, v] <:+: a ++ b := by
  rw [infix_append_iff', infix_cons_iff, infix_cons_iff] at h
  simp only [cons_prefix_cons, hux, huy, false_and, false_or, head?_cons, Option.some.injEq,
    hvx.symm, and_false, or_false] at h
  exact infix_append_iff'.mpr (h.imp_right .inl)

section

variable (Old New oldgoals newgoals)

/-- The pair of those around two neighbours, if there are such and they are of different
sides, is put into the queue. -/
theorem adds_around {l : Linked GoalIndex} (hl : l.Rep (a ++ x :: y :: b)) (pq : List Entry) :
    Adds pq (if l.prev x ≠ x ∧ l.next y ≠ y then
      addPair Old New oldgoals newgoals (l.prev x) (l.next y) pq else pq) (Beside a b) := by
  have hx : x ∉ a ++ y :: b := (nodup_cons.mp (nodup_middle.mp hl.nodup)).1
  have hl' : l.Rep ((a ++ [x]) ++ y :: b) := by rwa [append_assoc]
  have hy : y ∉ (a ++ [x]) ++ b := (nodup_cons.mp (nodup_middle.mp hl'.nodup)).1
  rw [hl.prev_append, hl'.next_append]
  cases ha : a.getLast? with
  | none =>
    rw [if_neg (by simp)]
    exact .refl fun _ _ h => nomatch ha.symm.trans h.2.1
  | some u =>
    cases hb : b.head? with
    | none =>
      rw [if_neg (by simp)]
      exact .refl fun _ _ h => nomatch hb.symm.trans h.2.2
    | some v =>
      have hux : u ≠ x := fun he => hx (mem_append_left _ (he ▸ mem_of_mem_getLast? ha))
      have hvy : v ≠ y := fun he => hy (mem_append_right _ (he ▸ mem_of_mem_head? hb))
      rw [Option.getD_some, Option.getD_some, if_pos ⟨hux, hvy⟩]
      refine (adds_addPair Old New oldgoals newgoals u v pq).congr fun u' v' => ?_
      rw [Beside, ha, hb, Option.some.injEq, Option.some.injEq, Prod.mk.injEq]
      constructor
      · rintro ⟨huv, rfl, rfl⟩
        exact ⟨huv, rfl, rfl⟩
      · rintro ⟨huv, rfl, rfl⟩
        exact ⟨huv, rfl, rfl⟩

end

section

variable (Old) (hnames : (newgoals.map New.name).Nodup)
  (hn : ∀ i, .new i ∈ all → i < newgoals.length) (ho : ∀ i, .old i ∈ all → i < oldgoals.length)
include hnames hn ho

theorem LoopState.pair (h : LoopState oldgoals newgoals prs all made cur s)
    (hpq : s.pq.Perm ((k, (x, y)) :: pq))
    (hxc : x ∈ cur) (hyc : y ∈ cur) :
    ∃ s' made' cur', pairNodes Old New oldgoals newgoals x y pq s = .ok s' ∧
      LoopState oldgoals newgoals prs all made' cur' s' ∧
      s'.pq.length + cur'.length < s.pq.length + cur.length := by
  obtain ⟨hxy, hxa, hya, hadj⟩ := h.entries (hpq.mem_iff.mpr mem_cons_self)
  obtain ⟨a, b, he⟩ := infix_iff.mp (hadj hxc hyc)
  obtain rfl : a ++ x :: y :: b = cur := by
    rw [← he, append_assoc]
    rfl
  obtain ⟨o, n, hon, hnodes⟩ := oldNew_ok hxy
  have hin : ∀ g ∈ nodesOf (n, o), g ∈ all := by
    intro g hg
    have hg := hnodes.mem_iff.mpr hg
    simp only [mem_cons, not_mem_nil, or_false] at hg
    exact hg.elim (fun he => he ▸ hxa) (fun he => he ▸ hya)
  have hperm : (a ++ x :: y :: b).Perm (x :: y :: (a ++ b)) :=
    perm_middle.trans (perm_middle.cons x)
  have hnd : (x :: y :: (a ++ b)).Nodup := hperm.nodup h.links.nodup
  have hmem : ∀ g, g ∈ a ++ b ↔ g ∈ a ++ x :: y :: b ∧ g ≠ x ∧ g ≠ y := by
    intro g
    rw [hperm.mem_iff, mem_cons, mem_cons]
    simp only [nodup_cons, mem_cons, not_or] at hnd
    constructor
    · intro hg
      exact ⟨.inr (.inr hg), fun he => hnd.1.2 (he ▸ hg), fun he => hnd.2.1 (he ▸ hg)⟩
    · rintro ⟨hg, hgx, hgy⟩
      exact (hg.resolve_left hgx).resolve_left hgy
  have hres := setResult_ok hnames (made.map (fun p => (p.1, (p.2, true))) ++ exact prs)
    (hn n (hin _ mem_cons_self)) (ho o (hin _ (mem_cons_of_mem _ mem_cons_self))) true
  simp only [pairNodes, hon, h.result, hres, bind, Except.bind]
  have hadds := adds_around Old New oldgoals newgoals h.links pq
  refine ⟨_, (n, o) :: made, a ++ b, rfl, ⟨h.links.remove.remove, ?_, ?_, ?_, ?_, rfl⟩, ?_⟩
  · intro g hg
    rw [hmem, ← h.valid g hg]
    change Function.update (Function.update s.nodes.valid x false) y false g = true ↔ _
    by_cases hgy : g = y
    · simp [hgy]
    · rw [Function.update_of_ne hgy]
      by_cases hgx : g = x
      · simp [hgx]
      · rw [Function.update_of_ne hgx]
        simp [hgx, hgy]
  · refine List.Perm.trans ?_ h.goals
    rw [flatMap_cons, ← append_assoc]
    refine List.Perm.append_right _ ?_
    refine (perm_append_comm).trans ?_
    exact (hnodes.symm.append_right _).trans hperm.symm
  · exact fun hu hv => h.pair_queue hpq hadds (infix_iff.mp ⟨_, hu, hv⟩)
  · intro k' u v hin'
    cases hadds.origin hin' with
    | inl hin' =>
      obtain ⟨huv, hua, hva, hadj'⟩ := h.entries (hpq.mem_iff.mpr (mem_cons_of_mem _ hin'))
      refine ⟨huv, hua, hva, fun hu hv => ?_⟩
      obtain ⟨huc, hux, huy⟩ := (hmem u).mp hu
      obtain ⟨hvc, hvx, -⟩ := (hmem v).mp hv
      exact infix_iff.mpr (infix_of_ne (infix_iff.mp (hadj' huc hvc)) hux huy hvx)
    | inr hnew =>
      obtain ⟨huv', hu', hv'⟩ := hnew
      have hall : ∀ g ∈ a ++ b, g ∈ all :=
        fun g hg => h.goals.mem_iff.mp (mem_append_left _ ((hmem g).mp hg).1)
      exact ⟨huv', hall u (mem_append_left _ (mem_of_mem_getLast? hu')),
        hall v (mem_append_right _ (mem_of_mem_head? hv')),
        fun _ _ => infix_iff.mpr (infix_append_iff'.mpr (.inr (.inr ⟨hu', hv'⟩)))⟩
  · have hlen := hperm.length_eq
    have hlen' := hpq.length_eq
    have hadd := length_addPair_le Old New oldgoals newgoals (s.nodes.links.prev x)
      (s.nodes.links.next y) pq
    simp only [length_cons] at hlen hlen' ⊢
    split <;> omega

/-- The loop ends with an empty queue. -/
theorem phase2_ok (fuel : Nat) : ∀ {made cur s}, LoopState oldgoals newgoals prs all made cur s →
      s.pq.length + cur.length < fuel →
      ∃ s' made' cur', phase2 Old New oldgoals newgoals fuel s = .ok s' ∧ s'.pq = [] ∧
        LoopState oldgoals newgoals prs all made' cur' s' := by
  induction fuel with
  | zero => exact fun _ hf => absurd hf (Nat.not_lt_zero _)
  | succ fuel ih =>
    intro made cur s h hf
    rw [phase2]
    cases he : Pqueue.extractMin compareEntry s.pq with
    | none => exact ⟨s, made, cur, rfl, (Pqueue.extractMin_none compareEntry).mp he, h⟩
    | some e =>
      obtain ⟨⟨k, x, y⟩, pq⟩ := e
      have hpq := Pqueue.extractMin_perm compareEntry he
      obtain ⟨-, hxa, hya, -⟩ := h.entries (hpq.mem_iff.mpr mem_cons_self)
      simp only
      by_cases hv : (s.nodes.valid x && s.nodes.valid y) = true
      · rw [if_pos hv]
        rw [Bool.and_eq_true, h.valid x hxa, h.valid y hya] at hv
        obtain ⟨s', made', cur', hs', h', hlt⟩ := h.pair Old hnames hn ho hpq hv.1 hv.2
        simp only [hs']
        exact ih h' (by omega)
      · rw [if_neg hv]
        rw [Bool.and_eq_true, h.valid x hxa, h.valid y hya] at hv
        refine ih (h.drop hpq hv) ?_
        have := hpq.length_eq
        simp only [length_cons] at this
        simp only
        omega

end

section

variable (Old New oldgoals newgoals)

/-- The pass over the neighbours puts those of different sides into the queue. -/
theorem adds_iterPairs (l : List GoalIndex) (pq : List Entry) :
    Adds pq (Linked.iterPairs (addPair Old New oldgoals newgoals) l pq) fun x y =>
      x.isOld ≠ y.isOld ∧ ∃ i : Nat, l[i]? = some x ∧ l[i + 1]? = some y := by
  induction l generalizing pq with
  | nil => exact .refl fun _ _ h => by simp at h
  | cons x l ih =>
    cases l with
    | nil => exact .refl fun _ _ h => by simp at h
    | cons y l =>
      refine ((adds_addPair Old New oldgoals newgoals x y pq).trans (ih _)).congr fun u v => ?_
      constructor
      · rintro (⟨huv, he⟩ | ⟨huv, i, hu, hv⟩)
        · cases he
          exact ⟨huv, 0, rfl, rfl⟩
        · exact ⟨huv, i + 1, hu, hv⟩
      · rintro ⟨huv, i, hu, hv⟩
        cases i with
        | zero =>
          cases hu
          cases hv
          exact .inl ⟨huv, rfl⟩
        | succ i => exact .inr ⟨huv, i, hu, hv⟩

theorem loopState_init (hall : all.Nodup) (prs : List ((β × Nat) × Nat)) :
    LoopState oldgoals newgoals prs all [] all ⟨⟨Linked.build all, fun _ => true⟩,
        Linked.iterPairs (addPair Old New oldgoals newgoals) all [],
        resultOf oldgoals newgoals (exact prs)⟩ := by
  have hadds := adds_iterPairs Old New oldgoals newgoals all []
  refine ⟨Linked.rep_build hall, fun g hg => iff_of_true rfl hg, ?_,
    fun hx hy hxy => hadds.queued ⟨hxy, _, hx, hy⟩, ?_, rfl⟩
  · rw [flatMap_nil, append_nil]
  · intro k x y hin
    obtain ⟨hxy, i, hx, hy⟩ := (hadds.origin hin).resolve_left not_mem_nil
    exact ⟨hxy, mem_of_getElem? hx, mem_of_getElem? hy, fun _ _ => ⟨i, hx, hy⟩⟩

end

/-- Without neighbours of different sides all goals are of one side. -/
theorem one_side (h : ∀ {i x y}, l[i]? = some x → l[i + 1]? = some y → x.isOld = y.isOld) :
    ∃ b, ∀ g ∈ l, g.isOld = b := by
  induction l with
  | nil => exact ⟨true, nofun⟩
  | cons x l ih =>
    obtain ⟨b, hb⟩ := ih fun {i _ _} hx hy => h (i := i + 1) hx hy
    cases l with
    | nil => exact ⟨x.isOld, by simp⟩
    | cons y l =>
      refine ⟨b, fun g hg => ?_⟩
      cases mem_cons.mp hg with
      | inl he =>
        rw [he, h (i := 0) rfl rfl]
        exact hb y mem_cons_self
      | inr hg => exact hb g hg

theorem oldsOf_made (made : List (Nat × Nat)) :
    oldsOf (made.flatMap nodesOf) = made.map Prod.snd := by
  induction made with
  | nil => rfl
  | cons p made ih => rw [flatMap_cons, oldsOf_append, ih]; rfl

theorem newsOf_made (made : List (Nat × Nat)) :
    newsOf (made.flatMap nodesOf) = made.map Prod.fst := by
  induction made with
  | nil => rfl
  | cons p made ih => rw [flatMap_cons, newsOf_append, ih]; rfl

/-- The old goals of the nodes that stayed. -/
theorem detached_perm (oldgoals : List α) (hall : all.Nodup) (hcur : cur.Nodup)
    {valid : GoalIndex → Bool} (hvalid : ∀ g, g ∈ all ∧ valid g = true ↔ g ∈ cur) :
    (detached oldgoals valid all).Perm ((oldsOf cur).filterMap (oldgoals[·]?)) := by
  have hfold : ∀ (l : List GoalIndex) (acc : List α),
      (l.foldl (fun acc x => match x with
        | .old i => if valid x then (oldgoals[i]?).toList ++ acc else acc
        | .new _ => acc) acc).Perm
        ((oldsOf (l.filter valid)).filterMap (oldgoals[·]?) ++ acc) := by
    intro l
    induction l with
    | nil => exact fun _ => .refl _
    | cons x l ih =>
      intro acc
      rw [foldl_cons, filter_cons]
      refine (ih _).trans ?_
      cases x with
      | new i => cases valid (.new i) <;> exact .refl _
      | old i =>
        cases valid (.old i) with
        | false => exact .refl _
        | true =>
          have hcons : oldsOf (.old i :: l.filter valid) = i :: oldsOf (l.filter valid) := rfl
          simp only [if_true]
          rw [hcons, filterMap_cons]
          cases oldgoals[i]? with
          | none => exact .refl _
          | some g => exact perm_middle
  have hperm : (all.filter valid).Perm cur := by
    rw [perm_ext_iff_of_nodup (hall.filter _) hcur]
    intro g
    rw [mem_filter, hvalid]
  refine (hfold all []).trans ?_
  rw [append_nil]
  exact (oldsOf_perm hperm).filterMap _

end Loop

/-! The whole pairing. -/

/-- The bindings of distinct keys, in the order of `ks`. -/
theorem filterMap_lookup_perm {prs : List (Nat × γ)} {rest ks : List Nat} (hnd : ks.Nodup)
    (hperm : (prs.map (·.1) ++ rest).Perm ks) :
    (ks.filterMap fun k => prs.lookup k).Perm (prs.map (·.2)) := by
  obtain ⟨hkeys, -, hdisj⟩ := nodup_append.mp (hperm.symm.nodup hnd)
  have hnone : rest.filterMap (fun k => prs.lookup k) = [] := by
    refine filterMap_eq_nil_iff.mpr fun k hk => Option.not_isSome_iff_eq_none.mp fun hs => ?_
    exact hdisj k (AssocList.lookup_isSome_iff.mp hs) k hk rfl
  have hself : (prs.map (·.1)).filterMap (fun k => prs.lookup k) = prs.map (·.2) := by
    rw [filterMap_map, ← filterMap_eq_map]
    exact filterMap_congr fun p hp => AssocList.lookup_of_mem hkeys hp
  have hall := hperm.symm.filterMap fun k => prs.lookup k
  rwa [filterMap_append, hnone, append_nil, hself] at hall

/-- A selection of elements in their order, with what they are given. -/
theorem filterMap_of_sublist {zs : List ξ} {prs : List (ξ × δ)} (hnd : zs.Nodup)
    (hsub : (prs.map Prod.fst).Sublist zs) {f : ξ → Option γ} {k : ξ × δ → γ}
    (hin : ∀ p ∈ prs, f p.1 = some (k p)) (hout : ∀ z ∈ zs, z ∉ prs.map Prod.fst → f z = none) :
    zs.filterMap f = prs.map k := by
  induction zs generalizing prs with
  | nil =>
    rw [map_eq_nil_iff.mp (sublist_nil.mp hsub)]
    rfl
  | cons z zs ih =>
    obtain ⟨hz, hnd'⟩ := nodup_cons.mp hnd
    rw [filterMap_cons]
    by_cases hzp : z ∈ prs.map Prod.fst
    · cases prs with
      | nil => cases hzp
      | cons p prs =>
        cases hsub with
        | cons _ hsub => exact absurd (hsub.subset hzp) hz
        | cons_cons _ hsub =>
          rw [hin p mem_cons_self, map_cons]
          simp only [List.cons.injEq, true_and]
          refine ih hnd' hsub (forall_mem_cons.mp hin).2 fun w hw hwp => ?_
          refine hout w (mem_cons_of_mem _ hw) fun hmem => ?_
          cases mem_cons.mp hmem with
          | inl he => exact hz (he ▸ hw)
          | inr hmem => exact hwp hmem
    · rw [hout z mem_cons_self hzp]
      refine ih hnd' ?_ hin fun w hw hwp => hout w (mem_cons_of_mem _ hw) hwp
      cases sublist_cons_iff.mp hsub with
      | inl hsub => exact hsub
      | inr hsub =>
        obtain ⟨r, hr, -⟩ := hsub
        exact absurd (hr ▸ mem_cons_self) hzp

section Associate

variable [DecidableEq χ] (New)

/-- The pair of an entry, if it is exact and of the given checksum. -/
def exactPair (c : χ) : β × Option (α × Bool) → Option (β × α)
  | (n, some (o, false)) => if New.checksum n = some c then some (n, o) else none
  | _ => none

/-- The exact pairs of a checksum. -/
def exactPairs (c : χ) (result : Result α β) : List (β × α) :=
  result.filterMap (exactPair New c)

variable {New}

/-- The pairs of both phases, by the position of the new goal. -/
def allPairs (made : List (Nat × Nat)) (prs : List ((β × Nat) × Nat)) :
    List (Nat × (Nat × Bool)) :=
  made.map (fun p => (p.1, (p.2, true))) ++ exact prs

/-- What is known of the pairs when the pairing ends. -/
structure Paired (Old : GoalSig χ α) (New : GoalSig χ β) (oldgoals : List α) (newgoals : List β)
    (prs : List ((β × Nat) × Nat)) (made : List (Nat × Nat)) (cur : List GoalIndex) : Prop where
  sublist : (prs.map Prod.fst).Sublist newgoals.zipIdx
  olds : ((allPairs made prs).map (fun p => p.2.1) ++ oldsOf cur).Perm
    (List.range oldgoals.length)
  news : ((allPairs made prs).map (·.1) ++ newsOf cur).Perm (List.range newgoals.length)
  same : ∀ c, (prs.filter fun p => New.checksum p.1.1 = some c) =
    matchLast (ofChecksum New c newgoals.zipIdx) (oldPositions Old c oldgoals.zipIdx)
  summed : ∀ p ∈ prs, (New.checksum p.1.1).isSome
  apart : ∀ p ∈ made, ∀ {g og c}, newgoals[p.1]? = some g → oldgoals[p.2]? = some og →
    New.checksum g = some c → Old.checksum og ≠ some c

theorem LeftOver.paired {prs : List ((β × Nat) × Nat)} {all cur : List GoalIndex}
    {made : List (Nat × Nat)} {result : Result α β} {s : Phase2 α β}
    (h : LeftOver Old New oldgoals newgoals prs all result)
    (hs : LoopState oldgoals newgoals prs all made cur s) :
    Paired Old New oldgoals newgoals prs made cur := by
  have hgoals : ∀ p ∈ made, .new p.1 ∈ all ∧ .old p.2 ∈ all := by
    intro p hp
    have hin : ∀ g ∈ nodesOf p, g ∈ all := fun g hg =>
      hs.goals.mem_iff.mp (mem_append_right _ (mem_flatMap.mpr ⟨p, hp, hg⟩))
    exact ⟨hin _ mem_cons_self, hin _ (mem_cons_of_mem _ mem_cons_self)⟩
  have hperm {a b c m n : List Nat} (hall : (c ++ a).Perm m) (h : (b ++ m).Perm n) :
      (a ++ (b ++ c)).Perm n := by
    refine List.Perm.trans ?_ h
    rw [← append_assoc]
    refine (perm_append_comm.append_right _).trans ?_
    rw [append_assoc]
    exact (perm_append_comm.trans hall).append_left _
  refine ⟨h.sublist, ?_, ?_, h.same, h.summed, ?_⟩
  · have hall := oldsOf_perm hs.goals
    rw [oldsOf_append, oldsOf_made] at hall
    simpa [allPairs, exact, Function.comp_def] using hperm hall h.olds
  · have hall := newsOf_perm hs.goals
    rw [newsOf_append, newsOf_made] at hall
    simpa [allPairs, exact, Function.comp_def] using hperm hall h.news
  · intro p hp g og c hg hog hc
    exact h.apart (hgoals p hp).1 (hgoals p hp).2 hg hog hc

section Result

variable {prs : List ((β × Nat) × Nat)} {made : List (Nat × Nat)} {cur : List GoalIndex}
  (h : Paired Old New oldgoals newgoals prs made cur)

include h

theorem Paired.keys_nodup : ((allPairs made prs).map (·.1)).Nodup :=
  (nodup_append.mp (h.news.symm.nodup nodup_range)).1

theorem Paired.old_lt {p : Nat × (Nat × Bool)} (hp : p ∈ allPairs made prs) :
    p.2.1 < oldgoals.length :=
  mem_range.mp (h.olds.mem_iff.mp (mem_append_left _ (mem_map.mpr ⟨p, hp, rfl⟩)))

/-- The old goals that are paired and those that are not are all old goals. -/
theorem Paired.olds_perm {det : List α} (hdet : det.Perm ((oldsOf cur).filterMap (oldgoals[·]?))) :
    (((resultOf oldgoals newgoals (allPairs made prs)).filterMap fun r => r.2.map Prod.fst) ++
      det).Perm oldgoals := by
  have hres : ((resultOf oldgoals newgoals (allPairs made prs)).filterMap
      fun r => r.2.map Prod.fst) =
      ((List.range newgoals.length).filterMap fun k => (allPairs made prs).lookup k).filterMap
        fun p => oldgoals[p.1]? := by
    rw [resultOf, filterMap_map, ← zipIdx_snd, filterMap_filterMap, filterMap_map]
    apply filterMap_congr
    intro x _
    simp only [Function.comp_apply]
    cases (allPairs made prs).lookup x.2 with
    | none => rfl
    | some p =>
      simp only [bind_some]
      cases oldgoals[p.1]? <;> rfl
  have hall : (List.range oldgoals.length).filterMap (oldgoals[·]?) = oldgoals := by
    rw [← zipIdx_snd, filterMap_map]
    have hfst : ∀ x ∈ oldgoals.zipIdx, ((oldgoals[·]?) ∘ Prod.snd) x = some x.1 :=
      fun x hx => mem_zipIdx_iff_getElem?.mp hx
    rw [filterMap_congr hfst, filterMap_eq_map', zipIdx_map_fst]
  rw [hres]
  have hpairs := (filterMap_lookup_perm nodup_range h.news).filterMap fun p => oldgoals[p.1]?
  refine (hpairs.append hdet).trans ?_
  have holds := h.olds.filterMap (oldgoals[·]?)
  rw [hall, filterMap_append, filterMap_map] at holds
  rw [filterMap_map]
  exact holds

/-- Exact pairs are those of equal checksums. -/
theorem Paired.exact_iff {r : β × Option (α × Bool)}
    (hr : r ∈ resultOf oldgoals newgoals (allPairs made prs)) {o : α} {b : Bool}
    (ho : r.2 = some (o, b)) :
    b = false ↔ ∃ c, Old.checksum o = some c ∧ New.checksum r.1 = some c := by
  obtain ⟨x, hx, rfl⟩ := mem_map.mp hr
  obtain ⟨p, hp, hpo⟩ := Option.bind_eq_some_iff.mp ho
  obtain ⟨og, hog, he⟩ := Option.map_eq_some_iff.mp hpo
  cases he
  rw [mem_zipIdx_iff_getElem?] at hx
  cases mem_append.mp (AssocList.mem_of_lookup hp) with
  | inl hmem =>
    obtain ⟨q, hq, he⟩ := mem_map.mp hmem
    obtain ⟨hk, rfl⟩ := Prod.mk.inj he
    refine iff_of_false nofun ?_
    rintro ⟨c, hoc, hnc⟩
    exact h.apart q hq (hk ▸ hx) hog hnc hoc
  | inr hmem =>
    obtain ⟨q, hq, he⟩ := mem_map.mp hmem
    obtain ⟨hk, rfl⟩ := Prod.mk.inj he
    refine iff_of_true rfl ?_
    have hq' := mem_zipIdx_iff_getElem?.mp (h.sublist.subset (mem_map_of_mem hq))
    rw [hk, hx, some.injEq] at hq'
    obtain ⟨c, hc⟩ := Option.isSome_iff_exists.mp (h.summed q hq)
    have hin : q ∈ prs.filter fun p => New.checksum p.1.1 = some c :=
      mem_filter.mpr ⟨hq, by simpa using hc⟩
    rw [h.same] at hin
    have hpos := mem_of_mem_drop (of_mem_zip hin).2
    obtain ⟨y, hy, hyq⟩ := mem_map.mp hpos
    obtain ⟨hy, hyc⟩ := mem_filter.mp hy
    rw [mem_zipIdx_iff_getElem?, hyq, hog, some.injEq] at hy
    exact ⟨c, hy ▸ (by simpa using hyc), hq' ▸ hc⟩

/-- The exact pairs of a checksum are its last old and new goals. -/
theorem Paired.exactPairs (c : χ) :
    exactPairs New c (resultOf oldgoals newgoals (allPairs made prs)) =
      matchLast (newgoals.filter fun g => New.checksum g = some c)
        (oldgoals.filter fun g => Old.checksum g = some c) := by
  have hnews : (newgoals.filter fun g => New.checksum g = some c) =
      (ofChecksum New c newgoals.zipIdx).map Prod.fst := by
    conv_lhs => rw [← zipIdx_map_fst 0 newgoals, filter_map]
    rfl
  have holds : (oldgoals.filter fun g => Old.checksum g = some c).map some =
      (oldPositions Old c oldgoals.zipIdx).map (oldgoals[·]?) := by
    conv_lhs => rw [← zipIdx_map_fst 0 oldgoals, filter_map, map_map]
    rw [oldPositions, map_map]
    apply map_congr_left
    intro x hx
    exact (mem_zipIdx_iff_getElem?.mp (mem_filter.mp hx).1).symm
  -- the two lists are compared under `some`, where the old goals are looked up
  apply map_injective_iff.mpr
    (Function.Injective.prodMap Function.injective_id (Option.some_injective α))
  rw [← matchLast_map, map_id, holds, hnews, matchLast_map, ← h.same]
  have hnd : newgoals.zipIdx.Nodup := by
    apply List.Nodup.of_map Prod.snd
    rw [zipIdx_snd]
    exact nodup_range
  have hlook : ∀ p ∈ prs, (allPairs made prs).lookup p.1.2 = some (p.2, false) := fun p hp =>
    AssocList.lookup_of_mem h.keys_nodup
      (mem_append_right _ (mem_map.mpr ⟨p, hp, rfl⟩))
  have hget : ∀ p ∈ prs, ∃ o, oldgoals[p.2]? = some o := by
    intro p hp
    have hlt := h.old_lt (mem_append_right _ (mem_map.mpr ⟨p, hp, rfl⟩))
    exact ⟨_, List.getElem?_eq_getElem hlt⟩
  rw [Pairing.exactPairs, resultOf, filterMap_map, map_filterMap]
  apply filterMap_of_sublist hnd ((filter_sublist.map _).trans h.sublist)
  · intro p hp
    obtain ⟨hp, hc⟩ := mem_filter.mp hp
    obtain ⟨o, ho⟩ := hget p hp
    have hc : New.checksum p.1.1 = some c := by simpa using hc
    simp [hlook p hp, ho, hc, exactPair, Prod.map]
  · intro z hz hnot
    simp only [Function.comp_apply]
    cases hl : (allPairs made prs).lookup z.2 with
    | none => rfl
    | some q =>
      obtain ⟨o, b⟩ := q
      cases mem_append.mp (AssocList.mem_of_lookup hl) with
      | inl hmem =>
        obtain ⟨q, -, he⟩ := mem_map.mp hmem
        obtain ⟨-, he⟩ := Prod.mk.inj he
        obtain ⟨-, rfl⟩ := Prod.mk.inj he
        simp only [bind_some]
        cases oldgoals[o]? <;> rfl
      | inr hmem =>
        obtain ⟨q, hq, he⟩ := mem_map.mp hmem
        obtain ⟨hk, -⟩ := Prod.mk.inj he
        have hzq : q.1 = z := by
          have hq' := mem_zipIdx_iff_getElem?.mp
            (h.sublist.subset (mem_map_of_mem hq))
          rw [hk, mem_zipIdx_iff_getElem?.mp hz, some.injEq] at hq'
          exact Prod.ext hq'.symm hk
        have hc : New.checksum z.1 ≠ some c := by
          intro hc
          refine hnot (mem_map.mpr ⟨q, mem_filter.mpr ⟨hq, ?_⟩, hzq⟩)
          rw [hzq]
          simpa using hc
        simp only [bind_some]
        cases oldgoals[o]? with
        | none => rfl
        | some og => cases b <;> simp [exactPair, hc]

/-- If only old goals are left, every new goal is paired. -/
theorem Paired.all_paired (hcur : ∀ g ∈ cur, g.isOld = true) :
    ∀ r ∈ resultOf oldgoals newgoals (allPairs made prs), r.2.isSome := by
  refine forall_mem_map.mpr fun x hx => ?_
  have hlt := (List.getElem?_eq_some_iff.mp (mem_zipIdx_iff_getElem?.mp hx)).1
  have hkey : x.2 ∈ (allPairs made prs).map (·.1) := by
    cases mem_append.mp (h.news.mem_iff.mpr (mem_range.mpr hlt)) with
    | inl hmem => exact hmem
    | inr hmem =>
      have hnew := hcur _ (mem_newsOf.mp hmem)
      cases hnew
  obtain ⟨q, hq⟩ := Option.isSome_iff_exists.mp (AssocList.lookup_isSome_iff.mpr hkey)
  have hold := h.old_lt (AssocList.mem_of_lookup hq)
  simp only [hq, bind_some]
  rw [List.getElem?_eq_getElem hold]
  rfl

end Result

variable (Old New oldgoals newgoals)

/-- The pairing returns the new goals in order, loses no old goal, marks as exact the pairs of
equal checksums, of which it makes as many as there can be, and is maximal. -/
theorem associate_maximal (order : MultiTable.IterOrder χ Nat)
    (hnames : (newgoals.map New.name).Nodup) :
    ∃ result det, associate Old New order oldgoals newgoals true = .ok (result, det) ∧
      result.map Prod.fst = newgoals ∧
      ((result.filterMap fun r => r.2.map Prod.fst) ++ det).Perm oldgoals ∧
      (∀ r ∈ result, ∀ o b, r.2 = some (o, b) →
        (b = false ↔ ∃ c, Old.checksum o = some c ∧ New.checksum r.1 = some c)) ∧
      (∀ c, exactPairs New c result =
          matchLast (newgoals.filter fun g => New.checksum g = some c)
            (oldgoals.filter fun g => Old.checksum g = some c) ∧
        (exactPairs New c result).length =
          min (oldgoals.countP fun g => Old.checksum g = some c)
            (newgoals.countP fun g => New.checksum g = some c)) ∧
      ((∀ r ∈ result, r.2.isSome) ∨ det = []) := by
  obtain ⟨s, prs, hs, hleft⟩ := phase1_ok hnames order
  set all := allgoals Old New order oldgoals newgoals s with hall
  have hnd : all.Nodup :=
    nodup_of_sides (nodup_append.mp (hleft.olds.symm.nodup nodup_range)).2.1
      (nodup_append.mp (hleft.news.symm.nodup nodup_range)).2.1
  have hn : ∀ i, .new i ∈ all → i < newgoals.length := fun i hi =>
    mem_range.mp (hleft.news.mem_iff.mp (mem_append_right _ (mem_newsOf.mpr hi)))
  have ho : ∀ i, .old i ∈ all → i < oldgoals.length := fun i hi =>
    mem_range.mp (hleft.olds.mem_iff.mp (mem_append_right _ (mem_oldsOf.mpr hi)))
  have hinit := loopState_init Old New oldgoals newgoals hnd prs
  obtain ⟨s', made, cur, hs', hpq, hloop⟩ :=
    phase2_ok Old hnames hn ho _ hinit (Nat.lt_succ_self _)
  have hpaired := hleft.paired hloop
  have hsub : ∀ g ∈ cur, g ∈ all := fun g hg =>
    hloop.goals.mem_iff.mp (mem_append_left _ hg)
  have hcur : ∀ g, g ∈ all ∧ s'.nodes.valid g = true ↔ g ∈ cur := fun g =>
    ⟨fun h => (hloop.valid g h.1).mp h.2, fun h => ⟨hsub g h, (hloop.valid g (hsub g h)).mpr h⟩⟩
  have hcurnd : cur.Nodup := (nodup_append.mp (hloop.goals.symm.nodup hnd)).1
  have hdet := detached_perm oldgoals hnd hcurnd hcur
  have hres : s'.result = resultOf oldgoals newgoals (allPairs made prs) := hloop.result
  refine ⟨s'.result, detached oldgoals s'.nodes.valid all, ?_, ?_, ?_, ?_, ?_, ?_⟩
  · rw [associate, shapeAssociate, hs]
    refine Except.bind_eq_ok.mpr ⟨s, rfl, ?_⟩
    refine Except.bind_eq_ok.mpr ⟨s', ?_, rfl⟩
    rw [hleft.result]
    exact hs'
  · rw [hres, resultOf, map_map]
    exact zipIdx_map_fst 0 newgoals
  · rw [hres]
    exact hpaired.olds_perm hdet
  · intro r hr o b hb
    exact hpaired.exact_iff (hres ▸ hr) hb
  · intro c
    rw [hres, hpaired.exactPairs c, matchLast_length, countP_eq_length_filter,
      countP_eq_length_filter]
    exact ⟨rfl, rfl⟩
  · obtain ⟨b, hb⟩ := one_side fun {i x y} hx hy => by
      by_contra hxy
      obtain ⟨k, hk⟩ := hloop.queued hx hy hxy
      rw [hpq] at hk
      cases hk
    cases b with
    | true => exact Or.inl (hres ▸ hpaired.all_paired hb)
    | false =>
      refine Or.inr (List.Perm.eq_nil (hdet.trans ?_))
      have holds : oldsOf cur = [] := by
        refine eq_nil_iff_forall_not_mem.mpr fun i hi => ?_
        exact nomatch hb _ (mem_oldsOf.mp hi)
      rw [holds, filterMap_nil]

/-- Goals as records of a name, a checksum and a shape. -/
def recordSig : GoalSig Nat (Nat × Option Nat × Shape) :=
  ⟨fun g => g.2.1, fun g => g.2.2, fun g => ⟨"goal", g.1⟩⟩

/-- Two old goals have the checksum of one new goal: the later one is paired with it. -/
theorem associate_maximal_two_old : ∃ result det, associate recordSig recordSig ⟨id, fun _ _ => rfl⟩
      [(0, some 7, ([1], [])), (1, some 7, ([2], [])), (2, none, ([3], []))]
      [(3, none, ([3], [])), (4, some 7, ([1], []))] true = .ok (result, det) ∧
      exactPairs recordSig 7 result = [((4, some 7, ([1], [])), (1, some 7, ([2], [])))] ∧
      ((∀ r ∈ result, r.2.isSome) ∨ det = []) := by
  obtain ⟨result, det, h, -, -, -, hexact, hmax⟩ := associate_maximal recordSig recordSig
    [(0, some 7, ([1], [])), (1, some 7, ([2], [])), (2, none, ([3], []))]
    [(3, none, ([3], [])), (4, some 7, ([1], []))] ⟨id, fun _ _ => rfl⟩ (by decide)
  exact ⟨result, det, h, (hexact 7).1, hmax⟩

end Associate

end Pairing
end Why3
