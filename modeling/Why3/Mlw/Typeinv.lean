import Why3.Core.Term

/-!
Commitment maps of the injection of type invariants.

A pin is a positive number that stands for values whose invariants are not established. A map
sends pins to smaller ones with the same fate, and to 0 if they are committed. The meet of two
maps is built with the facts that make it a map again.
-/
namespace Why3
namespace Typeinv

/-- A finite map from pins to strictly smaller pins. -/
structure Uf where
  find : Nat → Option Nat
  bound : Nat
  finite : ∀ {n m}, find n = some m → n < bound
  smaller : ∀ {n m}, find n = some m → m < n

def getIndex (uf : Uf) (n : Nat) : Nat :=
  if n = 0 then 0
  else match _h : uf.find n with
    | some m => getIndex uf m
    | none => n
termination_by n
decreasing_by exact uf.smaller _h

inductive Cap where
  | v
  | p (n : Nat)
  | c (css : List (LSymbol × List Cap))
  | r (pjs : List (LSymbol × Cap))

mutual
/-- The pins of a capability. -/
def capPins : Cap → List Nat
  | .v => []
  | .p n => [n]
  | .c css => cssPins css
  | .r pjs => pjsPins pjs
def listPins : List Cap → List Nat
  | [] => []
  | c :: l => capPins c ++ listPins l
def cssPins : List (LSymbol × List Cap) → List Nat
  | [] => []
  | (_, l) :: css => listPins l ++ cssPins css
def pjsPins : List (LSymbol × Cap) → List Nat
  | [] => []
  | (_, c) :: pjs => capPins c ++ pjsPins pjs
end

def capValid (uf : Uf) (c : Cap) : Bool := (capPins c).all (getIndex uf · = 0)

variable (uf uf1 uf2 : Uf)

/-- One of the representatives belongs to the class of the two. -/
def easy (m1 m2 : Nat) : Bool :=
  if m1 < m2 then getIndex uf1 m2 = m1 else getIndex uf2 m1 = m2

/-- The least pin of a class, by the representatives of the class. -/
abbrev Table := Nat → Nat → Option Nat

def inner (n : Nat) : Option Nat → Option Nat
  | some m => some (min m n)
  | none => some n

/-- `Hard n m1 m2`: the class of the pin needs another representative. -/
def Hard (n m1 m2 : Nat) : Prop :=
  uf1.find n = some m1 ∧ uf2.find n = some m2 ∧ ¬(m1 = m2 ∨ easy uf1 uf2 m1 m2)

instance (n m1 m2 : Nat) : Decidable (Hard uf1 uf2 n m1 m2) := inferInstanceAs (Decidable (_ ∧ _))

def interStep (acc : Table) (n : Nat) : Table := fun m1 m2 =>
  if Hard uf1 uf2 n m1 m2 then inner n (acc m1 m2) else acc m1 m2

def interTable : Table := (List.range uf1.bound).foldl (interStep uf1 uf2) fun _ _ => none

def interFind (n : Nat) : Option Nat :=
  match uf1.find n, uf2.find n with
  | some m1, some m2 =>
    if m1 = m2 then some m1
    else match interTable uf1 uf2 m1 m2 with
      | some m => if m = n then none else some m
      | none => some (max m1 m2)
  | _, _ => none

theorem getIndex_of_find {n m : Nat} (h : uf.find n = some m) :
    getIndex uf n = getIndex uf m := by
  rw [getIndex, if_neg (Nat.ne_zero_of_lt (uf.smaller h))]
  split
  next k hk => rw [Option.some.inj (hk.symm.trans h)]
  next hk => cases hk.symm.trans h

theorem getIndex_of_none {n : Nat} (h : uf.find n = none) : getIndex uf n = n := by
  rw [getIndex]
  split
  next hn => exact hn.symm
  next =>
    split
    next k hk => cases hk.symm.trans h
    next => rfl

/-- An induction along the map. -/
@[elab_as_elim]
theorem Uf.induct {P : Nat → Prop} (root : ∀ n, uf.find n = none → P n)
    (step : ∀ n m, uf.find n = some m → P m → P n) (n : Nat) : P n := by
  induction n using Nat.strongRecOn with
  | _ n ih =>
    cases h : uf.find n with
    | none => exact root n h
    | some m => exact step n m h (ih m (uf.smaller h))

theorem find_getIndex (n : Nat) : uf.find (getIndex uf n) = none := by
  induction n using uf.induct with
  | root n h => rwa [getIndex_of_none uf h]
  | step n m h ih => rwa [getIndex_of_find uf h]

theorem getIndex_le (n : Nat) : getIndex uf n ≤ n := by
  induction n using uf.induct with
  | root n h => exact (getIndex_of_none uf h).le
  | step n m h ih => exact (getIndex_of_find uf h).trans_le (ih.trans (uf.smaller h).le)

/-- `Mint.map (get_index uf) uf` -/
def Uf.indexed : Uf where
  find n := (uf.find n).map (getIndex uf)
  bound := uf.bound
  finite h := by
    obtain ⟨m, hm, -⟩ := Option.map_eq_some_iff.mp h
    exact uf.finite hm
  smaller h := by
    obtain ⟨m, hm, rfl⟩ := Option.map_eq_some_iff.mp h
    exact (getIndex_le uf m).trans_lt (uf.smaller hm)

theorem getIndex_getIndex (n : Nat) : getIndex uf (getIndex uf n) = getIndex uf n :=
  getIndex_of_none uf (find_getIndex uf n)

theorem getIndex_indexed (n : Nat) : getIndex uf.indexed n = getIndex uf n := by
  cases h : uf.find n with
  | none => rw [getIndex_of_none uf h, getIndex_of_none _ (by simp [Uf.indexed, h])]
  | some m =>
    have hi : uf.indexed.find n = some (getIndex uf m) := by simp [Uf.indexed, h]
    rw [getIndex_of_find uf h, getIndex_of_find _ hi]
    exact getIndex_of_none _ (by simp [Uf.indexed, find_getIndex])

variable {uf1 uf2} {n m m1 m2 : Nat}

theorem indexed_find {uf : Uf} (h : uf.indexed.find n = some m) : getIndex uf n = m := by
  obtain ⟨k, hk, rfl⟩ := Option.map_eq_some_iff.mp h
  exact getIndex_of_find uf hk

/-! The table. -/

theorem foldl_interStep (k m1 m2 : Nat) :
    (∀ m, (List.range k).foldl (interStep uf1 uf2) (fun _ _ => none) m1 m2 = some m →
      Hard uf1 uf2 m m1 m2) ∧
    ∀ n < k, Hard uf1 uf2 n m1 m2 →
      ∃ m ≤ n, (List.range k).foldl (interStep uf1 uf2) (fun _ _ => none) m1 m2 = some m := by
  induction k with
  | zero => exact ⟨nofun, nofun⟩
  | succ k ih =>
    rw [List.range_succ, List.foldl_append, List.foldl_cons, List.foldl_nil]
    generalize (List.range k).foldl (interStep uf1 uf2) (fun _ _ => none) = acc at ih
    rw [interStep]
    obtain ⟨ihm, ihn⟩ := ih
    by_cases hk : Hard uf1 uf2 k m1 m2
    · rw [if_pos hk]
      cases hacc : acc m1 m2 with
      | none => grind [inner]
      | some x => grind [inner]
    · rw [if_neg hk]
      refine ⟨ihm, fun n hn h => ihn n ?_ h⟩
      exact (Nat.lt_succ_iff_lt_or_eq.mp hn).resolve_right (fun he => hk (he ▸ h))

theorem hard_of_interTable (h : interTable uf1 uf2 m1 m2 = some m) : Hard uf1 uf2 m m1 m2 :=
  (foldl_interStep uf1.bound m1 m2).1 m h

theorem Hard.interTable (h : Hard uf1 uf2 n m1 m2) : ∃ m ≤ n, interTable uf1 uf2 m1 m2 = some m :=
  (foldl_interStep uf1.bound m1 m2).2 n (uf1.finite h.1) h

/-- The class of a pin in the meet, by its representatives in the two maps. -/
def classOf (uf1 uf2 : Uf) (n : Nat) : Nat × Nat := (getIndex uf1 n, getIndex uf2 n)

theorem le_of_hard (h : Hard uf1.indexed uf2.indexed n m1 m2) {k : Nat}
    (ht : interTable uf1.indexed uf2.indexed m1 m2 = some n) (hk : classOf uf1 uf2 k = (m1, m2)) :
    n ≤ k := by
  obtain ⟨rfl, rfl⟩ := Prod.mk.inj hk
  have hle1 := getIndex_le uf1 k
  have hle2 := getIndex_le uf2 k
  have hno := h.2.2
  simp only [easy, getIndex_indexed, not_or] at hno
  cases h1 : uf1.find k with
  | none =>
    -- the class of a representative is easy
    have hk := getIndex_of_none uf1 h1
    rw [if_neg (by omega), hk] at hno
    simp at hno
  | some a =>
    cases h2 : uf2.find k with
    | none =>
      have hk := getIndex_of_none uf2 h2
      rw [if_pos (by omega), hk] at hno
      simp at hno
    | some b =>
      have h1' : uf1.indexed.find k = some (getIndex uf1 k) := by
        simp [Uf.indexed, h1, getIndex_of_find uf1 h1]
      have h2' : uf2.indexed.find k = some (getIndex uf2 k) := by
        simp [Uf.indexed, h2, getIndex_of_find uf2 h2]
      obtain ⟨m, hm, hmt⟩ := Hard.interTable ⟨h1', h2', h.2.2⟩
      cases ht.symm.trans hmt
      exact hm

/-- The meet sends a pin to a smaller one of its class, or the pin is the least one. -/
theorem interFind_cases (uf1 uf2 : Uf) (n : Nat) :
    (∃ m < n, interFind uf1.indexed uf2.indexed n = some m ∧ n < uf1.bound ∧
      classOf uf1 uf2 m = classOf uf1 uf2 n) ∨
    interFind uf1.indexed uf2.indexed n = none ∧
      ∀ k, classOf uf1 uf2 k = classOf uf1 uf2 n → n ≤ k := by
  cases h1 : uf1.indexed.find n with
  | none =>
    refine .inr ⟨by rw [interFind, h1], fun k hk => ?_⟩
    have hn := getIndex_of_none uf1 (n := n) (by simpa [Uf.indexed] using h1)
    rw [← hn, ← (Prod.mk.inj hk).1]
    exact getIndex_le uf1 k
  | some a =>
    cases h2 : uf2.indexed.find n with
    | none =>
      refine .inr ⟨by rw [interFind, h1, h2], fun k hk => ?_⟩
      have hn := getIndex_of_none uf2 (n := n) (by simpa [Uf.indexed] using h2)
      rw [← hn, ← (Prod.mk.inj hk).2]
      exact getIndex_le uf2 k
    | some b =>
      have hlt1 := uf1.indexed.smaller h1
      have hlt2 := uf2.indexed.smaller h2
      have hbound := uf1.indexed.finite h1
      have hra := getIndex_getIndex uf1 n
      have hrb := getIndex_getIndex uf2 n
      have hclass : classOf uf1 uf2 n = (a, b) := Prod.ext (indexed_find h1) (indexed_find h2)
      rw [indexed_find h1] at hra
      rw [indexed_find h2] at hrb
      simp only [interFind, h1, h2, hclass]
      by_cases hab : a = b
      · subst hab
        exact .inl ⟨a, hlt1, if_pos rfl, hbound, Prod.ext hra hrb⟩
      rw [if_neg hab]
      cases ht : interTable uf1.indexed uf2.indexed a b with
      | some m =>
        have hm := hard_of_interTable ht
        obtain ⟨k, hk, hkt⟩ := Hard.interTable ⟨h1, h2, hm.2.2⟩
        cases ht.symm.trans hkt
        by_cases hmn : m = n
        · exact .inr ⟨if_pos hmn, fun k => hmn ▸ le_of_hard hm ht⟩
        · exact .inl ⟨m, by omega, if_neg hmn, hbound,
            Prod.ext (indexed_find hm.1) (indexed_find hm.2.1)⟩
      | none =>
        refine .inl ⟨max a b, by omega, rfl, hbound, ?_⟩
        have heasy : easy uf1.indexed uf2.indexed a b = true := by
          by_contra he
          obtain ⟨k, -, hk⟩ := Hard.interTable ⟨h1, h2, fun h => h.elim hab he⟩
          cases ht.symm.trans hk
        simp only [easy, getIndex_indexed] at heasy
        split at heasy
        next hlt =>
          rw [max_eq_right hlt.le]
          exact Prod.ext (of_decide_eq_true heasy) hrb
        next hge =>
          rw [max_eq_left (by omega)]
          exact Prod.ext hra (of_decide_eq_true heasy)

def ufInter (uf1 uf2 : Uf) : Uf where
  find := interFind uf1.indexed uf2.indexed
  bound := uf1.bound
  finite {n m} h := by
    obtain ⟨_, _, _, hbound, _⟩ | ⟨hnone, -⟩ := interFind_cases uf1 uf2 n
    · exact hbound
    · cases h.symm.trans hnone
  smaller {n m} h := by
    obtain ⟨k, hk, hsome, _⟩ | ⟨hnone, -⟩ := interFind_cases uf1 uf2 n
    · cases h.symm.trans hsome
      exact hk
    · cases h.symm.trans hnone

def ufBranches : List Uf → Option Uf
  | [] => none
  | uf1 :: l => some (match ufBranches l with
    | none => uf1
    | some u => ufInter uf1 u)

end Typeinv
end Why3
