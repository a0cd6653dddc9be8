import Why3.Library.AssocList

/-!
Finite maps as association lists: operations that combine two maps by their keys.

A map is well formed when no key is bound twice; all operations keep that.
-/

namespace KeyMap

open List

variable {κ α β : Type} [DecidableEq κ] (m : List (κ × α))

abbrev Distinct : Prop := (m.map Prod.fst).Nodup

def mem (k : κ) : Bool := (m.lookup k).isSome

def remove (k : κ) (m : List (κ × α)) : List (κ × α) := m.filter fun x => x.1 ≠ k

def add (k : κ) (x : α) (m : List (κ × α)) : List (κ × α) := (k, x) :: remove k m

def mapVals (f : α → β) (m : List (κ × α)) : List (κ × β) := m.map fun x => (x.1, f x.2)

variable (n : List (κ × β))

/-- The bindings of `m` whose key is bound in `n`. -/
def setInter : List (κ × α) := m.filter fun x => mem n x.1

def setDiff : List (κ × α) := m.filter fun x => !mem n x.1

/-- The bindings of both, those of `m` for the keys of both. -/
def setUnion (m n : List (κ × α)) : List (κ × α) := m ++ setDiff n m

def setDisjoint : Bool := m.all fun x => !mem n x.1

def unionWith (f : α → α → α) (m n : List (κ × α)) : List (κ × α) :=
  (m.map fun x => (x.1, match n.lookup x.1 with
    | some y => f x.2 y
    | none => x.2)) ++ setDiff n m

/-- What a key of two maps is bound to in their union. -/
def combine (f : α → α → α) : Option α → Option α → Option α
  | some x, some y => some (f x y)
  | some x, none => some x
  | none, y => y

/-! What a key finds. -/

theorem lookup_filter (p : κ → Bool) (m : List (κ × α)) (k : κ) :
    (m.filter fun x => p x.1).lookup k = if p k then m.lookup k else none := by
  induction m with
  | nil => simp
  | cons x m ih =>
    obtain ⟨key, val⟩ := x
    rw [filter_cons]
    by_cases hk : k = key
    · subst hk
      cases hp : p k with
      | true => simp
      | false => simp [ih, hp]
    · have hne : (k == key) = false := beq_eq_false_iff_ne.mpr hk
      cases hp : p key with
      | true | false => simp [lookup_cons, hne, ih]

theorem lookup_mapVals (f : α → β) (m : List (κ × α)) (k : κ) :
    (mapVals f m).lookup k = (m.lookup k).map f := by
  induction m with
  | nil => rfl
  | cons x m ih =>
    rw [mapVals, map_cons, lookup_cons, lookup_cons]
    cases k == x.1 with
    | true => rfl
    | false => exact ih

theorem lookup_remove (k : κ) (m : List (κ × α)) (k' : κ) :
    (remove k m).lookup k' = if k' = k then none else m.lookup k' := by
  rw [remove, lookup_filter (fun x => decide (x ≠ k))]
  by_cases h : k' = k
  · simp [h]
  · simp [h]

theorem lookup_add (k : κ) (x : α) (m : List (κ × α)) (k' : κ) :
    (add k x m).lookup k' = if k' = k then some x else m.lookup k' := by
  rw [add, lookup_cons, lookup_remove]
  by_cases h : k' = k
  · simp [h]
  · simp [h, beq_eq_false_iff_ne.mpr h]

theorem lookup_setInter (k : κ) :
    (setInter m n).lookup k = if mem n k then m.lookup k else none :=
  lookup_filter (mem n) m k

theorem lookup_setDiff (k : κ) :
    (setDiff m n).lookup k = if mem n k then none else m.lookup k := by
  rw [setDiff, lookup_filter fun x => !mem n x]
  cases mem n k with
  | true => rfl
  | false => rfl

theorem lookup_setUnion (m n : List (κ × α)) (k : κ) :
    (setUnion m n).lookup k = (m.lookup k).or (n.lookup k) := by
  rw [setUnion, List.lookup_append, lookup_setDiff, mem]
  cases m.lookup k with
  | some x => rfl
  | none => rfl

theorem lookup_unionWith (f : α → α → α) (m n : List (κ × α)) (k : κ) :
    (unionWith f m n).lookup k = combine f (m.lookup k) (n.lookup k) := by
  rw [unionWith, List.lookup_append, lookup_setDiff, mem]
  have hmap : (m.map fun x => (x.1, match n.lookup x.1 with
      | some y => f x.2 y
      | none => x.2)).lookup k = (m.lookup k).map fun x => match n.lookup k with
      | some y => f x y
      | none => x := by
    induction m with
    | nil => rfl
    | cons x m ih =>
      rw [map_cons, lookup_cons, lookup_cons]
      cases h : k == x.1 with
      | true =>
        rw [eq_of_beq h]
        rfl
      | false => exact ih
  rw [hmap]
  cases m.lookup k with
  | none => rfl
  | some x =>
    cases n.lookup k with
    | none => rfl
    | some y => rfl

variable {m : List (κ × α)}

theorem mem_iff {k : κ} : mem m k = true ↔ k ∈ m.map Prod.fst :=
  AssocList.lookup_isSome_iff

theorem setDisjoint_iff {n : List (κ × β)} :
    setDisjoint m n = true ↔ ∀ k, mem m k = true → n.lookup k = none := by
  rw [setDisjoint, all_eq_true]
  constructor
  · intro h k hk
    obtain ⟨x, hx, rfl⟩ := mem_map.mp (mem_iff.mp hk)
    have hn := h x hx
    rw [mem] at hn
    cases hl : n.lookup x.1 with
    | none => rfl
    | some y =>
      rw [hl] at hn
      cases hn
  · intro h x hx
    have hn := h x.1 (mem_iff.mpr (mem_map.mpr ⟨x, hx, rfl⟩))
    rw [mem, hn]
    rfl

/-! Distinct keys. -/

omit [DecidableEq κ] in
theorem Distinct.filter (h : Distinct m) (p : κ × α → Bool) : Distinct (m.filter p) :=
  Nodup.sublist (filter_sublist.map Prod.fst) h

omit [DecidableEq κ] in
theorem distinct_mapVals {f : α → β} : Distinct (mapVals f m) ↔ Distinct m := by
  rw [Distinct, mapVals, map_map]
  rfl

theorem Distinct.add (h : Distinct m) (k : κ) (x : α) : Distinct (KeyMap.add k x m) := by
  rw [Distinct, KeyMap.add, map_cons, nodup_cons]
  refine ⟨?_, h.filter _⟩
  rw [mem_map]
  rintro ⟨y, hy, rfl⟩
  exact of_decide_eq_true (mem_filter.mp hy).2 rfl

theorem Distinct.setUnion {n : List (κ × α)} (hm : Distinct m) (hn : Distinct n) :
    Distinct (KeyMap.setUnion m n) := by
  rw [Distinct, KeyMap.setUnion, map_append, nodup_append]
  refine ⟨hm, hn.filter _, ?_⟩
  rintro k hk k' hk' rfl
  obtain ⟨x, hx, rfl⟩ := mem_map.mp hk'
  have hnot := (mem_filter.mp hx).2
  rw [mem_iff.mpr hk] at hnot
  cases hnot

theorem Distinct.unionWith {n : List (κ × α)} (hm : Distinct m) (hn : Distinct n)
    (f : α → α → α) : Distinct (KeyMap.unionWith f m n) := by
  have hkeys : (KeyMap.unionWith f m n).map Prod.fst = (KeyMap.setUnion m n).map Prod.fst := by
    rw [KeyMap.unionWith, KeyMap.setUnion, map_append, map_append, map_map]
    rfl
  rw [Distinct, hkeys]
  exact hm.setUnion hn

/-! Replacing the keys in a list. -/

theorem sum_lookup (hm : Distinct m) (c : α → Nat) (k : κ) :
    (m.map fun x => if k = x.1 then c x.2 else 0).sum = ((m.lookup k).map c).getD 0 := by
  induction m with
  | nil => rfl
  | cons x m ih =>
    obtain ⟨key, val⟩ := x
    rw [Distinct, map_cons, nodup_cons] at hm
    rw [map_cons, sum_cons, ih hm.2]
    by_cases hk : k = key
    · subst hk
      have hnone : m.lookup k = none := by
        cases h : m.lookup k with
        | none => rfl
        | some y => exact absurd (mem_iff.mp (by rw [mem, h]; rfl)) hm.1
      simp [hnone]
    · simp [hk, lookup_cons, beq_eq_false_iff_ne.mpr hk]

/-- The elements that each key of a list is replaced with, as many times as it occurs. -/
def copies (l : List κ) (f : α → List κ) (m : List (κ × α)) : List κ :=
  m.flatMap fun x => (replicate (l.count x.1) (f x.2)).flatten

theorem count_copies (l : List κ) (f : α → List κ) (m : List (κ × α)) (k : κ) :
    (copies l f m).count k = (m.map fun x => l.count x.1 * (f x.2).count k).sum := by
  induction m with
  | nil => rfl
  | cons x m ih =>
    rw [copies, flatMap_cons, count_append, map_cons,
      count_flatten, map_replicate, sum_replicate_nat]
    congr 1

/-- Replacing the keys of a map by lists, up to the order. -/
theorem perm_flatMap_lookup (hm : Distinct m) (f : α → List κ) (l : List κ) :
    (l.filter (fun k => !mem m k) ++ copies l f m).Perm (l.flatMap fun k => match m.lookup k with
        | some x => f x
        | none => [k]) := by
  rw [perm_iff_count]
  intro k
  rw [count_append, count_copies]
  induction l with
  | nil => simp
  | cons a l ih =>
    have hsum : (m.map fun x => (a :: l).count x.1 * (f x.2).count k).sum =
        (m.map fun x => l.count x.1 * (f x.2).count k).sum +
          ((m.lookup a).map fun x => (f x).count k).getD 0 := by
      rw [← sum_lookup hm (fun x => (f x).count k) a, ← sum_map_add]
      congr 1
      refine map_congr_left fun x _ => ?_
      by_cases hx : a = x.1
      · simp [hx, Nat.add_mul]
      · simp [hx]
    rw [hsum, flatMap_cons, count_append]
    cases hl : m.lookup a with
    | none =>
      have hmem : mem m a = false := by rw [mem, hl]; rfl
      simp [hmem, count_cons]
      omega
    | some x =>
      have hmem : mem m a = true := by rw [mem, hl]; rfl
      simp [hmem]
      omega

end KeyMap
