import Why3.Library.AssocList

/-!
Finite maps whose bindings are kept in the order of a numeric tag of the keys,
so that a fold visits every key once and in increasing order.
-/

/-- Bindings in increasing order of the tag, at most one for each key. -/
structure TagMap {α : Type} (tag : α → Nat) (β : Type) where
  bindings : List (α × β)
  sorted : bindings.Pairwise fun x y => tag x.1 ≤ tag y.1
  nodup : (bindings.map (·.1)).Nodup

namespace TagMap

open List

variable {α β : Type} [DecidableEq α] {tag : α → Nat}

def empty : TagMap tag β := ⟨[], .nil, .nil⟩

def find? (m : TagMap tag β) (k : α) : Option β := m.bindings.lookup k

def mem (m : TagMap tag β) (k : α) : Bool := (m.find? k).isSome

def addList (tag : α → Nat) (k : α) (v : β) : List (α × β) → List (α × β)
  | [] => [(k, v)]
  | x :: l =>
    if k = x.1 then (k, v) :: l
    else if tag k < tag x.1 then (k, v) :: x :: l
    else x :: addList tag k v l

variable {k : α} {l : List (α × β)}

theorem mem_addList {v : β} {y : α × β} (h : y ∈ addList tag k v l) : y = (k, v) ∨ y ∈ l := by
  induction l with
  | nil => exact .inl (mem_singleton.mp h)
  | cons x l ih =>
    unfold addList at h
    split at h
    · cases mem_cons.mp h with
      | inl h => exact .inl h
      | inr h => exact .inr (mem_cons_of_mem _ h)
    · split at h
      · exact mem_cons.mp h
      · cases mem_cons.mp h with
        | inl h => exact .inr (h ▸ mem_cons_self)
        | inr h =>
          cases ih h with
          | inl h => exact .inl h
          | inr h => exact .inr (mem_cons_of_mem _ h)

theorem sorted_addList (k : α) (v : β) (h : l.Pairwise fun x y => tag x.1 ≤ tag y.1) :
    (addList tag k v l).Pairwise fun x y => tag x.1 ≤ tag y.1 := by
  induction l with
  | nil => simp [addList]
  | cons x l ih =>
    obtain ⟨hx, hl⟩ := pairwise_cons.mp h
    unfold addList
    split
    next hk =>
      subst hk
      exact pairwise_cons.mpr ⟨hx, hl⟩
    next hk =>
      split
      next hlt =>
        refine pairwise_cons.mpr ⟨?_, h⟩
        exact forall_mem_cons.mpr
          ⟨Nat.le_of_lt hlt, fun y hy => Nat.le_trans (Nat.le_of_lt hlt) (hx y hy)⟩
      next hle =>
        refine pairwise_cons.mpr ⟨?_, ih hl⟩
        intro y hy
        cases mem_addList hy with
        | inl hy => exact hy ▸ Nat.le_of_not_lt hle
        | inr hy => exact hx y hy

theorem nodup_addList (k : α) (v : β) (hs : l.Pairwise fun x y => tag x.1 ≤ tag y.1)
    (h : (l.map (·.1)).Nodup) : ((addList tag k v l).map (·.1)).Nodup := by
  induction l with
  | nil => simp [addList]
  | cons x l ih =>
    obtain ⟨hx, hl⟩ := pairwise_cons.mp hs
    obtain ⟨hnx, hnl⟩ := nodup_cons.mp h
    unfold addList
    split
    next hk =>
      subst hk
      exact nodup_cons.mpr ⟨hnx, hnl⟩
    next hk =>
      split
      next hlt =>
        refine nodup_cons.mpr ⟨?_, h⟩
        -- every key from here on has a tag above that of the new one
        intro hmem
        obtain ⟨y, hy, rfl⟩ : ∃ y ∈ x :: l, y.1 = k := mem_map.mp hmem
        cases mem_cons.mp hy with
        | inl hy => exact hk (congrArg _ hy)
        | inr hy => exact absurd hlt (Nat.not_lt.mpr (hx y hy))
      next hle =>
        refine nodup_cons.mpr ⟨?_, ih hl hnl⟩
        intro hmem
        obtain ⟨y, hy, hyx⟩ : ∃ y ∈ addList tag k v l, y.1 = x.1 := mem_map.mp hmem
        cases mem_addList hy with
        | inl hy => exact hk ((congrArg _ hy).symm.trans hyx)
        | inr hy => exact hnx (mem_map.mpr ⟨y, hy, hyx⟩)

def add (k : α) (v : β) (m : TagMap tag β) : TagMap tag β where
  bindings := addList tag k v m.bindings
  sorted := sorted_addList k v m.sorted
  nodup := nodup_addList k v m.sorted m.nodup

@[simp] theorem find?_add (k k' : α) (v : β) (m : TagMap tag β) :
    (m.add k v).find? k' = if k' = k then some v else m.find? k' := by
  change (addList tag k v m.bindings).lookup k' = _
  unfold find?
  have lookup_new (l : List (α × β)) :
      ((k, v) :: l).lookup k' = if k' = k then some v else l.lookup k' := by
    rw [lookup_cons]
    by_cases h : k' = k
    · simp [h]
    · rw [if_neg h, beq_eq_false_iff_ne.mpr h]
  induction m.bindings with
  | nil => exact lookup_new []
  | cons x l ih =>
    unfold addList
    split
    next hk =>
      rw [lookup_new]
      by_cases h : k' = k
      · rw [if_pos h, if_pos h]
      · rw [if_neg h, if_neg h, lookup_cons, beq_eq_false_iff_ne.mpr (hk ▸ h)]
    next hk =>
      split
      next hlt => exact lookup_new _
      next hle =>
        rw [lookup_cons, lookup_cons, ih]
        by_cases hx : k' = x.1
        · have hne : k' ≠ k := fun h => hk (h.symm.trans hx)
          simp [hx, hx ▸ hne]
        · rw [beq_eq_false_iff_ne.mpr hx]

theorem mem_iff {m : TagMap tag β} : m.mem k = true ↔ ∃ v, m.find? k = some v :=
  Option.isSome_iff_exists

theorem mem_bindings {m : TagMap tag β} {v : β} : (k, v) ∈ m.bindings ↔ m.find? k = some v :=
  ⟨AssocList.lookup_of_mem m.nodup, AssocList.mem_of_lookup⟩

end TagMap
