import Mathlib

/-!
Nodes of a graph from which a reset node is reached without going through a
covered one.

Two pairs of resets and covers are joined by taking the resets of both and the
covers of each that are not stale for the other. When no pair covers its own
resets, a node is stale for the join when it is stale for one of the two.
-/
namespace Stale

variable {α : Type}

/-- From `x` a node of `resets` is reached along nodes that are not in `covers`. -/
inductive StaleFrom (edge : α → α → Prop) (resets covers : Set α) : α → Prop
  | here {x : α} : x ∉ covers → x ∈ resets → StaleFrom edge resets covers x
  | step {x y : α} : x ∉ covers → edge x y → StaleFrom edge resets covers y →
      StaleFrom edge resets covers x

variable {edge : α → α → Prop} {r₁ c₁ r₂ c₂ : Set α}

variable {covers : Set α} {x : α}

theorem StaleFrom.not_covered {resets : Set α}
    (h : StaleFrom edge resets covers x) : x ∉ covers := by
  cases h with
  | here hx _ | step hx _ _ => exact hx

theorem staleFrom_iff {resets : Set α} : StaleFrom edge resets covers x ↔
      x ∉ covers ∧ (x ∈ resets ∨ ∃ y, edge x y ∧ StaleFrom edge resets covers y) := by
  constructor
  · intro h
    cases h with
    | here hx hr => exact ⟨hx, .inl hr⟩
    | step hx he hy => exact ⟨hx, .inr ⟨_, he, hy⟩⟩
  · rintro ⟨hx, hr | ⟨y, he, hy⟩⟩
    · exact .here hx hr
    · exact .step hx he hy

theorem not_staleFrom_of_empty : ¬ StaleFrom edge ∅ covers x := by
  intro h
  induction h with
  | here _ hr => exact hr
  | step _ _ _ ih => exact ih

/-- The covers of two pairs that are not stale for the other pair. -/
def joinCovers (edge : α → α → Prop) (r₁ c₁ r₂ c₂ : Set α) : Set α :=
  {x | x ∈ c₁ ∧ ¬ StaleFrom edge r₂ c₂ x} ∪ {x | x ∈ c₂ ∧ ¬ StaleFrom edge r₁ c₁ x}

theorem joinCovers_comm : joinCovers edge r₁ c₁ r₂ c₂ = joinCovers edge r₂ c₂ r₁ c₁ :=
  Set.union_comm _ _

/-- A path for one pair is not cut by the covers that the join keeps: its nodes are
stale, so neither pair covers them in the join. -/
theorem StaleFrom.join_left (h : StaleFrom edge r₁ c₁ x) :
    StaleFrom edge (r₁ ∪ r₂) (joinCovers edge r₁ c₁ r₂ c₂) x := by
  have hfree : ∀ y, StaleFrom edge r₁ c₁ y → y ∉ joinCovers edge r₁ c₁ r₂ c₂ := by
    rintro y hy (⟨hc, -⟩ | ⟨-, hns⟩)
    · exact hy.not_covered hc
    · exact hns hy
  induction h with
  | here hx hr => exact .here (hfree _ (.here hx hr)) (.inl hr)
  | step hx he hy ih => exact .step (hfree _ (.step hx he hy)) he ih

theorem StaleFrom.join_right (h : StaleFrom edge r₂ c₂ x) :
    StaleFrom edge (r₁ ∪ r₂) (joinCovers edge r₁ c₁ r₂ c₂) x := by
  rw [Set.union_comm, joinCovers_comm]
  exact h.join_left

/-- A covered node that the join does not cover is stale for the other pair. -/
theorem stale_of_dropped (hc : x ∈ c₁) (hx : x ∉ joinCovers edge r₁ c₁ r₂ c₂) :
    StaleFrom edge r₂ c₂ x := by
  by_contra hns
  exact hx (.inl ⟨hc, hns⟩)

section

variable (h1 : Disjoint c₁ r₁) (h2 : Disjoint c₂ r₂)
include h1 h2

theorem StaleFrom.of_join (h : StaleFrom edge (r₁ ∪ r₂) (joinCovers edge r₁ c₁ r₂ c₂) x) :
    StaleFrom edge r₁ c₁ x ∨ StaleFrom edge r₂ c₂ x := by
  induction h with
  | here hx hr =>
    cases hr with
    | inl hr => exact .inl (.here (fun hc => Set.disjoint_left.mp h1 hc hr) hr)
    | inr hr => exact .inr (.here (fun hc => Set.disjoint_left.mp h2 hc hr) hr)
  | @step x y hx he _ ih =>
    cases ih with
    | inl hy =>
      by_cases hc : x ∈ c₁
      · exact .inr (stale_of_dropped hc hx)
      · exact .inl (.step hc he hy)
    | inr hy =>
      by_cases hc : x ∈ c₂
      · exact .inl (stale_of_dropped hc (joinCovers_comm ▸ hx))
      · exact .inr (.step hc he hy)

theorem staleFrom_join_iff : StaleFrom edge (r₁ ∪ r₂) (joinCovers edge r₁ c₁ r₂ c₂) x ↔
      StaleFrom edge r₁ c₁ x ∨ StaleFrom edge r₂ c₂ x := by
  constructor
  · exact StaleFrom.of_join h1 h2
  · rintro (h | h)
    · exact h.join_left
    · exact h.join_right

theorem disjoint_joinCovers : Disjoint (joinCovers edge r₁ c₁ r₂ c₂) (r₁ ∪ r₂) := by
  have hleft {r c r' c' : Set α} (h : Disjoint c r) (h' : Disjoint c' r') {x : α} (hc : x ∈ c)
      (hns : ¬ StaleFrom edge r' c' x) : x ∉ r ∪ r' := by
    rintro (hr | hr)
    · exact Set.disjoint_left.mp h hc hr
    · exact hns (.here (fun hc' => Set.disjoint_left.mp h' hc' hr) hr)
  rw [Set.disjoint_left]
  rintro x (⟨hc, hns⟩ | ⟨hc, hns⟩)
  · exact hleft h1 h2 hc hns
  · exact Set.union_comm r₂ r₁ ▸ hleft h2 h1 hc hns

end

end Stale
