import Mathlib

/-!
Finite maps to finite sets. A key may be bound to the empty set, so the domain
is kept beside the pairs of keys and elements.
-/

structure SetMap (κ α : Type) where
  domain : Finset κ
  entries : Finset (κ × α)
  entries_domain : ∀ x ∈ entries, x.1 ∈ domain
deriving DecidableEq

namespace SetMap

variable {κ α : Type}

@[ext]
theorem ext {m n : SetMap κ α} (hdomain : m.domain = n.domain) (hentries : m.entries = n.entries) :
    m = n := by
  cases n
  cases hdomain
  cases hentries
  rfl

def empty : SetMap κ α := ⟨∅, ∅, by simp⟩

variable [DecidableEq κ] [DecidableEq α]

def find (m : SetMap κ α) (k : κ) : Finset α := (m.entries.filter fun x => x.1 = k).image (·.2)

def ofList (l : List (κ × List α)) : SetMap κ α where
  domain := (l.map (·.1)).toFinset
  entries := (l.flatMap fun x => x.2.map fun a => (x.1, a)).toFinset
  entries_domain := by
    intro x hx
    simp only [List.mem_toFinset, List.mem_flatMap, List.mem_map] at hx ⊢
    obtain ⟨y, hy, a, -, rfl⟩ := hx
    exact ⟨y, hy, rfl⟩

def union (m n : SetMap κ α) : SetMap κ α where
  domain := m.domain ∪ n.domain
  entries := m.entries ∪ n.entries
  entries_domain := Finset.forall_mem_union.mpr
    ⟨fun x hx => Finset.mem_union_left _ (m.entries_domain x hx),
      fun x hx => Finset.mem_union_right _ (n.entries_domain x hx)⟩

def restrict (m : SetMap κ α) (p : κ → Prop) [DecidablePred p] : SetMap κ α where
  domain := m.domain.filter p
  entries := m.entries.filter fun x => p x.1
  entries_domain := by
    intro x hx
    obtain ⟨hx, hp⟩ := Finset.mem_filter.mp hx
    exact Finset.mem_filter.mpr ⟨m.entries_domain x hx, hp⟩

theorem union_comm (m n : SetMap κ α) : m.union n = n.union m :=
  SetMap.ext (Finset.union_comm _ _) (Finset.union_comm _ _)

theorem union_assoc (m n o : SetMap κ α) : (m.union n).union o = m.union (n.union o) :=
  SetMap.ext (Finset.union_assoc _ _ _) (Finset.union_assoc _ _ _)

end SetMap
