import Mathlib

/-!
Tables that may have several bindings for one key. The latest binding of a key hides
the earlier ones, and removing it brings back the one before. An iteration visits the
bindings in some order that keeps, for each key, the latest first.
-/
namespace MultiTable

variable {κ ν : Type} [DecidableEq κ] (t : List (κ × ν))

def add (k : κ) (v : ν) : List (κ × ν) := (k, v) :: t

def find (k : κ) : Option ν := t.lookup k

def remove (k : κ) : List (κ × ν) := t.eraseP fun b => b.1 = k

/-- The values of a key, the latest first. -/
def bindings (k : κ) : List ν := (t.filter fun b => b.1 = k).map Prod.snd

/-- An order in which iterations visit the bindings. -/
structure IterOrder (κ ν : Type) [DecidableEq κ] where
  visit : List (κ × ν) → List (κ × ν)
  bindings_visit : ∀ t k, bindings (visit t) k = bindings t k

theorem bindings_cons (b : κ × ν) (t : List (κ × ν)) (k : κ) :
    bindings (b :: t) k = if b.1 = k then b.2 :: bindings t k else bindings t k := by
  by_cases h : b.1 = k
  · simp [bindings, h]
  · simp [bindings, h]

theorem find_eq_head? (k : κ) : find t k = (bindings t k).head? := by
  induction t with
  | nil => rfl
  | cons b t ih =>
    obtain ⟨j, v⟩ := b
    rw [find] at ih ⊢
    by_cases h : j = k
    · rw [List.lookup_cons, beq_iff_eq.mpr h.symm, bindings_cons, if_pos h, List.head?_cons]
    · rw [List.lookup_cons, beq_eq_false_iff_ne.mpr (Ne.symm h), bindings_cons, if_neg h]
      exact ih

theorem bindings_remove (k j : κ) :
    bindings (remove t k) j = if j = k then (bindings t k).tail else bindings t j := by
  induction t with
  | nil => simp [remove, bindings]
  | cons b t ih =>
    by_cases h : b.1 = k
    · have hrem : remove (b :: t) k = t := by simp [remove, h]
      rw [hrem, bindings_cons, bindings_cons, if_pos h, List.tail_cons]
      by_cases hj : j = k
      · rw [if_pos hj, hj]
      · rw [if_neg hj, if_neg fun hb => hj (hb.symm.trans h)]
    · have hrem : remove (b :: t) k = b :: remove t k := by simp [remove, h]
      rw [hrem, bindings_cons, ih, bindings_cons, bindings_cons, if_neg h]
      by_cases hj : j = k
      · rw [if_pos hj, if_pos hj, hj, if_neg h]
      · rw [if_neg hj, if_neg hj]

theorem find_remove_of_ne {k j : κ} (h : j ≠ k) :
    find (remove t k) j = find t j := by
  rw [find_eq_head?, find_eq_head?, bindings_remove, if_neg h]

/-- A removal takes out the binding that was found. -/
theorem perm_remove {t : List (κ × ν)} {k : κ} {v : ν} (h : find t k = some v) :
    t.Perm ((k, v) :: remove t k) := by
  induction t with
  | nil => cases h
  | cons b t ih =>
    obtain ⟨j, w⟩ := b
    rw [find, List.lookup_cons] at h
    by_cases hj : j = k
    · subst hj
      rw [beq_self_eq_true] at h
      cases h
      rw [remove, List.eraseP_cons_of_pos (by simp)]
    · rw [beq_eq_false_iff_ne.mpr (Ne.symm hj)] at h
      have hrem : remove ((j, w) :: t) k = (j, w) :: remove t k := by simp [remove, hj]
      rw [hrem]
      exact ((ih h).cons (j, w)).trans (List.Perm.swap (k, v) (j, w) _)

theorem count_bindings [DecidableEq ν] (t : List (κ × ν)) (k : κ) (v : ν) :
    (bindings t k).count v = t.count (k, v) := by
  induction t with
  | nil => rfl
  | cons b t ih =>
    obtain ⟨j, w⟩ := b
    rw [bindings_cons, List.count_cons]
    by_cases hj : j = k
    · subst hj
      rw [if_pos rfl, List.count_cons, ih]
      simp
    · rw [if_neg hj, ih]
      simp [hj]

/-- An iteration visits every binding once. -/
theorem IterOrder.visit_perm (o : IterOrder κ ν) (t : List (κ × ν)) : (o.visit t).Perm t := by
  classical
  rw [List.perm_iff_count]
  intro b
  rw [← count_bindings, ← count_bindings, o.bindings_visit]

end MultiTable
