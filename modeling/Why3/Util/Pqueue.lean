import Mathlib

/-!
Priority queues: a binary heap in a vector.

An insertion moves the parents of the free place down until the new element is not
below its parent; an extraction takes the element at the root and moves the last one
down from there. Both keep the elements, in some order.
-/
namespace Pqueue

open List

variable {α : Type} (cmp : α → α → Ordering)

/-- The last place that has children. -/
def lastParent (n : Nat) : Int := if n = 1 then -1 else Int.tdiv (n - 2) 2

theorem le_lastParent {n i : Nat} (h : (i : Int) ≤ lastParent n) : 2 * i + 1 < n := by
  rw [lastParent] at h
  split at h
  · omega
  · by_cases hn : n = 0
    · subst hn
      simp at h
      omega
    · rw [Int.tdiv_eq_ediv_of_nonneg (by omega)] at h
      omega

/-- The child of a place that comes first. -/
def leastChild (a : List α) (i : Nat) (x : α) : Nat :=
  let j := 2 * i + 1
  if j + 1 < a.length ∧ cmp (a.getD (j + 1) x) (a.getD j x) = .lt then j + 1 else j

theorem leastChild_spec (a : List α) (i : Nat) (x : α) (h : 2 * i + 1 < a.length) :
    i < leastChild cmp a i x ∧ leastChild cmp a i x < a.length := by
  rw [leastChild]
  split <;> omega

def moveDown (a : List α) (i : Nat) (x : α) : List α :=
  if _h : (i : Int) ≤ lastParent a.length then
    let j := leastChild cmp a i x
    let o := a.getD j x
    if cmp o x = .lt then moveDown (a.set i o) j x else a.set i x
  else a.set i x
termination_by a.length - i
decreasing_by
  have := leastChild_spec cmp a i x (le_lastParent _h)
  simp only [length_set]
  omega

def moveUp (a : List α) (i : Nat) (x : α) : List α :=
  if _h : i = 0 then a.set i x
  else
    let j := (i - 1) / 2
    let y := a.getD j x
    if cmp y x = .gt then moveUp (a.set i y) j x else a.set i x
termination_by i
decreasing_by omega

/-- The least element and the others; nothing if there is none. -/
def extractMin (h : List α) : Option (α × List α) :=
  match h.getLast? with
  | none => none
  | some x =>
    match h.dropLast with
    | [] => some (x, [])
    | y :: a => some (y, moveDown cmp (y :: a) 0 x)

def insert (x : α) (h : List α) : List α :=
  if h.length = 0 then h ++ [x]
  else
    let j := (h.length - 1) / 2
    let y := h.getD j x
    if cmp y x = .gt then moveUp cmp (h ++ [y]) j x else h ++ [x]

/-- An element moves to another place and leaves its own to the new one. -/
theorem set_getD_set_perm {a : List α} {i j : Nat} (x : α) (hi : i < a.length)
    (hj : j < a.length) (hij : i ≠ j) : ((a.set i (a.getD j x)).set j x).Perm (a.set i x) := by
  have hi' : i < (a.set i x).length := by simpa using hi
  have hj' : j < (a.set i x).length := by simpa using hj
  have hperm := set_set_perm hi' hj'
  rw [getElem_set_ne hij, getElem_set_self, set_set] at hperm
  rw [List.getD_eq_getElem?_getD, List.getElem?_eq_getElem hj]
  exact hperm

theorem moveDown_perm (a : List α) (i : Nat) (x : α) (hi : i < a.length) :
    (moveDown cmp a i x).Perm (a.set i x) := by
  fun_induction moveDown cmp a i x with
  | case1 a i h j o hlt ih =>
    have hspec : i < j ∧ j < a.length := leastChild_spec cmp a i x (le_lastParent h)
    refine (ih ?_).trans (set_getD_set_perm x hi hspec.2 (by omega))
    rw [length_set]
    exact hspec.2
  | case2 a i h j o hlt | case3 a i h => exact .refl _

theorem moveUp_perm (a : List α) (i : Nat) (x : α) (hi : i < a.length) :
    (moveUp cmp a i x).Perm (a.set i x) := by
  fun_induction moveUp cmp a i x with
  | case1 a | case3 a i h j y hgt => exact .refl _
  | case2 a i h j y hgt ih =>
    refine (ih ?_).trans (set_getD_set_perm x hi (by omega) (by omega))
    rw [length_set]
    omega

theorem insert_perm (x : α) (h : List α) : (insert cmp x h).Perm (x :: h) := by
  have hpush : (h ++ [x]).Perm (x :: h) := perm_append_singleton x h
  rw [insert]
  split
  · exact hpush
  · dsimp only
    split
    · have hj : (h.length - 1) / 2 < h.length := by omega
      have hlen : (h.length - 1) / 2 < (h ++ [x]).length := by simp; omega
      have hset : ∀ y, (h ++ [x]).set h.length y = h ++ [y] := fun y => by simp
      -- the parent fills the new place and leaves its own to `x`
      have hperm := set_getD_set_perm x (by simp : h.length < (h ++ [x]).length) hlen (by omega)
      rw [hset, hset, List.getD_eq_getElem?_getD, List.getElem?_append_left hj] at hperm
      exact (moveUp_perm cmp _ _ x (by simpa using hlen)).trans (hperm.trans hpush)
    · exact hpush

theorem extractMin_none {h : List α} : extractMin cmp h = none ↔ h = [] := by
  rw [extractMin]
  cases hl : h.getLast? with
  | none => simpa using hl
  | some x =>
    have hne : h ≠ [] := by
      rintro rfl
      cases hl
    simp only [hne]
    split <;> simp

theorem extractMin_perm {h h' : List α} {m : α} (he : extractMin cmp h = some (m, h')) :
    h.Perm (m :: h') := by
  rw [extractMin] at he
  cases hl : h.getLast? with
  | none =>
    rw [hl] at he
    cases he
  | some x =>
    have happ := dropLast_append_getLast? x hl
    rw [hl] at he
    cases hd : h.dropLast with
    | nil =>
      simp only [hd] at he
      obtain ⟨rfl, rfl⟩ := he
      rw [← happ, hd]
      exact .refl _
    | cons y a =>
      simp only [hd, Option.some.injEq, Prod.mk.injEq] at he
      obtain ⟨rfl, rfl⟩ := he
      rw [← happ, hd]
      refine (perm_append_singleton x (y :: a)).trans ((Perm.swap y x a).trans ?_)
      exact (moveDown_perm cmp (y :: a) 0 x (by simp)).symm.cons y

end Pqueue
