import Mathlib

/-!
A list kept in an array with a key for each element. An element is found by its
key with a scan from the start and removed by moving the last element into its
place.
-/
namespace SwapList

open List

variable {α κ : Type} [DecidableEq κ] (l : List (κ × α))

def lookupIndex (key : κ) : Option Nat := l.findIdx? fun x => x.1 = key

def lookup (key : κ) : Option α :=
  match lookupIndex l key with
  | some i => (l[i]?).map (·.2)
  | none => none

def remove (key : κ) : List (κ × α) :=
  match lookupIndex l key, l.getLast? with
  | some i, some last => (l.set i last).dropLast
  | _, _ => l

def append (key : κ) (elt : α) : List (κ × α) := l ++ [(key, elt)]

variable {key : κ} {l : List (κ × α)} {v : α}

theorem lookupIndex_eq_some {i : Nat}
    (h : lookupIndex l key = some i) : ∃ v, l[i]? = some (key, v) := by
  obtain ⟨hi, hkey, -⟩ := List.findIdx?_eq_some_iff_getElem.mp h
  simp only [decide_eq_true_eq] at hkey
  exact ⟨l[i].2, by rw [List.getElem?_eq_getElem hi, ← hkey]⟩

theorem lookupIndex_eq_none : lookupIndex l key = none ↔ key ∉ l.map (·.1) := by
  unfold lookupIndex
  rw [List.findIdx?_eq_none_iff]
  simp only [decide_eq_false_iff_not, mem_map, not_exists, not_and]

theorem lookup_eq_none : lookup l key = none ↔ key ∉ l.map (·.1) := by
  rw [← lookupIndex_eq_none]
  unfold lookup
  cases h : lookupIndex l key with
  | none => simp
  | some i =>
    obtain ⟨v, hv⟩ := lookupIndex_eq_some h
    simp [hv]

theorem lookup_eq_some (h : lookup l key = some v) :
    ∃ i, lookupIndex l key = some i ∧ l[i]? = some (key, v) := by
  unfold lookup at h
  cases hi : lookupIndex l key with
  | none =>
    rw [hi] at h
    cases h
  | some i =>
    obtain ⟨w, hw⟩ := lookupIndex_eq_some hi
    rw [hi] at h
    simp only [hw, Option.map_some, Option.some.injEq] at h
    exact ⟨i, rfl, h ▸ hw⟩

theorem mem_of_lookup (h : lookup l key = some v) : (key, v) ∈ l := by
  obtain ⟨i, -, hi⟩ := lookup_eq_some h
  exact mem_of_getElem? hi

theorem lookup_of_mem (hl : (l.map (·.1)).Nodup) (h : (key, v) ∈ l) : lookup l key = some v := by
  cases hlookup : lookup l key with
  | none => exact absurd (mem_map.mpr ⟨_, h, rfl⟩) (lookup_eq_none.mp hlookup)
  | some w =>
    have hmem := mem_of_lookup hlookup
    have heq : (key, w) = (key, v) := inj_on_of_nodup_map hl hmem h rfl
    rw [Prod.mk.injEq] at heq
    rw [heq.2]

/-- Moving the last element over the one at `i` removes that one. -/
theorem perm_set_dropLast {β : Type} {l : List β} {i : Nat} {x last : β} (hx : l[i]? = some x)
    (hlast : l.getLast? = some last) : l.Perm (x :: (l.set i last).dropLast) := by
  obtain ⟨init, rfl⟩ : ∃ init, l = init ++ [last] := List.getLast?_eq_some_iff.mp hlast
  by_cases hi : i < init.length
  · rw [List.getElem?_append_left hi, List.getElem?_eq_getElem hi] at hx
    cases hx
    rw [set_append_left _ _ hi, dropLast_concat]
    refine (perm_append_singleton _ _).trans ?_
    rw [set_eq_take_append_cons_drop, if_pos hi]
    have hsplit : init.Perm (init[i] :: (init.take i ++ init.drop (i + 1))) := by
      conv_lhs => rw [← take_append_drop i init, drop_eq_getElem_cons hi]
      exact perm_middle
    refine (hsplit.cons last).trans ((Perm.swap _ _ _).trans ?_)
    exact (perm_middle.symm).cons _
  · have hlen := (List.getElem?_eq_some_iff.mp hx).1
    have heq : i = init.length := by
      rw [length_append, length_singleton] at hlen
      omega
    subst heq
    rw [List.getElem?_append_right (Nat.le_refl _), Nat.sub_self] at hx
    cases hx
    rw [set_append_right _ _ (Nat.le_refl _), Nat.sub_self]
    simp only [set_cons_zero, dropLast_concat]
    exact perm_append_singleton _ _

theorem perm_remove (h : lookup l key = some v) : l.Perm ((key, v) :: remove l key) := by
  obtain ⟨i, hi, hv⟩ := lookup_eq_some h
  unfold remove
  rw [hi]
  cases hlast : l.getLast? with
  | none =>
    rw [List.getLast?_eq_none_iff] at hlast
    rw [hlast] at hv
    cases hv
  | some last => exact perm_set_dropLast hv hlast

theorem remove_of_lookup_none (h : lookup l key = none) : remove l key = l := by
  unfold remove
  rw [lookupIndex_eq_none.mpr (lookup_eq_none.mp h)]

theorem mem_of_mem_remove {x : κ × α} (h : x ∈ remove l key) : x ∈ l := by
  cases hl : lookup l key with
  | none => rwa [remove_of_lookup_none hl] at h
  | some v => exact (perm_remove hl).mem_iff.mpr (mem_cons_of_mem _ h)

theorem nodup_remove (key : κ) (h : (l.map (·.1)).Nodup) : ((remove l key).map (·.1)).Nodup := by
  cases hl : lookup l key with
  | none => rwa [remove_of_lookup_none hl]
  | some v =>
    have hperm := ((perm_remove hl).map (·.1)).nodup_iff.mp h
    exact (nodup_cons.mp hperm).2

end SwapList
