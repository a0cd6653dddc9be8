import Mathlib

/-!
Lists read side by side. With distinct keys in one list, the elements of the other
lists at the place of a key are found from it.
-/
namespace Zip

open List

variable {α β γ κ : Type}

variable {a : α} {b : β} {keys : List κ} {l : List α} {m : List β}

section

variable {k : κ} (hkeys : keys.Nodup) (ha : (k, a) ∈ keys.zip l) (hb : (k, b) ∈ keys.zip m)
include hkeys ha hb

theorem mem_zip_of_keys : (k, (a, b)) ∈ keys.zip (l.zip m) := by
  obtain ⟨i, hi⟩ := mem_iff_getElem?.mp ha
  obtain ⟨j, hj⟩ := mem_iff_getElem?.mp hb
  rw [getElem?_zip_eq_some] at hi hj
  have hlt : i < keys.length := (List.getElem?_eq_some_iff.mp hi.1).1
  cases (getElem?_inj hlt hkeys).mp (hi.1.trans hj.1.symm)
  refine mem_iff_getElem?.mpr ⟨i, ?_⟩
  rw [getElem?_zip_eq_some, getElem?_zip_eq_some]
  exact ⟨hi.1, hi.2, hj.2⟩

theorem mem_of_keys : (a, b) ∈ l.zip m :=
  (of_mem_zip (mem_zip_of_keys hkeys ha hb)).2

end

theorem exists_key (hlen : l.length = keys.length)
    (h : (a, b) ∈ l.zip m) : ∃ k, (k, a) ∈ keys.zip l ∧ (k, b) ∈ keys.zip m := by
  obtain ⟨i, hi⟩ := mem_iff_getElem?.mp h
  rw [getElem?_zip_eq_some] at hi
  have hlt : i < keys.length := hlen ▸ (List.getElem?_eq_some_iff.mp hi.1).1
  have hk : keys[i]? = some keys[i] := getElem?_eq_getElem hlt
  exact ⟨keys[i], mem_iff_getElem?.mpr ⟨i, getElem?_zip_eq_some.mpr ⟨hk, hi.1⟩⟩,
    mem_iff_getElem?.mpr ⟨i, getElem?_zip_eq_some.mpr ⟨hk, hi.2⟩⟩⟩

/-- Two concatenations with parts of one length are read part by part. -/
theorem mem_zip_flatMap {l : List γ} {g : γ → List α} {g' : γ → List β}
    (hlen : ∀ c ∈ l, (g c).length = (g' c).length) {x : α × β} :
    x ∈ (l.flatMap g).zip (l.flatMap g') ↔ ∃ c ∈ l, x ∈ (g c).zip (g' c) := by
  induction l with
  | nil => simp
  | cons c l ih =>
    rw [flatMap_cons, flatMap_cons, zip_append (hlen c mem_cons_self),
      mem_append, ih (forall_mem_cons.mp hlen).2]
    simp only [mem_cons, exists_eq_or_imp]

theorem mem_zip_reverse (hlen : l.length = m.length) {x : α × β} :
    x ∈ l.reverse.zip m.reverse ↔ x ∈ l.zip m := by
  rw [zip_eq_zipWith, zip_eq_zipWith, ← reverse_zipWith hlen, mem_reverse]

end Zip
