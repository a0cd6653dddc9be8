import Mathlib

/-!
Functions on lists given by an equation for each constructor, as a recursion over
terms gives them for the lists of subterms.
-/
namespace ListRec

open List

variable {α β : Type}

/-- Two lists of one length are followed side by side. -/
theorem induct₂ {motive : (l : List α) → (m : List β) → l.length = m.length → Prop}
    (nil : motive [] [] rfl) (cons : ∀ a l b m h, motive l m h →
      motive (a :: l) (b :: m) (congrArg Nat.succ h)) (l : List α) (m : List β)
    (h : l.length = m.length) : motive l m h := by
  induction l generalizing m with
  | nil =>
    cases m with
    | nil => exact nil
    | cons b m => cases h
  | cons a l ih =>
    cases m with
    | nil => cases h
    | cons b m => exact cons a l b m _ (ih m (Nat.succ.inj h))

/-- A fold from the left follows a list that is built from the elements. -/
theorem foldl_flatMap {γ : Type} {R : γ → List β → Prop} {f : γ → α → γ} {g : α → List β}
    {l : List α} (step : ∀ x ∈ l, ∀ s acc, R s acc → R (f s x) (acc ++ g x)) {s : γ}
    {acc : List β} (h : R s acc) : R (l.foldl f s) (acc ++ l.flatMap g) := by
  induction l generalizing s acc with
  | nil =>
    rw [flatMap_nil, append_nil]
    exact h
  | cons x l ih =>
    rw [foldl_cons, flatMap_cons, ← append_assoc]
    exact ih (forall_mem_cons.mp step).2 (step x mem_cons_self s acc h)

variable {F : List α → List β} (hnil : F [] = [])
include hnil

theorem eq_map {f : α → β} (hcons : ∀ a l, F (a :: l) = f a :: F l) (l : List α) :
    F l = l.map f := by
  induction l with
  | nil => exact hnil
  | cons a l ih => rw [hcons, ih, map_cons]

theorem eq_flatMap {f : α → List β} (hcons : ∀ a l, F (a :: l) = f a ++ F l) (l : List α) :
    F l = l.flatMap f := by
  induction l with
  | nil => exact hnil
  | cons a l ih => rw [hcons, ih, flatMap_cons]

end ListRec
