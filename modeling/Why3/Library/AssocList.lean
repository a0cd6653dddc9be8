import Mathlib
/-!
Association lists. A key finds its first binding.
-/
namespace AssocList

open List

variable {α β γ : Type} [BEq α]

theorem lookup_zip_map (f : β → γ) (w : α) (vl : List α) (tl : List β) :
    (vl.zip (tl.map f)).lookup w = ((vl.zip tl).lookup w).map f := by
  induction vl generalizing tl with
  | nil => rfl
  | cons v vl ih =>
    cases tl with
    | nil => rfl
    | cons t tl =>
      simp only [map_cons, zip_cons_cons, lookup_cons]
      split
      · rfl
      · exact ih tl

variable {w : α} {l : List (α × β)}

theorem lookup_zip_mem [LawfulBEq α] {vl : List α} {tl : List β} (hlen : tl.length = vl.length)
    (hw : w ∈ vl) :
    ∃ (i : Nat) (a : β), vl[i]? = some w ∧ tl[i]? = some a ∧ (vl.zip tl).lookup w = some a := by
  induction vl generalizing tl with
  | nil => cases hw
  | cons v vl ih =>
    cases tl with
    | nil => cases hlen
    | cons t tl =>
      by_cases hv : w = v
      · subst hv
        exact ⟨0, t, rfl, rfl, by simp⟩
      · have hw' : w ∈ vl := (mem_cons.mp hw).resolve_left hv
        obtain ⟨i, a, hi, ha, hl⟩ := ih (by simpa using hlen) hw'
        refine ⟨i + 1, a, by simpa using hi, by simpa using ha, ?_⟩
        rw [zip_cons_cons, lookup_cons, beq_eq_false_iff_ne.mpr hv]
        exact hl

theorem lookup_map_const [LawfulBEq α] (b : β) (w : α) (l : List α) :
    (l.map fun x => (x, b)).lookup w = if l.contains w then some b else none := by
  induction l with
  | nil => rfl
  | cons x l ih =>
    simp only [map_cons, lookup_cons, contains_cons, ih]
    cases w == x <;> rfl

theorem mem_of_lookup [LawfulBEq α] {b : β} (h : l.lookup w = some b) : (w, b) ∈ l := by
  induction l with
  | nil => cases h
  | cons x l ih =>
    rw [lookup_cons] at h
    split at h
    next hx =>
      cases h
      rw [eq_of_beq hx]
      exact mem_cons_self
    next => exact mem_cons_of_mem _ (ih h)

/-- With distinct keys every binding is the one its key finds. -/
theorem lookup_of_mem [LawfulBEq α] {b : β} (hl : (l.map (·.1)).Nodup)
    (h : (w, b) ∈ l) : l.lookup w = some b := by
  induction l with
  | nil => cases h
  | cons x l ih =>
    rw [map_cons, nodup_cons] at hl
    rw [lookup_cons]
    rcases mem_cons.mp h with rfl | h
    · simp
    · have hx : (w == x.1) = false := by
        apply beq_eq_false_iff_ne.mpr
        rintro rfl
        exact hl.1 (mem_map.mpr ⟨_, h, rfl⟩)
      rw [hx]
      exact ih hl.2 h

theorem lookup_isSome_iff [LawfulBEq α] : (l.lookup w).isSome = true ↔ w ∈ l.map (·.1) := by
  induction l with
  | nil => simp
  | cons x l ih =>
    cases h : w == x.1 with
    | true => simp [eq_of_beq h]
    | false => simp [beq_eq_false_iff_ne.mp h]

end AssocList
